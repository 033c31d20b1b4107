import EbpfManager.CpuList
import EbpfManager.Encoding
import EbpfManager.Handle
import EbpfManager.Instruction
import EbpfManager.KernelRelease
import EbpfManager.Object.Description
import EbpfManager.Session.Report
import EbpfManager.Syscall.Dialogue
import EbpfManager.Proofs.Endings
import EbpfManager.Proofs.SortedTable
import EbpfManager.Proofs.Handles.Machine
import EbpfManager.Proofs.Handles.Host
import EbpfManager.Proofs.Handles.Others
import EbpfManager.Proofs.Handles.Maps
import EbpfManager.Proofs.Handles.MapCommands
import EbpfManager.Proofs.Handles.Programs
import EbpfManager.Proofs.Handles.Snapshots
import EbpfManager.Proofs.Handles.Collections
import EbpfManager.Proofs.Handles.Sessions
import EbpfManager.Proofs.Handles.Closing
import EbpfManager.Proofs.Handles.Ownership
import EbpfManager.Proofs.Texts
import EbpfManager.Proofs.Objects.WellFormed
import EbpfManager.Proofs.Loading.Creation
import EbpfManager.Proofs.Loading.Resolution
import EbpfManager.Proofs.Files.Requests
import EbpfManager.Proofs.Loading.Pins
import EbpfManager.Proofs.Loading.Rollback
import EbpfManager.Proofs.Loading.Assembly
import EbpfManager.Proofs.Linking.Instructions
import EbpfManager.Proofs.Objects.Functions
import EbpfManager.Proofs.Loading.Links
import EbpfManager.Proofs.Objects.Sharing
import EbpfManager.Proofs.Objects.Faults
import EbpfManager.Proofs.Objects.Ranges
import EbpfManager.Proofs.Entries.Dictionary
import EbpfManager.Proofs.Entries.References
import EbpfManager.Proofs.Entries.Slots
import EbpfManager.Proofs.Building.RoundTrip
import EbpfManager.Proofs.Lifecycle.Programs
import EbpfManager.Proofs.Lifecycle.Maps
import EbpfManager.Proofs.Entries.Widths
import EbpfManager.Proofs.Loading.Losses
import EbpfManager.Proofs.Introspection.Mirrors
import EbpfManager.Proofs.Entries.Processors
import EbpfManager.Proofs.Entries.Cursors
import EbpfManager.Proofs.Entries.Walks
import EbpfManager.Proofs.Lifecycle.Creation
import EbpfManager.Proofs.Lifecycle.Pins
import EbpfManager.Proofs.Linking.Relocations
import EbpfManager.Proofs.Entries.Readings
import EbpfManager.Proofs.Numerals
import EbpfManager.Proofs.Blanks
import EbpfManager.Proofs.CpuLists
import EbpfManager.Proofs.KernelReleases
import EbpfManager.Proofs.Syscall.Blocks
import EbpfManager.Proofs.Syscall.Reports
import EbpfManager.Proofs.Syscall.Programs
import EbpfManager.Proofs.Kernel.Verdicts
import EbpfManager.Proofs.Lifecycle.Loads
