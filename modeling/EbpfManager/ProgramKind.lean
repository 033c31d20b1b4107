namespace EbpfManager

-- Where in the kernel a program runs.
inductive ProgramKind
  | unspecified
  | socketFilter
  | kprobe
  | classifier
  | action
  | tracepoint
  | xdp
  | perfEvent
  deriving DecidableEq, Repr

namespace ProgramKind

-- All kinds, each at the position that is its number.
def all : List ProgramKind :=
  [unspecified, socketFilter, kprobe, classifier, action, tracepoint, xdp, perfEvent]

def number : ProgramKind → Nat
  | unspecified => 0
  | socketFilter => 1
  | kprobe => 2
  | classifier => 3
  | action => 4
  | tracepoint => 5
  | xdp => 6
  | perfEvent => 7

-- The kind with a given number; kernels know more kinds than these.
def ofNumber? (n : Nat) : Option ProgramKind :=
  all[n]?

@[simp] theorem ofNumber?_number (kind : ProgramKind) : ofNumber? kind.number = some kind := by
  cases kind <;> rfl

-- The name in messages and listings.
def name : ProgramKind → String
  | unspecified => "Unspec"
  | socketFilter => "SocketFilter"
  | kprobe => "Kprobe"
  | classifier => "SchedCls"
  | action => "SchedAct"
  | tracepoint => "Tracepoint"
  | xdp => "XDP"
  | perfEvent => "PerfEvent"

-- The name of the kind's number in the kernel's interface.
def kernelName : ProgramKind → String
  | unspecified => "BPF_PROG_TYPE_UNSPEC"
  | socketFilter => "BPF_PROG_TYPE_SOCKET_FILTER"
  | kprobe => "BPF_PROG_TYPE_KPROBE"
  | classifier => "BPF_PROG_TYPE_SCHED_CLS"
  | action => "BPF_PROG_TYPE_SCHED_ACT"
  | tracepoint => "BPF_PROG_TYPE_TRACEPOINT"
  | xdp => "BPF_PROG_TYPE_XDP"
  | perfEvent => "BPF_PROG_TYPE_PERF_EVENT"

-- The kernel's number for attaching to the XDP hook.
def xdpAttachType : Nat := 37

-- How the program says at load time that it will be attached. Only XDP programs are attached
-- through a link, which they have to announce.
def expectedAttachType : ProgramKind → Nat
  | xdp => xdpAttachType
  | _ => 0

-- How section names begin, and the kind that such a section holds. No beginning extends another
-- one, so at most one of them fits.
def sectionNames : List (String × ProgramKind) :=
  [("xdp", xdp), ("socket", socketFilter), ("kprobe/", kprobe), ("kretprobe/", kprobe),
    ("tracepoint/", tracepoint), ("perf_event", perfEvent)]

-- The kind of program in a section, if the section's name stands for one.
def ofSectionName? (sectionName : String) : Option ProgramKind :=
  (sectionNames.find? fun (start, _) => start.toList.isPrefixOf sectionName.toList).map Prod.snd

end ProgramKind

end EbpfManager
