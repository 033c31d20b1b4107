namespace EbpfManager

-- What a map is: how it is indexed and what it holds.
inductive MapKind
  | unspecified
  | hash
  | array
  | programArray
  | perfEventArray
  | perCpuHash
  | perCpuArray
  | stackTrace
  | cgroupArray
  | lruHash
  | lruPerCpuHash
  | lpmTrie
  | arrayOfMaps
  | hashOfMaps
  deriving DecidableEq, Repr

namespace MapKind

-- All kinds, each at the position that is its number.
def all : List MapKind :=
  [unspecified, hash, array, programArray, perfEventArray, perCpuHash, perCpuArray, stackTrace,
    cgroupArray, lruHash, lruPerCpuHash, lpmTrie, arrayOfMaps, hashOfMaps]

def number : MapKind → Nat
  | unspecified => 0
  | hash => 1
  | array => 2
  | programArray => 3
  | perfEventArray => 4
  | perCpuHash => 5
  | perCpuArray => 6
  | stackTrace => 7
  | cgroupArray => 8
  | lruHash => 9
  | lruPerCpuHash => 10
  | lpmTrie => 11
  | arrayOfMaps => 12
  | hashOfMaps => 13

-- The kind with a given number; kernels know more kinds than these.
def ofNumber? (n : Nat) : Option MapKind :=
  all[n]?

@[simp] theorem ofNumber?_number (kind : MapKind) : ofNumber? kind.number = some kind := by
  cases kind <;> rfl

theorem number_lt (kind : MapKind) : kind.number < 14 := by
  cases kind <;> decide

theorem number_of_ofNumber? {n : Nat} {kind : MapKind} (h : ofNumber? n = some kind) :
    kind.number = n := by
  match n, h with
  | 0, h | 1, h | 2, h | 3, h | 4, h | 5, h | 6, h | 7, h | 8, h | 9, h | 10, h | 11, h | 12, h
  | 13, h => cases h; rfl
  | n + 14, h => simp [ofNumber?, all] at h

-- The name in messages and listings.
def name : MapKind → String
  | unspecified => "Unspec"
  | hash => "Hash"
  | array => "Array"
  | programArray => "ProgArray"
  | perfEventArray => "PerfEventArray"
  | perCpuHash => "PerCPUHash"
  | perCpuArray => "PerCPUArray"
  | stackTrace => "StackTrace"
  | cgroupArray => "CgroupArray"
  | lruHash => "LRUHash"
  | lruPerCpuHash => "LRUPerCPUHash"
  | lpmTrie => "LPMTrie"
  | arrayOfMaps => "ArrayOfMaps"
  | hashOfMaps => "HashOfMaps"

-- The name of the kind's number in the kernel's interface.
def kernelName : MapKind → String
  | unspecified => "BPF_MAP_TYPE_UNSPEC"
  | hash => "BPF_MAP_TYPE_HASH"
  | array => "BPF_MAP_TYPE_ARRAY"
  | programArray => "BPF_MAP_TYPE_PROG_ARRAY"
  | perfEventArray => "BPF_MAP_TYPE_PERF_EVENT_ARRAY"
  | perCpuHash => "BPF_MAP_TYPE_PERCPU_HASH"
  | perCpuArray => "BPF_MAP_TYPE_PERCPU_ARRAY"
  | stackTrace => "BPF_MAP_TYPE_STACK_TRACE"
  | cgroupArray => "BPF_MAP_TYPE_CGROUP_ARRAY"
  | lruHash => "BPF_MAP_TYPE_LRU_HASH"
  | lruPerCpuHash => "BPF_MAP_TYPE_LRU_PERCPU_HASH"
  | lpmTrie => "BPF_MAP_TYPE_LPM_TRIE"
  | arrayOfMaps => "BPF_MAP_TYPE_ARRAY_OF_MAPS"
  | hashOfMaps => "BPF_MAP_TYPE_HASH_OF_MAPS"

-- Every index below the number of entries always exists.
def isArray : MapKind → Bool
  | array | programArray | perfEventArray | perCpuArray | cgroupArray | arrayOfMaps => true
  | _ => false

-- Arrays of handles to kernel objects. The kernel takes plain writes only on these.
def isHandleArray : MapKind → Bool
  | programArray | perfEventArray | cgroupArray | arrayOfMaps => true
  | _ => false

-- Each processor has a value of its own.
def isPerCpu : MapKind → Bool
  | perCpuHash | perCpuArray | lruPerCpuHash => true
  | _ => false

-- The values are maps.
def isMapOfMaps : MapKind → Bool
  | arrayOfMaps | hashOfMaps => true
  | _ => false

end MapKind

-- What the values of a map in a map look like, and everything about a map that its creation
-- fixes: its kind, its sizes in octets, its capacity and its flags.
structure MapShape where
  kind : MapKind
  keySize : UInt32
  valueSize : UInt32
  maxEntries : UInt32
  flags : UInt32
  deriving DecidableEq, Repr

end EbpfManager
