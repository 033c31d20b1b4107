import EbpfManager.Proofs.Entries.Keys
import EbpfManager.Proofs.Entries.Shapes

namespace EbpfManager

-- That a request is about entries, with keys of one width, and with a value or room for one of another.
def Request.Measures (key value : Nat) : Request → Prop
  | .mapLookup _ bytes size     => bytes.length = key ∧ size = value
  | .mapUpdate _ bytes octets _ => bytes.length = key ∧ octets.length = value
  | .mapDelete _ bytes          => bytes.length = key
  | .mapNextKey _ bytes? size   => (∀ bytes, bytes? = some bytes → bytes.length = key) ∧ size = key
  | _                           => False

namespace Machine

-- The widths are those of the map that the request is about: what the kernel compares them to, and what
-- this has to be for the sizes and the kind.
def Fits (machine : Machine) (r : Request) : Prop :=
  ∃ fd id map, r.fd? = some fd ∧ machine.mapAt fd = .ok (id, map) ∧
    r.Measures map.info.keySize.toNat map.valueLength ∧
    map.valueLength = valueLength map.kind map.info.valueSize.toNat

-- Each request finds the machine as the ones before have left it.
def FitsAll (machine : Machine) : List CallRecord → Prop
  | []            => True
  | call :: calls => machine.Fits call.request ∧ (machine.answer call.request).2.FitsAll calls

end Machine

namespace Map

def valueWidth (m : Map) : Nat :=
  Machine.valueLength m.kind m.valueSize

-- The widths in which the owner of a map asks about entries.
structure Asked (m : Map) (r : Request) : Prop where
  accesses : r.Accesses m
  measures : r.Measures m.keySize m.valueWidth

namespace Sees

variable {m : Map} {id : Nat} {map : KernelMap} {h : Host} {r : Request}

theorem valueWidth_eq (o : m.Sees id map h) : m.valueWidth = map.valueLength := by
  rw [valueWidth, o.mirrors.kind, o.mirrors.valueSize, o.wellFormed.valueLength]

theorem bufferSize_eq (o : m.Sees id map h) : m.bufferSize = .ok m.valueWidth := by
  rw [Map.bufferSize_eq o.mirrors, KernelMap.size_form o.wellFormed, o.valueWidth_eq]

theorem length_of_encodeKey (o : m.Sees id map h) {key : Datum} {bytes : Bytes}
    (hk : m.encodeKey key = .ok bytes) : bytes.length = m.keySize :=
  o.mirrors.keySize ▸ (KernelMap.encodeKey_eq_ok (o.encodeKey_eq_ok hk)).left

theorem length_of_encodeValue (o : m.Sees id map h) {value : Datum} {bytes : Bytes}
    (hv : m.encodeValue value = .ok bytes) : bytes.length = m.valueWidth := by
  rw [Map.encodeValue_eq o.mirrors o.wellFormed, mapError_eq_ok] at hv
  exact o.valueWidth_eq ▸ KernelMap.length_of_encodeValue o.wellFormed hv

theorem conducts_asked (o : m.Sees id map h) : m.Conducts h (·.length = m.keySize) m.Asked where
  encoded := o.length_of_encodeKey
  yielded {key h'} l := by
    obtain ⟨map', _, _, o'⟩ := o.leads l
    refine (o'.nextKey_yields key).imp_ok fun next _ hy bytes he => ?_
    obtain ⟨value, hg⟩ := hy bytes he
    exact o'.mirrors.keySize ▸ o'.wellFormed.key hg
  lookup hm hk hs := ⟨hm, hk, Except.ok.inj (hs.symm.trans o.bufferSize_eq)⟩
  update hm hk hv := ⟨hm, hk, o.length_of_encodeValue hv⟩
  delete hm hk    := ⟨hm, hk⟩
  next hm hk      := ⟨hm, hk, rfl⟩

theorem fits (o : m.Sees id map h) (hr : m.Asked r) : h.machine.Fits r := by
  obtain ⟨fd, hm, ho⟩ := o.handle
  obtain ⟨_, hm', hf⟩ := Request.Accesses.live hr.accesses
  cases hm.symm.trans hm'
  refine ⟨fd, id, map, hf, Machine.mapAt_eq ho o.there, ?_, o.wellFormed.valueLength⟩
  exact o.mirrors.keySize ▸ o.valueWidth_eq ▸ hr.measures

-- By induction on the calls. Each of them leaves the map what it was made as.
theorem fitsAll (o : m.Sees id map h) {calls : List CallRecord} (hc : ∀ call ∈ calls, m.Asked call.request) :
    h.machine.FitsAll calls := by
  induction calls generalizing h map
  case nil => trivial
  case cons call calls ih =>
    obtain ⟨hr, hc⟩ := List.forall_mem_cons.mp hc
    obtain ⟨map', _, _, o'⟩ := o.leads (.perform hr.accesses)
    exact ⟨o.fits hr, o.sane.machine call.request ▸ ih o' hc⟩

end Sees

end Map

namespace Session

variable {s : Session} {place : MapRef} {m : Map} {command : MapCommand}

-- As long as the sizes are those that the kernel was told, no key, no value and no room for one is too short or too
-- long, at any moment of a call.
theorem run_fits (r : s.Reached) (h : s.map? place = some m) (hs : m.Sized) (hc : command.Accesses) :
    ∃ calls, (s.run (.onMap place command)).2.host.calls = s.host.calls ++ calls ∧
      s.host.machine.FitsAll calls := by
  simp only [run, host_onMap h]
  by_cases hl : ∃ fd, m.handle = .live fd
  case pos =>
    obtain ⟨fd, hl⟩ := hl
    obtain ⟨id, map, hg, hm, d⟩ := r.open h hl
    have o : m.Sees id map s.host := ⟨r.told.sane, ⟨fd, hl, hg⟩, hm, d.mirrors hs⟩
    obtain ⟨calls, he, ha⟩ := (o.conducts_asked.run_leads hc fun _ _ hb => hb).calls
    exact ⟨calls, he, o.fitsAll ha⟩
  case neg =>
    -- Nothing is asked on behalf of a map that is not open.
    obtain ⟨calls, he, ha⟩ := (command.run_accesses hc m s.host).calls
    cases calls
    case nil => exact ⟨[], he, trivial⟩
    case cons call calls =>
      obtain ⟨fd, hm, _⟩ := Request.Accesses.live (ha call (by simp))
      exact (hl ⟨fd, hm⟩).elim

-- Values of five octets, for two processors in slots of eight.
def hits : Map :=
  ⟨"hits", .perCpuHash, 4, 5, 16, 0, none, none, 1, .unset⟩

def withHits : Session :=
  [.newMap "hits" hits, .onMap (.own "hits") .create, .onMap (.own "hits") (.insert (.integer 1) (.text "one"))].foldl
    (fun s c => (s.run c).2) {}

theorem withHits_reached : withHits.Reached :=
  .run _ ⟨trivial, nofun⟩ <| .run _ ⟨trivial, nofun⟩ <| .run _ ⟨rfl, nofun⟩ <| .fresh .empty

-- A walk over the one entry, which is taken out and written again.
theorem run_fits_of_hits :
    withHits.map? (.own "hits") = some { hits with cpus := 2, handle := .live 3 } ∧
    ∃ calls, (withHits.run (.onMap (.own "hits")
        (.walk [(0, .delete (.integer 1)), (0, .upsert (.integer 1) (.octets [7]))] 200))).2.host.calls =
      withHits.host.calls ++ calls ∧ withHits.host.machine.FitsAll calls :=
  have h : withHits.map? (.own "hits") = some { hits with cpus := 2, handle := .live 3 } := by decide +kernel
  ⟨h, run_fits withHits_reached h ⟨by decide, by decide, by decide⟩ trivial⟩

end Session

end EbpfManager
