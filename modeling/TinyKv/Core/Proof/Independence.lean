import TinyKv.Core.Proof.KeyValue

/-!
# What flushes and the configuration do not change

A run in which no call throws answers its puts and gets as a map does (`mapHistory`): a put sets, a
delete clears, whether it is acknowledged or not, and a flush does nothing (`Lsm.told_run`). So the
capacity of the memtable, the number of levels, the table format and the flushes in between are not
seen by them (`runs_agree`). The answer to a delete is another matter: a key that has been deleted
counts as existing as long as its tombstone is in the memtable.
-/

namespace TinyKv

open Bytes

/-- A call that reads or writes a key. -/
def Call.isData : Call → Bool
  | .put _ _ | .get _ | .del _ => true
  | .forceFlushForTests | .forceCompactForTests => false

/-- A call whose answer does not depend on where the entries are. -/
def Call.isTold : Call → Bool
  | .put _ _ | .get _ => true
  | .del _ | .forceFlushForTests | .forceCompactForTests => false

/-- The puts and gets of a history. -/
def told (history : List (Call × Option Response)) : List (Call × Option Response) :=
  history.filter fun x => x.1.isTold

/-- The puts and gets of calls on a map, with their answers. -/
def mapHistory (val : Bytes → Option Bytes) : List Call → List (Call × Option Response)
  | [] => []
  | .put key v :: cs =>
    (.put key v, some ⟨true, "OK", none⟩) :: mapHistory (Function.update val key (some v)) cs
  | .get key :: cs => (.get key, some (readResponse (val key))) :: mapHistory val cs
  | .del key :: cs => mapHistory (Function.update val key none) cs
  | .forceFlushForTests :: cs | .forceCompactForTests :: cs => mapHistory val cs

theorem mapHistory_filter (val : Bytes → Option Bytes) (cs : List Call) :
    mapHistory val (cs.filter Call.isData) = mapHistory val cs := by
  induction cs generalizing val with
  | nil => rfl
  | cons c cs ih => cases c <;> simp [List.filter_cons, Call.isData, mapHistory, ih]

namespace Lsm

variable {capacity : Nat} {writable : List Entry → Bool} {s : Lsm}

theorem read_insert (s : Lsm) (e : Entry) :
    { s with mem := s.mem.insert e }.read =
      Function.update s.read e.key ((live (some e)).map Entry.val) := by
  funext k
  rw [read, find_insert, Function.update_apply]
  by_cases hk : e.key = k
  · rw [if_pos hk, if_pos hk.symm]
  · rw [if_neg hk, if_neg fun h => hk h.symm]
    rfl

theorem read_flush (s : Lsm) : (s.flush writable).2.read = s.read := by
  funext k
  rw [read, find_flush, read]

theorem flush_cases (writable : List Entry → Bool) (s : Lsm) :
    (∃ s', s.flush writable = (true, s') ∧ s'.readOnly = false) ∨
      ∃ s', s.flush writable = (false, s') := by
  unfold flush
  by_cases hw : writable s.mem.toList = true
  · rw [if_pos hw]
    exact .inl ⟨_, rfl, rfl⟩
  · rw [if_neg hw]
    exact .inr ⟨_, rfl⟩

theorem write_ok {e : Entry} (hro : s.readOnly = false) (hok : (s.write capacity writable e).1 ≠ none) :
    (s.write capacity writable e).1 = some ⟨true, "OK", none⟩ ∧
      (s.write capacity writable e).2.readOnly = false ∧
      (s.write capacity writable e).2.read =
        Function.update s.read e.key ((live (some e)).map Entry.val) := by
  by_cases hfull : s.mem.size = capacity
  · have hread := @read_flush writable s
    rcases flush_cases writable s with ⟨s', hflush, hro'⟩ | ⟨s', hflush⟩
    · rw [hflush] at hread
      simp only [write, hfull, hflush, ↓reduceIte]
      exact ⟨trivial, hro', by rw [read_insert, hread]⟩
    · simp [write, hfull, hflush] at hok
  · simp only [write, hfull, ↓reduceIte]
    exact ⟨trivial, hro, read_insert s e⟩

theorem read_of_not_present {key : Bytes} (h : s.present key = false) : s.read key = none := by
  simp only [present, Bool.or_eq_false_iff, Option.isSome_eq_false_iff, Option.isNone_iff_eq_none] at h
  rw [read, find, h.1, Option.none_or, h.2]
  rfl

/-- **One call** that does not throw moves the reads as it moves a map. -/
theorem told_step (hro : s.readOnly = false) {c : Call} (hok : (s.step capacity writable c).1 ≠ none)
    (cs : List Call) :
    (s.step capacity writable c).2.readOnly = false ∧
      mapHistory s.read (c :: cs) = told [(c, (s.step capacity writable c).1)] ++
        mapHistory (s.step capacity writable c).2.read cs := by
  cases c with
  | put key val =>
    simp only [step, hro, Bool.false_eq_true, ↓reduceIte] at hok ⊢
    obtain ⟨hres, hro', hread⟩ := write_ok hro hok
    refine ⟨hro', ?_⟩
    rw [hres, hread]
    rfl
  | get key => exact ⟨hro, rfl⟩
  | del key =>
    simp only [step, hro, Bool.false_eq_true, ↓reduceIte] at hok ⊢
    cases hp : s.present key with
    | false =>
      refine ⟨hro, ?_⟩
      rw [mapHistory, Function.update_eq_self_iff.2 (read_of_not_present hp).symm]
      rfl
    | true =>
      rw [hp] at hok
      obtain ⟨-, hro', hread⟩ := write_ok hro hok
      refine ⟨hro', ?_⟩
      simp only [Bool.not_true, Bool.false_eq_true, ↓reduceIte]
      rw [mapHistory, hread]
      rfl
  | forceFlushForTests =>
    have hread := @read_flush writable s
    rcases flush_cases writable s with ⟨s', hflush, hro'⟩ | ⟨s', hflush⟩
    · rw [hflush] at hread
      simp only [step, hflush]
      refine ⟨hro', ?_⟩
      rw [mapHistory, hread]
      rfl
    · simp [step, hflush] at hok
  | forceCompactForTests => exact ⟨hro, rfl⟩

/-- **Every run** in which no call throws. -/
theorem told_run (hro : s.readOnly = false) {cs : List Call}
    (hok : ∀ r ∈ (Machine.run (step capacity writable) s cs).1, r ≠ none) :
    told (cs.zip (Machine.run (step capacity writable) s cs).1) = mapHistory s.read cs := by
  induction cs generalizing s with
  | nil => rfl
  | cons c cs ih =>
    rw [Machine.run_cons] at hok ⊢
    obtain ⟨hro', hstep⟩ := told_step hro (hok _ List.mem_cons_self) cs
    rw [hstep, ← ih hro' fun r hr => hok r (List.mem_cons_of_mem _ hr)]
    exact List.filter_append [(c, (s.step capacity writable c).1)] _

end Lsm

theorem told_runFresh {config : DbFactoryConfig} (hlev : 0 ≤ config.maxLevels)
    (hcap : 0 ≤ config.memtableCapacity) {steps : List (Call × Env)} (henv : ∀ c ∈ steps, c.2.NoFault)
    (hfits : config.tableFormat = .BlockBased → Fits (runFresh config steps).2.2.effects)
    (hok : ∀ r ∈ (runFresh config steps).1, ∃ resp, r = .ok resp) :
    told (history steps (runFresh config steps).1) =
      mapHistory (fun _ => none) ((steps.map Prod.fst).filter Call.isData) := by
  have hout := (runFresh_refines config hlev hcap henv hfits).1
  rw [history, hout, mapHistory_filter]
  refine Lsm.told_run rfl fun r hr => ?_
  rw [← hout] at hr
  obtain ⟨x, hx, rfl⟩ := List.mem_map.1 hr
  obtain ⟨resp, rfl⟩ := hok x hx
  exact Option.some_ne_none resp

/-- **Flushes and the configuration are not seen.** Two runs with the same puts, gets and deletes, in
any two configurations and with any flushes and compactions in between, none of which throws: every
put and every get is answered alike. -/
theorem runs_agree {config config' : DbFactoryConfig} (hlev : 0 ≤ config.maxLevels)
    (hlev' : 0 ≤ config'.maxLevels) (hcap : 0 ≤ config.memtableCapacity)
    (hcap' : 0 ≤ config'.memtableCapacity) {steps steps' : List (Call × Env)}
    (hdata : (steps.map Prod.fst).filter Call.isData = (steps'.map Prod.fst).filter Call.isData)
    (henv : ∀ c ∈ steps, c.2.NoFault) (henv' : ∀ c ∈ steps', c.2.NoFault)
    (hfits : config.tableFormat = .BlockBased → Fits (runFresh config steps).2.2.effects)
    (hfits' : config'.tableFormat = .BlockBased → Fits (runFresh config' steps').2.2.effects)
    (hok : ∀ r ∈ (runFresh config steps).1, ∃ resp, r = .ok resp)
    (hok' : ∀ r ∈ (runFresh config' steps').1, ∃ resp, r = .ok resp) :
    told (history steps (runFresh config steps).1) =
      told (history steps' (runFresh config' steps').1) := by
  rw [told_runFresh hlev hcap henv hfits hok, told_runFresh hlev' hcap' henv' hfits' hok', hdata]

/-- A delete of a deleted key, a flush by capacity and one by call. -/
def scattered : List (Call × Env) :=
  [(.put "a" "1", {}), (.del "a", {}), (.put "b" "2", { nameCounter := 1 }), (.del "a", {}),
    (.forceFlushForTests, { nameCounter := 2 }), (.get "a", {}), (.get "b", {})]

/-- The same without the flush. -/
def gathered : List (Call × Env) :=
  [(.put "a" "1", {}), (.del "a", {}), (.put "b" "2", {}), (.del "a", {}), (.get "a", {}),
    (.get "b", {})]

/-- The second delete succeeds in one of the two runs only. -/
theorem runs_agree_scattered :
    (runFresh { memtableCapacity := 1 } scattered).1[3]? ≠
        (runFresh { tableFormat := .BlockBased } gathered).1[3]? ∧
      told (history scattered (runFresh { memtableCapacity := 1 } scattered).1) =
        told (history gathered (runFresh { tableFormat := .BlockBased } gathered).1) := by
  have hfault : ∀ c ∈ scattered ++ gathered, c.2.NoFault := by
    intro c hc
    simp only [scattered, gathered, List.cons_append, List.nil_append, List.mem_cons,
      List.not_mem_nil, or_false] at hc
    rcases hc with rfl | rfl | rfl | rfl | rfl | rfl | rfl | rfl | rfl | rfl | rfl | rfl | rfl <;>
      exact ⟨fun _ => rfl, rfl, rfl⟩
  have hall : ∀ rs : List (Except Fault Response), rs.all Except.isOk = true →
      ∀ r ∈ rs, ∃ resp, r = .ok resp := by
    intro rs h r hr
    have := List.all_eq_true.1 h r hr
    cases r with
    | ok resp => exact ⟨resp, rfl⟩
    | error f => cases this
  refine ⟨by decide +kernel, ?_⟩
  exact runs_agree (by decide) (by decide) (by decide) (by decide) (by decide)
    (fun c hc => hfault c (List.mem_append_left _ hc))
    (fun c hc => hfault c (List.mem_append_right _ hc))
    (fun h => by cases h) (fun _ => ⟨by decide +kernel, by decide +kernel⟩) (hall _ (by decide +kernel))
    (hall _ (by decide +kernel))

end TinyKv
