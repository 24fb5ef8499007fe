import TinyKv.Core.Proof.Refine

/-!
# The database is a key-value map

Over one process lifetime, on empty directories:

* `get_eq_lastAcked`: `get` returns what the last acknowledged `put` or `del` of the key left.
* `formats_agree`: the two table formats give the same answers and throw at the same calls.
-/

namespace TinyKv

open Bytes

/-- The calls of a run with their answers, `none` for an exception. -/
def history (steps : List (Call × Env)) (results : List (Except Fault Response)) :
    List (Call × Option Response) :=
  (steps.map Prod.fst).zip (results.map Except.toOption)

/-- The run of a new database on empty directories. -/
def runFresh (config : DbFactoryConfig) (steps : List (Call × Env)) :
    List (Except Fault Response) × DbImpl StorageManagerImpl × FileSystem :=
  Machine.run DbImpl.step (createDbWithConfig config, FileSystem.empty) steps

theorem history_snoc {steps : List (Call × Env)} {results : List (Except Fault Response)}
    (h : results.length = steps.length) (c : Call × Env) (r : Except Fault Response) :
    history (steps ++ [c]) (results ++ [r]) = history steps results ++ [(c.1, r.toOption)] := by
  simp only [history, List.map_append]
  rw [List.zip_append (by simp [h])]
  rfl

theorem runFresh_refines (config : DbFactoryConfig) (hlev : 0 ≤ config.maxLevels)
    (hcap : 0 ≤ config.memtableCapacity) {steps : List (Call × Env)}
    (henv : ∀ c ∈ steps, c.2.NoFault)
    (hfits : config.tableFormat = .BlockBased → Fits (runFresh config steps).2.2.effects) :
    (runFresh config steps).1.map Except.toOption =
        (Machine.run (Lsm.step (capacityOf config) (canWrite config)) {} (steps.map Prod.fst)).1 ∧
      DbRep config (runFresh config steps).2
        (Machine.run (Lsm.step (capacityOf config) (canWrite config)) {} (steps.map Prod.fst)).2 :=
  run_refines hlev hcap createDb_rep steps henv hfits

/-- **`get` returns the last acknowledged write.** -/
theorem get_eq_lastAcked {config : DbFactoryConfig} (hcap : 1 ≤ config.memtableCapacity)
    (hlev : 0 ≤ config.maxLevels) {steps : List (Call × Env)} (henv : ∀ c ∈ steps, c.2.NoFault)
    (hnames : (drawnNames (runFresh config steps).2.2.effects).Nodup)
    (hsizes : ∀ content ∈ tableContents (runFresh config steps).2.2.effects,
      content.length < 2 ^ 63) (k : Bytes) :
    (runFresh config steps).2.1.get (runFresh config steps).2.2 k =
      .ok (match lastAcked (history steps (runFresh config steps).1) k with
        | some (some v) => ⟨true, "OK", some v⟩
        | _ => ⟨false, "Key does not exist", none⟩) := by
  obtain ⟨hout, hrep⟩ := runFresh_refines config hlev (zero_le_of_one_le hcap) henv
    fun _ => ⟨hnames, hsizes⟩
  have hread := Lsm.read_run (capacityOf config) (canWrite config) {} (steps.map Prod.fst) k
  rw [← hout] at hread
  refine (get_refines (stored_spec hlev) hrep k).trans ?_
  rw [hread, history]
  generalize lastAcked _ k = last
  cases last with
  | none => rfl
  | some v => cases v <;> rfl

/-- A run with an overwrite, a flush by capacity, a delete of a flushed key and an empty flush. -/
def sampleSteps : List (Call × Env) :=
  [(.put "a" "1", {}), (.put "b" "2", {}), (.put "a" "3", { nameCounter := 1 }), (.del "b", {}),
    (.forceFlushForTests, { nameCounter := 2 }), (.forceFlushForTests, { nameCounter := 3 }),
    (.put "c" "4", {})]

theorem sampleSteps_noFault : ∀ c ∈ sampleSteps, c.2.NoFault := by
  intro c hc
  simp only [sampleSteps, List.mem_cons, List.not_mem_nil, or_false] at hc
  rcases hc with rfl | rfl | rfl | rfl | rfl | rfl | rfl <;> exact ⟨fun _ => rfl, rfl, rfl⟩

theorem get_eq_lastAcked_sample :
    (runFresh { memtableCapacity := 2 } sampleSteps).2.1.get
        (runFresh { memtableCapacity := 2 } sampleSteps).2.2 "a" = .ok ⟨true, "OK", some "3"⟩ ∧
      (runFresh { memtableCapacity := 2 } sampleSteps).2.1.get
        (runFresh { memtableCapacity := 2 } sampleSteps).2.2 "b" =
          .ok ⟨false, "Key does not exist", none⟩ := by
  have h := fun k => @get_eq_lastAcked { memtableCapacity := 2 } (by decide) (by decide) sampleSteps
    sampleSteps_noFault (by decide +kernel) (by decide +kernel) k
  have ha : lastAcked (history sampleSteps (runFresh { memtableCapacity := 2 } sampleSteps).1) "a" =
      some (some (ofString "3")) := by decide +kernel
  have hb : lastAcked (history sampleSteps (runFresh { memtableCapacity := 2 } sampleSteps).1) "b" =
      some none := by decide +kernel
  exact ⟨by rw [h, ha], by rw [h, hb]⟩

/-- Keys and values shorter than `2 ^ 32` bytes. -/
def Call.Small : Call → Prop
  | .put key val => key.length < 2 ^ 32 ∧ val.length < 2 ^ 32
  | .get key | .del key => key.length < 2 ^ 32
  | _ => True

instance (c : Call) : Decidable c.Small :=
  match c with
  | .put _ _ => inferInstanceAs (Decidable (_ ∧ _))
  | .get _ | .del _ => inferInstanceAs (Decidable (_ < _))
  | .forceFlushForTests | .forceCompactForTests => inferInstanceAs (Decidable True)

theorem Call.Small.entry {c : Call} (h : c.Small) {e : Entry} (he : c.entry? = some e) : e.Small := by
  cases c with
  | put key val =>
    cases he
    exact h
  | del key =>
    cases he
    exact ⟨h, show (("val" : Bytes)).length < 2 ^ 32 by decide⟩
  | get key => cases he
  | forceFlushForTests => cases he
  | forceCompactForTests => cases he

theorem canWrite_congr (config config' : DbFactoryConfig) (hlev : config'.maxLevels = config.maxLevels)
    {es : List Entry} (h : ∀ e ∈ es, e.Small) : canWrite config es = canWrite config' es := by
  have hw : ∀ fmt : TableFormatKind, fmt.Writable es ↔ es ≠ [] := fun fmt =>
    ⟨fun hw => hw.ne, fun hne => TableFormatKind.writable_of_small hne h⟩
  simp only [canWrite, hw, hlev]

/-- **The two table formats are interchangeable.** Equal calls in any two environments: equal
responses, and exceptions at the same calls. -/
theorem formats_agree {config : DbFactoryConfig} (hcap : 0 ≤ config.memtableCapacity)
    (hlev : 0 ≤ config.maxLevels) {steps steps' : List (Call × Env)}
    (hcalls : steps.map Prod.fst = steps'.map Prod.fst) (hsmall : ∀ c ∈ steps, c.1.Small)
    (henv : ∀ c ∈ steps, c.2.NoFault) (henv' : ∀ c ∈ steps', c.2.NoFault)
    (hfits : Fits (runFresh { config with tableFormat := .BlockBased } steps').2.2.effects) :
    (runFresh { config with tableFormat := .InMemory } steps).1.map Except.toOption =
      (runFresh { config with tableFormat := .BlockBased } steps').1.map Except.toOption := by
  rw [(runFresh_refines { config with tableFormat := .InMemory } hlev hcap henv
      nofun).1,
    (runFresh_refines { config with tableFormat := .BlockBased } hlev hcap henv'
      fun _ => hfits).1, ← hcalls]
  have hwrites : ∀ c ∈ steps.map Prod.fst, ∀ e, c.entry? = some e → e.Small := by
    intro c hc e he
    obtain ⟨x, hx, rfl⟩ := List.mem_map.1 hc
    exact (hsmall x hx).entry he
  have hcongr := @Lsm.run_congr (capacityOf config)
    (canWrite { config with tableFormat := .InMemory })
    (canWrite { config with tableFormat := .BlockBased }) Entry.Small
    (fun es hes => by
      refine canWrite_congr _ _ ?_ hes
      rfl) {} (fun e he => by cases he) _ hwrites
  exact congrArg Prod.fst hcongr

/-- A delete that a flush freezes, and an empty flush. -/
def sampleFlush : List (Call × Env) :=
  [(.put "a" "1", {}), (.del "a", {}), (.forceFlushForTests, { nameCounter := 1 }), (.del "a", {}),
    (.forceFlushForTests, { nameCounter := 2 }), (.get "a", {})]

theorem sampleFlush_noFault : ∀ c ∈ sampleFlush, c.2.NoFault := by
  intro c hc
  simp only [sampleFlush, List.mem_cons, List.not_mem_nil, or_false] at hc
  rcases hc with rfl | rfl | rfl | rfl | rfl | rfl <;> exact ⟨fun _ => rfl, rfl, rfl⟩

theorem formats_agree_sampleFlush :
    (runFresh { memtableCapacity := 2, tableFormat := .InMemory } sampleFlush).1.map Except.toOption =
      (runFresh { memtableCapacity := 2, tableFormat := .BlockBased } sampleFlush).1.map
        Except.toOption :=
  @formats_agree { memtableCapacity := 2 } (by decide) (by decide) sampleFlush sampleFlush rfl
    (by decide +kernel) sampleFlush_noFault sampleFlush_noFault
    ⟨by decide +kernel, by decide +kernel⟩

end TinyKv
