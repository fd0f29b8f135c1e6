import Comptime.Proofs.Schedule.Order

/-!
# The search for cycles is exact

What `failCycles` does to the entities that the search comes to, in terms of the wait-for graph alone: `Pool.OnCycle` are
failed for a cycle, the other `Pool.Doomed` ones because they wait for one, and the numbers of the components tell which
entities reach each other. Nothing else changes, and the search counts what it has failed.
-/

namespace Comptime

open List Entity

namespace Pool

variable {ν : Type} {p : Pool ν}

/-- The failed entities, counted by position. -/
theorem failedCount_eq_countP (p : Pool ν) :
    p.failedCount = (range p.size).countP fun i => (p.entity i).failed := by
  rw [failedCount, ← Array.countP_toList, toList_entities, countP_map]
  rfl

/-- What has failed before stays so, and the rest of what has failed is new. -/
theorem failedCount_eq_add {p' : Pool ν} (hSize : p'.size = p.size)
    (hKept : ∀ i, (p.entity i).failed = true → (p'.entity i).failed = true) :
    p'.failedCount = p.failedCount +
      (range p.size).countP fun i => !(p.entity i).failed && (p'.entity i).failed := by
  rw [failedCount_eq_countP, failedCount_eq_countP, hSize]
  induction range p.size with
  | nil => rfl
  | cons i rest ih =>
    simp only [countP_cons, ih]
    cases hOld : (p.entity i).failed with
    | true => simp [hKept i hOld]; omega
    | false => cases (p'.entity i).failed <;> simp; omega

/-- Only entities that have not failed are sought. -/
theorem Sought.not_failed {queue : List Nat} {i : Nat} (h : p.Sought queue i) : (p.entity i).failed = false := by
  obtain ⟨v, -, hLive, -, hReach⟩ := h
  exact not_failed_of_reaches hLive hReach

variable (hRange : ∀ i, ∀ d ∈ (p.entity i).deps, d.target < p.size) (queue : List Nat)

include hRange

/-- An error that is there before the search stays as it is. -/
theorem entity_detectCycles_of_failed {i : Nat} (h : (p.entity i).failed = true) :
    (p.detectCycles queue).pool.entity i = p.entity i := by
  refine (detectCycles_spec hRange queue).2.1 i fun hSought => ?_
  rw [hSought.not_failed] at h
  cases h

/-- The error the search gives to an entity that had none is its fate, if it comes to it. -/
theorem newly_marked_iff {i : Nat} {kind : ErrorKind} (hKind : kind ≠ .ok) :
    (p.entity i).failed = false ∧ ((p.detectCycles queue).pool.entity i).err = kind ↔
      p.Sought queue i ∧ p.fate i = kind := by
  obtain ⟨hFate, hOther, -⟩ := detectCycles_spec hRange queue
  constructor
  · rintro ⟨hLive, hErr⟩
    have hSought : p.Sought queue i := by
      by_contra hNot
      rw [hOther i hNot, not_failed_iff.mp hLive] at hErr
      exact hKind hErr.symm
    exact ⟨hSought, (hFate i hSought).symm.trans hErr⟩
  · rintro ⟨hSought, hKindEq⟩
    exact ⟨hSought.not_failed, (hFate i hSought).trans hKindEq⟩

theorem failed_detectCycles :
    (p.detectCycles queue).failed =
      (range p.size).countP fun i => !(p.entity i).failed && ((p.detectCycles queue).pool.entity i).failed := by
  obtain ⟨-, -, -, hSize, hCount⟩ := detectCycles_spec hRange queue
  have hAdd := failedCount_eq_add hSize fun i hi => by
    rw [entity_detectCycles_of_failed hRange queue hi]
    exact hi
  omega

/-- A search that fails nothing gives no error. -/
theorem failed_eq_of_search_none (hNone : (p.detectCycles queue).failed = 0) (i : Nat) :
    ((p.detectCycles queue).pool.entity i).failed = (p.entity i).failed := by
  have hSize := (detectCycles_spec hRange queue).2.2.2.1
  cases hOld : (p.entity i).failed with
  | true => rw [entity_detectCycles_of_failed hRange queue hOld, hOld]
  | false =>
    by_cases hi : i < p.size
    · rw [failed_detectCycles hRange] at hNone
      have hNot := countP_eq_zero.mp hNone i (mem_range.mpr hi)
      rw [hOld] at hNot
      simpa using hNot
    · rw [entity_of_size_le (Nat.le_of_not_lt (hSize ▸ hi))]
      rfl

/-- If a search fails anything, it fails one that it set out from. -/
theorem exists_failed_of_search (hSome : (p.detectCycles queue).failed ≠ 0) :
    ∃ v ∈ queue, (p.entity v).failed = false ∧ ((p.detectCycles queue).pool.entity v).failed = true := by
  rw [failed_detectCycles hRange] at hSome
  obtain ⟨i, -, hNew⟩ := countP_pos_iff.mp (Nat.pos_of_ne_zero hSome)
  rw [Bool.and_eq_true, Bool.not_eq_true', failed_iff] at hNew
  obtain ⟨⟨v, hv, hLive, hDeps, hReach⟩, hFate⟩ := (newly_marked_iff hRange queue hNew.2).mp ⟨hNew.1, rfl⟩
  -- what leads to an entity that is doomed is doomed itself
  obtain ⟨u, hOn, hEnd⟩ := fate_ne_ok_iff.mp (hFate ▸ hNew.2)
  have hDoomed : p.fate v ≠ .ok := fate_ne_ok_iff.mpr ⟨u, hReach.trans hOn, hEnd⟩
  refine ⟨v, hv, hLive, failed_iff.mpr ?_⟩
  rwa [(detectCycles_spec hRange queue).1 v ⟨v, hv, hLive, hDeps, .refl⟩]

end Pool

namespace Scheduler

variable {ν σ : Type}

/--
**The search is exact.** From the queue of a phase it comes to the entities `Sought`. Of these it fails for a cycle exactly
those that lie on one, and as dependent on a cycle exactly the others that lead to one or to an entity that waits for one
that was given up for a cycle before. Two of them are in the same component if they reach each other. The search tells how
many it has failed, and changes neither the queues nor the node, the phase or the edges of an entity nor an earlier error.
-/
theorem failCycles_exact (w : World ν σ) (p : Phase)
    (hRange : ∀ i, ∀ d ∈ (w.pool.entity i).deps, d.target < w.pool.size) :
    ∃ walk : Pool.Walk ν, walk = w.pool.detectCycles (w.queue p) ∧
      failCycles p w = .ok (walk.failed != 0) { w with scheduler := { w.scheduler with pool := walk.pool } } ∧
      (∀ i, (w.pool.entity i).failed = false ∧ (walk.pool.entity i).err = .cycle ↔
        w.pool.Sought (w.queue p) i ∧ w.pool.OnCycle i) ∧
      (∀ i, (w.pool.entity i).failed = false ∧ (walk.pool.entity i).err = .cycleDependent ↔
        w.pool.Sought (w.queue p) i ∧ ¬ w.pool.OnCycle i ∧ w.pool.Doomed i) ∧
      (∀ i, (w.pool.entity i).failed = false →
        (walk.pool.entity i).err = .ok ∨ (walk.pool.entity i).err = .cycle ∨
          (walk.pool.entity i).err = .cycleDependent) ∧
      (∀ i j, w.pool.Sought (w.queue p) i → w.pool.Sought (w.queue p) j → (walk.component? i).isSome = true ∧
        (walk.component? i = walk.component? j ↔ w.pool.Reaches i j ∧ w.pool.Reaches j i)) ∧
      walk.failed = (List.range w.pool.size).countP (fun i =>
        !(w.pool.entity i).failed && (walk.pool.entity i).failed) ∧
      (∀ i, (w.pool.entity i).failed = true → walk.pool.entity i = w.pool.entity i) ∧
      walk.pool.size = w.pool.size ∧
      (∀ i, (walk.pool.entity i).node = (w.pool.entity i).node ∧ (walk.pool.entity i).phase = (w.pool.entity i).phase ∧
        (walk.pool.entity i).deps = (w.pool.entity i).deps) := by
  obtain ⟨hSound, hClosed⟩ := Pool.detectCycles_sound hRange (w.queue p)
  obtain ⟨hFate, hOther, hKept, hSize, -⟩ := Pool.detectCycles_spec hRange (w.queue p)
  refine ⟨_, rfl, failCycles_eq p w, fun i => ?_, fun i => ?_, fun i hLive => ?_, fun i j hi hj => ⟨?_, ?_⟩,
    Pool.failed_detectCycles hRange _, fun i => Pool.entity_detectCycles_of_failed hRange _, hSize, hKept⟩
  · rw [Pool.newly_marked_iff hRange _ (by decide), Pool.fate_eq_cycle_iff]
  · rw [Pool.newly_marked_iff hRange _ (by decide), Pool.fate_eq_cycleDependent_iff]
  · by_cases hSought : w.pool.Sought (w.queue p) i
    · rw [hFate i hSought]
      exact Pool.fate_cases i
    · rw [hOther i hSought]
      exact .inl (Entity.not_failed_iff.mp hLive)
  · exact (hClosed i).mpr hi
  · exact hSound.comp_iff i j ((hClosed i).mpr hi) ((hClosed j).mpr hj)

/-- Two entities wait for each other and a third for one of them; the next waits for itself, the next for one that was given
up for a cycle before, and the last one for a phase that has been reached. -/
def tangle : Pool String where
  entities := #[
    { fresh "left" with deps := [⟨1, .typeChecked⟩] },
    { fresh "right" with deps := [⟨0, .typeChecked⟩] },
    { fresh "outside" with deps := [⟨1, .typeChecked⟩] },
    { fresh "self" with deps := [⟨3, .typeChecked⟩] },
    { fresh "late" with deps := [⟨5, .run⟩] },
    { fresh "given up" with err := .cycle },
    { fresh "dated" with deps := [⟨0, .parsed⟩] }]

theorem failCycles_exact_tangle :
    (∀ i, ∀ d ∈ (tangle.entity i).deps, d.target < tangle.size) ∧ tangle.OnCycle 0 ∧ tangle.OnCycle 3 ∧
      (¬ tangle.OnCycle 2 ∧ tangle.Doomed 2) ∧ (¬ tangle.OnCycle 4 ∧ tangle.Doomed 4) ∧
      (tangle.Reaches 0 1 ∧ tangle.Reaches 1 0) ∧ ¬ (tangle.Reaches 0 2 ∧ tangle.Reaches 2 0) ∧
      (tangle.detectCycles [0, 2, 3, 4, 6]).failed = 5 := by
  have hRange : ∀ i, ∀ d ∈ (tangle.entity i).deps, d.target < tangle.size := by
    intro i d hd
    by_cases hi : i < 7
    · revert d
      revert i
      decide
    · rw [Pool.entity_of_size_le (by simpa [tangle, Pool.size] using hi)] at hd
      cases hd
  obtain ⟨walk, rfl, -, hCycle, hDependent, -, hComponent, hCount, -⟩ := failCycles_exact
    (⟨{ pool := tangle, queues := { typeChecked := [0, 2, 3, 4, 6] } }, ()⟩ : World String Unit) .typeChecked hRange
  obtain ⟨hSought₀, hOn₀⟩ := (hCycle 0).mp ⟨by decide, by decide +kernel⟩
  obtain ⟨hSought₁, -⟩ := (hCycle 1).mp ⟨by decide, by decide +kernel⟩
  obtain ⟨hSought₂, hDoomed₂⟩ := (hDependent 2).mp ⟨by decide, by decide +kernel⟩
  refine ⟨hRange, hOn₀, ((hCycle 3).mp ⟨by decide, by decide +kernel⟩).2, hDoomed₂,
    ((hDependent 4).mp ⟨by decide, by decide +kernel⟩).2, ?_, ?_, ?_⟩
  · exact (hComponent 0 1 hSought₀ hSought₁).2.mp (by decide +kernel)
  · exact fun hMutual => absurd ((hComponent 0 2 hSought₀ hSought₂).2.mpr hMutual) (by decide +kernel)
  · exact hCount.trans (by decide +kernel)

end Scheduler

end Comptime
