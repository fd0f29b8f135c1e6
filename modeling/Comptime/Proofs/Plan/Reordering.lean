import Comptime.Proofs.Plan.Verdict

/-!
# Items in another order

How far an item of a plan gets does not depend on where the items stand, as long as nothing that is tolerated leads into a
circle of needs. No course of a plan takes an item past the phase at which it has failed in a course of the same items in
another order (`Behind.step`), so both come to the same (`run_reordered`).

A circle may not be tolerated: its entities fail in a search, and so does an entity that is found waiting for one of them,
even if it would have tolerated the failure when asking a moment later. What it is found doing is a matter of the order
(`run_tolerant_circle`).
-/

namespace Comptime

open List Phase

namespace Plan

open Scheduler Relation

variable {p p' : Plan} {pool pool' next : Pool String} {i t : Nat} {q : Phase} {n : Need}

/-- An item of the first name needs something of the second. -/
def NeedsOn (p : Plan) (a b : String) : Prop := ∃ i ∈ p.items, i.name = a ∧ ∃ n ∈ i.needs, n.target = b

/-- The needs lead from here into a circle. -/
def Circular (p : Plan) (a : String) : Prop := ∃ c, ReflTransGen p.NeedsOn a c ∧ TransGen p.NeedsOn c c

/-! ## The same items -/

theorem mem_names_of_perm (hPerm : p'.items.Perm p.items) {name : String} : name ∈ p'.names ↔ name ∈ p.names :=
  (hPerm.map _).mem_iff

theorem Valid.of_perm (h : p.Valid) (hPerm : p'.items.Perm p.items) : p'.Valid where
  nodup := (hPerm.map _).nodup_iff.mpr h.nodup
  fail := fun i hi => h.fail i (hPerm.mem_iff.mp hi)
  needs := fun i hi n hn =>
    have hNeed := h.needs i (hPerm.mem_iff.mp hi) n hn
    ⟨(mem_names_of_perm hPerm).mpr hNeed.target, hNeed.raised, hNeed.phase⟩

theorem needsOn_of_perm (hPerm : p'.items.Perm p.items) : p'.NeedsOn = p.NeedsOn := by
  funext a b
  simp only [NeedsOn, hPerm.mem_iff]

/-- The item of a name is the same wherever it stands. -/
theorem itemAt_of_perm (hValid : p.Valid) (hPerm : p'.items.Perm p.items) {name : String} (hName : name ∈ p.names) :
    p'.itemAt (p'.index name) = p.itemAt (p.index name) := by
  obtain ⟨it, hIt, rfl⟩ := mem_map.mp hName
  rw [itemAt_index hValid hIt, itemAt_index (hValid.of_perm hPerm) (hPerm.mem_iff.mpr hIt)]

/-! ## Errors that name a circle -/

theorem Lacks.needsOn (hLacks : p.Lacks pool i n) (hValid : p.Valid) (hi : i < p.names.length) :
    p.NeedsOn (p.itemAt i).name (p.itemAt (p.index n.target)).name := by
  have hTarget := (wanted_valid hValid hi hLacks.wanted).target
  exact ⟨_, itemAt_mem hi, rfl, n, mem_of_mem_filter hLacks.wanted, (name_itemAt_index hTarget).symm⟩

/-- One that is given up for a circle waits for another such one. -/
theorem Justified.next_of_isCyclic (hJust : p.Justified pool) (hi : i < p.names.length)
    (hErr : (pool.entity i).err.isCyclic = true) :
    ∃ n, p.Lacks pool i n ∧ (pool.entity (p.index n.target)).err.isCyclic = true := by
  have hReason := hJust.failed hi (Entity.failed_of_isCyclic hErr)
  obtain ⟨n, hLacks, -, hCyclic⟩ := hReason.lacks fun hc => by rw [hc] at hErr; cases hErr
  exact ⟨n, hLacks, hCyclic hErr⟩

/-- An error that names a circle is not without one among the needs. -/
theorem Justified.circular (hJust : p.Justified pool) (hValid : p.Valid) (hi : i < p.names.length)
    (hErr : (pool.entity i).err.isCyclic = true) : p.Circular (p.itemAt i).name := by
  let S : Nat → Prop := fun v => v < p.names.length ∧ (pool.entity v).err.isCyclic = true
  obtain ⟨u, hReach, hCircle⟩ := exists_circle_of_stuck (S := S)
    (r := fun v t => p.NeedsOn (p.itemAt v).name (p.itemAt t).name) (fun _ hv => hv.1) (fun v hv => by
      obtain ⟨n, hLacks, hTarget⟩ := hJust.next_of_isCyclic hv.1 hv.2
      have hIn := index_lt (wanted_valid hValid hv.1 hLacks.wanted).target
      exact ⟨_, ⟨hIn, hTarget⟩, hLacks.needsOn hValid hv.1⟩) ⟨hi, hErr⟩
  exact ⟨_, ReflTransGen.lift (fun v => (p.itemAt v).name) (fun _ _ h => h) _ _ hReach,
    TransGen.lift (fun v => (p.itemAt v).name) (fun _ _ h => h) _ _ hCircle⟩

/-- Nothing that is tolerated leads into a circle. -/
def Straight (p : Plan) : Prop := ∀ i ∈ p.items, ∀ n ∈ i.needs, n.tolerate = true → ¬ p.Circular n.target

theorem Straight.of_perm (h : p.Straight) (hPerm : p'.items.Perm p.items) : p'.Straight := by
  intro i hi n hn hTol hCircular
  rw [Circular, needsOn_of_perm hPerm] at hCircular
  exact h i (hPerm.mem_iff.mp hi) n hn hTol hCircular

/-- Then one that failed has failed by itself, or for a need that it did not tolerate. -/
theorem Justified.failed_of_straight (hJust : p.Justified pool) (hValid : p.Valid) (hStraight : p.Straight)
    (hi : i < p.names.length) (hFailed : (pool.entity i).failed = true) :
    (p.itemAt i).fail = (pool.entity i).phase.succ ∨
      ∃ n, p.Lacks pool i n ∧ n.tolerate = false ∧ (pool.entity (p.index n.target)).failed = true := by
  have hCyclic : (pool.entity i).err.isCyclic = true →
      ∃ n, p.Lacks pool i n ∧ n.tolerate = false ∧ (pool.entity (p.index n.target)).failed = true := by
    intro hErr
    obtain ⟨n, hLacks, hTarget⟩ := hJust.next_of_isCyclic hi hErr
    refine ⟨n, hLacks, ?_, Entity.failed_of_isCyclic hTarget⟩
    have hIn := (wanted_valid hValid hi hLacks.wanted).target
    by_contra hTol
    refine hStraight _ (itemAt_mem hi) n (mem_of_mem_filter hLacks.wanted) (by simpa using hTol) ?_
    have hCircular := hJust.circular hValid (index_lt hIn) hTarget
    rwa [name_itemAt_index hIn] at hCircular
  have hReason := hJust.failed hi hFailed
  rcases hReason.kind with hErr | hErr | hErr | hErr
  · rw [Reason, hErr] at hReason
    exact .inl hReason.1
  · rw [Reason, hErr] at hReason
    exact .inr hReason
  · exact .inr (hCyclic (by rw [hErr]; rfl))
  · exact .inr (hCyclic (by rw [hErr]; rfl))

/-! ## Two courses -/

/-- In a step an entity stays at its phase, or goes on because nothing keeps it. -/
theorem Step.phase_cases (h : p.Step pool next) (i : Nat) : (next.entity i).phase = (pool.entity i).phase ∨
    (next.entity i).phase = (pool.entity i).phase.succ ∧ (p.itemAt i).fail ≠ (pool.entity i).phase.succ ∧
      ∀ n ∈ p.wanted i (pool.entity i).phase.succ, p.keeps pool n = false := by
  cases h.fares i with
  | stay hPhase _ _ | yield _ _ hPhase _ _ | fail _ hPhase _ _ => exact .inl hPhase
  | advance _ _ hPhase _ hFail hNone => exact .inr ⟨hPhase, hFail, fun _ => not_keeps_of_keeper hNone⟩

/-- No item is past the phase at which it has failed in the other pool. -/
def Behind (p p' : Plan) (pool pool' : Pool String) : Prop :=
  ∀ name ∈ p.names, (pool'.entity (p'.index name)).failed = true →
    (pool.entity (p.index name)).phase ≤ (pool'.entity (p'.index name)).phase

/-- **No overtaking.** What an entity lacks where it failed, the same item lacks in another course that is behind. -/
theorem Behind.step (hBehind : Behind p p' pool pool') (hValid : p.Valid) (hPerm : p'.items.Perm p.items)
    (hStraight : p.Straight) (hJust : p'.Justified pool') (hStep : p.Step pool next) : Behind p p' next pool' := by
  intro name hName hFailed
  have hOld := hBehind name hName hFailed
  have hItem := itemAt_of_perm hValid hPerm hName
  rcases hStep.phase_cases (p.index name) with hSame | ⟨hSucc, hFail, hMet⟩
  · rwa [hSame]
  rw [hSucc]
  by_contra hPast
  have hPhase : (pool'.entity (p'.index name)).phase = (pool.entity (p.index name)).phase := by
    apply ext_rank
    simp only [le_iff, succ] at hOld hPast
    omega
  have hi' := index_lt ((mem_names_of_perm hPerm).mpr hName)
  rcases hJust.failed_of_straight (hValid.of_perm hPerm) (hStraight.of_perm hPerm) hi' hFailed with
    hAlso | ⟨n, hLacks, hTol, hTarget⟩
  · rw [hItem, hPhase] at hAlso
    exact hFail hAlso
  · have hn : n ∈ p.wanted (p.index name) (pool.entity (p.index name)).phase.succ := by
      have hWanted := hLacks.wanted
      rwa [wanted, hItem, hPhase] at hWanted
    have hMet := hMet n hn
    rw [keeps_of_not_tolerate hTol, not_unmet_iff] at hMet
    have hUnmet := unmet_iff.mp hLacks.unmet
    have hLe := hBehind n.target (wanted_valid hValid (index_lt hName) hn).target hTarget
    simp only [le_iff, lt_iff] at hMet hUnmet hLe
    omega

theorem Behind.of_courses (hValid : p.Valid) (hPerm : p'.items.Perm p.items) (hStraight : p.Straight)
    (h : ReflTransGen p.Step (arrived p.names).pool pool) (h' : ReflTransGen p'.Step (arrived p'.names).pool pool') :
    Behind p p' pool pool' := by
  have hJust := Justified.of_course (hValid.of_perm hPerm) h'
  induction h with
  | refl =>
    intro name hName _
    rw [phase_arrived (index_lt hName)]
    exact parsed_le_of_course h' (index_lt ((mem_names_of_perm hPerm).mpr hName))
  | tail _ hStep ih => exact ih.step hValid hPerm hStraight hJust hStep

/-- The entity has failed before the last phase, or is finished. -/
def EndedAt (pool : Pool String) (i : Nat) : Prop :=
  (pool.entity i).failed = true ∧ (pool.entity i).phase < .run ∨ (pool.entity i).failed = false ∧
    (pool.entity i).phase = .run

theorem Concludes.endedAt {ending : Ending} {w : World String (Array Nat)} (h : p.Concludes ending w) (hValid : p.Valid)
    (hi : i < p.names.length) : EndedAt w.pool i := by
  cases hFailed : (w.pool.entity i).failed with
  | false => exact .inr ⟨hFailed, h.finished i hi hFailed⟩
  | true => exact .inl ⟨hFailed, ((h.justified hValid).failed hi hFailed).unfinished hValid hi⟩

/-- Where both have ended, an item that has failed in one of them has failed in the other, at the same phase. -/
theorem Behind.phase_eq (h : Behind p p' pool pool') (h' : Behind p' p pool' pool) {name : String} (hName : name ∈ p.names)
    (hName' : name ∈ p'.names) (hEnded : EndedAt pool (p.index name)) (hEnded' : EndedAt pool' (p'.index name)) :
    (pool'.entity (p'.index name)).phase = (pool.entity (p.index name)).phase := by
  rcases hEnded with ⟨hFailed, hBelow⟩ | ⟨-, hRun⟩
  · have hLe' := h' name hName' hFailed
    rcases hEnded' with ⟨hFailed', -⟩ | ⟨-, hRun'⟩
    · exact ext_rank (Int.le_antisymm hLe' (h name hName hFailed'))
    · rw [hRun'] at hLe'
      exact absurd hBelow (Int.not_lt.mpr hLe')
  · rcases hEnded' with ⟨hFailed', hBelow'⟩ | ⟨-, hRun'⟩
    · have hLe := h name hName hFailed'
      rw [hRun] at hLe
      exact absurd hBelow' (Int.not_lt.mpr hLe)
    · rw [hRun, hRun']

/-! ## Reports -/

/--
**The order of the items does not matter.** Take a valid plan in which nothing that is tolerated leads into a circle. With
its items in any other order, a run ends with each of them at the same phase, and failed or not failed as before.
-/
theorem run_reordered {p p' : Plan} (hValid : p.validate = .ok ()) (hPerm : p'.items.Perm p.items)
    (hStraight : p.Straight) :
    ∃ ending ending', p.run = .ok ending ∧ p'.run = .ok ending' ∧ ending.internal = none ∧ ending'.internal = none ∧
      ending.report.outcomes.map (·.name) = p.names ∧ ending'.report.outcomes.map (·.name) = p'.names ∧
      ∀ i ∈ p.items, ending'.report.phase i.name = ending.report.phase i.name ∧
        (ending'.report.kind i.name = .ok ↔ ending.report.kind i.name = .ok) := by
  have hValid := valid_of_validate hValid
  have hValid' := hValid.of_perm hPerm
  obtain ⟨e, w, h⟩ := exists_course hValid
  obtain ⟨e', w', h'⟩ := exists_course hValid'
  have hBehind := Behind.of_courses hValid hPerm hStraight h.course h'.course
  have hBehind' := Behind.of_courses hValid' hPerm.symm (hStraight.of_perm hPerm) h'.course h.course
  refine ⟨e, e', h.run, h'.run, h.internal, h'.internal, h.names, h'.names, fun it hIt => ?_⟩
  have hName : it.name ∈ p.names := List.mem_map.mpr ⟨it, hIt, rfl⟩
  have hName' := (mem_names_of_perm hPerm).mpr hName
  have hOk := (h.justifies hValid hIt).ok
  have hOk' := (h'.justifies hValid' (hPerm.mem_iff.mpr hIt)).ok
  have hEq : e'.report.phase it.name = e.report.phase it.name := by
    rw [h.shows.phase hName, h'.shows.phase hName']
    exact hBehind.phase_eq hBehind' hName hName' (h.endedAt hValid (index_lt hName)) (h'.endedAt hValid' (index_lt hName'))
  exact ⟨hEq, by rw [hOk, hOk', hEq]⟩

/-- An item that fails, one that tolerates that, two that wait for each other, and one that waits for them. -/
def mended : Plan where
  items := [
    { name := "broken", fail := .sizeComputed },
    { name := "lenient", needs := [{ raised := .typeChecked, target := "broken", phase := .run, tolerate := true }] },
    { name := "left", needs := [{ raised := .typeChecked, target := "right", phase := .typeChecked }] },
    { name := "right", needs := [{ raised := .typeChecked, target := "left", phase := .typeChecked }] },
    { name := "last", needs := [{ raised := .run, target := "left", phase := .run }] }]

theorem straight_mended : mended.Straight := by
  -- what is tolerated is the failure of an item that needs nothing
  have hTolerated : ∀ i ∈ mended.items, ∀ n ∈ i.needs, n.tolerate = true → n.target = "broken" := by decide
  have hNothing : ∀ i ∈ mended.items, i.name = "broken" → i.needs = [] := by decide
  have hLone : ∀ b, ¬ mended.NeedsOn "broken" b := by
    rintro b ⟨i, hi, hName, n, hn, -⟩
    rw [hNothing i hi hName] at hn
    cases hn
  intro i hi n hn hTol ⟨c, hReach, hCircle⟩
  rw [hTolerated i hi n hn hTol] at hReach
  rcases ReflTransGen.cases_head hReach with rfl | ⟨b, hb, -⟩
  · obtain ⟨b, hb, -⟩ := TransGen.head'_iff.mp hCircle
    exact hLone b hb
  · exact hLone b hb

theorem run_reordered_mended : mended.validate = .ok () ∧ mended.Straight ∧
    ∃ ending ending', mended.run = .ok ending ∧ (Plan.mk mended.items.reverse).run = .ok ending' ∧
      ∀ i ∈ mended.items, ending'.report.phase i.name = ending.report.phase i.name ∧
        (ending'.report.kind i.name = .ok ↔ ending.report.kind i.name = .ok) := by
  have hValid : mended.validate = .ok () := by decide
  have hPerm : (Plan.mk mended.items.reverse).items.Perm mended.items := List.reverse_perm _
  obtain ⟨ending, ending', hRun, hRun', -, -, -, -, hSame⟩ := run_reordered hValid hPerm straight_mended
  exact ⟨hValid, straight_mended, ending, ending', hRun, hRun', hSame⟩

/-- Two items that wait for each other, and one that tolerates the failure of the first of them. -/
def circle : List Item := [
  { name := "left", needs := [{ raised := .typeChecked, target := "right", phase := .typeChecked }] },
  { name := "right", needs := [{ raised := .typeChecked, target := "left", phase := .typeChecked }] }]

def tolerant : Item where
  name := "tolerant"
  needs := [{ raised := .typeChecked, target := "leaf", phase := .typeChecked },
    { raised := .typeChecked, target := "left", phase := .typeChecked, tolerate := true }]

/-- **Where a circle is tolerated, the order shows.** Asked before its leaf, the tolerant item is still waiting for the leaf
when the circle is found, and tolerates the failure afterwards; asked after it, it waits for the circle and fails. -/
theorem run_tolerant_circle :
    (Plan.mk (tolerant :: { name := "leaf" } :: circle)).validate = .ok () ∧
    ((Plan.mk (tolerant :: { name := "leaf" } :: circle)).run.map fun e =>
      (e.report.phase "tolerant", e.report.kind "tolerant")) = .ok (.run, .ok) ∧
    ((Plan.mk ({ name := "leaf" } :: tolerant :: circle)).run.map fun e =>
      (e.report.phase "tolerant", e.report.kind "tolerant")) = .ok (.parsed, .cycleDependent) := by
  refine ⟨by decide, ?_, ?_⟩ <;> cbv

end Plan

end Comptime
