import Comptime.Proofs.Plan.Course

/-!
# What a step does to an entity

`Fares` says all that can become of an entity in a step of a run (`Step.fares`). Entities only go on and fail, and those
that have failed stay as they are (`Onward`).
-/

namespace Comptime

open Pool Entity

namespace Plan

open Scheduler Relation

variable {p : Plan} {pool pool' : Pool String} {id i j t : Nat} {q : Phase} {n : Need}

theorem unmet_iff : p.unmet pool n = true ↔ (pool.entity (p.index n.target)).phase < n.phase := by
  rw [unmet, Bool.not_eq_true', not_satisfied_iff, Phase.lt_iff]

theorem not_unmet_iff : p.unmet pool n = false ↔ n.phase ≤ (pool.entity (p.index n.target)).phase := by
  rw [← Bool.not_eq_true, unmet_iff, Phase.lt_iff, Phase.le_iff]
  omega

theorem keeps_eq_false_iff : p.keeps pool n = false ↔
    p.unmet pool n = false ∨ (n.tolerate = true ∧ (pool.entity (p.index n.target)).failed = true) := by
  rw [keeps]
  cases p.unmet pool n <;> cases n.tolerate <;> cases (pool.entity (p.index n.target)).failed <;> decide

/-- The need that keeps an entity from its next phase. -/
def keeper (p : Plan) (pool : Pool String) (i : Nat) : Option Need :=
  (p.wanted i (pool.entity i).phase.succ).find? (p.keeps pool)

theorem not_keeps_of_keeper (h : p.keeper pool i = none) (hn : n ∈ p.wanted i (pool.entity i).phase.succ) :
    p.keeps pool n = false := by simpa using List.find?_eq_none.mp h n hn

/-! ## Searches -/

section Search

variable {queue : List Nat}

theorem sought_of_waits (h : pool.Sought queue i) (hWaits : pool.Waits i j) : pool.Sought queue j := by
  obtain ⟨v, hv, hLive, hDeps, hReach⟩ := h
  exact ⟨v, hv, hLive, hDeps, hReach.tail hWaits⟩

theorem sought_of_reaches (h : pool.Sought queue i) (hReach : ReflTransGen pool.Waits i j) :
    pool.Sought queue j := by
  induction hReach with
  | refl => exact h
  | tail _ hEdge ih => exact sought_of_waits ih hEdge

variable (hRange : ∀ i, ∀ d ∈ (pool.entity i).deps, d.target < pool.size)
include hRange

theorem phase_search (i : Nat) : ((pool.detectCycles queue).pool.entity i).phase = (pool.entity i).phase :=
  ((detectCycles_spec hRange queue).2.2.1 i).2.1

theorem isCyclic_search (h : pool.Sought queue i) (hDoomed : pool.Doomed i) :
    ((pool.detectCycles queue).pool.entity i).err.isCyclic = true := by
  rw [(detectCycles_spec hRange queue).1 i h]
  exact fate_isCyclic_iff.mpr hDoomed

end Search

/-! ## One step -/

/-- Why an entity fails in a step: by itself, for one that has failed, or because a search has found that it leads into a
circle. -/
inductive Fails (p : Plan) (pool pool' : Pool String) (i : Nat) : Prop where
  | fault : (pool'.entity i).err = .semantic → (p.itemAt i).fail = (pool.entity i).phase.succ → p.keeper pool i = none →
      Fails p pool pool' i
  | depend {n : Need} : (pool'.entity i).err = .dependency → p.keeper pool i = some n →
      (pool.entity (p.index n.target)).failed = true → Fails p pool pool' i
  | search {queue : List Nat} : pool.size = p.names.length → (∀ i, ∀ d ∈ (pool.entity i).deps, d.target < pool.size) →
      pool.Sought queue i → pool.Doomed i → pool' = (pool.detectCycles queue).pool → Fails p pool pool' i

/-- What becomes of an entity in a step. -/
inductive Fares (p : Plan) (pool pool' : Pool String) (i : Nat) : Prop where
  | stay : (pool'.entity i).phase = (pool.entity i).phase → (pool'.entity i).err = (pool.entity i).err →
      (∀ d ∈ (pool'.entity i).deps, d ∈ (pool.entity i).deps) → Fares p pool pool' i
  | advance : (pool.entity i).failed = false → (pool'.entity i).failed = false →
      (pool'.entity i).phase = (pool.entity i).phase.succ → (pool'.entity i).deps = [] →
      (p.itemAt i).fail ≠ (pool.entity i).phase.succ → p.keeper pool i = none → Fares p pool pool' i
  | yield {n : Need} : (pool.entity i).failed = false → (pool'.entity i).failed = false →
      (pool'.entity i).phase = (pool.entity i).phase →
      (∀ d ∈ (pool'.entity i).deps, d = ⟨p.index n.target, n.phase⟩) → p.keeper pool i = some n → Fares p pool pool' i
  | fail : (pool.entity i).failed = false → (pool'.entity i).phase = (pool.entity i).phase →
      (pool'.entity i).deps = (pool.entity i).deps → p.Fails pool pool' i → Fares p pool pool' i

/-- In a step of an entity the others stay as they are. -/
theorem Fares.update {f : Entity String → Entity String} (hActs : p.Acts pool id q)
    (h : (pool.update id f).entity id = f (pool.entity id) → p.Fares pool (pool.update id f) id) (i : Nat) :
    p.Fares pool (pool.update id f) i := by
  rcases entity_update_cases (hActs.size ▸ hActs.lt) f i with ⟨rfl, hEq⟩ | ⟨-, hEq⟩
  · exact h hEq
  · exact .stay (by rw [hEq]) (by rw [hEq]) (by rw [hEq]; exact fun _ hd => hd)

theorem Step.fares (h : p.Step pool pool') (i : Nat) : p.Fares pool pool' i := by
  cases h with
  | settle w id =>
    refine .stay ((Idle.settled w id).phase i) ?_ fun d hd => ?_
    · rw [World.entity_settled]
      split <;> rfl
    · rw [World.entity_settled] at hd
      split at hd
      · exact List.mem_of_mem_filter hd
      · exact hd
  | advance hActs hFirst hFail =>
    refine .update hActs (fun hEq => ?_) i
    rw [hActs.phase] at hFirst hFail
    exact .advance hActs.live (by rw [hEq]; exact hActs.live) (by rw [hEq, hActs.phase]) (by rw [hEq]) hFail hFirst
  | @yield _ id q n hActs hFirst =>
    refine .update hActs (fun hEq => ?_) i
    rw [hActs.phase] at hFirst
    refine .yield hActs.live ?_ (by rw [hEq, need_phase]) (fun d hd => ?_) hFirst
    · rw [hEq, failed, need_err]
      exact hActs.live
    · rw [hEq] at hd
      exact (mem_need hd).resolve_left (by rw [hActs.deps]; exact List.not_mem_nil)
  | fault hActs hFirst hFail =>
    refine .update hActs (fun hEq => ?_) i
    rw [hActs.phase] at hFirst hFail
    refine .fail hActs.live (by rw [hEq, setError_phase]) (by rw [hEq, setError_deps]) (.fault ?_ hFail hFirst)
    rw [hEq, setError_of_not_failed hActs.live]
  | depend hActs hFirst hTarget =>
    refine .update hActs (fun hEq => ?_) i
    rw [hActs.phase] at hFirst
    refine .fail hActs.live (by rw [hEq, setError_phase]) (by rw [hEq, setError_deps]) (.depend ?_ hFirst hTarget)
    rw [hEq, setError_of_not_failed hActs.live]
  | search queue hSize hRange =>
    -- a search changes the doomed entities that it comes to, and no other
    obtain ⟨hFate, hRest, hSame, -⟩ := detectCycles_spec hRange queue
    have hDeps := (hSame i).2.2
    by_cases hSought : pool.Sought queue i
    · have hLive : (pool.entity i).failed = false := by
        obtain ⟨v, -, hv, -, hReach⟩ := hSought
        exact not_failed_of_reaches hv hReach
      by_cases hDoomed : pool.Doomed i
      · exact .fail hLive (phase_search hRange i) hDeps (.search hSize hRange hSought hDoomed rfl)
      · refine .stay (phase_search hRange i) ?_ (by rw [hDeps]; exact fun _ hd => hd)
        rw [hFate i hSought, fate_of_not_doomed hDoomed, not_failed_iff.mp hLive]
    · exact .stay (phase_search hRange i) (by rw [hRest i hSought]) (by rw [hDeps]; exact fun _ hd => hd)

/-! ## Failed entities stay as they are -/

/-- Entities go on and fail, and those that have failed stay as they are. -/
structure Onward (pool pool' : Pool String) : Prop where
  phase : ∀ i, (pool.entity i).phase ≤ (pool'.entity i).phase
  frozen : ∀ {i}, (pool.entity i).failed = true →
    (pool'.entity i).phase = (pool.entity i).phase ∧ (pool'.entity i).err = (pool.entity i).err

theorem Step.onward (h : p.Step pool pool') : Onward pool pool' := by
  refine ⟨fun i => ?_, fun {i} hi => ?_⟩
  · cases h.fares i with
    | stay hPhase _ _ | yield _ _ hPhase _ _ | fail _ hPhase _ _ => rw [hPhase, Phase.le_iff]
    | advance _ _ hPhase _ _ _ =>
      rw [hPhase]
      exact Int.le_of_lt (Int.lt_succ _)
  · cases h.fares i with
    | stay hPhase hErr _ => exact ⟨hPhase, hErr⟩
    | advance hLive _ _ _ _ _ | yield hLive _ _ _ _ | fail hLive _ _ _ =>
      rw [hLive] at hi
      cases hi

namespace Onward

theorem failed (h : Onward pool pool') (hi : (pool.entity i).failed = true) : (pool'.entity i).failed = true := by
  rw [failed_iff, (h.frozen hi).2]
  exact failed_iff.mp hi

/-- A need that does not keep an entity never will. -/
theorem not_keeps (h : Onward pool pool') (hn : p.keeps pool n = false) : p.keeps pool' n = false := by
  rw [keeps_eq_false_iff, not_unmet_iff] at hn ⊢
  exact hn.imp (fun hMet => Int.le_trans hMet (h.phase _)) fun ⟨hTol, hFailed⟩ => ⟨hTol, h.failed hFailed⟩

theorem trans {pool'' : Pool String} (h : Onward pool pool') (h' : Onward pool' pool'') : Onward pool pool'' where
  phase i := Int.le_trans (h.phase i) (h'.phase i)
  frozen hi :=
    have hLater := h'.frozen (h.failed hi)
    ⟨hLater.1.trans (h.frozen hi).1, hLater.2.trans (h.frozen hi).2⟩

theorem of_course (h : ReflTransGen p.Step pool pool') : Onward pool pool' := by
  induction h with
  | refl => exact ⟨fun _ => Int.le_refl _, fun _ => ⟨rfl, rfl⟩⟩
  | tail _ hStep ih => exact ih.trans hStep.onward

end Onward

theorem parsed_le_of_course (h : ReflTransGen p.Step (arrived p.names).pool pool) (hi : i < p.names.length) :
    .parsed ≤ (pool.entity i).phase := phase_arrived hi ▸ (Onward.of_course h).phase i

end Plan

end Comptime
