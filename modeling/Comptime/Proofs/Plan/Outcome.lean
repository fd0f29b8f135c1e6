import Comptime.Proofs.Plan.Moves
import Comptime.Proofs.Plan.Verdict

/-!
# What a run of a plan reports

`run_eq_greatest`: a run takes every item as far as the plan allows, whatever the order of the turns was, and reports for
each one that stopped why it did: it failed by itself, what it needs leads into a circle it is part of, or what it needs
has failed. Where no need is tolerated, a failed entity that did not fail by itself is `Blocked` by one other failed entity.
These edges never change; so the reasons can be followed, and where they lead back the error names a cycle (`Looped`).
-/

namespace Comptime

open List Pool Entity

namespace Plan

open Scheduler Relation

variable {p : Plan} {w w' : World String (Array Nat)} {pool pool' : Pool String} {i j t : Nat} {n : Need}

/-- An entity and the one that keeps it have both failed. -/
def Blocked (p : Plan) (pool : Pool String) (i t : Nat) : Prop :=
  (pool.entity i).failed = true ∧ (pool.entity t).failed = true ∧ ∃ n, p.Lacks pool i n ∧ p.index n.target = t

/-- Entities whose reasons lead back to them have failed for a cycle. -/
def Looped (p : Plan) (pool : Pool String) : Prop := ∀ i, TransGen (p.Blocked pool) i i → (pool.entity i).err = .cycle

/-- The entities stand where the items can come by moves. -/
def Reached (p : Plan) (pool : Pool String) : Prop :=
  ∃ v, p.Reachable v ∧ ∀ i < p.names.length, v (p.itemAt i).name = (pool.entity i).phase

theorem Lacks.lt (h : p.Lacks pool i n) : i < p.names.length := by
  by_contra hi
  have hItem : p.itemAt i = {} := by
    rw [itemAt, getD_eq_default]
    rw [length_names] at hi
    omega
  have hWanted := h.wanted
  simp [Plan.wanted, hItem] at hWanted

theorem Onward.blocked (h : Onward pool pool') (hb : p.Blocked pool i t) : p.Blocked pool' i t := by
  obtain ⟨hi, ht, n, hn, rfl⟩ := hb
  exact ⟨h.failed hi, h.failed ht, n, h.lacks (h.frozen hi).1 (h.frozen ht).1 hn, rfl⟩

theorem blocked_of_linked (h : p.Linked pool i t) : p.Blocked pool i t := by
  have hFailed {j : Nat} (hj : (pool.entity j).err = .cycle) : (pool.entity j).failed = true := by
    rw [failed_iff, hj]
    decide
  exact ⟨hFailed h.err, hFailed h.target_err, h.lacks⟩

theorem failed_of_trail (h : TransGen (p.Blocked pool) i j) : (pool.entity j).failed = true := by
  cases h with
  | single hb => exact hb.2.1
  | tail _ hb => exact hb.2.1

/-- What waits in vain has an edge that is not out of date. -/
theorem edge_of_doomed (h : pool.Doomed i) : ∃ d ∈ (pool.entity i).deps, pool.satisfied d = false := by
  obtain ⟨u, hReach, hu⟩ := h
  rcases ReflTransGen.cases_head hReach with rfl | ⟨t, ⟨-, -, d, hd, -, hUnsat⟩, -⟩
  · rcases hu with hCycle | ⟨d, hd, hUnsat, -⟩
    · obtain ⟨t, ⟨-, -, d, hd, -, hUnsat⟩, -⟩ := TransGen.head'_iff.mp hCycle
      exact ⟨d, hd, hUnsat⟩
    · exact ⟨d, hd, hUnsat⟩
  · exact ⟨d, hd, hUnsat⟩

/-- A failed entity has failed by itself, or is blocked by another one; errors that name a circle lead to such errors. -/
theorem Justified.failed_cases (hJust : p.Justified pool) (hi : i < p.names.length)
    (hFailed : (pool.entity i).failed = true) :
    ((pool.entity i).err = .semantic ∧ (p.itemAt i).fail = (pool.entity i).phase.succ ∧ p.keeper pool i = none) ∨
      ((pool.entity i).err ≠ .semantic ∧ ∃ t, p.Blocked pool i t ∧
        ((pool.entity i).err.isCyclic = true → (pool.entity t).err.isCyclic = true)) := by
  have hReason := hJust.failed hi hFailed
  by_cases hErr : (pool.entity i).err = .semantic
  · rw [Reason, hErr] at hReason
    exact .inl ⟨hErr, hReason.1, find?_eq_none.mpr fun n hn => by simp [hReason.2 n hn]⟩
  · obtain ⟨n, hn, hTarget, hCyclic⟩ := hReason.lacks hErr
    exact .inr ⟨hErr, _, ⟨hFailed, hTarget, n, hn, rfl⟩, hCyclic⟩

section Strict

variable (hTol : ∀ i ∈ p.items, ∀ n ∈ i.needs, n.tolerate = false)
include hTol

theorem keeps_wanted {q : Phase} (hi : i < p.names.length) (hn : n ∈ p.wanted i q) : p.keeps pool n = p.unmet pool n :=
  keeps_of_not_tolerate (hTol _ (itemAt_mem hi) n (mem_of_mem_filter hn))

/-- Where no need is tolerated, what an entity lacks is the one need that keeps it. -/
theorem lacks_iff_keeper : p.Lacks pool i n ↔ p.keeper pool i = some n := by
  refine ⟨fun h => ?_, lacks_of_keeper⟩
  obtain ⟨before, after, hEq, hBefore⟩ := h.comesTo
  refine find?_eq_some_iff_append.mpr ⟨?_, before, after, hEq, fun m hm => by simp [hBefore m hm]⟩
  rw [keeps_wanted hTol h.lt h.wanted, h.unmet]

theorem Lacks.unique {m : Need} (h : p.Lacks pool i n) (h' : p.Lacks pool i m) : n = m :=
  Option.some.inj (((lacks_iff_keeper hTol).mp h).symm.trans ((lacks_iff_keeper hTol).mp h'))

theorem Blocked.unique (h : p.Blocked pool i t) (h' : p.Blocked pool i j) : t = j := by
  obtain ⟨-, -, n, hn, rfl⟩ := h
  obtain ⟨-, -, m, hm, rfl⟩ := h'
  rw [hn.unique hTol hm]

/-! ## Reasons can be followed -/

section Step

variable (hJust : p.Justified pool) (hStep : p.Step pool pool')
include hJust hStep

/-- An entity that had failed is blocked by the same one as before. -/
theorem blocked_back (hi : (pool.entity i).failed = true) (hb : p.Blocked pool' i t) : p.Blocked pool i t := by
  have hOn := hStep.onward
  obtain ⟨n, hn, -⟩ := hb.2.2
  rcases hJust.failed_cases hn.lt hi with ⟨hErr, -⟩ | ⟨-, t', ht', -⟩
  · -- nothing keeps one that has failed by itself
    rcases (hJust.step hStep).failed_cases hn.lt hb.1 with ⟨-, -, hNone⟩ | ⟨hNot, -⟩
    · rw [(lacks_iff_keeper hTol).mp hn] at hNone
      cases hNone
    · exact absurd ((hOn.frozen hi).2.trans hErr) hNot
  · rw [hb.unique hTol (hOn.blocked ht')]
    exact ht'

/-- The reasons of an entity that had failed lead to entities that had failed. -/
theorem trail_back (hi : (pool.entity i).failed = true) (hTrail : TransGen (p.Blocked pool') i j) :
    TransGen (p.Blocked pool) i j := by
  induction hTrail with
  | single hb => exact .single (blocked_back hTol hJust hStep hi hb)
  | tail _ hb ih => exact .tail ih (blocked_back hTol hJust hStep (failed_of_trail ih) hb)

omit hStep in
/-- Reasons that lead back to an entity that failed in a search were edges of a circle. -/
theorem onCycle_of_trail (hRange : ∀ i, ∀ d ∈ (pool.entity i).deps, d.target < pool.size) {queue : List Nat}
    (hStep : p.Step pool (pool.detectCycles queue).pool) (hLive : (pool.entity i).failed = false)
    (hTrail : TransGen (p.Blocked (pool.detectCycles queue).pool) i i) : pool.OnCycle i := by
  have hPhase := @phase_search pool queue hRange
  have hEdge : ∀ {a b}, (pool.entity a).failed = false → p.Blocked (pool.detectCycles queue).pool a b →
      (pool.entity b).failed = true ∨ pool.Waits a b := by
    rintro a b ha ⟨hFailed, -, n, hn, rfl⟩
    have hDoomed : pool.Doomed a := by
      obtain ⟨hFate, hRest, -⟩ := detectCycles_spec hRange queue
      by_cases hSought : pool.Sought queue a
      · rw [failed_iff, hFate a hSought] at hFailed
        exact fate_ne_ok_iff.mp hFailed
      · rw [hRest a hSought, ha] at hFailed
        cases hFailed
    obtain ⟨d, hd, hUnsat⟩ := edge_of_doomed hDoomed
    obtain ⟨m, hm, hTarget⟩ := hJust.lacks_of_edge hn.lt hd hUnsat
    obtain rfl := hn.unique hTol (hStep.onward.lacks (hPhase _) (hPhase _) hm)
    cases hLiveB : (pool.entity (p.index n.target)).failed with
    | true => exact .inl rfl
    | false => exact .inr ⟨ha, hLiveB, d, hd, hTarget.symm, hUnsat⟩
  -- once the reasons come to an entity that had failed before, they stay with such entities
  have hFollow : ∀ {j}, TransGen (p.Blocked (pool.detectCycles queue).pool) i j →
      (pool.entity j).failed = true ∨ TransGen pool.Waits i j := by
    intro j hij
    induction hij with
    | single hb => exact (hEdge hLive hb).imp_right .single
    | @tail b c _ hbc ih =>
      cases hb : (pool.entity b).failed with
      | true => exact .inl (blocked_back hTol hJust hStep hb hbc).2.1
      | false =>
        rcases ih with hc | hib
        · rw [hb] at hc
          cases hc
        · exact (hEdge hb hbc).imp_right hib.tail
  rcases hFollow hTrail with hc | hCycle
  · rw [hLive] at hc
    cases hc
  · exact hCycle

theorem Looped.step (h : p.Looped pool) : p.Looped pool' := by
  intro i hTrail
  have hOn := hStep.onward
  obtain ⟨t, hHead, hRest⟩ := TransGen.head'_iff.mp hTrail
  cases hStep.fares i with
  | stay _ hErr _ =>
    have hOld : (pool.entity i).failed = true := by
      rw [failed, ← hErr]
      exact hHead.1
    rw [hErr]
    exact h i (trail_back hTol hJust hStep hOld hTrail)
  | advance _ hLive _ _ _ _ | yield _ hLive _ _ _ => cases hLive.symm.trans hHead.1
  | fail hLive hPhase _ hFails =>
    cases hFails with
    | fault hErr _ _ =>
      obtain ⟨n, hn, -⟩ := hHead.2.2
      rcases (hJust.step hStep).failed_cases hn.lt hHead.1 with ⟨-, -, hNone⟩ | ⟨hNot, -⟩
      · rw [(lacks_iff_keeper hTol).mp hn] at hNone
        cases hNone
      · exact absurd hErr hNot
    | @depend n _ hKeeper hTarget =>
      -- its reasons lead to entities that failed before it
      obtain ⟨m, hm, rfl⟩ := hHead.2.2
      obtain rfl := hm.unique hTol (hOn.lacks hPhase (hOn.frozen hTarget).1 (lacks_of_keeper hKeeper))
      have hOld : (pool.entity i).failed = true := by
        rcases reflTransGen_iff_eq_or_transGen.mp hRest with hEq | hRest
        · rw [hEq]
          exact hTarget
        · exact failed_of_trail (trail_back hTol hJust hStep hTarget hRest)
      cases hLive.symm.trans hOld
    | search _ hRange hSought _ hPool =>
      subst hPool
      rw [(detectCycles_spec hRange _).1 i hSought]
      exact fate_of_onCycle (onCycle_of_trail hTol hJust hRange hStep hLive hTrail)

end Step

/-! ## Moves -/

/-- An item with nothing to keep it moves. -/
theorem Reached.step (hValid : p.Valid) (hStep : p.Step pool pool') (h : p.Reached pool) : p.Reached pool' := by
  obtain ⟨v, hv, hAt⟩ := h
  have hSame (hPhase : ∀ i, (pool'.entity i).phase = (pool.entity i).phase) : p.Reached pool' :=
    ⟨v, hv, fun i hi => (hAt i hi).trans (hPhase i).symm⟩
  cases hStep with
  | settle w id => exact hSame (Idle.settled w id).phase
  | yield _ _ => exact hSame (phase_update _ _ fun e => e.need_phase _)
  | fault _ _ _ | depend _ _ _ => exact hSame (phase_update _ _ fun e => e.setError_phase _ _)
  | search queue _ hRange => exact hSame (phase_search hRange)
  | @advance _ id q hActs hFirst hFail =>
    have hPhase := hActs.phase
    have hBelow : (pool.entity id).phase < q := by
      rw [hPhase, Phase.lt_iff, Phase.succ]
      exact Int.lt_succ _
    -- a turn that advances has found every need of the next phase met
    have hMay : (p.itemAt id).MayMove v := by
      have hHere := hAt id hActs.lt
      refine ⟨?_, ?_, fun n hn hRaised => ?_⟩
      · rw [hHere]
        exact Int.lt_of_lt_of_le hBelow hActs.last
      · rw [hHere, ← hPhase]
        exact hFail
      · rw [hHere, ← hPhase] at hRaised
        have hWanted : n ∈ p.wanted id q := mem_filter.mpr ⟨hn, by simpa using hRaised⟩
        have hTarget := (wanted_valid hValid hActs.lt hWanted).target
        have hMet : p.keeps pool n = false := by simpa using find?_eq_none.mp hFirst n hWanted
        rw [keeps_wanted hTol hActs.lt hWanted] at hMet
        have hThere := hAt (p.index n.target) (index_lt hTarget)
        rw [name_itemAt_index hTarget] at hThere
        rw [hThere]
        exact not_unmet_iff.mp hMet
    refine ⟨_, hv.tail (.next (itemAt_mem hActs.lt) hMay), fun i hi => ?_⟩
    rcases entity_update_cases (hActs.size ▸ hActs.lt) _ i with ⟨rfl, hEq⟩ | ⟨hNe, hEq⟩ <;> rw [hEq]
    · rw [Function.update_self, hAt i hi, hPhase]
    · rw [Function.update_of_ne, hAt i hi]
      intro hName
      have hIndex := congrArg p.index hName
      rw [index_itemAt hValid hi, index_itemAt hValid hActs.lt] at hIndex
      exact hNe hIndex

theorem looped_of_course (hValid : p.Valid) (h : ReflTransGen p.Step (arrived p.names).pool pool) :
    p.Looped pool ∧ p.Reached pool := by
  induction h with
  | refl =>
    refine ⟨fun i hTrail => ?_, _, .refl, fun i hi => (phase_arrived hi).symm⟩
    have hFailed := failed_of_trail hTrail
    rw [entity_arrived] at hFailed
    split at hFailed <;> cases hFailed
  | tail hCourse hStep ih => exact ⟨ih.1.step hTol (.of_course hValid hCourse) hStep, ih.2.step hTol hValid hStep⟩

end Strict

/-! ## The end -/

/-- A run has ended, and the phases are as far as a vector says. -/
structure Ended (p : Plan) (ending : Ending) (w : World String (Array Nat)) (v : Progress) :
    Prop extends p.Concludes ending w where
  strict : ∀ i ∈ p.items, ∀ n ∈ i.needs, n.tolerate = false
  looped : p.Looped w.pool
  reached : p.Reachable v
  agree : ∀ i < p.names.length, v (p.itemAt i).name = (w.pool.entity i).phase

namespace Ended

variable {ending : Ending} {v : Progress} (h : p.Ended ending w v)

include h

theorem justified : p.Justified w.pool := h.toConcludes.justified h.valid

theorem agree_target {name : String} (hName : name ∈ p.names) :
    v name = (w.pool.entity (p.index name)).phase := by
  rw [← h.agree _ (index_lt hName), name_itemAt_index hName]

/-- The need that keeps an entity is the first unmet need of its item. -/
theorem firstUnmet_eq (hi : i < p.names.length) : (p.itemAt i).firstUnmet v = p.keeper w.pool i := by
  have hCongr : ∀ {l : List Need}, (∀ n ∈ l, n.target ∈ p.names ∧ n.tolerate = false) →
      (l.find? fun n => n.raised = (w.pool.entity i).phase.succ ∧ ¬ n.phase ≤ v n.target) =
        (l.filter (·.raised = (w.pool.entity i).phase.succ)).find? (p.keeps w.pool) := by
    intro l hNeeds
    induction l with
    | nil => rfl
    | cons n l ih =>
      have ih := ih fun m hm => hNeeds m (mem_cons_of_mem _ hm)
      obtain ⟨hTarget, hTol⟩ := hNeeds n (mem_cons_self ..)
      have hKeeps : p.keeps w.pool n = decide (¬ n.phase ≤ v n.target) := by
        rw [keeps_of_not_tolerate hTol, Bool.eq_iff_iff, unmet_iff, decide_eq_true_eq, h.agree_target hTarget, Phase.le_iff,
          Phase.lt_iff]
        omega
      rw [filter_cons, find?_cons, ih]
      by_cases hRaised : n.raised = (w.pool.entity i).phase.succ
      · rw [if_pos (by simpa using hRaised), find?_cons, hKeeps]
        simp [hRaised]
      · rw [if_neg (by simpa using hRaised)]
        simp [hRaised]
  rw [Item.firstUnmet, h.agree i hi]
  exact hCongr fun n hn => ⟨(h.valid.needs _ (itemAt_mem hi) n hn).target, h.strict _ (itemAt_mem hi) n hn⟩

theorem meets_iff (hi : i < p.names.length) :
    (p.itemAt i).Meets (v (p.itemAt i).name).succ v ↔ p.keeper w.pool i = none := by
  rw [← h.firstUnmet_eq hi, Item.firstUnmet, find?_eq_none]
  constructor
  · intro hMeets n hn hc
    obtain ⟨hRaised, hUnmet⟩ := of_decide_eq_true hc
    exact hUnmet (hMeets n hn hRaised)
  · intro hNone n hn hRaised
    by_contra hc
    exact hNone n hn (decide_eq_true ⟨hRaised, hc⟩)

theorem follows_of_blocked (hb : p.Blocked w.pool i j) : p.Follows v (p.itemAt i).name (p.itemAt j).name := by
  obtain ⟨-, -, n, hn, rfl⟩ := hb
  have hTarget := (wanted_valid h.valid hn.lt hn.wanted).target
  rw [Follows, blocker, item?_name h.valid hn.lt, name_itemAt_index hTarget]
  simp [h.firstUnmet_eq hn.lt, (lacks_iff_keeper h.strict).mp hn]

/-- What an entity lacks is not finished, and neither is the entity. -/
theorem blocked_of_lacks (hn : p.Lacks w.pool i n) : p.Blocked w.pool i (p.index n.target) := by
  have hNeed := wanted_valid h.valid hn.lt hn.wanted
  have hRaised : n.raised = (w.pool.entity i).phase.succ := by simpa [wanted] using (mem_filter.mp hn.wanted).2
  refine ⟨?_, ?_, n, hn, rfl⟩
  · by_contra hLive
    have hLast := hNeed.raised.2
    rw [hRaised, h.finished i hn.lt (by simpa using hLive)] at hLast
    exact absurd hLast (by decide)
  · by_contra hLive
    have hUnmet := unmet_iff.mp hn.unmet
    rw [h.finished _ (index_lt hNeed.target) (by simpa using hLive)] at hUnmet
    exact absurd hUnmet (Int.not_lt.mpr hNeed.phase.2)

theorem blocked_of_follows {a b : String} (hab : p.Follows v a b) :
    p.Blocked w.pool (p.index a) (p.index b) := by
  have ha : a ∈ p.names := by
    by_contra hNot
    have hNone : p.item? a = none := by
      rw [item?, find?_eq_none]
      intro i hi hEq
      exact hNot (mem_map.mpr ⟨i, hi, by simpa using hEq⟩)
    rw [Follows, blocker, hNone] at hab
    cases hab
  have hItem := item?_name h.valid (index_lt ha)
  rw [name_itemAt_index ha] at hItem
  rw [Follows, blocker, hItem] at hab
  simp only [Option.bind_eq_bind, Option.bind_some, h.firstUnmet_eq (index_lt ha)] at hab
  obtain ⟨n, hn, hb⟩ := Option.bind_eq_some_iff.mp hab
  cases hb
  exact h.blocked_of_lacks (lacks_of_keeper hn)

theorem failsNext_iff (hi : i < p.names.length) :
    (w.pool.entity i).err = .semantic ↔ (p.itemAt i).FailsNext v := by
  rw [Item.FailsNext, h.meets_iff hi, h.agree i hi]
  constructor
  · intro hErr
    have hFailed : (w.pool.entity i).failed = true := by
      rw [failed_iff, hErr]
      decide
    rcases h.justified.failed_cases hi hFailed with ⟨-, hFaulty⟩ | ⟨hNot, -⟩
    · exact hFaulty
    · exact absurd hErr hNot
  · rintro ⟨hFail, hNone⟩
    have hFailed : (w.pool.entity i).failed = true := by
      by_contra hLive
      have hRun := h.finished i hi (by simpa using hLive)
      rcases h.valid.fail _ (itemAt_mem hi) with hNever | hAttempted
      · rw [hNever, hRun] at hFail
        cases hFail
      · have hLast := hAttempted.2
        rw [hFail, hRun] at hLast
        exact absurd hLast (by decide)
    rcases h.justified.failed_cases hi hFailed with ⟨hErr, -⟩ | ⟨-, t, ⟨-, -, n, hn, -⟩, -⟩
    · exact hErr
    · rw [(lacks_iff_keeper h.strict).mp hn] at hNone
      cases hNone

/-- Where the run has ended, no item can move any more. -/
theorem greatest : p.Greatest v := by
  refine greatest_of_stuck h.reached fun it hIt hMay => ?_
  have hName : it.name ∈ p.names := mem_map.mpr ⟨it, hIt, rfl⟩
  have hi := index_lt hName
  rw [← itemAt_index h.valid hIt] at hMay
  have hMeets := (h.meets_iff hi).mp hMay.meets
  have hPhase := h.agree _ hi
  cases hLive : (w.pool.entity (p.index it.name)).failed with
  | false =>
    have hBelow := hMay.unfinished
    rw [hPhase, h.finished _ hi hLive] at hBelow
    exact absurd hBelow (Int.lt_irrefl _)
  | true =>
    rcases h.justified.failed_cases hi hLive with ⟨-, hFail, -⟩ | ⟨-, t, ⟨-, -, n, hn, -⟩, -⟩
    · exact hMay.fail (by rw [hPhase, hFail])
    · rw [(lacks_iff_keeper h.strict).mp hn] at hMeets
      cases hMeets

/-- Errors that name a cycle do not lead to an entity that failed by itself. -/
theorem isCyclic_of_trail (hTrail : ReflTransGen (p.Blocked w.pool) i j)
    (hErr : (w.pool.entity i).err.isCyclic = true) : (w.pool.entity j).err.isCyclic = true := by
  induction hTrail with
  | refl => exact hErr
  | @tail b c _ hbc ih =>
    obtain ⟨n, hn, -⟩ := hbc.2.2
    rcases h.justified.failed_cases hn.lt hbc.1 with ⟨hSemantic, -⟩ | ⟨-, t, ht, hCyclic⟩
    · rw [hSemantic] at ih
      cases ih
    · rw [hbc.unique h.strict ht]
      exact hCyclic ih

/-- The errors that name a cycle are those of the entities from which the reasons lead back. -/
theorem cycle_iff {it : Item} (hIt : it ∈ p.items) :
    (w.pool.entity (p.index it.name)).err = .cycle ↔ TransGen (p.Follows v) it.name it.name := by
  have hi := index_lt (mem_map.mpr ⟨it, hIt, rfl⟩ : it.name ∈ p.names)
  constructor
  · intro hErr
    have hReason := h.justified.failed hi (failed_of_isCyclic (by rw [hErr]; rfl))
    rw [Reason, hErr] at hReason
    have hNames := TransGen.lift (fun k => (p.itemAt k).name)
      (fun _ _ hl => h.follows_of_blocked (blocked_of_linked hl)) _ _ hReason
    rwa [Function.onFun, itemAt_index h.valid hIt] at hNames
  · exact fun hTrail => h.looped _ (TransGen.lift p.index (fun _ _ => h.blocked_of_follows) _ _ hTrail)

end Ended

theorem exists_ended (hValid : p.Valid) (hTol : ∀ i ∈ p.items, ∀ n ∈ i.needs, n.tolerate = false) :
    ∃ ending w v, p.Ended ending w v := by
  obtain ⟨ending, w, h⟩ := exists_course hValid
  obtain ⟨hLooped, v, hReach, hAgree⟩ := looped_of_course hTol hValid h.course
  exact ⟨ending, w, v, h, hTol, hLooped, hReach, hAgree⟩

/--
**What a run of a plan comes to.** Where no need is tolerated, the final phases are those of the greatest vector `v` that
moves can reach, whatever the order of the turns was. An item is reported without an error if it is finished there, and
as failed by itself if it fails at its next phase and nothing else keeps it there. Every other item is kept by the first
need that is not met. It is reported as part of a cycle if these needs lead back to it; as failed for a dependency if they
lead to an item that failed by itself; and as one of the two dependent kinds if they lead into a cycle without it.
-/
theorem run_eq_greatest {p : Plan} (hValid : p.validate = .ok ())
    (hTol : ∀ i ∈ p.items, ∀ n ∈ i.needs, n.tolerate = false) :
    ∃ (ending : Ending) (v : Progress), p.run = .ok ending ∧ ending.internal = none ∧ p.Greatest v ∧
      ending.report.outcomes.map (·.name) = p.names ∧
      ∀ i ∈ p.items, ∃ o, ending.report.outcome? i.name = some o ∧ o.name = i.name ∧ o.phase = v i.name ∧
        (o.err = .ok ↔ v i.name = .run) ∧
        (o.err = .semantic ↔ i.FailsNext v) ∧
        (v i.name ≠ .run → ¬ i.FailsNext v →
          (∃ name, p.Follows v i.name name) ∧
          (o.err = .cycle ↔ TransGen (p.Follows v) i.name i.name) ∧
          ((∃ j ∈ p.items, j.FailsNext v ∧ TransGen (p.Follows v) i.name j.name) → o.err = .dependency) ∧
          (¬ TransGen (p.Follows v) i.name i.name →
            (∃ name, TransGen (p.Follows v) i.name name ∧ TransGen (p.Follows v) name name) →
            o.err = .cycleDependent ∨ o.err = .dependency)) := by
  have hValid := valid_of_validate hValid
  obtain ⟨ending, w, v, hEnded⟩ := exists_ended hValid hTol
  refine ⟨ending, v, hEnded.run, hEnded.internal, hEnded.greatest, hEnded.names, fun it hIt => ?_⟩
  have hName : it.name ∈ p.names := List.mem_map.mpr ⟨it, hIt, rfl⟩
  have hi := index_lt hName
  have hItem : p.itemAt (p.index it.name) = it := itemAt_index hValid hIt
  obtain ⟨hPhase, hErr⟩ := hEnded.outcome_eq hName
  have hSemantic := hEnded.failsNext_iff hi
  rw [hItem] at hSemantic
  refine ⟨_, hEnded.outcome?_name hName, rfl, ?_, ?_, ?_, fun hUnfinished hOther => ?_⟩
  · rw [hPhase, hEnded.agree_target hName]
  · rw [hErr, hEnded.agree_target hName]
    exact hEnded.ok_iff hValid hi
  · rw [hErr, hSemantic]
  -- the others have failed for another item
  rw [hErr]
  have hFailed : (w.pool.entity (p.index it.name)).failed = true := by
    by_contra hLive
    rw [hEnded.agree_target hName] at hUnfinished
    exact hUnfinished (hEnded.finished _ hi (by simpa using hLive))
  obtain ⟨t, ht⟩ : ∃ t, p.Blocked w.pool (p.index it.name) t := by
    rcases hEnded.justified.failed_cases hi hFailed with ⟨hErr, -⟩ | ⟨-, t, ht, -⟩
    · exact absurd (hSemantic.mp hErr) hOther
    · exact ⟨t, ht⟩
  have hKind := (hEnded.justified.failed hi hFailed).kind
  refine ⟨?_, hEnded.cycle_iff hIt, ?_, fun hOff _ => ?_⟩
  · have hFollows := hEnded.follows_of_blocked ht
    rw [hItem] at hFollows
    exact ⟨_, hFollows⟩
  · rintro ⟨j, hj, hFails, hTrail⟩
    have hJName : j.name ∈ p.names := List.mem_map.mpr ⟨j, hj, rfl⟩
    have hBlocked := TransGen.lift p.index (fun _ _ => hEnded.blocked_of_follows) _ _ hTrail
    have hEnd : (w.pool.entity (p.index j.name)).err = .semantic := by
      rw [hEnded.failsNext_iff (index_lt hJName), itemAt_index hValid hj]
      exact hFails
    by_contra hNot
    -- otherwise it has failed for a circle, and then so has all that it follows, also the end of the trail
    have hCyclic : (w.pool.entity (p.index it.name)).err.isCyclic = true := by
      rcases hKind with hc | hc | hc | hc
      · exact absurd (hSemantic.mp hc) hOther
      · exact absurd hc hNot
      · rw [hc]
        rfl
      · rw [hc]
        rfl
    have hEndCyclic := hEnded.isCyclic_of_trail hBlocked.to_reflTransGen hCyclic
    rw [hEnd] at hEndCyclic
    cases hEndCyclic
  · rcases hKind with hc | hc | hc | hc
    · exact absurd (hSemantic.mp hc) hOther
    · exact .inr hc
    · exact absurd ((hEnded.cycle_iff hIt).mp hc) hOff
    · exact .inl hc

/-- Two items that wait for each other, one that waits for them, one that fails and one that waits for that. -/
def entangled : Plan where
  items := [
    { name := "a", needs := [{ raised := .typeChecked, target := "b", phase := .typeChecked }] },
    { name := "b", needs := [{ raised := .typeChecked, target := "a", phase := .typeChecked }] },
    { name := "c", needs := [{ raised := .run, target := "a", phase := .run }] },
    { name := "d", fail := .sizeComputed },
    { name := "e", needs := [{ raised := .bytecodeBuilt, target := "d", phase := .sizeComputed }] }]

theorem run_entangled : entangled.validate = .ok () ∧ (∀ i ∈ entangled.items, ∀ n ∈ i.needs, n.tolerate = false) ∧
    ∃ (ending : Ending) (v : Progress), entangled.run = .ok ending ∧ entangled.Greatest v ∧
      ∀ i ∈ entangled.items, ∃ o, ending.report.outcome? i.name = some o ∧ o.phase = v i.name ∧
        (o.err = .ok ↔ v i.name = .run) := by
  obtain ⟨ending, v, hRun, -, hGreatest, -, hOutcome⟩ := run_eq_greatest (p := entangled) (by decide) (by decide)
  refine ⟨by decide, by decide, ending, v, hRun, hGreatest, fun i hi => ?_⟩
  obtain ⟨o, hFound, -, hPhase, hOk, -⟩ := hOutcome i hi
  exact ⟨o, hFound, hPhase, hOk⟩

end Plan

end Comptime
