import Comptime.Proofs.Plan.Steps

/-!
# Every verdict is justified

Whatever a plan tolerates, nothing in a report is without a reason, and the reasons can be read off the report itself.
`Justified` is kept by every step of a run: needs of phases that were reached stay met or tolerated, and a failed entity
keeps the need it failed for, whose target has failed too and does not go on either. `run_justified` says so of reports.
-/

namespace Comptime

open List Phase Pool Entity

namespace Plan

open Scheduler Relation

variable {p : Plan} {w : World String (Array Nat)} {pool pool' : Pool String} {id i j t : Nat} {q : Phase} {n : Need}

/-- The entity needs something for its next phase, and nothing that it needs there before keeps it. -/
def ComesTo (p : Plan) (pool : Pool String) (i : Nat) (n : Need) : Prop :=
  ∃ before after, p.wanted i (pool.entity i).phase.succ = before ++ n :: after ∧ ∀ m ∈ before, p.keeps pool m = false

/-- What the entity comes to is not there. -/
structure Lacks (p : Plan) (pool : Pool String) (i : Nat) (n : Need) : Prop where
  comesTo : p.ComesTo pool i n
  unmet : p.unmet pool n = true

/-- Two entities that failed for a cycle, the second of which keeps the first. -/
structure Linked (p : Plan) (pool : Pool String) (i t : Nat) : Prop where
  err : (pool.entity i).err = .cycle
  target_err : (pool.entity t).err = .cycle
  lacks : ∃ n, p.Lacks pool i n ∧ p.index n.target = t

/-- Why an entity has failed, by its error. -/
def Reason (p : Plan) (pool : Pool String) (i : Nat) : Prop :=
  match (pool.entity i).err with
  | .semantic => (p.itemAt i).fail = (pool.entity i).phase.succ ∧
      ∀ n ∈ p.wanted i (pool.entity i).phase.succ, p.keeps pool n = false
  | .dependency => ∃ n, p.Lacks pool i n ∧ n.tolerate = false ∧ (pool.entity (p.index n.target)).failed = true
  | .cycle => TransGen (p.Linked pool) i i
  | .cycleDependent => ∃ n, p.Lacks pool i n ∧ (pool.entity (p.index n.target)).err.isCyclic = true
  | _ => False

/-- What the entities have reached, wait for and failed for agrees with the plan. -/
structure Justified (p : Plan) (pool : Pool String) : Prop where
  behind : ∀ {i}, i < p.names.length → ∀ n ∈ (p.itemAt i).needs, n.raised ≤ (pool.entity i).phase → p.keeps pool n = false
  waiting : ∀ {i}, i < p.names.length → ∀ d ∈ (pool.entity i).deps,
    ∃ n, p.ComesTo pool i n ∧ d = ⟨p.index n.target, n.phase⟩
  failed : ∀ {i}, i < p.names.length → (pool.entity i).failed = true → p.Reason pool i

theorem ComesTo.wanted (h : p.ComesTo pool i n) : n ∈ p.wanted i (pool.entity i).phase.succ := by
  obtain ⟨before, after, hEq, -⟩ := h
  rw [hEq]
  simp

theorem Lacks.wanted (h : p.Lacks pool i n) : n ∈ p.wanted i (pool.entity i).phase.succ := h.comesTo.wanted

theorem lacks_of_keeper (h : p.keeper pool i = some n) : p.Lacks pool i n := by
  obtain ⟨hKeeps, before, after, hEq, hBefore⟩ := find?_eq_some_iff_append.mp h
  exact ⟨⟨before, after, hEq, fun m hm => by simpa using hBefore m hm⟩, unmet_of_keeps hKeeps⟩

/-- One that has not failed by itself lacks something of one that has failed, and an error that names a circle leads to
such errors. -/
theorem Reason.lacks (h : p.Reason pool i) (hErr : (pool.entity i).err ≠ .semantic) :
    ∃ n, p.Lacks pool i n ∧ (pool.entity (p.index n.target)).failed = true ∧
      ((pool.entity i).err.isCyclic = true → (pool.entity (p.index n.target)).err.isCyclic = true) := by
  unfold Reason at h
  split at h
  · rename_i hKind
    exact absurd hKind hErr
  · rename_i hKind
    obtain ⟨n, hLacks, -, hTarget⟩ := h
    exact ⟨n, hLacks, hTarget, by rw [hKind]; nofun⟩
  · obtain ⟨t, ⟨-, hTarget, n, hLacks, rfl⟩, -⟩ := TransGen.head'_iff.mp h
    have hCyclic : (pool.entity (p.index n.target)).err.isCyclic = true := by rw [hTarget]; rfl
    exact ⟨n, hLacks, failed_of_isCyclic hCyclic, fun _ => hCyclic⟩
  · obtain ⟨n, hLacks, hCyclic⟩ := h
    exact ⟨n, hLacks, failed_of_isCyclic hCyclic, fun _ => hCyclic⟩
  · exact h.elim

theorem Reason.kind (h : p.Reason pool i) : (pool.entity i).err = .semantic ∨ (pool.entity i).err = .dependency ∨
    (pool.entity i).err = .cycle ∨ (pool.entity i).err = .cycleDependent := by
  unfold Reason at h
  cases hErr : (pool.entity i).err <;> simp [hErr] at h ⊢

/-! ## Reasons stay -/

namespace Onward

theorem comesTo (h : Onward pool pool') (hi : (pool'.entity i).phase = (pool.entity i).phase) (hTo : p.ComesTo pool i n) :
    p.ComesTo pool' i n := by
  obtain ⟨before, after, hEq, hBefore⟩ := hTo
  exact ⟨before, after, hi ▸ hEq, fun m hm => h.not_keeps (hBefore m hm)⟩

/-- As long as neither goes on, an entity goes on lacking what it lacks of another. -/
theorem lacks (h : Onward pool pool') (hi : (pool'.entity i).phase = (pool.entity i).phase)
    (ht : (pool'.entity (p.index n.target)).phase = (pool.entity (p.index n.target)).phase) (hLacks : p.Lacks pool i n) :
    p.Lacks pool' i n := by
  refine ⟨h.comesTo hi hLacks.comesTo, ?_⟩
  rw [unmet_iff, ht]
  exact unmet_iff.mp hLacks.unmet

theorem linked (h : Onward pool pool') (hLinked : p.Linked pool i t) : p.Linked pool' i t := by
  have hFailed : ∀ {j}, (pool.entity j).err = .cycle → (pool.entity j).failed = true := by
    intro j hj
    rw [failed_iff, hj]
    decide
  obtain ⟨hi, ht, n, hLacks, rfl⟩ := hLinked
  obtain ⟨hPhase, hErr⟩ := h.frozen (hFailed hi)
  obtain ⟨hPhaseT, hErrT⟩ := h.frozen (hFailed ht)
  exact ⟨hErr.trans hi, hErrT.trans ht, n, h.lacks hPhase hPhaseT hLacks, rfl⟩

/-- A reason is good for ever. -/
theorem reason (h : Onward pool pool') (hi : (pool.entity i).failed = true) (hReason : p.Reason pool i) :
    p.Reason pool' i := by
  obtain ⟨hPhase, hErr⟩ := h.frozen hi
  unfold Reason at hReason ⊢
  rw [hErr, hPhase]
  split at hReason
  · exact ⟨hReason.1, fun n hn => h.not_keeps (hReason.2 n hn)⟩
  · obtain ⟨n, hLacks, hTol, hTarget⟩ := hReason
    exact ⟨n, h.lacks hPhase (h.frozen hTarget).1 hLacks, hTol, h.failed hTarget⟩
  · exact TransGen.mono (fun _ _ => h.linked) _ _ hReason
  · obtain ⟨n, hLacks, hTarget⟩ := hReason
    obtain ⟨hPhaseT, hErrT⟩ := h.frozen (failed_of_isCyclic hTarget)
    exact ⟨n, h.lacks hPhase hPhaseT hLacks, hErrT ▸ hTarget⟩
  · exact hReason.elim

end Onward

/-! ## Steps -/

/-- An edge that is not out of date is a need that is not met. -/
theorem Justified.lacks_of_edge (hJust : p.Justified pool) (hi : i < p.names.length) {d : Dep}
    (hd : d ∈ (pool.entity i).deps) (hUnsat : pool.satisfied d = false) :
    ∃ n, p.Lacks pool i n ∧ p.index n.target = d.target := by
  obtain ⟨n, hTo, rfl⟩ := hJust.waiting hi d hd
  exact ⟨n, ⟨hTo, by rw [unmet, hUnsat]; rfl⟩, rfl⟩

/-- Every entity on a circle is on it itself. -/
theorem transGen_of_circle {α : Type} {r : α → α → Prop} {a : α} (h : TransGen r a a) :
    TransGen (fun b c => r b c ∧ ReflTransGen r a b ∧ TransGen r b b ∧ TransGen r c c) a a := by
  have hTrail : ∀ {c}, TransGen r a c → ReflTransGen r c a →
      TransGen (fun b c => r b c ∧ ReflTransGen r a b ∧ TransGen r b b ∧ TransGen r c c) a c := by
    intro c hac
    induction hac with
    | single hEdge => exact fun hBack => .single ⟨hEdge, .refl, h, .tail' hBack hEdge⟩
    | @tail b c hab hEdge ih =>
      intro hBack
      have hAround : ReflTransGen r b a := .head hEdge hBack
      refine .tail (ih hAround) ⟨hEdge, hab.to_reflTransGen, ?_, ?_⟩
      · exact hab.trans_right hAround
      · exact .tail' (hBack.trans hab.to_reflTransGen) hEdge
  exact hTrail h .refl

/-- Those that a search fails were kept by others that it failed, or that had failed for a circle before. -/
theorem Justified.reason_search (hJust : p.Justified pool) (hSize : pool.size = p.names.length)
    (hRange : ∀ i, ∀ d ∈ (pool.entity i).deps, d.target < pool.size) {queue : List Nat}
    (hOn : Onward pool (pool.detectCycles queue).pool) (hSought : pool.Sought queue i) (hDoomed : pool.Doomed i) :
    p.Reason (pool.detectCycles queue).pool i := by
  have hPhase := @phase_search pool queue hRange
  have hFate := (detectCycles_spec hRange queue).1
  -- an edge that is not satisfied stands for a need that is not met, also after the search
  have hLacks : ∀ {j d}, d ∈ (pool.entity j).deps → pool.satisfied d = false →
      ∃ n, p.Lacks (pool.detectCycles queue).pool j n ∧ p.index n.target = d.target := by
    intro j d hd hUnsat
    have hj : j < p.names.length := by
      by_contra hj
      rw [entity_of_size_le (by omega)] at hd
      cases hd
    obtain ⟨n, hLacks, hTarget⟩ := hJust.lacks_of_edge hj hd hUnsat
    exact ⟨n, hOn.lacks (hPhase _) (hPhase _) hLacks, hTarget⟩
  rw [Reason, hFate i hSought]
  by_cases hCycle : pool.OnCycle i
  -- all around the circle the search finds the same fate
  · rw [fate_of_onCycle hCycle]
    refine TransGen.mono (fun a b hab => ?_) _ _ (transGen_of_circle hCycle)
    obtain ⟨hWaits, hReach, hCycleA, hCycleB⟩ := hab
    have ⟨_, _, d, hd, hEdge, hUnsat⟩ := hWaits
    have hSoughtA := sought_of_reaches hSought hReach
    obtain ⟨n, hn, hTarget⟩ := hLacks hd hUnsat
    refine ⟨?_, ?_, n, hn, hTarget.trans hEdge⟩
    · rw [hFate _ hSoughtA, fate_of_onCycle hCycleA]
    · rw [hFate _ (sought_of_waits hSoughtA hWaits), fate_of_onCycle hCycleB]
  · rw [fate_of_doomed hCycle hDoomed]
    rcases (doomed_iff_of_not_onCycle hCycle).mp hDoomed with ⟨d, hd, hUnsat, hTainted⟩ | ⟨t, hWaits, hDoomedT⟩
    · obtain ⟨n, hn, hTarget⟩ := hLacks hd hUnsat
      refine ⟨n, hn, ?_⟩
      rw [hTarget, (hOn.frozen (failed_of_isCyclic hTainted)).2]
      exact hTainted
    · have ⟨_, _, d, hd, hEdge, hUnsat⟩ := hWaits
      obtain ⟨n, hn, hTarget⟩ := hLacks hd hUnsat
      refine ⟨n, hn, ?_⟩
      rw [hTarget, hEdge]
      exact isCyclic_search hRange (sought_of_waits hSought hWaits) hDoomedT

/-- One that fails in a step has its reason then. -/
theorem Justified.reason_of_fails (hJust : p.Justified pool) (hOn : Onward pool pool')
    (hPhase : (pool'.entity i).phase = (pool.entity i).phase) (h : p.Fails pool pool' i) : p.Reason pool' i := by
  cases h with
  | fault hErr hFail hNone =>
    rw [Reason, hErr, hPhase]
    exact ⟨hFail, fun n hn => hOn.not_keeps (not_keeps_of_keeper hNone hn)⟩
  | @depend n hErr hKeeper hTarget =>
    have hTol : n.tolerate = false := by
      have hKeeps := find?_some hKeeper
      rw [keeps, hTarget] at hKeeps
      simpa using (Bool.and_eq_true_iff.mp hKeeps).2
    rw [Reason, hErr]
    exact ⟨n, hOn.lacks hPhase (hOn.frozen hTarget).1 (lacks_of_keeper hKeeper), hTol, hOn.failed hTarget⟩
  | search hSize hRange hSought hDoomed hPool =>
    subst hPool
    exact hJust.reason_search hSize hRange hOn hSought hDoomed

/-- **Every step keeps the reasons.** -/
theorem Justified.step (hJust : p.Justified pool) (hStep : p.Step pool pool') : p.Justified pool' := by
  have hOn := hStep.onward
  refine ⟨fun {i} hi n hn hRaised => hOn.not_keeps ?_, fun {i} hi d hd => ?_, fun {i} hi hFailed => ?_⟩
  · cases hStep.fares i with
    | stay hPhase _ _ | yield _ _ hPhase _ _ | fail _ hPhase _ _ => exact hJust.behind hi n hn (hPhase ▸ hRaised)
    | advance _ _ hPhase _ _ hNone =>
      -- the needs of the phase that is reached now are those the attempt has raised
      rw [hPhase] at hRaised
      by_cases hNow : n.raised = (pool.entity i).phase.succ
      · exact not_keeps_of_keeper hNone (List.mem_filter.mpr ⟨hn, by simpa using hNow⟩)
      · refine hJust.behind hi n hn ?_
        have hRank : n.raised.rank ≠ (pool.entity i).phase.succ.rank := fun hc => hNow (Phase.ext_rank hc)
        simp only [Phase.le_iff, Phase.succ] at hRaised hRank ⊢
        omega
  · have hOld (hPhase : (pool'.entity i).phase = (pool.entity i).phase) (hd : d ∈ (pool.entity i).deps) :
        ∃ n, p.ComesTo pool' i n ∧ d = ⟨p.index n.target, n.phase⟩ := by
      obtain ⟨n, hTo, hEdge⟩ := hJust.waiting hi d hd
      exact ⟨n, hOn.comesTo hPhase hTo, hEdge⟩
    cases hStep.fares i with
    | stay hPhase _ hDeps => exact hOld hPhase (hDeps d hd)
    | advance _ _ _ hDeps _ _ =>
      rw [hDeps] at hd
      cases hd
    | yield _ _ hPhase hDeps hKeeper => exact ⟨_, hOn.comesTo hPhase (lacks_of_keeper hKeeper).comesTo, hDeps d hd⟩
    | fail _ hPhase hDeps _ => exact hOld hPhase (hDeps ▸ hd)
  · cases hStep.fares i with
    | stay _ hErr _ =>
      have hOld : (pool.entity i).failed = true := by rwa [Entity.failed, ← hErr]
      exact hOn.reason hOld (hJust.failed hi hOld)
    | advance _ hLive _ _ _ _ | yield _ hLive _ _ _ =>
      rw [hLive] at hFailed
      cases hFailed
    | fail _ hPhase _ hFails => exact hJust.reason_of_fails hOn hPhase hFails

theorem Justified.of_course (hValid : p.Valid) (h : ReflTransGen p.Step (arrived p.names).pool pool) :
    p.Justified pool := by
  induction h with
  | refl =>
    refine ⟨fun {i} hi n hn hRaised => ?_, fun {i} _ d hd => ?_, fun {i} _ hFailed => ?_⟩
    · -- no need is raised at the phase where everything starts
      rw [phase_arrived hi] at hRaised
      have hAttempted := (hValid.needs _ (itemAt_mem hi) n hn).raised.1
      exact absurd (Int.le_trans hAttempted hRaised) (by decide)
    · rw [entity_arrived] at hd
      split at hd <;> cases hd
    · rw [entity_arrived] at hFailed
      split at hFailed <;> cases hFailed
  | tail _ hStep ih => exact ih.step hStep

/-! ## Reports -/

namespace Report

/-- How far the item of a name got. -/
def phase (r : Report) (name : String) : Phase := ((r.outcome? name).map (·.phase)).getD .uninitialized

/-- What the item of a name is reported as. -/
def kind (r : Report) (name : String) : ErrorKind := ((r.outcome? name).map (·.err)).getD .ok

/-- The target of the need got as far as it is needed. -/
def Meets (r : Report) (n : Need) : Prop := n.phase ≤ r.phase n.target

/-- The need is met, or that its target failed is tolerated. -/
def Clears (r : Report) (n : Need) : Prop := r.Meets n ∨ n.tolerate = true ∧ r.kind n.target ≠ .ok

/-- A need of an item at the phase after the one it got to. -/
def IsNext (r : Report) (i : Item) (n : Need) : Prop := n ∈ i.needs ∧ n.raised = (r.phase i.name).succ

/-- Two names reported for a cycle: the first one's item needs something of the second one that is not there. -/
def Circles (p : Plan) (r : Report) (a b : String) : Prop :=
  r.kind a = .cycle ∧ r.kind b = .cycle ∧
    ∃ i ∈ p.items, i.name = a ∧ ∃ n, r.IsNext i n ∧ n.target = b ∧ ¬ r.Meets n

/-- What a report says about an item is borne out by the rest of it. -/
structure Justifies (p : Plan) (r : Report) (i : Item) : Prop where
  ok : r.kind i.name = .ok ↔ r.phase i.name = .run
  behind : ∀ n ∈ i.needs, n.raised ≤ r.phase i.name → r.Clears n
  named : r.kind i.name ∈ [.ok, .semantic, .dependency, .cycle, .cycleDependent]
  semantic : r.kind i.name = .semantic → i.fail = (r.phase i.name).succ ∧ ∀ n, r.IsNext i n → r.Clears n
  dependency : r.kind i.name = .dependency →
    ∃ n, r.IsNext i n ∧ n.tolerate = false ∧ ¬ r.Meets n ∧ r.kind n.target ≠ .ok
  cycle : r.kind i.name = .cycle → TransGen (r.Circles p) i.name i.name
  cycleDependent : r.kind i.name = .cycleDependent →
    ∃ n, r.IsNext i n ∧ ¬ r.Meets n ∧ (r.kind n.target = .cycle ∨ r.kind n.target = .cycleDependent)

end Report

/-- What a report says is how the entities ended. -/
structure Shows (p : Plan) (pool : Pool String) (r : Report) : Prop where
  phase : ∀ {name}, name ∈ p.names → r.phase name = (pool.entity (p.index name)).phase
  kind : ∀ {name}, name ∈ p.names → r.kind name = (pool.entity (p.index name)).err

theorem Concludes.shows {ending : Ending} (h : p.Concludes ending w) : p.Shows w.pool ending.report := by
  refine ⟨fun {name} hName => ?_, fun {name} hName => ?_⟩
  · rw [Report.phase, h.outcome?_name hName]
    exact (h.outcome_eq hName).1
  · rw [Report.kind, h.outcome?_name hName]
    exact (h.outcome_eq hName).2

namespace Shows

variable {r : Report} (h : p.Shows pool r)

include h

theorem meets_iff (hTarget : n.target ∈ p.names) : r.Meets n ↔ p.unmet pool n = false := by
  rw [Report.Meets, h.phase hTarget, not_unmet_iff]

theorem kind_ne_ok_iff (hTarget : n.target ∈ p.names) :
    r.kind n.target ≠ .ok ↔ (pool.entity (p.index n.target)).failed = true := by
  rw [h.kind hTarget, failed_iff]

theorem clears_iff (hTarget : n.target ∈ p.names) : r.Clears n ↔ p.keeps pool n = false := by
  rw [Report.Clears, h.meets_iff hTarget, h.kind_ne_ok_iff hTarget, keeps_eq_false_iff]

/-- What an entity lacks its item needs next, and the report shows it. -/
theorem of_lacks (hValid : p.Valid) {it : Item} (hIt : it ∈ p.items)
    (hLacks : p.Lacks pool (p.index it.name) n) : n.target ∈ p.names ∧ r.IsNext it n ∧ ¬ r.Meets n := by
  have hName : it.name ∈ p.names := mem_map.mpr ⟨it, hIt, rfl⟩
  have hTarget := (wanted_valid hValid (index_lt hName) hLacks.wanted).target
  obtain ⟨hMem, hRaised⟩ := mem_filter.mp hLacks.wanted
  rw [itemAt_index hValid hIt] at hMem
  refine ⟨hTarget, ⟨hMem, ?_⟩, ?_⟩
  · rw [h.phase hName]
    simpa using hRaised
  · rw [h.meets_iff hTarget, hLacks.unmet]
    decide

theorem circles_of_linked (hValid : p.Valid) (hSize : pool.size = p.names.length)
    (hLinked : p.Linked pool i t) : r.Circles p (p.itemAt i).name (p.itemAt t).name := by
  have hIn : ∀ {j}, (pool.entity j).err = .cycle → j < p.names.length := by
    intro j hj
    by_contra hNot
    rw [entity_of_size_le (by omega)] at hj
    cases hj
  have hName : ∀ {j}, j < p.names.length → (p.itemAt j).name ∈ p.names := fun hj => mem_of_getElem? (getElem?_names hj)
  have hKind : ∀ {j}, (pool.entity j).err = .cycle → r.kind (p.itemAt j).name = .cycle := by
    intro j hj
    rw [h.kind (hName (hIn hj)), index_itemAt hValid (hIn hj), hj]
  obtain ⟨hi, ht, n, hLacks, rfl⟩ := hLinked
  have hItem := itemAt_mem (hIn hi)
  rw [← index_itemAt hValid (hIn hi)] at hLacks
  obtain ⟨hTarget, hNext, hUnmet⟩ := h.of_lacks hValid hItem hLacks
  exact ⟨hKind hi, hKind ht, _, hItem, rfl, n, hNext, (name_itemAt_index hTarget).symm, hUnmet⟩

end Shows

/-- One that failed has a phase before it. -/
theorem Reason.unfinished (hReason : p.Reason pool i) (hValid : p.Valid) (hi : i < p.names.length) :
    (pool.entity i).phase < .run := by
  suffices hSucc : (pool.entity i).phase.succ ≤ .run by
    simp only [le_iff, lt_iff, succ] at hSucc ⊢
    omega
  by_cases hErr : (pool.entity i).err = .semantic
  · rw [Reason, hErr] at hReason
    rcases hValid.fail _ (itemAt_mem hi) with hNever | hAttempted
    · rw [← hReason.1, hNever]
      decide
    · exact hReason.1 ▸ hAttempted.2
  · obtain ⟨n, hLacks, -⟩ := hReason.lacks hErr
    have hRaised : n.raised = (pool.entity i).phase.succ := by simpa [wanted] using (mem_filter.mp hLacks.wanted).2
    exact hRaised ▸ (wanted_valid hValid hi hLacks.wanted).raised.2

namespace Concludes

variable {ending : Ending} (h : p.Concludes ending w) (hValid : p.Valid)
include h hValid

theorem justified : p.Justified w.pool := .of_course hValid h.course

/-- Where everything has ended, what is finished has not failed, and nothing else. -/
theorem ok_iff (hi : i < p.names.length) : (w.pool.entity i).err = .ok ↔ (w.pool.entity i).phase = .run := by
  rw [← not_failed_iff]
  refine ⟨h.finished _ hi, fun hRun => ?_⟩
  by_contra hFailed
  have hBelow := ((h.justified hValid).failed hi (by simpa using hFailed)).unfinished hValid hi
  rw [hRun] at hBelow
  exact Int.lt_irrefl _ hBelow

/-- What is reported of an item is justified. -/
theorem justifies {it : Item} (hIt : it ∈ p.items) : ending.report.Justifies p it := by
  have hName : it.name ∈ p.names := mem_map.mpr ⟨it, hIt, rfl⟩
  have hi := index_lt hName
  have hItem := itemAt_index hValid hIt
  have hTarget : ∀ {n}, n ∈ it.needs → n.target ∈ p.names := fun hn => (hValid.needs _ hIt _ hn).target
  have hJust := h.justified hValid
  have hShows := h.shows
  have hPhase := hShows.phase hName
  have hKind := hShows.kind hName
  have hReason : ending.report.kind it.name ≠ .ok → p.Reason w.pool (p.index it.name) := by
    intro hNot
    rw [hKind, ← failed_iff] at hNot
    exact hJust.failed hi hNot
  refine ⟨?_, fun n hn hRaised => ?_, ?_, fun hErr => ?_, fun hErr => ?_, fun hErr => ?_, fun hErr => ?_⟩
  · rw [hKind, hPhase]
    exact h.ok_iff hValid hi
  · rw [hShows.clears_iff (hTarget hn)]
    exact hJust.behind hi n (by rwa [hItem]) (hPhase ▸ hRaised)
  · by_cases hOk : ending.report.kind it.name = .ok
    · rw [hOk]
      decide
    · rw [hKind]
      rcases (hReason hOk).kind with hErr | hErr | hErr | hErr <;> rw [hErr] <;> decide
  -- each kind of error has its own reason
  all_goals
    have hWhy := hReason (by rw [hErr]; decide)
    rw [Reason, ← hKind, hErr] at hWhy
  · obtain ⟨hFail, hMet⟩ := hWhy
    rw [hItem] at hFail
    refine ⟨hPhase ▸ hFail, fun n hn => (hShows.clears_iff (hTarget hn.1)).mpr (hMet n ?_)⟩
    refine mem_filter.mpr ⟨by rw [hItem]; exact hn.1, ?_⟩
    simpa [← hPhase] using hn.2
  · obtain ⟨n, hLacks, hTol, hFailed⟩ := hWhy
    obtain ⟨hIn, hNext, hUnmet⟩ := hShows.of_lacks hValid hIt hLacks
    exact ⟨n, hNext, hTol, hUnmet, (hShows.kind_ne_ok_iff hIn).mpr hFailed⟩
  · have hNames := TransGen.lift (fun k => (p.itemAt k).name)
      (fun _ _ => hShows.circles_of_linked hValid h.populated.size) _ _ hWhy
    rwa [Function.onFun, hItem] at hNames
  · obtain ⟨n, hLacks, hCyclic⟩ := hWhy
    obtain ⟨hIn, hNext, hUnmet⟩ := hShows.of_lacks hValid hIt hLacks
    refine ⟨n, hNext, hUnmet, ?_⟩
    rw [hShows.kind hIn]
    exact ErrorKind.isCyclic_iff.mp hCyclic

end Concludes

/--
**Every verdict is justified.** A run of a valid plan, whatever is tolerated in it, ends with a report of all items in which
every entry is borne out by the others: the finished items are those without an error, needs of phases that were reached
are met or tolerated, and every error has its reason.
-/
theorem run_justified {p : Plan} (hValid : p.validate = .ok ()) :
    ∃ ending, p.run = .ok ending ∧ ending.internal = none ∧ ending.report.outcomes.map (·.name) = p.names ∧
      ∀ i ∈ p.items, ending.report.Justifies p i := by
  have hValid := valid_of_validate hValid
  obtain ⟨ending, w, h⟩ := exists_course hValid
  exact ⟨ending, h.run, h.internal, h.names, fun _ => h.justifies hValid⟩

/-- An item that fails, one that tolerates it, one that does not, a circle, and one that tolerates the circle. -/
def forgiving : Plan where
  items := [
    { name := "broken", fail := .sizeComputed },
    { name := "lenient", needs := [{ raised := .typeChecked, target := "broken", phase := .run, tolerate := true }] },
    { name := "strict", needs := [{ raised := .run, target := "broken", phase := .run }] },
    { name := "left", needs := [{ raised := .typeChecked, target := "right", phase := .typeChecked }] },
    { name := "right", needs := [{ raised := .typeChecked, target := "left", phase := .typeChecked, tolerate := true }] },
    { name := "patient", needs := [{ raised := .sizeComputed, target := "left", phase := .run, tolerate := true }] }]

theorem run_forgiving : forgiving.validate = .ok () ∧ ∃ ending, forgiving.run = .ok ending ∧
    ∀ i ∈ forgiving.items, ending.report.Justifies forgiving i := by
  have hValid : forgiving.validate = .ok () := by decide
  obtain ⟨ending, hRun, -, -, hJust⟩ := run_justified hValid
  exact ⟨hValid, ending, hRun, hJust⟩

end Plan

end Comptime
