import Comptime.Proofs.Plan.Reordering

/-!
# Plans without a circle

Where no item needs itself, directly or through others, there is always an unfinished item all of whose needs are settled:
their targets are finished or have failed. Such an item never waits. It goes from queue to queue, and as the phases come in
order, one round takes it to its end (`round_past`). So there are no more rounds than items, and nothing fails for a circle
(`run_acyclic`).
-/

namespace Comptime

namespace Plan

open Scheduler Relation

variable {p : Plan} {w w' : World String (Array Nat)} {pool pool' : Pool String} {i m t : Nat} {q : Phase} {n : Need}

/-- No item needs itself, directly or through others, whatever the phases and whatever is tolerated. -/
def Acyclic (p : Plan) : Prop := ∀ name, ¬TransGen p.NeedsOn name name

theorem Acyclic.not_circular (h : p.Acyclic) (name : String) : ¬p.Circular name := fun ⟨c, _, hCircle⟩ => h c hCircle

/-! ## What needs what -/

/-- The first entity needs the second. -/
def Needs (p : Plan) (i t : Nat) : Prop := ∃ n ∈ (p.itemAt i).needs, p.index n.target = t

theorem needs_of_wanted (h : n ∈ p.wanted i q) : p.Needs i (p.index n.target) := ⟨n, List.mem_of_mem_filter h, rfl⟩

/-- Entities each of which needs another of them are not there in a plan without a circle. -/
theorem Acyclic.not_all_need (h : p.Acyclic) (hValid : p.Valid) {S : Nat → Prop}
    (hNext : ∀ i < p.names.length, S i → ∃ t, p.Needs i t ∧ S t) (hi : i < p.names.length) : ¬S i := by
  intro hS
  obtain ⟨u, -, hCircle⟩ := exists_circle_of_stuck (S := fun i => i < p.names.length ∧ S i)
    (r := fun i t => p.NeedsOn (p.itemAt i).name (p.itemAt t).name) (fun _ hv => hv.1) (fun v hv => by
      obtain ⟨t, ⟨n, hn, rfl⟩, hT⟩ := hNext v hv.1 hv.2
      have hItem := itemAt_mem hv.1
      have hTarget := (hValid.needs _ hItem n hn).target
      exact ⟨_, ⟨index_lt hTarget, hT⟩, _, hItem, rfl, n, hn, (name_itemAt_index hTarget).symm⟩) ⟨hi, hS⟩
  exact h _ (TransGen.lift (fun v => (p.itemAt v).name) (fun _ _ h => h) _ _ hCircle)

/-- Where nothing fails by itself nothing fails. -/
theorem Justified.not_failed (hJust : p.Justified pool) (hValid : p.Valid) (hAcyclic : p.Acyclic)
    (hSafe : ∀ i < p.names.length, (p.itemAt i).fail ≠ (pool.entity i).phase.succ) (hi : i < p.names.length) :
    (pool.entity i).failed = false := by
  have hStraight : p.Straight := fun _ _ _ _ _ => hAcyclic.not_circular _
  refine Bool.not_eq_true _ ▸ hAcyclic.not_all_need (S := fun i => (pool.entity i).failed = true) hValid
    (fun i hi hFailed => ?_) hi
  rcases hJust.failed_of_straight hValid hStraight hi hFailed with hFail | ⟨n, hLacks, -, hTarget⟩
  · exact absurd hFail (hSafe i hi)
  · exact ⟨_, needs_of_wanted hLacks.wanted, hTarget⟩

/-! ## Rounds -/

/-- The entity has reached the phase, or has failed. -/
def Past (q : Phase) (pool : Pool String) (i : Nat) : Prop := (pool.entity i).failed = true ∨ q ≤ (pool.entity i).phase

instance : Decidable (Past q pool i) := inferInstanceAs (Decidable (_ ∨ _))

theorem Past.onward (h : Past q pool i) (hOn : Onward pool pool') : Past q pool' i :=
  h.imp hOn.failed fun hLe => Int.le_trans hLe (hOn.phase i)

/-- All that the entity needs is finished or has failed. -/
def Free (p : Plan) (pool : Pool String) (m : Nat) : Prop := ∀ t, p.Needs m t → Past .run pool t

/-- Where something is unfinished, something unfinished is free. -/
theorem exists_free (hValid : p.Valid) (hAcyclic : p.Acyclic) (hi : i < p.names.length) (h : ¬Past .run pool i) :
    ∃ m < p.names.length, ¬Past .run pool m ∧ p.Free pool m := by
  by_contra hNone
  refine hAcyclic.not_all_need (S := fun i => ¬Past .run pool i) hValid (fun m hm hPast => ?_) hi h
  by_contra hAll
  exact hNone ⟨m, hm, hPast, fun t ht => by_contra fun hT => hAll ⟨t, ht, hT⟩⟩

theorem Justified.later (hJust : p.Justified pool) (h : ReflTransGen p.Step pool pool') : p.Justified pool' := by
  induction h with
  | refl => exact hJust
  | tail _ hStep ih => exact ih.step hStep

theorem Free.later (hFree : p.Free pool m) (h : ReflTransGen p.Step pool pool') : p.Free pool' m :=
  fun t ht => (hFree t ht).onward (.of_course h)

/-- What an entity that is free needs is met, or its target has failed. -/
theorem Free.unmet (hFree : p.Free pool m) (hValid : p.Valid) (hm : m < p.names.length) (hn : n ∈ p.wanted m q)
    (hLive : (pool.entity (p.index n.target)).failed = false) : p.unmet pool n = false := by
  rcases hFree _ (needs_of_wanted hn) with hFailed | hRun
  · rw [hLive] at hFailed
    cases hFailed
  · exact not_unmet_iff.mpr (Int.le_trans (wanted_valid hValid hm hn).phase.2 hRun)

section Turns

variable (hValid : p.Valid) {base : Pool String} (hJust : p.Justified base) (hFree : p.Free base m) (hq : Queues.Attempts q)

include hValid hJust hFree hq

/-- The turn of an entity that is free: it goes on or fails. -/
theorem turn_past {pre rest : List Nat} {stays moved : Bool}
    (hWell : WellRun p.names (fun _ => True) (w.holding q (pre ++ m :: rest)))
    (hRunning : p.Running base (w.holding q (pre ++ m :: rest))) (hTurn : Turn p.handler q m w stays moved w') :
    Past q w'.pool m := by
  have hm : m < p.names.length := hWell.order.lt_held hq
  have hSize : m < w.pool.size := hWell.order.size ▸ hm
  have hCourse : ReflTransGen p.Step base (w.settled m).pool := hRunning.course.tail (.settle w m)
  have hPop : Populated p.names (w.settled m) := hWell.populated_settled m
  -- the handler changes nothing, as it has nothing to ask for
  have hAnswer : ∀ {r w1}, Answers p.handler q m (w.settled m) r w1 → w1.pool = (w.settled m).pool ∧
    Failure.yields r = false := by
    intro r w1 hAns
    obtain ⟨first, pool, hFirst, hEq, hAttempt⟩ := Attempt.of_answers hValid hPop hm (hRunning.handled hq) hAns
    cases hAttempt with
    | pass => exact ⟨congrArg Scheduler.pool hEq, rfl⟩
    | fault _ hf | depend _ hf => exact ⟨congrArg Scheduler.pool hEq, by rw [Failure.yields, Failure.isCause, hf]; rfl⟩
    | yield hLive =>
      have hUnmet := unmet_of_keeps (List.find?_some hFirst)
      rw [(hFree.later hCourse).unmet hValid hm (List.mem_of_find?_eq_some hFirst) hLive] at hUnmet
      cases hUnmet
  cases hTurn with
  | drop hFailed => exact .inl hFailed
  | wait hLive hWaits =>
    obtain ⟨d, hd, hUnsat, hTarget⟩ : ∃ d ∈ (w.pool.entity m).deps,
        w.pool.satisfied d = false ∧ (w.pool.entity d.target).failed = false := by
      simpa [settle, World.pool] using hWaits
    obtain ⟨n, hTo, rfl⟩ := (hJust.later hRunning.course).waiting hm d hd
    have hUnmet := (hFree.later hRunning.course).unmet hValid hm hTo.wanted hTarget
    rw [Plan.unmet, World.pool_holding, hUnsat] at hUnmet
    cases hUnmet
  | @advance w1 hLive hReady hAns =>
    have hSize' : m < w1.pool.size := by
      rw [(hAnswer hAns).1]
      exact hSize.trans_eq (Pool.size_update ..).symm
    refine .inr ?_
    rw [World.pool_advanced, Pool.entity_update_self hSize']
    exact Int.le_refl _
  | yield hLive hReady hAns hYield =>
    have hNot := (hAnswer hAns).2
    rw [Failure.yields, hYield] at hNot
    cases hNot
  | @fail w1 f hLive hReady hAns hYield =>
    have hSize' : m < w1.pool.size := by
      rw [(hAnswer hAns).1]
      exact hSize.trans_eq (Pool.size_update ..).symm
    refine .inl (World.failed_failing hSize' ?_ f)
    rw [(hAnswer hAns).1]
    exact ((Idle.settled w m).failed m).trans hLive

/-- When the queue of a phase has had its turns, an entity that is free and was in it has gone on or failed. -/
theorem turns_past : ∀ (l pre : List Nat) {w w' : World String (Array Nat)} {kept : List Nat} {moved : Bool},
    WellRun p.names (fun _ => True) (w.holding q (pre ++ l)) → p.Running base (w.holding q (pre ++ l)) →
      (m ∈ l ∨ Past q w.pool m) → turns p.handler q l w = .ok (kept, moved) w' → Past q w'.pool m := by
  intro l
  induction l with
  | nil =>
    intro pre w w' kept moved _ _ hPast hRun
    cases hRun
    exact hPast.resolve_left nofun
  | cons id rest ih =>
    intro pre w w' kept moved hWell hRunning hPast hRun
    obtain ⟨stays, moved1, w1, hTurn, hWell1, -⟩ := (fair_handler hValid).turn hq hWell
    have hRunning1 := (keeps_running hValid base).turn hq hWell hRunning hTurn
    have hStep : ReflTransGen p.Step w.pool w1.pool :=
      ((keeps_running hValid w.pool).turn hq hWell ⟨.refl, hRunning.handled⟩ hTurn).course
    have hPast1 : m ∈ rest ∨ Past q w1.pool m := by
      rcases hPast with hMem | hPast
      · rcases List.mem_cons.mp hMem with rfl | hMem
        · exact .inr (turn_past hValid hJust hFree hq hWell hRunning hTurn)
        · exact .inl hMem
      · exact .inr (hPast.onward (.of_course hStep))
    rw [turns_cons hTurn] at hRun
    cases hRest : turns p.handler q rest w1 with
    | error a w2 =>
      rw [hRest] at hRun
      cases hRun
    | ok x w2 =>
      rw [hRest] at hRun
      cases hRun
      exact ih (pre ++ staying id stays) hWell1 hRunning1 hPast1 hRest

omit hValid hJust hFree in
/-- One that has reached the phase before is queued for this one, if it has not reached it or failed. -/
theorem queued_or_past {r : Phase} (hr : q = r.succ) (hm : m < p.names.length) (hWell : WellRun p.names (fun _ => True) w)
    (hPast : Past r w.pool m) : m ∈ w.queue q ∨ Past q w.pool m := by
  by_cases hDone : Past q w.pool m
  · exact .inr hDone
  · obtain ⟨hLive, hBelow⟩ := not_or.mp hDone
    have hReached := hPast.resolve_left hLive
    refine .inl ((hWell.order.place hm (Bool.not_eq_true _ ▸ hLive) q).mpr ⟨Phase.ext_rank ?_, hq⟩)
    simp only [hr, Phase.le_iff, Phase.succ] at hReached hBelow ⊢
    omega

theorem runPhase_past {moved : Bool} (hWell : WellRun p.names (fun _ => True) w) (hRunning : p.Running base w)
    (hPast : m ∈ w.queue q ∨ Past q w.pool m) (hRun : runPhase p.handler q w = .ok moved w') : Past q w'.pool m := by
  have hWorld : (w.setQueue q []).holding q ([] ++ w.queue q) = w := by rw [List.nil_append, World.holding_queue w hq]
  rw [runPhase_eq] at hRun
  cases hTurns : turns p.handler q (w.queue q) (w.setQueue q []) with
  | error a w1 =>
    rw [hTurns] at hRun
    cases hRun
  | ok x w1 =>
    rw [hTurns] at hRun
    cases hRun
    have hDone : Past q w1.pool m := turns_past hValid hJust hFree hq (w.queue q) [] (w := w.setQueue q [])
      (by rwa [hWorld])
      (by rwa [hWorld]) hPast hTurns
    exact hDone

omit hq in
/-- Phases that come one after the other take one that is free from the first of them to the last. -/
theorem phases_past (hm : m < p.names.length) : ∀ (ps : List Phase) (r : Phase) {w w' : World String (Array Nat)}
    {moved : Bool},
    (r :: ps).IsChain (fun a b => b = a.succ) → (∀ q ∈ ps, Queues.Attempts q) → WellRun p.names (fun _ => True) w →
      p.Running base w → Past r w.pool m → phases p.handler ps w = .ok moved w' → Past (ps.getLastD r) w'.pool m := by
  intro ps
  induction ps with
  | nil =>
    intro r w w' moved _ _ _ _ hPast hRun
    cases hRun
    exact hPast
  | cons q rest ih =>
    intro r w w' moved hChain hps hWell hRunning hPast hRun
    obtain ⟨hr, hChain⟩ := List.isChain_cons_cons.mp hChain
    have hq := hps q (List.mem_cons_self ..)
    have hRest : ∀ q ∈ rest, Queues.Attempts q := fun q hq => hps q (List.mem_cons_of_mem _ hq)
    -- it is in the queue of the next phase unless it is past that already
    have hQueued := queued_or_past hq hr hm hWell hPast
    rw [phases_cons] at hRun
    rw [List.getLastD_cons]
    by_cases hEmpty : w.queue q = []
    · rw [if_pos hEmpty] at hRun
      exact ih q hChain hRest hWell hRunning (hQueued.resolve_left (hEmpty ▸ List.not_mem_nil)) hRun
    · rw [if_neg hEmpty] at hRun
      have hWell1 := (hWell.search q).1
      have hRunning1 := (keeps_running hValid base).search q hWell hRunning
      have hSearch : ReflTransGen p.Step w.pool (w.searched q).pool :=
        ((keeps_running hValid w.pool).search q hWell ⟨.refl, hRunning.handled⟩).course
      obtain ⟨moved1, w2, hPhase, hWell2, hRunning2, -⟩ := (fair_handler hValid).runPhase
        (keeps_running hValid base) hq hWell1 hRunning1
      have hPast2 := runPhase_past hValid hJust hFree hq hWell1 hRunning1
        (hQueued.imp id (·.onward (.of_course hSearch))) hPhase
      rw [hPhase] at hRun
      dsimp only at hRun
      cases hMore : phases p.handler rest w2 with
      | error a w3 =>
        rw [hMore] at hRun
        cases hRun
      | ok more w3 =>
        rw [hMore] at hRun
        cases hRun
        exact ih q hChain hRest hWell2 hRunning2 hPast2 hMore

end Turns

/-- A round takes one that is free to its end. -/
theorem round_past (hValid : p.Valid) (hJust : p.Justified w.pool) (hFree : p.Free w.pool m) (hm : m < p.names.length)
    (hWell : WellRun p.names (fun _ => True) w) (hRunning : p.Running w.pool w)
    (hRound : Scheduler.round p.handler w = .ok none w') : Past .run w'.pool m := by
  have hPast : Past .parsed w.countRound.pool m := .inr (hWell.order.phase hm).1
  rw [Scheduler.round_eq] at hRound
  split at hRound
  · cases hRound
  · cases hRun : phases p.handler Phase.handled w.countRound with
    | error a w1 =>
      rw [hRun] at hRound
      cases hRound
    | ok moved w1 =>
      rw [hRun] at hRound
      cases moved <;> cases hRound
      exact phases_past hValid hJust hFree hm Phase.handled .parsed (by decide) (fun q hq => Queues.mem_handled_iff.mp hq)
        hWell.countRound ⟨hRunning.course, hRunning.handled⟩ hPast hRun

/-! ## Runs -/

/-- How many entities are still to finish. -/
def unfinished (p : Plan) (w : World String (Array Nat)) : Nat :=
  {i ∈ Finset.range p.names.length | ¬Past .run w.pool i}.card

/-- Every round but the last brings one to its end. -/
theorem unfinished_lt (hValid : p.Valid) (hAcyclic : p.Acyclic) (hWell : WellRun p.names (fun _ => True) w)
    (hRunning : p.Running (arrived p.names).pool w) (hRound : Scheduler.round p.handler w = .ok none w') :
    p.unfinished w' < p.unfinished w := by
  have hSelf : p.Running w.pool w := ⟨.refl, hRunning.handled⟩
  have hOn : Onward w.pool w'.pool := by
    rcases (fair_handler hValid).round (keeps_running hValid w.pool) hWell hSelf with ⟨-, hLast⟩ |
      ⟨w1, hNext, -, hRunning1, -⟩
    · cases hLast.symm.trans hRound
    · cases hNext.symm.trans hRound
      exact .of_course hRunning1.course
  obtain ⟨i, hi, hUnfinished⟩ : ∃ i < p.names.length, ¬Past .run w.pool i := by
    have hOut : w.scheduler.outstanding ≠ 0 := by
      intro hOut
      rw [Scheduler.round_eq, if_pos hOut] at hRound
      cases hRound
    obtain ⟨i, hIn, hLive⟩ := List.countP_pos_iff.mp (Nat.pos_of_ne_zero hOut)
    obtain ⟨q, hi⟩ := World.mem_all_iff.mp hIn
    have hLive : (w.pool.entity i).failed = false := by simpa [World.pool] using hLive
    obtain ⟨rfl, hq⟩ := (hWell.order.place (hWell.order.lt hi) hLive q).mp hi
    refine ⟨i, hWell.order.lt hi, ?_⟩
    rintro (hFailed | hRun)
    · rw [hLive] at hFailed
      cases hFailed
    · have hLe := hq.2
      simp only [Phase.le_iff, Phase.succ, Phase.run] at hRun hLe
      omega
  -- without a circle, one of those that are not finished is kept by none of them
  obtain ⟨m, hm, hPast, hFree⟩ := exists_free hValid hAcyclic hi hUnfinished
  have hDone := round_past hValid (.of_course hValid hRunning.course) hFree hm hWell hSelf hRound
  refine Finset.card_lt_card (Finset.ssubset_iff_of_subset (fun j hj => ?_) |>.mpr ⟨m, ?_, ?_⟩)
  · obtain ⟨hj, hNot⟩ := Finset.mem_filter.mp hj
    exact Finset.mem_filter.mpr ⟨hj, fun hPast => hNot (hPast.onward hOn)⟩
  · exact Finset.mem_filter.mpr ⟨Finset.mem_range.mpr hm, hPast⟩
  · exact fun hIn => (Finset.mem_filter.mp hIn).2 hDone

theorem unfinished_le (p : Plan) (w : World String (Array Nat)) : p.unfinished w ≤ p.items.length := by
  calc p.unfinished w ≤ (Finset.range p.names.length).card := Finset.card_filter_le ..
    _ = p.items.length := by rw [Finset.card_range, length_names]

/-- **Plans without a circle.** A run takes no more rounds than there are items, and whatever fails, nothing is reported for
a circle. If no item is to fail, all of them get to their end. -/
theorem run_acyclic {p : Plan} (hValid : p.validate = .ok ()) (hAcyclic : p.Acyclic) :
    ∃ ending, p.run = .ok ending ∧ ending.internal = none ∧ ending.report.rounds ≤ p.items.length ∧
      ending.report.outcomes.map (·.name) = p.names ∧
      (∀ o ∈ ending.report.outcomes, o.err ≠ .cycle ∧ o.err ≠ .cycleDependent) ∧
      ((∀ i ∈ p.items, i.fail = .uninitialized) → ∀ o ∈ ending.report.outcomes, o.err = .ok ∧ o.phase = .run) := by
  have hValid := valid_of_validate hValid
  obtain ⟨ending, w, h, hRounds⟩ := exists_course_within hValid p.unfinished (unfinished_lt hValid hAcyclic)
  have hJust := h.justified hValid
  -- an outcome is that of an entity
  have hOutcome : ∀ o ∈ ending.report.outcomes, ∃ i < p.names.length, o.err = (w.pool.entity i).err ∧
    o.phase = (w.pool.entity i).phase := by
    rw [h.outcomes]
    intro o ho
    obtain ⟨name, hName, rfl⟩ := List.mem_map.mp ho
    exact ⟨p.index name, index_lt hName, (h.outcome_eq hName).2, (h.outcome_eq hName).1⟩
  refine ⟨ending, h.run, h.internal, hRounds.trans (unfinished_le p _), h.names, fun o ho => ?_, fun hSafe o ho => ?_⟩
  · obtain ⟨i, hi, hErr, -⟩ := hOutcome o ho
    have hNot : (w.pool.entity i).err.isCyclic ≠ true := fun hCyclic =>
      hAcyclic.not_circular _ (hJust.circular hValid hi hCyclic)
    rw [hErr]
    exact ⟨fun h => hNot (by rw [h]; rfl), fun h => hNot (by rw [h]; rfl)⟩
  · obtain ⟨i, hi, hErr, hPhase⟩ := hOutcome o ho
    have hLive : (w.pool.entity i).failed = false := by
      refine hJust.not_failed hValid hAcyclic (fun i hi => ?_) hi
      have hParsed := parsed_le_of_course h.course hi
      intro hFail
      rw [hSafe _ (itemAt_mem hi)] at hFail
      have hRank := congrArg Phase.rank hFail
      simp only [Phase.le_iff, Phase.succ, Phase.parsed, Phase.uninitialized] at hParsed hRank
      omega
    have hOk : (w.pool.entity i).err = .ok := by
      by_contra hErr
      rw [Entity.failed_iff.mpr hErr] at hLive
      cases hLive
    exact ⟨hErr.trans hOk, hPhase.trans (h.finished i hi hLive)⟩

/-- A house whose roof needs its walls, listed first, and which puts up with a garden that is never laid out. -/
def house : Plan where
  items := [
    { name := "roof", needs := [{ raised := .typeChecked, target := "walls", phase := .run },
      { raised := .run, target := "garden", phase := .run, tolerate := true }] },
    { name := "garden", fail := .bytecodeBuilt,
      needs := [{ raised := .sizeComputed, target := "walls", phase := .typeChecked }] },
    { name := "walls" }]

/-- Needs go from the roof to the garden to the walls. -/
theorem acyclic_house : house.Acyclic := by
  let height : String → Nat := fun name => if name = "roof" then 2 else if name = "garden" then 1 else 0
  have hDown : ∀ i ∈ house.items, ∀ n ∈ i.needs, height n.target < height i.name := by decide
  have hStep : ∀ {a b}, house.NeedsOn a b → height b < height a := by
    rintro a b ⟨i, hi, rfl, n, hn, rfl⟩
    exact hDown i hi n hn
  have hTrail : ∀ {a b}, TransGen house.NeedsOn a b → height b < height a := by
    intro a b h
    induction h with
    | single h => exact hStep h
    | tail _ h ih => exact (hStep h).trans ih
  exact fun name hCircle => lt_irrefl _ (hTrail hCircle)

theorem run_acyclic_house : house.validate = .ok () ∧ house.Acyclic ∧
    ∃ ending, house.run = .ok ending ∧ ending.report.rounds ≤ 3 ∧
      ∀ o ∈ ending.report.outcomes, o.err ≠ .cycle ∧ o.err ≠ .cycleDependent := by
  have hValid : house.validate = .ok () := by decide
  obtain ⟨ending, hRun, -, hRounds, -, hKinds, -⟩ := run_acyclic hValid acyclic_house
  exact ⟨hValid, acyclic_house, ending, hRun, hRounds, hKinds⟩

end Plan

end Comptime
