import Comptime.Proofs.Plan.Handler

/-!
# The course of a run

A run of a plan is a sequence of steps of its entities, and `Step` says all that a step can be: an entity drops edges,
goes on, waits at the need that keeps it, fails by itself or for another one, or a search fails those that can never go
on. `exists_course`: every run of a valid plan ends, after such steps from the start, with every entity finished or
failed. What holds of a report is shown by following the steps.
-/

namespace Comptime

namespace Plan

open Scheduler Relation

variable {p : Plan} {w w' : World String (Array Nat)} {pool pool' : Pool String} {id : Nat} {q : Phase}

/-! ## Steps -/

theorem Attempt.of_answers (hValid : p.Valid) (hPop : Populated p.names w) (hId : id < p.names.length)
    (hHandled : q ∈ w.scheduler.handled) {r : Except Failure Unit} (hAns : Answers p.handler q id w r w') :
    ∃ first pool, (p.wanted id q).find? (p.keeps w.pool) = first ∧ w'.scheduler = { w.scheduler with pool } ∧
      p.Attempt w.pool id ((p.itemAt id).fail = q) first r pool := by
  obtain ⟨r', pool, hRun, hAttempt⟩ := handler_attempt (q := q) hValid hPop hId
  rw [Answers, if_pos hHandled, hRun] at hAns
  cases hAns
  exact ⟨_, pool, rfl, rfl, hAttempt⟩

/-- An entity that is not waiting attempts a phase. -/
structure Acts (p : Plan) (pool : Pool String) (id : Nat) (q : Phase) : Prop where
  size : pool.size = p.names.length
  lt : id < p.names.length
  live : (pool.entity id).failed = false
  deps : (pool.entity id).deps = []
  phase : q = (pool.entity id).phase.succ
  last : q ≤ .run

/-- What happens to the entities of a plan while it is run. -/
inductive Step (p : Plan) : Pool String → Pool String → Prop where
  | settle (w : World String (Array Nat)) (id : Nat) : Step p w.pool (w.settled id).pool
  | advance {pool : Pool String} {id : Nat} {q : Phase} : p.Acts pool id q →
      (p.wanted id q).find? (p.keeps pool) = none → (p.itemAt id).fail ≠ q →
      Step p pool (pool.update id fun e => { e with phase := q, deps := [] })
  | yield {pool : Pool String} {id : Nat} {q : Phase} {n : Need} : p.Acts pool id q →
      (p.wanted id q).find? (p.keeps pool) = some n →
      Step p pool (pool.update id (·.need ⟨p.index n.target, n.phase⟩))
  | fault {pool : Pool String} {id : Nat} {q : Phase} {f : Failure} : p.Acts pool id q →
      (p.wanted id q).find? (p.keeps pool) = none → (p.itemAt id).fail = q →
      Step p pool (pool.update id (·.setError .semantic f))
  | depend {pool : Pool String} {id : Nat} {q : Phase} {n : Need} {f : Failure} : p.Acts pool id q →
      (p.wanted id q).find? (p.keeps pool) = some n → (pool.entity (p.index n.target)).failed = true →
      Step p pool (pool.update id (·.setError .dependency f))
  | search {pool : Pool String} (queue : List Nat) : pool.size = p.names.length →
      (∀ i, ∀ d ∈ (pool.entity i).deps, d.target < pool.size) → Step p pool (pool.detectCycles queue).pool

/-- The entities have come by steps from somewhere to where they are, and every phase has a handler. -/
structure Running (p : Plan) (base : Pool String) (w : World String (Array Nat)) : Prop where
  course : ReflTransGen p.Step base w.pool
  handled : ∀ {q}, Queues.Attempts q → q ∈ w.scheduler.handled

/-- Whatever a turn does to the entities is a step of the plan. -/
theorem keeps_running (hValid : p.Valid) (base : Pool String) :
    Scheduler.Keeps p.handler p.names (fun _ => True) (p.Running base) where
  turn := by
    intro q pre id rest w stays moved w' hq hWell hJ hTurn
    have hCourse : ReflTransGen p.Step base (w.settled id).pool := hJ.course.tail (.settle w id)
    have hHandled : q ∈ (w.settled id).scheduler.handled := hJ.handled hq
    have hSettled : WellRun p.names (fun _ => True) ((w.settled id).holding q (pre ++ id :: rest)) := hWell.settled
    have hPop : Populated p.names (w.settled id) := hWell.populated_settled id
    have hId : id < p.names.length := hWell.order.lt_held hq
    have hActs : (w.pool.entity id).failed = false → (w.scheduler.settle id).2 = false →
      p.Acts (w.settled id).pool id q := by
      intro hLive hWaits
      have hLive' : ((w.settled id).pool.entity id).failed = false := ((Idle.settled w id).failed id).trans hLive
      exact ⟨hPop.size, hId, hLive', deps_settled (show id < w.pool.size from hWell.order.size ▸ hId) hWaits,
        hSettled.order.phase_held hq hLive', hq.2⟩
    -- the entity has dropped edges before the handler answers, which is a step as well
    have hOn {w1 w2 : World String (Array Nat)} {pool pool' : Pool String}
        (hEq : w1.scheduler = { (w.settled id).scheduler with pool }) (hPool : w2.pool = pool')
        (hSame : w2.scheduler.handled = w1.scheduler.handled) (hStep : p.Step (w.settled id).pool pool') :
        p.Running base w2 := by
      refine ⟨?_, fun h => ?_⟩
      · rw [hPool]
        exact hCourse.tail hStep
      · rw [hSame, hEq]
        exact hJ.handled h
    cases hTurn with
    | drop hFailed => exact ⟨hJ.course, hJ.handled⟩
    | wait hLive hWaits => exact ⟨hCourse, hJ.handled⟩
    | @advance w1 hLive hWaits hAns =>
      obtain ⟨first, pool, hFirst, hEq, hAttempt⟩ := Attempt.of_answers hValid hPop hId hHandled hAns
      cases hAttempt with
      | pass hFail =>
        refine hOn hEq ?_ rfl (.advance (hActs hLive hWaits) hFirst hFail)
        rw [World.pool_holding, World.pool_advanced, show w1.pool = _ from congrArg Scheduler.pool hEq]
    | yield hLive hWaits hAns hYield =>
      obtain ⟨first, pool, hFirst, hEq, hAttempt⟩ := Attempt.of_answers hValid hPop hId hHandled hAns
      cases hAttempt with
      | fault _ hf | depend _ hf =>
        rw [Failure.isCause, hf] at hYield
        cases hYield
      | yield _ _ hPool _ => exact hOn hEq (hPool ▸ congrArg Scheduler.pool hEq) rfl (.yield (hActs hLive hWaits) hFirst)
    | @fail w1 f hLive hWaits hAns hYield =>
      have hPool {kind : ErrorKind} (hKind : (if f.isCause .dependency then ErrorKind.dependency else .semantic) = kind)
          (hEq : w1.scheduler = (w.settled id).scheduler) :
          ((w1.failing id f).holding q (pre ++ staying id false ++ rest)).pool =
            (w.settled id).pool.update id (·.setError kind f) := by
        rw [World.pool_holding, World.failing, World.pool_setPool, hKind, show w1.pool = _ from congrArg Scheduler.pool hEq]
        rfl
      obtain ⟨first, pool, hFirst, hEq, hAttempt⟩ := Attempt.of_answers hValid hPop hId hHandled hAns
      cases hAttempt with
      | fault hFail hf =>
        refine hOn hEq (hPool ?_ hEq) rfl (.fault (hActs hLive hWaits) hFirst hFail)
        rw [Failure.isCause, hf]
        rfl
      | depend hTarget hf =>
        refine hOn hEq (hPool ?_ hEq) rfl (.depend (hActs hLive hWaits) hFirst hTarget)
        rw [Failure.isCause, hf]
        rfl
      | yield _ hf =>
        rw [Failure.isCause, hf] at hYield
        cases hYield
  search := by
    intro w q hWell hJ
    refine ⟨?_, hJ.handled⟩
    rw [World.pool_searched]
    exact hJ.course.tail (.search (w.queue q) hWell.order.size fun i d hd => hWell.order.edges hd)
  count := fun hJ => ⟨hJ.course, hJ.handled⟩

/-! ## From the start to the report -/

/-- The scheduler of a plan with names of their own: all phases have a handler. -/
theorem scheduler_eq (hValid : p.Valid) :
    Plan.scheduler p.names = .ok { arrived p.names with handled := Phase.handled.reverse } := by
  have hNodes := ofNodes_of_nodup hValid.nodup
  unfold Plan.scheduler
  change (ofNodes p.names >>= _) = _
  rw [hNodes]
  rfl

/-- The world in which a plan is run. -/
def start (p : Plan) : World String (Array Nat) :=
  ⟨{ arrived p.names with handled := Phase.handled.reverse }, Array.replicate p.items.length 0⟩

/-- A run of a plan has ended with every entity finished or failed, and its report is about the entities as they then are. -/
structure Concludes (p : Plan) (ending : Ending) (w : World String (Array Nat)) : Prop where
  valid : p.Valid
  run : p.run = .ok ending
  internal : ending.internal = none
  outcomes : ending.report.outcomes = p.names.map (outcome w)
  populated : Populated p.names w
  course : ReflTransGen p.Step (arrived p.names).pool w.pool
  finished : ∀ i < p.names.length, (w.pool.entity i).failed = false → (w.pool.entity i).phase = .run

/-- **A run of a valid plan is a course.** There are no more rounds than there is of something that every round but the last
uses up. -/
theorem exists_course_within (hValid : p.Valid) (μ : World String (Array Nat) → Nat)
    (hμ : ∀ {w w'}, WellRun p.names (fun _ => True) w → p.Running (arrived p.names).pool w →
      Scheduler.round p.handler w = .ok none w' → μ w' < μ w) :
    ∃ ending w, p.Concludes ending w ∧ ending.report.rounds ≤ μ p.start := by
  have hStart : WellRun p.names (fun _ : Array Nat => True) p.start := WellRun.arrived _ True.intro
  obtain ⟨w, hRepeat, hWell, hJ, hOut, hRounds⟩ := (fair_handler hValid).repeatRounds
    (keeps_running hValid _) μ hμ _ p.start le_rfl
    hStart ⟨.refl, fun hq => List.mem_reverse.mpr (Queues.mem_handled_iff.mpr hq)⟩
  have hRun : Scheduler.run p.handler p.start = .ok w.scheduler.verdict w := by simp only [Scheduler.run, hRepeat]
  rw [start] at hRun
  obtain ⟨err, hEnding⟩ : ∃ err, p.run = .ok ⟨⟨w.scheduler.rounds, p.names.map (outcome w), err⟩, none⟩ := by
    unfold Plan.run
    rw [scheduler_eq hValid]
    by_cases hCount : w.scheduler.pool.failedCount = 0
    · simp only [bind, Except.bind, EStateM.run, hRun, verdict_eq_ok hCount]
      exact ⟨none, rfl⟩
    · obtain ⟨f, hf, hCause⟩ := verdict_eq_error hCount
      simp only [bind, Except.bind, EStateM.run, hRun, hf, hCause, if_true]
      exact ⟨some f, rfl⟩
  exact ⟨_, w, ⟨hValid, hEnding, rfl, rfl, hWell.populated, hJ.course, fun i hi => hWell.phase_eq_run hOut hi⟩,
    (Nat.zero_add (μ p.start)) ▸ hRounds⟩

theorem exists_course (hValid : p.Valid) : ∃ ending w, p.Concludes ending w := by
  obtain ⟨ending, w, h, -⟩ := exists_course_within hValid effort fun h _ => (fair_handler hValid).effort_lt h
  exact ⟨ending, w, h⟩

theorem Concludes.names {ending : Ending} (h : p.Concludes ending w) : ending.report.outcomes.map (·.name) = p.names := by
  rw [h.outcomes, List.map_map]
  exact List.map_id' p.names

/-- What is reported of an item is how its entity ended. -/
theorem Concludes.outcome_eq {ending : Ending} {name : String} (h : p.Concludes ending w) (hName : name ∈ p.names) :
    (outcome w name).phase = (w.pool.entity (p.index name)).phase ∧
      (outcome w name).err = (w.pool.entity (p.index name)).err := by
  simp only [outcome, show w.scheduler.pool = w.pool from rfl, lookup_eq h.valid h.populated hName, and_self]

theorem Concludes.outcome?_name {ending : Ending} {name : String} (h : p.Concludes ending w) (hName : name ∈ p.names) :
    ending.report.outcome? name = some (outcome w name) := by
  rw [Report.outcome?, h.outcomes, List.find?_map]
  have hFind : p.names.find? ((fun o : Outcome => o.name == name) ∘ outcome w) = some name := by
    have hSome : (p.names.find? ((fun o : Outcome => o.name == name) ∘ outcome w)).isSome :=
      List.find?_isSome.mpr ⟨name, hName, by simp [outcome]⟩
    obtain ⟨m, hm⟩ := Option.isSome_iff_exists.mp hSome
    have hEq : m = name := by simpa [outcome] using List.find?_some hm
    rw [hm, hEq]
  rw [hFind]
  rfl

end Plan

end Comptime
