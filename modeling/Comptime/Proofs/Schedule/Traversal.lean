import Comptime.Proofs.Schedule.Order

/-!
# What a run carries along

A run is made of turns, searches and the counting of rounds, and it may be broken off in the middle of a turn. `Carries` is
what these keep, for any handler. The property may depend on whether anything has moved, so that it can say what a move
uses up: `Carries.repeatRounds` is then also how runs are shown to end.
-/

namespace Comptime

namespace Scheduler

variable {ν σ : Type} {handle : Handler ν σ} {J : Bool → World ν σ → Prop} {K : World ν σ → Prop}
  {w w' : World ν σ} {p : Phase} {id : Nat}

/-! ## A turn that is broken off -/

/-- The handler is called in the turn of the entity, and the call is broken off. -/
structure BreaksOff (handle : Handler ν σ) (p : Phase) (id : Nat) (w : World ν σ) (a : Abort) (w' : World ν σ) :
    Prop where
  live : (w.pool.entity id).failed = false
  ready : (w.scheduler.settle id).2 = false
  handled : p ∈ w.scheduler.handled
  call : handle p id (w.settled id) = .error a w'

theorem turn_or_breaksOff (handle : Handler ν σ) (p : Phase) (id : Nat) (w : World ν σ) :
    (∃ stays moved w', Turn handle p id w stays moved w') ∨ ∃ a w', BreaksOff handle p id w a w' := by
  by_cases hBroken : ∃ a w', BreaksOff handle p id w a w'
  · exact .inr hBroken
  · refine .inl (exists_turn fun hLive hReady => ?_)
    unfold Answers
    by_cases hHandled : p ∈ (w.settled id).scheduler.handled
    · simp only [hHandled, if_true]
      cases hCall : handle p id (w.settled id) with
      | ok r w' => exact ⟨r, w', rfl⟩
      | error a w' => exact absurd ⟨a, w', hLive, hReady, hHandled, hCall⟩ hBroken
    · exact ⟨.ok (), w.settled id, by simp [hHandled]⟩

theorem turns_cons_breaksOff {rest : List Nat} {a : Abort} (h : BreaksOff handle p id w a w') :
    turns handle p (id :: rest) w = .error a w' := by
  obtain ⟨hLive, hReady, hHandled, hCall⟩ := h
  change (w.scheduler.pool.entity id).failed = false at hLive
  have hCall' : handle p id { scheduler := (w.scheduler.settle id).1, own := w.own } = .error a w' := hCall
  have hHandled' : p ∈ (w.scheduler.settle id).1.handled := hHandled
  rw [turns]
  simp only [bind_apply, scheduler_apply, hLive, Bool.false_eq_true, if_false, modifyScheduler_apply, hReady, attempt,
    hHandled', if_true, hCall']

/-! ## Turns, phases and rounds -/

/-- What turns, searches and the count of the rounds keep, given whether anything has moved, and what a turn leaves behind
that is broken off. -/
structure Carries (handle : Handler ν σ) (J : Bool → World ν σ → Prop) (K : World ν σ → Prop) : Prop where
  turn : ∀ {b p pre id rest w stays moved w'}, Queues.Attempts p → J b (w.holding p (pre ++ id :: rest)) →
    Turn handle p id w stays moved w' → J (b || moved) (w'.holding p (pre ++ staying id stays ++ rest))
  broken : ∀ {b p pre id rest w a w'}, Queues.Attempts p → J b (w.holding p (pre ++ id :: rest)) →
    BreaksOff handle p id w a w' → K w'
  search : ∀ {b w} (p), J b w → J (b || (w.pool.detectCycles (w.queue p)).failed != 0) (w.searched p)
  count : ∀ {b w}, J b w → J b w.countRound

/-- What a computation that tells whether anything has moved comes to. -/
def Leaves (J : Bool → World ν σ → Prop) (K : World ν σ → Prop) (b : Bool) :
    EStateM.Result Abort (World ν σ) Bool → Prop
  | .ok moved w => J (b || moved) w
  | .error _ w => K w

theorem Carries.turns (h : Carries handle J K) (hp : Queues.Attempts p) :
    ∀ (l pre : List Nat) (b : Bool) (w : World ν σ), J b (w.holding p (pre ++ l)) →
      (∃ kept moved w', turns handle p l w = .ok (kept, moved) w' ∧ J (b || moved) (w'.holding p (pre ++ kept))) ∨
        ∃ a w', turns handle p l w = .error a w' ∧ K w' := by
  intro l
  induction l with
  | nil =>
    intro pre b w hJ
    exact .inl ⟨[], false, w, rfl, by rwa [Bool.or_false]⟩
  | cons id rest ih =>
    intro pre b w hJ
    rcases turn_or_breaksOff handle p id w with ⟨stays, moved, w1, hTurn⟩ | ⟨a, w1, hBroken⟩
    · rcases ih (pre ++ staying id stays) (b || moved) w1 (h.turn hp hJ hTurn) with
        ⟨kept, more, w2, hRest, hJ2⟩ | ⟨a, w2, hRest, hK⟩
      · rw [append_staying, Bool.or_assoc] at hJ2
        exact .inl ⟨_, _, w2, by rw [turns_cons hTurn, hRest], hJ2⟩
      · exact .inr ⟨a, w2, by rw [turns_cons hTurn, hRest], hK⟩
    · exact .inr ⟨a, w1, turns_cons_breaksOff hBroken, h.broken hp hJ hBroken⟩

theorem Carries.runPhase (h : Carries handle J K) (hp : Queues.Attempts p) {b : Bool} (hJ : J b w) :
    Leaves J K b (runPhase handle p w) := by
  rw [runPhase_eq]
  have hStart : J b ((w.setQueue p []).holding p ([] ++ w.queue p)) := by
    rw [List.nil_append, World.holding_queue w hp]
    exact hJ
  rcases h.turns hp (w.queue p) [] b _ hStart with ⟨kept, moved, w', hTurns, hJ'⟩ | ⟨a, w', hTurns, hK⟩
  · rw [hTurns]
    exact hJ'
  · rw [hTurns]
    exact hK

theorem Carries.phases (h : Carries handle J K) :
    ∀ (ps : List Phase) (b : Bool) (w : World ν σ), (∀ p ∈ ps, Queues.Attempts p) → J b w →
      Leaves J K b (phases handle ps w) := by
  intro ps
  induction ps with
  | nil =>
    intro b w _ hJ
    show J (b || false) w
    rwa [Bool.or_false]
  | cons p rest ih =>
    intro b w hps hJ
    have hp := hps p (List.mem_cons_self ..)
    have hRest : ∀ q ∈ rest, Queues.Attempts q := fun q hq => hps q (List.mem_cons_of_mem _ hq)
    rw [phases_cons]
    by_cases hEmpty : w.queue p = []
    · rw [if_pos hEmpty]
      exact ih b w hRest hJ
    · rw [if_neg hEmpty]
      have hPhase := h.runPhase hp (h.search p hJ)
      cases hRun : Scheduler.runPhase handle p (w.searched p) with
      | error a w' =>
        rw [hRun] at hPhase
        exact hPhase
      | ok moved w' =>
        rw [hRun] at hPhase
        have hOn := ih _ w' hRest hPhase
        dsimp only
        cases hMore : Scheduler.phases handle rest w' with
        | error a w'' =>
          rw [hMore] at hOn
          exact hOn
        | ok more w'' =>
          rw [hMore] at hOn
          simpa only [Leaves, Bool.or_assoc] using hOn

/-- What a run that has ended leaves. -/
def Finally (J : Bool → World ν σ → Prop) (K : World ν σ → Prop) {α : Type} : EStateM.Result Abort (World ν σ) α → Prop
  | .ok _ w => ∃ b, J b w
  | .error _ w => K w

/-- A round ends the run, or something has moved in it. -/
theorem Carries.round (h : Carries handle J K) (hJ : J false w) :
    (∃ w', round handle w = .ok none w' ∧ J true w') ∨
      ((∀ w', round handle w ≠ .ok none w') ∧ Finally J K (round handle w)) := by
  rw [round_eq]
  by_cases hOut : w.scheduler.outstanding = 0
  · rw [if_pos hOut]
    exact .inr ⟨nofun, false, hJ⟩
  · rw [if_neg hOut]
    have hPhases := h.phases Phase.handled false w.countRound (fun p hp => Queues.mem_handled_iff.mp hp) (h.count hJ)
    cases hRun : Scheduler.phases handle Phase.handled w.countRound with
    | error a w' =>
      rw [hRun] at hPhases
      exact .inr ⟨nofun, hPhases⟩
    | ok moved w' =>
      rw [hRun] at hPhases
      cases moved with
      | true => exact .inl ⟨w', rfl, hPhases⟩
      | false => exact .inr ⟨nofun, false, hPhases⟩

/-- A run that has ended leaves what its turns and searches keep. -/
theorem Carries.finally (h : Carries handle J K) (hAgain : ∀ {w}, J true w → J false w)
    {r : EStateM.Result Abort (World ν σ) (Except Failure Unit)} (hRun : repeatRounds handle w = some r)
    (hJ : J false w) : Finally J K r := by
  refine repeatRounds_induction (P := fun w r => J false w → Finally J K r) ?_ ?_ ?_ hRun hJ <;> clear hRun hJ
  · intro w w' r hRound ih hJ
    rcases h.round hJ with ⟨w1, hNext, hJ'⟩ | ⟨hLast, -⟩
    · cases hRound.symm.trans hNext
      exact ih (hAgain hJ')
    · exact absurd hRound (hLast w')
  all_goals
    intro w w' x hRound hJ
    rcases h.round hJ with ⟨w1, hNext, -⟩ | ⟨-, hEnd⟩
    · cases hRound.symm.trans hNext
    · rw [hRound] at hEnd
      exact hEnd

/-- Runs end if every move uses something up. -/
theorem exists_repeatRounds {J : Nat → Bool → World ν σ → Prop} {K : World ν σ → Prop}
    (h : ∀ n, Carries handle (J n) K) (hNext : ∀ {n w}, J n true w → ∃ m < n, J m false w) :
    ∀ (n : Nat) (w : World ν σ), J n false w → ∃ r, repeatRounds handle w = some r := by
  intro n
  induction n using Nat.strong_induction_on with
  | _ n ih =>
    intro w hJ
    rw [repeatRounds_eq]
    rcases (h n).round hJ with ⟨w', hRound, hJ'⟩ | ⟨hLast, -⟩
    · obtain ⟨m, hm, hJm⟩ := hNext hJ'
      rw [hRound]
      exact ih m hm w' hJm
    · cases hEq : Scheduler.round handle w with
      | error a w' => exact ⟨_, rfl⟩
      | ok o w' =>
        cases o with
        | none => exact absurd hEq (hLast w')
        | some a => exact ⟨_, rfl⟩

end Scheduler

end Comptime
