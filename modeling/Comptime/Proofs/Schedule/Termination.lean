import Comptime.Proofs.Schedule.Progress

/-!
# Runs of fair handlers end

A round that is not the last one uses up effort (`WellRun.round`): otherwise every queued entity would wait for another
one that is queued, so that the wait-for graph would have a cycle, and the search that is made from every queue would
have found it. So a run ends with nothing outstanding (`Fair.repeatRounds`), and along the way it keeps whatever its turns
and its searches keep (`Keeps`).
-/

namespace Comptime

open List Queues

namespace Scheduler

variable {ν σ : Type} {handle : Handler ν σ} {nodes : List ν} {ok : σ → Prop} {J : World ν σ → Prop}
  {w w' w'' : World ν σ} {p : Phase} {id : Nat}

/-- What every turn, every search and the count of the rounds keep. -/
structure Keeps (handle : Handler ν σ) (nodes : List ν) (ok : σ → Prop) (J : World ν σ → Prop) : Prop where
  turn : ∀ {p pre id rest w stays moved w'}, Attempts p → WellRun nodes ok (w.holding p (pre ++ id :: rest)) →
    J (w.holding p (pre ++ id :: rest)) → Turn handle p id w stays moved w' →
    J (w'.holding p (pre ++ staying id stays ++ rest))
  search : ∀ {w} (p), WellRun nodes ok w → J w → J (w.searched p)
  count : ∀ {w}, J w → J w.countRound

theorem Keeps.trivial : Keeps handle nodes ok fun _ => True :=
  ⟨fun _ _ _ _ => True.intro, fun _ _ _ => True.intro, fun _ => True.intro⟩

/-! ## The turns of a queue, and the phases of a round -/

section Turns

variable (hFair : Fair handle nodes ok) (hKeeps : Keeps handle nodes ok J)

include hFair hKeeps

theorem Fair.turns (hp : Attempts p) :
    ∀ (l pre : List Nat) (w : World ν σ), WellRun nodes ok (w.holding p (pre ++ l)) → J (w.holding p (pre ++ l)) →
      ∃ kept moved w', turns handle p l w = .ok (kept, moved) w' ∧ WellRun nodes ok (w'.holding p (pre ++ kept)) ∧
        J (w'.holding p (pre ++ kept)) ∧ w'.scheduler.rounds = w.scheduler.rounds ∧
        Advances (w.holding p (pre ++ l)) (w'.holding p (pre ++ kept)) moved ∧
        (moved = false → kept = l ∧ ∀ id ∈ l, Stuck w' id) := by
  intro l
  induction l with
  | nil =>
    intro pre w h hJ
    exact ⟨[], false, w, rfl, h, hJ, rfl, Advances.refl _, fun _ => ⟨rfl, by simp⟩⟩
  | cons id rest ih =>
    intro pre w h hJ
    obtain ⟨stays, moved, w1, hTurn, hWell1, hRounds1, hAdv1, hStill1⟩ := hFair.turn hp h
    have hJ1 := hKeeps.turn hp h hJ hTurn
    obtain ⟨kept, more, w2, hRest, hWell2, hJ2, hRounds2, hAdv2, hStill2⟩ :=
      ih (pre ++ staying id stays) w1 hWell1 hJ1
    rw [append_staying id stays pre kept] at hWell2 hJ2 hAdv2
    refine ⟨_, moved || more, w2, ?_, hWell2, hJ2, hRounds2.trans hRounds1, hAdv1.trans hAdv2, fun hStill => ?_⟩
    · rw [turns_cons hTurn, hRest]
    · obtain ⟨hc, hc'⟩ := Bool.or_eq_false_iff.mp hStill
      obtain ⟨rfl, hStuck⟩ := hStill1 hc
      obtain ⟨rfl, hStuck'⟩ := hStill2 hc'
      refine ⟨rfl, fun j hj => ?_⟩
      rcases mem_cons.mp hj with rfl | hj
      · -- nothing has happened since it was found waiting
        have hIdle := hAdv2.idle hc'
        have hHeld : Stuck (w1.holding p (pre ++ staying j true ++ kept)) j := hStuck
        exact hIdle.stuck hHeld
      · exact hStuck' j hj

theorem Fair.runPhase (hp : Attempts p) (h : WellRun nodes ok w) (hJ : J w) :
    ∃ moved w', runPhase handle p w = .ok moved w' ∧ WellRun nodes ok w' ∧ J w' ∧
      w'.scheduler.rounds = w.scheduler.rounds ∧ Advances w w' moved ∧
      (moved = false → ∀ id ∈ w'.queue p, Stuck w' id) := by
  have hWorld : (w.setQueue p []).holding p ([] ++ w.queue p) = w := by rw [nil_append, World.holding_queue w hp]
  obtain ⟨kept, moved, w', hTurns, hWell, hJ', hRounds, hAdv, hStill⟩ :=
    hFair.turns hKeeps hp (w.queue p) [] (w.setQueue p []) (hWorld.symm ▸ h) (hWorld.symm ▸ hJ)
  rw [hWorld] at hAdv
  rw [nil_append] at hWell hJ' hAdv
  refine ⟨moved, w'.holding p kept, ?_, hWell, hJ', hRounds, hAdv, fun hc => ?_⟩
  · rw [runPhase_eq, hTurns]
    rfl
  · obtain ⟨rfl, hStuck⟩ := hStill hc
    intro id hIn
    rw [(hAdv.idle hc).queue p] at hIn
    exact hStuck id hIn

/-- Goes over phases: if nothing moved, whatever is queued for them waits, and searches from their queues found nothing. -/
theorem Fair.phases : ∀ (ps : List Phase) (w : World ν σ), (∀ p ∈ ps, Attempts p) → WellRun nodes ok w → J w →
      ∃ moved w', phases handle ps w = .ok moved w' ∧ WellRun nodes ok w' ∧ J w' ∧
        w'.scheduler.rounds = w.scheduler.rounds ∧ Advances w w' moved ∧
        (moved = false → ∀ p ∈ ps, ∀ id ∈ w'.queue p, Stuck w' id ∧
          ∃ x, WellRun nodes ok x ∧ Idle x (x.searched p) ∧ Idle x w') := by
  intro ps
  induction ps with
  | nil =>
    intro w _ h hJ
    exact ⟨false, w, rfl, h, hJ, rfl, Advances.refl w, fun _ p hp => by cases hp⟩
  | cons p rest ih =>
    intro w hps h hJ
    have hp := hps p (mem_cons_self ..)
    have hRest : ∀ q ∈ rest, Attempts q := fun q hq => hps q (mem_cons_of_mem _ hq)
    rw [phases_cons]
    by_cases hEmpty : w.queue p = []
    · obtain ⟨moved, w', hRun, hWell, hJ', hRounds, hAdv, hStill⟩ := ih w hRest h hJ
      refine ⟨moved, w', by rw [if_pos hEmpty, hRun], hWell, hJ', hRounds, hAdv, fun hc q hq id hIn => ?_⟩
      -- nothing is queued for the first phase, and nothing has been added since
      rcases mem_cons.mp hq with rfl | hq
      · rw [(hAdv.idle hc).queue q, hEmpty] at hIn
        cases hIn
      · exact hStill hc q hq id hIn
    · obtain ⟨hWell1, hAdv1⟩ := h.search p
      obtain ⟨moved, w2, hRun, hWell2, hJ2, hRounds2, hAdv2, hStill2⟩ :=
        hFair.runPhase hKeeps hp hWell1 (hKeeps.search p h hJ)
      obtain ⟨more, w', hMore, hWell', hJ', hRounds', hAdv', hStill'⟩ := ih w2 hRest hWell2 hJ2
      refine ⟨_, w', by simp only [hEmpty, if_false, hRun, hMore], hWell', hJ', hRounds'.trans hRounds2,
        (hAdv1.trans hAdv2).trans hAdv', fun hc q hq id hIn => ?_⟩
      obtain ⟨hc1, hc'⟩ := Bool.or_eq_false_iff.mp hc
      obtain ⟨hc1, hc2⟩ := Bool.or_eq_false_iff.mp hc1
      rcases mem_cons.mp hq with rfl | hq
      · have hIdle' := hAdv'.idle hc'
        rw [hIdle'.queue q] at hIn
        exact ⟨hIdle'.stuck (hStill2 hc2 id hIn), w, h, hAdv1.idle hc1,
          ((hAdv1.idle hc1).trans (hAdv2.idle hc2)).trans hIdle'⟩
      · exact hStill' hc' q hq id hIn

end Turns

/-! ## Rounds -/

/-- **No deadlock.** If all that is queued waits, the queued entities wait for each other in a circle. -/
theorem WellRun.exists_onCycle (h : WellRun nodes ok w) (hStuck : ∀ q, ∀ id ∈ w.queue q, Stuck w id) {v : Nat}
    {q : Phase} (hv : v ∈ w.queue q) : ∃ u, Relation.ReflTransGen w.pool.Waits v u ∧ w.pool.OnCycle u := by
  refine exists_circle_of_stuck (S := fun v => ∃ q, v ∈ w.queue q) (n := nodes.length) ?_ ?_ ⟨q, hv⟩
  · rintro u ⟨q, hu⟩
    exact h.order.lt hu
  · rintro u ⟨q, hu⟩
    obtain ⟨hLive, d, hd, hUnsat, hTarget⟩ := hStuck q u hu
    have hRange : d.target < nodes.length := h.order.size ▸ h.order.edges hd
    have hLate : d.phase.rank ≤ 5 := h.order.late hd
    -- the target has not got to the last phase, so that it is queued as well
    have hBelow := Pool.not_satisfied_iff.mp hUnsat
    have hLow := (h.order.phase hRange).1
    have hQueued := (h.order.place hRange hTarget (w.pool.entity d.target).phase.succ).mpr
      ⟨rfl, by simp only [Phase.succ]; omega, by simp only [Phase.succ]; omega⟩
    exact ⟨d.target, ⟨_, hQueued⟩, hLive, hTarget, d, hd, rfl, hUnsat⟩

/-- A round with something outstanding moves something. -/
theorem WellRun.moves {moved : Bool} (hOut : w.scheduler.outstanding ≠ 0)
    (h : WellRun nodes ok w') (hAdv : Advances w w' moved)
    (hStill : moved = false → ∀ p ∈ Phase.handled, ∀ id ∈ w'.queue p, Stuck w' id ∧
      ∃ x, WellRun nodes ok x ∧ Idle x (x.searched p) ∧ Idle x w') : moved = true := by
  by_contra hNot
  rw [Bool.not_eq_true] at hNot
  have hIdle := hAdv.idle hNot
  have hAttempts : ∀ q, ∀ id ∈ w'.queue q, q ∈ Phase.handled := by
    intro q id hIn
    rw [mem_handled_iff]
    by_contra hq
    rw [World.queue_eq_nil w' hq] at hIn
    cases hIn
  obtain ⟨v, hIn, -⟩ := countP_pos_iff.mp (Nat.pos_of_ne_zero hOut)
  obtain ⟨q, hv⟩ := World.mem_all_iff.mp hIn
  rw [← hIdle.queue q] at hv
  have hStuck : ∀ q, ∀ id ∈ w'.queue q, Stuck w' id := fun q id hIn =>
    (hStill hNot q (hAttempts q id hIn) id hIn).1
  obtain ⟨u, hReach, hCycle⟩ := h.exists_onCycle hStuck hv
  -- the cycle was there when the search was made from the queue of `v`
  obtain ⟨⟨hLive, d, hd, -⟩, x, hWell, hSearched, hLater⟩ := hStill hNot q (hAttempts q v hv) v hv
  have hReach' : x.pool.Reaches v u := Relation.ReflTransGen.mono (fun _ _ => hLater.waits) _ _ hReach
  have hCycle' : x.pool.OnCycle u := Relation.TransGen.mono (fun _ _ => hLater.waits) _ _ hCycle
  have hLive' : (x.pool.entity v).failed = false := (hLater.failed v) ▸ hLive
  have hRange : ∀ i, ∀ d ∈ (x.pool.entity i).deps, d.target < x.pool.size := fun i d hd => hWell.order.edges hd
  have hSought : x.pool.Sought (x.queue q) u :=
    ⟨v, (hLater.queue q) ▸ hv, hLive', ne_nil_of_mem (hLater.drops v d hd), hReach'⟩
  have hErr := (Pool.detectCycles_spec hRange (x.queue q)).1 u hSought
  rw [Pool.fate_of_onCycle hCycle'] at hErr
  have hFailed : ((x.searched q).pool.entity u).failed = true := by
    rw [Entity.failed_iff, World.pool_searched, hErr]
    decide
  rw [hSearched.failed u, Pool.not_failed_of_reaches hLive' hReach'] at hFailed
  cases hFailed

/-- **A round.** The run ends with nothing outstanding, or the round uses up effort. -/
theorem Fair.round (hFair : Fair handle nodes ok) (hKeeps : Keeps handle nodes ok J) (h : WellRun nodes ok w)
    (hJ : J w) :
    (w.scheduler.outstanding = 0 ∧ round handle w = .ok (some w.scheduler.verdict) w) ∨
      ∃ w', round handle w = .ok none w' ∧ WellRun nodes ok w' ∧ J w' ∧
        w'.scheduler.rounds = w.scheduler.rounds + 1 ∧ effort w' < effort w := by
  rw [round_eq]
  by_cases hOut : w.scheduler.outstanding = 0
  · left
    exact ⟨hOut, if_pos hOut⟩
  · right
    obtain ⟨moved, w', hRun, hWell, hJ', hRounds, hAdv, hStill⟩ := hFair.phases hKeeps Phase.handled w.countRound
      (fun p hp => mem_handled_iff.mp hp) h.countRound (hKeeps.count hJ)
    have hMoved := hWell.moves (w := w.countRound) hOut hAdv hStill
    subst hMoved
    refine ⟨w', ?_, hWell, hJ', hRounds, hAdv.effort⟩
    simp only [hOut, if_false, hRun]

/-- **A run.** It ends, with nothing outstanding. If every round but the last uses up some of `μ`, there are no more rounds
than there is of it. -/
theorem Fair.repeatRounds (hFair : Fair handle nodes ok) (hKeeps : Keeps handle nodes ok J) (μ : World ν σ → Nat)
    (hμ : ∀ {w w'}, WellRun nodes ok w → J w → Scheduler.round handle w = .ok none w' → μ w' < μ w) :
    ∀ (n : Nat) (w : World ν σ), μ w ≤ n → WellRun nodes ok w → J w →
      ∃ w', repeatRounds handle w = some (.ok w'.scheduler.verdict w') ∧ WellRun nodes ok w' ∧ J w' ∧
        w'.scheduler.outstanding = 0 ∧ w'.scheduler.rounds ≤ w.scheduler.rounds + n := by
  intro n
  induction n with
  | zero =>
    intro w hLe h hJ
    rcases hFair.round hKeeps h hJ with ⟨hOut, hRound⟩ | ⟨w', hRound, -⟩
    · exact ⟨w, by rw [repeatRounds_eq, hRound], h, hJ, hOut, Nat.le_refl _⟩
    · have := hμ h hJ hRound
      omega
  | succ n ih =>
    intro w hLe h hJ
    rcases hFair.round hKeeps h hJ with ⟨hOut, hRound⟩ | ⟨w', hRound, hWell, hJ', hRounds, -⟩
    · exact ⟨w, by rw [repeatRounds_eq, hRound], h, hJ, hOut, Nat.le_add_right _ _⟩
    · have := hμ h hJ hRound
      obtain ⟨w'', hRun, hWell'', hJ'', hOut, hRounds''⟩ := ih w' (by omega) hWell hJ'
      exact ⟨w'', by simp only [repeatRounds_eq w, hRound, hRun], hWell'', hJ'', hOut, by omega⟩

/-- Every round but the last uses up effort. -/
theorem Fair.effort_lt (hFair : Fair handle nodes ok) (h : WellRun nodes ok w)
    (hRound : Scheduler.round handle w = .ok none w') :
    effort w' < effort w := by
  rcases hFair.round Keeps.trivial h trivial with ⟨-, hLast⟩ | ⟨w1, hNext, -, -, -, hLt⟩
  · cases hLast.symm.trans hRound
  · cases hNext.symm.trans hRound
    exact hLt

end Scheduler

end Comptime
