import Comptime.Proofs.Schedule.Fair

/-!
# Every turn and every search makes progress, or changes nothing

`WellRun` is a world as it stands between two turns of fair handlers: the queues are tidy, and every entity that is neither
finished nor failed is queued (`Orderly`). A turn that moves nothing has only dropped edges that need not be waited for, and
left an entity that waits (`Fair.turn`). A search for cycles that finds none has changed nothing (`WellRun.search`).
-/

namespace Comptime

namespace Scheduler

variable {ν σ : Type} {handle : Handler ν σ} {nodes : List ν} {ok : σ → Prop} {w w' w'' : World ν σ} {p q : Phase}
  {id i n : Nat}
variable {hand pre rest : List Nat} {r : Except Failure Unit}

/-! ## Orderly queues -/

/-- The queues of a scheduler with `n` entities are tidy, and whoever can go on is queued. -/
structure Orderly (n : Nat) (w : World ν σ) : Prop extends Tidy w.scheduler where
  size : w.pool.size = n
  queued : ∀ {i}, i < n → (w.pool.entity i).failed = false → Queues.Attempts (w.pool.entity i).phase.succ →
    i ∈ w.queue (w.pool.entity i).phase.succ
  phase : ∀ {i}, i < n → 1 ≤ (w.pool.entity i).phase.rank ∧ (w.pool.entity i).phase.rank ≤ 5
  late : ∀ {i d}, d ∈ (w.pool.entity i).deps → d.phase ≤ .run

namespace Orderly

theorem lt (h : Orderly n w) (hi : i ∈ w.queue q) : i < n := h.size ▸ h.range hi

/-- An entity that has not failed waits for the phase after the one it has reached, if there is one. -/
theorem place (h : Orderly n w) (hi : i < n) (hLive : (w.pool.entity i).failed = false) (q : Phase) :
    i ∈ w.queue q ↔ q = (w.pool.entity i).phase.succ ∧ Queues.Attempts q := by
  constructor
  · intro hIn
    refine ⟨(h.member hIn).2.resolve_left (Bool.eq_false_iff.mp hLive), ?_⟩
    by_contra hq
    rw [World.queue_eq_nil w hq] at hIn
    cases hIn
  · rintro ⟨rfl, hq⟩
    exact h.queued hi hLive hq

/-- Errors and edges may change. -/
theorem eases (h : Orderly n w) (hEases : Eases w.scheduler w'.scheduler)
    (hLate : ∀ i, ∀ d ∈ (w'.pool.entity i).deps, d ∈ (w.pool.entity i).deps ∨ d.phase ≤ .run) : Orderly n w' where
  toTidy := h.toTidy.eases hEases
  size := hEases.size.trans h.size
  queued {i} hi hLive hq := by
    have hPhase : (w'.pool.entity i).phase = (w.pool.entity i).phase := hEases.phase i
    rw [hPhase] at hq ⊢
    have hIn := h.queued hi (hEases.live i hLive) hq
    rwa [World.queue, hEases.queues]
  phase {i} hi := by
    rw [show (w'.pool.entity i).phase = _ from hEases.phase i]
    exact h.phase hi
  late {i d} hd := (hLate i d hd).elim h.late id

variable (hp : Queues.Attempts p) (h : Orderly n (w.holding p (pre ++ id :: rest)))

include hp h

theorem lt_held : id < n := h.lt (World.mem_held hp pre rest)

/-- An entity whose turn comes has reached the phase before. -/
theorem phase_held (hLive : (w.pool.entity id).failed = false) : p = (w.pool.entity id).phase.succ :=
  (h.held hp).2.2 hLive

/-- A failed entity may leave the queues. -/
theorem remove (hFailed : (w.pool.entity id).failed = true) : Orderly n (w.holding p (pre ++ rest)) where
  __ := h
  toTidy := h.toTidy.remove hp
  queued {i} hi hLive hq := by
    refine World.mem_queue_keep hp ?_ (h.queued hi hLive hq)
    rintro rfl
    rw [World.pool_holding, hFailed] at hLive
    cases hLive

/-- An entity that succeeds goes to the end of the next queue. -/
theorem advance : Orderly n ((w.advanced p id).holding p (pre ++ rest)) := by
  have hSelf := World.entity_advanced_self (h.held hp).1 p
  have hOther {i : Nat} (hi : i ≠ id) := World.entity_advanced_ne (w := w) hi p
  refine ⟨h.toTidy.advance hp, (Pool.size_update ..).trans h.size, fun {i} hi hLive hq => ?_, fun {i} hi => ?_,
    fun {i d} hd => ?_⟩ <;> rw [World.pool_holding] at * <;> by_cases hEq : i = id
  · subst hEq
    rw [hSelf] at hq ⊢
    exact (World.mem_queue_holding _ hp).mpr (.inr ((World.mem_queue_advanced _).mpr (.inr ⟨rfl, rfl, hq⟩)))
  · rw [hOther hEq] at hLive hq ⊢
    have hIn := World.mem_queue_keep hp hEq (h.queued hi hLive hq)
    rw [World.mem_queue_holding _ hp] at hIn ⊢
    exact hIn.imp_right fun hIn => (World.mem_queue_advanced _).mpr (.inl hIn)
  · subst hEq
    rw [hSelf]
    exact ⟨le_trans (by decide) hp.1, hp.2⟩
  · rw [hOther hEq]
    exact h.phase hi
  · subst hEq
    rw [hSelf] at hd
    cases hd
  · rw [hOther hEq] at hd
    exact h.late hd

end Orderly

/-! ## Worlds of fair handlers -/

/-- A world as it stands between two turns of fair handlers. -/
structure WellRun (nodes : List ν) (ok : σ → Prop) (w : World ν σ) : Prop where
  order : Orderly nodes.length w
  populated : Populated nodes w
  own : ok w.own

theorem Populated.of_node (h : Populated nodes w) (hSize : w'.pool.size = w.pool.size)
    (hBooks : w'.pool.books = w.pool.books)
    (hNode : ∀ i, (w'.pool.entity i).node = (w.pool.entity i).node) : Populated nodes w' :=
  ⟨hSize.trans h.size, (congrArg Prod.snd hBooks).trans h.byNode, fun i => (hNode i).trans (h.node i)⟩

/-- Errors and edges may change. -/
theorem WellRun.eases (h : WellRun nodes ok w) (hEases : Eases w.scheduler w'.scheduler)
    (hLate : ∀ i, ∀ d ∈ (w'.pool.entity i).deps, d ∈ (w.pool.entity i).deps ∨ d.phase ≤ .run) (hOwn : ok w'.own) :
    WellRun nodes ok w' :=
  ⟨h.order.eases hEases hLate, h.populated.of_node hEases.size hEases.books hEases.node, hOwn⟩

theorem WellRun.settled (h : WellRun nodes ok (w.holding p hand)) : WellRun nodes ok ((w.settled id).holding p hand) :=
  h.eases ((Eases.settled w id).holding p hand) (fun i d hd => .inl ((Idle.settled w id).drops i d hd)) h.own

theorem WellRun.populated_settled (h : WellRun nodes ok (w.holding p hand)) (id : Nat) :
    Populated nodes (w.settled id) := by
  have hSettled : WellRun nodes ok ((w.settled id).holding p hand) := h.settled
  exact hSettled.populated.of_node rfl rfl fun _ => rfl

theorem WellRun.countRound (h : WellRun nodes ok w) : WellRun nodes ok w.countRound :=
  h.eases (.of_eq rfl rfl) (fun _ _ => .inl) h.own

/-- The world that an attempt leaves behind, before its answer is looked at. -/
theorem WellRun.attempted (h : WellRun nodes ok (w.holding p hand)) (hAtt : Attempted ok id w w' r) :
    WellRun nodes ok (w'.holding p hand) := by
  refine h.eases (hAtt.eases.holding p hand) (fun i d hd => ?_) hAtt.state
  by_cases hi : i = id
  · subst hi
    exact hAtt.late d hd
  · exact .inl (hAtt.other i hi ▸ hd)

/-- What happened used up effort, or nothing happened. -/
structure Advances (w w' : World ν σ) (moved : Bool) : Prop where
  effort : effort w' + moved.toNat ≤ effort w
  idle : moved = false → Idle w w'

theorem Advances.refl (w : World ν σ) : Advances w w false := ⟨le_rfl, fun _ => .refl w⟩

theorem Advances.trans {moved more : Bool} (h : Advances w w' moved) (h' : Advances w' w'' more) :
    Advances w w'' (moved || more) where
  effort := by
    have hLe := h.effort
    have hLe' := h'.effort
    cases moved <;> cases more <;> simp only [Bool.or_true, Bool.or_false, Bool.toNat_true, Bool.toNat_false] at * <;> omega
  idle hStill := by
    obtain ⟨hc, hc'⟩ := Bool.or_eq_false_iff.mp hStill
    exact (h.idle hc).trans (h'.idle hc')

/-! ## Turns -/

section Turns

variable (hFair : Fair handle nodes ok) (hp : Queues.Attempts p) (h : WellRun nodes ok (w.holding p (pre ++ id :: rest)))

include hFair hp h

/-- What an attempt in the turn of an entity leaves behind. -/
theorem Fair.attempted_held (hAns : Answers handle p id (w.settled id) r w') : Attempted ok id (w.settled id) w' r :=
  hFair.attempted (h.populated_settled id) h.own (h.order.lt_held hp) hAns

theorem Turn.wellRun {stays moved : Bool} (hTurn : Turn handle p id w stays moved w') :
    WellRun nodes ok (w'.holding p (pre ++ staying id stays ++ rest)) := by
  have hAnswered {r : Except Failure Unit} {w1 : World ν σ} (hAns : Answers handle p id (w.settled id) r w1) :
      WellRun nodes ok (w1.holding p (pre ++ id :: rest)) := h.settled.attempted (hFair.attempted_held hp h hAns)
  rw [append_staying]
  cases hTurn with
  | drop hFailed => exact ⟨h.order.remove hp hFailed, h.populated.of_node rfl rfl fun _ => rfl, h.own⟩
  | wait _ _ => exact h.settled
  | @advance w1 _ _ hAns =>
    have hMid := hAnswered hAns
    refine ⟨hMid.order.advance hp, hMid.populated.of_node (Pool.size_update ..) rfl fun i => ?_, hMid.own⟩
    rw [World.pool_holding, World.pool_holding, World.pool_advanced, Pool.entity_update]
    split <;> rfl
  | yield _ _ hAns _ => exact hAnswered hAns
  | @fail w1 f hLive _ hAns _ =>
    have hMid := hAnswered hAns
    have hLive1 : (w1.pool.entity id).failed = false :=
      ((hFair.attempted_held hp h hAns).failed id).trans (((Idle.settled w id).failed id).trans hLive)
    have hFailing : WellRun nodes ok ((w1.failing id f).holding p (pre ++ id :: rest)) := by
      refine hMid.eases ((Eases.failing w1 id f).holding p _) (fun i d hd => .inl ?_) hMid.own
      rw [World.pool_holding, World.entity_failing] at hd
      split at hd
      · rwa [Entity.setError_deps] at hd
      · exact hd
    exact ⟨hFailing.order.remove hp (World.failed_failing (hMid.order.held hp).1 hLive1 f),
      hFailing.populated.of_node rfl rfl fun _ => rfl, hMid.own⟩

/-- In a turn that moves nothing the entity is found waiting: one that yields has asked for something it had not
asked for. -/
theorem Turn.waits {stays moved : Bool} (hTurn : Turn handle p id w stays moved w') (hStill : moved = false) :
    stays = true ∧ w' = w.settled id ∧ (w.pool.entity id).failed = false ∧ (w.scheduler.settle id).2 = true := by
  cases hTurn with
  | drop _ | advance _ _ _ | fail _ _ _ _ => cases hStill
  | wait hLive hWaits => exact ⟨rfl, rfl, hLive, hWaits⟩
  | yield _ _ hAns hYield =>
    have hFresh := (hFair.attempted_held hp h hAns).fresh hYield
    simp [hFresh] at hStill

/-- **A turn under a fair handler.** Whatever it comes to is progress, or the entity was found waiting. -/
theorem Fair.turn : ∃ stays moved w', Turn handle p id w stays moved w' ∧
      WellRun nodes ok (w'.holding p (pre ++ staying id stays ++ rest)) ∧
      w'.scheduler.rounds = w.scheduler.rounds ∧
      Advances (w.holding p (pre ++ id :: rest)) (w'.holding p (pre ++ staying id stays ++ rest)) moved ∧
      (moved = false → stays = true ∧ Stuck w' id) := by
  obtain ⟨stays, moved, w', hTurn⟩ : ∃ stays moved w', Turn handle p id w stays moved w' := exists_turn fun _ _ =>
    hFair.exists_answers (h.populated_settled id) h.own (h.order.lt_held hp) p
  have hAmended {r : Except Failure Unit} {w1 : World ν σ} (hAns : Answers handle p id (w.settled id) r w1) :
      Amended id (w.settled id) w1 := (hFair.attempted_held hp h hAns).toAmended
  have hEffort : effort (w'.holding p (pre ++ staying id stays ++ rest)) + moved.toNat ≤
      effort (w.holding p (pre ++ id :: rest)) := hTurn.effort_le hp h.order.toTidy fun _ _ => hAmended
  refine ⟨stays, moved, w', hTurn, hTurn.wellRun hFair hp h, ?_, ⟨hEffort, fun hStill => ?_⟩, fun hStill => ?_⟩
  · cases hTurn with
    | drop _ | wait _ _ => rfl
    | advance _ _ hAns | yield _ _ hAns _ | fail _ _ hAns _ =>
      have hSame := congrArg Scheduler.rounds (hAmended hAns).scheduler
      exact hSame
  · obtain ⟨rfl, rfl, -⟩ := hTurn.waits hFair hp h hStill
    rw [append_staying]
    exact (Idle.settled w id).holding p _
  · obtain ⟨rfl, rfl, hLive, hWaits⟩ := hTurn.waits hFair hp h hStill
    exact ⟨rfl, stuck_settled hLive hWaits⟩

end Turns

/-! ## Searches -/

/-- **A search for cycles.** It fails entities, which is progress, or it changes nothing that matters. -/
theorem WellRun.search (h : WellRun nodes ok w) (p : Phase) :
    WellRun nodes ok (w.searched p) ∧ Advances w (w.searched p) ((w.pool.detectCycles (w.queue p)).failed != 0) := by
  have hTidy := h.order.toTidy
  refine ⟨h.eases (hTidy.eases_searched p) (fun i d hd => .inl (hTidy.deps_searched p i ▸ hd)) h.own,
    hTidy.effort_searched p, fun hNone => hTidy.idle_searched ?_⟩
  simpa using hNone

end Scheduler

end Comptime
