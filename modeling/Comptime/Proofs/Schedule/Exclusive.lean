import Comptime.Proofs.Schedule.Traversal
import Comptime.Proofs.Schedule.Requirements
import Mathlib

/-!
# Nothing is queued twice

`Exclusive` is what the queues are to be: an entity is queued once at most, and what is queued is in use and attempts the
phase after the one it has reached, unless it has failed. `History` is any use of a scheduler: registering, releasing,
marking and running with handlers that act by requirements only.

Main statement: `exclusive_of_history`, the queues are exclusive as long as nothing is released that is queued. A failed
entity stays in its queue until its next turn; if it is released meanwhile its index may be queued again.
-/

namespace Comptime

open List

namespace Scheduler

variable {ν σ : Type} {handle : Handler ν σ} {s s' : Scheduler ν} {w w' : World ν σ} {p : Phase} {id : Nat}
variable {pre rest : List Nat} {i : Nat}

/-! ## Exclusive queues -/

/-- Nothing is queued twice, and what is queued is in use and has failed or attempts the phase after the one it has
reached. -/
structure Exclusive (s : Scheduler ν) : Prop where
  once : s.queues.all.Nodup
  member : ∀ {p id}, id ∈ s.queues.get p → (s.pool.entity id).node.isSome = true ∧
    ((s.pool.entity id).failed = true ∨ p = (s.pool.entity id).phase.succ)

/-- The queues are exclusive, edges lead to entities, and the free indexes are those of no entity. -/
structure Tidy (s : Scheduler ν) : Prop extends Exclusive s where
  edges : ∀ {i d}, d ∈ (s.pool.entity i).deps → d.target < s.pool.size
  free : s.pool.Recycles

namespace Tidy

theorem range (h : Tidy s) (hi : i ∈ s.queues.get p) : i < s.pool.size := by
  by_contra hge
  have hSome := (h.member hi).1
  rw [Pool.entity_of_size_le (Nat.le_of_not_lt hge)] at hSome
  cases hSome

/-- Errors and edges may change. -/
theorem eases (h : Tidy s) (hEases : Eases s s') : Tidy s' where
  once := hEases.queues ▸ h.once
  member {q i} hi := by
    rw [hEases.queues] at hi
    obtain ⟨hSome, hPlace⟩ := h.member hi
    rw [hEases.node, hEases.phase]
    exact ⟨hSome, hPlace.imp_left (hEases.failed i)⟩
  edges {i d} hd := hEases.size ▸ (hEases.edges i d hd).elim (fun hOld => h.edges hOld) id
  free := h.free.of_eq hEases.size (congrArg Prod.fst hEases.books) hEases.node

theorem deps_searched (h : Tidy w.scheduler) (p : Phase) (i : Nat) :
    ((w.searched p).pool.entity i).deps = (w.pool.entity i).deps :=
  ((Pool.detectCycles_spec (fun _ _ hd => h.edges hd) (w.queue p)).2.2.1 i).2.2

/-- A search fails entities where they are. -/
theorem eases_searched (h : Tidy w.scheduler) (p : Phase) : Eases w.scheduler (w.searched p).scheduler := by
  have hRange : ∀ i, ∀ d ∈ (w.pool.entity i).deps, d.target < w.pool.size := fun i d hd => h.edges hd
  obtain ⟨-, -, hKept, hSize, -⟩ := Pool.detectCycles_spec hRange (w.queue p)
  refine ⟨rfl, hSize, (Pool.detectCycles_sound hRange (w.queue p)).1.books, fun i => (hKept i).1,
    fun i => (hKept i).2.1, fun i hi => ?_, fun i d hd => .inl (h.deps_searched p i ▸ hd)⟩
  exact (congrArg Entity.failed (Pool.entity_detectCycles_of_failed hRange (w.queue p) hi)).trans hi

variable (hp : Queues.Attempts p) (h : Tidy (w.holding p (pre ++ id :: rest)).scheduler)

include hp h

/-- An entity may leave the queues. -/
theorem remove : Tidy (w.holding p (pre ++ rest)).scheduler where
  once := by
    rw [(w.all_holding hp _).nodup_iff]
    exact (nodup_cons.mp (World.nodup_held hp h.once)).2
  member {q j} hj := h.member (p := q) (World.mem_queue_remove hp hj)
  edges := h.edges
  free := h.free

/-- An entity whose turn comes is there, is queued nowhere else, and has failed or reached the phase before. -/
theorem held : id < w.pool.size ∧ id ∉ pre ++ rest ++ w.scheduler.queues.all ∧
      ((w.pool.entity id).failed = false → p = (w.pool.entity id).phase.succ) := by
  have hHeld : id ∈ (w.holding p (pre ++ id :: rest)).queue p := World.mem_held hp pre rest
  refine ⟨h.range hHeld, (nodup_cons.mp (World.nodup_held hp h.once)).1, fun hLive => ?_⟩
  refine (h.member hHeld).2.resolve_left fun hFailed => ?_
  rw [show ((w.holding p (pre ++ id :: rest)).scheduler.pool.entity id).failed = _ from hLive] at hFailed
  cases hFailed

/-- An entity that succeeds goes to the next queue. -/
theorem advance : Tidy ((w.advanced p id).holding p (pre ++ rest)).scheduler := by
  have hOnce := World.nodup_held hp h.once
  obtain ⟨hId, hNot, -⟩ := h.held hp
  have hSelf : (w.advanced p id).pool.entity id = _ := World.entity_advanced_self hId p
  have hOther {j : Nat} (hj : j ≠ id) : (w.advanced p id).pool.entity j = w.pool.entity j := World.entity_advanced_ne hj p
  have hNode (j : Nat) : ((w.advanced p id).pool.entity j).node = (w.pool.entity j).node := by
    by_cases hj : j = id
    · rw [hj, hSelf]
    · rw [hOther hj]
  have hSize : (w.advanced p id).pool.size = w.pool.size := Pool.size_update ..
  refine ⟨⟨?_, fun {q j} hj => ?_⟩, fun {j d} hd => ?_, h.free.of_eq hSize rfl hNode⟩
  · rw [((w.advanced p id).all_holding hp _).nodup_iff, ((w.all_advanced p id).append_left (pre ++ rest)).nodup_iff]
    split
    · exact nodup_middle.mpr hOnce
    · exact (nodup_cons.mp hOnce).2
  · change ((w.advanced p id).pool.entity j).node.isSome = true ∧ (((w.advanced p id).pool.entity j).failed = true ∨
      q = ((w.advanced p id).pool.entity j).phase.succ)
    rw [← World.queue, World.mem_queue_holding _ hp, World.mem_queue_advanced] at hj
    by_cases hEq : j = id
    · -- it is queued nowhere but behind the next phase
      subst hEq
      rw [mem_append, World.mem_all_iff, not_or, not_exists] at hNot
      rw [hSelf]
      refine ⟨(h.member (World.mem_held hp pre rest)).1, .inr ?_⟩
      rcases hj with ⟨-, hj⟩ | hj | ⟨-, hj, -⟩
      · exact absurd hj hNot.1
      · exact absurd hj (hNot.2 q)
      · exact hj
    · rw [hOther hEq]
      refine h.member (p := q) (World.mem_queue_remove hp ((World.mem_queue_holding _ hp).mpr ?_))
      rcases hj with hj | hj | ⟨hj, -⟩
      · exact .inl hj
      · exact .inr hj
      · exact absurd hj hEq
  · rw [show ((w.advanced p id).holding p (pre ++ rest)).scheduler.pool.size = w.pool.size from hSize]
    change d ∈ ((w.advanced p id).pool.entity j).deps at hd
    by_cases hj : j = id
    · rw [hj, hSelf] at hd
      cases hd
    · rw [hOther hj] at hd
      exact h.edges hd

/-- The turn of an entity, whatever comes of it, leaves the queues tidy. -/
theorem turn {stays moved : Bool} (hAsks : Asking handle p id (w.settled id)) (hTurn : Turn handle p id w stays moved w') :
    Tidy (w'.holding p (pre ++ staying id stays ++ rest)).scheduler := by
  have hSettled : Tidy ((w.settled id).holding p (pre ++ id :: rest)).scheduler :=
    h.eases ((Eases.settled w id).holding p _)
  have hAnswered {r : Except Failure Unit} {w1 : World ν σ} (hAns : Answers handle p id (w.settled id) r w1) :
      Tidy (w1.holding p (pre ++ id :: rest)).scheduler := hSettled.eases ((hAsks _ _ hAns).eases.holding p _)
  rw [append_staying]
  cases hTurn with
  | drop _ => exact h.remove hp
  | wait _ _ => exact hSettled
  | advance _ _ hAns => exact (hAnswered hAns).advance hp
  | yield _ _ hAns _ => exact hAnswered hAns
  | @fail w1 f _ _ hAns _ => exact ((hAnswered hAns).remove hp).eases ((Eases.failing w1 id f).holding p _)

end Tidy

theorem carries_tidy (hAsks : OnlyAsks handle) : Carries handle (fun _ w => Tidy w.scheduler) fun _ => True where
  turn hp h hTurn := h.turn hp (hAsks.asking _ _ _) hTurn
  broken _ _ _ := trivial
  search p h := h.eases (h.eases_searched p)
  count h := h.eases (.of_eq rfl rfl)

/-- A run leaves the queues tidy. -/
theorem Tidy.run (hAsks : OnlyAsks handle) (h : Tidy w.scheduler) {r : Except Failure Unit}
    (hRun : Scheduler.run handle w = .ok r w') : Tidy w'.scheduler := by
  unfold Scheduler.run at hRun
  cases hRounds : repeatRounds handle w with
  | none =>
    rw [hRounds] at hRun
    cases hRun
    exact h
  | some q =>
    rw [hRounds] at hRun
    dsimp only at hRun
    subst hRun
    obtain ⟨-, hTidy⟩ := (carries_tidy hAsks).finally (fun h => h) hRounds h
    exact hTidy

/-! ## Histories -/

section Uses

variable [BEq ν] [ToString ν]

/-- What can be done with a scheduler, one thing after the other. Entities are released only where `may` allows it. -/
inductive History (may : Scheduler ν → Nat → Prop) : Scheduler ν → Prop where
  | start : History may {}
  | setHandler {s s' : Scheduler ν} {p : Phase} : History may s → s.setHandler p = .ok s' → History may s'
  | register {s s' : Scheduler ν} {n : ν} {id : Nat} : History may s → s.register n = .ok (s', id) → History may s'
  | release {s : Scheduler ν} {pool : Pool ν} {i : Nat} : History may s → may s i → s.pool.release i = .ok pool →
      History may { s with pool }
  | setError {s : Scheduler ν} {pool : Pool ν} {id : Int} {kind : ErrorKind} {cause : Failure} : History may s →
      s.pool.setError id kind cause = .ok pool → History may { s with pool }
  | run {σ : Type} {s : Scheduler ν} {own : σ} {handle : Handler ν σ} {r : Except Failure Unit} {w : World ν σ} :
      History may s → OnlyAsks handle → Scheduler.run handle ⟨s, own⟩ = .ok r w → History may w.scheduler

omit [BEq ν] [ToString ν] in
theorem Queues.mem_get_typeChecked {q : Queues} {j : Nat} :
    j ∈ ({ q with typeChecked := q.typeChecked ++ [i] } : Queues).get p ↔ j ∈ q.get p ∨ p = .typeChecked ∧ j = i := by
  have hRank : p = .typeChecked ↔ p.rank = 2 := ⟨fun h => h ▸ rfl, Phase.ext_rank⟩
  simp only [Queues.get_eq, hRank]
  by_cases hp : p.rank = 2 <;> simp [hp]

/-- The index that an entity gets is queued nowhere else. -/
theorem Tidy.register (h : Tidy s) {n : ν} (hReg : s.register n = .ok (s', i)) : Tidy s' := by
  unfold Scheduler.register at hReg
  cases hAdd : s.pool.add n with
  | error a =>
    rw [hAdd] at hReg
    cases hReg
  | ok x =>
    obtain ⟨pool, k⟩ := x
    rw [hAdd] at hReg
    cases hReg
    obtain ⟨hFree, hAdded⟩ := h.free.add hAdd
    -- an index in a queue is in use, and this one was free
    have hNot (q : Phase) : i ∉ s.queues.get q := by
      intro hi
      have hSome := (h.member hi).1
      rw [hAdded.vacant] at hSome
      cases hSome
    refine ⟨⟨?_, fun {q j} hj => ?_⟩, fun {j d} hd => ?_, hFree⟩
    · have hOnce : (i :: s.queues.all).Nodup := by
        refine nodup_cons.mpr ⟨fun hi => ?_, h.once⟩
        obtain ⟨q, hq⟩ := Queues.mem_all_iff.mp hi
        exact hNot q hq
      refine (Perm.nodup_iff ?_).mpr hOnce
      rw [perm_iff_count]
      intro j
      simp only [Queues.all, count_append, count_cons, count_nil]
      omega
    · change (pool.entity j).node.isSome = true ∧ ((pool.entity j).failed = true ∨ q = (pool.entity j).phase.succ)
      rcases Queues.mem_get_typeChecked.mp hj with hOld | ⟨rfl, rfl⟩
      · rw [hAdded.other j fun hEq => hNot q (hEq ▸ hOld)]
        exact h.member hOld
      · rw [hAdded.fresh]
        exact ⟨rfl, .inr rfl⟩
    · refine (hAdded.size _).mpr (.inl ?_)
      change d ∈ (pool.entity j).deps at hd
      by_cases hEq : j = i
      · rw [hEq, hAdded.fresh] at hd
        cases hd
      · rw [hAdded.other j hEq] at hd
        exact h.edges hd

omit [ToString ν] in
/-- An entity that is not queued may be released. -/
theorem Tidy.release (h : Tidy s) {i : Nat} (hNot : i ∉ s.queues.all) {pool : Pool ν}
    (hRelease : s.pool.release i = .ok pool) : Tidy { s with pool } := by
  obtain ⟨k, n, hk, hFree, hReleased⟩ := h.free.release hRelease
  obtain rfl : i = k := by omega
  refine ⟨⟨h.once, fun {q j} hj => ?_⟩, fun {j d} hd => ?_, hFree⟩
  · have hEntity := hReleased.other j fun hEq => hNot (Queues.mem_all_iff.mpr ⟨q, hEq ▸ hj⟩)
    change (pool.entity j).node.isSome = true ∧ _
    rw [hEntity]
    exact hEntity ▸ h.member hj
  · change d.target < pool.size
    change d ∈ (pool.entity j).deps at hd
    rw [hReleased.size]
    by_cases hEq : j = i
    · rw [hEq, hReleased.vacant] at hd
      cases hd
    · rw [hReleased.other j hEq] at hd
      exact h.edges hd

omit [BEq ν] [ToString ν] in
/-- Entities may be marked at any time. -/
theorem Tidy.setError (h : Tidy s) {id : Int} {kind : ErrorKind} {cause : Failure} {pool : Pool ν}
    (hMark : s.pool.setError id kind cause = .ok pool) : Tidy { s with pool } := by
  unfold Pool.setError Pool.modify at hMark
  cases hPosition : s.pool.position id with
  | error a =>
    rw [hPosition] at hMark
    cases hMark
  | ok i =>
    rw [hPosition] at hMark
    cases hMark
    exact h.eases (.setError s i kind cause)

omit [BEq ν] [ToString ν] in
theorem Tidy.setHandler (h : Tidy s) (hSet : s.setHandler p = .ok s') : Tidy s' := by
  unfold Scheduler.setHandler at hSet
  split at hSet
  · cases hSet
    exact h.eases (.of_eq rfl rfl)
  · cases hSet

omit [BEq ν] [ToString ν] in
theorem Tidy.empty : Tidy ({} : Scheduler ν) where
  once := nodup_nil
  member {p _} hi := by
    have hNil : ({} : Queues).get p = [] := by
      rw [Queues.get_eq]
      simp
    rw [hNil] at hi
    cases hi
  edges {i _} hd := by
    rw [Pool.entity_of_size_le (Nat.zero_le i)] at hd
    cases hd
  free := ⟨⟨nofun, fun h => absurd h.1 (Nat.not_lt_zero _)⟩, .nil⟩

/-- The entities that are not queued. -/
def Unqueued (s : Scheduler ν) (i : Nat) : Prop := i ∉ s.queues.all

omit [BEq ν] [ToString ν] in
instance (s : Scheduler ν) (i : Nat) : Decidable (s.Unqueued i) := inferInstanceAs (Decidable (i ∉ s.queues.all))

theorem History.tidy (h : History Unqueued s) : Tidy s := by
  induction h with
  | start => exact Tidy.empty
  | setHandler _ hSet ih => exact ih.setHandler hSet
  | register _ hReg ih => exact ih.register hReg
  | release _ hNot hRelease ih => exact ih.release hNot hRelease
  | setError _ hMark ih => exact ih.setError hMark
  | run _ hAsks hRun ih => exact Tidy.run (w := ⟨_, _⟩) hAsks ih hRun

/--
**Nothing is queued twice.** Whatever is done with a scheduler, whatever handlers it runs with that act by requirements
only, and whatever indexes are used again: as long as nothing is released that is queued, an index is queued once at most,
and what is queued is an entity that is in use and has failed or attempts the phase after the one it has reached.
-/
theorem exclusive_of_history (h : History Unqueued s) : s.Exclusive := h.tidy.toExclusive

end Uses

/-- A handler with nothing to do. -/
def idleHandler : Handler String Unit := fun _ _ => pure (.ok ())

theorem onlyAsks_idleHandler : OnlyAsks idleHandler := fun _ _ w => ⟨w.pool, rfl, .none _⟩

/-- One entity is registered, and nothing has happened yet. -/
def alone : Scheduler String where
  pool := { entities := #[.fresh "first"], byNode := [("first", 0)] }
  queues := { typeChecked := [0] }

theorem register_alone : ({} : Scheduler String).register "first" = .ok (alone, 0) := by cbv

/-- An entity has run to the end and been released, and its index is that of another one. -/
def recycled : Scheduler String where
  pool := { entities := #[.fresh "second"], byNode := [("second", 0)] }
  queues := { typeChecked := [0] }
  rounds := 1

/-- The entity has gone through the phases. -/
def finished : World String Unit :=
  ⟨{ pool := { entities := #[{ Entity.fresh "first" with phase := .run }], byNode := [("first", 0)] }, rounds := 1 }, ()⟩

theorem run_alone : Scheduler.run idleHandler ⟨alone, ()⟩ = .ok (.ok ()) finished := by
  have hRound : round idleHandler ⟨alone, ()⟩ = .ok none finished := by cbv
  have hLast : round idleHandler finished = .ok (some (.ok ())) finished := by cbv
  rw [Scheduler.run, repeatRounds_eq, hRound]
  dsimp only
  rw [repeatRounds_eq, hLast]

theorem exclusive_of_history_recycled : History Unqueued recycled ∧ recycled.Exclusive := by
  have hFinished : History Unqueued finished.scheduler :=
    .run (.register .start register_alone) onlyAsks_idleHandler run_alone
  have hReleased : History Unqueued { finished.scheduler with pool := { entities := #[.vacant], free := [0] } } :=
    .release (s := finished.scheduler) (i := 0) hFinished (by decide) (by cbv)
  have hRegister : ({ finished.scheduler with pool := { entities := #[.vacant], free := [0] } } : Scheduler String).register
      "second" = .ok (recycled, 0) := by cbv
  have hHistory : History Unqueued recycled := .register hReleased hRegister
  exact ⟨hHistory, exclusive_of_history hHistory⟩

/-- An entity fails and is released before its next turn: its index is queued again, for the entity that gets it. -/
theorem doubly_queued : ∃ s : Scheduler String, History (fun _ _ => True) s ∧ s.queues.typeChecked = [0, 0] ∧
    ¬ s.Exclusive := by
  let wrong : Pool String :=
    { alone.pool with entities := #[{ Entity.fresh "first" with err := .semantic, cause := some (.plain "wrong") }] }
  let released : Scheduler String := { alone with pool := { entities := #[.vacant], free := [0] } }
  let twice : Scheduler String := { pool := recycled.pool, queues := { typeChecked := [0, 0] } }
  have hMark : alone.pool.setError 0 .semantic (.plain "wrong") = .ok wrong := rfl
  have hRelease : wrong.release 0 = .ok released.pool := by cbv
  have hRegister : released.register "second" = .ok (twice, 0) := by cbv
  have hFailed : History (fun _ _ => True) { alone with pool := wrong } := .setError (.register .start register_alone) hMark
  have hReleased : History (fun _ _ => True) released :=
    .release (s := { alone with pool := wrong }) (i := 0) hFailed trivial hRelease
  exact ⟨twice, .register hReleased hRegister, rfl, fun hExclusive => absurd hExclusive.once (by decide)⟩

end Scheduler

end Comptime
