import Comptime.Proofs.Schedule.Turn

/-!
# The worlds between turns

While a phase is given its turns its queue has been taken away; `World.holding` puts it back, so that what a run keeps can
be stated between any two turns. This module says what the steps of a run do to the queues and to the entities. `Eases` is
what the steps have in common that move no entity: edges and errors change, and no error goes away. `Idle` is what a step
comes to after which nothing can happen that could not before.
-/

namespace Comptime

open List

namespace Scheduler

variable {ν σ : Type} {handle : Handler ν σ} {s s' : Scheduler ν} {w w' w'' : World ν σ} {p q : Phase} {id i : Nat}
variable {hand pre rest : List Nat}

/-- The entity, if it stays in its queue. -/
def staying (id : Nat) (stays : Bool) : List Nat := if stays then [id] else []

theorem append_staying (id : Nat) (stays : Bool) (pre rest : List Nat) :
    pre ++ staying id stays ++ rest = pre ++ if stays then id :: rest else rest := by
  cases stays <;> simp [staying]

namespace World

/-- The world with a queue put back in front of what was queued meanwhile. -/
def holding (w : World ν σ) (p : Phase) (hand : List Nat) : World ν σ := w.setQueue p (hand ++ w.queue p)

theorem mem_all_iff : i ∈ w.scheduler.queues.all ↔ ∃ q, i ∈ w.queue q := Queues.mem_all_iff

variable (w)

@[simp] theorem pool_setPool (pool : Pool ν) : (w.setPool pool).pool = pool := rfl

theorem queue_setQueue (p q : Phase) (l : List Nat) :
    (w.setQueue p l).queue q = if p = q ∧ Queues.Attempts p then l else w.queue q := Queues.get_set ..

@[simp] theorem pool_holding (p : Phase) (hand : List Nat) : (w.holding p hand).pool = w.pool := rfl

theorem queue_holding (hp : Queues.Attempts p) (q : Phase) (hand : List Nat) :
    (w.holding p hand).queue q = if p = q then hand ++ w.queue q else w.queue q := by
  rw [holding, queue_setQueue]
  by_cases h : p = q
  · subst h
    simp [hp]
  · simp [h]

/-- Taking a queue away and holding it is no change. -/
theorem holding_queue (hp : Queues.Attempts p) : (w.setQueue p []).holding p (w.queue p) = w := by
  simp only [holding, setQueue, queue, Queues.set_set, Queues.get_set, hp, and_self, if_true, append_nil, Queues.set_get]

theorem queue_eq_nil (hq : ¬ Queues.Attempts q) : w.queue q = [] :=
  Queues.get_of_not_attempts _ hq

@[simp] theorem pool_searched (p : Phase) :
    (w.searched p).pool = (w.pool.detectCycles (w.queue p)).pool := rfl

@[simp] theorem pool_advanced (p : Phase) (id : Nat) :
    (w.advanced p id).pool = w.pool.update id fun e => { e with phase := p, deps := [] } := rfl

/-- What is left of the edges of an entity that drops those it need not wait for. -/
theorem entity_settled (id j : Nat) :
    (w.settled id).pool.entity j = if id = j ∧ j < w.pool.size then
      { w.pool.entity j with deps := (w.pool.entity j).deps.filter fun d =>
          !(w.pool.satisfied d || (w.pool.entity d.target).failed) }
    else w.pool.entity j := by
  show (Pool.update _ id _).entity j = _
  rw [Pool.entity_update]
  by_cases h : id = j
  · subst h
    rfl
  · simp [h, pool]

/-! ## The queues as one list -/

/-- A queue that is held is queued together with the rest. -/
theorem all_holding (hp : Queues.Attempts p) (hand : List Nat) :
    (w.holding p hand).scheduler.queues.all.Perm (hand ++ w.scheduler.queues.all) := by
  rw [perm_iff_count]
  intro i
  obtain ⟨h2, h5⟩ := hp
  have hRank : p.rank = 2 ∨ p.rank = 3 ∨ p.rank = 4 ∨ p.rank = 5 := by omega
  simp only [holding, setQueue, queue, Queues.set_eq, Queues.get_eq, Queues.all]
  rcases hRank with h | h | h | h <;> simp [h, count_append] <;> omega

/-- An entity that succeeds is queued once more, if there is a phase after this one. -/
theorem all_advanced (p : Phase) (id : Nat) :
    (w.advanced p id).scheduler.queues.all.Perm
      (if Queues.Attempts p.succ then id :: w.scheduler.queues.all else w.scheduler.queues.all) := by
  by_cases hp : Queues.Attempts p.succ
  · rw [if_pos hp, perm_iff_count]
    intro i
    have hRank := hp
    unfold Queues.Attempts at hRank
    have hCases : p.succ.rank = 2 ∨ p.succ.rank = 3 ∨ p.succ.rank = 4 ∨ p.succ.rank = 5 := by omega
    simp only [advanced, setQueue, setPool, queue, Queues.set_eq, Queues.get_eq, Queues.all]
    rcases hCases with h | h | h | h <;> simp [h, count_append, count_cons] <;> omega
  · rw [if_neg hp]
    unfold Queues.Attempts at hp
    simp only [advanced, setQueue, setPool, queue, Queues.set_eq]
    rw [if_neg (by omega), if_neg (by omega), if_neg (by omega), if_neg (by omega)]

theorem mem_queue_holding (hp : Queues.Attempts p) :
    i ∈ (w.holding p hand).queue q ↔ (p = q ∧ i ∈ hand) ∨ i ∈ w.queue q := by
  rw [queue_holding w hp]
  by_cases hpq : p = q <;> simp [hpq]

theorem mem_queue_advanced :
    i ∈ (w.advanced p id).queue q ↔ i ∈ w.queue q ∨ (i = id ∧ q = p.succ ∧ Queues.Attempts q) := by
  rw [show (w.advanced p id).queue q = if p.succ = q ∧ Queues.Attempts p.succ then w.queue p.succ ++ [id] else w.queue q
    from queue_setQueue ..]
  by_cases hq : p.succ = q
  · subst hq
    by_cases hp : Queues.Attempts p.succ <;> simp [hp]
  · simp [hq, Ne.symm hq]

variable {w}

/-- An entity whose turn comes is queued beside the others. -/
theorem nodup_held (hp : Queues.Attempts p) (h : (w.holding p (pre ++ id :: rest)).scheduler.queues.all.Nodup) :
    (id :: (pre ++ rest ++ w.scheduler.queues.all)).Nodup := by
  have hHeld := (w.all_holding hp _).nodup_iff.mp h
  rwa [append_assoc, cons_append, nodup_middle, ← append_assoc] at hHeld

theorem mem_held (hp : Queues.Attempts p) (pre rest : List Nat) : id ∈ (w.holding p (pre ++ id :: rest)).queue p :=
  (w.mem_queue_holding hp).mpr (.inl ⟨rfl, by simp⟩)

/-- Who leaves a queue leaves the others where they are. -/
theorem mem_queue_remove (hp : Queues.Attempts p) (h : i ∈ (w.holding p (pre ++ rest)).queue q) :
    i ∈ (w.holding p (pre ++ id :: rest)).queue q := by
  rw [mem_queue_holding _ hp] at h ⊢
  refine h.imp_left fun ⟨hpq, hi⟩ => ⟨hpq, ?_⟩
  simp only [mem_append, mem_cons] at hi ⊢
  tauto

theorem mem_queue_keep (hp : Queues.Attempts p) (hi : i ≠ id) (h : i ∈ (w.holding p (pre ++ id :: rest)).queue q) :
    i ∈ (w.holding p (pre ++ rest)).queue q := by
  rw [mem_queue_holding _ hp] at h ⊢
  refine h.imp_left fun ⟨hpq, hi⟩ => ⟨hpq, ?_⟩
  simp only [mem_append, mem_cons] at hi ⊢
  tauto

/-! ## What steps do to entities -/

theorem entity_advanced_self (h : id < w.pool.size) (p : Phase) :
    (w.advanced p id).pool.entity id = { w.pool.entity id with phase := p, deps := [] } := Pool.entity_update_self h _

theorem entity_advanced_ne (h : i ≠ id) (p : Phase) : (w.advanced p id).pool.entity i = w.pool.entity i :=
  Pool.entity_update_ne (Ne.symm h) _

theorem entity_failing (w : World ν σ) (id : Nat) (f : Failure) (j : Nat) :
    (w.failing id f).pool.entity j = if id = j ∧ j < w.pool.size then
      (w.pool.entity j).setError (if f.isCause .dependency then .dependency else .semantic) f
    else w.pool.entity j := Pool.entity_update ..

theorem failed_failing (hId : id < w.pool.size) (hLive : (w.pool.entity id).failed = false) (f : Failure) :
    ((w.failing id f).pool.entity id).failed = true := by
  rw [entity_failing, if_pos ⟨rfl, hId⟩, Entity.setError_of_not_failed hLive, Entity.failed_iff]
  dsimp only
  split <;> decide

end World

/-! ## Steps that move no entity -/

/-- Edges and errors have changed, no error has gone away, and edges lead to entities. -/
structure Eases (s s' : Scheduler ν) : Prop where
  queues : s'.queues = s.queues
  size : s'.pool.size = s.pool.size
  books : s'.pool.books = s.pool.books
  node : ∀ i, (s'.pool.entity i).node = (s.pool.entity i).node
  phase : ∀ i, (s'.pool.entity i).phase = (s.pool.entity i).phase
  failed : ∀ i, (s.pool.entity i).failed = true → (s'.pool.entity i).failed = true
  edges : ∀ i, ∀ d ∈ (s'.pool.entity i).deps, d ∈ (s.pool.entity i).deps ∨ d.target < s.pool.size

namespace Eases

theorem live (h : Eases s s') (i : Nat) (hi : (s'.pool.entity i).failed = false) : (s.pool.entity i).failed = false := by
  rw [Bool.eq_false_iff] at hi ⊢
  exact fun hc => hi (h.failed i hc)

theorem holding (h : Eases w.scheduler w'.scheduler) (p : Phase) (hand : List Nat) :
    Eases (w.holding p hand).scheduler (w'.holding p hand).scheduler where
  __ := h
  queues := by simp only [World.holding, World.setQueue, World.queue, h.queues]

/-- The pool and the queues are the same. -/
theorem of_eq (hQueues : s'.queues = s.queues) (hPool : s'.pool = s.pool) : Eases s s' where
  queues := hQueues
  size := by rw [hPool]
  books := by rw [hPool]
  node _ := by rw [hPool]
  phase _ := by rw [hPool]
  failed _ h := by rwa [hPool]
  edges _ _ h := .inl (by rwa [hPool] at h)

/-- An entity drops edges, or is given an error. -/
theorem update (s : Scheduler ν) (id : Nat) {f : Entity ν → Entity ν}
    (hNode : (f (s.pool.entity id)).node = (s.pool.entity id).node)
    (hPhase : (f (s.pool.entity id)).phase = (s.pool.entity id).phase)
    (hDeps : (f (s.pool.entity id)).deps ⊆ (s.pool.entity id).deps)
    (hFailed : (s.pool.entity id).failed = true → (f (s.pool.entity id)).failed = true) :
    Eases s { s with pool := s.pool.update id f } := by
  have hEntity (i : Nat) : (s.pool.update id f).entity i = s.pool.entity i ∨
      i = id ∧ (s.pool.update id f).entity id = f (s.pool.entity id) := by
    rw [Pool.entity_update]
    split
    · rename_i h
      exact .inr ⟨h.1.symm, Pool.entity_update_self (h.1 ▸ h.2) f⟩
    · exact .inl rfl
  refine ⟨rfl, Pool.size_update .., rfl, fun i => ?_, fun i => ?_, fun i hi => ?_, fun i d hd => .inl ?_⟩ <;>
    dsimp only at * <;> rcases hEntity i with hEq | ⟨rfl, hEq⟩
  · rw [hEq]
  · rw [hEq, hNode]
  · rw [hEq]
  · rw [hEq, hPhase]
  · rwa [hEq]
  · rw [hEq]
    exact hFailed hi
  · rwa [hEq] at hd
  · rw [hEq] at hd
    exact hDeps hd

theorem setError (s : Scheduler ν) (id : Nat) (kind : ErrorKind) (cause : Failure) :
    Eases s { s with pool := s.pool.update id (·.setError kind cause) } := by
  refine update s id (Entity.setError_node ..) (Entity.setError_phase ..) ?_ fun h => ?_
  · rw [Entity.setError_deps]
    exact Subset.refl _
  · rwa [Entity.setError_of_failed h]

theorem settled (w : World ν σ) (id : Nat) : Eases w.scheduler (w.settled id).scheduler :=
  update w.scheduler id rfl rfl (filter_subset_self _) fun h => h

theorem failing (w : World ν σ) (id : Nat) (f : Failure) : Eases w.scheduler (w.failing id f).scheduler :=
  setError w.scheduler id _ f

end Eases

/-- The entity waits for another that may still get there. -/
def Stuck (w : World ν σ) (id : Nat) : Prop :=
  (w.pool.entity id).failed = false ∧
    ∃ d ∈ (w.pool.entity id).deps, w.pool.satisfied d = false ∧ (w.pool.entity d.target).failed = false

/-- Nothing but edges that need not be waited for has changed. -/
structure Idle (w w' : World ν σ) : Prop where
  queue : ∀ q, w'.queue q = w.queue q
  phase : ∀ i, (w'.pool.entity i).phase = (w.pool.entity i).phase
  failed : ∀ i, (w'.pool.entity i).failed = (w.pool.entity i).failed
  drops : ∀ i d, d ∈ (w'.pool.entity i).deps → d ∈ (w.pool.entity i).deps
  keeps : ∀ i d, d ∈ (w.pool.entity i).deps → w.pool.satisfied d = false →
    (w.pool.entity d.target).failed = false → d ∈ (w'.pool.entity i).deps

namespace Idle

theorem refl (w : World ν σ) : Idle w w :=
  ⟨fun _ => rfl, fun _ => rfl, fun _ => rfl, fun _ _ => id, fun _ _ h _ _ => h⟩

theorem satisfied (h : Idle w w') (d : Dep) : w'.pool.satisfied d = w.pool.satisfied d :=
  Pool.satisfied_congr (h.phase d.target)

theorem trans (h : Idle w w') (h' : Idle w' w'') : Idle w w'' where
  queue q := (h'.queue q).trans (h.queue q)
  phase i := (h'.phase i).trans (h.phase i)
  failed i := (h'.failed i).trans (h.failed i)
  drops i d hd := h.drops i d (h'.drops i d hd)
  keeps i d hd hUnsat hLive :=
    h'.keeps i d (h.keeps i d hd hUnsat hLive) ((h.satisfied d).trans hUnsat) ((h.failed d.target).trans hLive)

theorem stuck (h : Idle w w') (hStuck : Stuck w id) : Stuck w' id := by
  obtain ⟨hLive, d, hd, hUnsat, hTarget⟩ := hStuck
  exact ⟨(h.failed id).trans hLive, d, h.keeps id d hd hUnsat hTarget, (h.satisfied d).trans hUnsat,
    (h.failed d.target).trans hTarget⟩

theorem holding (h : Idle w w') (p : Phase) (hand : List Nat) : Idle (w.holding p hand) (w'.holding p hand) where
  __ := h
  queue q := by
    simp only [World.holding, World.queue_setQueue, h.queue]

/-- The wait-for graph has not changed. -/
theorem waits (h : Idle w w') {u v : Nat} (hWaits : w'.pool.Waits u v) : w.pool.Waits u v := by
  obtain ⟨hu, hv, d, hd, rfl, hUnsat⟩ := hWaits
  exact ⟨(h.failed u) ▸ hu, (h.failed _) ▸ hv, d, h.drops u d hd, rfl, (h.satisfied d) ▸ hUnsat⟩

end Idle

/-! ## Dropping edges -/

theorem Idle.settled (w : World ν σ) (id : Nat) : Idle w (w.settled id) where
  queue _ := rfl
  phase i := by
    rw [World.entity_settled]
    split <;> rfl
  failed i := by
    rw [World.entity_settled]
    split <;> rfl
  drops i d hd := by
    rw [World.entity_settled] at hd
    split at hd
    · exact mem_of_mem_filter hd
    · exact hd
  keeps i d hd hUnsat hLive := by
    rw [World.entity_settled]
    split
    · exact mem_filter.mpr ⟨hd, by simp [hUnsat, hLive]⟩
    · exact hd

/-- An entity that is found waiting has an edge to wait for. -/
theorem stuck_settled (hLive : (w.pool.entity id).failed = false)
    (hWaits : (w.scheduler.settle id).2 = true) : Stuck (w.settled id) id := by
  have hIdle := Idle.settled w id
  have hNe : (w.pool.entity id).deps.filter
      (fun d => !(w.pool.satisfied d || (w.pool.entity d.target).failed)) ≠ [] := by
    simpa [Scheduler.settle, World.pool] using hWaits
  obtain ⟨d, hd⟩ := exists_mem_of_ne_nil _ hNe
  obtain ⟨hIn, hPending⟩ := mem_filter.mp hd
  rw [Bool.not_eq_true', Bool.or_eq_false_iff] at hPending
  refine hIdle.stuck ⟨hLive, d, hIn, hPending.1, hPending.2⟩

/-- An entity that is not found waiting has no edges left. -/
theorem deps_settled (hId : id < w.pool.size) (hWaits : (w.scheduler.settle id).2 = false) :
    ((w.settled id).pool.entity id).deps = [] := by
  rw [World.entity_settled, if_pos ⟨rfl, hId⟩]
  simpa [Scheduler.settle, World.pool] using hWaits

end Scheduler

end Comptime
