import Comptime.Proofs.Schedule.Ending

/-!
# Fair handlers

A fair handler acts on the scheduler only by requiring that entities reach phases, and yields only if one of its
requirements was to be waited for. `Requires` is any number of requirements made by one entity; `Attempted` says what a fair
attempt leaves behind: edges to be waited for have been added to its entity, at least one if it yields.
-/

namespace Comptime

namespace Pool

variable {ν : Type} {p p' p'' : Pool ν} {me : Nat} {y y' : Bool}

/-- Requirements made by an entity, one after the other. Was any of them to be waited for? -/
inductive Requires (me : Nat) : Pool ν → Bool → Pool ν → Prop where
  | none (p : Pool ν) : Requires me p false p
  | more {p p' p'' : Pool ν} {y : Bool} {target : Nat} {phase : Phase} {r : Except Failure Unit} :
      Requires me p y p' → target < p'.size → phase ≤ .run → p'.require me target phase = .ok (p'', r) →
      Requires me p (y || Failure.yields r) p''

theorem Requires.asks (h : Requires me p y p') : Asks me p p' := by
  induction h with
  | none => exact .none _
  | more _ _ _ hReq ih => exact .more ih hReq

/-- The edges for requirements are for phases that can be reached, and there are some if there is anything to wait for. -/
theorem Requires.edges (h : Requires me p y p') :
    (∀ d ∈ (p'.entity me).deps, d ∈ (p.entity me).deps ∨ d.phase ≤ .run) ∧ (y = true → (p'.entity me).deps ≠ []) := by
  induction h with
  | none => exact ⟨fun _ => .inl, nofun⟩
  | more _ _ hPhase hReq ih =>
    rcases require_eq_ok hReq with ⟨rfl, hYields⟩ | ⟨t, -, hMe, rfl⟩
    · rwa [hYields, Bool.or_false]
    · rw [entity_update_self hMe]
      refine ⟨fun d hd => ?_, fun _ => Entity.need_deps_ne_nil _ _⟩
      rcases Entity.mem_need hd with hOld | rfl
      · exact ih.1 d hOld
      · exact .inr hPhase

theorem Requires.trans (h : Requires me p y p') (h' : Requires me p' y' p'') : Requires me p (y || y') p'' := by
  induction h' with
  | none => simpa using h
  | more _ hTarget hPhase hReq ih =>
    rw [← Bool.or_assoc]
    exact .more ih hTarget hPhase hReq

/-- One requirement. -/
theorem Requires.one {target : Nat} {phase : Phase} {r : Except Failure Unit} (hTarget : target < p.size)
    (hPhase : phase ≤ .run) (h : p.require me target phase = .ok (p', r)) : Requires me p (Failure.yields r) p' := by
  simpa using Requires.more (.none p) hTarget hPhase h

end Pool

namespace Scheduler

variable {ν σ : Type} {handle : Handler ν σ} {nodes : List ν} {ok : σ → Prop}

theorem require_apply {id target : Nat} {q : Phase} {w : World ν σ} {pool : Pool ν} {r : Except Failure Unit}
    (h : w.pool.require id target q = .ok (pool, r)) : Act.require id target q w = .ok r (w.setPool pool) := by
  have hSame : w.scheduler.pool.require (id : Int) (target : Int) q = .ok (pool, r) := h
  unfold Act.require Act.change
  simp only [bind_apply, scheduler_apply, hSame]
  rfl

theorem require_refused {id target : Nat} {q : Phase} {w : World ν σ} {a : Abort}
    (h : w.pool.require id target q = .error a) :
    Act.require id target q w = .error a w := by
  have hSame : w.scheduler.pool.require (id : Int) (target : Int) q = .error a := h
  unfold Act.require Act.change
  simp only [bind_apply, scheduler_apply, hSame]
  rfl

/-- The entities of the world stand for the nodes, in order. -/
structure Populated (nodes : List ν) (w : World ν σ) : Prop where
  size : w.pool.size = nodes.length
  byNode : w.pool.byNode = nodes.zipIdx.reverse
  node : ∀ i, (w.pool.entity i).node = nodes[i]?

namespace Populated

variable {nodes : List ν} {w : World ν σ} {n : ν} {i : Nat}

/-- A node leads to its own entity, if it is listed once. -/
theorem lookup [DecidableEq ν] (h : Populated nodes w) (hOnce : nodes.Nodup) (hAt : nodes[i]? = some n) :
    w.pool.lookup n = some i := by
  have hMem : (n, i) ∈ nodes.zipIdx.reverse := by
    rw [List.mem_reverse, List.mem_zipIdx_iff_getElem?]
    exact hAt
  obtain ⟨front, back, hSplit⟩ := List.append_of_mem hMem
  have hKeys : (nodes.zipIdx.reverse.map Prod.fst).Nodup := by
    rwa [List.map_reverse, List.zipIdx_map_fst, List.nodup_reverse]
  rw [hSplit, List.map_append, List.map_cons, List.nodup_middle, List.nodup_cons] at hKeys
  rw [Pool.lookup, h.byNode, hSplit, List.lookup_eq_some_iff]
  refine ⟨front, back, rfl, fun x hx => ?_⟩
  have hKey : x.1 ∈ front.map Prod.fst := List.mem_map_of_mem hx
  have hNe : n ≠ x.1 := fun hEq => hKeys.1 (List.mem_append_left _ (hEq ▸ hKey))
  simpa using hNe

end Populated

/-- An attempt that ended acted by requirements only, and yields only if one of them was to be waited for. -/
def Disciplined (handle : Handler ν σ) (p : Phase) (id : Nat) (w : World ν σ) : Prop :=
  ∀ r w', handle p id w = .ok r w' →
    ∃ pool yielded, w'.scheduler = { w.scheduler with pool } ∧ Pool.Requires id w.pool yielded pool ∧
      (Failure.yields r = true → yielded = true)

/-- The handler gives an answer and is disciplined whenever its own state is one it may be in, which it then is again. -/
structure Fair (handle : Handler ν σ) (nodes : List ν) (ok : σ → Prop) : Prop where
  returns : ∀ p id w, Populated nodes w → ok w.own → id < nodes.length →
    ∃ r w', handle p id w = .ok r w' ∧ ok w'.own
  disciplined : ∀ p id w, Populated nodes w → ok w.own → id < nodes.length → Disciplined handle p id w

/-- What a fair attempt leaves behind. -/
structure Attempted (ok : σ → Prop) (id : Nat) (w w' : World ν σ) (r : Except Failure Unit) : Prop
    extends Amended id w w' where
  state : ok w'.own
  late : ∀ d ∈ (w'.pool.entity id).deps, d ∈ (w.pool.entity id).deps ∨ d.phase ≤ .run
  fresh : Failure.yields r = true → (w'.pool.entity id).deps ≠ []

section Answers

variable {p : Phase} {id : Nat} {w w' : World ν σ} (hFair : Fair handle nodes ok) (hPop : Populated nodes w)
  (hOwn : ok w.own)
  (hId : id < nodes.length)

include hFair hPop hOwn hId

/-- A fair handler answers, whether the phase is handled or not. -/
theorem Fair.exists_answers (p : Phase) : ∃ r w', Answers handle p id w r w' := by
  unfold Answers
  by_cases hHandled : p ∈ w.scheduler.handled
  · obtain ⟨r, w', hCall, -⟩ := hFair.returns p id w hPop hOwn hId
    exact ⟨r, w', by rwa [if_pos hHandled]⟩
  · exact ⟨.ok (), w, by simp [hHandled]⟩

theorem Fair.attempted {r : Except Failure Unit} (hAns : Answers handle p id w r w') : Attempted ok id w w' r := by
  unfold Answers at hAns
  split at hAns
  · obtain ⟨r1, w1, hCall, hOwn1⟩ := hFair.returns p id w hPop hOwn hId
    cases hCall.symm.trans hAns
    obtain ⟨pool, yielded, hScheduler, hReq, hYields⟩ := hFair.disciplined p id w hPop hOwn hId r w' hAns
    obtain rfl : w'.pool = pool := congrArg Scheduler.pool hScheduler
    exact ⟨.of_asks hScheduler hReq.asks, hOwn1, hReq.edges.1, fun hr => hReq.edges.2 (hYields hr)⟩
  · obtain ⟨rfl, rfl⟩ := hAns
    exact ⟨.of_asks rfl (.none _), hOwn, fun _ => .inl, nofun⟩

end Answers

end Scheduler

end Comptime
