import Comptime.Proofs.Schedule.Exactness
import Mathlib.Order.Bounds.Basic

/-!
# Requirements, and the indexes of the pool

`Pool.Asks` is any number of requirements made by one entity, of whatever targets and phases; `Pool.Amends` says what they
come to. `OnlyAsks` are the handlers that act on the scheduler in no other way. The second half is about the indexes: which
one a new entity gets, and what releasing an entity does.
-/

namespace Comptime

open List

/-- Is the attempt to be made again later? -/
def Failure.yields : Except Failure Unit → Bool
  | .ok () => false
  | .error f => f.isCause .yield

namespace Pool

variable {ν : Type} {p p' p'' : Pool ν} {me : Nat}

/-! ## Requirements of any kind -/

/-- Requirements made by an entity, one after the other, of any targets and phases. -/
inductive Asks (me : Nat) : Pool ν → Pool ν → Prop where
  | none (p : Pool ν) : Asks me p p
  | more {p p' p'' : Pool ν} {target : Int} {phase : Phase} {r : Except Failure Unit} :
      Asks me p p' → p'.require me target phase = .ok (p'', r) → Asks me p p''

/-- An edge to an entity that may still get there. -/
structure Open (p : Pool ν) (d : Dep) : Prop where
  target : d.target < p.size
  unsatisfied : p.satisfied d = false
  live : (p.entity d.target).failed = false

/-- Only the edges of one entity have changed, and those that are new are to be waited for. -/
structure Amends (me : Nat) (p p' : Pool ν) : Prop where
  size : p'.size = p.size
  books : p'.books = p.books
  other : ∀ j, j ≠ me → p'.entity j = p.entity j
  own : p'.entity me = { p.entity me with deps := (p'.entity me).deps }
  edge : ∀ d ∈ (p'.entity me).deps, d ∈ (p.entity me).deps ∨ p.Open d

namespace Amends

theorem refl (me : Nat) (p : Pool ν) : Amends me p p := ⟨rfl, rfl, fun _ _ => rfl, rfl, fun _ => .inl⟩

variable (h : Amends me p p') (j : Nat)

include h

theorem entity_eq : p'.entity j = { p.entity j with deps := (p'.entity j).deps } := by
  by_cases hj : j = me
  · rw [hj]
    exact h.own
  · rw [h.other j hj]

theorem phase : (p'.entity j).phase = (p.entity j).phase := by rw [h.entity_eq]

theorem err : (p'.entity j).err = (p.entity j).err := by rw [h.entity_eq]

theorem cause : (p'.entity j).cause = (p.entity j).cause := by rw [h.entity_eq]

theorem node : (p'.entity j).node = (p.entity j).node := by rw [h.entity_eq]

theorem failed : (p'.entity j).failed = (p.entity j).failed := by
  simp only [Entity.failed, h.err j]

theorem satisfied (d : Dep) : p'.satisfied d = p.satisfied d := satisfied_congr (h.phase d.target)

end Amends

theorem position_eq_ok {id : Int} {i : Nat} (h : p.position id = .ok i) : i < p.size ∧ id = i := by
  unfold position at h
  split at h
  · cases h
    omega
  · cases h

/-- A requirement leaves the pool as it was, or it records an edge. Only then is it to be waited for. -/
theorem require_eq_ok {target : Int} {phase : Phase} {r : Except Failure Unit}
    (h : p.require me target phase = .ok (p', r)) :
    (p' = p ∧ Failure.yields r = false) ∨
      ∃ t, p.Open ⟨t, phase⟩ ∧ me < p.size ∧ p' = p.update me (·.need ⟨t, phase⟩) := by
  unfold require need at h
  cases hTarget : p.position target with
  | error a =>
    rw [hTarget] at h
    cases h
  | ok t =>
    obtain ⟨ht, -⟩ := position_eq_ok hTarget
    simp only [hTarget, bind, Except.bind, pure, Except.pure] at h
    split at h
    · cases h
      exact .inl ⟨rfl, rfl⟩
    · rename_i hUnsat
      split at h
      · cases h
        exact .inl ⟨rfl, rfl⟩
      · rename_i hLive
        cases hMe : p.position (me : Int) with
        | error a =>
          rw [hMe] at h
          cases h
        | ok i =>
          obtain ⟨hi, hEq⟩ := position_eq_ok hMe
          obtain rfl : me = i := by omega
          rw [hMe] at h
          cases h
          exact .inr ⟨t, ⟨ht, by simpa [satisfied] using hUnsat, by simpa using hLive⟩, hi, rfl⟩

theorem Asks.amends (h : Asks me p p') : Amends me p p' := by
  induction h with
  | none => exact .refl _ _
  | @more mid _ _ phase _ _ hReq ih =>
    rcases require_eq_ok hReq with ⟨rfl, -⟩ | ⟨t, hOpen, hMe, rfl⟩
    · exact ih
    · have hSelf : (mid.update me (·.need ⟨t, phase⟩)).entity me = (mid.entity me).need ⟨t, phase⟩ :=
        entity_update_self hMe _
      have hNeed : (mid.entity me).need ⟨t, phase⟩ =
          { mid.entity me with deps := ((mid.entity me).need ⟨t, phase⟩).deps } := by
        unfold Entity.need
        split <;> rfl
      refine ⟨(size_update ..).trans ih.size, ih.books, fun j hj => ?_, ?_, fun d hd => ?_⟩
      · rw [entity_update_ne (Ne.symm hj), ih.other j hj]
      · rw [hSelf, hNeed, ih.own]
      · rw [hSelf] at hd
        rcases Entity.mem_need hd with hOld | rfl
        · exact ih.edge d hOld
        · exact .inr ⟨ih.size ▸ hOpen.target, ih.satisfied _ ▸ hOpen.unsatisfied, ih.failed _ ▸ hOpen.live⟩

/-! ## Free indexes -/

theorem mem_insertFree {i j : Nat} : ∀ {l : List Nat}, j ∈ insertFree i l ↔ j = i ∨ j ∈ l
  | [] => by simp [insertFree]
  | k :: l => by
    unfold insertFree
    split
    · simp
    · simp only [mem_cons, mem_insertFree]
      tauto

theorem increasing_insertFree {i : Nat} : ∀ {l : List Nat}, i ∉ l → l.Pairwise (· < ·) → (insertFree i l).Pairwise (· < ·)
  | [], _, _ => pairwise_singleton ..
  | k :: l, hi, h => by
    rw [mem_cons, not_or] at hi
    obtain ⟨hk, hl⟩ := pairwise_cons.mp h
    unfold insertFree
    split
    · rename_i hle
      have hLt : i < k := Nat.lt_of_le_of_ne hle hi.1
      refine pairwise_cons.mpr ⟨fun j hj => ?_, h⟩
      rcases mem_cons.mp hj with rfl | hj
      · exact hLt
      · exact hLt.trans (hk j hj)
    · rename_i hle
      refine pairwise_cons.mpr ⟨fun j hj => ?_, increasing_insertFree hi.2 hl⟩
      rcases mem_insertFree.mp hj with rfl | hj
      · exact Nat.lt_of_not_le hle
      · exact hk j hj

/-- The indexes of the entities that were freed. -/
def vacancies (p : Pool ν) : Set Nat := {i | i < p.size ∧ (p.entity i).node = none}

theorem vacancies_congr (hSize : p'.size = p.size) (hNode : ∀ i, (p'.entity i).node = (p.entity i).node) :
    p'.vacancies = p.vacancies := by
  ext i
  simp only [vacancies, Set.mem_ofPred_eq, hSize, hNode]

/-- The free indexes are those of no entity, in increasing order. -/
structure Recycles (p : Pool ν) : Prop where
  mem : ∀ {i}, i ∈ p.free ↔ i ∈ p.vacancies
  increasing : p.free.Pairwise (· < ·)

theorem Recycles.of_eq (h : p.Recycles) (hSize : p'.size = p.size) (hFree : p'.free = p.free)
    (hNode : ∀ i, (p'.entity i).node = (p.entity i).node) : p'.Recycles where
  mem {i} := by rw [hFree, h.mem, vacancies_congr hSize hNode]
  increasing := hFree ▸ h.increasing

/-- An index has been taken that no entity has, and nothing else has changed. -/
structure Taken (p p' : Pool ν) (i : Nat) : Prop where
  index : IsLeast p.vacancies i ∨ p.vacancies = ∅ ∧ i = p.size
  size : ∀ j, j < p'.size ↔ j < p.size ∨ j = i
  entity : ∀ j, p'.entity j = p.entity j
  free : ∀ j, j ∈ p'.free ↔ j ∈ p.free ∧ j ≠ i
  increasing : p'.free.Pairwise (· < ·)
  byNode : p'.byNode = p.byNode

theorem Edit.get_bind {α : Type} (f : Pool ν → Edit ν α) : (get >>= f) p = f p p := rfl

theorem Edit.outcome_eq_ok {α : Type} {x : Edit ν α} {a : α} : x.outcome p = .ok (p', a) ↔ x p = .ok a p' := by
  unfold outcome
  cases x p <;> simp [and_comm]

theorem takeIndex_of_nil (h : p.free = []) : Edit.takeIndex p = .ok p.size
    { p with entities := p.entities.push .vacant } := by
  rw [Edit.takeIndex, Edit.get_bind, h]
  rfl

/-- There is always an index to take. -/
theorem Recycles.takeIndex (h : p.Recycles) : ∃ i p', Edit.takeIndex p = .ok i p' ∧ Taken p p' i := by
  cases hFree : p.free with
  | cons i rest =>
    obtain ⟨hFirst, hRest⟩ := pairwise_cons.mp (hFree ▸ h.increasing)
    have hVacant : i ∈ p.vacancies := h.mem.mp (hFree ▸ mem_cons_self)
    refine ⟨i, { p with free := rest }, ?_, .inl ⟨hVacant, fun j hj => ?_⟩, fun j => ?_, fun _ => rfl, fun j => ?_, hRest, rfl⟩
    · rw [Edit.takeIndex, Edit.get_bind, hFree]
      rfl
    · rcases mem_cons.mp (hFree ▸ h.mem.mpr hj) with rfl | hIn
      · exact Nat.le_refl _
      · exact (hFirst j hIn).le
    · refine ⟨.inl, ?_⟩
      rintro (hj | rfl)
      · exact hj
      · exact hVacant.1
    · rw [hFree, mem_cons]
      constructor
      · intro hj
        exact ⟨.inr hj, (hFirst j hj).ne'⟩
      · rintro ⟨rfl | hj, hNe⟩
        · exact absurd rfl hNe
        · exact hj
  | nil =>
    have hEmpty : p.vacancies = ∅ := Set.eq_empty_of_forall_notMem fun j hj => not_mem_nil (hFree ▸ h.mem.mpr hj)
    refine ⟨p.size, _, takeIndex_of_nil hFree, .inr ⟨hEmpty, rfl⟩, fun j => ?_, fun j => ?_, fun j => ?_, hFree ▸ .nil, rfl⟩
    · simp only [size, Array.size_push]
      omega
    · -- beyond the end there are only vacant entities
      by_cases hj : j = p.entities.size
      · simp [entity, hj]
      · simp [entity, Array.getElem?_push, hj]
    · simp only [hFree, not_mem_nil, false_and]

/-- An entity has been added, at the lowest free index or else at the end, and the others are as they were. -/
structure Added (p : Pool ν) (n : ν) (p' : Pool ν) (i : Nat) : Prop where
  index : IsLeast p.vacancies i ∨ p.vacancies = ∅ ∧ i = p.size
  size : ∀ j, j < p'.size ↔ j < p.size ∨ j = i
  fresh : p'.entity i = .fresh n
  other : ∀ j, j ≠ i → p'.entity j = p.entity j
  byNode : p'.byNode = (n, i) :: p.byNode

theorem Added.vacant {n : ν} {i : Nat} (h : Added p n p' i) : (p.entity i).node = none := by
  rcases h.index with hLeast | ⟨-, rfl⟩
  · exact hLeast.1.2
  · rw [entity_of_size_le (Nat.le_refl _)]
    rfl

theorem Added.vacancies {n : ν} {i : Nat} (h : Added p n p' i) : p'.vacancies = p.vacancies \ {i} := by
  ext j
  simp only [Pool.vacancies, Set.mem_ofPred_eq, Set.mem_sdiff, Set.mem_singleton_iff, h.size]
  by_cases hj : j = i
  · simp [hj, h.fresh, Entity.fresh]
  · simp [hj, h.other j hj]

theorem add_of_some [BEq ν] [ToString ν] {n : ν} {j : Nat} (h : p.lookup n = some j) : ∃ a, Edit.add n p = .error a p := by
  rw [Edit.add, Edit.get_bind, h]
  exact ⟨_, rfl⟩

theorem add_of_none [BEq ν] [ToString ν] {n : ν} {i : Nat} (h : p.lookup n = none) (hTake : Edit.takeIndex p = .ok i p') :
    Edit.add n p = .ok i { p'.update i fun _ => .fresh n with byNode := (n, i) :: p'.byNode } := by
  rw [Edit.add, Edit.get_bind, h]
  simp only [Option.isSome_none, Bool.false_eq_true, if_false, bind, EStateM.bind, hTake]
  rfl

/-- A node that has an entity is refused, and any other gets one. -/
theorem Recycles.add_cases [BEq ν] [ToString ν] (h : p.Recycles) (n : ν) :
    (p.lookup n ≠ none ∧ ∃ a, Edit.add n p = .error a p) ∨
      p.lookup n = none ∧ ∃ i p', Edit.add n p = .ok i p' ∧ p'.Recycles ∧ Added p n p' i := by
  cases hLookup : p.lookup n with
  | some j => exact .inl ⟨nofun, add_of_some hLookup⟩
  | none =>
    obtain ⟨i, p1, hTake, hTaken⟩ := h.takeIndex
    have hi : i < p1.size := (hTaken.size i).mpr (.inr rfl)
    have hAdded : Added p n { p1.update i fun _ => .fresh n with byNode := (n, i) :: p1.byNode } i := by
      refine ⟨hTaken.index, fun j => ?_, entity_update_self hi _, fun j hj => ?_, by rw [hTaken.byNode]⟩
      · exact (Iff.of_eq (congrArg (j < ·) (size_update p1 i _))).trans (hTaken.size j)
      · exact (entity_update_ne (Ne.symm hj) _).trans (hTaken.entity j)
    refine .inr ⟨rfl, i, _, add_of_none hLookup hTake, ⟨fun {j} => ?_, hTaken.increasing⟩, hAdded⟩
    rw [hAdded.vacancies, Set.mem_sdiff, Set.mem_singleton_iff, ← h.mem]
    exact hTaken.free j

theorem Recycles.add [BEq ν] [ToString ν] {n : ν} {i : Nat} (h : p.Recycles) (hAdd : p.add n = .ok (p', i)) :
    p'.Recycles ∧ Added p n p' i := by
  rw [Pool.add, Edit.outcome_eq_ok] at hAdd
  rcases h.add_cases n with ⟨-, a, hRefused⟩ | ⟨-, k, q, hOk, hAdded⟩
  · rw [hRefused] at hAdd
    cases hAdd
  · rw [hOk] at hAdd
    cases hAdd
    exact hAdded

/-- The entity of a node has been released, and the others are as they were. -/
structure Released [BEq ν] (p p' : Pool ν) (i : Nat) (n : ν) : Prop where
  node : (p.entity i).node = some n
  ended : (p.entity i).phase = .run ∨ (p.entity i).failed = true
  size : p'.size = p.size
  vacant : p'.entity i = .vacant
  other : ∀ j, j ≠ i → p'.entity j = p.entity j
  byNode : p'.byNode = p.byNode.filter (·.1 != n)

theorem lt_size_of_node {i : Nat} {n : ν} (h : (p.entity i).node = some n) : i < p.size := by
  by_contra hLe
  rw [entity_of_size_le (Nat.not_lt.mp hLe)] at h
  cases h

theorem Released.vacancies [BEq ν] {i : Nat} {n : ν} (h : Released p p' i n) : p'.vacancies = insert i p.vacancies := by
  ext j
  simp only [Pool.vacancies, Set.mem_ofPred_eq, Set.mem_insert_iff, h.size]
  by_cases hj : j = i
  · simp [hj, h.vacant, Entity.vacant, lt_size_of_node h.node]
  · simp [hj, h.other j hj]

/-- An entity that is in use and has ended is released, and whatever else is refused. -/
theorem Recycles.release_cases [BEq ν] (h : p.Recycles) (id : Int) :
    (∃ (i : Nat) (n : ν) (p' : Pool ν), id = i ∧ Edit.release id p = .ok () p' ∧ p'.Recycles ∧ Released p p' i n) ∨
      (∃ a, Edit.release id p = .error a p) ∧
        ¬ ∃ i : Nat, id = i ∧ (p.entity i).node ≠ none ∧ ((p.entity i).phase = .run ∨ (p.entity i).failed = true) := by
  rw [Edit.release, Edit.get_bind]
  cases hPosition : p.position id with
  | error a =>
    refine .inr ⟨⟨a, rfl⟩, ?_⟩
    rintro ⟨i, rfl, hNode, -⟩
    obtain ⟨n, hn⟩ := Option.ne_none_iff_exists'.mp hNode
    rw [position_natCast (lt_size_of_node hn)] at hPosition
    cases hPosition
  | ok i =>
    obtain ⟨hi, rfl⟩ := position_eq_ok hPosition
    have hSame {j : Nat} (hj : (i : Int) = j) : j = i := by omega
    simp only [MonadExcept.ofExcept, bind, EStateM.bind, pure, EStateM.pure]
    cases hNode : (p.entity i).node with
    | none =>
      refine .inr ⟨⟨_, rfl⟩, ?_⟩
      rintro ⟨j, hj, hSome, -⟩
      exact hSome (hSame hj ▸ hNode)
    | some n =>
      dsimp only
      split
      · rename_i hEarly
        refine .inr ⟨⟨_, rfl⟩, ?_⟩
        rintro ⟨j, hj, -, hEnded⟩
        rw [hSame hj] at hEnded
        exact hEnded.elim hEarly.1 hEarly.2
      · rename_i hLate
        have hEnded : (p.entity i).phase = .run ∨ (p.entity i).failed = true := by
          by_contra hNot
          exact hLate (not_or.mp hNot)
        let q : Pool ν :=
          { p.update i fun _ => .vacant with byNode := p.byNode.filter (·.1 != n), free := insertFree i p.free }
        have hReleased : Released p q i n :=
          ⟨hNode, hEnded, size_update .., entity_update_self hi _, fun j hj => entity_update_ne (Ne.symm hj) _, rfl⟩
        -- the free list has to be the vacancies again, in order
        refine .inl ⟨i, n, q, rfl, rfl, ⟨fun {j} => ?_, ?_⟩, hReleased⟩
        · rw [hReleased.vacancies, Set.mem_insert_iff, ← h.mem]
          exact mem_insertFree
        · refine increasing_insertFree (fun hFree => ?_) h.increasing
          have hNone := (h.mem.mp hFree).2
          rw [hNode] at hNone
          cases hNone

theorem release_eq_ok [BEq ν] {id : Int} : p.release id = .ok p' ↔ Edit.release id p = .ok () p' := by
  rw [Pool.release, ← Edit.outcome_eq_ok]
  cases (Edit.release id).outcome p <;> simp [Functor.map, Except.map, Prod.ext_iff]

theorem Recycles.release [BEq ν] {id : Int} (h : p.Recycles) (hRelease : p.release id = .ok p') :
    ∃ (i : Nat) (n : ν), id = i ∧ p'.Recycles ∧ Released p p' i n := by
  rw [release_eq_ok] at hRelease
  rcases h.release_cases id with ⟨i, n, q, hId, hOk, hReleased⟩ | ⟨⟨a, hRefused⟩, -⟩
  · rw [hOk] at hRelease
    cases hRelease
    exact ⟨i, n, hId, hReleased⟩
  · rw [hRefused] at hRelease
    cases hRelease

end Pool

namespace Scheduler

variable {ν σ τ α : Type} {handle : Handler ν σ} {w w' : World ν σ} {p : Phase} {id : Nat}

/-- Where a computation has come to. -/
def reached : EStateM.Result Abort τ α → τ
  | .ok _ w | .error _ w => w

/-- Whatever comes of it, an attempt acts on the scheduler by requirements of its entity only. -/
def OnlyAsks (handle : Handler ν σ) : Prop :=
  ∀ p id w, ∃ pool, (reached (handle p id w)).scheduler = { w.scheduler with pool } ∧ Pool.Asks id w.pool pool

/-- Between the worlds the edges of an entity have been amended, and nothing else has happened to the scheduler. -/
structure Amended (id : Nat) (w w' : World ν σ) : Prop extends Pool.Amends id w.pool w'.pool where
  scheduler : w'.scheduler = { w.scheduler with pool := w'.pool }

theorem Amended.of_asks {pool : Pool ν} (hScheduler : w'.scheduler = { w.scheduler with pool })
    (hAsks : Pool.Asks id w.pool pool) : Amended id w w' := by
  have hPool : w'.pool = pool := congrArg Scheduler.pool hScheduler
  refine ⟨?_, ?_⟩ <;> rw [hPool]
  · exact hAsks.amends
  · exact hScheduler

/-- Amending edges moves no entity. -/
theorem Amended.eases (h : Amended id w w') : Eases w.scheduler w'.scheduler where
  queues := by rw [h.scheduler]
  size := h.size
  books := h.books
  node := h.node
  phase := h.phase
  failed i hi := (h.failed i).trans hi
  edges i d hd := by
    by_cases hi : i = id
    · subst hi
      exact (h.edge d hd).imp_right (·.target)
    · exact .inl (h.other i hi ▸ hd)

/-- Whatever the attempt answers, it has amended edges of its entity only. -/
def Asking (handle : Handler ν σ) (p : Phase) (id : Nat) (w : World ν σ) : Prop :=
  ∀ r w', Answers handle p id w r w' → Amended id w w'

/-- What an attempt of a handler that only asks leaves behind. -/
theorem OnlyAsks.amended (h : OnlyAsks handle) (p : Phase) (id : Nat) (w : World ν σ) :
    Amended id w (reached (handle p id w)) := by
  obtain ⟨pool, hScheduler, hAsks⟩ := h p id w
  exact .of_asks hScheduler hAsks

/-- The same of an attempt that may have no handler. -/
theorem OnlyAsks.asking (h : OnlyAsks handle) (p : Phase) (id : Nat) (w : World ν σ) : Asking handle p id w := by
  intro r w' hAns
  unfold Answers at hAns
  split at hAns
  · have hAmended := h.amended p id w
    rwa [hAns] at hAmended
  · obtain ⟨-, rfl⟩ := hAns
    exact .of_asks rfl (.none _)

end Scheduler

end Comptime
