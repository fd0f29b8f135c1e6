import Comptime.Proofs.Schedule.Requirements

/-!
# The indexes of entities

Entities come and go, and the index of one that was freed is given to a later one. `Pool.Consistent` ties together the table
of entities, the map from nodes to indexes and the list of freed indexes. Every operation keeps it, also one that is
aborted, and takes the node of no entity but the one that it releases (`Consistent.perform`). So a node and its entity find
each other for as long as the entity lives (`pool_addresses`).
-/

namespace Comptime

open List

namespace Pool

variable {ν : Type}

/-- What is done to a pool. -/
inductive Operation (ν : Type) where
  | add (n : ν)
  | release (id : Int)
  | setError (id : Int) (kind : ErrorKind) (cause : Failure)
  | need (id target : Int) (phase : Phase)
  | setPhase (id : Int) (phase : Phase)

/-- Goes on with a pool that may turn out not to exist. -/
def Edit.change (f : Pool ν → Except Abort (Pool ν)) : Edit ν Unit := do
  let p ← get
  set (← MonadExcept.ofExcept (f p))

/-- Performs an operation, and gives the index of an entity that was added. -/
def Operation.perform [BEq ν] [ToString ν] : Operation ν → Edit ν (Option Nat)
  | .add n => some <$> Edit.add n
  | .release id => (fun _ => none) <$> Edit.release id
  | .setError id kind cause => (fun _ => none) <$> Edit.change (·.setError id kind cause)
  | .need id target phase => (fun _ => none) <$> Edit.change (·.need id target phase)
  | .setPhase id phase => (fun _ => none) <$> Edit.change (·.modify id ({ · with phase }))

/-- The pool after operations, of which some may have been aborted. -/
def after [BEq ν] [ToString ν] (p : Pool ν) (os : List (Operation ν)) : Pool ν :=
  os.foldl (fun p o => Scheduler.reached (o.perform p)) p

variable {p p' : Pool ν} {i : Nat} {n : ν} {o : Operation ν}

theorem node_update {f : Entity ν → Entity ν} (hf : ∀ e, (f e).node = e.node) (j : Nat) :
    ((p.update i f).entity j).node = (p.entity j).node := by
  rw [entity_update]
  split
  · exact hf _
  · rfl

/-- What is done to a single entity leaves it with its node. -/
def KeepsNodes (p : Pool ν) (x : Except Abort (Pool ν)) : Prop :=
  ∀ p', x = .ok p' → ∃ i f, (∀ e : Entity ν, (f e).node = e.node) ∧ p' = p.update i f

theorem KeepsNodes.modify {id : Int} {f : Entity ν → Entity ν} (hf : ∀ e, (f e).node = e.node) :
    KeepsNodes p (p.modify id f) := by
  intro p' h
  unfold Pool.modify at h
  cases hPosition : p.position id <;> rw [hPosition] at h <;> cases h
  exact ⟨_, f, hf, rfl⟩

theorem KeepsNodes.need (id target : Int) (phase : Phase) : KeepsNodes p (p.need id target phase) := by
  intro p' h
  obtain ⟨i, -, h⟩ := Except.bind_eq_ok.mp h
  obtain ⟨t, -, h⟩ := Except.bind_eq_ok.mp h
  cases h
  exact ⟨i, (·.need ⟨t, phase⟩), fun e => e.need_node ⟨t, phase⟩, rfl⟩

variable [DecidableEq ν]

/-- The map leads to the entities that stand for the nodes, and the free indexes are those of no entity. -/
structure Consistent (p : Pool ν) : Prop extends Recycles p where
  maps : ∀ {n i}, p.lookup n = some i ↔ (p.entity i).node = some n

theorem lookup_cons_eq (l : List (ν × Nat)) (m : ν) : ((n, i) :: l).lookup m = if m = n then some i else l.lookup m := by
  by_cases hm : m = n
  · rw [hm, if_pos rfl, lookup_cons_self]
  · have hNe : (m == n) = false := by simpa using hm
    rw [if_neg hm, lookup_cons, hNe]

theorem lookup_filter (l : List (ν × Nat)) (m : ν) :
    (l.filter (·.1 != n)).lookup m = if m = n then none else l.lookup m := by
  induction l with
  | nil => simp
  | cons x l ih =>
    obtain ⟨k, j⟩ := x
    by_cases hk : k = n
    · -- the entry goes
      rw [filter_cons_of_neg (by simp [hk]), ih]
      by_cases hm : m = n
      · rw [if_pos hm, if_pos hm]
      · rw [if_neg hm, if_neg hm, lookup_cons_eq, if_neg (hk ▸ hm)]
    · rw [filter_cons_of_pos (by simpa using hk), lookup_cons_eq, lookup_cons_eq, ih]
      by_cases hm : m = k
      · rw [if_pos hm, if_neg (hm ▸ hk), if_pos hm]
      · rw [if_neg hm, if_neg hm]

theorem consistent_empty : Consistent ({} : Pool ν) where
  mem := ⟨nofun, fun h => absurd h.1 (Nat.not_lt_zero _)⟩
  increasing := .nil
  maps := ⟨nofun, fun h => absurd (lt_size_of_node h) (Nat.not_lt_zero _)⟩

theorem Released.lookup (h : Released p p' i n) (m : ν) : p'.lookup m = if m = n then none else p.lookup m := by
  rw [Pool.lookup, h.byNode, lookup_filter]
  rfl

namespace Consistent

variable (hp : p.Consistent)

include hp

theorem update {f : Entity ν → Entity ν} (hf : ∀ e, (f e).node = e.node) : (p.update i f).Consistent where
  toRecycles := hp.toRecycles.of_eq (size_update ..) rfl (node_update hf)
  maps {n j} := by
    rw [node_update hf]
    exact hp.maps

theorem added (hFree : p'.Recycles) (hNew : p.lookup n = none) (hAdded : Added p n p' i) : p'.Consistent := by
  refine ⟨hFree, fun {m j} => ?_⟩
  have hLookup : p'.lookup m = if m = n then some i else p.lookup m := by
    rw [Pool.lookup, hAdded.byNode, lookup_cons_eq]
    rfl
  rw [hLookup]
  by_cases hj : j = i
  · -- the new entity stands for the new node only
    rw [hj, hAdded.fresh]
    by_cases hm : m = n
    · simp [hm, Entity.fresh]
    · simp only [hm, if_false, Entity.fresh, hp.maps, hAdded.vacant]
      simpa using Ne.symm hm
  · rw [hAdded.other j hj, ← hp.maps]
    by_cases hm : m = n
    · simp [hm, hNew, Ne.symm hj]
    · rw [if_neg hm]

theorem released (hFree : p'.Recycles) (h : Released p p' i n) : p'.Consistent := by
  refine ⟨hFree, fun {m j} => ?_⟩
  rw [h.lookup]
  by_cases hj : j = i
  · rw [hj, h.vacant]
    refine ⟨fun hm => ?_, nofun⟩
    -- no other node leads to the entity that was released
    split at hm
    · cases hm
    · rename_i hNe
      exact absurd (Option.some.inj ((hp.maps.mp hm).symm.trans h.node)) hNe
  · rw [h.other j hj, ← hp.maps]
    split
    · rename_i hm
      rw [hm, hp.maps.mpr h.node]
      simpa using Ne.symm hj
    · rfl

variable [ToString ν]

omit [ToString ν] in
theorem change {f : Pool ν → Except Abort (Pool ν)} (hf : KeepsNodes p (f p)) :
    (∃ a, Edit.change f p = .error a p) ∨ ∃ p', Edit.change f p = .ok () p' ∧ p'.Consistent ∧
      ∀ i, (p'.entity i).node = (p.entity i).node := by
  rw [Edit.change, Edit.get_bind]
  cases hRun : f p with
  | error a => exact .inl ⟨a, rfl⟩
  | ok q =>
    obtain ⟨i, g, hg, rfl⟩ := hf q hRun
    exact .inr ⟨_, rfl, hp.update hg, node_update hg⟩

/-- An operation is aborted before it has changed anything, or it keeps the pool consistent, and every node but that of an
entity it releases. -/
theorem perform (o : Operation ν) : (∃ a, o.perform p = .error a p) ∨ ∃ r p', o.perform p = .ok r p' ∧ p'.Consistent ∧
    ∀ i n, (p.entity i).node = some n → o ≠ .release i → (p'.entity i).node = some n := by
  -- setting an error or a phase and recording an edge change one entity, and not its node
  have hChange {f : Pool ν → Except Abort (Pool ν)} (hf : KeepsNodes p (f p)) :
      (∃ a, ((fun _ => (none : Option Nat)) <$> Edit.change f) p = .error a p) ∨
        ∃ r p', ((fun _ => (none : Option Nat)) <$> Edit.change f) p = .ok r p' ∧ p'.Consistent ∧
          ∀ i n, (p.entity i).node = some n → o ≠ .release i → (p'.entity i).node = some n := by
    simp only [Functor.map, EStateM.map]
    rcases hp.change hf with ⟨a, hAbort⟩ | ⟨q, hRun, hq, hNode⟩
    · exact .inl ⟨a, by rw [hAbort]⟩
    · exact .inr ⟨none, q, by rw [hRun], hq, fun i n hi _ => (hNode i).trans hi⟩
  cases o with
  | setError id kind cause => exact hChange (.modify fun e => e.setError_node kind cause)
  | need id target phase => exact hChange (.need id target phase)
  | setPhase id phase => exact hChange (.modify fun _ => rfl)
  | add n =>
    simp only [Operation.perform, Functor.map, EStateM.map]
    rcases hp.add_cases n with ⟨-, a, hAbort⟩ | ⟨hNew, i, q, hAdd, hFree, hAdded⟩
    · exact .inl ⟨a, by rw [hAbort]⟩
    · refine .inr ⟨some i, q, by rw [hAdd], hp.added hFree hNew hAdded, fun j m hj _ => ?_⟩
      rw [hAdded.other j]
      · exact hj
      · rintro rfl
        rw [hAdded.vacant] at hj
        cases hj
  | release id =>
    simp only [Operation.perform, Functor.map, EStateM.map]
    rcases hp.release_cases id with ⟨i, n, q, rfl, hRelease, hFree, hReleased⟩ | ⟨⟨a, hAbort⟩, -⟩
    · refine .inr ⟨none, q, by rw [hRelease], hp.released hFree hReleased, fun j m hj hNot => ?_⟩
      rwa [hReleased.other j fun h => hNot (h ▸ rfl)]
    · exact .inl ⟨a, by rw [hAbort]⟩

/-- What operations leave behind, by induction on their number. -/
theorem after (os : List (Operation ν)) : (p.after os).Consistent ∧
    ∀ i n, (p.entity i).node = some n → .release i ∉ os → ((p.after os).entity i).node = some n := by
  induction os generalizing p with
  | nil => exact ⟨hp, fun _ _ hi _ => hi⟩
  | cons o os ih =>
    rw [Pool.after, foldl_cons]
    rcases hp.perform o with ⟨a, hAbort⟩ | ⟨r, q, hRun, hq, hKeeps⟩
    · rw [hAbort]
      exact (ih hp).imp id fun hRest i n hi hNot => hRest i n hi fun hIn => hNot (mem_cons_of_mem o hIn)
    · rw [hRun]
      obtain ⟨hAfter, hRest⟩ := ih hq
      refine ⟨hAfter, fun i n hi hNot => ?_⟩
      obtain ⟨hFirst, hNot⟩ := not_or.mp (mt mem_cons.mpr hNot)
      exact hRest i n (hKeeps i n hi (Ne.symm hFirst)) hNot

end Consistent

/--
**Entities keep their indexes.** Whatever has been done to a pool, the map leads from a node to an index just if the entity
there stands for it, and no two nodes share an index. An entity that is not released stays where it is. A node that is new
gets the lowest freed index, or else the next one, and an entity of which nothing is known but that it was read; its index
is no longer free. An entity that is in use and has ended can be released, and no other can: then its node leads nowhere
and its index is free. What is aborted leaves everything as it was.
-/
theorem pool_addresses [ToString ν] (os : List (Operation ν)) :
    let p := after ({} : Pool ν) os
    (∀ n i, p.lookup n = some i ↔ (p.entity i).node = some n) ∧
    (∀ n m i, p.lookup n = some i → p.lookup m = some i → n = m) ∧
    (∀ os' n i, p.lookup n = some i → .release i ∉ os' → (p.after os').lookup n = some i) ∧
    (∀ n, p.lookup n = none → ∃ i p', p.add n = .ok (p', i) ∧ p'.lookup n = some i ∧
      (IsLeast p.vacancies i ∨ p.vacancies = ∅ ∧ i = p.size) ∧ p'.vacancies = p.vacancies \ {i} ∧
      p'.entity i = { node := some n, phase := .parsed, deps := [], err := .ok, cause := none } ∧
      ∀ j ≠ i, p'.entity j = p.entity j) ∧
    (∀ id : Int, (∃ (i : Nat) (n : ν) (p' : Pool ν), id = i ∧ p.lookup n = some i ∧ p.release id = .ok p' ∧
        p'.vacancies = insert i p.vacancies ∧ (∀ m, p'.lookup m = if m = n then none else p.lookup m) ∧
        ∀ j ≠ i, p'.entity j = p.entity j) ↔
      ∃ i : Nat, id = i ∧ (p.entity i).node ≠ none ∧ ((p.entity i).phase = .run ∨ (p.entity i).failed = true)) ∧
    ∀ o a p', Operation.perform o p = .error a p' → p' = p := by
  intro p
  -- the invariant holds after every list of operations; each part reads one fact off it
  have hp : p.Consistent := (consistent_empty.after os).1
  refine ⟨fun n i => hp.maps, fun n m i hn hm => ?_, fun os' n i hn hNot => ?_, fun n hNew => ?_, fun id => ?_,
    fun o a p' hAbort => ?_⟩
  · exact Option.some.inj ((hp.maps.mp hn).symm.trans (hp.maps.mp hm))
  · obtain ⟨hp', hKeeps⟩ := hp.after os'
    exact hp'.maps.mpr (hKeeps i n (hp.maps.mp hn) hNot)
  · rcases hp.add_cases n with ⟨hOld, -⟩ | ⟨-, i, q, hAdd, hFree, hAdded⟩
    · exact absurd hNew hOld
    · have hMaps : (q.entity i).node = some n := by rw [hAdded.fresh]; rfl
      exact ⟨i, q, Edit.outcome_eq_ok.mpr hAdd, (hp.added hFree hNew hAdded).maps.mpr hMaps, hAdded.index,
        hAdded.vacancies, hAdded.fresh, hAdded.other⟩
  · rcases hp.release_cases id with ⟨i, n, q, rfl, hRelease, -, hReleased⟩ | ⟨⟨a, hAbort⟩, hNot⟩
    · refine iff_of_true ?_ ⟨i, rfl, by rw [hReleased.node]; exact Option.some_ne_none n, hReleased.ended⟩
      exact ⟨i, n, q, rfl, hp.maps.mpr hReleased.node, release_eq_ok.mpr hRelease, hReleased.vacancies, hReleased.lookup,
        hReleased.other⟩
    · refine iff_of_false ?_ hNot
      rintro ⟨i, n, q, -, -, hRelease, -⟩
      rw [release_eq_ok, hAbort] at hRelease
      cases hRelease
  · rcases hp.perform o with ⟨b, hRefused⟩ | ⟨r, q, hRun, -⟩
    · rw [hRefused] at hAbort
      cases hAbort
      rfl
    · rw [hRun] at hAbort
      cases hAbort

end Pool

end Comptime
