import Comptime.Schedule.Scheduler
import Mathlib.Data.List.Basic

/-!
# The pool, entity by entity

What the operations of the pool do to the entity at one position. Recording an edge asks for nothing less than before
(`covers_need`), and requiring something touches nothing but the edges of the entity that asks (`require_cases`).
-/

namespace Comptime

open List

variable {a b : Phase} {d : Dep}

@[simp] theorem Phase.le_iff : a ≤ b ↔ a.rank ≤ b.rank := Iff.rfl

@[simp] theorem Phase.lt_iff : a < b ↔ a.rank < b.rank := Iff.rfl

theorem Phase.ext_rank (h : a.rank = b.rank) : a = b := by
  cases a; cases b; simp_all

theorem ErrorKind.isCyclic_iff {k : ErrorKind} : k.isCyclic = true ↔ k = .cycle ∨ k = .cycleDependent := by
  cases k <;> simp [isCyclic]

namespace Entity

variable {ν : Type}
variable {e : Entity ν}

theorem failed_iff : e.failed = true ↔ e.err ≠ .ok := by simp [failed]

theorem not_failed_iff : e.failed = false ↔ e.err = .ok := by simp [failed]

theorem failed_of_isCyclic (h : e.err.isCyclic = true) : e.failed = true := by
  rw [failed_iff]
  intro hOk
  rw [hOk] at h
  cases h

theorem setError_of_failed (h : e.failed = true) (k : ErrorKind) (c : Failure) : e.setError k c = e := by simp [setError, h]

theorem setError_of_not_failed (h : e.failed = false) (k : ErrorKind) (c : Failure) :
    e.setError k c = { e with err := k, cause := some c } := by simp [setError, h]

@[simp] theorem setError_deps (e : Entity ν) (k : ErrorKind) (c : Failure) : (e.setError k c).deps = e.deps := by
  unfold setError; split <;> rfl

@[simp] theorem setError_phase (e : Entity ν) (k : ErrorKind) (c : Failure) : (e.setError k c).phase = e.phase := by
  unfold setError; split <;> rfl

@[simp] theorem setError_node (e : Entity ν) (k : ErrorKind) (c : Failure) : (e.setError k c).node = e.node := by
  unfold setError; split <;> rfl

/-! ## Recording an edge -/

@[simp] theorem need_phase (e : Entity ν) (d : Dep) : (e.need d).phase = e.phase := by unfold need; split <;> rfl

@[simp] theorem need_node (e : Entity ν) (d : Dep) : (e.need d).node = e.node := by unfold need; split <;> rfl

@[simp] theorem need_err (e : Entity ν) (d : Dep) : (e.need d).err = e.err := by unfold need; split <;> rfl

/-- Recording an edge gives only that edge beside those there were. -/
theorem mem_need {x : Dep} (h : x ∈ (e.need d).deps) : x ∈ e.deps ∨ x = d := by
  unfold need at h
  split at h
  · obtain ⟨y, hy, rfl⟩ := mem_map.mp h
    by_cases ht : y.target = d.target
    · by_cases hlt : y.phase < d.phase
      · right
        cases y; cases d
        simp_all
      · left
        simpa [hlt] using hy
    · left
      simpa [ht] using hy
  · rcases mem_append.mp h with hOld | hNew
    · exact Or.inl hOld
    · exact Or.inr (mem_singleton.mp hNew)

theorem need_deps_ne_nil (e : Entity ν) (d : Dep) : (e.need d).deps ≠ [] := by
  unfold need
  split
  · rename_i hAny
    obtain ⟨y, hy, -⟩ := any_eq_true.mp hAny
    exact ne_nil_of_mem (mem_map.mpr ⟨y, hy, rfl⟩)
  · simp

end Entity

namespace Pool

variable {ν : Type}
variable {p : Pool ν} {i : Nat}

@[simp] theorem size_update (p : Pool ν) (i : Nat) (f : Entity ν → Entity ν) : (p.update i f).size = p.size := by
  simp [update, size]

theorem entity_update (p : Pool ν) (i : Nat) (f : Entity ν → Entity ν) (j : Nat) :
    (p.update i f).entity j = if i = j ∧ j < p.size then f (p.entity j) else p.entity j := by
  unfold update entity size
  simp only [Array.getD_eq_getD_getElem?, Array.getElem?_modify]
  by_cases hj : j < p.entities.size
  · by_cases hij : i = j <;> simp [hij, hj]
  · by_cases hij : i = j <;> simp [hij, hj]

@[simp] theorem entity_update_self (h : i < p.size) (f : Entity ν → Entity ν) :
    (p.update i f).entity i = f (p.entity i) := by simp [entity_update, h]

@[simp] theorem entity_update_ne {j : Nat} (h : i ≠ j) (f : Entity ν → Entity ν) :
    (p.update i f).entity j = p.entity j := by simp [entity_update, h]

theorem entity_update_cases (h : i < p.size) (f : Entity ν → Entity ν) (j : Nat) :
    (j = i ∧ (p.update i f).entity j = f (p.entity i)) ∨ (j ≠ i ∧ (p.update i f).entity j = p.entity j) := by
  by_cases hj : j = i
  · exact Or.inl ⟨hj, hj ▸ entity_update_self h f⟩
  · exact Or.inr ⟨hj, entity_update_ne (Ne.symm hj) f⟩

theorem phase_update (p : Pool ν) (i : Nat) {f : Entity ν → Entity ν} (hf : ∀ e, (f e).phase = e.phase) (j : Nat) :
    ((p.update i f).entity j).phase = (p.entity j).phase := by
  rw [entity_update]
  split
  · exact hf _
  · rfl

/-- What is known of indexes beside the entities: which are free, and which are those of the nodes. -/
def books (p : Pool ν) : List Nat × List (ν × Nat) := (p.free, p.byNode)

theorem lookup_congr [BEq ν] {q : Pool ν} (h : q.books = p.books) (n : ν) : q.lookup n = p.lookup n :=
  congrArg (List.lookup n) (congrArg Prod.snd h)

theorem entity_of_size_le (h : p.size ≤ i) : p.entity i = .vacant := by
  unfold entity size at *
  simp [h]

theorem position_natCast (h : i < p.size) : p.position (i : Int) = .ok i := by
  unfold position
  rw [if_pos ⟨by omega, by omega⟩]
  simp

theorem toList_entities (p : Pool ν) : p.entities.toList = (range p.size).map p.entity := by
  refine ext_getElem (by simp [size]) fun i h1 h2 => ?_
  have hi : i < p.entities.size := by simpa using h1
  simp [entity, Array.getD_eq_getD_getElem?, hi]

/-- Two pools with the same phases agree on which edges are out of date. -/
theorem satisfied_congr {q : Pool ν} (h : (q.entity d.target).phase = (p.entity d.target).phase) :
    q.satisfied d = p.satisfied d := by simp [satisfied, h]

theorem satisfied_iff : p.satisfied d = true ↔ d.phase.rank ≤ (p.entity d.target).phase.rank := by
  simp [satisfied]

theorem not_satisfied_iff : p.satisfied d = false ↔ (p.entity d.target).phase.rank < d.phase.rank := by
  simp [satisfied]

theorem countP_modify {α : Type} (P : α → Bool) (f : α → α) :
    ∀ (l : List α) (i : Nat) (h : i < l.length), P l[i] = false → P (f l[i]) = true →
      (l.modify i f).countP P = l.countP P + 1
  | x :: l, 0, _, hOld, hNew => by
    simp only [getElem_cons_zero] at hOld hNew
    simp [hOld, hNew]
  | x :: l, i + 1, h, hOld, hNew => by
    simp only [getElem_cons_succ] at hOld hNew
    have ih := countP_modify P f l i (by simpa using h) hOld hNew
    simp only [modify_succ_cons, countP_cons, ih]
    omega

/-- An entity that fails is counted. -/
theorem failedCount_update (hi : i < p.size) {f : Entity ν → Entity ν} (hOld : (p.entity i).failed = false)
    (hNew : (f (p.entity i)).failed = true) : (p.update i f).failedCount = p.failedCount + 1 := by
  have hLen : i < p.entities.toList.length := by simpa [size] using hi
  have hEntity : p.entity i = p.entities.toList[i] := by
    unfold entity
    rw [Array.getD_eq_getD_getElem?, Array.getElem?_eq_getElem (by simpa using hLen), Array.getElem_toList]
    rfl
  rw [hEntity] at hOld hNew
  unfold failedCount update
  rw [← Array.countP_toList, ← Array.countP_toList, Array.toList_modify]
  exact countP_modify _ f _ i hLen hOld hNew

theorem failedCount_eq_zero_iff {p : Pool ν} : p.failedCount = 0 ↔ ∀ i < p.size, (p.entity i).failed = false := by
  unfold failedCount entity size
  rw [Array.countP_eq_zero]
  constructor
  · intro h i hi
    have := h p.entities[i] (Array.getElem_mem hi)
    simpa [Array.getD_eq_getD_getElem?, hi] using this
  · intro h e he
    obtain ⟨i, hi, rfl⟩ := Array.getElem_of_mem he
    have := h i hi
    simpa [Array.getD_eq_getD_getElem?, hi] using this

/-! ## Requiring -/

/-- The three answers to a requirement: the target is there, it never will be, or it is waited for. -/
theorem require_cases {self target : Nat} (phase : Phase) (hSelf : self < p.size) (hTarget : target < p.size) :
    (p.satisfied ⟨target, phase⟩ = true ∧ p.require self target phase = .ok (p, .ok ())) ∨
    (p.satisfied ⟨target, phase⟩ = false ∧ (p.entity target).failed = true ∧
      ∃ f : Failure, f.cause? = some .dependency ∧ p.require self target phase = .ok (p, .error f)) ∨
    (p.satisfied ⟨target, phase⟩ = false ∧ (p.entity target).failed = false ∧
      ∃ f : Failure, f.cause? = some .yield ∧
        p.require self target phase = .ok (p.update self (·.need ⟨target, phase⟩), .error f)) := by
  unfold require need
  rw [position_natCast hTarget, position_natCast hSelf]
  by_cases hSat : phase ≤ (p.entity target).phase
  · left
    refine ⟨by simpa [satisfied] using hSat, ?_⟩
    simp [bind, Except.bind, hSat, pure, Except.pure]
  · right
    have hUnsat : p.satisfied ⟨target, phase⟩ = false := by simpa [satisfied] using hSat
    by_cases hFailed : (p.entity target).failed = true
    · left
      refine ⟨hUnsat, hFailed, .within s!"entity {target} ({(p.entity target).err.name})" (.known .dependency), rfl, ?_⟩
      simp only [bind, Except.bind, hSat, hFailed, pure, Except.pure, if_true, if_false]
    · right
      refine ⟨hUnsat, by simpa using hFailed, .within s!"wait for {target} to reach {phase.name}" (.known .yield), rfl, ?_⟩
      simp only [bind, Except.bind, hSat, hFailed, pure, Except.pure, if_false, Bool.false_eq_true]

/-- Nothing can be required of an entity that is not there. -/
theorem require_of_size_le {target : Nat} (self : Nat) (phase : Phase) (h : p.size ≤ target) :
    ∃ a, p.require self target phase = .error a := by
  have hPosition : ∃ a, p.position (target : Int) = .error a := by
    rw [position, if_neg (by omega)]
    exact ⟨_, rfl⟩
  obtain ⟨a, hPosition⟩ := hPosition
  exact ⟨a, by rw [require, hPosition]; rfl⟩

end Pool

end Comptime
