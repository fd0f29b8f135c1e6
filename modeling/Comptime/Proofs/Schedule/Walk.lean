import Comptime.Proofs.Schedule.WaitGraph

/-!
# What the walk over the wait-for graph knows

The invariant of the walk, `Walk.Sound`: a component that is complete is a strongly connected component of the graph,
its members have met their fate, and nothing leads out of it to an entity the walk has not come to. `Walk.Scanning` is
the same for an entity whose edges are being followed, `Walk.Visited` for one the walk has left again.
-/

namespace Comptime.Pool

open Relation Option

/-- `v` waits for `t`, directly or not. -/
abbrev Reaches {ν : Type} (p : Pool ν) : Nat → Nat → Prop := ReflTransGen p.Waits

namespace Walk

variable {ν : Type} {p : Pool ν} {w w' : Walk ν}
variable {i j v : Nat} {m : Mark}

/-! ## Marks -/

/-- The walk has come to the entity. -/
def Met (w : Walk ν) (i : Nat) : Prop := (w.mark? i).isSome

/-- The order in which the walk came to an entity. -/
def idx (w : Walk ν) (i : Nat) : Nat := ((w.mark? i).map Mark.index).getD 0

/-- The number of the component of an entity the walk has come to. -/
def component? (w : Walk ν) (i : Nat) : Option Nat := (w.mark? i).bind Mark.component

/-- The component of the entity is complete. -/
def Closed (w : Walk ν) (i : Nat) : Prop := (w.component? i).isSome

theorem not_met_iff : ¬ w.Met i ↔ w.mark? i = none := by simp [Met]

theorem met_of_mark (h : w.mark? i = some m) : w.Met i := by rw [Met, h]; rfl

theorem idx_of_mark (h : w.mark? i = some m) : w.idx i = m.index := by simp [idx, h]

theorem component?_of_mark (h : w.mark? i = some m) : w.component? i = m.component := by simp [component?, h]

theorem Closed.met (h : w.Closed i) : w.Met i := by
  unfold Closed component? at h
  unfold Met
  cases hm : w.mark? i with
  | none => simp [hm] at h
  | some m => rfl

theorem mark?_setMark (w : Walk ν) (i : Nat) (m : Mark) (j : Nat) :
    (w.setMark i m).mark? j = if i = j ∧ j < w.marks.size then some m else w.mark? j := by
  unfold setMark mark?
  simp only [Array.getD_eq_getD_getElem?, Array.getElem?_setIfInBounds]
  by_cases hij : i = j
  · subst hij
    by_cases hi : i < w.marks.size <;> simp [hi]
  · simp [hij]

theorem Met.lt_size (h : w.Met i) : i < w.marks.size := by
  by_contra hge
  unfold Met mark? at h
  simp [Array.getD_eq_getD_getElem?, Array.getElem?_eq_none (Nat.le_of_not_lt hge)] at h

/-- What is done to marks that are there changes neither which there are nor, if it leaves it alone, their order. -/
theorem met_of_map {f : Mark → Mark} (h : w'.mark? j = (w.mark? j).map f) : w'.Met j ↔ w.Met j := by
  rw [Met, Met, h, isSome_map]

theorem idx_of_map {f : Mark → Mark} (h : w'.mark? j = (w.mark? j).map f) (hf : ∀ m, (f m).index = m.index) :
    w'.idx j = w.idx j := by
  rw [idx, idx, h, Option.map_map]
  exact congrArg (getD · 0) (map_congr fun m _ => hf m)

variable (w)

theorem mark?_lower (v l j : Nat) :
    (w.lower v l).mark? j = (w.mark? j).map fun m => if v = j then { m with low := min m.low l } else m := by
  unfold lower
  cases hv : w.mark? v with
  | none =>
    by_cases hvj : v = j
    · subst hvj
      simp [hv]
    · simp [hvj]
  | some m =>
    simp only [mark?_setMark]
    by_cases hvj : v = j
    · subst hvj
      simp [(met_of_mark hv).lt_size, hv]
    · simp [hvj]

theorem mark?_lower_of_ne (h : j ≠ v) (l : Nat) : (w.lower v l).mark? j = w.mark? j := by
  rw [mark?_lower]
  cases w.mark? j with
  | none => rfl
  | some m => simp [Ne.symm h]

@[simp] theorem met_lower (v l j : Nat) : (w.lower v l).Met j ↔ w.Met j := met_of_map (mark?_lower w v l j)

@[simp] theorem idx_lower (v l j : Nat) : (w.lower v l).idx j = w.idx j :=
  idx_of_map (mark?_lower w v l j) fun m => by split <;> rfl

theorem component?_lower (v l : Nat) : (w.lower v l).component? = w.component? := by
  funext j
  rw [component?, component?, mark?_lower]
  cases w.mark? j with
  | none => rfl
  | some m => by_cases h : v = j <;> simp [h]

/-- Nothing but marks is lowered. -/
theorem exists_lower (v l : Nat) : ∃ marks, w.lower v l = { w with marks } ∧ marks.size = w.marks.size := by
  unfold lower
  split
  · exact ⟨_, rfl, Array.size_setIfInBounds ..⟩
  · exact ⟨_, rfl, rfl⟩

@[simp] theorem lower_pool (v l : Nat) : (w.lower v l).pool = w.pool := by
  unfold lower; split <;> rfl

@[simp] theorem lower_stack (v l : Nat) : (w.lower v l).stack = w.stack := by
  unfold lower; split <;> rfl

variable {w}

theorem mark?_enter (hv : v < w.marks.size) (j : Nat) :
    (w.enter v).mark? j =
      if v = j then some { index := w.counter, low := w.counter } else w.mark? j := by
  show (w.setMark v _).mark? j = _
  rw [mark?_setMark]
  by_cases hvj : v = j
  · subst hvj
    simp [hv]
  · simp [hvj]

/-- What the walk knew of the entities it had come to has not changed. -/
def Extends (w w' : Walk ν) : Prop := ∀ i, w.Met i → w'.mark? i = w.mark? i

namespace Extends

variable (h : Extends w w') (hi : w.Met i)

include h hi

theorem met : w'.Met i := by rwa [Met, h i hi]

theorem idx_eq : w'.idx i = w.idx i := by rw [idx, idx, h i hi]

theorem closed_iff : w'.Closed i ↔ w.Closed i := by rw [Closed, Closed, component?, component?, h i hi]

end Extends

/-! ## The invariant -/

/-- What holds of a walk over the graph of `p` between any two of its steps. -/
structure Sound (p : Pool ν) (w : Walk ν) : Prop where
  marks_size : w.marks.size = p.size
  pool_size : w.pool.size = p.size
  books : w.pool.books = p.books
  same : ∀ i, (w.pool.entity i).node = (p.entity i).node ∧ (w.pool.entity i).phase = (p.entity i).phase ∧
    (w.pool.entity i).deps = (p.entity i).deps
  open_eq : ∀ i, ¬ w.Closed i → w.pool.entity i = p.entity i
  err_closed : ∀ i, w.Closed i → (w.pool.entity i).err = p.fate i
  stack_iff : ∀ i, i ∈ w.stack ↔ w.Met i ∧ ¬ w.Closed i
  sorted : w.stack.Pairwise fun a b => w.idx b < w.idx a
  idx_lt : ∀ i, w.Met i → w.idx i < w.counter
  live : ∀ i, w.Met i → (p.entity i).failed = false
  closed_succ : ∀ i j, w.Closed i → p.Waits i j → w.Closed j
  comp_lt : ∀ i c, w.component? i = some c → c < w.components
  comp_iff : ∀ i j, w.Closed i → w.Closed j → (w.component? i = w.component? j ↔ p.Reaches i j ∧ p.Reaches j i)
  count : w.pool.failedCount = p.failedCount + w.failed

namespace Sound

theorem satisfied_eq (h : Sound p w) (d : Dep) : w.pool.satisfied d = p.satisfied d :=
  satisfied_congr (h.same _).2.1

/-- Whatever a closed entity reaches is closed. -/
theorem closed_of_reaches (h : Sound p w) (hi : w.Closed i) (hij : p.Reaches i j) : w.Closed j := by
  induction hij with
  | refl => exact hi
  | tail _ hedge ih => exact h.closed_succ _ _ ih hedge

/-- An entity the walk has come to is on the stack or closed. -/
theorem stack_or_closed (h : Sound p w) (hi : w.Met i) : i ∈ w.stack ∨ w.Closed i := by
  by_cases hc : w.Closed i
  · exact Or.inr hc
  · exact Or.inl ((h.stack_iff i).mpr ⟨hi, hc⟩)

theorem closed_of_met (h : Sound p w) (hStack : w.stack = []) (hi : w.Met i) : w.Closed i :=
  (h.stack_or_closed hi).resolve_left (hStack ▸ List.not_mem_nil)

theorem nodup (h : Sound p w) : w.stack.Nodup :=
  h.sorted.imp fun hab heq => by
    subst heq
    omega

/-- An entity was given up for a cycle before the walk, or the walk has found it doomed. -/
theorem isCyclic_iff (h : Sound p w) : (w.pool.entity i).err.isCyclic = true ↔
    (p.entity i).err.isCyclic = true ∨ w.Closed i ∧ p.Doomed i := by
  by_cases hc : w.Closed i
  · have hOk := Entity.not_failed_iff.mp (h.live i hc.met)
    rw [h.err_closed i hc, fate_isCyclic_iff, hOk]
    simp [hc, ErrorKind.isCyclic]
  · simp [h.open_eq i hc, hc]

/-- The invariant sees of the marks only when and where an entity was come to, not how low it reaches. -/
theorem lower (h : Sound p w) (v l : Nat) : Sound p (w.lower v l) := by
  have hMet : (w.lower v l).Met = w.Met := funext fun i => propext (met_lower w v l i)
  have hIdx : (w.lower v l).idx = w.idx := funext (idx_lower w v l)
  have hComp := component?_lower w v l
  have hClosed : (w.lower v l).Closed = w.Closed := by unfold Closed; rw [hComp]
  obtain ⟨marks, hLower, hSize⟩ := exists_lower w v l
  rw [hLower] at hMet hIdx hComp hClosed ⊢
  exact
    { h with
      marks_size := hSize.trans h.marks_size
      open_eq := hClosed ▸ h.open_eq
      err_closed := hClosed ▸ h.err_closed
      stack_iff := hMet ▸ hClosed ▸ h.stack_iff
      sorted := hIdx ▸ h.sorted
      idx_lt := hMet ▸ hIdx ▸ h.idx_lt
      live := hMet ▸ h.live
      closed_succ := hClosed ▸ h.closed_succ
      comp_lt := hComp ▸ h.comp_lt
      comp_iff := hClosed ▸ hComp ▸ h.comp_iff }

end Sound

end Walk

end Comptime.Pool
