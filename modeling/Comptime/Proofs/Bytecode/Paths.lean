import Comptime.Bytecode.Code
import Mathlib.Data.List.Chain
import Mathlib.Data.Set.Insert

/-!
# Paths through code

Where control can go from an instruction, feasible or not, and which registers are read and written on the way. `Safe`
looks a number of steps ahead; code that is safe however far one looks reads no register on any path that was not
written there before (`reads_of_path`).
-/

namespace Comptime

namespace Instr

/-- The registers an instruction reads. A jump tests nothing, and a return of nothing has no value. -/
def reads : Instr → List Reg
  | hole | imm .. | reserve .. | addr .. | region => []
  | bin _ _ _ l r => [l, r]
  | un _ _ _ _ src => [src]
  | load _ _ a _ => [a]
  | store _ a val _ => [a, val]
  | copy dst src _ _ => [dst, src]
  | fill dst val _ _ => [dst, val]
  | call _ _ target args => target :: args
  | branch test arms _ => if arms.isEmpty ∧ test = noReg then [] else [test]
  | ret ty val => if ty = .void ∧ val = noReg then [] else [val]

/-- The register an instruction writes, if it does. -/
def writes : Instr → List Reg
  | bin _ _ dst _ _ | un _ _ _ dst _ | imm _ dst _ | load _ dst _ _ | reserve dst _ _ | addr dst _ => [dst]
  | call _ dst _ _ => if dst = noReg then [] else [dst]
  | hole | store .. | copy .. | fill .. | branch .. | region | ret .. => []

/-- The targets of a branch. -/
def targets : Instr → List Handle
  | branch _ arms default => arms.map (·.target) ++ [default]
  | _ => []

end Instr

/-- Control can go from one position of the code to the other. -/
def Goes (code : Array Instr) (i j : Nat) : Prop :=
  ∃ x, code[i]? = some x ∧ (x.fallsThrough = true ∧ j = i + 1 ∨ (j : Int) ∈ x.targets)

instance (code : Array Instr) : DecidableRel (Goes code) := fun i j =>
  match hx : code[i]? with
  | none => .isFalse (by simp [Goes, hx])
  | some x => decidable_of_iff (x.fallsThrough = true ∧ j = i + 1 ∨ (j : Int) ∈ x.targets) (by simp [Goes, hx])

/-- Wherever control goes from a position in `n` steps, it reads nothing that is neither in `W` nor written on the way. -/
def Safe (code : Array Instr) : Nat → Set Reg → Nat → Prop
  | 0, _, _ => True
  | n + 1, W, i => ∀ x, code[i]? = some x →
    (∀ r ∈ x.reads, r ∈ W) ∧ ∀ j, Goes code i j → Safe code n (W ∪ {r | r ∈ x.writes}) j

variable {code : Array Instr} {W W' : Set Reg} {n i j : Nat} {x : Instr} {r : Reg} {l : List Nat}

namespace Safe

theorem mono (h : Safe code n W i) (hW : W ⊆ W') : Safe code n W' i := by
  induction n generalizing W W' i with
  | zero => trivial
  | succ n ih =>
    intro x hx
    obtain ⟨hReads, hNext⟩ := h x hx
    exact ⟨fun r hr => hW (hReads r hr), fun j hj => ih (hNext j hj) (Set.union_subset_union_left _ hW)⟩

theorem pred (h : Safe code (n + 1) W i) : Safe code n W i := by
  induction n generalizing W i with
  | zero => trivial
  | succ n ih =>
    intro x hx
    obtain ⟨hReads, hNext⟩ := h x hx
    exact ⟨hReads, fun j hj => ih (hNext j hj)⟩

/-- What is safe for a while is safe for a shorter while. -/
theorem le {m : Nat} (h : Safe code n W i) (hm : m ≤ n) : Safe code m W i := by
  induction hm with
  | refl => exact h
  | step _ ih => exact ih h.pred

end Safe

/-- Safe to be at after a step. -/
def SafeNext (code : Array Instr) (n : Nat) (W : Set Reg) (i : Nat) : Prop := ∀ m < n, Safe code m W i

theorem Safe.next (h : Safe code n W i) : SafeNext code n W i := fun _ hm => h.le hm.le

theorem SafeNext.mono (h : SafeNext code n W i) (hW : W ⊆ W') : SafeNext code n W' i := fun m hm => (h m hm).mono hW

theorem SafeNext.le {m : Nat} (h : SafeNext code n W i) (hm : m ≤ n) : SafeNext code m W i :=
  fun k hk => h k (hk.trans_le hm)

/-- An instruction is safe if what it reads is there and what may follow is safe. -/
theorem Safe.step (hx : code[i]? = some x) (hReads : ∀ r ∈ x.reads, r ∈ W)
    (hNext : ∀ j, Goes code i j → SafeNext code n (W ∪ {r | r ∈ x.writes}) j) : Safe code n W i := by
  cases n with
  | zero => trivial
  | succ n =>
    intro y hy
    obtain rfl : y = x := by rwa [hx, Option.some.injEq, eq_comm] at hy
    exact ⟨hReads, fun j hj => hNext j hj n n.lt_succ_self⟩

/-- The registers written at these positions. -/
def written (code : Array Instr) (l : List Nat) : Set Reg := {r | ∃ i ∈ l, ∃ x, code[i]? = some x ∧ r ∈ x.writes}

/-- **Nothing is read that was not written.** On a path from where code is safe, however far one looks. -/
theorem reads_of_path (hSafe : ∀ n, Safe code n W j) (hStart : (l ++ [i]).head? = some j)
    (hPath : (l ++ [i]).IsChain (Goes code)) (hx : code[i]? = some x) (hr : r ∈ x.reads) : r ∈ W ∪ written code l := by
  induction l generalizing W j with
  | nil =>
    obtain rfl : i = j := by simpa using hStart
    exact .inl ((hSafe 1 x hx).1 r hr)
  | cons a l ih =>
    obtain rfl : a = j := by simpa using hStart
    obtain ⟨b, hb⟩ : ∃ b, (l ++ [i]).head? = some b := by cases l <;> exact ⟨_, rfl⟩
    rw [List.cons_append, List.isChain_cons] at hPath
    have hGoes := hPath.1 b hb
    have ⟨y, hy, _⟩ := hGoes
    have hRest : ∀ n, Safe code n (W ∪ {r | r ∈ y.writes}) b := fun n => (hSafe (n + 1) y hy).2 b hGoes
    rcases ih hRest hb hPath.2 with (hW | hNew) | ⟨c, hc, hWritten⟩
    · exact .inl hW
    · exact .inr ⟨a, List.mem_cons_self, y, hy, hNew⟩
    · exact .inr ⟨c, List.mem_cons_of_mem _ hc, hWritten⟩

end Comptime
