import Comptime.Lowering.Registers
import Comptime.Proofs.Bitset

/-!
# Which registers are handed out

A register that is handed out is neither below the free ones nor permanent (`alloc_free`), and one that becomes permanent
has never been used (`keeps_allocPermanent`). `Grows` is what both leave alone: no register that has been in use becomes
permanent later.
-/

namespace Comptime

namespace Registers

variable {s s' s'' : Registers} {r : Nat}

/-- The register is in use until the end of the procedure. -/
def Keeps (s : Registers) (r : Nat) : Prop := s.permanent.contains r = true

structure Sound (s : Registers) : Prop where
  next_le : s.next ≤ s.high
  lt_high : ∀ r, s.Keeps r → r < s.high

/-- What is known of the registers at a later point. -/
structure Grows (s s' : Registers) : Prop where
  high : s.high ≤ s'.high
  keeps : ∀ r, s.Keeps r → s'.Keeps r
  fresh : ∀ r, r < s.high → s'.Keeps r → s.Keeps r

theorem Grows.refl : Grows s s := ⟨le_refl _, fun _ h => h, fun _ _ h => h⟩

theorem Grows.trans (h : Grows s s') (h' : Grows s' s'') : Grows s s'' where
  high := h.high.trans h'.high
  keeps r hr := h'.keeps r (h.keeps r hr)
  fresh r hlt hr := h.fresh r hlt (h'.fresh r (hlt.trans_le h.high) hr)

/-! ## The next free register -/

theorem alloc_free (s : Registers) : s.next ≤ s.alloc.2 ∧ ¬ s.Keeps s.alloc.2 := by
  have hSpec := s.permanent.nextClear_spec (i := s.next)
  exact ⟨hSpec.1, fun h => by rw [Keeps, alloc, hSpec.2.1] at h; cases h⟩

theorem alloc_lt_high (s : Registers) : s.alloc.2 < s.alloc.1.high :=
  (Nat.lt_succ_self _).trans_le (Nat.le_max_right _ _)

theorem Sound.alloc (hs : Sound s) : Sound s.alloc.1 where
  next_le := Nat.le_max_right _ _
  lt_high r hr := (hs.lt_high r hr).trans_le (Nat.le_max_left _ _)

theorem grows_alloc : Grows s s.alloc.1 := ⟨Nat.le_max_left _ _, fun _ h => h, fun _ _ h => h⟩

/-! ## Permanent registers -/

theorem keeps_keep {n : Nat} : (s.keep n).Keeps r ↔ r = n ∨ s.Keeps r := by
  rw [Keeps, keep, Bitset.contains_insert, Bool.or_eq_true, decide_eq_true_eq, Keeps]

theorem keeps_allocPermanent : s.allocPermanent.1.Keeps r ↔ r = s.high ∨ s.Keeps r := keeps_keep

theorem Sound.keep {n : Nat} (hs : Sound s) (hn : n < s.high) : Sound (s.keep n) where
  next_le := hs.next_le
  lt_high r hr := (keeps_keep.mp hr).elim (fun h => h ▸ hn) (hs.lt_high r)

theorem Sound.allocPermanent (hs : Sound s) : Sound s.allocPermanent.1 where
  next_le := hs.next_le.trans (Nat.le_succ _)
  lt_high r hr := (keeps_allocPermanent.mp hr).elim (fun h => h ▸ Nat.lt_succ_self _)
    fun h => (hs.lt_high r h).trans (Nat.lt_succ_self _)

theorem grows_allocPermanent : Grows s s.allocPermanent.1 where
  high := Nat.le_succ _
  keeps _ hr := keeps_allocPermanent.mpr (.inr hr)
  fresh _ hlt hr := (keeps_allocPermanent.mp hr).resolve_left (Nat.ne_of_lt hlt)

/-! ## The end of a statement -/

theorem Sound.held {n : Nat} (hs : Sound s) : Sound { s with hold := n } := ⟨hs.next_le, hs.lt_high⟩

theorem grows_held {n : Nat} : Grows s { s with hold := n } := ⟨le_refl _, fun _ h => h, fun _ _ h => h⟩

theorem Sound.reclaim (hs : Sound s) : Sound s.reclaim := by
  rw [Registers.reclaim]
  split
  · refine ⟨?_, hs.lt_high⟩
    -- the first register that was never used is missing from the permanent ones
    have hSpec := s.permanent.nextClear_spec (i := 0)
    by_contra hLt
    exact Nat.lt_irrefl _ (hs.lt_high _ (hSpec.2.2 s.high (Nat.zero_le _) (Nat.not_le.mp hLt)))
  · exact hs

theorem grows_reclaim : Grows s s.reclaim := by
  rw [reclaim]
  split
  · exact ⟨le_refl _, fun _ h => h, fun _ _ h => h⟩
  · exact .refl

theorem hold_reclaim : s.reclaim.hold = s.hold := by
  rw [reclaim]
  split <;> rfl

theorem high_reclaim : s.reclaim.high = s.high := by
  rw [reclaim]
  split <;> rfl

theorem reclaim_of_hold (h : s.hold ≠ 0) : s.reclaim = s := if_neg h

end Registers

end Comptime
