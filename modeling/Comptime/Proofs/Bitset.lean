import Comptime.Bitset
import Mathlib.Data.Nat.Bitwise
import Mathlib.Order.Bounds.Basic

/-!
# What sets of small naturals hold

Membership after an insertion (`contains_insert`), `nextClear` as the least number from a bound on that is missing
(`nextClear_spec`), and the elements in increasing order (`mem_toList`, `increasing_toList`). Together they say that a set
is the set of the numbers added to it (`ofList_represents`).
-/

namespace Comptime

open List

namespace Bitset

variable {s : Bitset} {w : UInt64} {i j k n : Nat}

/-! ## Bits of a word -/

theorem toNat_toUInt64 (hj : j < 64) : j.toUInt64.toNat % 64 = j := by
  rw [UInt64.toNat_ofNat']
  omega

theorem bit_eq_testBit (hj : j < 64) : bit w j = w.toNat.testBit j := by
  rw [bit, Nat.testBit, Bool.eq_iff_iff, beq_iff_eq, bne_iff_ne, ← UInt64.toNat_inj, UInt64.toNat_and,
    UInt64.toNat_shiftRight, toNat_toUInt64 hj, Nat.and_comm]
  change 1 &&& _ = 1 ↔ _
  rw [Nat.one_and_eq_mod_two]
  omega

theorem bit_or_shift (hj : j < 64) (hk : k < 64) : bit (w ||| (1 <<< j.toUInt64)) k = (decide (k = j) || bit w k) := by
  have hOne : (1 <<< j.toUInt64 : UInt64).toNat = 2 ^ j := by
    rw [UInt64.toNat_shiftLeft, toNat_toUInt64 hj]
    change 1 <<< j % 2 ^ 64 = 2 ^ j
    rw [Nat.one_shiftLeft, Nat.mod_eq_of_lt (Nat.pow_lt_pow_right (by decide) hj)]
  rw [bit_eq_testBit hk, bit_eq_testBit hk, UInt64.toNat_or, hOne, Nat.testBit_or, Nat.testBit_two_pow, Bool.or_comm,
    decide_eq_decide.mpr eq_comm]

theorem bit_zero : bit 0 j = false := by
  rw [bit, UInt64.zero_shiftRight]
  rfl

/-! ## Insertion -/

theorem contains_eq : s.contains i = bit (s.data.toList.getD (i / 64) 0) (i % 64) := by
  rw [contains, Array.getD_eq_getD_getElem?, getD_eq_getElem?_getD, Array.getElem?_toList]

theorem getD_grow : (s.grow k).data.toList.getD n 0 = s.data.toList.getD n 0 := by
  have hPad : ∀ (d : Array UInt64) (m : Nat), (d ++ Array.replicate m 0).toList.getD n 0 = d.toList.getD n 0 := by
    intro d m
    rw [Array.toList_append, Array.toList_replicate, getD_eq_getElem?_getD, getD_eq_getElem?_getD,
      getElem?_append]
    split
    · rfl
    · next hGe =>
      rw [getElem?_replicate, getElem?_eq_none (Nat.not_lt.mp hGe)]
      split <;> rfl
  rw [grow]
  change getD (Array.toList (_ ++ Array.replicate _ 0)) n 0 = _
  rw [hPad]
  by_cases hEmpty : s.data.isEmpty
  · rw [if_pos hEmpty, Array.isEmpty_iff.mp hEmpty]
    cases n <;> rfl
  · rw [if_neg hEmpty]

theorem size_grow : k < (s.grow k).data.size := by
  rw [grow]
  change k < Array.size (_ ++ Array.replicate _ 0)
  rw [Array.size_append, Array.size_replicate]
  omega

theorem wordIdx_natCast : wordIdx (i : Int) = (i / 64 : Nat) := by
  rw [wordIdx, Int.tdiv_eq_ediv_of_nonneg (by omega)]
  omega

theorem bitIdx_natCast : bitIdx (i : Int) = (i % 64 : Nat) := by
  rw [bitIdx, Int.tmod_eq_emod_of_nonneg (by omega)]
  omega

theorem data_insert : (s.insert (i : Int)).1.data =
    (s.grow (i / 64)).data.modify (i / 64) (· ||| (1 <<< (i % 64).toUInt64)) := by
  rw [insert, if_neg (by omega), wordIdx_natCast, bitIdx_natCast, Int.toNat_natCast, Int.toNat_natCast]
  rfl

theorem contains_insert : (s.insert (i : Int)).1.contains n = (decide (n = i) || s.contains n) := by
  have hSize : i / 64 < (s.grow (i / 64)).data.toList.length := size_grow
  rw [contains_eq, contains_eq, ← getD_grow (s := s) (k := i / 64), data_insert, Array.toList_modify,
    getD_eq_getElem?_getD, getD_eq_getElem?_getD]
  by_cases hSame : n / 64 = i / 64
  · rw [hSame, getElem?_modify_eq, getElem?_eq_getElem hSize, Option.map_eq_map, Option.map_some, Option.getD_some,
      Option.getD_some, bit_or_shift (Nat.mod_lt _ (by decide)) (Nat.mod_lt _ (by decide))]
    congr 1
    rw [decide_eq_decide]
    omega
  · have hne : n ≠ i := fun h => hSame (by rw [h])
    rw [getElem?_modify_ne _ _ (fun h => hSame h.symm), decide_eq_false hne, Bool.false_or]

theorem contains_empty : ({} : Bitset).contains n = false := by
  rw [contains_eq]
  exact bit_zero

/-! ## The next number that is missing -/

theorem word_of_drop {ws : List UInt64} (hWords : s.data.toList.drop k = w :: ws) :
    s.data.toList[k]? = some w ∧ s.data.toList.drop (k + 1) = ws := by
  rw [← head?_drop, ← tail_drop, hWords]
  exact ⟨rfl, rfl⟩

/-- What `contains` says of a number whose word is known. -/
theorem contains_of_word (hWord : s.data.toList[k]? = some w) (hj : j < 64) : s.contains (64 * k + j) = bit w j := by
  have hDiv : (64 * k + j) / 64 = k := by omega
  have hMod : (64 * k + j) % 64 = j := by omega
  rw [contains_eq, hDiv, hMod, getD_eq_getElem?_getD, hWord, Option.getD_some]

/-- A number beyond the words is missing. -/
theorem contains_beyond (h : 64 * s.data.size ≤ i) : s.contains i = false := by
  rw [contains_eq, getD_eq_getElem?_getD, getElem?_eq_none]
  · exact bit_zero
  · rw [Array.length_toList]
    omega

/-- `r` is the first number from `m` on that is missing. -/
def FirstClear (s : Bitset) (m r : Nat) : Prop :=
  m ≤ r ∧ s.contains r = false ∧ ∀ x, m ≤ x → x < r → s.contains x = true

theorem FirstClear.after {m n r : Nat} (hFull : ∀ x, m ≤ x → x < n → s.contains x = true) (hle : m ≤ n)
    (h : s.FirstClear n r) : s.FirstClear m r := by
  obtain ⟨hLe, hMissing, hBelow⟩ := h
  refine ⟨hle.trans hLe, hMissing, fun x h1 h2 => ?_⟩
  rcases Nat.lt_or_ge x n with h | h
  · exact hFull x h1 h
  · exact hBelow x h h2

/-- What a search for a missing number from `m` on and below `n` has found. -/
def Found (s : Bitset) (m n : Nat) : Option Nat → Prop
  | some r => s.FirstClear m r
  | none => ∀ x, m ≤ x → x < n → s.contains x = true

/-- One search after the other. -/
theorem Found.or {m n p : Nat} {o o' : Option Nat} (h : s.Found m n o) (hLe : m ≤ n) (h' : s.Found n p o') :
    s.Found m p (o.or o') := by
  cases o with
  | some r => exact h
  | none =>
    cases o' with
    | some r => exact FirstClear.after h hLe h'
    | none => exact fun x h1 h2 => (Nat.lt_or_ge x n).elim (h x h1) fun h3 => h' x h3 h2

/-- A search of the rest of a word. -/
theorem clearBit?_found {p : Nat} (hWord : s.data.toList[k]? = some w) (hp : 64 * k + j + n = p) (hn : j + n ≤ 64) :
    s.Found (64 * k + j) p ((clearBit? w j n).map (64 * k + ·)) := by
  induction n generalizing j with
  | zero => exact fun x h1 h2 => absurd h2 (by omega)
  | succ n ih =>
    have hBit := contains_of_word hWord (j := j) (by omega)
    rw [clearBit?]
    split
    · next hSet =>
      have hFirst : s.Found (64 * k + j) (64 * k + (j + 1)) none := fun x h1 h2 => by
        rw [show x = 64 * k + j by omega, hBit, hSet]
      exact hFirst.or (by omega) (ih (by omega) (by omega))
    · next hClear => exact ⟨le_rfl, by rw [hBit]; simpa using hClear, fun x h1 h2 => absurd h1 (Nat.not_le.mpr h2)⟩

theorem clearFrom?_found {ws : List UInt64} (hWords : s.data.toList.drop k = ws) :
    s.Found (64 * k) (64 * s.data.size) (clearFrom? k ws) := by
  induction ws generalizing k with
  | nil =>
    have hLen : s.data.toList.length ≤ k := drop_eq_nil_iff.mp hWords
    rw [Array.length_toList] at hLen
    exact fun x h1 h2 => absurd h2 (by omega)
  | cons w ws ih =>
    obtain ⟨hWord, hRest⟩ := word_of_drop hWords
    have hEq : clearFrom? k (w :: ws) = ((clearBit? w 0 64).map (64 * k + ·)).or (clearFrom? (k + 1) ws) := by
      rw [clearFrom?]
      cases clearBit? w 0 64 <;> rfl
    rw [hEq]
    exact (clearBit?_found hWord rfl le_rfl).or (by omega) (ih hRest)

/-- `nextClear` is the least number not below a bound that is missing. -/
theorem nextClear_spec : s.FirstClear i (s.nextClear i) := by
  have hBeyond : s.contains (max i (64 * s.data.size)) = false := contains_beyond (Nat.le_max_right _ _)
  cases hWords : s.data.toList.drop (i / 64) with
  | nil =>
    have hLen : s.data.toList.length ≤ i / 64 := drop_eq_nil_iff.mp hWords
    rw [Array.length_toList] at hLen
    simp only [nextClear, hWords]
    exact ⟨Nat.le_max_left _ _, hBeyond, fun x h1 h2 => absurd h2 (by omega)⟩
  | cons w ws =>
    obtain ⟨hWord, hRest⟩ := word_of_drop hWords
    have hEq : s.nextClear i = (((clearBit? w (i % 64) (64 - i % 64)).map (64 * (i / 64) + ·)).or
        (clearFrom? (i / 64 + 1) ws)).getD (max i (64 * s.data.size)) := by
      simp only [nextClear, hWords]
      cases clearBit? w (i % 64) (64 - i % 64) <;> rfl
    have hWordFound := clearBit?_found (j := i % 64) (n := 64 - i % 64) (p := 64 * (i / 64 + 1)) hWord (by omega) (by omega)
    have hFound := hWordFound.or (by omega) (clearFrom?_found hRest)
    rw [Nat.div_add_mod] at hFound
    rw [hEq]
    generalize Option.or _ _ = found at hFound ⊢
    cases found with
    | some r => exact hFound
    | none => exact ⟨Nat.le_max_left _ _, hBeyond, fun x h1 h2 => hFound x h1 (by rw [Option.getD_none] at h2; omega)⟩

/-! ## The elements in order -/

theorem mem_wordElems {base x : Nat} : x ∈ wordElems base w ↔ ∃ j < 64, bit w j = true ∧ base + j = x := by
  simp only [wordElems, mem_map, mem_filter, mem_range, and_assoc]

theorem increasing_wordElems (base : Nat) (w : UInt64) : (wordElems base w).Pairwise (· < ·) := by
  rw [wordElems, pairwise_map]
  exact (pairwise_lt_range.filter _).imp fun h => Nat.add_lt_add_left h base

theorem mem_elemsFrom {ws : List UInt64} (hWords : s.data.toList.drop k = ws) {x : Nat} :
    x ∈ elemsFrom k ws ↔ 64 * k ≤ x ∧ s.contains x = true := by
  induction ws generalizing k with
  | nil =>
    have hLen : s.data.toList.length ≤ k := drop_eq_nil_iff.mp hWords
    rw [Array.length_toList] at hLen
    refine ⟨nofun, fun ⟨hLe, hIn⟩ => ?_⟩
    rw [contains_beyond (by omega)] at hIn
    cases hIn
  | cons w ws ih =>
    obtain ⟨hWord, hRest⟩ := word_of_drop hWords
    rw [elemsFrom, mem_append, mem_wordElems, ih hRest]
    constructor
    · rintro (⟨j, hj, hBit, rfl⟩ | ⟨hLe, hIn⟩)
      · exact ⟨Nat.le_add_right _ _, (contains_of_word hWord hj).trans hBit⟩
      · exact ⟨by omega, hIn⟩
    · rintro ⟨hLe, hIn⟩
      rcases Nat.lt_or_ge x (64 * (k + 1)) with hLt | hGe
      · obtain ⟨j, rfl⟩ := Nat.exists_eq_add_of_le hLe
        exact .inl ⟨j, by omega, (contains_of_word hWord (by omega)).symm.trans hIn, rfl⟩
      · exact .inr ⟨hGe, hIn⟩

theorem mem_toList {x : Nat} : x ∈ s.toList ↔ s.contains x = true := by
  rw [toList, mem_elemsFrom drop_zero]
  simp

theorem increasing_elemsFrom {ws : List UInt64} (hWords : s.data.toList.drop k = ws) :
    (elemsFrom k ws).Pairwise (· < ·) := by
  induction ws generalizing k with
  | nil => exact .nil
  | cons w ws ih =>
    obtain ⟨-, hRest⟩ := word_of_drop hWords
    rw [elemsFrom, pairwise_append]
    refine ⟨increasing_wordElems _ w, ih hRest, fun x hx y hy => ?_⟩
    obtain ⟨j, hj, -, rfl⟩ := mem_wordElems.mp hx
    obtain ⟨hLe, -⟩ := (mem_elemsFrom hRest).mp hy
    omega

theorem increasing_toList : s.toList.Pairwise (· < ·) := increasing_elemsFrom drop_zero

section Visiting

variable {σ : Type} {f : σ → Nat → σ × Bool}

/-- What a visitor has become after seeing a list. -/
def seen (f : σ → Nat → σ × Bool) (st : σ) (l : List Nat) : σ := l.foldl (fun st x => (f st x).1) st

/-- The visitor sees the list up to the first element it has had enough at, and that element too. -/
theorem visitList_eq_seen (l : List Nat) (st : σ) : ∃ shown rest, l = shown ++ rest ∧ visitList f st l = seen f st shown ∧
    (∀ xs x ys, shown = xs ++ x :: ys → ys ≠ [] → (f (seen f st xs) x).2 = true) ∧
    (rest ≠ [] → ∃ xs x, shown = xs ++ [x] ∧ (f (seen f st xs) x).2 = false) := by
  induction l generalizing st with
  | nil => exact ⟨[], [], rfl, rfl, fun xs x ys h => absurd h (by simp), fun h => absurd rfl h⟩
  | cons a l ih =>
    cases hf : f st a with
    | mk st' more =>
      have hFirst : (f st a).1 = st' := by rw [hf]
      cases more with
      | false =>
        refine ⟨[a], l, rfl, by rw [visitList, hf, seen, foldl_cons, foldl_nil, hFirst], fun xs x ys h hys => ?_,
          fun _ => ⟨[], a, rfl, by rw [seen, foldl_nil, hf]⟩⟩
        cases xs with
        | nil => exact absurd (cons.inj h).2.symm hys
        | cons y xs => exact absurd (cons.inj h).2 (by simp)
      | true =>
        have hSeen : ∀ xs, seen f st (a :: xs) = seen f st' xs := fun xs => by rw [seen, foldl_cons, hFirst, seen]
        obtain ⟨shown, rest, hl, hVisit, hGoes, hStops⟩ := ih st'
        refine ⟨a :: shown, rest, by rw [hl, cons_append], by rw [visitList, hf, hSeen, ← hVisit], fun xs x ys h hys => ?_,
          fun hRest => ?_⟩
        · cases xs with
          | nil => rw [← (cons.inj h).1, seen, foldl_nil, hf]
          | cons y xs =>
            obtain ⟨rfl, hShown⟩ := cons.inj h
            rw [hSeen]
            exact hGoes xs x ys hShown hys
        · obtain ⟨xs, x, h, hEnough⟩ := hStops hRest
          exact ⟨a :: xs, x, by rw [h, cons_append], by rw [hSeen, hEnough]⟩

end Visiting

/-! ## Sets of the numbers added -/

theorem contains?_natCast : s.contains? (i : Int) = .ok (s.contains i) := by
  rw [contains?, wordIdx_natCast, bitIdx_natCast, if_neg (by omega : ¬(i : Int) < 0), Int.toNat_natCast, Int.toNat_natCast]
  split
  · next hBeyond => rw [contains_beyond (by omega)]
  · rfl

theorem nextClear?_natCast : s.nextClear? (i : Int) = .ok (s.nextClear i : Int) := by
  rw [nextClear?, wordIdx_natCast, if_neg (by omega : ¬(i : Int) < 0), Int.toNat_natCast]
  split
  · next hBeyond =>
    have hNone : s.data.toList.drop (i / 64) = [] := by
      rw [drop_eq_nil_iff, Array.length_toList]
      omega
    simp only [nextClear, hNone]
    congr 1
    omega
  · rfl

/-- The set that holds the numbers of a list, added one after the other. -/
def ofList (xs : List Nat) : Bitset := xs.foldl (fun s (x : Nat) => (s.insert x).1) {}

theorem contains_ofList {xs : List Nat} : (ofList xs).contains n = decide (n ∈ xs) := by
  have hAdded : ∀ s : Bitset, (xs.foldl (fun s (x : Nat) => (s.insert x).1) s).contains n =
    (decide (n ∈ xs) || s.contains n) := by
    induction xs with
    | nil => simp
    | cons x xs ih =>
      intro s
      rw [foldl_cons, ih, contains_insert, ← Bool.or_assoc, Bool.or_comm (decide (n ∈ xs))]
      simp [mem_cons]
  rw [ofList, hAdded, contains_empty, Bool.or_false]

/-- A set that numbers were added to is the set of these numbers: for membership, for the next one that is missing, and for
a visitor, who is shown the elements in increasing order up to the first it has had enough at. -/
theorem ofList_represents (xs : List Nat) :
    (∀ i : Nat, (ofList xs).contains? i = .ok (decide (i ∈ xs))) ∧
    (∀ i : Nat, ∃ n : Nat, (ofList xs).nextClear? i = .ok (n : Int) ∧ IsLeast {x | i ≤ x ∧ x ∉ xs} n) ∧
    ∃ l : List Nat, l.Pairwise (· < ·) ∧ (∀ x, x ∈ l ↔ x ∈ xs) ∧ ∀ (σ : Type) (f : σ → Nat → σ × Bool) (st : σ),
      ∃ shown rest, l = shown ++ rest ∧ (ofList xs).visit f st = seen f st shown ∧
        (∀ ys y zs, shown = ys ++ y :: zs → zs ≠ [] → (f (seen f st ys) y).2 = true) ∧
        (rest ≠ [] → ∃ ys y, shown = ys ++ [y] ∧ (f (seen f st ys) y).2 = false) := by
  refine ⟨fun i => ?_, fun i => ⟨_, nextClear?_natCast, ?_⟩, (ofList xs).toList, increasing_toList, fun x => ?_,
    fun σ f st => visitList_eq_seen _ st⟩
  · rw [contains?_natCast, contains_ofList]
  · obtain ⟨hLe, hMissing, hBelow⟩ := (ofList xs).nextClear_spec (i := i)
    rw [contains_ofList, decide_eq_false_iff_not] at hMissing
    refine ⟨⟨hLe, hMissing⟩, fun x ⟨hx, hNot⟩ => Nat.not_lt.mp fun hLt => hNot ?_⟩
    have hIn := hBelow x hx hLt
    rwa [contains_ofList, decide_eq_true_iff] at hIn
  · rw [mem_toList, contains_ofList, decide_eq_true_iff]

end Bitset

end Comptime
