import Comptime.Bytecode.Stream
import Mathlib.Data.List.Nodup
import Mathlib.Data.List.Infix

/-!
# The layout of code under construction

The `layout` of a stream is its program order as it will be once every open insertion is committed: what is held back is
spliced in front of its anchor, the outermost insertion first. A `Sound` stream has every handle at one place of its layout
and knows the places of those in program order.

Emitting puts one handle into the layout, at the end or in front of the innermost anchor (`Sound.emit`). Committing does
not change the layout as long as no two open insertions have the same anchor (`Sound.commit`), so that the code that is
finally frozen is the layout (`Sound.layout_eq_order`).
-/

namespace Comptime

open List

namespace Stream

variable {h pos p : Nat} {ps : Array (Option Nat)}

/-! ## Splicing -/

/-- Handles put in front of an anchor. -/
def splice (a : Nat) (hs l : List Nat) : List Nat := l.takeWhile (· != a) ++ hs ++ l.dropWhile (· != a)

variable {a a' : Nat} {hs hs' l xs ys : List Nat}

theorem takeWhile_ne (h : a ∉ xs) : (xs ++ a :: ys).takeWhile (· != a) = xs := by
  have hBefore : ∀ x ∈ xs, (x != a) = true := fun x hx => bne_iff_ne.mpr (ne_of_mem_of_not_mem hx h)
  rw [takeWhile_append_of_pos hBefore]
  simp

theorem dropWhile_ne (h : a ∉ xs) : (xs ++ a :: ys).dropWhile (· != a) = a :: ys := by
  have hBefore : ∀ x ∈ xs, (x != a) = true := fun x hx => bne_iff_ne.mpr (ne_of_mem_of_not_mem hx h)
  rw [dropWhile_append_of_pos hBefore]
  simp

theorem splice_append (h : a ∉ xs) : splice a hs (xs ++ a :: ys) = xs ++ hs ++ a :: ys := by
  rw [splice, takeWhile_ne h, dropWhile_ne h]

theorem perm_splice : (splice a hs l).Perm (l ++ hs) := by
  rw [splice]
  calc (l.takeWhile (· != a) ++ hs ++ l.dropWhile (· != a)).Perm
        (l.takeWhile (· != a) ++ (l.dropWhile (· != a) ++ hs)) := by
        rw [append_assoc]
        exact List.Perm.append_left _ perm_append_comm
    _ = l ++ hs := by rw [← append_assoc, takeWhile_append_dropWhile]

theorem mem_splice {x : Nat} : x ∈ splice a hs l ↔ x ∈ l ∨ x ∈ hs := by
  rw [perm_splice.mem_iff, mem_append]

theorem nodup_splice : (splice a hs l).Nodup ↔ l.Nodup ∧ hs.Nodup ∧ List.Disjoint l hs := by
  rw [perm_splice.nodup_iff, nodup_append']

theorem splice_nil : splice a [] l = l := by
  rw [splice, append_nil, takeWhile_append_dropWhile]

/-- An element that stands once splits a list in one way. -/
theorem split_unique {us vs : List Nat} (hNodup : (xs ++ a :: ys).Nodup) (h : xs ++ a :: ys = us ++ a :: vs) :
    xs = us ∧ ys = vs := by
  have hx : a ∉ xs := fun hx => disjoint_of_nodup_append hNodup hx mem_cons_self
  have hy : a ∉ ys := (nodup_cons.mp hNodup.of_append_right).1
  obtain ⟨h1, -, h2⟩ := (append_cons_inj_of_notMem hx hy).mp h
  exact ⟨h1, h2⟩

theorem flatMap_of_notMem (h : a ∉ l) : (l.flatMap fun x => if x = a then hs ++ [x] else [x]) = l := by
  have hSame : ∀ x ∈ l, (if x = a then hs ++ [x] else [x]) = [x] := fun x hx => if_neg (ne_of_mem_of_not_mem hx h)
  rw [flatMap_congr hSame, flatMap_singleton']

/-- Splicing at an anchor that stands once replaces it. -/
theorem splice_eq_flatMap (hl : l.Nodup) (ha : a ∈ l) : splice a hs l = l.flatMap fun x => if x = a then hs ++ [x] else [x] := by
  obtain ⟨xs, ys, rfl, hx⟩ := eq_append_cons_of_mem ha
  have hy : a ∉ ys := (nodup_cons.mp hl.of_append_right).1
  rw [splice_append hx, flatMap_append, flatMap_cons, flatMap_of_notMem hx, flatMap_of_notMem hy, if_pos rfl]
  simp

/-- Two splices at different anchors. -/
theorem splice_comm (hne : a ≠ a') (ha : a ∈ l) (ha' : a' ∈ l) (hNodup : (splice a hs (splice a' hs' l)).Nodup) :
    (splice a hs l).Nodup ∧ splice a' hs' (splice a hs l) = splice a hs (splice a' hs' l) := by
  obtain ⟨hInner, hNew, hApart⟩ := nodup_splice.mp hNodup
  obtain ⟨hl, -, hHeld⟩ := nodup_splice.mp hInner
  have hIn : a ∉ hs' := fun h => hHeld ha h
  have hIn' : a' ∉ hs := fun h => hApart (mem_splice.mpr (.inl ha')) h
  have hOuter : (splice a hs l).Nodup := nodup_splice.mpr ⟨hl, hNew, fun x hx => hApart (mem_splice.mpr (.inl hx))⟩
  refine ⟨hOuter, ?_⟩
  rw [splice_eq_flatMap hOuter (mem_splice.mpr (.inl ha')), splice_eq_flatMap hInner (mem_splice.mpr (.inl ha)),
    splice_eq_flatMap hl ha, splice_eq_flatMap hl ha', flatMap_assoc, flatMap_assoc]
  refine flatMap_congr fun x _ => ?_
  by_cases hx : x = a
  · subst hx
    simp [flatMap_append, flatMap_of_notMem hIn', hne]
  · by_cases hx' : x = a'
    · subst hx'
      simp [flatMap_append, flatMap_of_notMem hIn, hx]
    · simp [hx, hx']

/-- Splicing at an anchor that is itself spliced in. -/
theorem splice_splice (ha : a ∈ hs') (hl : a ∉ l) (ha' : a' ∈ l) :
    splice a hs (splice a' hs' l) = splice a' (splice a hs hs') l := by
  obtain ⟨xs, ys, rfl, hx⟩ := eq_append_cons_of_mem ha'
  obtain ⟨us, vs, rfl, hu⟩ := eq_append_cons_of_mem ha
  have hxa : a ∉ xs := fun h => hl (mem_append_left _ h)
  rw [splice_append hx, splice_append hu, splice_append hx]
  calc splice a hs (xs ++ (us ++ a :: vs) ++ a' :: ys)
      = splice a hs ((xs ++ us) ++ a :: (vs ++ a' :: ys)) := by simp
    _ = (xs ++ us) ++ hs ++ a :: (vs ++ a' :: ys) := splice_append (by rw [mem_append]; tauto)
    _ = xs ++ (us ++ hs ++ a :: vs) ++ a' :: ys := by simp

/-! ## Layouts -/

/-- The program order with what insertions hold back spliced into it, the outermost one (the last) first. -/
def layoutOf (order : List Nat) (is : List Insertion) : List Nat :=
  is.foldr (fun i l => splice i.anchor i.held l) order

/-- The program order as it will be once every open insertion is committed. -/
def layout (s : Stream) : List Nat := layoutOf s.order s.insertions

def anchors (s : Stream) : List Nat := s.insertions.map (·.anchor)

/-- Every insertion has its anchor in the program order or in an insertion around it. -/
def Anchored (order : List Nat) : List Insertion → Prop
  | [] => True
  | i :: is => i.anchor ∈ layoutOf order is ∧ Anchored order is

variable {order order' : List Nat} {i : Insertion} {is is' : List Insertion} {s s' : Stream}

theorem layoutOf_cons : layoutOf order (i :: is) = splice i.anchor i.held (layoutOf order is) := rfl

/-- Nothing is lost or doubled by splicing. -/
theorem perm_layoutOf : (layoutOf order is).Perm (order ++ is.flatMap (·.held)) := by
  induction is with
  | nil => simp [layoutOf]
  | cons i is ih =>
    rw [layoutOf_cons, flatMap_cons]
    calc List.Perm (splice i.anchor i.held (layoutOf order is)) (layoutOf order is ++ i.held) := perm_splice
      List.Perm _ ((order ++ is.flatMap (·.held)) ++ i.held) := ih.append_right _
      List.Perm _ (order ++ (i.held ++ is.flatMap (·.held))) := by
        rw [append_assoc]
        exact List.Perm.append_left _ perm_append_comm

theorem mem_layoutOf : h ∈ layoutOf order is ↔ h ∈ order ∨ ∃ i ∈ is, h ∈ i.held := by
  rw [perm_layoutOf.mem_iff, mem_append, mem_flatMap]

/-- Splicing into the program order is splicing into the layout. -/
theorem layoutOf_splice (hAnchored : Anchored order is) (hNodup : (splice a hs (layoutOf order is)).Nodup)
    (ha : a ∈ order) (hOther : a ∉ is.map (·.anchor)) :
    layoutOf (splice a hs order) is = splice a hs (layoutOf order is) := by
  induction is with
  | nil => rfl
  | cons i is ih =>
    obtain ⟨hAnchor, hRest⟩ := hAnchored
    rw [map_cons, mem_cons, not_or] at hOther
    obtain ⟨hSub, hSwap⟩ := splice_comm hOther.1 (mem_layoutOf.mpr (.inl ha)) hAnchor hNodup
    rw [layoutOf_cons, layoutOf_cons, ih hRest hSub hOther.2, hSwap]

theorem Anchored.mono (hSub : order ⊆ order') (h : Anchored order is) : Anchored order' is := by
  induction is with
  | nil => trivial
  | cons i is ih => exact ⟨mem_layoutOf.mpr ((mem_layoutOf.mp h.1).imp_left fun hm => hSub hm), ih h.2⟩

theorem exists_spliceHeld? (hs : List Nat) (h : ∃ i ∈ is, a ∈ i.held) : ∃ is', spliceHeld? a hs is = some is' := by
  induction is with
  | nil => simp at h
  | cons i is ih =>
    by_cases ha : a ∈ i.held
    · exact ⟨_, by rw [spliceHeld?, splice?, if_pos ha]⟩
    · obtain ⟨j, hj, haj⟩ := h
      rcases mem_cons.mp hj with rfl | hj
      · exact absurd haj ha
      · obtain ⟨is', h'⟩ := ih ⟨j, hj, haj⟩
        exact ⟨i :: is', by rw [spliceHeld?, splice?, if_neg ha, h']; rfl⟩

/-- The insertion that holds the anchor is spliced into, and no other. -/
def Spliced (a : Nat) (hs : List Nat) (is is' : List Insertion) : Prop :=
  ∃ inner i outer xs ys, is = inner ++ i :: outer ∧ i.held = xs ++ a :: ys ∧
    is' = inner ++ { i with held := xs ++ hs ++ a :: ys } :: outer

theorem spliced_of_spliceHeld? (h : spliceHeld? a hs is = some is') : Spliced a hs is is' := by
  induction is generalizing is' with
  | nil => cases h
  | cons i is ih =>
    by_cases ha : a ∈ i.held
    · simp only [spliceHeld?, splice?, if_pos ha, Option.some.injEq] at h
      subst h
      obtain ⟨xs, ys, hHeld, hx⟩ := eq_append_cons_of_mem ha
      refine ⟨[], i, is, xs, ys, rfl, hHeld, ?_⟩
      rw [nil_append, hHeld, takeWhile_ne hx, dropWhile_ne hx]
    · simp only [spliceHeld?, splice?, if_neg ha, Option.map_eq_some_iff] at h
      obtain ⟨js, hjs, rfl⟩ := h
      obtain ⟨inner, j, outer, xs, ys, rfl, hHeld, rfl⟩ := ih hjs
      exact ⟨i :: inner, j, outer, xs, ys, rfl, hHeld, rfl⟩

theorem Spliced.mem (h : Spliced a hs is is') : ∃ i ∈ is, a ∈ i.held := by
  obtain ⟨inner, i, outer, xs, ys, rfl, hHeld, -⟩ := h
  exact ⟨i, by simp, by simp [hHeld]⟩

theorem Spliced.anchors (h : Spliced a hs is is') : is'.map (·.anchor) = is.map (·.anchor) := by
  obtain ⟨inner, i, outer, xs, ys, rfl, -, rfl⟩ := h
  simp

theorem Spliced.perm (h : Spliced a hs is is') :
    (is'.flatMap (·.held)).Perm (hs ++ is.flatMap (·.held)) := by
  obtain ⟨inner, i, outer, xs, ys, rfl, hHeld, rfl⟩ := h
  simp only [flatMap_append, flatMap_cons, hHeld]
  grind

theorem Spliced.anchored (hAnchored : Anchored order is) (h : Spliced a hs is is') : Anchored order is' := by
  obtain ⟨inner, i, outer, xs, ys, rfl, hHeld, rfl⟩ := h
  induction inner with
  | nil => exact hAnchored
  | cons j inner ih =>
    refine ⟨mem_layoutOf.mpr ((mem_layoutOf.mp hAnchored.1).imp_right ?_), ih hAnchored.2⟩
    rintro ⟨k, hk, hIn⟩
    rcases mem_append.mp hk with hk | hk
    · exact ⟨k, mem_append_left _ hk, hIn⟩
    rcases mem_cons.mp hk with rfl | hk
    · exact ⟨_, mem_append_right _ mem_cons_self, by rw [hHeld] at hIn; simp at hIn ⊢; tauto⟩
    · exact ⟨k, mem_append_right _ (mem_cons_of_mem _ hk), hIn⟩

/-- Splicing into the innermost insertion that holds the anchor is splicing into the layout. -/
theorem layoutOf_spliceHeld (hAnchored : Anchored order is) (hNodup : (splice a hs (layoutOf order is)).Nodup)
    (hOther : a ∉ is.map (·.anchor)) (h : spliceHeld? a hs is = some is') :
    layoutOf order is' = splice a hs (layoutOf order is) := by
  induction is generalizing is' with
  | nil => cases h
  | cons i is ih =>
    obtain ⟨hAnchor, hRest⟩ := hAnchored
    rw [map_cons, mem_cons, not_or] at hOther
    by_cases ha : a ∈ i.held
    · simp only [spliceHeld?, splice?, if_pos ha, Option.some.injEq] at h
      subst h
      obtain ⟨-, -, hHeld⟩ := nodup_splice.mp (nodup_splice.mp hNodup).1
      rw [layoutOf_cons, layoutOf_cons]
      exact (splice_splice ha (fun hIn => hHeld hIn ha) hAnchor).symm
    · simp only [spliceHeld?, splice?, if_neg ha, Option.map_eq_some_iff] at h
      obtain ⟨js, hjs, rfl⟩ := h
      have hIn : a ∈ layoutOf order is := mem_layoutOf.mpr (.inr (spliced_of_spliceHeld? hjs).mem)
      obtain ⟨hSub, hSwap⟩ := splice_comm hOther.1 hIn hAnchor hNodup
      rw [layoutOf_cons, layoutOf_cons, ih hRest hSub hOther.2 hjs, hSwap]

/-! ## Places -/

theorem size_renumber : (renumber pos l ps).size = ps.size := by
  induction l generalizing pos ps with
  | nil => rfl
  | cons h hs ih => rw [renumber, ih, Array.size_setIfInBounds]

/-- After renumbering a stretch its handles are placed one after the other, and the others are where they were. -/
theorem join_renumber (hNodup : l.Nodup) (hSize : ∀ x ∈ l, x < ps.size) : ((renumber pos l ps)[h]?).join = some p ↔
      (h ∉ l ∧ (ps[h]?).join = some p) ∨ ∃ j, l[j]? = some h ∧ p = pos + j := by
  induction l generalizing pos ps with
  | nil => simp [renumber]
  | cons x xs ih =>
    rw [nodup_cons] at hNodup
    have hx : x < ps.size := hSize x mem_cons_self
    rw [renumber, ih hNodup.2 (by
      rw [Array.size_setIfInBounds]
      exact fun y hy => hSize y (mem_cons_of_mem _ hy))]
    by_cases hEq : x = h
    · subst hEq
      -- a handle comes up once, so that its place is not overwritten later
      have hLater : ∀ j, xs[j]? ≠ some x := fun j hj => hNodup.1 (mem_of_getElem? hj)
      constructor
      · rintro (⟨-, hAt⟩ | ⟨j, hj, -⟩)
        · rw [Array.getElem?_setIfInBounds_self_of_lt hx] at hAt
          exact .inr ⟨0, rfl, (Option.some.inj hAt).symm⟩
        · exact absurd hj (hLater j)
      · rintro (⟨hNot, -⟩ | ⟨j, hj, rfl⟩)
        · exact absurd mem_cons_self hNot
        · cases j with
          | zero => exact .inl ⟨hNodup.1, by rw [Array.getElem?_setIfInBounds_self_of_lt hx]; rfl⟩
          | succ j => exact absurd hj (hLater j)
    · rw [Array.getElem?_setIfInBounds_ne hEq, mem_cons, not_or]
      constructor
      · rintro (⟨hNot, hAt⟩ | ⟨j, hj, rfl⟩)
        · exact .inl ⟨⟨fun e => hEq e.symm, hNot⟩, hAt⟩
        · exact .inr ⟨j + 1, hj, by omega⟩
      · rintro (⟨⟨-, hNot⟩, hAt⟩ | ⟨j, hj, rfl⟩)
        · exact .inl ⟨hNot, hAt⟩
        · cases j with
          | zero => exact absurd (Option.some.inj hj) hEq
          | succ j => exact .inr ⟨j, hj, by omega⟩

theorem join_push {v : Option Nat} : ((ps.push v)[h]?).join = some p ↔ (ps[h]?).join = some p ∨
    (h = ps.size ∧ v = some p) := by
  rw [Array.getElem?_push]
  split
  · next hEq => simp [hEq]
  · next hNe => simp [hNe]

theorem getElem?_concat_eq_some {n : Nat} : (l ++ [n])[p]? = some h ↔ l[p]? = some h ∨ (h = n ∧ p = l.length) := by
  rw [getElem?_append]
  split
  · next hLt => simp [Nat.ne_of_lt hLt]
  · next hGe =>
    rw [getElem?_eq_none (Nat.not_lt.mp hGe), getElem?_singleton]
    grind

theorem check_of_lt (hLt : h < s.handles) : s.check (h : Int) = .ok h := by
  rw [check, if_pos ⟨by omega, by exact_mod_cast hLt⟩]
  rfl

theorem check_eq_ok {a : Int} {k : Nat} (hRun : s.check a = .ok k) : a = k ∧ k < s.handles := by
  rw [check] at hRun
  split at hRun
  · cases hRun
    omega
  · cases hRun

/-- What is done with a handle is done with one that has been given out. -/
theorem check_bind_eq_ok {α : Type} {a : Int} {f : Nat → Except Misuse α} {r : α} (hRun : s.check a >>= f = .ok r) :
    ∃ k : Nat, a = k ∧ k < s.handles ∧ f k = .ok r := by
  obtain ⟨k, hCheck, hRun⟩ := Except.bind_eq_ok.mp hRun
  exact ⟨k, (check_eq_ok hCheck).1, (check_eq_ok hCheck).2, hRun⟩

theorem set_eq_ok {a : Int} {x : Instr} (hRun : s.set? a x = .ok s') :
    ∃ k : Nat, a = k ∧ k < s.handles ∧ s' = { s with code := s.code.setIfInBounds k x } := by
  obtain ⟨k, hk, hLt, hRun⟩ := check_bind_eq_ok hRun
  cases hRun
  exact ⟨k, hk, hLt, rfl⟩

theorem openBefore_eq_ok {a : Int} (hRun : s.openBefore? a = .ok s') :
    ∃ k : Nat, a = k ∧ k < s.handles ∧ s' = { s with insertions := ⟨k, []⟩ :: s.insertions } := by
  obtain ⟨k, hk, hLt, hRun⟩ := check_bind_eq_ok hRun
  cases hRun
  exact ⟨k, hk, hLt, rfl⟩

/-- A stream whose places and insertions are in order. -/
structure Sound (s : Stream) : Prop where
  size : s.places.size = s.handles
  place : ∀ h p, s.place h = some p ↔ s.order[p]? = some h
  nodup : s.layout.Nodup
  mem : ∀ h, h ∈ s.layout ↔ h < s.handles
  anchored : Anchored s.order s.insertions

theorem sound_empty : Sound {} where
  size := rfl
  place := by simp [Stream.place]
  nodup := nodup_nil
  mem := by simp [layout, layoutOf, handles]
  anchored := trivial

/-- Once nothing is held back the layout is the program order. -/
theorem layout_eq_order (h : s.insertions = []) : s.layout = s.order := by rw [layout, h]; rfl

/-- What is emitted next stands between `l` and `r`: at the end, or in front of the innermost anchor. -/
structure Cursor (s : Stream) (l r : List Nat) : Prop where
  layout : s.layout = l ++ r
  head : r.head? = s.anchors.head?

namespace Sound

variable {l r : List Nat} {x : Instr} (hSound : Sound s)

include hSound

theorem nodup_order : s.order.Nodup := (perm_layoutOf.nodup_iff.mp hSound.nodup).of_append_left

theorem lt_of_mem_order (hm : h ∈ s.order) : h < s.handles :=
  (hSound.mem h).mp (mem_layoutOf.mpr (.inl hm))

theorem placeOf_iff : s.placeOf? (h : Int) = .ok p ↔ s.order[p]? = some h := by
  rw [placeOf?]
  constructor
  · intro hRun
    obtain ⟨k, hk, -, hRun⟩ := check_bind_eq_ok hRun
    obtain rfl : h = k := by exact_mod_cast hk
    cases hPlace : s.place h with
    | none => simp only [hPlace] at hRun; cases hRun
    | some q =>
      simp only [hPlace] at hRun
      cases hRun
      exact (hSound.place h p).mp hPlace
  · intro hAt
    refine Except.bind_eq_ok.mpr ⟨h, check_of_lt (hSound.lt_of_mem_order (mem_of_getElem? hAt)), ?_⟩
    rw [(hSound.place h p).mpr hAt]
    rfl

/-- The place of a handle in program order is its position there. -/
theorem placeOf_eq {q : Nat} (hRun : s.placeOf? (h : Int) = .ok q) : q = s.order.idxOf h := by
  obtain ⟨hLt, rfl⟩ := List.getElem?_eq_some_iff.mp (hSound.placeOf_iff.mp hRun)
  exact (hSound.nodup_order.idxOf_getElem q hLt).symm

/-- A stream that differs by one new handle at one point of the layout. -/
theorem of_layout (hCode : s'.code = s.code.push x) (hLayout : s.layout = l ++ r)
    (hLayout' : s'.layout = l ++ [s.handles] ++ r)
    (hPlaces : s'.places.size = s'.handles) (hPlace : ∀ h p, s'.place h = some p ↔ s'.order[p]? = some h)
    (hAnchored : Anchored s'.order s'.insertions) : Sound s' where
  size := hPlaces
  place := hPlace
  nodup := by
    have hNew : s.handles ∉ l ++ r := by
      rw [← hLayout, hSound.mem]
      omega
    have hOld : (l ++ r).Nodup := hLayout ▸ hSound.nodup
    rw [hLayout']
    grind
  mem h := by
    have hOld := hSound.mem h
    have hHandles : s'.handles = s.handles + 1 := by rw [handles, hCode, Array.size_push, handles]
    rw [hLayout] at hOld
    rw [hLayout', hHandles]
    grind
  anchored := hAnchored

theorem emit (hCursor : Cursor s l r) :
    Sound (s.emit x).1 ∧ Cursor (s.emit x).1 (l ++ [s.handles]) r ∧ (s.emit x).1.code = s.code.push x ∧
      (s.emit x).1.anchors = s.anchors := by
  obtain ⟨hLayout, hHead⟩ := hCursor
  cases hi : s.insertions with
  | nil =>
    have hr : r = [] := by simpa [anchors, hi] using hHead
    subst hr
    have hOrder : s.order = l := by rw [← layout_eq_order hi, hLayout, append_nil]
    have hEmit : (s.emit x).1 = { s with code := s.code.push x, places := s.places.push (some s.len),
                                         order := s.order ++ [s.handles] } := by rw [Stream.emit, hi]
    have hLayout' : (s.emit x).1.layout = l ++ [s.handles] ++ [] := by
      rw [hEmit, layout_eq_order (by exact hi), hOrder, append_nil]
    refine ⟨hSound.of_layout (by rw [hEmit]) hLayout hLayout' ?_ ?_ ?_, ⟨hLayout', ?_⟩, by rw [hEmit], by rw [hEmit]; rfl⟩
    · have := hSound.size
      grind [handles]
    · intro h p
      have hOld := hSound.place h p
      rw [Stream.place] at hOld
      rw [hEmit, Stream.place, join_push, getElem?_concat_eq_some, hOld, hSound.size, Option.some.injEq, len,
        eq_comm (a := s.order.length)]
    · rw [hEmit, hi]
      trivial
    · rw [hEmit]
      simp [anchors, hi]
  | cons i is =>
    have hEmit : (s.emit x).1 = { s with code := s.code.push x, places := s.places.push none,
                                         insertions := { i with held := i.held ++ [s.handles] } :: is } := by
      rw [Stream.emit, hi]
    obtain ⟨hAnchor, hRest⟩ : Anchored s.order (i :: is) := hi ▸ hSound.anchored
    obtain ⟨r, rfl⟩ : ∃ t, r = i.anchor :: t := by
      cases r with
      | nil => simp [anchors, hi] at hHead
      | cons a t =>
        simp [anchors, hi] at hHead
        exact ⟨t, by rw [hHead]⟩
    -- the anchor stands once in the layout, so `l` ends with what is held
    obtain ⟨us, vs, hOuter, hu⟩ := eq_append_cons_of_mem hAnchor
    have hParts : us ++ i.held ++ i.anchor :: vs = l ++ i.anchor :: r := by
      rw [← hLayout, layout, hi, layoutOf_cons, hOuter, splice_append hu]
    have hNodup : (us ++ i.held ++ i.anchor :: vs).Nodup := by
      rw [hParts, ← hLayout]
      exact hSound.nodup
    obtain ⟨rfl, rfl⟩ := split_unique hNodup hParts
    have hLayout' : (s.emit x).1.layout = us ++ i.held ++ [s.handles] ++ i.anchor :: vs := by
      rw [hEmit, layout, layoutOf_cons, hOuter, splice_append hu]
      simp
    refine ⟨hSound.of_layout (by rw [hEmit]) hLayout hLayout' ?_ ?_ ?_, ⟨hLayout', ?_⟩, by rw [hEmit], ?_⟩
    · have := hSound.size
      grind [handles]
    · intro h p
      have hOld := hSound.place h p
      rw [Stream.place] at hOld
      rw [hEmit, Stream.place, join_push, hOld]
      simp
    · rw [hEmit]
      exact ⟨hAnchor, hRest⟩
    · rw [hEmit]
      rfl
    · rw [hEmit, anchors, anchors, hi]
      rfl

/-- Replacing an instruction moves nothing. -/
theorem set (hLt : h < s.handles) : ∃ s', s.set? h x = .ok s' ∧ Sound s' ∧ s'.layout = s.layout ∧ s'.anchors = s.anchors ∧
      s'.code = s.code.setIfInBounds h x := by
  refine ⟨{ s with code := s.code.setIfInBounds h x }, ?_, ?_, rfl, rfl, rfl⟩
  · rw [set?, check_of_lt hLt]
    rfl
  · have hHandles : handles { s with code := s.code.setIfInBounds h x } = s.handles := Array.size_setIfInBounds
    exact { hSound with size := hHandles ▸ hSound.size, mem := hHandles ▸ hSound.mem }

/-- Opening an insertion puts the cursor in front of its anchor. -/
theorem openBefore (hLayout : s.layout = l ++ a :: r) :
    ∃ s', s.openBefore? a = .ok s' ∧ Sound s' ∧ Cursor s' l (a :: r) ∧ s'.code = s.code ∧ s'.anchors = a :: s.anchors := by
  have hMem : a ∈ s.layout := by
    rw [hLayout]
    exact mem_append_right _ mem_cons_self
  have hLt : a < s.handles := (hSound.mem a).mp hMem
  have hSame : layout { s with insertions := ⟨a, []⟩ :: s.insertions } = s.layout := by
    rw [layout, layoutOf_cons, splice_nil, layout]
  refine ⟨{ s with insertions := ⟨a, []⟩ :: s.insertions }, ?_, ?_, ⟨by rw [hSame, hLayout], rfl⟩, rfl, rfl⟩
  · rw [openBefore?, check_of_lt hLt]
    rfl
  · exact { hSound with nodup := hSame ▸ hSound.nodup, mem := hSame ▸ hSound.mem, anchored := ⟨hMem, hSound.anchored⟩ }

omit hSound in
/-- Putting handles in front of the position of an anchor is splicing. -/
theorem insertAt_order {held : List Nat} (hNodup : s.order.Nodup) (hAt : s.order[pos]? = some a) :
    (s.insertAt pos held).order = splice a held s.order := by
  have hLt : pos < s.order.length := (List.getElem?_eq_some_iff.mp hAt).1
  have hSplit : s.order = s.order.take pos ++ a :: s.order.drop (pos + 1) := by
    rw [← (List.getElem?_eq_some_iff.mp hAt).2, ← drop_eq_getElem_cons hLt, take_append_drop]
  have hBefore : a ∉ s.order.take pos := fun h => disjoint_of_nodup_append (hSplit ▸ hNodup) h mem_cons_self
  have hDrop : s.order.drop pos = a :: s.order.drop (pos + 1) := by
    rw [← (List.getElem?_eq_some_iff.mp hAt).2, ← drop_eq_getElem_cons hLt]
  calc (s.insertAt pos held).order = s.order.take pos ++ held ++ a :: s.order.drop (pos + 1) := by
        rw [insertAt, hDrop, append_assoc]
    _ = splice a held (s.order.take pos ++ a :: s.order.drop (pos + 1)) := (splice_append hBefore).symm
    _ = splice a held s.order := by rw [← hSplit]

/-- The places after an insertion into the program order are the new positions. -/
theorem insertAt_place {held : List Nat} (hLe : pos ≤ s.order.length) (hLt : ∀ h ∈ held, h < s.handles)
    (hNodup : (s.insertAt pos held).order.Nodup) (h p : Nat) :
    (s.insertAt pos held).place h = some p ↔ (s.insertAt pos held).order[p]? = some h := by
  have hTail : (held ++ s.order.drop pos).Nodup := hNodup.of_append_right
  have hSize : ∀ x ∈ held ++ s.order.drop pos, x < s.places.size := by
    intro x hx
    rw [hSound.size]
    rcases mem_append.mp hx with hx | hx
    · exact hLt x hx
    · exact hSound.lt_of_mem_order (mem_of_mem_drop hx)
  have hLength : (s.order.take pos).length = pos := length_take_of_le hLe
  have hOld := hSound.place h
  rw [Stream.place] at hOld
  -- places before the insertion are left alone, and the others are numbered anew
  rw [Stream.place, insertAt, join_renumber hTail hSize, hOld, getElem?_append, hLength]
  split
  · next hp =>
    rw [getElem?_take_of_lt hp]
    constructor
    · rintro (⟨-, hAt⟩ | ⟨j, -, rfl⟩)
      · exact hAt
      · omega
    · intro hAt
      refine .inl ⟨fun hIn => ?_, hAt⟩
      have hTake : h ∈ s.order.take pos := mem_of_getElem? (by rw [getElem?_take_of_lt hp]; exact hAt)
      exact disjoint_of_nodup_append hNodup hTake hIn
  · next hp =>
    constructor
    · rintro (⟨hNot, hAt⟩ | ⟨j, hj, rfl⟩)
      · exact absurd (mem_append_right held (mem_of_getElem? (i := p - pos) (by
          rw [getElem?_drop, Nat.add_sub_cancel' (by omega)]
          exact hAt))) hNot
      · rwa [Nat.add_sub_cancel_left]
    · exact fun hAt => .inr ⟨p - pos, hAt, by omega⟩

/-- A stream with the same handles at other places. -/
theorem of_perm (hCode : s'.code = s.code) (hPerm : s'.layout.Perm s.layout) (hSize : s'.places.size = s.places.size)
    (hPlace : ∀ h p, s'.place h = some p ↔ s'.order[p]? = some h) (hAnchored : Anchored s'.order s'.insertions) :
    Sound s' where
  size := by rw [hSize, hSound.size, handles, handles, hCode]
  place := hPlace
  nodup := hPerm.nodup_iff.mpr hSound.nodup
  mem h := by rw [hPerm.mem_iff, hSound.mem, handles, handles, hCode]
  anchored := hAnchored

theorem held_lt (hi : i ∈ s.insertions) (hh : h ∈ i.held) : h < s.handles :=
  (hSound.mem h).mp (mem_layoutOf.mpr (.inr ⟨i, hi, hh⟩))

/-- What committing the innermost insertion does: what it holds goes into the program order in front of its anchor, or
into the insertion that holds the anchor. -/
theorem commit_cases (hTop : s.insertions = i :: is) : ∃ s', s.commit? = .ok s' ∧ Sound s' ∧ s'.code = s.code ∧
    ((∃ pos, s.order[pos]? = some i.anchor ∧ s'.order = s.order.take pos ++ i.held ++ s.order.drop pos ∧
        s'.insertions = is) ∨
      (i.anchor ∉ s.order ∧ s'.order = s.order ∧ spliceHeld? i.anchor i.held is = some s'.insertions)) := by
  obtain ⟨hAnchor, hRest⟩ : Anchored s.order (i :: is) := hTop ▸ hSound.anchored
  have hLayout : s.layout.Perm (s.order ++ (i.held ++ is.flatMap (·.held))) := by
    rw [layout, hTop]
    exact perm_layoutOf
  have hPlace : ∀ pos, Stream.place { s with insertions := is } i.anchor = some pos ↔ s.order[pos]? = some i.anchor :=
    hSound.place i.anchor
  have hOuter : i.anchor ∉ s.order → ∃ is', spliceHeld? i.anchor i.held is = some is' := fun hNot =>
    exists_spliceHeld? i.held ((mem_layoutOf.mp hAnchor).resolve_left hNot)
  rw [commit?, hTop]
  by_cases hEmpty : i.held.isEmpty
  · -- nothing is held, and putting nothing in front of the anchor changes nothing wherever it is
    have hNil : i.held = [] := List.isEmpty_iff.mp hEmpty
    refine ⟨{ s with insertions := is }, by simp only [hEmpty, if_true],
      hSound.of_perm rfl ?_ rfl hSound.place hRest, rfl, ?_⟩
    · rw [hNil, List.nil_append] at hLayout
      exact perm_layoutOf.trans hLayout.symm
    · by_cases hIn : i.anchor ∈ s.order
      · obtain ⟨pos, hPos⟩ := List.mem_iff_getElem?.mp hIn
        exact .inl ⟨pos, hPos, by rw [hNil, List.append_nil, List.take_append_drop], rfl⟩
      · obtain ⟨is', hSplice⟩ := hOuter hIn
        obtain ⟨inner, j, outer, xs, ys, rfl, hHeld, rfl⟩ := spliced_of_spliceHeld? hSplice
        refine .inr ⟨hIn, rfl, hSplice.trans ?_⟩
        rw [hNil, List.append_nil, ← hHeld]
  · simp only [hEmpty, Bool.false_eq_true, if_false]
    cases hAt : Stream.place { s with insertions := is } i.anchor with
    | some pos =>
      have hPos : s.order[pos]? = some i.anchor := (hPlace pos).mp hAt
      have hOrder : (s.insertAt pos i.held).order = s.order.take pos ++ i.held ++ s.order.drop pos := by
        rw [insertAt, List.append_assoc]
      have hPerm : (s.insertAt pos i.held).order.Perm (s.order ++ i.held) := by
        rw [hOrder, List.append_assoc]
        refine (List.perm_append_comm.append_left _).trans ?_
        rw [← List.append_assoc, List.take_append_drop]
      have hAll : (insertAt { s with insertions := is } pos i.held).layout.Perm s.layout := by
        refine (perm_layoutOf.trans (hPerm.append_right _)).trans ?_
        rw [List.append_assoc]
        exact hLayout.symm
      have hNew : (s.insertAt pos i.held).order.Nodup :=
        (perm_layoutOf.nodup_iff.mp (hAll.nodup_iff.mpr hSound.nodup)).of_append_left
      refine ⟨_, rfl, hSound.of_perm rfl hAll size_renumber ?_ ?_, rfl, .inl ⟨pos, hPos, hOrder, rfl⟩⟩
      · exact hSound.insertAt_place (Nat.le_of_lt (List.getElem?_eq_some_iff.mp hPos).1)
          (fun h hh => hSound.held_lt (hTop ▸ List.mem_cons_self) hh) hNew
      · exact hRest.mono fun x hx => hPerm.mem_iff.mpr (List.mem_append_left _ hx)
    | none =>
      have hNot : i.anchor ∉ s.order := fun hIn => by
        obtain ⟨pos, hPos⟩ := List.mem_iff_getElem?.mp hIn
        rw [(hPlace pos).mpr hPos] at hAt
        cases hAt
      obtain ⟨is', hSplice⟩ := hOuter hNot
      have hSpliced := spliced_of_spliceHeld? hSplice
      simp only [hSplice]
      refine ⟨_, rfl, hSound.of_perm rfl ?_ rfl hSound.place (hSpliced.anchored hRest), rfl, .inr ⟨hNot, rfl, rfl⟩⟩
      exact (perm_layoutOf.trans (hSpliced.perm.append_left _)).trans hLayout.symm

/-- Committing an insertion leaves the layout as it is, unless another open one has the same anchor. -/
theorem commit {as : List Nat} (hTop : s.anchors = a :: as) (hOther : a ∉ as) :
    ∃ s', s.commit? = .ok s' ∧ Sound s' ∧ s'.layout = s.layout ∧ s'.code = s.code ∧ s'.anchors = as := by
  obtain ⟨i, is, hi, rfl, rfl⟩ : ∃ i is, s.insertions = i :: is ∧ i.anchor = a ∧ is.map (·.anchor) = as :=
    map_eq_cons_iff.mp hTop
  obtain ⟨-, hRest⟩ : Anchored s.order (i :: is) := hi ▸ hSound.anchored
  have hLayout : s.layout = splice i.anchor i.held (layoutOf s.order is) := by rw [layout, hi, layoutOf_cons]
  have hNodup : (splice i.anchor i.held (layoutOf s.order is)).Nodup := hLayout ▸ hSound.nodup
  obtain ⟨s', hCommit, hSound', hCode, ⟨pos, hPos, hOrder, hRest'⟩ | ⟨-, hOrder, hSplice⟩⟩ := hSound.commit_cases hi
  · refine ⟨s', hCommit, hSound', ?_, hCode, by rw [anchors, hRest']⟩
    have hSplice : s'.order = splice i.anchor i.held s.order := by
      rw [hOrder, ← insertAt_order hSound.nodup_order hPos, insertAt, append_assoc]
    rw [layout, hRest', hSplice, layoutOf_splice hRest hNodup (mem_of_getElem? hPos) hOther, hLayout]
  · refine ⟨s', hCommit, hSound', ?_, hCode, (spliced_of_spliceHeld? hSplice).anchors⟩
    rw [layout, hOrder, layoutOf_spliceHeld hRest hNodup hOther hSplice, hLayout]

end Sound

end Stream

end Comptime
