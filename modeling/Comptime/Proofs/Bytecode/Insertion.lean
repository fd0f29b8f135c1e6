import Comptime.Proofs.Bytecode.Layout
import Mathlib.Data.List.Flatten
import Mathlib.Data.List.Pairwise

/-!
# Editing code under construction

A stream keeps its handles in `sequences`: the program order, and one for every open insertion. Whatever is emitted,
replaced, opened and committed, every handle stays in exactly one of them, the table of places agrees with the program
order, and a commit finds its anchor (`edits_keep_sequences`). An edit only ever makes a sequence longer or joins two, so
that handles which once stood in one sequence keep their order for good (`Onward`).
-/

namespace Comptime

open List

namespace Stream

/-! ## Edits -/

/-- An operation on code under construction. -/
inductive Edit where
  | emit (x : Instr)
  | set (h : Int) (x : Instr)
  | openBefore (anchor : Int)
  | commit
deriving DecidableEq, Repr

def edit? (s : Stream) : Edit → Except Misuse Stream
  | .emit x => .ok (s.emit x).1
  | .set h x => s.set? h x
  | .openBefore anchor => s.openBefore? anchor
  | .commit => s.commit?

/-- Edits one after the other, up to the first misuse. -/
def editAll? (s : Stream) : List Edit → Except Misuse Stream
  | [] => .ok s
  | e :: es => s.edit? e >>= fun s => s.editAll? es

/-- The program order, and what each open insertion holds. -/
def sequences (s : Stream) : List (List Nat) := s.order :: s.insertions.map (·.held)

/-- Two handles stand in one sequence, the first of them earlier. -/
def Precedes (s : Stream) (h k : Nat) : Prop := ∃ l ∈ s.sequences, [h, k].Sublist l

instance (s : Stream) (h k : Nat) : Decidable (s.Precedes h k) :=
  inferInstanceAs (Decidable (∃ l ∈ s.sequences, [h, k].Sublist l))

/-- Every sequence of `s` lives on inside one of `s'`, in the same order. -/
def Onward (s s' : Stream) : Prop := ∀ l ∈ s.sequences, ∃ l' ∈ s'.sequences, l.Sublist l'

variable {s s' s'' : Stream} {e : Edit} {es : List Edit} {i : Insertion} {is : List Insertion} {h k p pos : Nat}

theorem Onward.refl : Onward s s := fun l hl => ⟨l, hl, .refl l⟩

theorem Onward.trans (h1 : Onward s s') (h2 : Onward s' s'') : Onward s s'' := by
  intro l hl
  obtain ⟨l', hl', hSub⟩ := h1 l hl
  obtain ⟨l'', hl'', hSub'⟩ := h2 l' hl'
  exact ⟨l'', hl'', hSub.trans hSub'⟩

theorem Onward.precedes (hOn : Onward s s') (hBefore : s.Precedes h k) : s'.Precedes h k := by
  obtain ⟨l, hl, hSub⟩ := hBefore
  obtain ⟨l', hl', hSub'⟩ := hOn l hl
  exact ⟨l', hl', hSub.trans hSub'⟩

/-! ## What an edit keeps -/

theorem onward_emit {x : Instr} : Onward s (s.emit x).1 := by
  intro l hl
  cases hi : s.insertions with
  | nil =>
    rw [sequences, hi, map_nil, mem_singleton] at hl
    refine ⟨s.order ++ [s.handles], ?_, hl ▸ sublist_append_left _ _⟩
    rw [Stream.emit, hi]
    exact mem_cons_self
  | cons i is =>
    have hEmit : (s.emit x).1.sequences = s.order :: (i.held ++ [s.handles]) :: is.map (·.held) := by
      rw [Stream.emit, hi]
      rfl
    rw [sequences, hi, map_cons, mem_cons, mem_cons] at hl
    rw [hEmit]
    rcases hl with rfl | rfl | hl
    · exact ⟨_, mem_cons_self, .refl _⟩
    · exact ⟨_, mem_cons_of_mem _ mem_cons_self, sublist_append_left _ _⟩
    · exact ⟨l, mem_cons_of_mem _ (mem_cons_of_mem _ hl), .refl _⟩

/-- A commit into the program order joins two sequences. -/
theorem onward_insert (hTop : s.insertions = i :: is)
    (hOrder : s'.order = s.order.take pos ++ i.held ++ s.order.drop pos) (hRest : s'.insertions = is) : Onward s s' := by
  intro l hl
  rw [sequences, hTop, map_cons, mem_cons, mem_cons] at hl
  rw [sequences, hOrder, hRest]
  rcases hl with rfl | rfl | hl
  · refine ⟨_, mem_cons_self, ?_⟩
    have hJoin : (s.order.take pos ++ s.order.drop pos).Sublist (s.order.take pos ++ i.held ++ s.order.drop pos) :=
      (sublist_append_left _ _).append_right _
    rwa [take_append_drop] at hJoin
  · exact ⟨_, mem_cons_self, (sublist_append_right _ _).trans (sublist_append_left _ _)⟩
  · exact ⟨l, mem_cons_of_mem _ hl, .refl _⟩

/-- A commit into another insertion joins two sequences. -/
theorem onward_spliced (hTop : s.insertions = i :: is) (hOrder : s'.order = s.order)
    (hSpliced : Spliced i.anchor i.held is s'.insertions) : Onward s s' := by
  obtain ⟨inner, j, outer, xs, ys, rfl, hHeld, hInsertions⟩ := hSpliced
  intro l hl
  rw [sequences, hTop] at hl
  rw [sequences, hOrder, hInsertions]
  simp only [map_cons, map_append, mem_cons, mem_append] at hl ⊢
  have hIn : ∃ l' ∈ s.order :: (inner.map (·.held) ++ (xs ++ i.held ++ i.anchor :: ys) :: outer.map (·.held)),
      l.Sublist l' := by
    rcases hl with rfl | rfl | hl | rfl | hl
    · exact ⟨_, mem_cons_self, .refl _⟩
    · exact ⟨xs ++ i.held ++ i.anchor :: ys, by simp,
        (sublist_append_right _ _).trans (sublist_append_left _ _)⟩
    · exact ⟨l, by simp [hl], .refl _⟩
    · exact ⟨xs ++ i.held ++ i.anchor :: ys, by simp, hHeld ▸ (sublist_append_left _ _).append_right _⟩
    · exact ⟨l, by simp [hl], .refl _⟩
  simpa using hIn

theorem not_sublist_swap {l : List Nat} (hNodup : l.Nodup) (hSub : [h, k].Sublist l) : ¬ [k, h].Sublist l := by
  induction l with
  | nil => cases hSub
  | cons x l ih =>
    rw [nodup_cons] at hNodup
    intro hSub'
    cases hSub with
    | cons _ hRest =>
      cases hSub' with
      | cons _ hRest' => exact ih hNodup.2 hRest hRest'
      | cons_cons _ hRest' => exact hNodup.1 (hRest.subset (by simp))
    | cons_cons _ hRest =>
      cases hSub' with
      | cons _ hRest' => exact hNodup.1 (hRest'.subset (by simp))
      | cons_cons _ hRest' => exact hNodup.1 (hRest.subset (by simp))

namespace Sound

variable (hSound : Sound s)

include hSound

theorem exists_cursor : ∃ l r, Cursor s l r := by
  cases hi : s.insertions with
  | nil => exact ⟨s.layout, [], by rw [append_nil], by rw [anchors, hi]; rfl⟩
  | cons i is =>
    obtain ⟨hAnchor, -⟩ : Anchored s.order (i :: is) := hi ▸ hSound.anchored
    have hIn : i.anchor ∈ s.layout := by
      rw [layout, hi, layoutOf_cons]
      exact mem_splice.mpr (.inl hAnchor)
    obtain ⟨l, r, hLayout, -⟩ := eq_append_cons_of_mem hIn
    exact ⟨l, i.anchor :: r, hLayout, by rw [anchors, hi]; rfl⟩

/-- An edit that succeeds keeps the stream sound and every sequence in order. -/
theorem edit (hRun : s.edit? e = .ok s') : Sound s' ∧ Onward s s' := by
  cases e with
  | emit x =>
    cases hRun
    obtain ⟨l, r, hCursor⟩ := hSound.exists_cursor
    exact ⟨(hSound.emit hCursor).1, onward_emit⟩
  | set a x =>
    obtain ⟨k, rfl, hk, rfl⟩ := set_eq_ok hRun
    obtain ⟨s', hSet, hSound', -⟩ := hSound.set (x := x) hk
    cases hSet.symm.trans hRun
    exact ⟨hSound', .refl⟩
  | openBefore a =>
    obtain ⟨k, rfl, hk, rfl⟩ := openBefore_eq_ok hRun
    obtain ⟨l, r, hLayout, -⟩ := eq_append_cons_of_mem ((hSound.mem k).mpr hk)
    obtain ⟨s', hOpen, hSound', -⟩ := hSound.openBefore hLayout
    cases hOpen.symm.trans hRun
    refine ⟨hSound', fun l hl => ⟨l, ?_, .refl _⟩⟩
    rw [sequences, mem_cons] at hl ⊢
    exact hl.imp_right (mem_cons_of_mem _)
  | commit =>
    cases hTop : s.insertions with
    | nil => rw [edit?, commit?, hTop] at hRun; cases hRun
    | cons i is =>
      obtain ⟨t, hCommit, hSound', -, hCases⟩ := hSound.commit_cases hTop
      cases hCommit.symm.trans hRun
      rcases hCases with ⟨pos, -, hOrder, hRest⟩ | ⟨-, hOrder, hSplice⟩
      · exact ⟨hSound', onward_insert hTop hOrder hRest⟩
      · exact ⟨hSound', onward_spliced hTop hOrder (spliced_of_spliceHeld? hSplice)⟩

theorem edit_ne_lostAnchor {a : Nat} : s.edit? e ≠ .error (.lostAnchor a) := by
  have hCheck : ∀ b, s.check b ≠ .error (.lostAnchor a) := by
    intro b hRun
    rw [check] at hRun
    split at hRun <;> cases hRun
  intro hRun
  cases e with
  | emit x => cases hRun
  | set b x =>
    rw [edit?, set?] at hRun
    cases hAt : s.check b <;> rw [hAt] at hRun <;> cases hRun
    exact hCheck b hAt
  | openBefore b =>
    rw [edit?, openBefore?] at hRun
    cases hAt : s.check b <;> rw [hAt] at hRun <;> cases hRun
    exact hCheck b hAt
  | commit =>
    cases hTop : s.insertions with
    | nil => rw [edit?, commit?, hTop] at hRun; cases hRun
    | cons i is =>
      obtain ⟨t, hCommit, -⟩ := hSound.commit_cases hTop
      rw [edit?, hCommit] at hRun
      cases hRun

/-- A run of edits that succeeds keeps the stream sound and every sequence in order. -/
theorem editAll (hRun : s.editAll? es = .ok s') : Sound s' ∧ Onward s s' := by
  induction es generalizing s with
  | nil =>
    cases hRun
    exact ⟨hSound, .refl⟩
  | cons e es ih =>
    obtain ⟨t, hEdit, hRun⟩ := Except.bind_eq_ok.mp hRun
    obtain ⟨hSound', hOn⟩ := hSound.edit hEdit
    obtain ⟨hSound'', hOn'⟩ := ih hSound' hRun
    exact ⟨hSound'', hOn.trans hOn'⟩

theorem editAll_ne_lostAnchor {a : Nat} : s.editAll? es ≠ .error (.lostAnchor a) := by
  induction es generalizing s with
  | nil => exact nofun
  | cons e es ih =>
    intro hRun
    rw [editAll?] at hRun
    cases hEdit : s.edit? e with
    | error m =>
      rw [hEdit] at hRun
      cases hRun
      exact hSound.edit_ne_lostAnchor hEdit
    | ok t =>
      rw [hEdit] at hRun
      exact ih (hSound.edit hEdit).1 hRun

/-! ## Handles and their places -/

/-- The sequences hold every handle exactly once. -/
theorem perm_sequences : s.sequences.flatten.Perm (range s.handles) := by
  have hLayout : s.layout.Perm s.sequences.flatten := by
    rw [sequences, flatten_cons, ← flatMap_def]
    exact perm_layoutOf
  refine hLayout.symm.trans ((perm_ext_iff_of_nodup hSound.nodup nodup_range).mpr fun h => ?_)
  rw [hSound.mem, mem_range]

/-- Two handles of one sequence have one order. -/
theorem precedes_asymm (hBefore : s.Precedes h k) : ¬ s.Precedes k h := by
  rintro ⟨l', hl', hSub'⟩
  obtain ⟨l, hl, hSub⟩ := hBefore
  have hNodup : s.sequences.flatten.Nodup := hSound.perm_sequences.nodup_iff.mpr nodup_range
  obtain ⟨hEach, hApart⟩ := nodup_flatten.mp hNodup
  have hSame : l = l' := by
    by_contra hNe
    have : Std.Symm (List.Disjoint (α := Nat)) := ⟨fun _ _ h => disjoint_comm.mp h⟩
    have hDisjoint : List.Disjoint l l' := hApart.forall hl hl' hNe
    exact hDisjoint (hSub.subset mem_cons_self) (hSub'.subset (by simp))
  subst hSame
  exact not_sublist_swap (hEach l hl) hSub hSub'

/-- Handles in front of an insertion keep their place, the others move by its length. -/
theorem placeOf_insert (hSound' : Sound s') (hLe : pos ≤ s.order.length)
    (hOrder : s'.order = s.order.take pos ++ i.held ++ s.order.drop pos) (hPlace : s.placeOf? h = .ok p) :
    s'.placeOf? h = .ok (if p < pos then p else p + i.held.length) := by
  rw [hSound.placeOf_iff] at hPlace
  have hLength : (s.order.take pos).length = pos := length_take_of_le hLe
  rw [hSound'.placeOf_iff, hOrder]
  split
  · next hLt => rw [append_assoc, getElem?_append_left (by omega), getElem?_take_of_lt hLt, hPlace]
  · next hGe =>
    rw [getElem?_append_right (by rw [length_append]; omega), getElem?_drop, length_append, hLength,
      show pos + (p + i.held.length - (pos + i.held.length)) = p by omega, hPlace]

end Sound

/-! ## Runs of edits -/

/-- However code is edited from nothing, the sequences hold every handle exactly once and `placeOf?` tells the position of
those in program order. A commit puts what it holds in front of its anchor: into the program order, where what stood in
front keeps its place and the rest moves on, or into the insertion that holds the anchor. It never misses the anchor, and
two handles of one sequence keep their order under all further edits. -/
theorem edits_keep_sequences (es : List Edit) :
    (∀ a, editAll? {} es ≠ .error (.lostAnchor a)) ∧ ∀ s, editAll? {} es = .ok s →
      s.sequences.flatten.Perm (List.range s.handles) ∧
      (∀ h p : Nat, s.placeOf? h = .ok p ↔ s.order[p]? = some h) ∧
      (∀ i is, s.insertions = i :: is → ∃ s', s.commit? = .ok s' ∧
        ((∃ pos, s.placeOf? i.anchor = .ok pos ∧ s'.insertions = is ∧
            s'.order = s.order.take pos ++ i.held ++ s.order.drop pos ∧
            ∀ h p : Nat, s.placeOf? h = .ok p →
              s'.placeOf? h = .ok (if p < pos then p else p + i.held.length)) ∨
          (i.anchor ∉ s.order ∧ s'.order = s.order ∧ Spliced i.anchor i.held is s'.insertions))) ∧
      (∀ es' s', s.editAll? es' = .ok s' → ∀ h k, s.Precedes h k → s'.Precedes h k ∧ ¬ s'.Precedes k h) := by
  refine ⟨fun a => sound_empty.editAll_ne_lostAnchor, fun s hRun => ?_⟩
  have hSound : Sound s := (sound_empty.editAll hRun).1
  refine ⟨hSound.perm_sequences, fun h p => hSound.placeOf_iff, fun i is hTop => ?_, fun es' s' hRun' h k hBefore => ?_⟩
  · obtain ⟨s', hCommit, hSound', -, ⟨pos, hAt, hOrder, hRest⟩ | ⟨hNot, hOrder, hSplice⟩⟩ := hSound.commit_cases hTop
    · have hLe : pos ≤ s.order.length := Nat.le_of_lt (List.getElem?_eq_some_iff.mp hAt).1
      exact ⟨s', hCommit, .inl ⟨pos, hSound.placeOf_iff.mpr hAt, hRest, hOrder,
        fun h p hPlace => hSound.placeOf_insert hSound' hLe hOrder hPlace⟩⟩
    · exact ⟨s', hCommit, .inr ⟨hNot, hOrder, spliced_of_spliceHeld? hSplice⟩⟩
  · obtain ⟨hSound', hOn⟩ := hSound.editAll hRun'
    exact ⟨hOn.precedes hBefore, hSound'.precedes_asymm (hOn.precedes hBefore)⟩

/-- An insertion in front of an instruction that is itself still held back. -/
theorem edits_keep_sequences_nested :
    ∃ s, editAll? {} [.emit .hole, .emit .hole, .openBefore 1, .emit .hole, .openBefore 2, .emit .hole] = .ok s ∧
      s.sequences = [[0, 1], [3], [2]] ∧
      (∃ s', s.commit? = .ok s' ∧ s'.order = [0, 1] ∧ Spliced 2 [3] [⟨1, [2]⟩] s'.insertions) ∧
      ∃ s', s.editAll? [.commit, .commit] = .ok s' ∧ s'.order = [0, 3, 2, 1] ∧ s'.Precedes 0 1 ∧ ¬ s'.Precedes 1 0 := by
  obtain ⟨-, hAll⟩ := edits_keep_sequences
    [.emit .hole, .emit .hole, .openBefore 1, .emit .hole, .openBefore 2, .emit .hole]
  let s : Stream := { code := #[.hole, .hole, .hole, .hole], order := [0, 1], places := #[some 0, some 1, none, none],
                      insertions := [⟨2, [3]⟩, ⟨1, [2]⟩] }
  obtain ⟨-, -, hCommit, hOrder⟩ := hAll s rfl
  refine ⟨s, rfl, rfl, ?_, _, rfl, rfl, hOrder [.commit, .commit] _ rfl 0 1 (by decide)⟩
  obtain ⟨s', hRun, ⟨pos, hPlace, -⟩ | ⟨-, hSame, hSpliced⟩⟩ := hCommit _ _ rfl
  · cases hPlace
  · exact ⟨s', hRun, hSame, hSpliced⟩

end Stream

end Comptime
