import Comptime.Proofs.Bytecode.Insertion

/-!
# Positions in code under construction

A position is good until instructions are committed into the program order. Every other edit leaves the generation alone
and the program order in front of what it appends (`Sound.edit_generation`), so that a position of the same generation
still leads to its instruction, and a position of an earlier one is refused (`position_current_or_stale`).
-/

namespace Comptime

open List

namespace Stream

/-- The edit commits instructions into the program order. -/
def Intrudes (s : Stream) : Edit → Prop
  | .commit => ∃ i is, s.insertions = i :: is ∧ i.held ≠ [] ∧ i.anchor ∈ s.order
  | _ => False

/-- Some edit of the run commits instructions into the program order. -/
def IntrudedBy (s : Stream) : List Edit → Prop
  | [] => False
  | e :: es => s.Intrudes e ∨ ∃ s', s.edit? e = .ok s' ∧ s'.IntrudedBy es

/-- Nothing was put in front of the instructions of `s`. -/
structure Undisturbed (s s' : Stream) : Prop where
  generation : s'.generation = s.generation
  order : s.order <+: s'.order

variable {s s' : Stream} {e : Edit} {es : List Edit}

theorem Undisturbed.trans {s'' : Stream} (h : Undisturbed s s') (h' : Undisturbed s' s'') : Undisturbed s s'' :=
  ⟨h'.generation.trans h.generation, h.order.trans h'.order⟩

theorem undisturbed_emit {x : Instr} : Undisturbed s (s.emit x).1 := by
  rw [Stream.emit]
  cases s.insertions with
  | nil => exact ⟨rfl, prefix_append _ _⟩
  | cons i is => exact ⟨rfl, prefix_refl _⟩

namespace Sound

variable (hSound : Sound s)

include hSound

theorem mem_order_iff {h : Nat} : h ∈ s.order ↔ ∃ p, s.place h = some p := by
  simp only [hSound.place, mem_iff_getElem?]

/-- The generation counts the commits that disturb the program order. -/
theorem edit_generation (hRun : s.edit? e = .ok s') :
    (s.Intrudes e ∧ s.generation < s'.generation) ∨ (¬ s.Intrudes e ∧ Undisturbed s s') := by
  cases e with
  | emit x =>
    cases hRun
    exact .inr ⟨id, undisturbed_emit⟩
  | set a x =>
    obtain ⟨k, -, -, rfl⟩ := set_eq_ok hRun
    exact .inr ⟨id, rfl, prefix_refl _⟩
  | openBefore a =>
    obtain ⟨k, -, -, rfl⟩ := openBefore_eq_ok hRun
    exact .inr ⟨id, rfl, prefix_refl _⟩
  | commit =>
    rw [edit?, commit?] at hRun
    cases hTop : s.insertions with
    | nil =>
      rw [hTop] at hRun
      cases hRun
    | cons i is =>
      have hIntrudes : s.Intrudes .commit ↔ i.held ≠ [] ∧ ∃ p, s.place i.anchor = some p := by
        simp [Intrudes, hTop, hSound.mem_order_iff]
      rw [hIntrudes]
      simp only [hTop] at hRun
      split at hRun
      · next hEmpty =>
        cases hRun
        exact .inr ⟨fun h => h.1 (isEmpty_iff.mp hEmpty), rfl, prefix_refl _⟩
      · next hHeld =>
        -- an anchor without a place is itself held by an open insertion, so that nothing moves yet
        cases hPlace : s.place i.anchor with
        | some pos =>
          rw [show Stream.place { s with insertions := is } i.anchor = some pos from hPlace] at hRun
          cases hRun
          exact .inl ⟨⟨fun h => hHeld (isEmpty_iff.mpr h), pos, rfl⟩, Nat.lt_succ_self _⟩
        | none =>
          rw [show Stream.place { s with insertions := is } i.anchor = none from hPlace] at hRun
          refine .inr ⟨by rintro ⟨-, _, ⟨⟩⟩, ?_⟩
          cases hSplice : spliceHeld? i.anchor i.held is with
          | none =>
            rw [hSplice] at hRun
            cases hRun
          | some is' =>
            rw [hSplice] at hRun
            cases hRun
            exact ⟨rfl, prefix_refl _⟩

theorem editAll_generation (hRun : s.editAll? es = .ok s') :
    (s.IntrudedBy es ∧ s.generation < s'.generation) ∨ (¬ s.IntrudedBy es ∧ Undisturbed s s') := by
  induction es generalizing s with
  | nil =>
    cases hRun
    exact .inr ⟨id, rfl, prefix_refl _⟩
  | cons e es ih =>
    obtain ⟨t, hEdit, hRun⟩ := Except.bind_eq_ok.mp hRun
    have hIntruded : s.IntrudedBy (e :: es) ↔ s.Intrudes e ∨ t.IntrudedBy es := by
      simp [IntrudedBy, hEdit]
    rw [hIntruded]
    rcases hSound.edit_generation hEdit with ⟨hFirst, hLt⟩ | ⟨hFirst, hSame⟩ <;>
      rcases ih (hSound.edit hEdit).1 hRun with ⟨hRest, hLt'⟩ | ⟨hRest, hSame'⟩
    · exact .inl ⟨.inl hFirst, hLt.trans hLt'⟩
    · exact .inl ⟨.inl hFirst, hSame'.generation ▸ hLt⟩
    · exact .inl ⟨.inr hRest, hSame.generation ▸ hLt'⟩
    · exact .inr ⟨not_or.mpr ⟨hFirst, hRest⟩, hSame.trans hSame'⟩

end Sound

/-- A position taken of an instruction, read after further edits, gives the instruction as it is by then, or is refused as
stale. It is refused just if instructions were committed into the program order meanwhile. -/
theorem position_current_or_stale (es es' : List Edit) {h : Int} {p : Position} (hBuilt : editAll? {} es = .ok s)
    (hTaken : s.position? h = .ok p) (hLater : s.editAll? es' = .ok s') :
    ((∃ x, s'.at? h = .ok x ∧ s'.atPosition? p = .ok x) ∨
      s'.atPosition? p = .error (.stalePosition p.index p.generation s'.generation)) ∧
    ((∃ m, s'.atPosition? p = .error m) ↔ s.IntrudedBy es') := by
  have hSound : Sound s := (sound_empty.editAll hBuilt).1
  have hSound' : Sound s' := (hSound.editAll hLater).1
  obtain ⟨q, hPlace, hTaken⟩ := Except.bind_eq_ok.mp hTaken
  cases hTaken
  obtain ⟨k, rfl, -⟩ := check_bind_eq_ok hPlace
  rcases hSound.editAll_generation hLater with ⟨hIntruded, hLt⟩ | ⟨hCalm, hGeneration, hOrder⟩
  · have hStale : s'.atPosition? ⟨q, s.generation⟩ = .error (.stalePosition q s.generation s'.generation) := by
      simp [atPosition?, hLt.ne, throw, throwThe, MonadExceptOf.throw, bind, Except.bind]
    exact ⟨.inr hStale, fun _ => hIntruded, fun _ => ⟨_, hStale⟩⟩
  · have hAt : s'.order[q]? = some k := by
      obtain ⟨rest, hRest⟩ := hOrder
      have hOld : s.order[q]? = some k := hSound.placeOf_iff.mp hPlace
      rw [← hRest, getElem?_append_left (List.getElem?_eq_some_iff.mp hOld).1, hOld]
    have hRead : s'.atPosition? ⟨q, s.generation⟩ = .ok (s'.code.getD k .hole) := by
      simp [atPosition?, hGeneration, hAt, bind, Except.bind, pure, Except.pure]
    have hCurrent : s'.at? k = .ok (s'.code.getD k .hole) := by
      rw [at?, check_of_lt (hSound'.lt_of_mem_order (mem_of_getElem? hAt))]
      rfl
    refine ⟨.inl ⟨_, hCurrent, hRead⟩, fun ⟨m, hError⟩ => ?_, fun h => absurd h hCalm⟩
    rw [hRead] at hError
    cases hError

/-- A commit into an insertion that is still open disturbs nothing; the commit of that insertion does. -/
theorem position_current_or_stale_nested : ∃ s p t u,
    editAll? {} [.emit .hole, .emit .region] = .ok s ∧ s.position? 1 = .ok p ∧
    s.editAll? [.openBefore 1, .emit .hole, .openBefore 2, .emit .hole, .commit] = .ok t ∧ t.atPosition? p = .ok .region ∧
    s.editAll? [.openBefore 1, .emit .hole, .openBefore 2, .emit .hole, .commit, .commit] = .ok u ∧
      u.atPosition? p = .error (.stalePosition 1 0 1) := by
  refine ⟨_, _, _, _, rfl, rfl, rfl, ?_, rfl, ?_⟩
  · obtain ⟨⟨x, hx, hRead⟩ | hStale, -⟩ := position_current_or_stale [.emit .hole, .emit .region]
      [.openBefore 1, .emit .hole, .openBefore 2, .emit .hole, .commit] (h := 1) rfl rfl rfl
    · cases hx
      exact hRead
    · cases hStale
  · obtain ⟨⟨x, -, hRead⟩ | hStale, -⟩ := position_current_or_stale [.emit .hole, .emit .region]
      [.openBefore 1, .emit .hole, .openBefore 2, .emit .hole, .commit, .commit] (h := 1) rfl rfl rfl
    · cases hRead
    · exact hStale

end Stream

end Comptime
