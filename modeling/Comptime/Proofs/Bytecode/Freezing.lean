import Comptime.Proofs.Bytecode.Insertion
import Comptime.Proofs.Bytecode.Paths
import Comptime.Proofs.Lowering.Monad
import Mathlib.Data.List.NodupEquivFin

/-!
# Freezing

Frozen code has one instruction for every handle, where the handle stands in program order, and branches go to where their
targets stand. It is there exactly if every branch has regions for targets (`Sound.freeze_gives`). Code that is frozen again
after further edits has what was frozen before inside it: where a position goes, the targets of branches go too
(`freeze_keeps_flow`).
-/

namespace Comptime

open List

/-- A branch with its targets replaced. -/
def Instr.relocate (f : Handle → Handle) : Instr → Instr
  | branch test arms default => branch test (arms.map fun a => { a with target := f a.target }) (f default)
  | x => x

theorem Instr.relocate_relocate {f g k : Handle → Handle} {x : Instr} (h : ∀ t ∈ x.targets, g (f t) = k t) :
    (x.relocate f).relocate g = x.relocate k := by
  cases x with
  | branch test arms default =>
    have hArms : ∀ a ∈ arms, g (f a.target) = k a.target := fun a ha => h _ (mem_append_left _ (mem_map_of_mem ha))
    simp only [relocate, map_map, h default (mem_append_right _ mem_cons_self), branch.injEq, true_and, and_true]
    exact map_congr_left fun a ha => by simp only [Function.comp_apply, hArms a ha]
  | _ => rfl

theorem Instr.targets_relocate {f : Handle → Handle} (x : Instr) : (x.relocate f).targets = x.targets.map f := by
  cases x with
  | branch test arms default => simp [relocate, targets]
  | _ => rfl

theorem Instr.relocate_eq_region {f : Handle → Handle} {x : Instr} : x.relocate f = .region ↔ x = .region := by
  cases x <;> simp [relocate]

/-- The computation succeeds exactly under the condition, and then with the value. -/
def Gives {ε α : Type} (r : Except ε α) (P : Prop) (a : α) : Prop := ∀ y, r = .ok y ↔ P ∧ y = a

namespace Gives

variable {ε α β : Type} {r : Except ε α} {P Q : Prop} {a : α} {b : β}

theorem ok : Gives (.ok a : Except ε α) True a := fun y => by rw [Except.ok.injEq, true_and, eq_comm]

theorem error {e : ε} (h : ¬P) : Gives (.error e) P a := fun _ => ⟨nofun, fun hAll => absurd hAll.1 h⟩

theorem congr (h : Gives r P a) (hIff : P ↔ Q) : Gives r Q a := fun y => by rw [h y, hIff]

theorem bind {f : α → Except ε β} (h : Gives r P a) (hf : Gives (f a) Q b) : Gives (r >>= f) (P ∧ Q) b := by
  cases hr : r with
  | error e => exact .error fun hAll => by simpa [hr] using (h a).mpr ⟨hAll.1, rfl⟩
  | ok y =>
    obtain ⟨hP, rfl⟩ := (h y).mp hr
    exact hf.congr ⟨fun hQ => ⟨hP, hQ⟩, And.right⟩

theorem map (g : α → β) (h : Gives r P a) : Gives (r >>= fun y => pure (g y)) P (g a) :=
  (h.bind (f := fun y => pure (g y)) ok).congr (by rw [and_true])

theorem error_iff (h : Gives r P a) : (∃ e, r = .error e) ↔ ¬P := by
  cases hr : r with
  | error e => exact ⟨fun _ hP => by simpa [hr] using (h a).mpr ⟨hP, rfl⟩, fun _ => ⟨e, rfl⟩⟩
  | ok y => exact ⟨fun hError => hError.elim nofun, fun hNot => absurd ((h y).mp hr).1 hNot⟩

theorem mapM {f : α → Except ε β} {C : α → Prop} {g : α → β} {l : List α} (h : ∀ x ∈ l, Gives (f x) (C x) (g x)) :
    Gives (l.mapM f) (∀ x ∈ l, C x) (l.map g) := by
  induction l with
  | nil => exact ok.congr (by simp)
  | cons x xs ih =>
    rw [mapM_cons]
    refine ((h x mem_cons_self).bind ((ih fun y hy => h y (mem_cons_of_mem _ hy)).map _)).congr ?_
    rw [forall_mem_cons]

end Gives

namespace Stream

variable {s s' : Stream} {f : Handle → Handle} {h p : Nat} {t : Handle} {x : Instr} {code code' : Array Instr}
  {es : List Edit}

/-- The instruction of a handle. -/
def instr (s : Stream) (h : Nat) : Instr := s.code.getD h .hole

/-- The target of a branch is a region that has been emitted. -/
def Leads (s : Stream) (t : Handle) : Prop := 0 ≤ t ∧ t < s.handles ∧ s.instr t.toNat = .region

/-- The function tells the positions of handles. -/
def Translates (s : Stream) (f : Handle → Handle) : Prop := ∀ t p, s.placeOf? t = .ok p → f t = p

/-- The position of a handle. One that has none stays as it is. -/
def position (s : Stream) (t : Handle) : Handle :=
  match s.placeOf? t with
  | .ok p => p
  | .error _ => t

theorem translates_position : s.Translates s.position := fun t p hPlace => by rw [position, hPlace]

theorem code_eq_some (hLt : h < s.handles) : s.code[h]? = some x ↔ s.instr h = x := by
  rw [instr, Array.getD_eq_getD_getElem?, Array.getElem?_eq_getElem hLt, Option.some.injEq, Option.getD_some]

theorem insertions_of_freeze (hFreeze : s.freeze? = .ok code) : s.insertions = [] := by
  rw [freeze?] at hFreeze
  split at hFreeze
  · cases hFreeze
  · next hOpen => simpa [inserting] using hOpen

namespace Sound

variable (hSound : Sound s) (hDone : s.insertions = [])

include hSound hDone

/-- Once nothing is held back every handle has a place. -/
theorem exists_place (hLt : h < s.handles) : ∃ p : Nat, s.placeOf? h = .ok p := by
  have hIn : h ∈ s.order := by rwa [← layout_eq_order hDone, hSound.mem]
  obtain ⟨p, hp⟩ := mem_iff_getElem?.mp hIn
  exact ⟨p, hSound.placeOf_iff.mpr hp⟩

theorem length_order : s.order.length = s.handles := by
  have hPerm := hSound.perm_sequences
  rw [sequences, hDone, map_nil, flatten_singleton] at hPerm
  rw [hPerm.length_eq, length_range]

theorem resolve_gives (hf : s.Translates f) : Gives (s.resolve? h t) (s.Leads t) (f t) := by
  rw [resolve?]
  by_cases hNeg : t < 0
  · have hNot : ¬s.Leads t := fun hLeads => absurd hLeads.1 (Int.not_le.mpr hNeg)
    by_cases hNone : t = noHandle
    · rw [if_pos hNone]
      exact .error hNot
    · rw [if_neg hNone, if_pos hNeg]
      exact .error hNot
  obtain ⟨k, rfl⟩ := Int.eq_ofNat_of_zero_le (Int.not_lt.mp hNeg)
  have hSome : (k : Handle) ≠ noHandle := fun hEq => by
    have hEq' : (k : Int) = -1 := hEq
    omega
  rw [if_neg hSome, if_neg hNeg, Int.toNat_natCast]
  by_cases hLt : k < s.handles
  · obtain ⟨p, hPlace⟩ := hSound.exists_place hDone hLt
    have hLeads : s.Leads k ↔ s.instr k = .region := by
      rw [Leads, Int.toNat_natCast]
      exact ⟨fun h => h.2.2, fun h => ⟨Int.natCast_nonneg k, Int.ofNat_lt.mpr hLt, h⟩⟩
    rw [(code_eq_some hLt).mpr rfl, hf _ p hPlace]
    cases hCode : s.instr k with
    | region =>
      simp only [hPlace]
      exact Gives.ok.congr (by simp [hLeads, hCode])
    | _ => exact .error (by rw [hLeads, hCode]; exact nofun)
  · rw [Array.getElem?_eq_none (Nat.le_of_not_lt hLt)]
    exact .error fun hLeads => hLt (Int.ofNat_lt.mp hLeads.2.1)

theorem freezeInstr_gives (hf : s.Translates f) :
    Gives (s.freezeInstr? h) (∀ t ∈ (s.instr h).targets, s.Leads t) ((s.instr h).relocate f) := by
  have hTarget : ∀ t, Gives (s.resolve? h t) (s.Leads t) (f t) := fun t => hSound.resolve_gives hDone hf
  rw [freezeInstr?, show s.code.getD h .hole = s.instr h from rfl]
  cases s.instr h with
  | branch test arms default =>
    refine ((Gives.mapM fun a _ => (hTarget a.target).map fun q => { a with target := q }).bind
      ((hTarget default).map _)).congr ?_
    simp only [Instr.targets, forall_mem_append, forall_mem_map, forall_mem_singleton]
  | _ => exact Gives.ok.congr (by simp [Instr.targets])

/-- Freezing succeeds exactly if every branch leads to regions, and gives the instructions in program order. -/
theorem freeze_gives (hf : s.Translates f) :
    Gives s.freeze? (∀ h ∈ s.order, ∀ t ∈ (s.instr h).targets, s.Leads t)
      (s.order.map fun h => (s.instr h).relocate f).toArray := by
  have hOpen : s.inserting = false := by rw [inserting, hDone]; rfl
  rw [freeze?, hOpen]
  exact (Gives.mapM fun h _ => hSound.freezeInstr_gives hDone hf).map _

end Sound

/-! ## Further edits -/

/-- An edit that replaces the instruction of a handle below `n`. -/
def Edit.Touches (n : Nat) : Edit → Prop
  | .set h _ => h < n
  | _ => False

instance (n : Nat) : DecidablePred (Edit.Touches n)
  | .set h _ => inferInstanceAs (Decidable (h < n))
  | .emit _ | .openBefore _ | .commit => inferInstanceAs (Decidable False)

section Edits

variable {n : Nat} (hSound : Sound s) (hn : n ≤ s.handles)

include hSound hn

/-- An edit that touches nothing there was leaves its instructions as they were. -/
theorem Sound.instr_edit {e : Edit} (hRun : s.edit? e = .ok s') (hKeep : ¬e.Touches n) :
    n ≤ s'.handles ∧ ∀ h < n, s'.instr h = s.instr h := by
  cases e with
  | emit x =>
    cases hRun
    obtain ⟨l, r, hCursor⟩ := hSound.exists_cursor
    have hCode := (hSound.emit hCursor (x := x)).2.2.1
    rw [handles, hCode, Array.size_push]
    refine ⟨Nat.le_succ_of_le hn, fun h hLt => ?_⟩
    have hNe : h ≠ s.code.size := Nat.ne_of_lt (Nat.lt_of_lt_of_le hLt hn)
    rw [instr, instr, hCode, Array.getD_eq_getD_getElem?, Array.getD_eq_getD_getElem?, Array.getElem?_push, if_neg hNe]
  | set a x =>
    obtain ⟨k, rfl, -, rfl⟩ := set_eq_ok hRun
    have hLe : n ≤ k := Int.ofNat_le.mp (Int.not_lt.mp hKeep)
    rw [handles, Array.size_setIfInBounds]
    refine ⟨hn, fun h hLt => ?_⟩
    rw [instr, instr, Array.getD_eq_getD_getElem?, Array.getD_eq_getD_getElem?,
      Array.getElem?_setIfInBounds_ne (Nat.ne_of_gt (Nat.lt_of_lt_of_le hLt hLe))]
  | openBefore a =>
    obtain ⟨k, rfl, -, rfl⟩ := openBefore_eq_ok hRun
    exact ⟨hn, fun _ _ => rfl⟩
  | commit =>
    cases hTop : s.insertions with
    | nil => rw [edit?, commit?, hTop] at hRun; cases hRun
    | cons i is =>
      obtain ⟨t, hCommit, -, hCode, -⟩ := hSound.commit_cases hTop
      cases hCommit.symm.trans hRun
      rw [handles, hCode]
      exact ⟨hn, fun h _ => by rw [instr, hCode, instr]⟩

theorem Sound.instr_editAll (hRun : s.editAll? es = .ok s') (hKeep : ∀ e ∈ es, ¬e.Touches n) :
    n ≤ s'.handles ∧ ∀ h < n, s'.instr h = s.instr h := by
  induction es generalizing s with
  | nil =>
    cases hRun
    exact ⟨hn, fun _ _ => rfl⟩
  | cons e es ih =>
    obtain ⟨t, hEdit, hRun⟩ := Except.bind_eq_ok.mp hRun
    obtain ⟨hn', hSame⟩ := hSound.instr_edit hn hEdit (hKeep e mem_cons_self)
    obtain ⟨hn'', hSame'⟩ := ih (hSound.edit hEdit).1 hn' hRun fun e he => hKeep e (mem_cons_of_mem _ he)
    exact ⟨hn'', fun h hLt => (hSame' h hLt).trans (hSame h hLt)⟩

end Edits

/-! ## Frozen code -/

/-- Code with one instruction for every handle, at its place, and with regions where branches go. -/
structure Frozen (s : Stream) (code : Array Instr) : Prop where
  size : code.size = s.handles
  placed : ∀ h < s.handles, ∃ p : Nat, s.placeOf? h = .ok p ∧ code[p]? = some ((s.instr h).relocate s.position)
  targets : ∀ h < s.handles, ∀ t ∈ (s.instr h).targets, ∃ q : Nat, s.placeOf? t = .ok q ∧ code[q]? = some .region

theorem Sound.frozen (hSound : Sound s) (hDone : s.insertions = []) (hFreeze : s.freeze? = .ok code) : s.Frozen code := by
  obtain ⟨hLeads, rfl⟩ := (hSound.freeze_gives hDone translates_position code).mp hFreeze
  have hAt : ∀ {h}, h < s.handles → ∃ p : Nat, s.placeOf? h = .ok p ∧
      (s.order.map fun h => (s.instr h).relocate s.position).toArray[p]? = some ((s.instr h).relocate s.position) := by
    intro h hLt
    obtain ⟨p, hPlace⟩ := hSound.exists_place hDone hLt
    exact ⟨p, hPlace, by rw [getElem?_toArray, getElem?_map, hSound.placeOf_iff.mp hPlace]; rfl⟩
  refine ⟨?_, fun h hLt => hAt hLt, fun h hLt t ht => ?_⟩
  · rw [size_toArray, length_map, hSound.length_order hDone]
  · obtain ⟨p, hPlace⟩ := hSound.exists_place hDone hLt
    obtain ⟨hNonneg, hLt', hRegion⟩ := hLeads h (mem_of_getElem? (hSound.placeOf_iff.mp hPlace)) t ht
    obtain ⟨k, rfl⟩ := Int.eq_ofNat_of_zero_le hNonneg
    rw [Int.toNat_natCast] at hRegion
    obtain ⟨q, hq, hCode⟩ := hAt (Int.ofNat_lt.mp hLt')
    rw [hRegion] at hCode
    exact ⟨q, hq, hCode⟩

theorem exists_natCast_of_placeOf (hPlace : s.placeOf? t = .ok p) : ∃ k : Nat, t = k := by
  obtain ⟨k, hk, -⟩ := check_bind_eq_ok hPlace
  exact ⟨k, hk⟩

/-- Code that is frozen after handles have moved has the code of before inside it. -/
theorem Sound.embeds (hSound : Sound s) (hDone : s.insertions = []) (hSound' : Sound s') (hSub : s.order.Sublist s'.order)
    (hSame : ∀ h < s.handles, s'.instr h = s.instr h) (hLe : s.handles ≤ s'.handles) (hFrozen : s.Frozen code)
    (hFrozen' : s'.Frozen code') :
    ∃ move : Nat ↪o Nat, (∀ h p, s.placeOf? h = .ok p → s'.placeOf? h = .ok (move p)) ∧
      ∀ p x, code[p]? = some x → code'[move p]? = some (x.relocate fun t => move t.toNat) := by
  obtain ⟨move, hMove⟩ := sublist_iff_exists_orderEmbedding_getElem?_eq.mp hSub
  have hPlace : ∀ h p, s.placeOf? h = .ok p → s'.placeOf? h = .ok (move p) := by
    intro h p hAt
    obtain ⟨k, rfl⟩ := exists_natCast_of_placeOf hAt
    rw [hSound'.placeOf_iff, ← hMove, hSound.placeOf_iff.mp hAt]
  refine ⟨move, hPlace, fun p x hx => ?_⟩
  obtain ⟨hLt, -⟩ := Array.getElem?_eq_some_iff.mp hx
  have hLt : p < s.order.length := by rwa [hSound.length_order hDone, ← hFrozen.size]
  -- what stands there has a handle, which tells where it stands in the other code
  have hAt : s.placeOf? (s.order[p] : Nat) = .ok p := hSound.placeOf_iff.mpr (getElem?_eq_getElem hLt)
  have hHandle := hSound.lt_of_mem_order (getElem_mem hLt)
  obtain ⟨q, hq, hCode⟩ := hFrozen.placed _ hHandle
  obtain ⟨q', hq', hCode'⟩ := hFrozen'.placed _ (hHandle.trans_le hLe)
  cases hq.symm.trans hAt
  cases hq'.symm.trans (hPlace _ _ hAt)
  cases hx.symm.trans hCode
  rw [hCode', hSame _ hHandle, Instr.relocate_relocate (k := s'.position)]
  intro t ht
  obtain ⟨q, hq, -⟩ := hFrozen.targets _ hHandle t ht
  rw [translates_position t q hq, translates_position t _ (hPlace t q hq), Int.toNat_natCast]

/-- **Freezing keeps control flow.** However code was edited from nothing, with nothing held back, freezing fails exactly if
a branch in program order has a target that is missing, was never emitted or is no region. Otherwise the code has every
instruction at the place of its handle, with the places of regions for targets, and freezing it leaves a builder as it was.
If it is frozen again after further edits that replace nothing, every position has moved to another one, in the same order,
and the targets of branches have moved with it. -/
theorem freeze_keeps_flow {es : List Edit} {s : Stream} (hRun : editAll? {} es = .ok s) (hDone : s.insertions = []) :
    ((∃ m, s.freeze? = .error m) ↔ ∃ h p, s.placeOf? h = .ok p ∧ ∃ t ∈ (s.instr h.toNat).targets,
      t = noHandle ∨ (t < 0 ∨ s.handles ≤ t) ∨ s.instr t.toNat ≠ .region) ∧
    ∀ code, s.freeze? = .ok code → s.Frozen code ∧
      (∀ b : Builder, b.stream = s → Build.onStream (·.freeze?) b = .ok code b) ∧
      ∀ es' s' code', s.editAll? es' = .ok s' → (∀ e ∈ es', ¬e.Touches s.handles) → s'.freeze? = .ok code' →
        ∃ move : Nat ↪o Nat, (∀ h p, s.placeOf? h = .ok p → s'.placeOf? h = .ok (move p)) ∧
          ∀ p x, code[p]? = some x → code'[move p]? = some (x.relocate fun t => move t.toNat) := by
  have hSound : Sound s := (sound_empty.editAll hRun).1
  refine ⟨?_, fun code hFreeze => ⟨hSound.frozen hDone hFreeze, fun b hStream => ?_, fun es' s' code' hRun' hKeep hFreeze' => ?_⟩⟩
  · have hMiss : ∀ t, ¬s.Leads t ↔ t = noHandle ∨ (t < 0 ∨ s.handles ≤ t) ∨ s.instr t.toNat ≠ .region := by
      intro t
      rw [Leads, noHandle]
      grind
    rw [(hSound.freeze_gives hDone translates_position).error_iff]
    push Not
    simp only [hMiss]
    constructor
    · rintro ⟨h, hIn, hBad⟩
      obtain ⟨p, hp⟩ := List.mem_iff_getElem?.mp hIn
      exact ⟨h, p, hSound.placeOf_iff.mpr hp, hBad⟩
    · rintro ⟨h, p, hPlace, hBad⟩
      obtain ⟨k, rfl⟩ := exists_natCast_of_placeOf hPlace
      exact ⟨k, List.mem_of_getElem? (hSound.placeOf_iff.mp hPlace), hBad⟩
  · exact Build.onStream_eq_ok.mpr ⟨hStream ▸ hFreeze, rfl⟩
  · obtain ⟨hSound', hOn⟩ := hSound.editAll hRun'
    have hDone' := insertions_of_freeze hFreeze'
    obtain ⟨hLe, hSame⟩ := hSound.instr_editAll le_rfl hRun' hKeep
    -- the old order is a part of the new one, which gives the embedding of the positions
    refine hSound.embeds hDone hSound' ?_ hSame hLe (hSound.frozen hDone hFreeze) (hSound'.frozen hDone' hFreeze')
    obtain ⟨l, hl, hSub⟩ := hOn s.order List.mem_cons_self
    rw [sequences, hDone', List.map_nil, List.mem_singleton] at hl
    exact hl ▸ hSub

/-- A loop, and a way out of it that comes in later: its exit moves on by what was put in front of it. -/
theorem freeze_keeps_flow_loop :
    ∃ s s', editAll? {} [.emit .region, .emit .hole, .emit (.branch 0 [⟨1, 0⟩] 3), .emit .region] = .ok s ∧
      s.freeze? = .ok #[.region, .hole, .branch 0 [⟨1, 0⟩] 3, .region] ∧
      s.editAll? [.openBefore 1, .emit .region, .emit (.branch 0 [⟨2, 3⟩] 4), .commit] = .ok s' ∧
      s'.freeze? = .ok #[.region, .region, .branch 0 [⟨2, 5⟩] 1, .hole, .branch 0 [⟨1, 0⟩] 5, .region] ∧
      ∃ move : Nat ↪o Nat, (∀ h p, s.placeOf? h = .ok p → s'.placeOf? h = .ok (move p)) ∧
        ∀ p x, #[Instr.region, .hole, .branch 0 [⟨1, 0⟩] 3, .region][p]? = some x →
          #[Instr.region, .region, .branch 0 [⟨2, 5⟩] 1, .hole, .branch 0 [⟨1, 0⟩] 5, .region][move p]? =
            some (x.relocate fun t => move t.toNat) := by
  let es : List Edit := [.emit .region, .emit .hole, .emit (.branch 0 [⟨1, 0⟩] 3), .emit .region]
  let es' : List Edit := [.openBefore 1, .emit .region, .emit (.branch 0 [⟨2, 3⟩] 4), .commit]
  obtain ⟨s, hRun⟩ : ∃ s, editAll? {} es = .ok s := ⟨_, rfl⟩
  obtain ⟨s', hRun'⟩ : ∃ s', s.editAll? es' = .ok s' := by cases hRun; exact ⟨_, rfl⟩
  refine ⟨s, s', hRun, by cases hRun; rfl, hRun', by cases hRun; cases hRun'; rfl, ?_⟩
  obtain ⟨-, hFrozen⟩ := freeze_keeps_flow hRun (by cases hRun; rfl)
  exact (hFrozen _ (by cases hRun; rfl)).2.2 es' s' _ hRun' (by cases hRun; decide) (by cases hRun; cases hRun'; rfl)

end Stream

end Comptime
