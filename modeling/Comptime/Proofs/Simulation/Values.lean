import Comptime.Proofs.Shape.Passage
import Comptime.Proofs.Simulation.Steps

/-!
# Values do what operands say

What lowering has for an expression stands for an operand (`Scene.Lands`): a register has its word, or the address of its
place, or, if the value is pending, control has taken the path of its truth. Whatever is done with the value does the deeds
that the operand asks for, and control is on one path again.
-/

namespace Comptime

open Shape Comptime.Frame Word Operand Eval

namespace Value

/-- The registers of a value have what the operand says. -/
def Denotes (f : Frame) : Value → Operand → Prop
  | place t r, .place t' a => t' = t ∧ f.reg? r = a
  | reg t r, .word t' v => t' = t ∧ f.reg? r = v
  | none t, .nothing t' => t' = t
  | _, _ => False

/-- The registers of a value are held. -/
def HeldIn (T : Text) (n : Nat) : Value → Prop
  | place _ r | reg _ r => T.Holds n r
  | none _ | pending _ _ => True

end Value

/-- On both paths of a pending value it is put into register `k`. -/
structure Pending.Sets (code : Array Instr) (q : Pending) (k : Nat) : Prop where
  onTrue : code[q.onTrue + 1]? = some (.imm .i8 k 1)
  leaveTrue : q.onTrue + 1 + 1 = q.leaveTrue
  jumpTrue : code[q.leaveTrue]? = some (.branch noReg [] q.merge)
  onFalse : code[q.onFalse + 1]? = some (.imm .i8 k 0)
  leaveFalse : q.onFalse + 1 + 1 = q.leaveFalse
  jumpFalse : code[q.leaveFalse]? = some (.branch noReg [] q.merge)

theorem Shape.materialize_sets {T : Text} {q : Pending} {p p' : Point} {r : Reg} (h : materialize q T p r p') :
    ∃ k : Nat, r = k ∧ p.next ≤ k ∧ ¬ T.fixed k ∧ k < T.numRegs ∧
      p' = { p with next := k + 1, high := max p.high (k + 1) } ∧ q.Sets T.code k := by
  obtain ⟨_, _, ⟨k, rfl, hLe, hFree, hLt, rfl⟩, _, _, ⟨_, ⟨_, _, ⟨hTrue, rfl⟩, hLeave⟩, rfl⟩, _, _,
    ⟨_, ⟨_, _, ⟨hFalse, rfl⟩, hLeave'⟩, rfl⟩, rfl, rfl⟩ := h
  obtain ⟨hEnd, hJump, rfl⟩ := leave_iff.mp hLeave
  obtain ⟨hEnd', hJump', rfl⟩ := leave_iff.mp hLeave'
  exact ⟨k, rfl, hLe, hFree, hLt, rfl, hTrue, hEnd, hJump, hFalse, hEnd', hJump'⟩

namespace Scene

variable {E : Scene} {α β : Type} {n : Nat} {f0 f f' : Frame} {Q : α → Frame → Prop} {l : List (Nat × Reg)}
  {p p' p'' p1 p2 : Point} {u : Unit} {r dst : Reg} {v : Value} {o : Operand} {q : Pending} {b : Bool} {x : Eval α} {t : Ty}
  {y : Option UInt64} {past : Bool}

/-- Control has taken the path of a truth value. -/
structure Forked (E : Scene) (p p' : Point) (q : Pending) (b : Bool) (f f' : Frame) : Prop where
  marked : q.Marked E.text.code
  merge : p'.pos = q.merge + 1
  pos : f'.pos = ((if b then q.onTrue else q.onFalse : Nat) : Int)
  spares : f.Spares p.next p'.next f'
  next : p.next ≤ p'.next
  fits : E.Fits f'

/-- Between two points control has come to have a value. If the value is pending, control is on one of its paths, or it has
come by them, and the value is in whatever register it was put into there. -/
def Brings (E : Scene) (past : Bool) (p p' : Point) (f f' : Frame) (v : Value) (o : Operand) : Prop :=
  match v with
  | .pending t q => ∃ b, o = .word t (some (flag b)) ∧ match past with
    | false => E.Forked p p' q b f f'
    | true => E.Passed p p' f f' ∧ ∀ k, q.Sets E.text.code k → f'.reg? k = some (flag b)
  | v => E.Passed p p' f f' ∧ v.Denotes f' o ∧ v.HeldIn E.text p'.next

abbrev Lands (E : Scene) := E.Brings false

/-- The same holds at a point that differs only in the memory that was taken. -/
theorem Lands.at (h : E.Lands p p' f f' v o) (hPos : p''.pos = p'.pos) (hNext : p''.next = p'.next) :
    E.Lands p p'' f f' v o := by
  cases v with
  | pending t q =>
    obtain ⟨b, ho, hForked⟩ := h
    exact ⟨b, ho, hForked.marked, hPos.trans hForked.merge, hForked.pos, hNext ▸ hForked.spares, hNext ▸ hForked.next,
      hForked.fits⟩
  | _ => exact ⟨⟨⟨hPos ▸ h.1.pos, h.1.fits⟩, hNext ▸ h.1.spares, hNext ▸ h.1.next⟩, h.2.1, hNext ▸ h.2.2⟩

theorem Gets.place (h : E.Gets p p' f f' r y) : E.Lands p p' f f' (.place t r) (.place t y) :=
  ⟨h.toPassed, ⟨rfl, h.reg⟩, h.holds⟩

theorem Gets.word (h : E.Gets p p' f f' r y) : E.Lands p p' f f' (.reg t r) (.word t y) :=
  ⟨h.toPassed, ⟨rfl, h.reg⟩, h.holds⟩

theorem Brings.of_place (h : E.Brings past p p' f f' (.place t r) o) : ∃ a, o = .place t a ∧ E.Gets p p' f f' r a := by
  obtain ⟨hPassed, hDenotes, hHeld⟩ := h
  cases o with
  | place t' a =>
    obtain ⟨rfl, ha⟩ := hDenotes
    exact ⟨a, rfl, hPassed, ha, hHeld⟩
  | _ => exact hDenotes.elim

theorem Brings.of_reg (h : E.Brings past p p' f f' (.reg t r) o) : ∃ y, o = .word t y ∧ E.Gets p p' f f' r y := by
  obtain ⟨hPassed, hDenotes, hHeld⟩ := h
  cases o with
  | word t' y =>
    obtain ⟨rfl, hy⟩ := hDenotes
    exact ⟨y, rfl, hPassed, hy, hHeld⟩
  | _ => exact hDenotes.elim

/-- What has a value and is not in memory stands for a word. -/
theorem Brings.of_value {T : Text} (h : E.Brings past p p' f f' v o) (hValue : value v T p1 r p2)
    (hv : ∀ t r, v ≠ .place t r) : ∃ t y, o = .word t y := by
  cases v with
  | place t r => exact absurd rfl (hv t r)
  | reg t r =>
    obtain ⟨y, rfl, -⟩ := h.of_reg
    exact ⟨t, y, rfl⟩
  | pending t q =>
    obtain ⟨b, rfl, -⟩ := h
    exact ⟨t, _, rfl⟩
  | none t => exact hValue.elim

/-! ## Paths -/

/-- A path that nothing was put on. -/
theorem path_does {start leave target : Nat} (hPos : f.pos = start) (hRegion : E.text.code[start]? = some .region)
    (hLeave : start + 1 = leave) (hJump : E.text.code[leave]? = some (.branch noReg [] target))
    (hNext : E.Does n (f.next.goto target) x Q) : E.Does n f x Q := by
  refine region_does hPos hRegion (jump_does (i := leave) ?_ hJump hNext)
  rw [next, hPos, ← hLeave]
  rfl

/-- The two paths of a value lead to these places. -/
theorem settle_does {yes no : Nat} (h : settle q yes no (E.seen l) p' u p'') (hq : E.Forked p p' q b f0 f)
    (hNext : ∀ f', f0.Spares p.next p'.next f' → E.Fits f' → f'.pos = ((if b then yes else no : Nat) : Int) → E.Does n f' x Q) :
    E.Does n f x Q := by
  obtain ⟨⟨hTrue, hJump⟩, ⟨hFalse, hJump'⟩, rfl⟩ := settle_iff.mp h
  cases b with
  | true => exact path_does hq.pos hq.marked.onTrue hTrue hJump (hNext _ hq.spares hq.fits.next.goto rfl)
  | false => exact path_does hq.pos hq.marked.onFalse hFalse hJump' (hNext _ hq.spares hq.fits.next.goto rfl)

/-- On both paths of a value it is put into a register. -/
theorem sets_does {k : Nat} (h : q.Sets E.text.code k) (hFree : ¬ E.text.fixed k) (hLt : k < E.text.numRegs)
    (hq : E.Forked p p' q b f0 f) (hNext : E.Does n ((f.put k (flag b)).goto p'.pos) x Q) : E.Does n f x Q := by
  have hSize : k < f.regs.size := hq.fits.size ▸ hLt
  -- the two paths differ in their positions and in what is put into the register
  have hPath : ∀ {start leave : Nat} {bits : UInt64}, f.pos = start → E.text.code[start]? = some .region →
      E.text.code[start + 1]? = some (.imm .i8 k bits) → start + 1 + 1 = leave →
      E.text.code[leave]? = some (.branch noReg [] q.merge) → canon .i8 bits = flag b → E.Does n f x Q := by
    rintro start _ bits hPos hRegion hImm rfl hJump hBits
    have hPos1 : f.next.pos = (start + 1 : Nat) := by rw [next, hPos]; rfl
    have hPos2 : (f.next.put k (flag b)).pos = (start + 1 + 1 : Nat) := by rw [put, hPos1]; rfl
    have hExec : ∀ m : Machine, m.exec f.next [] (.imm .i8 k bits) = .running m (f.next.put k (flag b)) [] := fun m => by
      simp only [Machine.exec, hBits, define?_eq (show k < f.next.regs.size from hSize)]
      rfl
    have hEnd : ((f.put k (flag b)).goto p'.pos) = ((f.next.put k (flag b)).goto q.merge).next := by
      rw [hq.merge]
      rfl
    rw [hEnd] at hNext
    refine region_does hPos hRegion (.step hPos1 hImm rfl (fun m _ => hExec m) (fun h => h.put hFree) ?_)
    exact jump_does hPos2 hJump (region_does rfl hq.marked.merge hNext)
  cases b with
  | true => exact hPath hq.pos hq.marked.onTrue h.onTrue h.leaveTrue h.jumpTrue rfl
  | false => exact hPath hq.pos hq.marked.onFalse h.onFalse h.leaveFalse h.jumpFalse rfl

theorem materialize_does (h : materialize q (E.seen l) p' r p'') (hq : E.Forked p p' q b f0 f)
    (hNext : ∀ f', E.Gets p p'' f0 f' r (some (flag b)) → E.Does n f' x Q) : E.Does n f x Q := by
  obtain ⟨k, rfl, hLe, hFree, hLt, rfl, hSets⟩ := materialize_sets h
  refine sets_does hSets hFree hLt hq (hNext _ ⟨⟨⟨rfl, (hq.fits.put hFree).goto⟩, ?_, ?_⟩, ?_, .picked hLt⟩)
  · exact hq.spares.trans (.put hLe (Nat.lt_succ_self k)) hq.next (Nat.le_succ_of_le hLe)
  · exact hq.next.trans (Nat.le_succ_of_le hLe)
  · exact reg?_put_self (hq.fits.size ▸ hLt)

/-! ## Values -/

section Values

variable {c : Option UInt64 → Eval α}

theorem value_does (h : Shape.value v (E.seen l) p' r p'') (hv : E.Brings past p p' f0 f v o)
    (hNext : ∀ y f', E.Gets p p'' f0 f' r y → E.Does n f' (c y) Q) : E.Does n f (o.value E.setting >>= c) Q := by
  cases v with
  | none t => exact h.elim
  | reg t s =>
    obtain ⟨rfl, rfl⟩ := h
    obtain ⟨y, rfl, hs⟩ := hv.of_reg
    exact hNext y f hs
  | place t s =>
    obtain ⟨rt, _, ⟨hRt, rfl⟩, _, _, ⟨-, rfl⟩, e, p', ⟨-, rfl⟩, hLoad⟩ := h
    obtain ⟨a, rfl, hs⟩ := hv.of_place
    simp only [Operand.value, bind_assoc, pure_bind]
    exact .known hRt (load_does hLoad hs.pos hs.reg fun y f' hr => hNext (some y) f' (hs.gets hr))
  | pending t q =>
    obtain ⟨b, rfl, hv⟩ := hv
    cases past with
    | false => exact materialize_does h hv (hNext _)
    | true =>
      obtain ⟨hPassed, hb⟩ := hv
      obtain ⟨k, rfl, hLe, -, hLt, rfl, hSets⟩ := Shape.materialize_sets h
      have hLe := Nat.le_succ_of_le hLe
      exact hNext _ f ⟨⟨⟨hPassed.pos, hPassed.fits⟩, hPassed.spares.mono le_rfl hLe, hPassed.next.trans hLe⟩,
        hb k hSets, .picked hLt⟩

theorem drop_does (h : drop v (E.seen l) p' u p'') (hv : E.Brings past p p' f0 f v o)
    (hNext : ∀ f', E.Passed p p'' f0 f' → E.Does n f' x Q) : E.Does n f x Q := by
  cases v with
  | pending t q =>
    obtain ⟨b, rfl, hv⟩ := hv
    obtain ⟨-, -, rfl⟩ := settle_iff.mp h
    cases past with
    | false =>
      refine settle_does h hv fun f' hSpares hFits hPos => ?_
      rw [ite_self] at hPos
      refine region_does hPos hv.marked.merge (hNext _ ⟨⟨?_, hFits.next⟩, hSpares, hv.next⟩)
      rw [next, hPos, hv.merge]
      rfl
    | true => exact hNext f hv.1
  | _ =>
    obtain ⟨-, rfl⟩ := h
    exact hNext f hv.1

theorem flag_ne_zero : (flag b != 0) = b := by cases b <;> rfl

theorem toPending_does {c : UInt64 → Eval α} (h : toPending v (E.seen l) p' q p'') (hv : E.Lands p p' f0 f v o)
    (hNext : ∀ y f', E.Forked p p'' q (y != 0) f0 f' → E.Does n f' (c y) Q) :
    E.Does n f (do
      let a ← o.value E.setting
      let y ← demand a
      c y) Q := by
  have hStart : ∀ {r s}, value v (E.seen l) p' r s → startPending r (E.seen l) s q p'' → E.Does n f (do
      let a ← o.value E.setting
      let y ← demand a
      c y) Q := by
    intro r s hValue hPending
    obtain ⟨hBranch, hTrue, hTrueRegion, -, -, hFalseRegion, -, -, hMergeRegion, rfl⟩ := startPending_iff.mp hPending
    refine value_does hValue hv fun y f' hr => branch_does hr.pos hBranch hr.reg fun v hv => hNext v _ ?_
    refine ⟨⟨hTrueRegion, hFalseRegion, hMergeRegion⟩, rfl, ?_, hr.spares, hr.next, hr.fits.goto⟩
    by_cases hZero : v = 0 <;> simp [goto, hZero]
  cases v with
  | pending t q' =>
    obtain ⟨rfl, rfl⟩ := h
    obtain ⟨b, rfl, hForked⟩ := hv
    refine hNext (flag b) f ?_
    rw [flag_ne_zero]
    exact hForked
  | _ =>
    obtain ⟨r, s, hValue, hPending⟩ := h
    exact hStart hValue hPending

/-! ## Memory -/

theorem discard_bind {x : Eval β} {c : Unit → Eval α} : (discard x >>= c) = x >>= fun _ => c () := by
  rw [Functor.discard, map_const, Function.comp_apply, map_eq_pure_bind, bind_assoc]
  simp only [pure_bind, Function.const_apply]

theorem Brings.ty (h : E.Brings past p p' f f' v o) : o.ty = v.ty := by
  cases v with
  | pending t q =>
    obtain ⟨b, rfl, -⟩ := h
    rfl
  | place t r =>
    obtain ⟨a, rfl, -⟩ := h.of_place
    rfl
  | reg t r =>
    obtain ⟨y, rfl, -⟩ := h.of_reg
    rfl
  | none t => cases o with
    | nothing t' => exact h.2.1
    | _ => exact h.2.1.elim

/-- The register of memory that was taken at the entry. -/
theorem reserve_does {e : Extent} (h : reserve e (E.seen l) p' r p'') (hPassed : E.Passed p p' f0 f) :
    ∃ a, E.Gets p p'' f0 f r (some a) := by
  obtain ⟨rfl, hFixed, hLt, -, rfl⟩ := h
  exact Passed.fixed ⟨⟨hPassed.pos, hPassed.fits⟩, hPassed.spares, hPassed.next⟩ hFixed hLt

/-- What is stuck whatever was done so far. -/
theorem Does.stuck (hStuck : ∀ ds, x ds = .error .stuck ds) (h : E.Does n f (throw .stuck : Eval α) Q) :
    E.Does n f x Q := by
  intro w m hw
  rw [hStuck]
  exact h w m hw

/-- A word or a value is put into memory that only this deed has named so far. -/
theorem freshPair_does {x : Instr} {s : Reg} {d : UInt64 → UInt64 → Deed} {a : UInt64} {c : UInt64 → Eval α}
    (hx : Joins x dst s d)
    (hWords : ∀ a b, (d a b).words[0]? = some a) (h : instr x (E.seen l) p u p') (hPos : f.pos = p.pos)
    (ha : f.reg? dst = some a)
    (hy : f.reg? s = y) (hNext : ∀ f', E.Passed p p' f f' → E.Does n f' (c a) Q) :
    E.Does n f (do
      let a ← E.setting.fresh 0
      let y ← demand y
      let _ ← E.setting.perform (d a y)
      c a) Q := by
  cases y with
  | none =>
    exact .stuck (fun ds => Setting.fresh_stuck fun _ _ => rfl)
      (.halts hPos h.1 (by simp [hx.deed, hy]) fun m _ => hx.halts m f (.inr hy))
  | some y =>
    have hDeed : f.deedOf? x = some (d a y, noReg) := by simp [hx.deed, ha, hy]
    exact .fresh hPos h.1 hDeed (hWords a y) (deed_does h hPos hDeed fun _ f' hPassed => hNext f' hPassed)

theorem address_does (h : Shape.address v (E.seen l) p' r p'') (hv : E.Lands p p' f0 f v o)
    (hNext : ∀ y f', E.Gets p p'' f0 f' r y → E.Does n f' (c y) Q) : E.Does n f (o.address E.setting >>= c) Q := by
  cases v with
  | place t s =>
    obtain ⟨rfl, rfl⟩ := h
    obtain ⟨a, rfl, hs⟩ := hv.of_place
    exact hNext a f hs
  | _ =>
    obtain ⟨s, s1, hValue, e, _, ⟨-, rfl⟩, tmp, s2, hReserve, rt, _, ⟨hRt, rfl⟩, _, _, hStore, rfl, rfl⟩ := h
    have hTy := hv.ty
    obtain ⟨t', y, rfl⟩ := hv.of_value hValue nofun
    simp only [Operand.address, bind_assoc, discard_bind, pure_bind]
    refine value_does hValue hv fun y f1 hs => ?_
    obtain ⟨a, hTmp⟩ := reserve_does hReserve hs.toPassed
    rw [hTy, hRt]
    exact freshPair_does (c := fun a => c (some a)) joins_store (fun _ _ => rfl) hStore hTmp.pos hTmp.reg hs.reg
      fun f2 hPassed =>
      hNext (some a) f2 (hTmp.after hPassed)

/-- The value of an operand is written to memory. -/
theorem assign_does {a : Option UInt64} {c : Unit → Eval α} (h : Shape.assignTo dst t v (E.seen l) p' u p'')
    (hv : E.Brings past p p' f0 f v o) (hf0 : E.Fits f0) (hHolds : E.text.Holds p.next dst) (hDst : f0.reg? dst = a)
    (hNext : ∀ f', E.Passed p p'' f0 f' → E.Does n f' (c ()) Q) : E.Does n f (o.assign E.setting a t >>= c) Q := by
  have hHeld : ∀ {s f'}, E.Passed p s f0 f' → f'.reg? dst = a := fun hPassed => (hPassed.reg?_eq hf0 hHolds).trans hDst
  obtain ⟨e, hExtent, hCases⟩ := Shape.of_assignTo h
  rw [Operand.assign, bind_assoc]
  refine .known hExtent ?_
  rcases hCases with ⟨hSize, hDrop⟩ | ⟨hSize, ⟨t', src, rfl, hScalar, hCopy⟩ | ⟨hWord, rt, s, s1, hRt, -, hValue, hStore⟩⟩
  · simp only [hSize, if_true, pure_bind]
    exact drop_does hDrop hv hNext
  · obtain ⟨b, rfl, hSrc⟩ := hv.of_place
    simp only [hSize, if_false, hScalar, bind_assoc, discard_bind]
    exact pair_does joins_copy hCopy hSrc.pos (hHeld hSrc.toPassed) hSrc.reg fun _ f' hPassed =>
      hNext f' (hSrc.trans hPassed)
  · have hStored : E.Does n f (do
        let y ← o.value E.setting
        let rt ← Eval.demand t.regType?
        let a ← Eval.demand a
        let y ← Eval.demand y
        let _ ← E.setting.perform (.store rt a y)
        c ()) Q := value_does hValue hv fun y f1 hs => .known hRt <|
      pair_does joins_store hStore hs.pos (hHeld hs.toPassed) hs.reg fun _ f2 hPassed => hNext f2 (hs.trans hPassed)
    cases hScalar : t.isScalar with
    | true => simpa only [hSize, if_false, bind_assoc, discard_bind] using hStored
    | false =>
      obtain ⟨t', y, rfl⟩ := hv.of_value hValue (hWord hScalar)
      simpa only [hSize, if_false, bind_assoc, discard_bind] using hStored

theorem canon_zero {t : RegType} : canon t 0 = 0 := by cases t <;> rfl

/-- Zeros are written over a value. -/
theorem clear_does {a : UInt64} {c : Unit → Eval α} (h : zero dst t (E.seen l) p u p') (hf : E.Rests p f)
    (hHolds : E.text.Holds p.next dst) (hDst : f.reg? dst = some a)
    (hNext : ∀ f', E.Passed p p' f f' → E.Does n f' (c ()) Q) : E.Does n f (clear E.setting a t >>= c) Q := by
  have hHeld : E.Gets p p f f dst (some a) := ⟨.refl hf, hDst, hHolds⟩
  obtain ⟨e, p, ⟨hExtent, rfl⟩, h⟩ := h
  rw [clear, bind_assoc]
  refine .known hExtent ?_
  rw [ite_iff] at h
  split at h
  · next hSize =>
    obtain ⟨-, rfl⟩ := h
    simp only [hSize, if_true, pure_bind]
    exact hNext f (.refl hf)
  · next hSize =>
    simp only [hSize, if_false]
    rw [ite_iff] at h
    split at h
    · next hScalar =>
      obtain ⟨rt, _, ⟨hRt, rfl⟩, s, p1, hImm, hStore⟩ := h
      simp only [hScalar, if_true, bind_assoc, discard_bind]
      refine .known hRt (imm_does hImm hf.pos fun f1 hs => ?_)
      rw [canon_zero] at hs
      exact pair_does joins_store hStore hs.pos (hHeld.after hs.toPassed).reg hs.reg fun _ f2 hPassed =>
        hNext f2 (hs.trans hPassed)
    · next hScalar =>
      obtain ⟨s, p1, hImm, hFill⟩ := h
      simp only [hScalar, Bool.false_eq_true, if_false, discard_bind]
      refine imm_does hImm hf.pos fun f1 hs => ?_
      rw [canon_zero] at hs
      have ha := (hHeld.after hs.toPassed).reg
      exact deed_does hFill hs.pos (by simp [deedOf?, ha, hs.reg]) fun _ f2 hPassed => hNext f2 (hs.trans hPassed)

/-! ## Words -/

theorem convert_does {source target : Ty} {d : Reg} (h : Shape.convert r source target (E.seen l) p' d p'')
    (hr : E.Gets p p' f0 f r y) (hNext : ∀ z f', E.Gets p p'' f0 f' d z → E.Does n f' (c z) Q) :
    E.Does n f (Word.convert source target y >>= c) Q := by
  obtain ⟨sr, _, ⟨hSr, rfl⟩, tr, _, ⟨hTr, rfl⟩, h⟩ := h
  simp only [Word.convert, bind_assoc]
  refine .known hSr (.known hTr ?_)
  beta_reduce at h
  generalize Conversion.between? source target sr tr = conversion at h ⊢
  cases conversion with
  | none => exact h.elim
  | some how => cases how with
    | keep =>
      obtain ⟨rfl, rfl⟩ := h
      exact hNext y f hr
    | test op =>
      obtain ⟨z, s, hImm, hBin⟩ := h
      simp only [bind_assoc, pure_bind]
      refine imm_does hImm hr.pos fun f1 hz => ?_
      have hr1 := hr.after hz.toPassed
      exact bin_does (g := fun v => c (some v)) hBin hz.pos hr1.reg hz.reg fun v f2 hd => hNext (some v) f2 (hr1.gets hd)
    | via op =>
      simp only [bind_assoc, pure_bind]
      exact un_does h hr.pos hr.reg fun v f1 hd => hNext _ f1 (hr.gets hd)

theorem offset_does {off : Int64} {d : Reg} (h : Shape.offset r off (E.seen l) p' d p'') (hr : E.Gets p p' f0 f r y)
    (hNext : ∀ z f', E.Gets p p'' f0 f' d z → E.Does n f' (c z) Q) : E.Does n f (Word.offset y off >>= c) Q := by
  rw [Shape.offset, Shape.ite_iff] at h
  rw [Word.offset]
  split at h
  · next hZero =>
    obtain ⟨rfl, rfl⟩ := h
    simp only [hZero, if_true, pure_bind]
    exact hNext y f hr
  · next hZero =>
    obtain ⟨z, s, hImm, hBin⟩ := h
    simp only [hZero, if_false, bind_assoc, pure_bind]
    refine imm_does hImm hr.pos fun f1 hz => ?_
    have hr1 := hr.after hz.toPassed
    exact bin_does (g := fun v => c (some v)) hBin hz.pos hr1.reg hz.reg fun v f2 hd => hNext (some v) f2 (hr1.gets hd)

end Values

end Scene

end Comptime
