import Comptime.Proofs.Shape.Expressions
import Comptime.Proofs.Simulation.Values
import Comptime.Proofs.Typing

/-!
# Expressions do what they say

The code of an expression does the deeds that its evaluation does, in this order, and control gets to where the value is
(`results_does`). The right operand of a logical operator stands on one of the paths of the left one, so control comes by it
exactly if the left operand does not decide (`chain_does`).
-/

namespace Comptime

open List Shape Comptime.Expr Word Operand Eval

variable {sig : Sig}

namespace Expr

mutual

/-- The variables of an expression. -/
def vars : Expr → List Nat
  | .absent | .int _ _ | .float _ _ | .bool _ => []
  | .ident _ (.var v) => [v.id]
  | .ident _ _ => []
  | .binary _ _ l r => vars l ++ vars r
  | .unary _ _ x | .cast _ x | .field _ x _ => vars x
  | .call _ fn args => vars fn ++ listVars args
  | .index _ x i => vars x ++ vars i

def listVars : List Expr → List Nat
  | [] => []
  | x :: xs => vars x ++ listVars xs

end

end Expr

/-- What is passed through memory is there to be copied. -/
def Param.Sized (x : Param) : Prop :=
  x.rule = .indirect → x.ty.isScalar = false ∧ ∀ e, x.ty.extent? = some e → e.size ≠ 0

theorem Convention.sized {direct : DirectSize} {t : Ty} {x : Param} (h : classify? direct t = some x) : x.Sized := by
  intro hRule
  unfold classify? at h
  split at h
  · cases h
    cases hRule
  · obtain ⟨size, hSize, h⟩ := Option.bind_eq_some_iff.mp h
    split_ifs at h with hZero hScalar hDirect
    · cases h
      cases hRule
    · obtain ⟨rt, -, h⟩ := Option.bind_eq_some_iff.mp h
      cases h
      cases hRule
    · cases h
      cases hRule
    · cases h
      refine ⟨Bool.eq_false_of_not_eq_true hScalar, fun e he hZero' => hZero ?_⟩
      rw [Ty.size?, he] at hSize
      exact (Option.some.inj hSize).symm.trans hZero'

/-- Every parameter of a convention is classified by its type. -/
theorem Convention.classified_of_mem {direct : DirectSize} {ins outs : List Ty} {x : Param}
    (hSig : sig? direct ins outs = some sig) (hx : x ∈ sig.params) : ∃ t, classify? direct t = some x := by
  have hAll := forall₂_of_sig hSig
  generalize sig.params = params at hAll hx
  clear hSig
  induction hAll with
  | nil => cases hx
  | cons hClass _ ih =>
    rcases mem_cons.mp hx with rfl | hx
    · exact ⟨_, hClass⟩
    · exact ih hx

namespace Scene

variable {E : Scene} {α β : Type} {n : Nat} {f0 f f' : Frame} {Q : α → Frame → Prop} {l : List (Nat × Reg)}
  {p p' p'' : Point} {u : Unit} {r dst : Reg} {v w : Value} {o : Operand} {q q' : Pending} {b : Bool} {t : Ty}
variable {slots : List (Nat × Reg)} {addrs : List UInt64}

/-- A variable is at home in its slot. One that has no slot is not at home here. -/
def Knows (E : Scene) (l : List (Nat × Reg)) (i : Nat) : Prop :=
  match l.lookup i with
  | some r => ∃ k : Nat, r = k ∧ E.text.fixed k ∧ k < E.text.numRegs ∧ E.setting.home i = E.entry k
  | none => E.setting.home i = none

theorem Brings.of_denotes {past : Bool} (hPassed : E.Passed p p' f f') (hv : v.Denotes f' o)
    (hHeld : v.HeldIn E.text p'.next) :
    E.Brings past p p' f f' v o := by
  cases v with
  | pending t q => cases o <;> exact hv.elim
  | _ => exact ⟨hPassed, hv, hHeld⟩

theorem reference_does {x : Ref} (h : reference x (E.seen l) p v p') (hf : E.Rests p f)
    (hVars : ∀ y, x = .var y → E.Knows l y.id) :
    E.Does n f (refer E.setting x) fun o f' => E.Lands p p' f f' v o := by
  cases x with
  | var y =>
    have hKnows := hVars y rfl
    obtain ⟨_, _, ⟨rfl, rfl⟩, h⟩ := h
    rw [Knows] at hKnows
    change (match lookup y.id l with
      | some r => pure (Value.place y.ty r)
      | none => do return Value.place y.ty (← addrOf y.name) : Shape Value) _ _ _ _ at h
    rw [refer]
    generalize lookup y.id l = slot at h hKnows
    cases slot with
    | some r =>
      obtain ⟨k, rfl, hFixed, hLt, hHome⟩ := hKnows
      obtain ⟨rfl, rfl⟩ := h
      have hReg : f.reg? k = E.setting.home y.id := (hf.fits.fixed k hFixed).trans hHome.symm
      have hSize : k < f.regs.size := hf.fits.size ▸ hLt
      rw [Frame.reg?_natCast, Array.getElem?_eq_getElem hSize] at hReg
      rw [← hReg]
      refine .pure fun _ => Gets.place ⟨.refl hf, ?_, .inr ⟨k, rfl, hLt, .inl hFixed⟩⟩
      rw [Frame.reg?_natCast, Array.getElem?_eq_getElem hSize]
    | none =>
      obtain ⟨r, _, hAddr, rfl, rfl⟩ := h
      rw [hKnows]
      exact addrOf_does hAddr hf.pos fun a f' hr => .pure fun _ => hr.place
  | proc y =>
    obtain ⟨r, _, hAddr, rfl, rfl⟩ := h
    exact addrOf_does hAddr hf.pos fun a f' hr => .pure fun _ => hr.word
  | _ => exact h.elim

theorem flag_eq_zero : (flag b == 0) = !b := by cases b <;> rfl

theorem Forked.swap (h : E.Forked p p' q b f f') : E.Forked p p' q.swap (!b) f f' where
  __ := h
  marked := ⟨h.marked.onFalse, h.marked.onTrue, h.marked.merge⟩
  pos := by
    rw [h.pos]
    cases b <;> rfl

theorem applyUnary_does {ty : Ty} {op : UnaryOp} (h : applyUnary ty op t v (E.seen l) p' w p'')
    (hv : E.Lands p p' f0 f v o) :
    E.Does n f (applyUnary E.setting ty op t o) fun a f' => E.Lands p p'' f0 f' w a := by
  -- a value in a register is compared with zero
  have hNot : ∀ {r z d s1 s2}, value v (E.seen l) p' r s1 → imm .i8 0 (E.seen l) s1 z s2 →
      bin .eq .i8 r z (E.seen l) s2 d p'' → w = .reg ty d →
      E.Does n f (applyUnary E.setting ty .not t o) fun a f' => E.Lands p p'' f0 f' w a := by
    rintro r z d s1 s2 hValue hImm hBin rfl
    refine value_does hValue hv fun y f1 hr => imm_does hImm hr.pos fun f2 hz => ?_
    have hr2 := hr.after hz.toPassed
    exact bin_does (g := fun v => pure (word ty (some v))) hBin hz.pos hr2.reg hz.reg fun v f3 hd =>
      .pure fun _ => (hr2.gets hd).word
  have hUnary : ∀ {op : Op} {rt r s d}, value v (E.seen l) p' r s → un op rt rt r (E.seen l) s d p'' →
      w = .reg ty d → E.Does n f (do
        let y ← o.value E.setting
        let y ← demand y
        return .word ty (some (unary op rt rt y))) fun a f' => E.Lands p p'' f0 f' w a := by
    rintro op rt r s d hValue hUn rfl
    exact value_does hValue hv fun y f1 hr => un_does hUn hr.pos hr.reg fun v f2 hd => .pure fun _ => (hr.gets hd).word
  cases op with
  | not =>
    cases v with
    | pending t q =>
      obtain ⟨rfl, rfl⟩ := h
      -- a pending one needs no code: its two ways are swapped
      obtain ⟨b, rfl, hForked⟩ := hv
      refine .pure fun _ => ⟨!b, ?_, hForked.swap⟩
      rw [flag_eq_zero]
    | _ =>
      obtain ⟨r, s1, hValue, z, s2, hImm, d, _, hBin, hw, rfl⟩ := h
      exact hNot hValue hImm hBin hw
  | neg | compl =>
    obtain ⟨rt, p', ⟨hRt, rfl⟩, r, s, hValue, d, _, hUn, hw, rfl⟩ := h
    exact .known hRt (hUnary hValue hUn hw)
  | deref =>
    obtain ⟨r, _, hValue, rfl, rfl⟩ := h
    exact value_does hValue hv fun y f1 hr => .pure fun _ => hr.place
  | addressOf =>
    obtain ⟨r, _, hAddress, rfl, rfl⟩ := h
    exact address_does hAddress hv fun y f1 hr => .pure fun _ => hr.word
  | other => exact h.elim

/-! ## Logical operators -/

/-- The right operand of a logical operator. Control comes by it if the left one does not decide. -/
theorem chain_does {and : Bool} {x : Shape Value} {e : Eval Operand} (h : chain and q x (E.seen l) p' q' p'')
    (hMarked : q'.Marked E.text.code) (hq : E.Forked p p' q b f0 f)
    (hEval : ∀ {s s' v f}, x (E.seen l) s v s' → E.Rests s f → E.Does n f e fun a f' => E.Lands s s' f f' v a) :
    E.Does n f (if b = and then do
        let o ← e
        let y ← o.value E.setting
        let y ← demand y
        return .word t (some (flag (y != 0)))
      else return .word t (some (flag b))) fun a f' => E.Lands p p'' f0 f' (.pending t q') a := by
  have hRises := rises _ h
  obtain ⟨start, v, s, s', hq', hv, rfl, hRest⟩ := of_chain h
  -- wherever control gets to, the paths meet where they met
  have hMerge : q'.merge = q.merge := by
    rw [hq']
    cases and <;> rfl
  have hLands : ∀ {b' : Bool} {f' : Frame}, f0.Spares p.next s'.next f' → E.Fits f' →
      f'.pos = ((if b' then q'.onTrue else q'.onFalse : Nat) : Int) →
      E.Lands p { s' with pos := p'.pos } f0 f' (.pending t q') (.word t (some (flag b'))) :=
    fun {b' f'} hSpares hFits hPos =>
      ⟨b', rfl, hMarked, hq.merge.trans (by rw [hMerge]), hPos, hSpares, hq.next.trans hRises, hFits⟩
  have hSpares : ∀ {f' : Frame}, f.next.Spares p'.next s'.next f' → f0.Spares p.next s'.next f' := fun h =>
    hq.spares.trans h hq.next hRises
  split
  · next hb =>
    -- the operand stands in the gap of the path that control has taken
    subst hb
    have hRegion : E.text.code[if b then q.onTrue else q.onFalse]? = some .region := by
      cases b with
      | true => exact hq.marked.onTrue
      | false => exact hq.marked.onFalse
    refine region_does hq.pos hRegion ((hEval hv ⟨by rw [Frame.next, hq.pos]; rfl, hq.fits.next⟩).bind fun a f1 _ hLands1 => ?_)
    rcases hRest with ⟨t', r, rfl, -, hSettle⟩ | ⟨r, s1, hValue, -, hCode, -, rfl⟩
    · obtain ⟨b', rfl, hForked⟩ := hLands1
      obtain ⟨-, -, rfl⟩ := settle_iff.mp hSettle
      refine settle_does hSettle hForked fun f2 hSpares2 hFits2 hPos2 => .pure fun _ => ?_
      rw [flag_ne_zero]
      exact hLands (hSpares hSpares2) hFits2 hPos2
    · refine value_does hValue hLands1 fun y f2 hr => branch_does hr.pos hCode hr.reg fun y _ => ?_
      refine .pure fun hFits => hLands (hSpares hr.spares) hFits ?_
      by_cases hZero : y = 0 <;> simp [Frame.goto, hZero]
  · next hb =>
    refine .pure fun _ => hLands (hq.spares.mono le_rfl hRises) hq.fits ?_
    rw [hq.pos, hq']
    cases and <;> cases b <;> first | rfl | contradiction

/-! ## Calls -/

/-- Registers have these values. -/
def Have (E : Scene) (p : Point) (f : Frame) (rs : List Reg) (ys : List (Option UInt64)) : Prop :=
  Forall₂ (fun r y => f.reg? r = y ∧ E.text.Holds p.next r) rs ys

theorem Have.after {rs : List Reg} {ys : List (Option UInt64)} (h : E.Have p f rs ys) (hf : E.Fits f)
    (hPassed : E.Passed p p' f f') : E.Have p' f' rs ys :=
  Forall₂.imp (fun _ _ hr => ⟨(hPassed.reg?_eq hf hr.2).trans hr.1, hr.2.mono hPassed.next⟩) h

theorem Have.mapM {rs : List Reg} {ys : List (Option UInt64)} (h : E.Have p f rs ys) : rs.mapM f.reg? = ys.mapM id := by
  induction h with
  | nil => rfl
  | cons hr _ ih => rw [mapM_cons, mapM_cons, ih, hr.1]; rfl

theorem pass_does {x : Param} {s : Option Reg} (h : Shape.pass x v (E.seen l) p' s p'') (hv : E.Lands p p' f0 f v o)
    (hSized : x.Sized) :
    E.Does n f (o.pass E.setting x) fun ys f' => E.Passed p p'' f0 f' ∧ E.Have p'' f' s.toList ys := by
  unfold Shape.pass at h
  rw [Operand.pass]
  cases hRule : x.rule with
  | ignore =>
    simp only [hRule] at h ⊢
    obtain ⟨_, _, hDrop, rfl, rfl⟩ := h
    exact drop_does hDrop hv fun f' hPassed => .pure fun _ => ⟨hPassed, .nil⟩
  | direct =>
    simp only [hRule] at h ⊢
    obtain ⟨r, _, hValue, rfl, rfl⟩ := h
    exact value_does hValue hv fun y f' hr => .pure fun _ => ⟨hr.toPassed, .cons ⟨hr.reg, hr.holds⟩ .nil⟩
  | indirect =>
    simp only [hRule] at h ⊢
    obtain ⟨hScalar, hSize⟩ := hSized hRule
    obtain ⟨e, p', ⟨hExtent, rfl⟩, _, _, ⟨rfl, hFixed, hLt, -, rfl⟩, _, _, hAssign, rfl, rfl⟩ := h
    have hLands : E.Lands p { p' with high := p'.high + 1 } f0 f v o := hv.at rfl rfl
    -- what is left to be shown once the value is in memory
    have hDone : ∀ {tmp s1 s2 f1 a}, E.Gets p s1 f0 f1 tmp (some a) → ∀ f2, E.Passed s1 s2 f1 f2 →
        E.Does n f2 (pure [some a]) fun ys f' => E.Passed p s2 f0 f' ∧ E.Have s2 f' [tmp] ys := fun ha f2 hPassed =>
      have ha := ha.after hPassed
      .pure fun _ => ⟨ha.toPassed, .cons ⟨ha.reg, ha.holds⟩ .nil⟩
    obtain ⟨_, hExtent', hCases⟩ := Shape.of_assignTo hAssign
    obtain rfl := Option.some.inj (hExtent.symm.trans hExtent')
    simp only [Operand.assign, hExtent, Eval.demand, pure_bind, if_neg (hSize e hExtent), hScalar]
    rcases hCases with ⟨hZero, -⟩ | ⟨-, ⟨t', src, rfl, -, hCopy⟩ | ⟨hWord, rt, r, s1, hRt, -, hValue, hStore⟩⟩
    · exact absurd hZero (hSize e hExtent)
    · obtain ⟨b, rfl, hSrc⟩ := hLands.of_place
      obtain ⟨a, ha⟩ := hSrc.toPassed.fixed hFixed hLt
      simp only [bind_assoc, discard_bind]
      exact freshPair_does joins_copy (fun _ _ => rfl) hCopy hSrc.pos ha.reg hSrc.reg (hDone ha)
    · obtain ⟨t', y, rfl⟩ : ∃ t' y, o = .word t' y := hLands.of_value hValue (hWord hScalar)
      simp only [hRt, Operand.value, bind_assoc, discard_bind, pure_bind]
      refine value_does (c := fun y => do
        let a ← E.setting.fresh 0
        let y ← Eval.demand y
        let _ ← E.setting.perform (.store rt a y)
        return [some a]) hValue hLands fun y f1 hr => ?_
      obtain ⟨a, ha⟩ := hr.toPassed.fixed hFixed hLt
      exact freshPair_does joins_store (fun _ _ => rfl) hStore hr.pos ha.reg hr.reg (hDone ha)

/-- The memory for results of a call was taken at the entry. -/
theorem resultSlots_does {hs : List Hidden} (h : resultSlots hs (E.seen l) p' slots p'') (hPassed : E.Passed p p' f0 f) :
    E.Passed p p'' f0 f ∧ ∃ addrs : List UInt64, addrs.length = hs.length ∧
      E.Have p'' f (slots.map (·.2)) (addrs.map some) ∧ slots.map (·.1) = hs.map (·.result) := by
  induction hs generalizing slots p' with
  | nil =>
    obtain ⟨rfl, rfl⟩ := h
    exact ⟨hPassed, [], rfl, .nil, rfl⟩
  | cons x hs ih =>
    obtain ⟨e, p', ⟨-, rfl⟩, r, s, hReserve, rest, _, hRest, rfl, rfl⟩ := h
    obtain ⟨a, ha⟩ := reserve_does hReserve hPassed
    obtain ⟨hPassed', addrs, hLength, hHave, hKeys⟩ := ih hRest ha.toPassed
    have hNext : s.next ≤ p''.next := rises _ hRest
    exact ⟨hPassed', a :: addrs, congrArg (· + 1) hLength, .cons ⟨ha.reg, ha.holds.mono hNext⟩ hHave, congrArg (_ :: ·) hKeys⟩

/-- The memory of a result, as the caller sees it and as it is said. -/
theorem lookup_zip {keys : List Nat} (i : Nat) (hHave : E.Have p f (slots.map (·.2)) (addrs.map some))
    (hKeys : slots.map (·.1) = keys) : (slots.lookup i = none ∧ (keys.zip addrs).lookup i = none) ∨
      ∃ r a, slots.lookup i = some r ∧ (keys.zip addrs).lookup i = some a ∧ f.reg? r = some a ∧ E.text.Holds p.next r := by
  subst hKeys
  induction slots generalizing addrs with
  | nil => exact .inl ⟨rfl, by simp⟩
  | cons s slots ih =>
    cases addrs with
    | nil => cases hHave
    | cons a addrs =>
      obtain ⟨hr, hRest⟩ := forall₂_cons.mp hHave
      obtain ⟨k, r⟩ := s
      by_cases hk : i = k
      · subst hk
        exact .inr ⟨r, a, by simp, by simp, hr⟩
      · have hne : (i == k) = false := beq_eq_false_iff_ne.mpr hk
        simpa [lookup_cons, hne] using ih hRest

/-- Values are at hand, and stand for these operands. -/
def Stood (E : Scene) (p : Point) (f : Frame) (vs : List Value) (os : List Operand) : Prop :=
  Forall₂ (fun v o => v.Denotes f o ∧ v.HeldIn E.text p.next) vs os

/-- The results of a call, once they are there. -/
theorem callResults_stood {a : UInt64} (hHave : E.Have p f (slots.map (·.2)) (addrs.map some))
    (hKeys : slots.map (·.1) = sig.hidden.map (·.result)) (hDst : f.reg? dst = if sig.retReg = .void then none else some a)
    (hHolds : E.text.Holds p.next dst) :
    E.Stood p f (Build.callResults sig slots dst) (sig.operands ((sig.hidden.map (·.result)).zip addrs) a) := by
  refine forall₂_iff_get.mpr ⟨by simp [Build.callResults, Sig.operands], fun i hi hi' => ?_⟩
  simp only [Build.callResults, Sig.operands, get_eq_getElem, getElem_mapIdx]
  by_cases hDirect : i + 1 = sig.results.length ∧ sig.ret.rule = .direct
  · simp only [if_pos hDirect]
    exact ⟨⟨rfl, hDst⟩, hHolds⟩
  by_cases hIgnore : i + 1 = sig.results.length ∧ sig.ret.rule = .ignore
  · simp only [if_neg hDirect, if_pos hIgnore]
    exact ⟨rfl, trivial⟩
  · simp only [if_neg hDirect, if_neg hIgnore]
    rcases lookup_zip i hHave hKeys with ⟨hNone, hNone'⟩ | ⟨r, b, hr, hb, hReg, hHeld⟩
    · rw [hNone, hNone']
      exact ⟨rfl, trivial⟩
    · rw [hr, hb]
      exact ⟨⟨rfl, hReg⟩, hHeld⟩

theorem Stood.getLast {vs : List Value} {os : List Operand} (h : E.Stood p f vs os) :
    (vs.getLast?.getD (.none .missing)).Denotes f (os.getLast?.getD (.nothing .missing)) ∧
      (vs.getLast?.getD (.none .missing)).HeldIn E.text p.next := by
  induction h with
  | nil => exact ⟨rfl, trivial⟩
  | cons hFirst hRest ih =>
    cases hRest with
    | nil => exact hFirst
    | cons _ _ => simpa only [getLast?_cons_cons] using ih

theorem mapM_id_map_some : (addrs.map some).mapM id = some addrs := by
  induction addrs with
  | nil => rfl
  | cons a addrs ih => rw [map_cons, mapM_cons, ih]; rfl

/-- A call, from where its target is known. -/
theorem called_does {sig : Sig} {args : List Expr} {target : Reg} {y : Option UInt64} {res : Value × List Value}
    (h : called sig args target (E.seen l) p' res p'')
    (hTarget : E.Gets p p' f0 f target y)
    (hArgs : ∀ {s s' rs f}, arguments args sig.params (E.seen l) s rs s' → E.Rests s f →
      E.Does n f (evalAll E.setting args sig.params) fun ys f' => E.Passed s s' f f' ∧ E.Have s' f' rs ys) :
    E.Does n f (do
      let passed ← evalAll E.setting args sig.params
      let slots ← E.setting.freshAll sig.hidden.length
      let a ← demand y
      let vs ← demand (passed.mapM id)
      let v ← E.setting.perform (.call a (slots ++ vs))
      return sig.operands ((sig.hidden.map (·.result)).zip slots) v)
      fun os f' => E.Passed p p'' f0 f' ∧ E.Stood p'' f' res.2 os ∧ res.1 = res.2.getLast?.getD (.none .missing) := by
  obtain ⟨slots, s1, hSlots, passed, s2, hArguments, dst, s3, hCall, rfl, rfl⟩ := h
  obtain ⟨hPassed1, addrs, hLength, hHave, hKeys⟩ := resultSlots_does hSlots hTarget.toPassed
  have hNext : p'.next ≤ s1.next := rises _ hSlots
  refine (hArgs hArguments hPassed1.toRests).bind fun ys f1 _ ⟨hPassed2, hYs⟩ => ?_
  have hTarget1 : f1.reg? target = y := (hPassed2.reg?_eq hPassed1.fits (hTarget.holds.mono hNext)).trans hTarget.reg
  have hSlots1 := hHave.after hPassed1.fits hPassed2
  have hSlotRegs : (slots.map (·.2)).mapM f1.reg? = some addrs := hSlots1.mapM.trans mapM_id_map_some
  -- the code is stuck at the call, and an evaluation where it asks for what is missing
  cases y with
  | none => exact .stuck (fun ds => Setting.freshAll_stuck fun _ _ => rfl) (call_halts hCall hPassed2.pos (.inl hTarget1))
  | some a =>
    cases hVs : ys.mapM id with
    | none =>
      refine .stuck (fun ds => Setting.freshAll_stuck fun _ _ => rfl) (call_halts hCall hPassed2.pos (.inr ?_))
      rw [mapM_append, hSlotRegs, hYs.mapM, hVs]
      rfl
    | some vs =>
      have hRegs : (slots.map (·.2) ++ passed).mapM f1.reg? = some (addrs ++ vs) := by
        rw [mapM_append, hSlotRegs, hYs.mapM, hVs]
        rfl
      obtain ⟨k, hCode⟩ := call_at hCall
      have hDeed : f1.deedOf? (.call sig.retReg k target (slots.map (·.2) ++ passed)) = some
        (.call a (addrs ++ vs), k) := by
        rw [Frame.deedOf?, hTarget1, hRegs]
        rfl
      refine .freshAll hPassed2.pos hCode hDeed rfl hLength ?_
      refine call_does hCall hPassed2.pos hTarget1 hRegs fun v f2 hDst => .pure fun _ => ?_
      exact ⟨(hPassed1.trans hPassed2).trans hDst.toPassed,
        callResults_stood (hSlots1.after hPassed2.fits hDst.toPassed) hKeys hDst.reg hDst.holds, rfl⟩

/-- A call, from the evaluation of its target on. -/
theorem invoke_does {fn : Expr} {args : List Expr} {res : Value × List Value}
    (h : Shape.results (.call t fn args) (E.seen l) p res p') (hf : E.Rests p f)
    (hFn : ∀ {s s' fv f}, Shape.results fn (E.seen l) s fv s' → E.Rests s f →
      E.Does n f (fn.eval E.setting) fun a f' => E.Lands s s' f f' fv.1 a)
    (hArgs : ∀ {ps s s' rs f}, (∀ x ∈ ps, x.Sized) → Shape.arguments args ps (E.seen l) s rs s' → E.Rests s f →
      E.Does n f (Expr.evalAll E.setting args ps) fun ys f' => E.Passed s s' f f' ∧ E.Have s' f' rs ys) :
    E.Does n f (Expr.invoke E.setting fn.ty? (fn.eval E.setting) (Expr.evalAll E.setting args)) fun os f' =>
      E.Passed p p' f f' ∧ E.Stood p' f' res.2 os ∧ res.1 = res.2.getLast?.getD (.none .missing) := by
  obtain ⟨ins, outs, sig, target, s, hTy, hSig, hCallee, hRest⟩ := Shape.of_call h
  have hSig' : Convention.sig? E.setting.direct ins outs = some sig := by rw [E.direct_eq]; exact hSig
  have hSized : ∀ x ∈ sig.params, x.Sized := fun x hx => by
    obtain ⟨ty, hClass⟩ := Convention.classified_of_mem hSig hx
    exact Convention.sized hClass
  rw [hTy, Expr.invoke]
  refine .known hSig' ?_
  cases fn with
  | ident ft ref =>
    cases ref with
    | proc y =>
      simp only [Expr.eval, Expr.refer, Operand.value, bind_assoc, pure_bind]
      exact addrOf_does hCallee hf.pos fun a f1 hTarget => called_does hRest hTarget (hArgs hSized)
    | _ =>
      obtain ⟨fv, s1, hTarget, hValue⟩ := hCallee
      refine (hFn hTarget hf).bind fun o f1 _ hLands => value_does hValue hLands fun y f2 hTarget => ?_
      exact called_does hRest hTarget (hArgs hSized)
  | _ =>
    obtain ⟨fv, s1, hTarget, hValue⟩ := hCallee
    refine (hFn hTarget hf).bind fun o f1 _ hLands => value_does hValue hLands fun y f2 hTarget => ?_
    exact called_does hRest hTarget (hArgs hSized)

/-! ## Expressions -/

mutual

/-- The code of an expression does what the expression says. -/
theorem results_does (x : Expr) {p p' : Point} {f : Frame} {res : Value × List Value} (h : results x (E.seen l) p res p')
    (hf : E.Rests p f) (hVars : ∀ i ∈ x.vars, E.Knows l i) :
    E.Does n f (x.eval E.setting) fun a f' => E.Lands p p' f f' res.1 a := by
  cases x with
  | absent => exact h.elim
  | int t v | float t v =>
    obtain ⟨rt, p, ⟨hRt, rfl⟩, d, _, hImm, rfl, rfl⟩ := h
    exact .known hRt (imm_does hImm hf.pos fun f' hd => .pure fun _ => hd.word)
  | bool b =>
    obtain ⟨d, _, hImm, rfl, rfl⟩ := h
    refine imm_does hImm hf.pos fun f' hd => .pure fun _ => ?_
    cases b <;> exact hd.word
  | ident t r =>
    obtain ⟨v, _, hRef, rfl, rfl⟩ := h
    refine reference_does hRef hf fun y hy => hVars y.id ?_
    subst hy
    exact mem_singleton_self _
  | binary t op left right =>
    have hMarked := results_marked h
    obtain ⟨lv, s1, hl, h⟩ := h
    obtain ⟨hVarsL, hVarsR⟩ := forall_mem_append.mp hVars
    have hLeft := results_does left hl hf hVarsL
    -- a logical operator, whose left operand has taken one of its paths
    have hLogical : ∀ {and : Bool} {q q' : Pending} {s2 : Point} {y : UInt64} {f1 : Frame},
        chain and q (do return (← results right).1) (E.seen l) s2 q' p' → q'.Marked E.text.code →
        E.Forked p s2 q (y != 0) f f1 →
        E.Does n f1 (if (y != 0) = and then do
            let o ← right.eval E.setting
            let y ← o.value E.setting
            let y ← demand y
            return .word t (some (flag (y != 0)))
          else return .word t (some (flag (y != 0)))) fun a f' => E.Lands p p' f f' (.pending t q') a := by
      intro and q q' s2 y f1 hChain hMarked hForked
      refine chain_does hChain hMarked hForked fun {s s' v f2} hv hf2 => ?_
      obtain ⟨rv, _, hr, rfl, rfl⟩ := hv
      exact results_does right hr hf2 hVarsR
    rw [eval]
    cases op with
    | land =>
      obtain ⟨q, s2, hPending, q', s3, hChain, rfl, rfl⟩ := h
      refine hLeft.bind fun o f1 _ hLands => toPending_does hPending hLands fun y f2 hForked => ?_
      have hDoes := hLogical (show chain true _ _ _ _ _ _ from hChain) hMarked hForked
      by_cases hZero : y = 0
      · rw [if_pos hZero]
        rwa [hZero] at hDoes
      · rw [if_neg hZero]
        rwa [if_pos (bne_iff_ne.mpr hZero)] at hDoes
    | lor =>
      obtain ⟨q, s2, hPending, q', s3, hChain, rfl, rfl⟩ := h
      refine hLeft.bind fun o f1 _ hLands => toPending_does hPending hLands fun y f2 hForked => ?_
      have hDoes := hLogical (show chain false _ _ _ _ _ _ from hChain) hMarked hForked
      by_cases hZero : y = 0
      · rw [if_neg (not_not.mpr hZero)]
        rwa [hZero] at hDoes
      · rw [if_pos hZero]
        rwa [bne_iff_ne.mpr hZero] at hDoes
    | _ =>
      obtain ⟨c, s2, hValue, rv, s3, hr, d, s4, hValue', lt, s5, ⟨hTy, rfl⟩, h⟩ := h
      refine hLeft.bind fun o f1 _ hLands => value_does hValue hLands fun y f2 hc => ?_
      refine (results_does right hr hc.toRests hVarsR).bind fun o' f3 _ hLands' => ?_
      refine value_does hValue' hLands' fun z f4 hd => .known hTy ?_
      -- the left operand has been kept in its register meanwhile
      have hc' := hc.after hd.toPassed
      beta_reduce at h
      generalize BinaryOp.instr _ lt = i at h ⊢
      cases i with
      | ok i =>
        obtain ⟨rt, _, ⟨hRt, rfl⟩, e, _, hBin, rfl, rfl⟩ := h
        exact .known hRt (bin_does hBin hd.pos hc'.reg hd.reg fun v f5 he => .pure fun _ => (hc'.gets he).word)
      | error _ => exact h.elim
  | unary t op x =>
    obtain ⟨v, s, hv, xt, _, ⟨hTy, rfl⟩, w, _, hUnary, rfl, rfl⟩ := h
    exact (results_does x hv hf hVars).bind fun o f1 _ hLands => .known hTy (applyUnary_does hUnary hLands)
  | call t fn args =>
    obtain ⟨hFnVars, hArgVars⟩ := forall_mem_append.mp hVars
    have hCall := invoke_does h hf (fun hFn hf => results_does fn hFn hf hFnVars) fun hSized hArgs hf =>
      arguments_does args _ hArgs hf hSized hArgVars
    rw [eval]
    refine hCall.bind fun os f' _ ⟨hPassed, hStood, hLast⟩ => .pure fun _ => ?_
    rw [hLast]
    exact .of_denotes hPassed hStood.getLast.1 hStood.getLast.2
  | cast t x =>
    obtain ⟨v, s1, hv, r, s2, hValue, xt, _, ⟨hTy, rfl⟩, d, _, hConvert, rfl, rfl⟩ := h
    rw [eval]
    refine (results_does x hv hf hVars).bind fun o f1 _ hLands => value_does hValue hLands fun y f2 hr => .known hTy ?_
    exact convert_does hConvert hr fun z f3 hd => .pure fun _ => hd.word
  | field t x name =>
    obtain ⟨v, s, hv, xt, _, ⟨hTy, rfl⟩, h⟩ := h
    rw [eval]
    refine (results_does x hv hf hVars).bind fun o f1 _ hLands => ?_
    rw [hTy]
    cases xt with
    | struct name' fs =>
      simp only at h ⊢
      generalize Ty.field? fs name = field at h ⊢
      cases field with
      | some field =>
        obtain ⟨addr, s1, hAddress, d, _, hOffset, rfl, rfl⟩ := h
        exact address_does hAddress hLands fun y f2 hr => offset_does hOffset hr fun z f3 hd => .pure fun _ => hd.place
      | none => exact h.elim
    | _ => exact h.elim
  | index t x i =>
    obtain ⟨v, s, base, s1, hv, hElement, hBase⟩ := of_index h
    obtain ⟨iv, s2, hi, r, s3, hValue, it, _, ⟨hIt, rfl⟩, k, s4, hConvert, e, _, ⟨hExtent, rfl⟩, size, s5, hImm, off,
      s6, hMul, d, _, hAdd, rfl, rfl⟩ := hElement
    rw [eval]
    obtain ⟨hBaseVars, hVars⟩ := forall_mem_append.mp hVars
    refine (results_does x hv hf hBaseVars).bind fun o f1 _ hLands => ?_
    -- arrays and pointers differ in how the base is had, and in nothing after it
    have hRest : ∀ y f1, E.Gets p s1 f f1 base y →
        E.Does n f1 (do
          let o ← i.eval E.setting
          let v ← o.value E.setting
          let it ← demand i.ty?
          let n ← convert it .s64 v
          let e ← demand t.extent?
          let n ← demand n
          let a ← demand y
          return .place t (some (a + n * e.size.toUInt64))) fun a f' => E.Lands p p' f f' (.place t d) a := by
      intro y f1 hBase
      refine (results_does i hi hBase.toRests hVars).bind fun o f2 _ hLands => value_does hValue hLands fun v f3 hr =>
        .known hIt ?_
      refine convert_does hConvert hr fun z f4 hk => .known hExtent (imm_does hImm hk.pos fun f5 hSize => ?_)
      have hk5 := hk.after hSize.toPassed
      refine bin_does (g := fun off => do
        let a ← demand y
        return place t (some (a + off))) hMul hSize.pos hk5.reg hSize.reg fun off f6 hOff => ?_
      have hBase6 := hBase.after (hk5.trans hOff.toPassed)
      exact bin_does (g := fun v => pure (place t (some v))) hAdd hOff.pos hBase6.reg hOff.reg fun v f7 hd =>
        .pure fun _ => (hBase6.gets hd).place
    rcases hBase with ⟨⟨u, n, hTy⟩, hAddress⟩ | ⟨⟨u, hTy⟩, hBase⟩
    · rw [hTy]
      exact address_does hAddress hLands hRest
    · rw [hTy]
      exact value_does hBase hLands hRest

theorem arguments_does (xs : List Expr) (ps : List Param) {p p' : Point} {f : Frame} {rs : List Reg}
    (h : arguments xs ps (E.seen l) p rs p') (hf : E.Rests p f) (hSized : ∀ x ∈ ps, x.Sized)
    (hVars : ∀ i ∈ listVars xs, E.Knows l i) :
    E.Does n f (evalAll E.setting xs ps) fun ys f' => E.Passed p p' f f' ∧ E.Have p' f' rs ys := by
  cases xs with
  | nil =>
    obtain ⟨rfl, rfl⟩ := h
    exact .pure fun _ => ⟨.refl hf, .nil⟩
  | cons x xs =>
    cases ps with
    | nil =>
      obtain ⟨rfl, rfl⟩ := h
      exact .pure fun _ => ⟨.refl hf, .nil⟩
    | cons y ps =>
      obtain ⟨v, s1, hv, r, s2, hPass, rest, _, hRest, rfl, rfl⟩ := h
      rw [forall_mem_cons] at hSized
      obtain ⟨hx, hxs⟩ := forall_mem_append.mp hVars
      rw [evalAll]
      refine (results_does x hv hf hx).bind fun o f1 _ hLands => ?_
      refine (pass_does hPass hLands hSized.1).bind fun ys f2 _ ⟨hPassed, hYs⟩ => ?_
      refine (arguments_does xs ps hRest hPassed.toRests hSized.2 hxs).bind fun zs f3 _ ⟨hPassed', hZs⟩ =>
        .pure fun _ => ⟨hPassed.trans hPassed', ?_⟩
      exact rel_append (hYs.after hPassed.fits hPassed') hZs

end

/-- All results of a call. -/
theorem callResults_does {fn : Expr} {args : List Expr} {res : Value × List Value}
    (h : results (.call t fn args) (E.seen l) p res p') (hf : E.Rests p f)
    (hVars : ∀ i ∈ (call t fn args).vars, E.Knows l i) :
    E.Does n f ((call t fn args).results E.setting) fun os f' => E.Passed p p' f f' ∧ E.Stood p' f' res.2 os := by
  obtain ⟨hFnVars, hArgVars⟩ := forall_mem_append.mp hVars
  refine (invoke_does h hf (fun hFn hf => results_does fn hFn hf hFnVars) fun hSized hArgs hf => ?_).imp fun _ _ _ h =>
    ⟨h.1, h.2.1⟩
  exact arguments_does args _ hArgs hf hSized hArgVars

end Scene

end Comptime
