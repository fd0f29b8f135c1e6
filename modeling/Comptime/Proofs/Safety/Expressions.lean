import Comptime.Proofs.Safety.Values

/-!
# Expressions are lowered or rejected

Lowering an expression that is typed never aborts (`Expr.Typed.completes`). The value it gives has the type of the
expression, and only a call whose result takes no room leaves none.
-/

namespace Comptime

open Builder Build List Comptime.Expr Convention

variable {direct : DirectSize} {ins outs : List Ty} {args : List Expr}

/-! ## Results of calls -/

theorem getLast?_of_forall₂ {α β : Type} {R : α → β → Prop} {as : List α} {bs : List β} {b : β} (h : Forall₂ R as bs)
    (hLast : bs.getLast? = some b) : ∃ a, as.getLast? = some a ∧ R a b := by
  obtain ⟨hLen, hAt⟩ := forall₂_iff_get.mp h
  rw [getLast?_eq_getElem?, getElem?_eq_some_iff] at hLast
  obtain ⟨hLt, rfl⟩ := hLast
  have hLt' : bs.length - 1 < as.length := hLen ▸ hLt
  exact ⟨as[bs.length - 1], by rw [getLast?_eq_getElem?, hLen, getElem?_eq_getElem], hAt _ hLt' hLt⟩

/-- The results of a call have the types of the procedure. -/
theorem Build.fits_callResults {sig : Sig} {slots : List (Nat × Reg)} (dst : Reg)
    (hSig : sig? direct ins outs = some sig) (hPlain : ∀ t ∈ outs, t.Plain) (hRegular : Regular direct)
    (hSlots : slots.map (·.1) = sig.hidden.map (·.result)) :
    Forall₂ (fun v t => Value.Fits t v) (callResults sig slots dst) outs := by
  obtain ⟨hResults, -⟩ := sig?_eq_some hSig
  refine forall₂_iff_get.mpr ⟨by rw [callResults, length_mapIdx, hResults], fun i hi hi' => ?_⟩
  have ht : outs[i]? = some outs[i] := getElem?_eq_getElem hi'
  have hEnd : i + 1 = outs.length → outs.getLast? = some outs[i] := fun hLast => by
    rw [getLast?_eq_getElem?, ← hLast, Nat.add_sub_cancel, ht]
  simp only [get_eq_getElem, callResults, getElem_mapIdx, hResults]
  split_ifs with hDirect hIgnore
  · exact ⟨rfl, (ret_spec hSig hPlain hRegular (hEnd hDirect.1)).2 hDirect.2⟩
  · exact (ret_spec hSig hPlain hRegular (hEnd hIgnore.1)).1 hIgnore.2
  · -- the result comes back through a pointer, and so there is memory for it
    have hIn : i ∈ sig.hidden.map (·.result) := mem_hidden hSig ht fun hLast => by
      cases hRule : sig.ret.rule with
      | ignore => exact absurd ⟨hLast, hRule⟩ hIgnore
      | direct => exact absurd ⟨hLast, hRule⟩ hDirect
      | indirect => rfl
    rw [← hSlots, mem_map] at hIn
    obtain ⟨⟨j, r⟩, hMem, rfl⟩ := hIn
    cases hFind : slots.lookup j with
    | none => exact absurd rfl (bne_iff_ne.mp (lookup_eq_none_iff.mp hFind (j, r) hMem))
    | some r' => rfl

/-! ## Expressions -/

namespace Builder

variable {b : Builder} {v : Value} {t : Ty}

/-- A value of type `t` that is there. -/
def Present (t : Ty) (v : Value) (b : Builder) : Prop := v.Fits t ∧ v.Joined b ∧ v.isNone = false

theorem reference_completes {r : Ref} (ht : (∃ x : Variable, r = .var x ∧ x.ty = t) ∨ ∃ p : ProcRef, r = .proc p ∧ p.ty = t)
    (hPlain : t.Plain) :
    Completes (reference r) b (Present t) := by
  rcases ht with ⟨x, rfl, rfl⟩ | ⟨p, rfl, rfl⟩
  · refine .bind (x := slot? x) (Q := fun o _ => True) trivial fun o b1 _ _ => ?_
    cases o with
    | some r => exact ⟨rfl, trivial, rfl⟩
    | none =>
      cases x.isGlobal with
      | false => exact .reject_bind
      | true =>
        refine need_safe.bind fun _ b2 _ _ => .bind (x := referVar x) (Q := fun _ _ => True) trivial fun _ b3 _ _ => ?_
        exact define_safe.bind fun _ _ _ _ => ⟨rfl, trivial, rfl⟩
  · refine need_safe.bind fun _ b1 _ _ => .bind (x := referProc p) (Q := fun _ _ => True) trivial fun _ b2 _ _ => ?_
    exact define_safe.bind fun _ _ _ _ => ⟨⟨rfl, hPlain.carried rfl⟩, trivial, rfl⟩

/-- What is converted is converted to a type that has registers. -/
theorem convert_completes {r : Reg} {source target : Ty} (hSource : source.Plain) (hTarget : target.Plain) :
    Completes (convert r source target) b fun _ _ => target.Carried := by
  obtain ⟨sr, hsr⟩ := Ty.exists_regType hSource.given
  obtain ⟨tr, htr⟩ := Ty.exists_regType hTarget.given
  refine .demand hsr (.demand htr ?_)
  cases hConv : Conversion.between? source target sr tr with
  | none => exact .reject
  | some c =>
    have hScalar : target.isScalar = true := by
      cases source <;> cases target <;> first | rfl | cases hConv
    have hCarried := hTarget.carried hScalar
    cases c with
    | keep => exact .pure hCarried
    | test op => exact define_safe.bind fun _ _ _ _ => define_safe.imp fun _ _ _ _ => hCarried
    | via op => exact define_safe.imp fun _ _ _ _ => hCarried

theorem offset_safe {addr : Reg} {off : Int64} : Answers (offset addr off) b := by
  unfold offset
  split
  · exact .pure trivial
  · exact define_safe.bind fun _ _ _ _ => define_safe

section Operands

variable {q : Pending} {b0 : Builder} (hq : q.Joined b0) (hLow : Lowered ∅ b0 b) (hb : b.Apt) (hv : v.Settled)
  (hFits : v.Fits .bool)

include hLow hb hv hFits

/-- An operand that is not a pair of paths is tested in a register. -/
theorem tested_completes : Completes (value v) b fun _ b' => Lowered ∅ b0 b' := by
  refine (value_completes hb hv.fresh.open hFits .bool).imp ?_
  rintro r b1 - ⟨-, hLow1⟩
  rw [hv.spots_eq] at hLow1
  exact hLow.andThen hLow1

include hq

theorem holding_completes :
    Completes (do
      let (yes, no) ← branchFalse (← value v)
      patch no q.onFalse
      return { q with onTrue := yes }) b fun q' b' => Lowered ∅ b0 b' ∧ q'.Joined b' := by
  refine (tested_completes hLow hb hv hFits).bind fun r b1 _ hLow1 => branchFalse_completes.bind ?_
  rintro ⟨yes, no⟩ b2 hRun ⟨hYes, hNo, hOn2⟩
  obtain ⟨-, rfl, hLow2, -⟩ := branchFalse_eq_ok hLow1.sound hRun
  have hOn := (hLow1.onward fun _ => Set.notMem_empty _).trans hOn2
  refine (patch_onward hNo (hOn.region _ hq.onFalse)).bind fun _ b3 hPatch hOn3 => ?_
  refine ⟨((hLow1.andThen hLow2).patch hLow1.grows.handles hPatch).1, ?_⟩
  exact hq.restart true (hOn.trans hOn3) (hOn3.region _ hYes)

theorem failing_completes :
    Completes (do
      let r ← value v
      let br ← emit (.branch r [⟨0, noHandle⟩] q.onTrue)
      let no ← region
      patch ⟨br, some 0⟩ no
      return { q with onFalse := no }) b fun q' b' => Lowered ∅ b0 b' ∧ q'.Joined b' := by
  refine (tested_completes hLow hb hv hFits).bind fun r b1 _ hLow1 => emit_completes.bind ?_
  rintro _ _ - ⟨rfl, rfl⟩
  refine emit_completes.bind ?_
  rintro _ _ - ⟨rfl, rfl⟩
  have hEdge : (b1.emitted (.branch r [⟨0, noHandle⟩] q.onTrue)).Patchable ⟨b1.handles, some 0⟩ :=
    patchable_emitted fun i hi => by cases hi; exact Nat.zero_lt_one
  refine (patch_onward (Onward.emitted.patchable _ hEdge) isRegion_emitted).bind fun _ b2 hPatch hOn2 => ?_
  refine ⟨(((hLow1.emit _).emit _).patch hLow1.grows.handles hPatch).1, ?_⟩
  exact hq.restart false ((hLow1.onward fun _ => Set.notMem_empty _).trans
    ((Onward.emitted.trans .emitted).trans hOn2)) (hOn2.region _ isRegion_emitted)

end Operands

/-- A further operand on one path of a pending value. -/
theorem chain_completes {and : Bool} {q : Pending} {code : Build Value} {X : Shape Value} (hb : b.Apt) (hq : q.Open b)
    (hJoined : q.Joined b) (hT : ∀ b0 : Builder, Traces .value ∅ b0 code fun _ => X)
    (hCode : ∀ b0 : Builder, b0.Apt → Completes code b0 fun v b' => v.Fits .bool ∧ v.Joined b') :
    Completes (chain and q code) b fun q' b' => q'.Joined b' := by
  have hL := hq.leaves and
  have hb0 : (b.opened (q.exit and)).Apt := ⟨(hL.opened hb.sound).1, hb.regular⟩
  have hJoined0 : q.Joined (b.opened (q.exit and)) := ⟨⟨hJoined.onTrue.lt, hJoined.onTrue.code⟩,
    ⟨hJoined.onFalse.lt, hJoined.onFalse.code⟩, ⟨hJoined.merge.lt, hJoined.merge.code⟩⟩
  have hOperand : Completes code (b.opened (q.exit and)) fun v b1 => Lowered ∅ (b.opened (q.exit and)) b1 ∧ v.Fresh b1 ∧
      (∀ u ∈ v.spots, (b.opened (q.exit and)).handles ≤ u.handle) ∧ v.Fits .bool ∧ v.Joined b1 :=
    (hCode _ hb0).imp fun v b1 hRun hv => by
      obtain ⟨hLow, -, hFresh, hLoose, -⟩ := hT _ hb0.sound v b1 hRun
      exact ⟨hLow, hFresh, fun u hu => (hLoose u hu).resolve_right id, hv⟩
  generalize hOpened : b.opened (q.exit and) = b0 at *
  -- what is said of the code in the insertion carries over to the builder around it
  suffices hInside : Completes _ b0 fun q' b' => Lowered ∅ b0 b' ∧ Pending.Joined q' b' by
    refine (insertBefore_completes hb.sound hL (hOpened ▸ hInside)).imp ?_
    rintro q' b' - ⟨b2, hQ, hOn⟩
    exact hQ.onward hOn
  refine hOperand.bind ?_
  rintro v b1 - ⟨hLow1, hFresh, hNew, hFits, hv⟩
  have hb1 := hb0.lowered hLow1
  have hOn1 := hLow1.onward fun _ => Set.notMem_empty _
  cases and with
  | true =>
    cases v with
    -- a pending operand shares its exit with the chain, and any other one is tested
    | pending u r =>
      refine (patch_onward (hFresh.1.onFalse.patchable hb1.sound) (hOn1.region _ hJoined0.onFalse)).bind
        fun _ b2 hPatch hOn2 => ?_
      refine ⟨(hLow1.patch (hNew (.code r.leaveFalse) (.inr rfl)) hPatch).1, ?_⟩
      exact hJoined0.restart true (hOn1.trans hOn2) (hOn2.region _ hv.merge)
    | _ => exact holding_completes hJoined0 hLow1 hb1 trivial hFits
  | false =>
    cases v with
    | pending u r =>
      refine (patch_onward (hFresh.1.onTrue.patchable hb1.sound) (hOn1.region _ hJoined0.onTrue)).bind
        fun _ b2 hPatch hOn2 => ?_
      refine ⟨(hLow1.patch (hNew (.code r.leaveTrue) (.inl rfl)) hPatch).1, ?_⟩
      exact hJoined0.restart false (hOn1.trans hOn2) (hOn2.region _ hv.merge)
    | _ => exact failing_completes hJoined0 hLow1 hb1 trivial hFits

/-! ## Calls -/

theorem resultSlots_completes {hs : List Hidden} (hb : b.Apt) (hPlain : ∀ h ∈ hs, h.ty.Plain) :
    Completes (resultSlots hs) b fun rs b' => b'.Apt ∧ b'.config = b.config ∧ rs.map (·.1) = hs.map (·.result) := by
  induction hs generalizing b with
  | nil => exact ⟨hb, rfl, rfl⟩
  | cons h hs ih =>
    obtain ⟨e, hExtent⟩ := h.ty.exists_extent (hPlain h mem_cons_self).given
    refine .demand hExtent ((reserve_completes hb).bind fun r b1 _ ⟨hb1, hLow1⟩ => ?_)
    refine (ih hb1 fun h hh => hPlain h (mem_cons_of_mem _ hh)).bind fun rs b2 _ ⟨hb2, hConfig, hrs⟩ => ?_
    exact ⟨hb2, hConfig.trans hLow1.grows.config, by rw [map_cons, map_cons, hrs]⟩

theorem pass_completes {p : Param} (hb : b.Apt) (hv : v.Open b) (hFits : v.Fits t) (hPlain : t.Plain)
    (hClass : Convention.classify? b.config.direct t = some p) :
    Completes (Build.pass p v) b fun _ b' => b'.Apt ∧ b'.config = b.config := by
  have hSafe : Answers (Build.pass p v) b := by
    obtain ⟨hTy, -, hDirect, -⟩ := Convention.classify?_spec hb.regular hPlain hClass
    unfold Build.pass
    cases hRule : p.rule with
    | ignore => exact .pure trivial
    | direct => exact (value_completes hb hv hFits (hDirect hRule)).bind fun _ _ _ _ => .pure trivial
    | indirect =>
      obtain ⟨e, hExtent⟩ := t.exists_extent hPlain.given
      rw [hTy]
      refine .demand hExtent ((reserve_completes hb).bind fun tmp b1 _ ⟨hb1, hLow1⟩ => ?_)
      have hv1 := hv.lowered hb.sound hLow1 fun _ _ => Set.notMem_empty _
      exact (assignTo_completes hb1 hv1 hFits hPlain).bind fun _ _ _ _ => .pure trivial
  exact (hSafe.traced hb (pass_traces hv)).imp fun _ _ _ h => ⟨h.1, h.2.1.grows.config⟩

end Builder

/-- What lowering an expression of type `t` gives: a value of that type, and all the results if it is a call. -/
structure Expr.Yields (x : Expr) (t : Ty) (v : Value × List Value) (b : Builder) : Prop where
  fits : v.1.Fits t
  joined : v.1.Joined b
  left : x.isVacant = false → v.1.isNone = false
  all : ∀ u fn args ins outs, x = .call u fn args → fn.Typed (.func ins outs) →
    Forall₂ (fun w t => Value.Fits t w) v.2 outs

/-- Lowering an expression gives that, and does not abort. -/
abbrev Expr.Completes (x : Expr) (t : Ty) (b : Builder) : Prop := Build.Completes (Build.results x) b (x.Yields t)

/-- A typed expression whose lowering does not abort. -/
structure Expr.Works (x : Expr) (t : Ty) : Prop where
  typed : x.Typed t
  completes : ∀ b : Builder, b.Apt → x.Completes t b

namespace Expr.Works

variable {b : Builder} {x : Expr} {t : Ty} {α : Type} {R : α → Builder → Prop} (hx : x.Works t) (hb : b.Apt)

include hx hb

theorem andThen {k : Value × List Value → Build α}
    (hk : ∀ v b1, b1.Apt → v.1.Fresh b1 → x.Yields t v b1 → Build.Completes (k v) b1 R) :
    Build.Completes (Build.results x >>= k) b R :=
  ((hx.completes b hb).traced hb (results_traces x b)).bind fun v b1 _ ⟨hb1, _, hv, hYields⟩ => hk v b1 hb1 hv.1 hYields

theorem value (hCarried : t.Carried) {k : Reg → Build α} (hk : ∀ r b1, b1.Apt → Build.Completes (k r) b1 R) :
    Build.Completes (Build.results x >>= fun v => Build.value v.1 >>= k) b R :=
  hx.andThen hb fun _ _ hb1 hv hYields =>
    (value_completes hb1 hv.open hYields.fits hCarried).bind fun r b2 _ ⟨hb2, _⟩ => hk r b2 hb2

end Expr.Works

namespace Builder

variable {b : Builder}

theorem arguments_safe {ps : List Param} (hClass : List.Forall₂ (fun t p => Convention.classify? direct t = some p) ins ps)
    (hPlain : ∀ t ∈ ins, t.Plain) (hArgs : ∀ p ∈ args.zip ins, p.1.Works p.2) (hb : b.Apt)
    (hConfig : b.config.direct = direct) : Answers (arguments args ps) b := by
  induction args generalizing ins ps b with
  | nil => exact .pure trivial
  | cons x xs ih =>
    cases hClass with
    | nil => exact .pure trivial
    | @cons t p ts ps hHead hTail =>
      refine ((hArgs (x, t) mem_cons_self).completes b hb).traced hb (results_traces x b) |>.bind
        fun w b1 _ ⟨hb1, hLow1, hw, hYields⟩ => ?_
      have hConfig1 : b1.config.direct = direct := by rw [hLow1.grows.config, hConfig]
      refine (pass_completes hb1 hw.1.open hYields.fits (hPlain t mem_cons_self) (hConfig1 ▸ hHead)).bind
        fun r b2 _ ⟨hb2, hConfig2⟩ => ?_
      exact (ih hTail (fun t ht => hPlain t (mem_cons_of_mem _ ht)) (fun q hq => hArgs q (mem_cons_of_mem _ hq))
        hb2 (hConfig2 ▸ hConfig1)).bind fun _ _ _ _ => .pure trivial

/-- A call, given what is called. -/
theorem called_completes {fn : Expr} {sig : Sig} {target : Reg} (hFn : fn.Typed (.func ins outs))
    (hArgs : ∀ p ∈ args.zip ins, p.1.Works p.2) (hb : b.Apt) (hSig : sig? b.config.direct ins outs = some sig) :
    Completes (called sig args target) b
      ((call (outs.getLast?.getD .void) fn args).Yields (outs.getLast?.getD .void)) := by
  obtain ⟨hIns, hOuts⟩ := hFn.plain.of_func
  refine (resultSlots_completes hb fun h hh => hidden_mem hSig hh hOuts hb.regular).bind
    fun slots b1 _ ⟨hb1, hConfig, hSlots⟩ => ?_
  refine (arguments_safe (forall₂_of_sig hSig) hIns hArgs hb1 (by rw [hConfig])).bind fun passed b2 _ _ => ?_
  refine call_safe.bind fun dst b3 _ _ => .pure ?_
  have hAll := fits_callResults dst hSig hOuts hb.regular hSlots
  have hLast : ((callResults sig slots dst).getLast?.getD (.none .missing)).Fits (outs.getLast?.getD .void) := by
    cases hEnd : outs.getLast? with
    | none =>
      rw [getLast?_eq_none_iff.mp hEnd, forall₂_nil_right_iff] at hAll
      rw [hAll]
      exact rfl
    | some t =>
      obtain ⟨v, hv, hFits⟩ := getLast?_of_forall₂ hAll hEnd
      rw [hv]
      exact hFits
  refine ⟨hLast, ?_, fun hVacant => hLast.isNone_eq fun hSize => ?_, fun u fn' args' ins' outs' hEq hFn' => ?_⟩
  · cases hEnd : (callResults sig slots dst).getLast? with
    | none => trivial
    | some v => exact (settled_callResults v (mem_of_getLast? hEnd)).joined
  · rw [isVacant, hSize] at hVacant
    cases hVacant
  · cases hEq
    cases Option.some.inj (hFn.ty_eq.symm.trans hFn'.ty_eq)
    exact hAll

/-! ## All expressions -/

/-- A value that is not a call's. -/
theorem Present.yields {x : Expr} {v : Value} {t : Ty} (h : Present t v b) (hx : ∀ u fn args, x ≠ .call u fn args) :
    x.Yields t (v, []) b :=
  ⟨h.1, h.2.1, fun _ => h.2.2, fun u fn args _ _ hEq => absurd hEq (hx u fn args)⟩

section Operators

variable {v : Value} {t ty : Ty} (hb : b.Apt) (hv : v.Fresh b) (hFits : v.Fits t)

include hb hv hFits

theorem not_completes (hJoined : v.Joined b) (ht : t = .bool) :
    Completes (applyUnary .bool .not t v) b (Present .bool) := by
  subst ht
  have hTest : Completes (do
      let r ← value v
      let z ← imm .i8 0
      return Value.reg .bool (← bin .eq .i8 r z)) b (Present .bool) :=
    (value_completes hb hv.open hFits .bool).bind fun r b1 _ _ => define_safe.bind fun z b2 _ _ =>
      define_safe.bind fun d b3 _ _ => .pure ⟨⟨rfl, .bool⟩, trivial, rfl⟩
  cases v with
  | pending u q => exact ⟨⟨rfl, rfl⟩, ⟨hJoined.onFalse, hJoined.onTrue, hJoined.merge⟩, rfl⟩
  | _ => exact hTest

theorem deref_completes (hCarried : t.Carried) :
    Completes (applyUnary ty .deref t v) b (Present ty) := by
  have hSafe := value_completes hb hv.open hFits hCarried
  cases v <;> exact hSafe.bind fun r _ _ _ => .pure ⟨rfl, trivial, rfl⟩

theorem addressOf_completes (hNone : v.isNone = false) (hTy : ty.Carried) :
    Completes (applyUnary ty .addressOf t v) b (Present ty) := by
  have hSafe := address_completes hb hv.open hFits hNone
  cases v <;> exact hSafe.bind fun r _ _ _ => .pure ⟨⟨rfl, hTy⟩, trivial, rfl⟩

theorem arithmetic_completes {op : UnaryOp} (hNot : op ≠ .not) (hDeref : op ≠ .deref) (hAddr : op ≠ .addressOf)
    (hCarried : t.Carried) (hTy : ty.Carried) :
    Completes (applyUnary ty op t v) b (Present ty) := by
  obtain ⟨rt, hReg, -⟩ := hCarried.reg
  have hUnary : ∀ f : RegType → Op, Completes (do
      let rt ← regType t
      return Value.reg ty (← un (f rt) rt rt (← value v))) b (Present ty) := fun f =>
    .demand hReg ((value_completes hb hv.open hFits hCarried).bind fun _ _ _ _ =>
      define_safe.bind fun r _ _ _ => .pure ⟨⟨rfl, hTy⟩, trivial, rfl⟩)
  cases op with
  | not => exact absurd rfl hNot
  | deref => exact absurd rfl hDeref
  | addressOf => exact absurd rfl hAddr
  | neg => cases v <;> exact hUnary fun rt => if rt.isFloat then .fneg else .neg
  | compl => cases v <;> exact hUnary fun _ => .not
  | other s => cases v <;> exact .reject

end Operators

end Builder

namespace Expr

variable {b : Builder} {x y l r : Expr} {t u tl tr : Ty} (hb : b.Apt)

include hb

theorem logical_completes {op : BinaryOp} (hOp : op = .land ∨ op = .lor) (hl : l.Works .bool) (hr : r.Works .bool) :
    (binary .bool op l r).Completes .bool b := by
  refine hl.andThen hb fun lv b1 hb1 hlv hYields => ?_
  have hChain : ∀ and : Bool, Build.Completes (do
      let p ← toPending lv.1
      let p ← chain and p (do return (← Build.results r).1)
      return (.pending .bool p, [])) b1 ((binary .bool op l r).Yields .bool) := fun and => by
    refine ((toPending_completes hb1 hlv hYields.joined hYields.fits).traced hb1 (toPending_traces hlv)).bind
      fun q b2 _ ⟨hb2, _, hq, hJoined⟩ => ?_
    refine (chain_completes hb2 hq.1 hJoined (fun _ => expr_traces) fun b0 hb0 => ?_).bind fun q' b3 _ hJoined' => ?_
    · exact (hr.completes b0 hb0).bind fun v b' _ hv => .pure ⟨hv.fits, hv.joined⟩
    · exact ⟨⟨rfl, rfl⟩, hJoined', fun _ => rfl, nofun⟩
  rcases hOp with rfl | rfl
  · exact hChain true
  · exact hChain false

theorem binary_completes {op : BinaryOp} (hAnd : op ≠ .land) (hOr : op ≠ .lor) (hl : l.Works tl) (hr : r.Works tr)
    (hsl : tl.isScalar = true) (hsr : tr.isScalar = true) (hCarried : t.Carried) :
    (binary t op l r).Completes t b := by
  have hCarriedL := hl.typed.plain.carried hsl
  obtain ⟨rt, hReg, -⟩ := hCarriedL.reg
  refine hl.andThen hb fun lv b1 hb1 hlv hYields => ?_
  have hOperands {k : Reg → Reg → Ty → Build (Value × List Value)}
      (hk : ∀ a c b3, Build.Completes (k a c tl) b3 ((binary t op l r).Yields t)) :
      Build.Completes (do k (← Build.value lv.1) (← Build.value (← Build.results r).1) (← typeOf l)) b1
        ((binary t op l r).Yields t) := by
    refine (value_completes hb1 hlv.open hYields.fits hCarriedL).bind fun a b2 _ h2 => ?_
    exact hr.value h2.1 (hr.typed.plain.carried hsr) fun c b3 _ => .demand hl.typed.ty_eq (hk a c b3)
  cases op with
  | land => exact absurd rfl hAnd
  | lor => exact absurd rfl hOr
  | _ =>
    refine hOperands fun a c b3 => ?_
    split
    · refine .demand hReg (define_safe.bind fun d b4 _ _ => Present.yields ⟨⟨rfl, hCarried⟩, trivial, rfl⟩ ?_)
      rintro _ _ _ ⟨⟩
    · exact .reject

/-- A unary operator, given that it can be applied. -/
theorem unary_completes {op : UnaryOp} (hx : x.Works t)
    (hApply : ∀ (b : Builder) (v : Value × List Value), b.Apt → v.1.Fresh b → x.Yields t v b →
      Build.Completes (Build.applyUnary u op t v.1) b (Present u)) :
    (unary u op x).Completes u b :=
  hx.andThen hb fun v b1 hb1 hv hYields => .demand hx.typed.ty_eq <|
    (hApply b1 v hb1 hv hYields).bind fun _ _ _ hw => hw.yields nofun

theorem call_completes {fn : Expr} (hFn : fn.Works (.func ins outs)) (hArgs : ∀ p ∈ args.zip ins, p.1.Works p.2) :
    (call (outs.getLast?.getD .void) fn args).Completes (outs.getLast?.getD .void) b := by
  refine .demand hFn.typed.ty_eq ?_
  dsimp only
  by_cases hLen : args.length = ins.length
  · rw [if_neg (not_not.mpr hLen)]
    obtain ⟨hIns, hOuts⟩ := hFn.typed.plain.of_func
    obtain ⟨sig, hSig⟩ := Convention.exists_sig b.config.direct (fun t ht => (hIns t ht).given)
      fun t ht => (hOuts t ht).given
    refine .read ?_
    refine .demand hSig ?_
    have hValue : Build.Completes (do called sig args (← Build.value (← Build.results fn).1)) b
        ((call (outs.getLast?.getD .void) fn args).Yields (outs.getLast?.getD .void)) := by
      refine ((hFn.completes b hb).traced hb (results_traces fn b)).bind fun v b1 _ ⟨hb1, hLow1, hv, hYields⟩ => ?_
      refine (value_completes hb1 hv.1.open hYields.fits (hFn.typed.plain.carried rfl)).bind
        fun target b2 _ ⟨hb2, hLow2⟩ => ?_
      exact called_completes hFn.typed hArgs hb2 (by rw [hLow2.grows.config, hLow1.grows.config]; exact hSig)
    cases fn with
    | ident ft r =>
      cases r with
      | proc p =>
        refine (need_safe.traced hb need_traces).bind fun _ b1 _ ⟨hb1, hLow1, _⟩ => ?_
        refine (Completes.traced (x := referProc p) (Q := fun _ _ => True) trivial hb1 referProc_traces).bind
          fun _ b2 _ ⟨hb2, hLow2, _⟩ => ?_
        refine (define_safe.traced hb2 addrOf_traces).bind fun target b3 _ ⟨hb3, hLow3, _⟩ => ?_
        refine called_completes hFn.typed hArgs hb3 ?_
        rw [hLow3.grows.config, hLow2.grows.config, hLow1.grows.config]
        exact hSig
      | _ => exact hValue
    | _ => exact hValue
  · rw [if_pos hLen]
    exact .reject_bind

theorem cast_completes (hx : x.Works u) (hScalar : u.isScalar = true) (ht : t.Plain) :
    (cast t x).Completes t b :=
  hx.value hb (hx.typed.plain.carried hScalar) fun _ _ _ => .demand hx.typed.ty_eq <|
    (convert_completes hx.typed.plain ht).bind fun _ _ _ hCarried => Present.yields ⟨⟨rfl, hCarried⟩, trivial, rfl⟩ nofun

theorem field_completes {s name : String} {fs : List (Field Ty)} {f : Placed} (hx : x.Works (.struct s fs))
    (hField : Ty.field? fs name = some f) (hVacant : x.isVacant = false) :
    (field f.ty x name).Completes f.ty b := by
  refine hx.andThen hb fun v b1 hb1 hv hYields => .demand hx.typed.ty_eq ?_
  simp only [hField]
  refine (address_completes hb1 hv.open hYields.fits (hYields.left hVacant)).bind fun r b2 _ _ => ?_
  exact offset_safe.bind fun r' b3 _ _ => Present.yields ⟨rfl, trivial, rfl⟩ nofun

/-- An element, given the address of the first one. -/
theorem indexed_completes {base : Reg} (hy : y.Works u) (hScalar : u.isScalar = true) (ht : t.Plain) :
    Build.Completes (Build.element t y base) b ((index t x y).Yields t) := by
  obtain ⟨e, hExtent⟩ := t.exists_extent ht.given
  refine hy.value hb (hy.typed.plain.carried hScalar) fun r b1 _ => .demand hy.typed.ty_eq ?_
  refine (convert_completes hy.typed.plain ⟨rfl, rfl⟩).bind fun n b2 _ _ => .demand hExtent ?_
  refine define_safe.bind fun size b3 _ _ => define_safe.bind fun off b4 _ _ => define_safe.bind fun addr b5 _ _ => ?_
  exact Present.yields ⟨rfl, trivial, rfl⟩ nofun

theorem element_completes {len : Int64} (hx : x.Works (.array t len)) (hy : y.Works u) (hScalar : u.isScalar = true)
    (hVacant : x.isVacant = false) : (index t x y).Completes t b :=
  hx.andThen hb fun _ _ hb1 hv hYields => .demand hx.typed.ty_eq <|
    (address_completes hb1 hv.open hYields.fits (hYields.left hVacant)).bind fun _ _ _ hb2 =>
      indexed_completes hb2 hy hScalar hx.typed.plain.of_array

theorem offset_completes (hx : x.Works (.ptr t)) (hy : y.Works u) (hScalar : u.isScalar = true) :
    (index t x y).Completes t b :=
  hx.andThen hb fun _ _ hb1 hv hYields => .demand hx.typed.ty_eq <|
    (value_completes hb1 hv.open hYields.fits (hx.typed.plain.carried rfl)).bind fun _ _ _ ⟨hb2, _⟩ =>
      indexed_completes hb2 hy hScalar (Ty.Plain.ptr_iff.mp hx.typed.plain)

omit hb

/-- **Typed expressions are lowered or rejected.** -/
theorem Typed.works (hTyped : x.Typed t) (hSpares : x.spares = true) : x.Works t := by
  refine ⟨hTyped, fun b hb => ?_⟩
  -- `spares` is not an index of the induction: each case splits it among the operands first
  induction hTyped generalizing b with
  | @int t v hPlain hScalar =>
    obtain ⟨rt, hReg, -⟩ := (hPlain.carried hScalar).reg
    refine .demand hReg (define_safe.bind fun r b1 _ _ => ?_)
    exact Present.yields ⟨⟨rfl, hPlain.carried hScalar⟩, trivial, rfl⟩ nofun
  | @float t bits hPlain hFloat =>
    have hScalar : t.isScalar = true := by
      cases t with
      | float _ => rfl
      | _ => cases hFloat
    obtain ⟨rt, hReg, -⟩ := (hPlain.carried hScalar).reg
    refine .demand hReg (define_safe.bind fun r b1 _ _ => ?_)
    exact Present.yields ⟨⟨rfl, hPlain.carried hScalar⟩, trivial, rfl⟩ nofun
  | bool => exact define_safe.bind fun r b1 _ _ => Present.yields ⟨⟨rfl, .bool⟩, trivial, rfl⟩ nofun
  | @var v hPlain =>
    exact (reference_completes (.inl ⟨v, rfl, rfl⟩) hPlain).bind fun w b1 _ hw => hw.yields nofun
  | @proc p hPlain =>
    exact (reference_completes (.inr ⟨p, rfl, rfl⟩) hPlain).bind fun w b1 _ hw => hw.yields nofun
  | logical hOp hl hr ihl ihr =>
    rw [spares, Bool.and_eq_true] at hSpares
    exact logical_completes hb hOp ⟨hl, ihl hSpares.1⟩ ⟨hr, ihr hSpares.2⟩
  | @binary t op l r tl tr hAnd hOr hl hr hsl hsr hTy ihl ihr =>
    rw [spares, Bool.and_eq_true] at hSpares
    refine binary_completes hb hAnd hOr ⟨hl, ihl hSpares.1⟩ ⟨hr, ihr hSpares.2⟩ hsl hsr ?_
    rw [hTy]
    split
    · exact .bool
    · exact hl.plain.carried hsl
  | not hx ih =>
    refine unary_completes hb ⟨hx, ih (by simpa [spares] using hSpares)⟩ fun b v hb hv hYields => ?_
    exact not_completes hb hv hYields.fits hYields.joined rfl
  | deref hx ih =>
    refine unary_completes hb ⟨hx, ih (by simpa [spares] using hSpares)⟩ fun b v hb hv hYields => ?_
    exact deref_completes hb hv hYields.fits (hx.plain.carried rfl)
  | @addressOf x t hx ih =>
    have hInner : x.isVacant = false ∧ x.spares = true := by simpa [spares] using hSpares
    refine unary_completes hb ⟨hx, ih hInner.2⟩ fun b v hb hv hYields => ?_
    -- an operand that takes no room would have no address
    exact addressOf_completes hb hv hYields.fits (hYields.left hInner.1) ((Ty.Plain.ptr_iff.mpr hx.plain).carried rfl)
  | unary hNot hDeref hAddr hx hScalar ih =>
    refine unary_completes hb ⟨hx, ih (by simpa [spares, hAddr] using hSpares)⟩ fun b v hb hv hYields => ?_
    exact arithmetic_completes hb hv hYields.fits hNot hDeref hAddr (hx.plain.carried hScalar) (hx.plain.carried hScalar)
  | call hFn hArgs hTy ihFn ihArgs =>
    rw [spares, Bool.and_eq_true, allSpare_iff] at hSpares
    rw [hTy]
    exact call_completes hb ⟨hFn, ihFn hSpares.1⟩ fun p hp => ⟨hArgs p hp, ihArgs p hp (hSpares.2 p.1 (of_mem_zip hp).1)⟩
  | cast hx hScalar ht ih => exact cast_completes hb ⟨hx, ih (by simpa [spares] using hSpares)⟩ hScalar ht
  | @field x s fs name f hx hField ih =>
    have hInner : x.isVacant = false ∧ x.spares = true := by simpa [spares] using hSpares
    exact field_completes hb ⟨hx, ih hInner.2⟩ hField hInner.1
  | @element x y t u len hx hy hScalar ihx ihy =>
    have hInner : (x.isVacant = false ∧ x.spares = true) ∧ y.spares = true := by simpa [spares] using hSpares
    exact element_completes hb ⟨hx, ihx hInner.1.2⟩ ⟨hy, ihy hInner.2⟩ hScalar hInner.1.1
  | @offset x y t u hx hy hScalar ihx ihy =>
    have hInner : (x.isVacant = false ∧ x.spares = true) ∧ y.spares = true := by simpa [spares] using hSpares
    exact offset_completes hb ⟨hx, ihx hInner.1.2⟩ ⟨hy, ihy hInner.2⟩ hScalar

end Expr

end Comptime
