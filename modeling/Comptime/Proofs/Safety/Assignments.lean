import Comptime.Proofs.Safety.Expressions

/-!
# Assignments and returns do not abort

What is assigned, declared with a value or returned has the type of where it goes, so it can be put there. Of many values
all are copied before the first one is assigned, which takes a value that is there; the results of one call are not.
-/

namespace Comptime

open Builder Build List Comptime.Expr

variable {t : Ty}

/-- What is known of the value of an expression. -/
theorem Expr.Works.expr {x : Expr} {b : Builder} (hx : x.Works t) (hb : b.Apt) : Build.Completes (expr x) b fun v b' =>
    b'.Apt ∧ v.Fresh b' ∧ v.Fits t ∧ (x.isVacant = false → v.isNone = false) :=
  hx.andThen hb fun _ _ hb1 hFresh hv => .pure ⟨hb1, hFresh, hv.fits, hv.left⟩

namespace Builder

variable {b : Builder} {xs lhs rhs : List Expr} {ts us outs : List Ty}
variable {vs : List Value} {i : Nat}

/-! ## Lists of operands -/

theorem works_of_forall₂ (hTyped : Forall₂ Typed xs ts) (hSpares : allSpare xs = true) :
    Forall₂ Works xs ts := by
  induction hTyped with
  | nil => exact .nil
  | cons hx _ ih =>
    rw [allSpare, Bool.and_eq_true] at hSpares
    exact .cons (hx.works hSpares.1) (ih hSpares.2)

theorem places_completes (hxs : Forall₂ Works xs ts) (hb : b.Apt) :
    Completes (places xs) b fun ds b' => b'.Apt ∧ ds.map (·.1) = ts := by
  induction hxs generalizing b with
  | nil => exact ⟨hb, rfl⟩
  | @cons x t xs ts hx _ ih =>
    refine (hx.expr hb).bind fun v b1 _ ⟨hb1, _, hFits, _⟩ => ?_
    cases v with
    | place u r =>
      refine (ih hb1).bind fun ds b2 _ ⟨hb2, hds⟩ => .pure ⟨hb2, ?_⟩
      rw [map_cons, hds, show u = t from hFits]
    | _ => exact .reject

theorem detachedValues_completes (hxs : Forall₂ Works xs ts) (hThere : xs.all (!·.isVacant) = true) (hb : b.Apt) :
    Completes (detachedValues xs) b fun vs b' => b'.Apt ∧ Forall₂ (fun v t => Value.Fits t v) vs ts := by
  induction hxs generalizing b with
  | nil => exact ⟨hb, .nil⟩
  | @cons x t xs ts hx _ ih =>
    rw [all_cons, Bool.and_eq_true, Bool.not_eq_true'] at hThere
    refine (hx.expr hb).bind fun v b1 _ ⟨hb1, hFresh, hFits, hLeft⟩ => ?_
    refine (detach_completes hb1 hFresh.open hFits (hLeft hThere.1) hx.typed.plain).bind fun w b2 _ ⟨hb2, hw⟩ => ?_
    exact (ih hThere.2 hb2).bind fun ws b3 _ ⟨hb3, hws⟩ => .pure ⟨hb3, .cons hw hws⟩

theorem values_completes (hxs : Forall₂ Works xs ts) (hb : b.Apt) :
    Completes (values xs) b fun vs _ => Forall₂ (fun v t => Value.Fits t v) vs ts := by
  induction hxs generalizing b with
  | nil => exact .pure .nil
  | @cons x t xs ts hx _ ih =>
    refine (hx.expr hb).bind fun v b1 _ ⟨hb1, _, hFits, _⟩ => ?_
    exact (ih hb1).bind fun vs b2 _ hvs => .pure (.cons hFits hvs)

/-- All the results of a call. -/
theorem results_of_call {fn : Expr} {args : List Expr} {u : Ty} (hCall : (call t fn args).Works u) (hb : b.Apt) :
    ∃ ins outs, fn.Typed (.func ins outs) ∧
      Completes (results (.call t fn args)) b fun v b' => b'.Apt ∧ (∀ w ∈ v.2, w.Settled) ∧
        Forall₂ (fun w t => Value.Fits t w) v.2 outs := by
  obtain ⟨ins, outs, hFn⟩ : ∃ ins outs, fn.Typed (.func ins outs) := by
    cases hCall.typed with
    | call hFn _ _ => exact ⟨_, _, hFn⟩
  exact ⟨ins, outs, hFn, ((hCall.completes b hb).traced hb (results_traces _ b)).imp fun _ _ _ ⟨hb1, _, hSettled, hv⟩ =>
    ⟨hb1, hSettled.2, hv.all _ _ _ _ _ rfl hFn⟩⟩

/-- Values that go to targets of their types. -/
theorem assignAll_safe {ds : List (Ty × Reg)} (hb : b.Apt) (hvs : Value.OpenAll vs b)
    (hFits : ∀ p ∈ (ds.map (·.1)).zip vs, p.2.Fits p.1) (hPlain : ∀ t ∈ ds.map (·.1), t.Plain) :
    Answers (assignAll ds vs) b := by
  induction ds generalizing b vs with
  | nil => exact .pure trivial
  | cons d ds ih =>
    cases vs with
    | nil => exact .pure trivial
    | cons v vs =>
      have hv := hvs.opens v mem_cons_self
      rw [map_cons, zip_cons_cons, forall_mem_cons] at hFits
      rw [map_cons, forall_mem_cons] at hPlain
      refine (assignTo_completes hb hv hFits.1 hPlain.1).bind fun _ b1 _ ⟨hb1, hLow1⟩ => ?_
      exact ih hb1 (hvs.tail.lowered hb.sound hLow1 fun u hu => (hvs.others hb.sound u hu).2) hFits.2 hPlain.2

/-- What has certain types fits others that are the same as far as both go. -/
theorem fits_of_forall₂ (hvs : Forall₂ (fun v t => Value.Fits t v) vs us) (hSame : ∀ p ∈ ts.zip us, p.2 = p.1) :
    ∀ p ∈ ts.zip vs, p.2.Fits p.1 := by
  induction hvs generalizing ts with
  | nil => simp
  | cons hHead _ ih =>
    cases ts with
    | nil => simp
    | cons t ts =>
      rw [zip_cons_cons, forall_mem_cons] at hSame ⊢
      exact ⟨hSame.1 ▸ hHead, ih hSame.2⟩

theorem eq_of_mem_zip_self {α : Type} {l : List α} : ∀ p ∈ l.zip l, p.2 = p.1 := by
  induction l with
  | nil => simp
  | cons a l ih =>
    rw [zip_cons_cons, forall_mem_cons]
    exact ⟨rfl, ih⟩

theorem plain_of_forall₂ (hxs : Forall₂ Works xs ts) : ∀ t ∈ ts, t.Plain := by
  induction hxs with
  | nil => simp
  | cons hx _ ih => exact forall_mem_cons.mpr ⟨hx.typed.plain, ih⟩

/-! ## Assignments -/

section Assign

variable (hLhs : Forall₂ Works lhs ts) (hRhs : Forall₂ Works rhs us) (hb : b.Apt)

include hLhs hRhs hb

theorem assign_safe (hSame : lhs.length = rhs.length → us = ts) (hThere : rhs.length = 1 ∨ rhs.all (!·.isVacant) = true)
    (hCall : ∀ t fn args ins results, rhs = [.call t fn args] → lhs.length ≠ 1 → fn.Typed (.func ins results) →
      ∀ p ∈ ts.zip results, p.2 = p.1) : Answers (assign lhs rhs) b := by
  -- targets of these types take values that fit them
  have hAll : ∀ {ds : List (Ty × Reg)} {vs : List Value} {b' : Builder}, ds.map (·.1) = ts → b'.Apt → Value.OpenAll vs b' →
      (∀ p ∈ ts.zip vs, p.2.Fits p.1) → Answers (assignAll ds vs) b' := fun hds hb' hvs hFits =>
    assignAll_safe hb' hvs (hds ▸ hFits) (hds ▸ plain_of_forall₂ hLhs)
  have hPlaces := places_completes hLhs hb
  have hMany : rhs.all (!·.isVacant) = true → Answers (do
      if lhs.length ≠ rhs.length then reject (.valueCount lhs.length rhs.length)
      let ds ← places lhs
      let vs ← detachedValues rhs
      assignAll ds vs) b := fun hThere => by
    by_cases hLen : lhs.length = rhs.length
    · rw [if_neg (not_not.mpr hLen)]
      refine hPlaces.bind fun ds b1 _ ⟨hb1, hds⟩ => ?_
      refine ((detachedValues_completes hRhs hThere hb1).traced hb1 detachedValues_traces).bind
        fun vs b2 _ ⟨hb2, _, hSettled, _, hvs⟩ => ?_
      rw [hSame hLen] at hvs
      exact hAll hds hb2 (.of_settled hSettled) (fits_of_forall₂ hvs eq_of_mem_zip_self)
    · rw [if_pos hLen]
      exact .reject_bind
  match rhs, hRhs with
  | [], _ => exact hMany rfl
  | x :: y :: rest, _ => exact hMany (hThere.resolve_left (by simp))
  | [x], .cons (b := u) hx hNil =>
    cases hNil
    unfold assign
    by_cases hOne : lhs.length = 1
    · simp only [if_pos hOne]
      refine hPlaces.bind fun ds b1 _ ⟨hb1, hds⟩ => (hx.expr hb1).bind fun v b2 _ ⟨hb2, hFresh, hv, _⟩ => ?_
      have hOpen : Value.OpenAll [v] b2 := ⟨fun w hw => by rw [mem_singleton.mp hw]; exact hFresh.open, pairwise_singleton _ v⟩
      have hFits : Forall₂ (fun v t => Value.Fits t v) [v] ts := by
        rw [← hSame hOne]
        exact .cons hv .nil
      exact hAll hds hb2 hOpen (fits_of_forall₂ hFits eq_of_mem_zip_self)
    · simp only [if_neg hOne]
      cases x with
      | call t fn args =>
        refine hPlaces.bind fun ds b1 _ ⟨hb1, hds⟩ => ?_
        obtain ⟨ins, results, hFn, hResults⟩ := results_of_call hx hb1
        refine hResults.bind fun v b2 _ ⟨hb2, hSettled, hvs⟩ => ?_
        by_cases hLen : v.2.length = ds.length
        · rw [if_neg (not_not.mpr hLen)]
          exact hAll hds hb2 (.of_settled hSettled) (fits_of_forall₂ hvs (hCall t fn args ins results rfl hOne hFn))
        · rw [if_pos hLen]
          exact .reject_bind
      | _ => exact .reject

theorem compound_safe (op : BinaryOp) (hTargets : ∀ t ∈ ts, t.isScalar = true) (hValues : ∀ t ∈ us, t.isScalar = true) :
    Answers (compound op lhs rhs) b := by
  match lhs, rhs, hLhs, hRhs with
  | [target], [x], .cons (b := t) hTarget hNil, .cons (b := u) hx hNil' =>
    cases hNil
    cases hNil'
    have hCarried := hTarget.typed.plain.carried (hTargets t mem_cons_self)
    obtain ⟨rt, hReg, -⟩ := hCarried.reg
    obtain ⟨e, hExtent⟩ := hCarried.extent
    refine (hTarget.expr hb).bind fun v b1 _ ⟨hb1, _, hv, _⟩ => ?_
    cases v with
    | place u' addr =>
      obtain rfl : u' = t := hv
      refine (value_completes (v := .place u' addr) hb1 trivial rfl hCarried).bind fun l b2 _ ⟨hb2, _⟩ => ?_
      refine (hx.expr hb2).bind fun w b3 _ ⟨hb3, hFresh, hw, _⟩ => ?_
      refine (value_completes hb3 hFresh.open hw (hx.typed.plain.carried (hValues u mem_cons_self))).bind fun r b4 _ _ => ?_
      cases op.instr u' with
      | error e => exact .reject
      | ok i => exact .demand hReg (define_safe.bind fun w b5 _ _ => .demand hExtent instr_safe)
    | _ => exact .reject
  | [], _, _, _ => exact .reject
  | _ :: _ :: _, _, _, _ => exact .reject
  | [_], [], _, _ => exact .reject
  | [_], _ :: _ :: _, _, _ => exact .reject

end Assign

theorem declared_safe (slot : Reg) {v : Variable} {init : Expr} (hPlain : v.ty.Plain)
    (hInit : init.isAbsent = true ∨ init.Works v.ty) (hb : b.Apt) : Answers (do
      if init.isAbsent then zero slot v.ty
      else assignTo slot v.ty (← expr init)) b := by
  cases hAbsent : init.isAbsent with
  | true => exact zero_safe hPlain
  | false =>
    have hWorks := hInit.resolve_left (by rw [hAbsent]; exact Bool.false_ne_true)
    exact (hWorks.expr hb).bind fun x b1 _ ⟨hb1, hFresh, hx, _⟩ => (assignTo_completes hb1 hFresh.open hx hPlain).safe

/-! ## Returns -/

theorem returnValues_completes (hxs : Forall₂ Works xs ts) (hSame : xs.length = outs.length → ts = outs)
    (hCall : ∀ t fn args ins results, xs = [.call t fn args] → 1 < outs.length → fn.Typed (.func ins results) →
      ∀ p ∈ outs.zip results, p.2 = p.1) (hb : b.Apt) :
    Completes (returnValues outs.length xs) b fun vs _ => ∀ p ∈ outs.zip vs, p.2.Fits p.1 := by
  unfold returnValues
  by_cases hMany : outs.length > 1 ∧ xs.length = 1
  · simp only [if_pos hMany]
    obtain ⟨x, rfl⟩ := length_eq_one_iff.mp hMany.2
    cases hxs with
    | cons hx _ =>
      cases x with
      | call t fn args =>
        obtain ⟨ins, results, hFn, hResults⟩ := results_of_call hx hb
        refine hResults.bind fun v b1 _ ⟨_, _, hvs⟩ => ?_
        by_cases hLen : v.2.length = outs.length
        · rw [if_neg (not_not.mpr hLen)]
          exact .pure (fits_of_forall₂ hvs (hCall t fn args ins results rfl hMany.1 hFn))
        · rw [if_pos hLen]
          exact .reject_bind
      | _ => exact .reject
  · simp only [if_neg hMany]
    by_cases hLen : xs.length = outs.length
    · rw [if_neg (not_not.mpr hLen)]
      refine (values_completes hxs hb).imp fun vs b1 _ hvs => ?_
      rw [hSame hLen] at hvs
      exact fits_of_forall₂ hvs eq_of_mem_zip_self
    · rw [if_pos hLen]
      exact .reject

/-- Results that come back in the register have one. -/
def Outlets (b : Builder) (i : Nat) (ts : List Ty) : Prop :=
  ∀ j t, ts[j]? = some t → b.outs.lookup (i + j) = none → b.sig.ret.rule = .direct → t.Carried

theorem Outlets.tail (h : b.Outlets i (t :: ts)) : b.Outlets (i + 1) ts := fun j u hu hNone =>
  h (j + 1) u hu (by rw [← hNone]; congr 1; omega)

theorem Outlets.of_context {b' : Builder} (h : b.Outlets i ts) (hContext : b'.context = b.context) : b'.Outlets i ts := by
  have hSig : b'.sig = b.sig := congrArg (·.2.1) hContext
  have hOuts : b'.outs = b.outs := congrArg (·.2.2) hContext
  rw [Outlets, hSig, hOuts]
  exact h

theorem placeResults_safe {r : Reg} (hb : b.Apt) (hvs : Value.OpenAll vs b) (hFits : ∀ p ∈ ts.zip vs, p.2.Fits p.1)
    (hPlain : ∀ t ∈ ts, t.Plain) (hOutlets : b.Outlets i ts) : Answers (placeResults i r ts vs) b := by
  induction ts generalizing b vs i r with
  | nil => exact .pure trivial
  | cons t ts ih =>
    cases vs with
    | nil => exact .pure trivial
    | cons v vs =>
      have hv := hvs.opens v mem_cons_self
      rw [zip_cons_cons, forall_mem_cons] at hFits
      rw [forall_mem_cons] at hPlain
      -- the rest, after the first result was put where it belongs
      have hRest : ∀ r' b1, b1.Apt → Lowered v.spots b b1 → Answers (placeResults (i + 1) r' ts vs) b1 :=
        fun r' b1 hb1 hLow1 =>
        ih hb1 (hvs.tail.lowered hb.sound hLow1 fun u hu => (hvs.others hb.sound u hu).2) hFits.2 hPlain.2
          (hOutlets.tail.of_context hLow1.grows.context)
      refine .read ?_
      cases hOut : b.outs.lookup i with
      | some out =>
        exact (assignTo_completes hb hv hFits.1 hPlain.1).bind fun _ b1 _ h => hRest r b1 h.1 h.2
      | none =>
        by_cases hDirect : b.sig.ret.rule = .direct
        · simp only [if_pos hDirect]
          have hCarried := hOutlets 0 t rfl hOut hDirect
          exact (value_completes hb hv hFits.1 hCarried).bind fun r' b1 _ h => hRest r' b1 h.1 h.2
        · simp only [if_neg hDirect]
          exact hRest r b hb (.refl hb.sound)

end Builder

end Comptime
