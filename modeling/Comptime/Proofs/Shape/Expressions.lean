import Comptime.Proofs.Shape.Flow
import Comptime.Proofs.Shape.Passage

/-!
# Getting through an expression

Control gets through the code of an expression, reading nothing but what is in use where it starts and what is written on
the way (`results_yields`). The proof follows the recursion of the shape. Of a list of values some may be pending until all
of them are there, so what a `return` does about them is said for the list as a whole (`Resolved`).
-/

namespace Comptime

open List Comptime.Expr

namespace Shape

variable {T : Text} {Z : Zone T.code} {C : Z.Written} {P : Ty → Bool} {p p' : Point} {d l r : Reg} {v : Value} {q : Pending}
  {a : Nat}
variable {xs : List Expr} {vs : List Value}

theorem branchFalse_iff {yes no : Nat} : branchFalse r T p (yes, no) p' ↔
    T.code[p.pos]? = some (.branch r [⟨0, no⟩] ((p.pos + 1 : Nat) : Int)) ∧ T.code[p.pos + 1]? = some .region ∧
      yes = p.pos + 1 ∧ p' = { p with pos := p.pos + 2 } := by
  constructor
  · rintro ⟨no, _, rfl, _, _, ⟨rfl, rfl⟩, _, _, ⟨hCode, rfl⟩, _, _, hRegion, hEq, rfl⟩
    obtain ⟨rfl, hNext, rfl⟩ := region_iff.mp hRegion
    obtain ⟨rfl, rfl⟩ := Prod.mk.inj hEq
    exact ⟨hCode, hNext, rfl, rfl⟩
  · rintro ⟨hCode, hNext, rfl, rfl⟩
    exact ⟨no, _, rfl, _, _, ⟨rfl, rfl⟩, (), _, ⟨hCode, rfl⟩, _, _, region_iff.mpr ⟨rfl, hNext, rfl⟩, rfl, rfl⟩

theorem length_values (h : values xs T p vs p') : vs.length = xs.length := by
  induction xs generalizing vs p with
  | nil => exact congrArg _ h.1
  | cons x xs ih =>
    obtain ⟨v, s, -, rest, _, hRest, rfl, rfl⟩ := h
    exact congrArg (· + 1) (ih hRest)

section

variable (hG : T.Ground Z P)
variable {u : Unit}

include hG

theorem convert_gets {source target : Ty} (h : convert r source target T p d p') (hr : r ∈ C) :
    Gets C p.pos p'.pos (d ∈ ·) := by
  obtain ⟨sr, _, ⟨-, rfl⟩, tr, _, ⟨-, rfl⟩, h⟩ := h
  beta_reduce at h
  generalize Conversion.between? source target sr tr = o at h
  match o with
  | some .keep =>
    obtain ⟨rfl, rfl⟩ := h
    exact ⟨C, .refl, hr⟩
  | some (.test op) =>
    obtain ⟨z, s, hImm, hBin⟩ := h
    obtain ⟨D, hD, hz⟩ := imm_gets hG hImm
    exact hD.gets (bin_gets hG hBin (hD.grows hr) hz)
  | some (.via op) => exact un_gets hG h hr
  | none => exact h.elim

theorem offset_gets {off : Int64} (h : offset r off T p d p') (hr : r ∈ C) : Gets C p.pos p'.pos (d ∈ ·) := by
  rw [offset, ite_iff] at h
  split at h
  · obtain ⟨rfl, rfl⟩ := h
    exact ⟨C, .refl, hr⟩
  · obtain ⟨z, s, hImm, hBin⟩ := h
    obtain ⟨D, hD, hz⟩ := imm_gets hG hImm
    exact hD.gets (bin_gets hG hBin (hD.grows hr) hz)

theorem reference_yields {x : Ref} (h : reference x T p v p') : Yields C p.pos p'.pos v := by
  cases x with
  | var x =>
    obtain ⟨T, p, ⟨rfl, rfl⟩, h⟩ := h
    cases hSlot : T.slots.lookup x.id with
    | some r =>
      simp only [hSlot] at h
      obtain ⟨rfl, rfl⟩ := h
      exact .place ⟨C, .refl, C.base (hG.slots _ (mem_of_lookup hSlot))⟩
    | none =>
      simp only [hSlot] at h
      obtain ⟨r, _, hAddr, rfl, rfl⟩ := h
      exact .place (addrOf_gets hG hAddr)
  | proc x =>
    obtain ⟨r, _, hAddr, rfl, rfl⟩ := h
    exact .reg (addrOf_gets hG hAddr)
  | _ => exact h.elim

/-- A further operand, in a gap of the one on its left. -/
theorem chain_awaits {and : Bool} {q' : Pending} {x : Shape Value} (h : chain and q x T p q' p') (hq : Awaits C a p.pos q)
    (hx : ∀ {s v s'}, x T s v s' → Yields C s.pos s'.pos v) : Awaits C a p'.pos q' := by
  obtain ⟨e, v, s, s', rfl, hv, rfl, ⟨t, r, rfl, rfl, hSettle⟩ | ⟨r, s1, hValue, rfl, hCode, hNext, rfl⟩⟩ := of_chain h
  · have hy : Awaits C _ s.pos r := hx hv
    obtain ⟨hTrue, hFalse, rfl⟩ := settle_iff.mp hSettle
    cases and with
    | true =>
      have hFork := hy.forks hq.marked.onFalse hTrue hFalse
      rw [hy.merge] at hFork
      exact hq.extend hFork hy.marked.merge
    | false =>
      have hFork := hy.swap.forks hq.marked.onTrue hFalse hTrue
      rw [hy.merge] at hFork
      exact (hq.swap.extend hFork hy.marked.merge).swap
  · obtain ⟨D, hD, hr⟩ := value_gets hG hValue (hx hv)
    cases and with
    | true => exact hq.extend (.after hD (forks_branch hCode hNext hq.marked.onFalse (.inl ⟨rfl, rfl⟩) hr)) hNext
    | false => exact (hq.swap.extend (.after hD (forks_branch hCode hNext hq.marked.onTrue (.inr ⟨rfl, rfl⟩) hr)) hNext).swap

theorem applyUnary_yields {ty t : Ty} {op : UnaryOp} {w : Value} (h : applyUnary ty op t v T p w p')
    (hv : Yields C a p.pos v) : Yields C a p'.pos w := by
  have hNegated : ∀ {r z d : Reg} {s1 s2 : Point}, value v T p r s1 → imm .i8 0 T s1 z s2 → bin .eq .i8 r z T s2 d p' →
      Yields C a p'.pos (.reg ty d) := by
    intro r z d s1 s2 hValue hImm hBin
    obtain ⟨D, hD, hr⟩ := value_gets hG hValue hv
    obtain ⟨E, hE, hz⟩ := imm_gets hG hImm
    exact .reg ((hD.trans hE).gets (bin_gets hG hBin (hE.grows hr) hz))
  have hUnary : ∀ {op : Op} {rt : RegType} {r d : Reg} {s : Point}, value v T p r s → un op rt rt r T s d p' →
      Yields C a p'.pos (.reg ty d) := by
    intro op rt r d s hValue hUn
    obtain ⟨D, hD, hr⟩ := value_gets hG hValue hv
    exact .reg (hD.gets (un_gets hG hUn hr))
  cases op with
  | not =>
    cases v with
    | pending t q =>
      obtain ⟨rfl, rfl⟩ := h
      exact Awaits.swap hv
    | _ =>
      obtain ⟨r, s1, hValue, z, s2, hImm, d, _, hBin, rfl, rfl⟩ := h
      exact hNegated hValue hImm hBin
  | neg | compl =>
    obtain ⟨rt, p, ⟨-, rfl⟩, r, s, hValue, d, _, hUn, rfl, rfl⟩ := h
    exact hUnary hValue hUn
  | deref =>
    obtain ⟨r, _, hValue, rfl, rfl⟩ := h
    exact .place (value_gets hG hValue hv)
  | addressOf =>
    obtain ⟨r, _, hAddress, rfl, rfl⟩ := h
    exact .reg (hv.use (address_uses hG hAddress hv.marked))
  | other => exact h.elim

theorem resultSlots_spec {hs : List Hidden} {slots : List (Nat × Reg)} (h : resultSlots hs T p slots p') :
    p'.pos = p.pos ∧ ∀ s ∈ slots, ∀ C : Z.Written, s.2 ∈ C := by
  induction hs generalizing slots p with
  | nil =>
    obtain ⟨rfl, rfl⟩ := h
    exact ⟨rfl, nofun⟩
  | cons x hs ih =>
    obtain ⟨e, p, ⟨-, rfl⟩, r, s, hReserve, rest, _, hRest, rfl, rfl⟩ := h
    obtain ⟨hPos, hr⟩ := reserve_spec hG hReserve
    obtain ⟨hEnd, hSlots⟩ := ih hRest
    exact ⟨hEnd.trans hPos, forall_mem_cons.mpr ⟨hr, hSlots⟩⟩

theorem pass_gets {x : Param} {o : Option Reg} (h : pass x v T p o p') (hv : Yields C a p.pos v) :
    Gets C a p'.pos fun D => ∀ r ∈ o.toList, r ∈ D := by
  unfold pass at h
  cases hRule : x.rule with
  | ignore =>
    simp only [hRule] at h
    obtain ⟨_, _, hDrop, rfl, rfl⟩ := h
    obtain ⟨D, hD, -⟩ := hv.use (drop_uses hDrop hv.marked)
    exact ⟨D, hD, nofun⟩
  | direct =>
    simp only [hRule] at h
    obtain ⟨r, _, hValue, rfl, rfl⟩ := h
    obtain ⟨D, hD, hr⟩ := value_gets hG hValue hv
    exact ⟨D, hD, fun s hs => mem_singleton.mp hs ▸ hr⟩
  | indirect =>
    simp only [hRule] at h
    obtain ⟨e, p, ⟨-, rfl⟩, tmp, s, hReserve, _, _, hAssign, rfl, rfl⟩ := h
    obtain ⟨hPos, hr⟩ := reserve_spec hG hReserve
    obtain ⟨D, hD, -⟩ := hv.use (hPos ▸ assignTo_uses hG hAssign hv.marked (hr C))
    exact ⟨D, hD, fun s hs => mem_singleton.mp hs ▸ hr D⟩

/-- Results that came back in a register or through memory are there to be used. -/
theorem callResults_known {ins outs : List Ty} {sig : Sig} {slots : List (Nat × Reg)}
    (hType : P (.func ins outs) = true) (hSig : Convention.sig? T.direct ins outs = some sig)
    (hSlots : ∀ s ∈ slots, s.2 ∈ C) (hd : sig.retReg ≠ .void → d ∈ C) (hVoid : sig.retReg = .void → d = noReg) :
    ∀ w ∈ Build.callResults sig slots d, w.Known C := by
  intro w hw
  obtain ⟨i, hi, rfl⟩ := mem_mapIdx.mp hw
  split
  · next hLast =>
    refine Set.singleton_subset_iff.mpr ?_
    by_cases hRet : sig.retReg = .void
    · exact hVoid hRet ▸ C.base (hG.calls ins outs sig hType hSig hLast.2 hRet)
    · exact hd hRet
  · split
    · exact Set.empty_subset C.regs
    · split
      · next r hLookup => exact Set.singleton_subset_iff.mpr (hSlots _ (mem_of_lookup hLookup))
      · exact Set.empty_subset C.regs

/-- A call, from where its target is known. -/
theorem called_gets {ins outs : List Ty} {sig : Sig} {args : List Expr} {o : Value × List Value}
    (hType : P (.func ins outs) = true) (hSig : Convention.sig? T.direct ins outs = some sig)
    (h : called sig args r T p o p') (hr : r ∈ C) (hArgs : ∀ {s rs s'}, arguments args sig.params T s rs s' →
      Gets C s.pos s'.pos fun D => ∀ r ∈ rs, r ∈ D) :
    Gets C p.pos p'.pos fun D => o.1.Known D ∧ ∀ w ∈ o.2, w.Known D := by
  obtain ⟨slots, s1, hSlots, passed, s2, hPassed, dst, s3, hCall, rfl, rfl⟩ := h
  obtain ⟨hPos, hSlots⟩ := resultSlots_spec hG hSlots
  obtain ⟨D, hD, hPassed⟩ := hArgs hPassed
  obtain ⟨E, hE, hDst, hNone⟩ := call_gets hG hCall (hD.grows hr) fun s hs => by
    rcases mem_append.mp hs with hs | hs
    · obtain ⟨slot, hMem, rfl⟩ := mem_map.mp hs
      exact hSlots slot hMem D
    · exact hPassed s hs
  have hKnown := callResults_known hG hType hSig (fun s hs => hSlots s hs E) hDst hNone
  refine ⟨E, hPos ▸ hD.trans hE, ?_, hKnown⟩
  cases hLast : (Build.callResults sig slots dst).getLast? with
  | none => exact Set.empty_subset E.regs
  | some w => exact hKnown w (mem_of_getLast? hLast)

mutual

/-- Control gets through the code of an expression, and if it is a call, all its results are there. -/
theorem results_yields (x : Expr) {p p' : Point} {o : Value × List Value} (C : Z.Written) (h : results x T p o p')
    (hx : x.allTypes P = true) : Yields C p.pos p'.pos o.1 ∧
      ∀ t fn args, x = .call t fn args → Gets C p.pos p'.pos fun D => ∀ w ∈ o.2, w.Known D := by
  cases x with
  | absent => exact h.elim
  | int t v | float t v =>
    obtain ⟨rt, p, ⟨-, rfl⟩, d, _, hImm, rfl, rfl⟩ := h
    exact ⟨.reg (imm_gets hG hImm), nofun⟩
  | bool v =>
    obtain ⟨d, _, hImm, rfl, rfl⟩ := h
    exact ⟨.reg (imm_gets hG hImm), nofun⟩
  | ident t r =>
    obtain ⟨v, _, hRef, rfl, rfl⟩ := h
    exact ⟨reference_yields hG hRef, nofun⟩
  | binary t op l r =>
    refine ⟨?_, nofun⟩
    simp only [allTypes, Bool.and_eq_true] at hx
    obtain ⟨lv, s1, hl, h⟩ := h
    have hLeft := (results_yields l C hl hx.1.2).1
    cases op with
    | land | lor =>
      obtain ⟨q, s2, hPending, q', s3, hChain, rfl, rfl⟩ := h
      refine chain_awaits hG hChain (toPending_awaits hG hPending hLeft) fun {s v s'} hv => ?_
      obtain ⟨rv, _, hr, rfl, rfl⟩ := hv
      exact (results_yields r C hr hx.2).1
    | _ =>
      obtain ⟨c, s2, hValue, rv, s3, hr, d, s4, hValue', lt, s5, ⟨-, rfl⟩, h⟩ := h
      obtain ⟨D, hD, hc⟩ := value_gets hG hValue hLeft
      obtain ⟨E, hE, hd⟩ := value_gets hG hValue' (results_yields r D hr hx.2).1
      beta_reduce at h
      generalize BinaryOp.instr _ lt = i at h
      cases i with
      | ok i =>
        obtain ⟨rt, _, ⟨-, rfl⟩, e, _, hBin, rfl, rfl⟩ := h
        exact .reg ((hD.trans hE).gets (bin_gets hG hBin (hE.grows hc) hd))
      | error _ => exact h.elim
  | unary t op x =>
    simp only [allTypes, Bool.and_eq_true] at hx
    obtain ⟨v, s, hv, xt, _, ⟨-, rfl⟩, w, _, hUnary, rfl, rfl⟩ := h
    exact ⟨applyUnary_yields hG hUnary (results_yields x C hv hx.2).1, nofun⟩
  | call t fn args =>
    simp only [allTypes, Bool.and_eq_true] at hx
    obtain ⟨ins, outs, sig, target, s, hTy, hSig, hCallee, hRest⟩ := of_call h
    have hType := allTypes_ty? hG.bool hx.1.2 hTy
    -- a procedure that is named is not evaluated, any other callee is
    obtain ⟨D, hD, hTarget⟩ : Gets C p.pos s.pos (target ∈ ·) := by
      have hValue : (do value (← results fn).1 : Shape Reg) T p target s → Gets C p.pos s.pos (target ∈ ·) :=
        fun ⟨_, _, hFn, hValue⟩ => value_gets hG hValue (results_yields fn C hFn hx.1.2).1
      cases fn with
      | ident ft ref =>
        cases ref with
        | proc y => exact addrOf_gets hG hCallee
        | _ => exact hValue hCallee
      | _ => exact hValue hCallee
    obtain ⟨E, hE, ho, hAll⟩ := called_gets hG hType hSig hRest hTarget fun hArgs =>
      arguments_gets args sig.params D hArgs hx.2
    exact ⟨.of_known (hD.trans hE) ho, fun _ _ _ _ => ⟨E, hD.trans hE, hAll⟩⟩
  | cast t x =>
    simp only [allTypes, Bool.and_eq_true] at hx
    obtain ⟨v, s1, hv, r, s2, hValue, xt, _, ⟨-, rfl⟩, d, _, hConvert, rfl, rfl⟩ := h
    obtain ⟨D, hD, hr⟩ := value_gets hG hValue (results_yields x C hv hx.2).1
    exact ⟨.reg (hD.gets (convert_gets hG hConvert hr)), nofun⟩
  | field t x name =>
    simp only [allTypes, Bool.and_eq_true] at hx
    obtain ⟨v, s, hv, xt, _, ⟨-, rfl⟩, h⟩ := h
    have hYields := (results_yields x C hv hx.2).1
    cases xt with
    | struct n fs =>
      simp only at h
      generalize Ty.field? fs name = f at h
      cases f with
      | some f =>
        obtain ⟨addr, s1, hAddress, d, _, hOffset, rfl, rfl⟩ := h
        obtain ⟨D, hD, hr⟩ := hYields.use (address_uses hG hAddress hYields.marked)
        exact ⟨.place (hD.gets (offset_gets hG hOffset hr)), nofun⟩
      | none => exact h.elim
    | _ => exact h.elim
  | index t x i =>
    simp only [allTypes, Bool.and_eq_true] at hx
    obtain ⟨v, s, base, s', hv, hElement, hBase⟩ := of_index h
    have hYields := (results_yields x C hv hx.1.2).1
    obtain ⟨D, hD, hBase⟩ : Gets C p.pos s'.pos (base ∈ ·) := by
      rcases hBase with ⟨-, hAddress⟩ | ⟨-, hValue⟩
      · exact hYields.use (address_uses hG hAddress hYields.marked)
      · exact value_gets hG hValue hYields
    obtain ⟨iv, s1, hi, r, s2, hValue, it, _, ⟨-, rfl⟩, n, s3, hConvert, e, _, ⟨-, rfl⟩, size, s4, hImm, off, s5, hMul,
      d, _, hAdd, rfl, rfl⟩ := hElement
    obtain ⟨D2, hD2, hr⟩ := value_gets hG hValue (results_yields i D hi hx.2).1
    obtain ⟨D3, hD3, hn⟩ := convert_gets hG hConvert hr
    obtain ⟨D4, hD4, hSize⟩ := imm_gets hG hImm
    obtain ⟨D5, hD5, hOff⟩ := bin_gets hG hMul (hD4.grows hn) hSize
    -- what was written for the base is still written once the index is there
    have hTail := hD2.trans (hD3.trans (hD4.trans hD5))
    exact ⟨.place ((hD.trans hTail).gets (bin_gets hG hAdd (hTail.grows hBase) hOff)), nofun⟩

theorem arguments_gets (xs : List Expr) (ps : List Param) {p p' : Point} {rs : List Reg} (C : Z.Written)
    (h : arguments xs ps T p rs p') (hx : listTypes P xs = true) :
    Gets C p.pos p'.pos fun D => ∀ r ∈ rs, r ∈ D := by
  cases xs with
  | nil =>
    obtain ⟨rfl, rfl⟩ := h
    exact ⟨C, .refl, nofun⟩
  | cons x xs =>
    cases ps with
    | nil =>
      obtain ⟨rfl, rfl⟩ := h
      exact ⟨C, .refl, nofun⟩
    | cons y ps =>
      rw [listTypes, Bool.and_eq_true] at hx
      obtain ⟨v, s1, hv, r, s2, hPass, rest, _, hRest, rfl, rfl⟩ := h
      obtain ⟨D, hD, hr⟩ := pass_gets hG hPass (results_yields x C hv hx.1).1
      obtain ⟨E, hE, hRest⟩ := arguments_gets xs ps D hRest hx.2
      refine ⟨E, hD.trans hE, fun s hs => ?_⟩
      rcases mem_append.mp hs with hs | hs
      · exact hE.grows (hr s hs)
      · exact hRest s hs

end

theorem expr_yields {x : Expr} (C : Z.Written) (h : expr x T p v p') (hx : x.allTypes P = true) :
    Yields C p.pos p'.pos v := by
  obtain ⟨o, _, hResults, rfl, rfl⟩ := h
  exact (results_yields hG x C hResults hx).1

/-! ## Assignments and conditions -/

theorem places_gets {ds : List (Ty × Reg)} (C : Z.Written) (h : places xs T p ds p') (hx : listTypes P xs = true) :
    ds.length = xs.length ∧ Gets C p.pos p'.pos fun D => ∀ e ∈ ds, e.2 ∈ D := by
  induction xs generalizing ds p C with
  | nil =>
    obtain ⟨rfl, rfl⟩ := h
    exact ⟨rfl, C, .refl, nofun⟩
  | cons x xs ih =>
    rw [listTypes, Bool.and_eq_true] at hx
    obtain ⟨v, s, hv, h⟩ := h
    have hYields := expr_yields hG C hv hx.1
    cases v with
    | place t r =>
      obtain ⟨rest, _, hRest, rfl, rfl⟩ := h
      obtain ⟨D, hD, hr⟩ := hYields
      obtain ⟨hLen, E, hE, hRest⟩ := ih D hRest hx.2
      refine ⟨congrArg (· + 1) hLen, E, hD.trans hE, forall_mem_cons.mpr ⟨hE.grows (hr rfl), hRest⟩⟩
    | _ => exact h.elim

theorem detachedValues_gets (h : detachedValues xs T p vs p') (hx : listTypes P xs = true) :
    Gets C p.pos p'.pos fun D => ∀ v ∈ vs, v.Known D := by
  induction xs generalizing vs p C with
  | nil =>
    obtain ⟨rfl, rfl⟩ := h
    exact ⟨C, .refl, nofun⟩
  | cons x xs ih =>
    rw [listTypes, Bool.and_eq_true] at hx
    obtain ⟨v, s1, hv, w, s2, hDetach, rest, _, hRest, rfl, rfl⟩ := h
    obtain ⟨D, hD, hw⟩ := detach_gets hG hDetach (expr_yields hG C hv hx.1)
    obtain ⟨E, hE, hRest⟩ := ih hRest hx.2
    exact ⟨E, hD.trans hE, forall_mem_cons.mpr ⟨hw.mono hE.grows, hRest⟩⟩

theorem assignAll_gets {ds : List (Ty × Reg)} (h : assignAll ds vs T p u p') (hds : ∀ e ∈ ds, e.2 ∈ C)
    (hvs : ∀ v ∈ vs, v.Known C) : Gets C p.pos p'.pos fun _ => True := by
  induction ds generalizing vs p C with
  | nil =>
    obtain ⟨-, rfl⟩ := h
    exact ⟨C, .refl, trivial⟩
  | cons e ds ih =>
    cases vs with
    | nil =>
      obtain ⟨-, rfl⟩ := h
      exact ⟨C, .refl, trivial⟩
    | cons v vs =>
      obtain ⟨_, s, hAssign, hRest⟩ := h
      rw [forall_mem_cons] at hds hvs
      obtain ⟨D, hD, -⟩ := (assignTo_uses hG hAssign hvs.1.marked hds.1).known hvs.1
      exact hD.gets (ih hRest (fun e he => hD.grows (hds.2 e he)) fun v hv => (hvs.2 v hv).mono hD.grows)

theorem assign_gets {lhs rhs : List Expr} (h : assign lhs rhs T p u p') (hl : listTypes P lhs = true)
    (hr : listTypes P rhs = true) : Gets C p.pos p'.pos fun _ => True := by
  -- several values are detached before the first of them is assigned
  have hSeveral : ∀ {ds : List (Ty × Reg)} {vs : List Value} {s1 s2 : Point}, places lhs T p ds s1 →
      detachedValues rhs T s1 vs s2 → assignAll ds vs T s2 u p' → Gets C p.pos p'.pos fun _ => True := by
    intro ds vs s1 s2 hPlaces hValues hAssign
    obtain ⟨-, D, hD, hds⟩ := places_gets hG C hPlaces hl
    obtain ⟨E, hE, hvs⟩ := detachedValues_gets hG hValues hr
    exact (hD.trans hE).gets (assignAll_gets hG hAssign (fun e he => hE.grows (hds e he)) hvs)
  match rhs, h with
  | [x], h =>
    rw [listTypes, Bool.and_eq_true] at hr
    replace h := ite_iff.mp h
    split at h
    · next hOne =>
      obtain ⟨ds, s1, hPlaces, v, s2, hv, hAssign⟩ := h
      obtain ⟨hLen, D, hD, hds⟩ := places_gets hG C hPlaces hl
      obtain ⟨e, rfl⟩ := length_eq_one_iff.mp (hLen.trans hOne)
      obtain ⟨_, s3, hAssign, -, rfl⟩ := hAssign
      have hYields := expr_yields hG D hv hr.1
      exact hD.gets (hYields.use (assignTo_uses hG hAssign hYields.marked (hds e mem_cons_self)))
    · cases x with
      | call t f args =>
        obtain ⟨ds, s1, hPlaces, o, s2, hCall, _, _, ⟨-, rfl⟩, hAssign⟩ := h
        obtain ⟨-, D, hD, hds⟩ := places_gets hG C hPlaces hl
        obtain ⟨E, hE, hvs⟩ := (results_yields hG _ D hCall hr.1).2 t f args rfl
        exact (hD.trans hE).gets (assignAll_gets hG hAssign (fun e he => hE.grows (hds e he)) hvs)
      | _ => exact h.elim
  | [], h | _ :: _ :: _, h =>
    obtain ⟨_, _, ⟨-, rfl⟩, ds, s1, hPlaces, vs, s2, hValues, hAssign⟩ := h
    exact hSeveral hPlaces hValues hAssign

theorem compound_gets {op : BinaryOp} {lhs rhs : List Expr} (h : compound op lhs rhs T p u p')
    (hl : listTypes P lhs = true) (hr : listTypes P rhs = true) : Gets C p.pos p'.pos fun _ => True := by
  match lhs, rhs, h with
  | [target], [x], h =>
    rw [listTypes, Bool.and_eq_true] at hl hr
    obtain ⟨w, s1, hTarget, h⟩ := h
    have hYields := expr_yields hG C hTarget hl.1
    cases w with
    | place t addr =>
      obtain ⟨c, s2, hOld, v, s3, hv, d, s4, hValue, h⟩ := h
      obtain ⟨D, hD, hAddr⟩ := hYields
      obtain ⟨E, hE, hc⟩ := (value_uses hG hOld trivial).known hAddr
      obtain ⟨F, hF, hd⟩ := value_gets hG hValue (expr_yields hG E hv hr.1)
      generalize BinaryOp.instr op t = i at h
      cases i with
      | ok i =>
        obtain ⟨rt, _, ⟨-, rfl⟩, e, s5, hBin, _, _, ⟨-, rfl⟩, hStore⟩ := h
        obtain ⟨G, hG', he⟩ := bin_gets hG hBin (hF.grows hc) hd
        have hSince := hE.trans (hF.trans hG')
        exact (hD.trans hSince).gets (effect_gets hStore rfl rfl rfl (hSince.grows (hAddr rfl)) he)
      | error _ => exact h.elim
    | _ => exact h.elim
  | [], _, h | _ :: _ :: _, _, h | [_], [], h | [_], _ :: _ :: _, h => exact h.elim

theorem declared_gets {x : Variable} {init : Expr} (C : Z.Written) (h : declared l x init T p u p')
    (hx : init.allTypes P = true) (hl : l ∈ C) : Gets C p.pos p'.pos fun _ => True := by
  rw [declared, ite_iff] at h
  split at h
  · exact zero_gets hG h hl
  · obtain ⟨v, s, hv, hAssign⟩ := h
    have hYields := expr_yields hG C hv hx
    exact hYields.use (assignTo_uses hG hAssign hYields.marked hl)

/-- A condition goes on where it holds, or else to a region elsewhere. -/
theorem condition_forks {x : Expr} {no : Nat} (C : Z.Written) (h : condition x T p no p') (hNo : T.code[no]? = some .region)
    (hx : x.allTypes P = true) : Forks C p.pos p'.pos no := by
  obtain ⟨v, s, hv, h⟩ := h
  have hYields := expr_yields hG C hv hx
  cases v with
  | pending t q =>
    obtain ⟨no', _, rfl, _, s', hSettle, rfl, rfl⟩ := h
    obtain ⟨hTrue, hFalse, rfl⟩ := settle_iff.mp hSettle
    exact Awaits.forks hYields hNo hTrue hFalse
  | _ =>
    obtain ⟨r, s1, hValue, ⟨yes, no'⟩, s2, hBranch, rfl, rfl⟩ := h
    obtain ⟨hCode, hNext, rfl, rfl⟩ := branchFalse_iff.mp hBranch
    obtain ⟨D, hD, hr⟩ := value_gets hG hValue hYields
    exact .after hD (forks_branch hCode hNext hNo (.inl ⟨rfl, rfl⟩) hr)

/-! ## Returns -/

theorem values_yield (C : Z.Written) (h : values xs T p vs p') (hx : listTypes P xs = true) :
    YieldAll C p.pos p'.pos vs := by
  induction xs generalizing vs p C with
  | nil =>
    obtain ⟨rfl, rfl⟩ := h
    exact ⟨nofun, fun Rs hRs => ⟨C, .refl, nofun, by cases hRs; nofun⟩⟩
  | cons x xs ih =>
    rw [listTypes, Bool.and_eq_true] at hx
    obtain ⟨v, s, hv, rest, _, hRest, rfl, rfl⟩ := h
    have hYields := expr_yields hG C hv hx.1
    refine ⟨forall_mem_cons.mpr ⟨hYields.marked, (ih C hRest hx.2).marked⟩, fun Rs hRs => ?_⟩
    obtain _ | ⟨hR, hRs⟩ := hRs
    obtain ⟨D, hD, hv, hRD⟩ := hYields.resolve hR
    obtain ⟨E, hE, hvs, hRsE⟩ := (ih D hRest hx.2).resolve _ hRs
    exact ⟨E, hD.trans hE, forall_mem_cons.mpr ⟨hv.trans hE.grows, hvs⟩,
      forall_mem_cons.mpr ⟨hRD.trans hE.grows, hRsE⟩⟩

theorem returnValues_yield {n : Nat} (h : returnValues n xs T p vs p') (hx : listTypes P xs = true) :
    vs.length = n ∧ YieldAll C p.pos p'.pos vs := by
  replace h := ite_iff.mp h
  split at h
  · match xs, h with
    | [.call t f args], h =>
      rw [listTypes, Bool.and_eq_true] at hx
      obtain ⟨o, s, hCall, _, _, ⟨hLen, rfl⟩, rfl, rfl⟩ := h
      obtain ⟨D, hD, hvs⟩ := (results_yields hG _ C hCall hx.1).2 t f args rfl
      exact ⟨hLen, .of_known hD hvs⟩
  · obtain ⟨_, p, ⟨hLen, rfl⟩, h⟩ := h
    exact ⟨(length_values h).trans hLen, values_yield hG C h hx⟩

/-- The results of a return are put in their places, one after the other. -/
theorem placeResults_uses {i : Nat} {ts : List Ty} (h : placeResults i r ts vs T p d p') (hLen : vs.length = ts.length)
    (hv : ∀ v ∈ vs, v.Marked T.code) : UseAll vs p.pos p'.pos fun C D : Z.Written =>
      (T.sig.ret.rule = .direct → r ∈ C ∨ ts ≠ [] ∧ T.outs.lookup (i + ts.length - 1) = none → d ∈ D) ∧
        (T.sig.ret.rule ≠ .direct → d = r) := by
  induction ts generalizing vs i r p with
  | nil =>
    obtain rfl : vs = [] := List.length_eq_zero_iff.mp hLen
    obtain ⟨rfl, rfl⟩ := h
    exact ⟨[], .nil, fun C _ _ => ⟨C, .refl, fun _ h => h.resolve_right fun hc => hc.1 rfl, fun _ => rfl⟩⟩
  | cons t ts ih =>
    obtain _ | ⟨v, vs⟩ := vs
    · cases hLen
    obtain ⟨T₀, p, ⟨hText, rfl⟩, h⟩ := h
    subst T₀
    rw [List.forall_mem_cons] at hv
    -- what is done about the first value
    obtain ⟨s, r', Q, hRest, hUse, hGood, hKeep⟩ : ∃ (s : Point) (r' : Reg) (Q : Z.Written → Prop),
        placeResults (i + 1) r' ts vs T s d p' ∧ Uses Z.start v p.pos s.pos Q ∧
        (∀ {C D : Z.Written}, C.regs ⊆ D.regs → Q D → T.sig.ret.rule = .direct → r ∈ C ∨ T.outs.lookup i = none → r' ∈ D) ∧
        (T.sig.ret.rule ≠ .direct → r' = r) := by
      cases hOut : T.outs.lookup i with
      | some out =>
        simp only [hOut] at h
        obtain ⟨_, s, hAssign, hRest⟩ := h
        exact ⟨s, r, _, hRest, assignTo_uses hG hAssign hv.1 (hG.outs _ (mem_of_lookup hOut)),
          fun hCD _ _ hr => hCD (hr.resolve_right nofun), fun _ => rfl⟩
      | none =>
        simp only [hOut] at h
        rw [ite_iff] at h
        split at h
        · next hRule =>
          obtain ⟨r', s, hValue, hRest⟩ := h
          exact ⟨s, r', _, hRest, value_uses hG hValue hv.1, fun _ hr' _ _ => hr', fun hc => absurd hRule hc⟩
        · next hRule =>
          obtain ⟨_, s, hDrop, hRest⟩ := h
          exact ⟨s, r, _, hRest, drop_uses hDrop hv.1, fun _ _ hc _ => absurd hc hRule, fun _ => rfl⟩
    refine hUse.cons (ih hRest (Nat.succ.inj hLen) hv.2) fun {C D E} hCD hQ ⟨hDirect, hOther⟩ =>
      ⟨fun hRule h => hDirect hRule ?_, fun hRule => (hOther hRule).trans (hKeep hRule)⟩
    rcases h with hr | ⟨-, hLast⟩
    · exact .inl (hGood hCD hQ hRule (.inl hr))
    · by_cases hEmpty : ts = []
      · subst hEmpty
        exact .inl (hGood hCD hQ hRule (.inr hLast))
      · refine .inr ⟨hEmpty, ?_⟩
        rwa [List.length_cons, show i + (ts.length + 1) - 1 = i + 1 + ts.length - 1 by omega] at hLast

/-- What a return statement reads is there. -/
theorem returned_gets (C : Z.Written) (h : returned xs T p d p') (hx : listTypes P xs = true) :
    Gets C p.pos p'.pos fun D => ∀ r ∈ (Instr.ret T.sig.retReg d).reads, r ∈ D := by
  obtain ⟨T0, p, ⟨hText, rfl⟩, vs, s, hValues, hPlace⟩ := h
  subst T0
  obtain ⟨hLen, hYields⟩ := returnValues_yield hG hValues hx
  obtain ⟨E, hE, D, hDirect, hOther⟩ := hYields.use (placeResults_uses hG hPlace hLen hYields.marked)
  refine ⟨E, hE, fun r hr => ?_⟩
  by_cases hRule : T.sig.ret.rule = .direct
  · have hd := hDirect hRule <| (hG.ret hRule).imp (fun h => D.base h) fun ⟨hSome, hLast⟩ =>
      ⟨hSome, by rwa [Nat.zero_add]⟩
    rw [Instr.reads] at hr
    split at hr
    · cases hr
    · exact mem_singleton.mp hr ▸ hd
  · rw [Instr.reads, if_pos ⟨if_neg hRule, hOther hRule⟩] at hr
    cases hr

end

/-- The paths of a pending value start and meet at regions, whether control has come through the code or not. -/
theorem results_marked {x : Expr} {o : Value × List Value} (h : results x T p o p') : o.1.Marked T.code :=
  (results_yields (.whole T) x (Zone.start _) h x.allTypes_true).1.marked

theorem length_places {ds : List (Ty × Reg)} (h : places xs T p ds p') : ds.length = xs.length :=
  (places_gets (.whole T) (Zone.start _) h (listTypes_true xs)).1

end Shape

end Comptime
