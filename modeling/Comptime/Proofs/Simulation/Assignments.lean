import Comptime.Proofs.Simulation.Expressions

/-!
# Assignments and returns do what they say

An assignment of many values takes all of them before it writes any. A return does not: its values are put where the caller
looks for them once all are known, one after the other, and a value that is pending until then is put into a register on its
paths, which control has come by earlier (`Scene.Awaits`). These registers are picked after all others, so nothing that runs
in between sets them.
-/

namespace Comptime

open List Shape Stmt Comptime.Expr Operand

variable {q : Pending} {k : Nat}

namespace Scene

variable {E : Scene} {n : Nat} {f0 f f' : Frame} {l : List (Nat × Reg)} {p p' p'' : Point} {u : Unit} {r : Reg}
  {v w : Value}
  {o : Operand} {t : Ty} {xs lhs rhs : List Expr} {vs : List Value} {os : List Operand} {y z : Expr}
variable {ds : List (Ty × Reg)}

/-- Control has got to the end of straight code. -/
def Finishes (E : Scene) (p p' : Point) (f : Frame) (e : Exit) (f' : Frame) : Prop := e = .done ∧ E.Passed p p' f f'

theorem evaluated_does (h : (do drop (← expr y)) (E.seen l) p u p') (hf : E.Rests p f)
    (hVars : ∀ i ∈ y.vars, E.Knows l i) : E.Does n f (exec E.setting (.expr y)) (E.Finishes p p' f) := by
  obtain ⟨_, _, ⟨res, _, hResults, rfl, rfl⟩, hDrop⟩ := h
  simp only [exec, discard_bind]
  refine (results_does y hResults hf hVars).bind fun o f1 _ hLands => drop_does hDrop hLands fun f2 hPassed => ?_
  exact .pure fun _ => ⟨rfl, hPassed⟩

theorem declared_does {x : Variable} {slot : Nat} (h : declared slot x y (E.seen l) p u p') (hf : E.Rests p f)
    (hFixed : E.text.fixed slot) (hLt : slot < E.text.numRegs) (hHome : E.setting.home x.id = E.entry slot)
    (hVars : ∀ i ∈ y.vars, E.Knows l i) : E.Does n f (exec E.setting (.decl x y)) (E.Finishes p p' f) := by
  obtain ⟨a, ha⟩ := (Passed.refl hf).fixed hFixed hLt
  rw [declared, ite_iff] at h
  rw [exec]
  refine .known (hHome.trans ((hf.fits.fixed slot hFixed).symm.trans ha.reg)) ?_
  split at h
  · next hAbsent =>
    rw [if_pos hAbsent]
    exact clear_does h hf ha.holds ha.reg fun f' hPassed => .pure fun _ => ⟨rfl, hPassed⟩
  · next hAbsent =>
    obtain ⟨_, _, ⟨res, _, hResults, rfl, rfl⟩, hAssign⟩ := h
    rw [if_neg hAbsent]
    refine (results_does y hResults hf hVars).bind fun o f1 _ hLands => ?_
    exact assign_does hAssign hLands hf.fits ha.holds ha.reg fun f' hPassed => .pure fun _ => ⟨rfl, hPassed⟩

/-! ## Values at hand -/

/-- A value that is at hand stays so as long as its registers are left alone. -/
theorem denotes_after (hv : v.Denotes f o ∧ v.HeldIn E.text p.next) (hNext : p.next ≤ p'.next)
    (hReg : ∀ {r}, E.text.Holds p.next r → f'.reg? r = f.reg? r) : v.Denotes f' o ∧ v.HeldIn E.text p'.next := by
  obtain ⟨hDenotes, hHeld⟩ := hv
  cases v with
  | place t r =>
    cases o with
    | place t' a => exact ⟨⟨hDenotes.1, (hReg hHeld).trans hDenotes.2⟩, hHeld.mono hNext⟩
    | _ => exact hDenotes.elim
  | reg t r =>
    cases o with
    | word t' a => exact ⟨⟨hDenotes.1, (hReg hHeld).trans hDenotes.2⟩, hHeld.mono hNext⟩
    | _ => exact hDenotes.elim
  | none t =>
    cases o with
    | nothing t' => exact ⟨hDenotes, trivial⟩
    | _ => exact hDenotes.elim
  | pending t q => cases o <;> exact hDenotes.elim

theorem Stood.after (h : E.Stood p f vs os) (hf : E.Fits f) (hPassed : E.Passed p p' f f') : E.Stood p' f' vs os :=
  Forall₂.imp (fun _ _ hv => denotes_after hv hPassed.next (hPassed.reg?_eq hf)) h

/-- Registers have the addresses of places. -/
def Placed (E : Scene) (p : Point) (f : Frame) (ds : List (Ty × Reg)) (ts : List (Ty × Option UInt64)) : Prop :=
  Forall₂ (fun d t => d.1 = t.1 ∧ f.reg? d.2 = t.2 ∧ E.text.Holds p.next d.2) ds ts

theorem Placed.after {ts : List (Ty × Option UInt64)} (h : E.Placed p f ds ts) (hf : E.Fits f)
    (hPassed : E.Passed p p' f f') :
    E.Placed p' f' ds ts :=
  Forall₂.imp (fun _ _ ⟨hTy, hReg, hHolds⟩ => ⟨hTy, (hPassed.reg?_eq hf hHolds).trans hReg, hHolds.mono hPassed.next⟩) h

theorem places_does (h : Shape.places xs (E.seen l) p ds p') (hf : E.Rests p f)
    (hVars : ∀ x ∈ xs, ∀ i ∈ x.vars, E.Knows l i) :
    E.Does n f (Expr.places E.setting xs) fun ts f' => E.Passed p p' f f' ∧ E.Placed p' f' ds ts := by
  induction xs generalizing p f ds with
  | nil =>
    obtain ⟨rfl, rfl⟩ := h
    exact .pure fun _ => ⟨.refl hf, .nil⟩
  | cons x xs ih =>
    obtain ⟨hx, hxs⟩ := forall_mem_cons.mp hVars
    obtain ⟨v, p1, ⟨res, _, hResults, rfl, rfl⟩, h⟩ := h
    rw [Expr.places]
    refine (results_does x hResults hf hx).bind fun o f1 _ hLands => ?_
    generalize res.1 = v at h hLands
    cases v with
    | place t r =>
      obtain ⟨ds, _, hRest, rfl, rfl⟩ := h
      obtain ⟨a, rfl, hr⟩ := hLands.of_place
      refine (ih hRest hr.toRests hxs).bind fun ts f2 _ ⟨hPassed, hPlaced⟩ => .pure fun _ => ?_
      have hr := hr.after hPassed
      exact ⟨hr.toPassed, .cons ⟨rfl, hr.reg, hr.holds⟩ hPlaced⟩
    | _ => exact h.elim

theorem detach_does (h : Shape.detach v (E.seen l) p' w p'') (hv : E.Lands p p' f0 f v o) :
    E.Does n f (o.detach E.setting) fun o' f' => E.Passed p p'' f0 f' ∧ w.Denotes f' o' ∧ w.HeldIn E.text p''.next := by
  -- a value that is not in memory is taken as it is
  have hWord : ∀ {r}, Shape.value v (E.seen l) p' r p'' → w = .reg v.ty r →
      E.Does n f (do return Operand.word o.ty (← o.value E.setting)) fun o' f' =>
        E.Passed p p'' f0 f' ∧ w.Denotes f' o' ∧ w.HeldIn E.text p''.next := by
    rintro r hValue rfl
    exact value_does hValue hv fun y f' hr => .pure fun _ => ⟨hr.toPassed, ⟨hv.ty, hr.reg⟩, hr.holds⟩
  cases v with
  | place t src =>
    obtain ⟨rt, _, ⟨hRt, rfl⟩, h⟩ := h
    obtain ⟨a, rfl, hSrc⟩ := hv.of_place
    rw [Operand.detach]
    refine .known hRt ?_
    rw [Shape.ite_iff] at h
    split at h
    · next hScalar =>
      obtain ⟨r, _, hValue, rfl, rfl⟩ := h
      rw [if_pos hScalar]
      exact hWord hValue rfl
    · next hScalar =>
      obtain ⟨e, p', ⟨hExtent, rfl⟩, tmp, s, hReserve, _, _, hCopy, rfl, rfl⟩ := h
      rw [if_neg hScalar]
      obtain ⟨b, hTmp⟩ := reserve_does hReserve hSrc.toPassed
      simp only [discard_bind]
      refine .known hExtent (freshPair_does (c := fun a => pure (Operand.place t (some a))) joins_copy
        (fun _ _ => rfl) hCopy hTmp.pos hTmp.reg hSrc.reg fun f1 hPassed => .pure fun _ => ?_)
      have hTmp := hTmp.after hPassed
      exact ⟨hTmp.toPassed, ⟨rfl, hTmp.reg⟩, hTmp.holds⟩
  | _ =>
    obtain ⟨r, _, hValue, rfl, rfl⟩ := h
    obtain ⟨t', y, rfl⟩ := hv.of_value hValue nofun
    exact hWord hValue rfl

theorem detached_does (h : detachedValues xs (E.seen l) p vs p') (hf : E.Rests p f)
    (hVars : ∀ x ∈ xs, ∀ i ∈ x.vars, E.Knows l i) :
    E.Does n f (detached E.setting xs) fun os f' => E.Passed p p' f f' ∧ E.Stood p' f' vs os := by
  induction xs generalizing p f vs with
  | nil =>
    obtain ⟨rfl, rfl⟩ := h
    exact .pure fun _ => ⟨.refl hf, .nil⟩
  | cons x xs ih =>
    obtain ⟨hx, hxs⟩ := forall_mem_cons.mp hVars
    obtain ⟨_, p1, ⟨res, _, hResults, rfl, rfl⟩, w, p2, hDetach, ws, _, hRest, rfl, rfl⟩ := h
    rw [detached]
    refine (results_does x hResults hf hx).bind fun o f1 _ hLands => ?_
    refine (detach_does hDetach hLands).bind fun o' f2 _ ⟨hPassed, hDenotes⟩ => ?_
    refine (ih hRest hPassed.toRests hxs).bind fun os f3 _ ⟨hPassed', hStood⟩ => .pure fun _ => ?_
    exact ⟨hPassed.trans hPassed', .cons (denotes_after hDenotes hPassed'.next (hPassed'.reg?_eq hPassed.fits)) hStood⟩

theorem assignAll_does {ts : List (Ty × Option UInt64)} (h : Shape.assignAll ds vs (E.seen l) p u p') (hf : E.Rests p f)
    (hPlaced : E.Placed p f ds ts) (hStood : E.Stood p f vs os) :
    E.Does n f (Operand.assignAll E.setting ts os) fun _ f' => E.Passed p p' f f' := by
  induction ds generalizing ts vs os p f with
  | nil =>
    cases hPlaced
    obtain ⟨-, rfl⟩ := h
    exact .pure fun _ => .refl hf
  | cons d ds ih =>
    obtain ⟨t, ts, ⟨hTy, hReg, hHolds⟩, hRest, rfl⟩ := forall₂_cons_left_iff.mp hPlaced
    cases vs with
    | nil =>
      cases hStood
      obtain ⟨-, rfl⟩ := h
      exact .pure fun _ => .refl hf
    | cons v vs =>
      obtain ⟨o, os, hv, hvs, rfl⟩ := forall₂_cons_left_iff.mp hStood
      obtain ⟨_, p1, hAssign, hAll⟩ := h
      obtain ⟨t, a⟩ := t
      obtain rfl : d.1 = t := hTy
      rw [Operand.assignAll]
      have hLands : E.Lands p p f f v o := .of_denotes (.refl hf) hv.1 hv.2
      refine assign_does hAssign hLands hf.fits hHolds hReg fun f1 hPassed => ?_
      refine (ih hAll hPassed.toRests (Placed.after hRest hf.fits hPassed) (Stood.after hvs hf.fits hPassed)).imp ?_
      exact fun _ f2 _ hPassed' => hPassed.trans hPassed'

/-- **Assignments do what they say.** -/
theorem assigned_does (h : Shape.assign lhs rhs (E.seen l) p u p') (hf : E.Rests p f)
    (hLhs : ∀ x ∈ lhs, ∀ i ∈ x.vars, E.Knows l i) (hRhs : ∀ x ∈ rhs, ∀ i ∈ x.vars, E.Knows l i) :
    E.Does n f (Stmt.exec E.setting (.assign none lhs rhs)) (E.Finishes p p' f) := by
  rw [Stmt.exec]
  -- what is left to be done once the values are at hand
  have hWrite : ∀ {ds ts vs os p1 p2 f1 f2}, E.Passed p p1 f f1 → E.Placed p1 f1 ds ts → E.Passed p1 p2 f1 f2 →
    E.Stood p2 f2 vs os → Shape.assignAll ds vs (E.seen l) p2 u p' → E.Does n f2 (do
        Operand.assignAll E.setting ts os
        return Exit.done) (E.Finishes p p' f) :=
    fun hPassed hPlaced hPassed' hStood hAll =>
      (assignAll_does hAll hPassed'.toRests (hPlaced.after hPassed.fits hPassed') hStood).bind fun _ f3 _ hLast =>
        .pure fun _ => ⟨rfl, (hPassed.trans hPassed').trans hLast⟩
  have hMany : ∀ {p0 ds p1 vs p2}, p0 = p → Shape.places lhs (E.seen l) p0 ds p1 →
    Shape.detachedValues rhs (E.seen l) p1 vs p2 → Shape.assignAll ds vs (E.seen l) p2 u p' → E.Does n f (do
        let targets ← Expr.places E.setting lhs
        let os ← Expr.detached E.setting rhs
        Operand.assignAll E.setting targets os
        return Exit.done) (E.Finishes p p' f) := by
    rintro _ ds p1 vs p2 rfl hPlaces hValues hAll
    refine (places_does hPlaces hf hLhs).bind fun ts f1 _ ⟨hPassed, hPlaced⟩ => ?_
    refine (detached_does hValues hPassed.toRests hRhs).bind fun os f2 _ ⟨hPassed', hStood⟩ => ?_
    exact hWrite hPassed hPlaced hPassed' hStood hAll
  match rhs with
  | [x] =>
    have hx := hRhs x mem_cons_self
    rw [Expr.assigned]
    by_cases hOne : lhs.length = 1
    · unfold Shape.assign at h
      simp only [if_pos hOne] at h
      obtain ⟨ds, p1, hPlaces, _, p2, ⟨res, _, hResults, rfl, rfl⟩, hAll⟩ := h
      rw [if_pos hOne]
      obtain ⟨d, rfl⟩ := length_eq_one_iff.mp ((Shape.length_places hPlaces).trans hOne)
      obtain ⟨_, _, hAssign, rfl, rfl⟩ := hAll
      refine (places_does hPlaces hf hLhs).bind fun ts f1 _ ⟨hPassed, hPlaced⟩ => ?_
      obtain ⟨⟨t, a⟩, ts, ⟨hTy, hReg, hHolds⟩, hNil, rfl⟩ := forall₂_cons_left_iff.mp hPlaced
      obtain rfl : d.1 = t := hTy
      simp only [Expr.operands, Operand.assignAll, bind_assoc, pure_bind]
      refine (results_does x hResults hPassed.toRests hx).bind fun o f2 _ hLands => ?_
      refine assign_does hAssign hLands hPassed.fits hHolds hReg fun f3 hPassed' => ?_
      cases hNil
      exact .pure fun _ => ⟨rfl, hPassed.trans hPassed'⟩
    · rw [if_neg hOne]
      unfold Shape.assign at h
      simp only [if_neg hOne] at h
      cases x with
      | call t fn args =>
        obtain ⟨ds, p1, hPlaces, res, p2, hResults, _, _, ⟨-, rfl⟩, hAll⟩ := h
        refine (places_does hPlaces hf hLhs).bind fun ts f1 _ ⟨hPassed, hPlaced⟩ => ?_
        refine (callResults_does hResults hPassed.toRests hx).bind fun os f2 _ ⟨hPassed', hStood⟩ => ?_
        exact hWrite hPassed hPlaced hPassed' hStood hAll
      | _ => exact h.elim
  | [] | _ :: _ :: _ =>
    obtain ⟨_, _, ⟨-, rfl⟩, ds, p1, hPlaces, vs, p2, hValues, hAll⟩ := h
    exact hMany rfl hPlaces hValues hAll

theorem compound_does {op : BinaryOp} (h : Shape.compound op lhs rhs (E.seen l) p u p') (hf : E.Rests p f)
    (hLhs : ∀ x ∈ lhs, ∀ i ∈ x.vars, E.Knows l i) (hRhs : ∀ x ∈ rhs, ∀ i ∈ x.vars, E.Knows l i) :
    E.Does n f (Stmt.exec E.setting (.assign (some op) lhs rhs)) (E.Finishes p p' f) := by
  match lhs, rhs with
  | [y], [z] =>
    obtain ⟨_, p1, ⟨res, _, hPlace, rfl, rfl⟩, h⟩ := h
    rw [Stmt.exec]
    refine (results_does y hPlace hf (hLhs y mem_cons_self)).bind fun o f1 _ hLands => ?_
    generalize res.1 = v at h hLands
    cases v with
    | place t addr =>
      obtain ⟨a, p2, hLoad, _, p3, ⟨res', _, hResults, rfl, rfl⟩, b, p4, hValue, h⟩ := h
      obtain ⟨c, rfl, hAddr⟩ := hLands.of_place
      simp only [Expr.value, bind_assoc]
      -- the address is used again once the value is known
      have hHere : E.Gets p1 p1 f1 f1 addr c := ⟨.refl hAddr.toRests, hAddr.reg, hAddr.holds⟩
      refine value_does hLoad hHere.place fun w f2 ha => ?_
      refine (results_does z hResults ha.toRests (hRhs z mem_cons_self)).bind fun o' f3 _ hLands' => ?_
      refine value_does hValue hLands' fun w' f4 hb => ?_
      have ha4 := ha.after hb.toPassed
      generalize BinaryOp.instr op t = i at h ⊢
      cases i with
      | ok i =>
        obtain ⟨rt, _, ⟨hRt, rfl⟩, d, p5, hBin, e, _, ⟨-, rfl⟩, hStore⟩ := h
        refine .known hRt (bin_does (g := fun y => do
          let a ← Eval.demand c
          discard (E.setting.perform (.store rt a y))
          return Exit.done) hBin hb.pos ha4.reg hb.reg fun y f5 hd => ?_)
        have hAddr5 := hAddr.after (ha4.trans hd.toPassed)
        simp only [discard_bind]
        exact pair_does joins_store hStore hd.pos hAddr5.reg hd.reg fun _ f6 hPassed => .pure fun _ =>
          ⟨rfl, hAddr5.trans hPassed⟩
      | error _ => exact h.elim
    | _ => exact h.elim
  | [], _ | _ :: _ :: _, _ | [_], [] | [_], _ :: _ :: _ => exact h.elim

end Scene

/-! ## What becomes of pending values -/

/-- Nothing was put on the paths of a pending value. -/
structure Pending.Skips (code : Array Instr) (q : Pending) : Prop where
  leaveTrue : q.onTrue + 1 = q.leaveTrue
  jumpTrue : code[q.leaveTrue]? = some (.branch noReg [] q.merge)
  leaveFalse : q.onFalse + 1 = q.leaveFalse
  jumpFalse : code[q.leaveFalse]? = some (.branch noReg [] q.merge)

theorem Pending.Sets.unique {code : Array Instr} {j : Nat} (h : q.Sets code j) (h' : q.Sets code k) : j = k := by
  have hEq := h.onTrue.symm.trans h'.onTrue
  simp only [Option.some.injEq, Instr.imm.injEq] at hEq
  exact Int.ofNat.inj hEq.2.1

theorem Pending.Skips.not_sets {code : Array Instr} (h : q.Skips code) : ¬ q.Sets code k := fun h' => by
  have hEq := h'.onTrue
  rw [h.leaveTrue, h.jumpTrue] at hEq
  cases hEq

namespace Value

/-- The value is put into register `k` on its paths. -/
def Sets (code : Array Instr) (k : Nat) : Value → Prop
  | pending _ q => q.Sets code k
  | _ => False

/-- What becomes of a pending value: nothing, or it is put into a register from `n` on. -/
def Resolved (T : Text) (n : Nat) : Value → Prop
  | pending _ q => q.Skips T.code ∨ ∃ k, n ≤ k ∧ ¬ T.fixed k ∧ k < T.numRegs ∧ q.Sets T.code k
  | _ => True

variable {T : Text} {n m : Nat} {v : Value}

theorem Resolved.mono (h : v.Resolved T n) (hLe : m ≤ n) : v.Resolved T m := by
  cases v with
  | pending t q => exact h.imp_right fun ⟨k, hk, hRest⟩ => ⟨k, hLe.trans hk, hRest⟩
  | _ => trivial

theorem Resolved.le (h : v.Resolved T n) (hk : v.Sets T.code k) : n ≤ k := by
  cases v with
  | pending t q =>
    rcases h with hSkips | ⟨j, hj, -, -, hSets⟩
    · exact absurd hk hSkips.not_sets
    · exact hSets.unique hk ▸ hj
  | _ => exact hk.elim

end Value

namespace Shape

variable {T : Text} {p p' : Point} {r r' dst : Reg} {u : Unit} {v : Value} {t : Ty} {i : Nat} {ts : List Ty}
  {vs : List Value}

theorem value_resolved (h : value v T p r p') : v.Resolved T p.next ∧ ∀ k, v.Sets T.code k → k < p'.next := by
  cases v with
  | pending t q =>
    obtain ⟨k, -, hLe, hFree, hLt, rfl, hSets⟩ := materialize_sets h
    exact ⟨.inr ⟨k, hLe, hFree, hLt, hSets⟩, fun j hj => hSets.unique hj ▸ Nat.lt_succ_self k⟩
  | _ => exact ⟨trivial, nofun⟩

theorem drop_resolved (h : drop v T p u p') : v.Resolved T p.next ∧ ∀ k, v.Sets T.code k → k < p'.next := by
  cases v with
  | pending t q =>
    obtain ⟨⟨hTrue, hJump⟩, ⟨hFalse, hJump'⟩, -⟩ := settle_iff.mp h
    have hSkips : q.Skips T.code := ⟨hTrue, hJump, hFalse, hJump'⟩
    exact ⟨.inl hSkips, fun k hk => absurd hk hSkips.not_sets⟩
  | _ => exact ⟨trivial, nofun⟩

theorem assignTo_resolved (h : assignTo dst t v T p u p') : v.Resolved T p.next ∧ ∀ k, v.Sets T.code k → k < p'.next := by
  obtain ⟨e, -, ⟨-, hDrop⟩ | ⟨-, ⟨t', src, rfl, -⟩ | ⟨-, rt, r, s, -, -, hValue, -, rfl⟩⟩⟩ := of_assignTo h
  · exact drop_resolved hDrop
  · exact ⟨trivial, nofun⟩
  · obtain ⟨hResolved, hLt⟩ := value_resolved hValue
    exact ⟨hResolved, hLt⟩

/-- The values that are returned are resolved in their order. -/
theorem placeResults_resolved (h : placeResults i r ts vs T p r' p') (hLen : vs.length ≤ ts.length) :
    (∀ v ∈ vs, v.Resolved T p.next ∧ ∀ k, v.Sets T.code k → k < p'.next) ∧
      vs.Pairwise fun v w => ∀ j k, v.Sets T.code j → w.Sets T.code k → j < k := by
  induction ts generalizing i r vs p with
  | nil =>
    obtain rfl := eq_nil_of_length_eq_zero (Nat.le_zero.mp hLen)
    exact ⟨nofun, .nil⟩
  | cons t ts ih =>
    cases vs with
    | nil => exact ⟨nofun, .nil⟩
    | cons v vs =>
      obtain ⟨T', p, ⟨hText, rfl⟩, h⟩ := h
      subst T'
      -- the first value is resolved between two points, and the others from there on
      have hStep : ∀ {s i r}, (v.Resolved T p.next ∧ ∀ k, v.Sets T.code k → k < s.next) → p.next ≤ s.next →
          placeResults i r ts vs T s r' p' → (∀ w ∈ v :: vs, w.Resolved T p.next ∧ ∀ k, w.Sets T.code k → k < p'.next) ∧
            (v :: vs).Pairwise fun v w => ∀ j k, v.Sets T.code j → w.Sets T.code k → j < k := by
        intro s i r hFirst hRises hRest
        have hNext : s.next ≤ p'.next := rises _ hRest
        obtain ⟨hResolved, hPairwise⟩ := ih hRest (Nat.le_of_succ_le_succ hLen)
        refine ⟨forall_mem_cons.mpr ⟨⟨hFirst.1, fun k hk => (hFirst.2 k hk).trans_le hNext⟩, fun w hw => ?_⟩,
          .cons (fun w hw j k hj hk => ?_) hPairwise⟩
        · exact ⟨(hResolved w hw).1.mono hRises, (hResolved w hw).2⟩
        · exact (hFirst.2 j hj).trans_le ((hResolved w hw).1.le hk)
      cases hOut : T.outs.lookup i with
      | some out =>
        simp only [hOut] at h
        obtain ⟨_, s, hAssign, hRest⟩ := h
        exact hStep (assignTo_resolved hAssign) (rises _ hAssign) hRest
      | none =>
        simp only [hOut] at h
        rw [ite_iff] at h
        split at h
        · obtain ⟨r1, s, hValue, hRest⟩ := h
          exact hStep (value_resolved hValue) (rises _ hValue) hRest
        · obtain ⟨_, s, hDrop, hRest⟩ := h
          exact hStep (drop_resolved hDrop) (rises _ hDrop) hRest

end Shape

/-! ## Returns -/

namespace Scene

variable {E : Scene} {α : Type} {n : Nat} {f f1 f' : Frame} {l : List (Nat × Reg)} {p p1 p' : Point} {u : Unit}
  {r r' : Reg} {v : Value}
  {o : Operand} {t : Ty} {xs : List Expr} {vs : List Value} {os : List Operand} {c : Eval α} {Q : α → Frame → Prop}

/-- The results from number `i` on go where the callers look for them. -/
def Delivered (E : Scene) : Nat → List Ty → List Outlet → Prop
  | _, [], [] => True
  | i, t :: ts, o :: outs => (match o with
    | .nowhere => E.text.outs.lookup i = none ∧ E.text.sig.ret.rule ≠ .direct
    | .register => E.text.outs.lookup i = none ∧ E.text.sig.ret.rule = .direct
    | .memory t' a => t' = t ∧ ∃ k : Nat, E.text.outs.lookup i = some k ∧ k < E.text.numRegs ∧ E.text.fixed k ∧
        E.entry k = some a) ∧ E.Delivered (i + 1) ts outs
  | _, _, _ => False

/-- The results of the procedure go where its callers look for them. -/
def Delivers (E : Scene) : Prop := E.Delivered 0 E.text.sig.results E.setting.outlets

/-- A register of a result, which is zero if there is none. -/
def Result (E : Scene) (m : Nat) (r : Reg) (v : UInt64) (f : Frame) : Prop :=
  E.text.Holds m r ∧ (r = noReg ∧ v = 0 ∨ f.reg? r = some v)

theorem Result.after {y : UInt64} (h : E.Result p.next r y f) (hf : E.Fits f) (hPassed : E.Passed p p' f f') :
    E.Result p'.next r y f' := ⟨h.1.mono hPassed.next, h.2.imp_right fun hr => (hPassed.reg?_eq hf h.1).trans hr⟩

/-- A value is at hand, or, if it is pending, control has come by its paths. -/
abbrev Awaits (E : Scene) (p : Point) (f : Frame) := E.Brings true p p f f

theorem Brings.after (hv : E.Awaits p f v o) (hf' : E.Rests p' f') (hNext : p.next ≤ p'.next)
    (hReg : ∀ {r}, E.text.Holds p.next r → f'.reg? r = f.reg? r)
    (hSets : ∀ k : Nat, v.Sets E.text.code k → f'.reg? k = f.reg? k) : E.Awaits p' f' v o := by
  cases v with
  | pending t q =>
    obtain ⟨b, ho, -, hb⟩ := hv
    exact ⟨b, ho, .refl hf', fun k hk => (hSets k hk).trans (hb k hk)⟩
  | _ => exact ⟨.refl hf', denotes_after hv.2 hNext hReg⟩

/-- Control comes by the paths of a value. -/
theorem lands_does (hv : E.Lands p p1 f f1 v o) (hResolved : v.Resolved E.text p1.next)
    (hNext : ∀ f' : Frame, E.Rests p1 f' → E.Awaits p1 f' v o →
      (∀ k : Nat, k < p.next ∨ p1.next ≤ k ∧ ¬ v.Sets E.text.code k → f'.reg? k = f.reg? k) → E.Does n f' c Q) :
    E.Does n f1 c Q := by
  cases v with
  | pending t q =>
    obtain ⟨b, rfl, hForked⟩ := id hv
    rcases hResolved with hSkips | ⟨k, hLe, hFree, hLt, hSets⟩
    · have hDrop : drop (.pending t q) (E.seen []) p1 () p1 :=
        settle_iff.mpr ⟨⟨hSkips.leaveTrue, hSkips.jumpTrue⟩, ⟨hSkips.leaveFalse, hSkips.jumpFalse⟩, rfl⟩
      refine drop_does hDrop hv fun f' hPassed =>
        hNext f' hPassed.toRests ⟨b, rfl, .refl hPassed.toRests, fun j hj => ?_⟩ fun j hj => ?_
      · exact absurd hj hSkips.not_sets
      · exact hPassed.spares j (hj.imp_right And.left)
    · have hSize : k < f1.regs.size := hForked.fits.size ▸ hLt
      have hRests : E.Rests p1 ((f1.put k (Word.flag b)).goto p1.pos) := ⟨rfl, (hForked.fits.put hFree).goto⟩
      refine sets_does hSets hFree hLt hForked (hNext _ hRests ⟨b, rfl, .refl hRests, fun j hj => ?_⟩ fun j hj => ?_)
      · obtain rfl := hSets.unique hj
        exact Frame.reg?_put_self hSize
      · have hNe : (j : Reg) ≠ k := fun hEq => by
          obtain rfl : j = k := Int.ofNat.inj hEq
          rcases hj with hLt' | ⟨-, hNot⟩
          · exact absurd hLt' (Nat.not_lt.mpr (hForked.next.trans hLe))
          · exact hNot hSets
        exact (Frame.reg?_put_ne hNe).trans (hForked.spares j (hj.imp_right And.left))
  | _ => exact hNext f1 hv.1.toRests ⟨.refl hv.1.toRests, hv.2⟩ fun k hk => hv.1.spares k (hk.imp_right And.left)

/-- The values of a return are known, and so are the registers that pending ones are put into. -/
structure Gathered (E : Scene) (p p' : Point) (f : Frame) (vs : List Value) (os : List Operand) (f' : Frame) : Prop
    extends Rests E p' f' where
  next : p.next ≤ p'.next
  awaits : Forall₂ (E.Awaits p' f') vs os
  spares : ∀ k : Nat, k < p.next ∨ p'.next ≤ k ∧ (∀ v ∈ vs, ¬ v.Sets E.text.code k) → f'.reg? k = f.reg? k

theorem operands_does (h : values xs (E.seen l) p vs p') (hf : E.Rests p f)
    (hVars : ∀ x ∈ xs, ∀ i ∈ x.vars, E.Knows l i) (hResolved : ∀ v ∈ vs, v.Resolved E.text p'.next)
    (hOrder : vs.Pairwise fun v w => ∀ j k, v.Sets E.text.code j → w.Sets E.text.code k → j < k) :
    E.Does n f (operands E.setting xs) (E.Gathered p p' f vs) := by
  induction xs generalizing p f vs with
  | nil =>
    obtain ⟨rfl, rfl⟩ := h
    exact .pure fun _ => ⟨hf, le_rfl, .nil, fun _ _ => rfl⟩
  | cons x xs ih =>
    obtain ⟨hx, hxs⟩ := forall_mem_cons.mp hVars
    obtain ⟨_, p1, ⟨res, _, hResults, rfl, rfl⟩, vs, _, hRest, rfl, rfl⟩ := h
    have hRises : p1.next ≤ p'.next := rises _ hRest
    have hRises' : p.next ≤ p1.next := rises _ hResults
    obtain ⟨hFirst, hOthers⟩ := forall_mem_cons.mp hResolved
    obtain ⟨hBefore, hOrder⟩ := pairwise_cons.mp hOrder
    rw [operands]
    refine (results_does x hResults hf hx).bind fun o f1 _ hLands => ?_
    refine lands_does hLands (hFirst.mono hRises) fun f2 hf2 hAwaits hSpares => ?_
    refine (ih hRest hf2 hxs hOthers hOrder).bind fun os f3 _ hGathered => .pure fun _ => ?_
    refine ⟨hGathered.toRests, hRises'.trans hRises, .cons ?_ hGathered.awaits, fun k hk => ?_⟩
    · refine hAwaits.after hGathered.toRests hRises (fun hr => reg?_eq hr hf2.fits hGathered.fits
        fun k hk => hGathered.spares k (.inl hk)) fun k hk => ?_
      exact hGathered.spares k (.inr ⟨hFirst.le hk, fun w hw hw' => Nat.lt_irrefl k (hBefore w hw k k hk hw')⟩)
    · rcases hk with hk | ⟨hk, hNot⟩
      · exact (hGathered.spares k (.inl (hk.trans_le hRises'))).trans (hSpares k (.inl hk))
      · obtain ⟨hNot1, hNots⟩ := forall_mem_cons.mp hNot
        exact (hGathered.spares k (.inr ⟨hk, hNots⟩)).trans (hSpares k (.inr ⟨hRises.trans hk, hNot1⟩))

theorem awaits_after (h : Forall₂ (E.Awaits p f) vs os) (hf : E.Fits f) (hPassed : E.Passed p p' f f')
    (hResolved : ∀ v ∈ vs, v.Resolved E.text p'.next) : Forall₂ (E.Awaits p' f') vs os := by
  induction h with
  | nil => exact .nil
  | cons hv _ ih =>
    obtain ⟨hFirst, hOthers⟩ := forall_mem_cons.mp hResolved
    refine .cons (hv.after hPassed.toRests hPassed.next (hPassed.reg?_eq hf) fun k hk => ?_) (ih hOthers)
    exact hPassed.spares k (.inr (hFirst.le hk))

/-- The results of a return are put where they go, one after the other. -/
theorem deliver_does {i : Nat} {ts : List Ty} {outs : List Outlet} {y : UInt64}
    (h : placeResults i r ts vs (E.seen l) p r' p')
    (hf : E.Rests p f) (hDelivered : E.Delivered i ts outs) (hAwaits : Forall₂ (E.Awaits p f) vs os)
    (hLen : vs.length ≤ ts.length) (hResult : E.Result p.next r y f) :
    E.Does n f (deliver E.setting outs os y) fun y f' => E.Passed p p' f f' ∧ E.Result p'.next r' y f' := by
  induction ts generalizing i r outs y vs os p f with
  | nil =>
    obtain rfl := eq_nil_of_length_eq_zero (Nat.le_zero.mp hLen)
    cases hAwaits
    obtain ⟨rfl, rfl⟩ := h
    cases outs with
    | nil => exact .pure fun _ => ⟨.refl hf, hResult⟩
    | cons _ _ => exact hDelivered.elim
  | cons t ts ih =>
    cases outs with
    | nil => exact hDelivered.elim
    | cons out outs =>
      obtain ⟨hOut, hRestD⟩ := hDelivered
      cases vs with
      | nil =>
        cases hAwaits
        obtain ⟨rfl, rfl⟩ := h
        cases out <;> exact .pure fun _ => ⟨.refl hf, hResult⟩
      | cons v vs =>
        obtain ⟨o, os, hv, hvs, rfl⟩ := forall₂_cons_left_iff.mp hAwaits
        have hLen' := Nat.le_of_succ_le_succ hLen
        obtain ⟨T', p, ⟨hText, rfl⟩, h⟩ := h
        subst T'
        -- the results that are left, from where the first one has been dealt with
        have hRest : ∀ {r y p1 f1}, placeResults (i + 1) r ts vs (E.seen l) p1 r' p' → E.Passed p p1 f f1 →
            E.Result p1.next r y f1 → E.Does n f1 (deliver E.setting outs os y) fun y f' =>
              E.Passed p p' f f' ∧ E.Result p'.next r' y f' := fun hPlace hPassed hResult' => by
          have hResolved := (placeResults_resolved hPlace hLen').1
          have hAwaits' := awaits_after hvs hf.fits hPassed fun w hw => (hResolved w hw).1
          exact (ih hPlace hPassed.toRests hRestD hAwaits' hLen' hResult').imp fun _ _ _ h => ⟨hPassed.trans h.1, h.2⟩
        cases out with
        | nowhere =>
          simp only [show (E.seen l).outs.lookup i = none from hOut.1] at h
          rw [ite_iff, if_neg hOut.2] at h
          obtain ⟨_, p1, hDrop, hPlace⟩ := h
          rw [deliver]
          exact drop_does hDrop hv fun f1 hPassed => hRest hPlace hPassed (hResult.after hf.fits hPassed)
        | register =>
          simp only [show (E.seen l).outs.lookup i = none from hOut.1] at h
          rw [ite_iff, if_pos hOut.2] at h
          obtain ⟨r1, p1, hValue, hPlace⟩ := h
          rw [deliver]
          refine value_does hValue hv fun w f1 hr => hRest hPlace hr.toPassed ⟨hr.holds, ?_⟩
          rcases hr.holds with rfl | ⟨k, rfl, hLt, -⟩
          · exact .inl ⟨rfl, by rw [← hr.reg]; rfl⟩
          · have hSome : f1.reg? k = some _ := Frame.reg?_natCast.trans (Array.getElem?_eq_getElem (hr.fits.size ▸ hLt))
            rw [← hr.reg, hSome]
            exact .inr rfl
        | memory t' a =>
          obtain ⟨rfl, k, hLookup, hLt, hFixed, hEntry⟩ := hOut
          simp only [show (E.seen l).outs.lookup i = some (k : Int) from hLookup] at h
          obtain ⟨_, p1, hAssign, hPlace⟩ := h
          have ha : f.reg? k = some a := (hf.fits.fixed k hFixed).trans hEntry
          rw [deliver]
          exact assign_does hAssign hv hf.fits (.inr ⟨k, rfl, hLt, .inl hFixed⟩) ha fun f1 hPassed =>
            hRest hPlace hPassed (hResult.after hf.fits hPassed)

theorem Delivered.length_eq {i : Nat} {ts : List Ty} {outs : List Outlet} (h : E.Delivered i ts outs) :
    outs.length = ts.length := by
  induction ts generalizing i outs with
  | nil =>
    cases outs with
    | nil => rfl
    | cons _ _ => exact h.elim
  | cons t ts ih =>
    cases outs with
    | nil => exact h.elim
    | cons _ _ => exact congrArg (· + 1) (ih h.2)


/-- **Returns do what they say.** -/
theorem returned_does (h : Shape.returned xs (E.seen l) p r p') (hf : E.Rests p f) (hDelivers : E.Delivers)
    (hVars : ∀ x ∈ xs, ∀ i ∈ x.vars, E.Knows l i) :
    E.Does n f (Stmt.exec E.setting (.ret xs)) fun e f' =>
      ∃ v, e = .returned v ∧ E.Passed p p' f f' ∧ E.Result p'.next r v f' := by
  obtain ⟨T', p, ⟨hText, rfl⟩, vs, p1, hValues, hPlace⟩ := h
  subst T'
  rw [Stmt.exec, hDelivers.length_eq]
  have hNone : ∀ {f : Frame} {m}, E.Result m noReg 0 f := ⟨.inl rfl, .inl ⟨rfl, rfl⟩⟩
  by_cases hSpread : E.text.sig.results.length > 1 ∧ xs.length = 1
  -- one call gives all the results
  · obtain ⟨x, rfl⟩ := length_eq_one_iff.mp hSpread.2
    rw [Expr.returned, if_pos hSpread.1]
    unfold Shape.returnValues at hValues
    rw [Shape.ite_iff, if_pos hSpread] at hValues
    cases x with
    | call t fn args =>
      obtain ⟨res, _, hResults, _, _, ⟨hLen, rfl⟩, rfl, rfl⟩ := hValues
      refine (callResults_does hResults hf (hVars _ mem_cons_self)).bind fun os f1 _ ⟨hPassed, hStood⟩ => ?_
      have hAwaits : List.Forall₂ (E.Awaits p1 f1) res.2 os :=
        List.Forall₂.imp (fun _ _ hv => .of_denotes (.refl hPassed.toRests) hv.1 hv.2) hStood
      refine (deliver_does hPlace hPassed.toRests hDelivers hAwaits hLen.le hNone).bind fun y f2 _ ⟨hPassed', hResult⟩ => ?_
      exact .pure fun _ => ⟨y, rfl, hPassed.trans hPassed', hResult⟩
    | _ => exact hValues.elim
  · unfold Shape.returnValues at hValues
    rw [Shape.ite_iff, if_neg hSpread] at hValues
    obtain ⟨_, _, ⟨hLen, rfl⟩, hValues⟩ := hValues
    -- each result has its expression; a boolean still pending is settled when it is placed
    have hLength : vs.length ≤ E.text.sig.results.length := ((Shape.length_values hValues).trans hLen).le
    obtain ⟨hResolved, hOrder⟩ := Shape.placeResults_resolved hPlace hLength
    have hOperands : Expr.returned E.setting E.text.sig.results.length xs = Expr.operands E.setting xs := by
      rcases xs with _ | ⟨x, _ | ⟨y, xs⟩⟩
      · rfl
      · rw [Expr.returned, if_neg fun hMany => hSpread ⟨hMany, rfl⟩]
      · rfl
    rw [hOperands]
    refine (operands_does hValues hf hVars (fun v hv => (hResolved v hv).1) hOrder).bind fun os f1 _ hGathered => ?_
    refine (deliver_does hPlace hGathered.toRests hDelivers hGathered.awaits hLength hNone).bind
      fun y f2 _ ⟨hPassed, hResult⟩ => .pure fun _ => ⟨y, rfl, ⟨hPassed.toRests, fun k hk => ?_, ?_⟩, hResult⟩
    · rcases hk with hk | hk
      · exact (hPassed.spares k (.inl (hk.trans_le hGathered.next))).trans (hGathered.spares k (.inl hk))
      · refine (hPassed.spares k (.inr hk)).trans (hGathered.spares k (.inr ⟨hPassed.next.trans hk, fun v hv hSets => ?_⟩))
        exact absurd ((hResolved v hv).2 k hSets) (Nat.not_lt.mpr hk)
    · exact hGathered.next.trans hPassed.next

end Scene

end Comptime
