import Comptime.Proofs.Lowering.Exprs
import Comptime.Proofs.Shape.Flow

/-!
# The shape of assignments, conditions and returns

The values of a return statement are all lowered before the first one is used, so several of them may be pending at the
same time. `Kind.values` keeps their paths apart.
-/

namespace Comptime

open Builder List Build Shape Value

/-- What may still change of some values. -/
def Value.spotsOfAll (vs : List Value) : Set Spot := {u | ∃ v ∈ vs, u ∈ v.spots}

/-- Values none of which has been used yet, on paths of their own. -/
structure Value.OpenAll (vs : List Value) (b : Builder) : Prop where
  opens : ∀ v ∈ vs, v.Open b
  apart : vs.Pairwise fun v w => ∀ u ∈ v.spots, u ∉ w.spots

def Kind.values : Kind (List Value) := ⟨spotsOfAll, OpenAll, fun F vs => vs.map (·.map F.place)⟩

/-- Values that are in registers or in memory. -/
def Kind.settled : Kind (List Value) := ⟨fun _ => ∅, fun vs _ => ∀ v ∈ vs, v.Settled, fun _ vs => vs⟩

namespace Value.OpenAll

variable {v : Value} {vs : List Value} {b b' : Builder}

theorem lowered (hb : b.Sound) {U : Set Spot} (hvs : OpenAll vs b) (hLow : Lowered U b b')
    (hU : ∀ u ∈ spotsOfAll vs, u ∉ U) :
    OpenAll vs b' :=
  ⟨fun v hv => (hvs.opens v hv).lowered hb hLow fun u hu => hU u ⟨v, hv, hu⟩, hvs.apart⟩

/-- The first value can be used while the others are kept. -/
theorem others (hb : b.Sound) (hvs : OpenAll (v :: vs) b) : ∀ u ∈ spotsOfAll vs, u.handle < b.handles ∧ u ∉ v.spots := by
  rintro u ⟨w, hw, hu⟩
  exact ⟨(hvs.opens w (mem_cons_of_mem _ hw)).spots_lt hb u hu, fun hIn => (pairwise_cons.mp hvs.apart).1 w hw u hIn hu⟩

theorem tail (hvs : OpenAll (v :: vs) b) : OpenAll vs b :=
  ⟨fun w hw => hvs.opens w (mem_cons_of_mem _ hw), (pairwise_cons.mp hvs.apart).2⟩

theorem subset_spots : v.spots ∪ spotsOfAll vs ⊆ spotsOfAll (v :: vs) := by
  rintro u (hu | ⟨w, hw, hu⟩)
  · exact ⟨v, mem_cons_self, hu⟩
  · exact ⟨w, mem_cons_of_mem _ hw, hu⟩

theorem of_settled (hvs : ∀ v ∈ vs, v.Settled) : OpenAll vs b := by
  refine ⟨fun v hv => (hvs v hv).fresh.open, pairwise_of_forall_mem_list fun v hv w _ u hu => ?_⟩
  rw [(hvs v hv).spots_eq] at hu
  exact hu.elim

theorem map_of_settled {f : Nat → Nat} (hvs : ∀ v ∈ vs, v.Settled) : vs.map (·.map f) = vs := by
  conv_rhs => rw [← map_id vs]
  exact map_congr_left fun v hv => (hvs v hv).map_eq

end Value.OpenAll

namespace Builder

variable {b : Builder}
variable {xs : List Expr} {vs : List Value}

/-! ## Lists of operands -/

theorem places_traces : Traces (.plain (List (Ty × Reg))) ∅ b (places xs) fun _ => places xs := by
  induction xs generalizing b with
  | nil => exact .pure trivial nofun
  | cons x xs ih =>
    refine .seq expr_traces fun v _ => ?_
    cases v with
    | place t r => exact .seq ih fun _ _ => .pure trivial nofun
    | _ => exact .throw

theorem detachedValues_traces : Traces .settled ∅ b (detachedValues xs) fun _ => detachedValues xs := by
  induction xs generalizing b with
  | nil => exact .pure nofun nofun
  | cons x xs ih =>
    refine .bind expr_traces fun v _ _ _ hv => ?_
    refine .bind (detach_traces hv.open) fun w _ _ _ hw => ?_
    exact .bind ih fun ws _ _ _ hws =>
      .pure (forall_mem_cons.mpr ⟨hw, hws⟩) nofun

theorem values_traces : Traces .values ∅ b (values xs) fun _ => values xs := by
  induction xs generalizing b with
  | nil => exact .pure ⟨nofun, .nil⟩ nofun
  | cons x xs ih =>
    refine .bind expr_traces fun v _ _ hLow1 hv => ?_
    have hRest := Traces.beside ih (W := v.spots) (P := fun b' => v.Open b')
      (fun u hu => ⟨hv.open.spots_lt hLow1.sound u hu, Set.notMem_empty _⟩)
      fun b' hLow => hv.open.lowered hLow1.sound hLow fun _ _ => Set.notMem_empty _
    refine .bind (hRest.mono (V := v.spots) (by simp)) fun vs b2 hRun hLow2 hvs => ?_
    -- the later values are on paths that did not exist before
    have hApart : ∀ w ∈ vs, ∀ u ∈ v.spots, u ∉ w.spots := fun w hw u hu hIn => by
      have hNew := ((ih hLow1.sound vs b2 hRun).2.2.2.1 u ⟨w, hw, hIn⟩).resolve_right (Set.notMem_empty _)
      exact absurd (hv.open.spots_lt hLow1.sound u hu) (by omega)
    refine .pure ⟨forall_mem_cons.mpr ⟨hvs.2, hvs.1.opens⟩, pairwise_cons.mpr ⟨hApart, hvs.1.apart⟩⟩ ?_
    rintro u ⟨w, hw, hu⟩
    rcases mem_cons.mp hw with rfl | hw
    · exact .inr hu
    · exact .inl ⟨w, hw, hu⟩

/-- Values in order, while the rest of them is kept. -/
theorem assignAll_traces {ds : List (Ty × Reg)} (hvs : OpenAll vs b) :
    Traces (.plain Unit) (spotsOfAll vs) b (assignAll ds vs) fun F => assignAll ds (vs.map (·.map F.place)) := by
  induction ds generalizing b vs with
  | nil => exact .pure trivial nofun
  | cons d ds ih =>
    cases vs with
    | nil => exact .pure trivial nofun
    | cons v vs =>
      refine .of_sound fun hb => .mono (U := v.spots ∪ spotsOfAll vs) ?_ OpenAll.subset_spots
      refine .bind ((assignTo_traces (hvs.opens v mem_cons_self)).keeping (hvs.others hb) fun b' hLow =>
        hvs.tail.lowered hb hLow fun u hu => (hvs.others hb u hu).2) fun _ _ _ _ hvs1 => ih hvs1

/-! ## Assignments -/

/-- Values that are all stored. -/
theorem assignStored_traces {ds : List (Ty × Reg)} (hvs : ∀ v ∈ vs, v.Settled) :
    Traces (.plain Unit) ∅ b (assignAll ds vs) fun _ => assignAll ds vs := by
  refine .of_eq ((assignAll_traces (.of_settled hvs)).mono ?_) rfl fun F p a p' _ _ _ hShape => ?_
  · rintro u ⟨v, hv, hu⟩
    rwa [(hvs v hv).spots_eq] at hu
  · rwa [OpenAll.map_of_settled hvs] at hShape

theorem assign_traces {lhs rhs : List Expr} :
    Traces (.plain Unit) ∅ b (Build.assign lhs rhs) fun _ => Shape.assign lhs rhs := by
  -- no value or several: what several targets get is detached before the first store
  have hMany : Traces (.plain Unit) ∅ b (do
      if lhs.length ≠ rhs.length then Build.reject (.valueCount lhs.length rhs.length)
      let ds ← Build.places lhs
      let vs ← Build.detachedValues rhs
      Build.assignAll ds vs) (fun _ => do
      Shape.check (lhs.length = rhs.length)
      let ds ← Shape.places lhs
      let vs ← Shape.detachedValues rhs
      Shape.assignAll ds vs) := by
    by_cases hLen : lhs.length = rhs.length
    · simp only [if_neg (not_not.mpr hLen)]
      exact .check hLen (.seq places_traces fun ds _ =>
        .bind detachedValues_traces fun vs _ _ _ hvs => assignStored_traces hvs)
    · simp only [if_pos hLen]
      exact .throw_bind
  match rhs with
  | [] => exact hMany
  | x :: y :: rest => exact hMany
  | [x] =>
    unfold Build.assign Shape.assign
    by_cases hOne : lhs.length = 1
    · simp only [if_pos hOne]
      refine .seq places_traces fun ds _ => .bind expr_traces fun v _ _ _ hv => ?_
      refine (assignAll_traces ⟨?_, pairwise_singleton _ v⟩).mono ?_
      · rintro w hw
        rw [mem_singleton.mp hw]
        exact hv.open
      · rintro u ⟨w, hw, hu⟩
        rwa [mem_singleton.mp hw] at hu
    · simp only [if_neg hOne]
      cases x with
      -- one value for several targets has to be a call with as many results
      | call t f args =>
        refine .seq places_traces fun ds _ => .bind (results_traces _ _) fun v _ _ _ hv => ?_
        by_cases hLen : v.2.length = ds.length
        · simp only [if_neg (not_not.mpr hLen)]
          exact .check hLen ((assignStored_traces hv.2).mono (Set.empty_subset _))
        · simp only [if_pos hLen]
          exact .throw_bind
      | _ => exact .throw

theorem compound_traces {op : BinaryOp} {lhs rhs : List Expr} :
    Traces (.plain Unit) ∅ b (compound op lhs rhs) fun _ => compound op lhs rhs := by
  match lhs, rhs with
  | [target], [x] =>
    refine .seq expr_traces fun v _ => ?_
    cases v with
    | place t addr =>
      refine .seq (value_traces (v := .place t addr) trivial) fun l _ => ?_
      refine .bind expr_traces fun v _ _ _ hv => ?_
      refine .seq (value_traces hv.open) fun r _ => ?_
      cases op.instr t with
      | error e => exact .throw
      | ok i =>
        exact .demand fun rt _ => .seq bin_traces fun w _ => .demand fun e _ =>
          emit_traces rfl
    | _ => exact .throw
  | [], _ => exact .throw
  | _ :: _ :: _, _ => exact .throw
  | [_], [] => exact .throw
  | [_], _ :: _ :: _ => exact .throw

theorem declared_traces {slot : Reg} {v : Variable} {init : Expr} :
    Traces (.plain Unit) ∅ b (do
      if init.isAbsent then zero slot v.ty
      else assignTo slot v.ty (← expr init)) fun _ => declared slot v init := by
  unfold declared
  cases init.isAbsent with
  | true => exact zero_traces
  | false => exact .bind expr_traces fun x _ _ _ hx => assignTo_traces hx.open

/-! ## Returns -/

theorem returnValues_traces {n : Nat} : Traces .values ∅ b (Build.returnValues n xs) fun _ => Shape.returnValues n xs := by
  unfold Build.returnValues Shape.returnValues
  by_cases hMany : n > 1 ∧ xs.length = 1
  · simp only [if_pos hMany]
    obtain ⟨x, rfl⟩ := length_eq_one_iff.mp hMany.2
    cases x with
    | call t f args =>
      refine .bind (results_traces _ _) fun v _ _ _ hv => ?_
      by_cases hLen : v.2.length = n
      · simp only [if_neg (not_not.mpr hLen)]
        refine .check hLen (.of_eq (.pure (κ := .values) (.of_settled hv.2) ?_) rfl ?_)
        · rintro u ⟨w, hw, hu⟩
          rw [(hv.2 w hw).spots_eq] at hu
          exact hu.elim
        · rintro F p a p' - - - ⟨rfl, rfl⟩
          exact ⟨Value.OpenAll.map_of_settled hv.2, rfl⟩
      · simp only [if_pos hLen]
        exact .throw_bind
    | _ => exact .throw
  · simp only [if_neg hMany]
    by_cases hLen : xs.length = n
    · simp only [if_neg (not_not.mpr hLen)]
      exact .check hLen values_traces
    · simp only [if_pos hLen]
      exact .throw

theorem placeResults_traces {i : Nat} {r : Reg} {ts : List Ty} (hvs : Value.OpenAll vs b) :
    Traces (.plain Reg) (Value.spotsOfAll vs) b (Build.placeResults i r ts vs) fun F =>
      Shape.placeResults i r ts (vs.map (·.map F.place)) := by
  induction ts generalizing b vs i r with
  | nil => exact .pure trivial fun _ hu => hu.elim
  | cons t ts ih =>
    cases vs with
    | nil => exact .pure trivial fun _ hu => hu.elim
    | cons v vs =>
      refine .of_sound fun hb => ?_
      have hv : v.Open b := hvs.opens v mem_cons_self
      have hTail : ∀ b', Lowered v.spots b b' → Value.OpenAll vs b' := fun b' hLow =>
        hvs.tail.lowered hb hLow fun u hu => (hvs.others hb u hu).2
      -- the rest comes after this result was put away, whichever way
      have hRest {α : Type} {x : Build α} {X : Builder → Shape α} (f : α → Reg) (hx : Traces (.plain α) v.spots b x X) :
          Traces (.plain Reg) (Value.spotsOfAll (v :: vs)) b (do Build.placeResults (i + 1) (f (← x)) ts vs)
            (fun F => do Shape.placeResults (i + 1) (f (← X F)) ts (vs.map (·.map F.place))) :=
        .mono (.bind (hx.keeping (hvs.others hb) hTail) fun _ _ _ _ hvs1 => ih hvs1) Value.OpenAll.subset_spots
      have hText (F : Builder) (hOuts : F.outs = b.outs) : (F.text b.slots).outs.lookup i = b.outs.lookup i :=
        congrArg _ hOuts
      cases hOut : b.outs.lookup i with
      | some out =>
        have hPut : Traces (.plain Unit) v.spots b (Build.assignTo out t v) fun F => Shape.assignTo out t (v.map F.place) :=
          assignTo_traces hv
        refine .of_eq (hRest (fun _ => r) hPut) ?_ fun F p a p' _ _ hOuts hShape => ⟨_, _, ⟨rfl, rfl⟩, ?_⟩
        · simp only [Build.placeResults, Build.get_bind, hOut]
        · simp only [hText F hOuts, hOut]
          exact hShape
      | none =>
        by_cases hDirect : b.sig.ret.rule = .direct
        · refine .of_eq (hRest id (value_traces hv)) ?_ fun F p a p' _ hSig hOuts hShape => ⟨_, _, ⟨rfl, rfl⟩, ?_⟩
          · simp only [Build.placeResults, Build.get_bind, hOut, if_pos hDirect, id]
          · simp only [hText F hOuts, hOut, show (F.text b.slots).sig = b.sig from hSig, if_pos hDirect]
            exact hShape
        · refine .of_eq (hRest (fun _ => r) (drop_traces hv)) ?_ fun F p a p' _ hSig hOuts hShape => ⟨_, _, ⟨rfl, rfl⟩, ?_⟩
          · simp only [Build.placeResults, Build.get_bind, hOut, if_neg hDirect, pure_bind]
          · simp only [hText F hOuts, hOut, show (F.text b.slots).sig = b.sig from hSig, if_neg hDirect]
            exact hShape

/-- The results of a return statement, put where the caller expects them. -/
theorem returned_traces : Traces (.plain Reg) ∅ b (do
      let vs ← returnValues b.sig.results.length xs
      placeResults 0 noReg b.sig.results vs) fun _ => returned xs := by
  refine .of_eq (.bind returnValues_traces fun vs _ _ _ hvs => placeResults_traces hvs) rfl ?_
  rintro F p a p' - hSig - hShape
  rw [← hSig] at hShape
  exact ⟨_, _, ⟨rfl, rfl⟩, hShape⟩

/-! ## Conditions -/

/-- What lowering a condition leaves: one edge is open, and the shape is known once it has its target. -/
structure Conditional (x : Expr) (b : Builder) (e : Edge) (b' : Builder) : Prop where
  lowered : Lowered ∅ b b'
  dead : b.dead = false → b'.dead = false
  new : b.handles ≤ e.branch
  lt : e.branch < b'.handles
  branch : b'.IsBranch e.branch
  shape : ∀ F V (t : Nat), Closed F → Grows V b' F →
    (∀ u : Spot, u.handle < b'.handles → b.handles ≤ u.handle → u ∈ V → u = .code e.branch) →
    F.code e.branch = (b'.code e.branch).redirect e.arm t →
    condition x (F.text b.slots) (F.atEnd b) (F.place t) (F.atEnd b')

/-- A condition that is tested in a register. -/
theorem condition_of_settled {x : Expr} {e : Edge} {v : Value} {b1 b' : Builder} (hb : b.Sound)
    (hExpr : expr x b = .ok v b1) (hv : v.Settled)
    (hRun : (do return (← branchFalse (← value v)).2 : Build Edge) b1 = .ok e b') : Conditional x b e b' := by
  obtain ⟨r, b2, hValue, hRun⟩ := bind_eq_ok.mp hRun
  obtain ⟨⟨yes, e'⟩, b3, hBranch, hRun⟩ := bind_eq_ok.mp hRun
  cases hRun
  have hTest : Traces (.plain Reg) ∅ b (expr x >>= value) (fun _ => do
      let v ← expr x
      check v.Settled
      value v) := by
    refine .bind (Y := fun _ v => do check v.Settled; value v) expr_traces fun a _ hRun _ hFresh => ?_
    cases hRun.symm.trans hExpr
    have hShape := value_traces hFresh.open
    simp only [Kind.value, hv.map_eq] at hShape ⊢
    exact .check hv hShape
  obtain ⟨hLow, -, -, -, hShape⟩ := hTest hb r b2 (bind_eq_ok.mpr ⟨v, b1, hExpr, hValue⟩)
  obtain ⟨rfl, rfl, hLow3, hDead, hHandles, hRegs, hFront, hOld, hRegion⟩ := branchFalse_eq_ok hLow.sound hBranch
  have hLe := hLow.grows.handles
  refine ⟨hLow.andThen hLow3, fun _ => hDead, hLe, by simp only; omega, ⟨_, _, _, hOld⟩, fun F V t hF hGrows hSettled hCode => ?_⟩
  -- nothing of the operand is left open, and of the test only the edge
  obtain ⟨v', _, hExprShape, _, _, ⟨hv', rfl⟩, hValueShape⟩ := hShape F _ hF (hLow3.toFinal hGrows)
    fun u hLt hOwn hCursor hIn => by
      rw [hLow.cursor] at hIn
      rcases hIn with (hIn | hIn) | hIn
      · exact hIn
      · exact absurd hIn hCursor
      · rw [hSettled u (by omega) (hOwn.resolve_right id) hIn] at hLt
        exact absurd hLt (Nat.lt_irrefl _)
  rw [hOld] at hCode
  have hRegion' : F.code (b2.handles + 1) = .region := by
    rw [hGrows.code _ (by omega) fun hIn => ?_, hRegion]
    have hEq := hSettled _ (by simp only [Spot.handle]; omega) (by simp only [Spot.handle]; omega) hIn
    simp at hEq
  have hGap : ∀ h, b2.handles ≤ h → h < b2.handles + 2 → .before h ∉ V := fun h hLe hLt hIn => by
    have hEq := hSettled _ (by simp only [Spot.handle]; omega) (by simp only [Spot.handle]; omega) hIn
    cases hEq
  obtain ⟨hPlace, _, _, hInstr, hRegionShape⟩ := test_shape (l := b.slots) hF hGrows hGap hRegs hFront hCode hRegion'
  simp only [Instr.redirect, List.modify_zero_cons, Instr.relocate, List.map_cons, List.map_nil, position_natCast,
    hPlace] at hInstr
  have hBranchShape : branchFalse r (F.text b.slots) (F.atEnd b2) (F.place (b2.handles + 1), F.place t) (F.atEnd b') :=
    ⟨F.place t, _, rfl, _, _, ⟨rfl, rfl⟩, (), _, hInstr, _, _, hRegionShape, rfl, rfl⟩
  refine ⟨v', _, hExprShape, ?_⟩
  cases v' with
  | pending => exact hv'.elim
  | _ => exact ⟨_, _, hValueShape, _, _, hBranchShape, rfl, rfl⟩

/-- A condition leaves one edge open. -/
theorem condition_shape {x : Expr} {e : Edge} {b' : Builder} (hb : b.Sound) (hRun : condition x b = .ok e b') :
    Conditional x b e b' := by
  obtain ⟨v, b1, hExpr, hRun⟩ := bind_eq_ok.mp hRun
  obtain ⟨hLow1, hDead1, hv, hLoose1, hShape1⟩ := expr_traces hb v b1 hExpr
  cases v with
  | pending ty q =>
    cases hRun
    have hq : q.Open b' := hv.1
    have hNew : ∀ u ∈ q.spots, b.handles ≤ u.handle ∧ u.handle < b'.handles := fun u hu =>
      ⟨(hLoose1 u hu).resolve_right (Set.notMem_empty _), hq.spots_lt hLow1.sound u hu⟩
    refine ⟨hLow1, hDead1, (hNew (.code q.leaveFalse) (.inr rfl)).1, (hNew (.code q.leaveFalse) (.inr rfl)).2,
      ⟨_, _, _, hq.onFalse.code⟩, fun F V t hF hGrows hSettled hCode => ?_⟩
    have hExprShape := hShape1 F V hF hGrows fun u hLt hOwn _ hIn => by
      rw [hSettled u hLt (hOwn.resolve_right (Set.notMem_empty _)) hIn]
      exact .inr rfl
    rw [hq.onFalse.code] at hCode
    have hTrue := hq.onTrue.shape (l := b.slots) (p := F.atEnd b') hLow1.sound hF hGrows fun u hu hIn => by
      have hEq := hSettled u (hNew u (.inl hu)).2 (hNew u (.inl hu)).1 hIn
      exact hq.ne (by rw [← hu, hEq]; rfl)
    have hFalse := hq.onFalse.leads (l := b.slots) (p := F.atEnd b') hF hGrows (fun hIn => by
      cases hSettled _ (hNew (.before q.leaveFalse) (.inr rfl)).2 (hNew (.before q.leaveFalse) (.inr rfl)).1 hIn) hCode
    exact ⟨_, _, hExprShape, F.place t, _, rfl, (), _, ⟨(), _, hTrue, hFalse⟩, rfl, rfl⟩
  | _ => exact condition_of_settled hb hExpr trivial hRun

end Builder

end Comptime
