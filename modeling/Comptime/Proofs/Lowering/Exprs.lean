import Comptime.Proofs.Lowering.Values

/-!
# The shape of expressions

Lowering an expression leaves the shape of that expression (`results_traces`). The proof follows the recursion of the
lowering. In a chain of logical operators the right operand is lowered into a gap of the left one, and if it is pending
itself, one of its paths is led over to the left one.
-/

namespace Comptime

open Builder Build Shape

variable {q : Pending} {b : Builder}

namespace Builder

variable {b : Builder} {v : Value}
variable {h t : Nat}

/-! ## References and conversions -/

/-- Only what lowering notes has changed. -/
theorem noted_traces {x : Build Unit}
    (hx : ∀ b', x b = .ok () b' → ∃ callees globals asked, b' = { b with callees, globals, asked }) :
    Traces (.plain Unit) ∅ b x fun _ => pure () := by
  intro hb _ b' hRun
  obtain ⟨callees, globals, asked, rfl⟩ := hx b' hRun
  exact ⟨Alike.lowered ⟨rfl, rfl, rfl, rfl⟩ hb hb.regs .refl (le_refl _) rfl ⟨rfl, rfl, rfl⟩, id, trivial, nofun,
    fun F _ _ _ _ => ⟨rfl, rfl⟩⟩

theorem need_traces {s : Symbol} : Traces (.plain Unit) ∅ b (need s) fun _ => pure () := by
  refine noted_traces fun b' hRun => ?_
  obtain ⟨_, _, hGet, hRun⟩ := bind_eq_ok.mp hRun
  cases hGet
  cases hReady : b.config.ready with
  | none =>
    rw [hReady] at hRun
    cases hRun
    exact ⟨_, _, _, rfl⟩
  | some ready =>
    rw [hReady] at hRun
    obtain ⟨_, _, hModify, hRun⟩ := bind_eq_ok.mp hRun
    cases hModify
    cases hAnswer : ready s .sizeComputed with
    | none =>
      rw [hAnswer] at hRun
      cases hRun
      exact ⟨_, _, _, rfl⟩
    | some f =>
      rw [hAnswer] at hRun
      cases hRun

theorem referProc_traces {p : ProcRef} : Traces (.plain Unit) ∅ b (referProc p) fun _ => pure () := by
  refine noted_traces fun b' hRun => ?_
  cases hRun
  dsimp only
  split
  · exact ⟨_, _, _, rfl⟩
  · exact ⟨_, _, _, rfl⟩

theorem referVar_traces {v : Variable} : Traces (.plain Unit) ∅ b (referVar v) fun _ => pure () := by
  refine noted_traces fun b' hRun => ?_
  cases hRun
  dsimp only
  split
  · exact ⟨_, _, _, rfl⟩
  · exact ⟨_, _, _, rfl⟩

theorem reference_traces {r : Ref} :
    Traces .value ∅ b (Build.reference r) fun _ => Shape.reference r := by
  cases r with
  | var v =>
    cases hSlot : b.slots.lookup v.id with
    | some r =>
      refine .of_eq (.pure (κ := .value) (a := .place v.ty r) trivial fun _ hu => hu.elim) ?_
        fun F p a p' _ _ _ hShape => ?_
      · simp only [Build.reference, Build.slot?, bind_assoc, Build.get_bind, pure_bind, hSlot]
      · exact ⟨_, _, ⟨rfl, rfl⟩, by simp only [text, hSlot]; exact hShape⟩
    | none =>
      refine .of_eq (x := do
        if !v.isGlobal then Build.reject (.undefinedLocal v.name)
        Build.need v.toSymbol
        Build.referVar v
        return Value.place v.ty (← Build.addrOf v.name)) (X := fun _ => do return .place v.ty (← Shape.addrOf v.name)) ?_ ?_
          fun F p a p' _ _ _ hShape => ?_
      · cases v.isGlobal with
        | false => exact .throw_bind
        | true =>
          exact .aside need_traces fun _ => .aside referVar_traces fun _ =>
            .seq addrOf_traces fun r _ => .pure trivial fun _ hu => hu.elim
      · simp only [Build.reference, Build.slot?, bind_assoc, Build.get_bind, pure_bind, hSlot]
      · exact ⟨_, _, ⟨rfl, rfl⟩, by simpa only [text, hSlot] using hShape⟩
  | proc p =>
    exact .aside need_traces fun _ => .aside referProc_traces fun _ =>
      .seq addrOf_traces fun r _ => .pure trivial fun _ hu => hu.elim
  | _ => exact .throw

theorem convert_traces {r : Reg} {source target : Ty} :
    Traces (.plain Reg) ∅ b (convert r source target) fun _ => convert r source target := by
  refine .demand fun sr _ => .demand fun tr _ => ?_
  cases Conversion.between? source target sr tr with
  | none => exact .throw
  | some c =>
    cases c with
    | keep => exact .pure trivial nofun
    | test op => exact .seq imm_traces fun z _ => bin_traces
    | via op => exact un_traces

theorem offset_traces {addr : Reg} {off : Int64} :
    Traces (.plain Reg) ∅ b (Build.offset addr off) fun _ => Shape.offset addr off := by
  unfold Build.offset Shape.offset
  by_cases hOff : off = 0
  · simp only [if_pos hOff]
    exact .pure trivial nofun
  · simp only [if_neg hOff]
    exact .seq imm_traces fun n _ => bin_traces

theorem applyUnary_traces {ty t : Ty} {op : UnaryOp} (hv : v.Fresh b) :
    Traces .value v.spots b (applyUnary ty op t v) fun F => applyUnary ty op t (v.map F.place) := by
  have hUnary : ∀ f : RegType → Op, Traces .value v.spots b (do
      let rt ← regType t
      return .reg ty (← un (f rt) rt rt (← value v))) fun F => do
      let rt ← demand t.regType?
      return .reg ty (← un (f rt) rt rt (← value (v.map F.place))) := fun f =>
    .demand fun rt _ => .seq (value_traces hv.open) fun r _ =>
      .seq un_traces fun _ _ => .pure trivial nofun
  cases op with
  | not =>
    have hTest : Traces .value v.spots b (do
        let r ← value v
        let z ← imm .i8 0
        return .reg ty (← bin .eq .i8 r z)) fun F => do
        let r ← value (v.map F.place)
        let z ← imm .i8 0
        return .reg ty (← bin .eq .i8 r z) :=
      .seq (value_traces hv.open) fun r _ =>
        .seq imm_traces fun z _ =>
          .seq bin_traces fun _ _ => .pure trivial nofun
    cases v with
    | pending t q =>
      refine .pure ⟨⟨hv.1.onFalse, hv.1.onTrue, hv.1.ne.symm⟩, hv.2⟩ fun u hu => hu.symm
    | _ => exact hTest
  | neg => cases v <;> exact hUnary fun rt => if rt.isFloat then .fneg else .neg
  | compl => cases v <;> exact hUnary fun _ => .not
  | deref =>
    cases v <;> exact .seq (value_traces hv.open) fun r _ => .pure trivial nofun
  | addressOf =>
    cases v <;> exact .seq (address_traces hv.open) fun r _ => .pure trivial nofun
  | _ => cases v <;> exact .throw

/-! ## Logical operators -/

theorem Leaves.patched {y m : Nat} (hb : b.Sound) (hL : b.Leaves y h m) : (b.patched ⟨h, none⟩ t).Leaves y h t where
  gap := hL.gap
  code := by
    rw [code_patched, if_pos ⟨rfl, hb.lt_of_mem_front hL.mem_front⟩, hL.code]
    rfl

/-- A jump other than the one that is patched. -/
theorem Leaves.patched_ne {y m : Nat} {e : Edge} (hL : b.Leaves y h m) (hne : h ≠ e.branch) :
    (b.patched e t).Leaves y h m where
  gap := hL.gap
  code := by rw [code_patched_ne hne, hL.code]

/-- One path of a pending value is led elsewhere, and nothing more is put on either. -/
theorem redirect_traces {yes no : Nat} (hq : q.Open b)
    (hh : h = q.leaveTrue ∧ yes = t ∧ no = q.merge ∨ h = q.leaveFalse ∧ yes = q.merge ∧ no = t) :
    Traces (.keeping Unit ∅ fun b' => b'.last = b.last) q.spots b (patch ⟨h, none⟩ t) fun F =>
      settle (q.map F.place) (F.place yes) (F.place no) := by
  intro hb _ b' hRun
  obtain ⟨hEdge, -, rfl⟩ := patch_eq_ok hRun
  have hLow : Lowered q.spots b (b.patched ⟨h, none⟩ t) := (lowered_patched hb hEdge.isBranch).mono fun u hu => by
    rw [show u = .code h from hu]
    exact hh.elim (fun hEq => .inl hEq.1) fun hEq => .inr hEq.1
  refine ⟨hLow, id, rfl, nofun, fun F V hF hGrows hSettled => ?_⟩
  have hV : ∀ u ∈ q.spots, u ∉ V := fun u hu hIn => hSettled u (by
      rw [handles_patched]
      exact hq.spots_lt hb u hu) (.inr hu)
    (hu.elim (hq.onTrue.notMem_cursor hb) (hq.onFalse.notMem_cursor hb)) hIn
  rcases hh with ⟨rfl, rfl, rfl⟩ | ⟨rfl, rfl, rfl⟩
  · exact settle_shape hLow.sound (hq.onTrue.patched hb) (hq.onFalse.patched_ne hq.ne.symm) hF hGrows hV
  · exact settle_shape hLow.sound (hq.onTrue.patched_ne hq.ne) (hq.onFalse.patched hb) hF hGrows hV

end Builder

/-- Where a path of a pending value starts, and the jump that leaves it. -/
def Pending.start (q : Pending) (and : Bool) : Nat := if and then q.onTrue else q.onFalse

def Pending.exit (q : Pending) (and : Bool) : Nat := if and then q.leaveTrue else q.leaveFalse

theorem Pending.Open.leaves (hq : q.Open b) (and : Bool) : b.Leaves (q.start and) (q.exit and) q.merge := by
  cases and with
  | true => exact hq.onTrue
  | false => exact hq.onFalse

/-- The value with a path that starts later. -/
def Pending.restart (q : Pending) (and : Bool) (y : Nat) : Pending :=
  if and then { q with onTrue := y } else { q with onFalse := y }

/-- A pending value with code put on one path, at whose end lowering goes on. -/
def Kind.restarted (q : Pending) (and : Bool) : Kind Pending :=
  ⟨fun _ => ∅, fun q' b => ∃ y, q' = q.restart and y ∧ b.last = some y, fun F q' => q'.map F.place⟩

namespace Builder

variable {b : Builder}

/-- Lowering into a path of a pending value. -/
theorem path_traces {and : Bool} {x : Build Pending} {X : Builder → Shape Pending} (hq : q.Open b)
    (hLast : b.last = some q.merge) (hx : Traces (.restarted q and) ∅ (b.opened (q.exit and)) x X) :
    Traces .pending q.spots b (insertBefore (q.exit and) x) fun F => inGap (F.place (q.start and) + 1) (X F) := by
  intro hb q' b' hRun
  have hL := hq.leaves and
  obtain ⟨b2, -, -, hLow, ⟨y, rfl, hEnd⟩, -, hDead, hSame, hRegs, hHandles, ⟨ys, hFront⟩, hShape⟩ :=
    insertBefore_traces hb hL hx hRun
  have hL' : b'.Leaves y (q.exit and) q.merge := hL.extended hb hLow hFront hEnd
  have hMem : ∀ u ∈ (q.restart and y).spots, u ∈ q.spots := by
    intro u hu
    cases and <;> exact hu
  have hOpen : (q.restart and y).Open b' := by
    cases and with
    | true => exact ⟨hL', hq.onFalse.insert_ne hb hLow hq.ne.symm, hq.ne⟩
    | false => exact ⟨hq.onTrue.insert_ne hb hLow hq.ne, hL', hq.ne⟩
  refine ⟨hLow.mono ?_, fun h => hDead.trans h, ⟨hOpen, ?_⟩, fun u hu => .inr (hMem u hu), fun F V hF hGrows hSettled => ?_⟩
  · rintro u rfl
    cases and with
    | true => exact .inl rfl
    | false => exact .inr rfl
  · rw [hSame, hLast]
    cases and <;> rfl
  · obtain ⟨-, hInner⟩ := hShape F V hF hGrows fun u hLe hLt hIn => by
      have hOld := hq.spots_lt hb u (hMem u (hSettled u hLt (.inl hLe)
        (fun hCursor => absurd (hb.cursor_lt hCursor) (by omega)) hIn))
      omega
    refine ⟨_, hInner, ?_⟩
    rw [Builder.atEnd, Builder.atEnd, hSame, hRegs]
    rfl

/-- A test whose false side is known. -/
theorem branchFalse_traces {test : Reg} : Traces (.restarted q true) ∅ b (do
      let (yes, no) ← branchFalse test
      patch no q.onFalse
      return { q with onTrue := yes }) fun F => do
      let (yes, no) ← branchFalse test
      check (no = (q.map F.place).onFalse)
      return { q.map F.place with onTrue := yes } := by
  intro hb q' b' hRun
  obtain ⟨⟨yes, e⟩, b1, hBranch, hRun⟩ := bind_eq_ok.mp hRun
  obtain ⟨rfl, rfl, hLow1, hDead, hHandles, hRegs, hFront, hOld, hRegion⟩ := branchFalse_eq_ok hb hBranch
  obtain ⟨_, b2, hPatch, hRun⟩ := bind_eq_ok.mp hRun
  cases hRun
  obtain ⟨hLow2, hPatched⟩ := hLow1.patch (le_refl _) hPatch
  have hNew : b'.code b.handles = .branch test [⟨0, q.onFalse⟩] (b.handles + 1 : Nat) := by
    rw [hPatched, code_patched, hOld, if_pos ⟨rfl, by omega⟩]
    rfl
  have hRegion' : b'.code (b.handles + 1) = .region := by rw [hPatched, code_patched_ne (by simp), hRegion]
  have hFront' : b'.front = b.front ++ [b.handles, b.handles + 1] := by rw [hPatched, front_patched, hFront]
  refine ⟨hLow2, fun _ => by rw [hPatched]; exact hDead, ⟨_, rfl, last_of_front hFront'⟩, nofun, fun F V hF hGrows hSettled => ?_⟩
  obtain ⟨hPlace, _, _, hInstr, hShape⟩ := settled_test (l := b.slots) hb hF hGrows hSettled
    (by rw [hPatched, handles_patched, hHandles]) (by rw [hPatched]; exact hRegs) hFront' hNew hRegion'
  rw [Instr.relocate, position_natCast, hPlace] at hInstr
  refine ⟨(F.place (b.handles + 1), F.place q.onFalse), F.atEnd b',
    ⟨F.place q.onFalse, _, rfl, _, _, ⟨rfl, rfl⟩, (), _, ?_, _, _, hShape, rfl, rfl⟩, (), _, ⟨rfl, rfl⟩, rfl, rfl⟩
  simpa using hInstr

/-- A test whose true side is known, and after which lowering goes on where it is zero. -/
theorem branchTrue_traces {test : Reg} : Traces (.restarted q false) ∅ b (do
      let br ← emit (.branch test [⟨0, noHandle⟩] q.onTrue)
      let no ← region
      patch ⟨br, some 0⟩ no
      return { q with onFalse := no }) fun F => do
      let pos ← here
      instr (.branch test [⟨0, ((pos + 1 : Nat) : Int)⟩] (q.map F.place).onTrue)
      let no ← region
      return { q.map F.place with onFalse := no } := by
  intro hb q' b' hRun
  rw [emit_bind, region_bind, handles_emitted] at hRun
  obtain ⟨_, b3, hPatch, hRun⟩ := bind_eq_ok.mp hRun
  cases hRun
  obtain ⟨hLow, hDead, hHandles, hRegs, hFront, hBranch, hRegion⟩ := tested hb hPatch
  refine ⟨hLow, fun _ => hDead, ⟨_, rfl, last_of_front hFront⟩, nofun, fun F V hF hGrows hSettled => ?_⟩
  obtain ⟨hPlace, _, _, hInstr, hShape⟩ :=
    settled_test (l := b.slots) hb hF hGrows hSettled hHandles hRegs hFront hBranch hRegion
  simp only [Instr.redirect, List.modify_zero_cons, Instr.relocate, List.map_cons, List.map_nil, position_natCast] at hInstr
  refine ⟨_, _, ⟨rfl, rfl⟩, (), _, ?_, _, _, hShape, rfl, rfl⟩
  rw [← hPlace]
  exact hInstr

theorem chain_traces {and : Bool} {code : Build Value} {X : Shape Value} (hq : q.Open b) (hLast : b.last = some q.merge)
    (hCode : ∀ b0 : Builder, Traces .value ∅ b0 code fun _ => X) :
    Traces .pending q.spots b (chain and q code) fun F => chain and (q.map F.place) X := by
  cases and with
  | true =>
    refine path_traces hq hLast (.bind (hCode _) fun v _ _ _ hv => ?_)
    cases v with
    | pending t r =>
      exact .bind (redirect_traces hv.1 (.inr ⟨rfl, rfl, rfl⟩)) fun _ _ _ _ hLast2 =>
        .pure ⟨r.merge, rfl, hLast2.trans hv.2⟩ nofun
    | _ => exact .seq (value_traces trivial) fun r _ => branchFalse_traces
  | false =>
    refine path_traces hq hLast (.bind (hCode _) fun v _ _ _ hv => ?_)
    cases v with
    | pending t r =>
      exact .bind (redirect_traces hv.1 (.inl ⟨rfl, rfl, rfl⟩)) fun _ _ _ _ hLast2 =>
        .pure ⟨r.merge, rfl, hLast2.trans hv.2⟩ nofun
    | _ => exact .seq (value_traces trivial) fun r _ => branchTrue_traces

/-! ## Calls -/

theorem resultSlots_traces {hs : List Hidden} :
    Traces (.plain (List (Nat × Reg))) ∅ b (resultSlots hs) fun _ => resultSlots hs := by
  induction hs generalizing b with
  | nil => exact .pure trivial nofun
  | cons h hs ih =>
    exact .demand fun e _ => .seq reserve_traces fun r _ =>
      .seq ih fun rs _ => .pure trivial nofun

theorem pass_traces {p : Param} {v : Value} (hv : v.Open b) :
    Traces (.plain (Option Reg)) v.spots b (Build.pass p v) fun F => Shape.pass p (v.map F.place) := by
  unfold Build.pass Shape.pass
  cases p.rule with
  | ignore =>
    exact .of_eq (.seq (k := fun _ => pure none) (Y := fun _ _ => pure none) (drop_traces hv) fun _ _ =>
      .pure (κ := .plain (Option Reg)) trivial nofun) rfl fun _ _ _ _ _ _ _ hShape => hShape
  | direct =>
    exact .seq (value_traces hv) fun r _ => .pure trivial nofun
  | indirect =>
    refine .demand fun e _ => .of_sound fun hb => ?_
    refine .bind (κ := .keeping Reg v.spots fun b' => v.Open b') ((reserve_traces.keeping
      (fun u hu => ⟨hv.spots_lt hb u hu, Set.notMem_empty _⟩) fun b' hLow =>
        hv.lowered hb hLow fun _ _ => Set.notMem_empty _).mono (by simp)) fun tmp _ _ _ hv1 => ?_
    exact .seq (assignTo_traces hv1) fun _ _ => .pure trivial nofun

end Builder

theorem Build.settled_callResults {s : Sig} {slots : List (Nat × Reg)} {dst : Reg} :
    ∀ v ∈ callResults s slots dst, v.Settled := by
  intro v hv
  obtain ⟨i, hi, rfl⟩ := List.mem_mapIdx.mp hv
  split
  · trivial
  · split
    · trivial
    · split
      · trivial
      · trivial

/-- A call, from where its target is known. -/
def Build.called (sig : Sig) (args : List Expr) (target : Reg) : Build (Value × List Value) := do
  let slots ← resultSlots sig.hidden
  let passed ← arguments args sig.params
  let dst ← call sig.retReg target (slots.map (·.2) ++ passed)
  let all := callResults sig slots dst
  return (all.getLast?.getD (.none .missing), all)

/-- An element, from where the address of the first one is known. -/
def Build.element (t : Ty) (i : Expr) (base : Reg) : Build (Value × List Value) := do
  let iv ← results i
  let n ← convert (← value iv.1) (← typeOf i) .s64
  let size ← imm .i64 (← extent t).size.toUInt64
  let off ← bin .mul .i64 n size
  return (.place t (← bin .add .ptr base off), [])

/-- The value of an expression, and all the results if it is a call. -/
def Kind.results : Kind (Value × List Value) :=
  ⟨fun v => v.1.spots, fun v b => v.1.Fresh b ∧ ∀ w ∈ v.2, w.Settled, fun F v => (v.1.map F.place, v.2)⟩

namespace Builder

/-- An element, given the address of the first one. -/
theorem element_traces {t : Ty} {i : Expr} {base : Reg}
    (hi : ∀ b : Builder, Traces .results ∅ b (results i) fun _ => results i) :
    Traces .results ∅ b (element t i base) fun _ => element t i base :=
  .bind (hi b) fun _ _ _ _ hiv => .seq (value_traces hiv.1.open) fun _ _ => .demand fun _ _ =>
    .seq convert_traces fun _ _ => .demand fun _ _ => .seq imm_traces fun _ _ => .seq bin_traces fun _ _ =>
      .seq bin_traces fun _ _ => .pure ⟨trivial, nofun⟩ nofun

/-- A call, given what is called. -/
theorem called_traces {b : Builder} {sig : Sig} {args : List Expr} {target : Reg}
    (hArgs : ∀ b : Builder,
      Traces (.plain (List Reg)) ∅ b (arguments args sig.params) fun _ => arguments args sig.params) :
    Traces .results ∅ b (called sig args target) fun _ => called sig args target := by
  refine .seq resultSlots_traces fun slots b1 => .seq (hArgs b1) fun passed _ => .seq call_traces fun dst _ => ?_
  have hLast : ((callResults sig slots dst).getLast?.getD (.none .missing)).Settled := by
    cases hEnd : (callResults sig slots dst).getLast? with
    | none => trivial
    | some v => exact settled_callResults v (List.mem_of_getLast? hEnd)
  refine .of_eq (.pure (κ := .results) ⟨hLast.fresh, settled_callResults⟩ fun u hu => ?_) rfl ?_
  · have hu : u ∈ Value.spots _ := hu
    rwa [hLast.spots_eq] at hu
  · rintro F p a p' - - - ⟨rfl, rfl⟩
    exact ⟨Prod.ext hLast.map_eq rfl, rfl⟩

/-- The convention of a call. -/
theorem sig_traces {α : Type} {κ : Kind α} {U : Set Spot} {ins outs : List Ty} {k : Sig → Build α} {Y : Sig → Shape α}
    (hk : ∀ sig, Traces κ U b (k sig) fun _ => Y sig) : Traces κ U b (do
      let b ← get
      let sig ← Build.orFault (Convention.sig? b.config.direct ins outs)
      k sig) (fun _ => do
      let T ← Shape.text
      let sig ← Shape.demand (Convention.sig? T.direct ins outs)
      Y sig) := by
  refine .of_eq (Traces.demand (o := Convention.sig? b.config.direct ins outs) (Y := fun _ => Y) fun sig _ => hk sig) rfl ?_
  rintro F p a p' hConfig - - hShape
  refine ⟨_, _, ⟨rfl, rfl⟩, ?_⟩
  change (Shape.demand (Convention.sig? F.config.direct ins outs) >>= Y) _ _ _ _
  rw [hConfig]
  exact hShape

mutual

theorem results_traces (x : Expr) (b : Builder) :
    Traces .results ∅ b (Build.results x) fun _ => Shape.results x := by
  cases x with
  | absent => exact .throw
  | int t v | float t v =>
    exact .demand fun rt _ => .seq imm_traces fun r _ => .pure ⟨trivial, nofun⟩ nofun
  | bool v =>
    exact .seq imm_traces fun r _ => .pure ⟨trivial, nofun⟩ nofun
  | ident t r =>
    exact .bind reference_traces fun v _ _ _ hv => .pure ⟨hv, nofun⟩ fun _ hu => hu
  | binary t op l r =>
    refine .bind (results_traces l _) fun lv _ _ _ hlv => ?_
    cases op with
    | land | lor =>
      -- the code of the right operand is put into the chain that the left one has begun
      exact .bind (toPending_traces hlv.1) fun q _ _ _ hq =>
        .bind (chain_traces hq.1 hq.2 fun b0 =>
          .bind (results_traces r _) fun v _ _ _ hv => .pure hv.1 fun _ hu => hu)
          fun q' _ _ _ hq' => .pure ⟨hq', nofun⟩ fun _ hu => hu
    | _ =>
      refine .seq (value_traces hlv.1.open) fun a _ => ?_
      refine .bind (results_traces r _) fun rv _ _ _ hrv => ?_
      refine .seq (value_traces hrv.1.open) fun c _ => .demand fun lt _ => ?_
      cases BinaryOp.instr _ lt with
      | error e => exact .throw
      | ok i =>
        exact .demand fun rt _ => .seq bin_traces fun d _ => .pure ⟨trivial, nofun⟩ nofun
  | unary t op x =>
    exact .bind (results_traces x _) fun v _ _ _ hv => .demand fun xt _ =>
      .bind (applyUnary_traces hv.1) fun w _ _ _ hw =>
        .pure ⟨hw, nofun⟩ fun _ hu => hu
  | call t fn args =>
    refine .demand fun ft _ => ?_
    cases ft with
    | func ins outs =>
      dsimp only
      by_cases hLen : args.length = ins.length
      · rw [if_neg (not_not.mpr hLen)]
        refine .check hLen (sig_traces fun sig => ?_)
        -- unless the callee is a procedure by its name, it is a value like others
        have hValue : Traces .results ∅ b (do Build.called sig args (← Build.value (← Build.results fn).1))
            (fun _ => do Shape.called sig args (← Shape.value (← Shape.results fn).1)) :=
          .bind (results_traces fn b) fun v _ _ _ hv => .seq (value_traces hv.1.open) fun target _ =>
            called_traces (arguments_traces args sig.params)
        cases fn with
        | ident ft r =>
          cases r with
          | proc p =>
            exact .aside need_traces fun _ => .aside referProc_traces fun _ => .seq addrOf_traces fun target _ =>
              called_traces (arguments_traces args sig.params)
          | _ => exact hValue
        | _ => exact hValue
      · rw [if_pos hLen]
        exact .throw_bind
    | _ => exact .throw
  | cast t x =>
    exact .bind (results_traces x _) fun v _ _ _ hv =>
      .seq (value_traces hv.1.open) fun r _ => .demand fun xt _ =>
        .seq convert_traces fun r' _ => .pure ⟨trivial, nofun⟩ nofun
  | field t x name =>
    refine .bind (results_traces x _) fun v _ _ _ hv => .demand fun xt _ => ?_
    cases xt with
    | struct s fs =>
      dsimp only
      cases Ty.field? fs name with
      | none => exact .throw
      | some f =>
        exact .seq (address_traces hv.1.open) fun r _ =>
          .seq offset_traces fun r' _ => .pure ⟨trivial, nofun⟩ nofun
    | _ => exact .throw
  | index t x i =>
    refine .bind (results_traces x _) fun v _ _ _ hv => .demand fun xt _ => ?_
    cases xt with
    | array elem len =>
      exact .seq (address_traces hv.1.open) fun base _ => element_traces (results_traces i)
    | ptr target =>
      exact .seq (value_traces hv.1.open) fun base _ => element_traces (results_traces i)
    | _ => exact .throw_bind

theorem arguments_traces (xs : List Expr) (ps : List Param) (b : Builder) :
    Traces (.plain (List Reg)) ∅ b (arguments xs ps) fun _ => arguments xs ps := by
  cases xs with
  | nil => exact .pure trivial nofun
  | cons x xs =>
    cases ps with
    | nil => exact .pure trivial nofun
    | cons p ps =>
      exact .bind (results_traces x _) fun v _ _ _ hv =>
        .seq (pass_traces hv.1.open) fun r b2 =>
          .seq (arguments_traces xs ps b2) fun rs _ => .pure trivial nofun

end

theorem expr_traces {x : Expr} : Traces .value ∅ b (expr x) fun _ => expr x :=
  .bind (results_traces x _) fun _ _ _ _ hv => .pure hv.1 fun _ hu => hu

end Builder

end Comptime
