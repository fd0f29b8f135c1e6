import Comptime.Proofs.Lowering.Stmts
import Comptime.Proofs.Safety.Assignments

/-!
# Statements are lowered or rejected

Between statements every jump that waits for its target can be patched (`Builder.Steady`), and lowering goes on from one
such point to the next (`Proceeds`). A statement that is typed and finds scopes for what it defers does so and never aborts
(`Stmt.Typed.works`). Deferred statements are kept as actions on the scopes around them; `Scopes.Good` says that none of
them aborts, by recursion on the number of scopes.
-/

namespace Comptime

open Builder Build List Scopes

/-! ## Between statements -/

namespace Builder

/-- What lowering the statements of a procedure with these results needs, and keeps, within `k` loops and switches. -/
structure Steady (outs : List Ty) (k : Nat) (b : Builder) : Prop where
  closed : b.Closed
  edges : ∀ e ∈ b.edges, b.Patchable e
  regular : Convention.Regular b.config.direct
  results : b.sig.results = outs
  plain : ∀ t ∈ outs, t.Plain
  outlets : b.Outlets 0 outs
  targets : b.targets.length = k

/-- From one point between statements to a later one. -/
structure Advances (outs : List Ty) (k : Nat) (b b' : Builder) : Prop where
  steady : b'.Steady outs k
  onward : Onward b b'

end Builder

/-- Lowering goes on to a point between statements, with a result of which `Q` holds. -/
def Proceeds (outs : List Ty) (k : Nat) {α : Type} (Q : α → Builder → Prop) (x : Build α) (b : Builder) : Prop :=
  Completes x b fun a b' => Q a b' ∧ Advances outs k b b'

/-- Lowering goes on to a point between statements. -/
abbrev Keeps (outs : List Ty) (k : Nat) {α : Type} (x : Build α) (b : Builder) : Prop :=
  Proceeds outs k (fun _ _ => True) x b

variable {outs : List Ty} {j k n : Nat} {b b' b'' : Builder}

namespace Proceeds

variable {α β : Type} {x y : Build α} {c : α → Build β} {Q : α → Builder → Prop} {R : β → Builder → Prop} {a : α}
variable {p : Prop} [Decidable p]

theorem pure (hb : b.Steady outs k) (hQ : Q a b) : Proceeds outs k Q (Pure.pure a) b := ⟨hQ, hb, .refl⟩

theorem bind (hx : Proceeds outs j Q x b) (hc : ∀ a b1, Q a b1 → Advances outs j b b1 → Proceeds outs k R (c a) b1) :
    Proceeds outs k R (x >>= c) b :=
  Completes.bind hx fun a b1 _ ⟨hQ, hAdv⟩ => (hc a b1 hQ hAdv).imp fun _ _ _ ⟨hR, hAdv'⟩ =>
    ⟨hR, hAdv'.steady, hAdv.onward.trans hAdv'.onward⟩

theorem read {c : Builder → Build β} (hc : Proceeds outs k R (c b) b) : Proceeds outs k R (get >>= c) b := hc

theorem write {f : Builder → Builder} {c : PUnit → Build β} (hAdv : Advances outs j b (f b))
    (hc : Proceeds outs k R (c ⟨⟩) (f b)) : Proceeds outs k R (modify f >>= c) b :=
  bind (x := modify f) (Q := fun _ b1 => b1 = f b) ⟨rfl, hAdv⟩ fun _ _ hEq _ => hEq ▸ hc

theorem when {x : Build Unit} {c : Unit → Build β} (hb : b.Steady outs j) (hx : p → Keeps outs j x b)
    (hc : ∀ b1, Advances outs j b b1 → Proceeds outs k R (c ()) b1) :
    Proceeds outs k R (if p then x >>= c else c ()) b := by
  split
  · next hp => exact (hx hp).bind fun _ b1 _ hAdv => hc b1 hAdv
  · exact hc b ⟨hb, .refl⟩

theorem either (hx : p → Proceeds outs j Q x b) (hy : ¬ p → Proceeds outs j Q y b)
    (hc : ∀ a b1, Q a b1 → Advances outs j b b1 → Proceeds outs k R (c a) b1) :
    Proceeds outs k R (if p then x >>= c else y >>= c) b := by
  split
  · next hp => exact (hx hp).bind hc
  · next hp => exact (hy hp).bind hc

end Proceeds

namespace Builder.Steady

variable (hb : b.Steady outs k)

include hb

theorem sound : b.Sound := hb.closed.sound

theorem apt : b.Apt := ⟨hb.sound, hb.regular⟩

/-- Whatever is lowered in place, as long as regions stay and what can be patched. -/
theorem advances {U : Set Spot} (hLow : Lowered U b b') (hOn : Onward b b') : Advances outs k b b' where
  steady := {
    closed := (hb.closed.lowered hLow).1
    edges := fun e he => by
      rw [Builder.edges, hLow.targets] at he
      exact hOn.patchable e (hb.edges e he)
    regular := (hb.apt.lowered hLow).regular
    results := by rw [hLow.grows.sig, hb.results]
    plain := hb.plain
    outlets := hb.outlets.of_context hLow.grows.context
    targets := by rw [hLow.targets, hb.targets] }
  onward := hOn

theorem lowered (hLow : Lowered ∅ b b') : Advances outs k b b' := hb.advances hLow (hLow.onward fun _ => Set.notMem_empty _)

/-- A change that leaves the code alone. -/
theorem modified (hSame : Alike b b') (hEdges : ∀ e ∈ b'.edges, b.Patchable e) (hRegs : b'.regs.Sound)
    (hTargets : b'.targets.length = j) : Advances outs j b b' := by
  have hOn : Onward b b' := .of_code (by rw [handles, handles, hSame.stream]) fun h _ => by rw [code, code, hSame.stream]
  have hConfig : b'.config = b.config := congrArg (·.1) hSame.context
  have hSig : b'.sig = b.sig := congrArg (·.2.1) hSame.context
  exact ⟨⟨hb.closed.alike hSame hRegs, fun e he => hOn.patchable e (hEdges e he), hConfig ▸ hb.regular, hSig ▸ hb.results,
    hb.plain, hb.outlets.of_context hSame.context, hTargets⟩, hOn⟩

theorem unchanged (hSame : Alike b b') (hRegs : b'.regs.Sound) (hTargets : b'.targets = b.targets) : Advances outs k b b' :=
  hb.modified hSame (by rw [Builder.edges, hTargets]; exact hb.edges) hRegs (by rw [hTargets, hb.targets])

/-! ## Steps -/

/-- Code whose shape is known. -/
theorem traced {α : Type} {κ : Kind α} {x : Build α} {X : Builder → Shape α} {Q : α → Builder → Prop}
    (hx : Completes x b Q) (hT : Traces κ ∅ b x X) : Proceeds outs k Q x b :=
  hx.imp fun a b' hRun hQ => ⟨hQ, hb.lowered (hT hb.sound a b' hRun).1⟩

theorem emitted {x : Instr} : Proceeds outs k (fun h b' => h = b.handles ∧ b' = b.emitted x) (emit x) b :=
  emit_completes.imp fun _ _ _ h => ⟨h, h.2 ▸ hb.lowered (lowered_emitted hb.sound)⟩

theorem region : Proceeds outs k (fun h b' => b'.IsRegion h) region b :=
  hb.emitted.imp fun _ _ _ ⟨⟨hEq, hEq'⟩, hAdv⟩ => ⟨hEq ▸ hEq' ▸ isRegion_emitted, hAdv⟩

theorem jump : Proceeds outs k (fun e b' => b'.Patchable e) jump b :=
  hb.emitted.bind fun _ _ ⟨hEq, hEq'⟩ hAdv => .pure hAdv.steady (hEq ▸ hEq' ▸ patchable_emitted nofun)

theorem instr {x : Instr} : Keeps outs k (discard (emit x)) b := hb.emitted.bind fun _ _ _ hAdv => .pure hAdv.steady trivial

theorem skip : Proceeds outs k (fun es b' => ∀ e ∈ es, b'.Patchable e) skip b := by
  refine .read ?_
  cases b.dead with
  | true => exact .pure hb nofun
  | false => exact hb.jump.bind fun e b1 he hAdv => .pure hAdv.steady (by simpa using he)

theorem patch {e : Edge} {t : Nat} (he : b.Patchable e) (ht : b.IsRegion t) : Keeps outs k (patch e t) b := by
  refine (patch_completes he ht).imp fun _ b' _ hEq => ⟨trivial, ?_⟩
  subst hEq
  exact hb.advances (lowered_patched hb.sound he.isBranch) .patched

omit hb in
theorem patchAll {es : List Edge} {t : Nat} (hb : b.Steady outs k) (hEs : ∀ e ∈ es, b.Patchable e) (ht : b.IsRegion t) :
    Keeps outs k (patchAll es t) b := by
  induction es generalizing b with
  | nil => exact .pure hb trivial
  | cons e es ih =>
    refine (hb.patch (hEs e mem_cons_self) ht).bind fun _ b1 _ hAdv => ?_
    exact ih hAdv.steady (fun e' he' => hAdv.onward.patchable e' (hEs e' (mem_cons_of_mem _ he'))) (hAdv.onward.region t ht)

omit hb in
theorem patchArms {br first t : Nat} {vs : List Int64} (hb : b.Steady outs k)
    (hArms : ∀ i, first ≤ i → i < first + vs.length → b.Patchable ⟨br, some i⟩) (ht : b.IsRegion t) :
    Keeps outs k (patchArms br first t vs) b := by
  induction vs generalizing b first with
  | nil => exact .pure hb trivial
  | cons v vs ih =>
    rw [length_cons] at hArms
    refine (hb.patch (hArms first (le_refl _) (by omega)) ht).bind fun _ b1 _ hAdv => ?_
    exact ih hAdv.steady (fun i hLe hLt => hAdv.onward.patchable _ (hArms i (by omega) (by omega)))
      (hAdv.onward.region t ht)

/-- The edge of a condition waits to be patched. -/
theorem condition {x : Expr} (hx : x.Works .bool) : Proceeds outs k (fun e b' => b'.Patchable e) (condition x) b := by
  have hEdge : Completes (Build.condition x) b fun e b' => b'.Patchable e := by
    refine (hx.expr hb.apt).bind fun v b1 _ ⟨hb1, hFresh, hv, _⟩ => ?_
    have hTest : Completes (do return (← branchFalse (← value v)).2) b1 fun e b' => b'.Patchable e :=
      (value_completes hb1 hFresh.open hv .bool).bind fun r b2 _ _ =>
        branchFalse_completes.bind fun p b3 _ hp => .pure hp.2.1
    cases v with
    | pending t q => exact .pure (hFresh.1.onFalse.patchable hb1.sound)
    | _ => exact hTest
  exact hEdge.imp fun e b' hRun he => ⟨he, hb.lowered (condition_shape hb.sound hRun).lowered⟩

theorem optionalCondition {x : Expr} (hx : x.isAbsent = true ∨ x.Works .bool) :
    Proceeds outs k (fun es b' => ∀ e ∈ es, b'.Patchable e) (optionalCondition x) b := by
  unfold Build.optionalCondition
  cases hAbsent : x.isAbsent with
  | true => exact .pure hb nofun
  | false =>
    have hWorks := hx.resolve_left (by rw [hAbsent]; exact Bool.false_ne_true)
    exact (hb.condition hWorks).bind fun e b1 he hAdv => .pure hAdv.steady (by simpa using he)

end Builder.Steady

/-! ## Scopes -/

/-- An action on scopes that keeps `G`, wherever between statements it is taken. -/
def Bears (outs : List Ty) (G : Scopes n → Prop) (c : Scopes n → Build (Scopes n)) : Prop :=
  ∀ ⦃s b k⦄, G s → Steady outs k b → Proceeds outs k (fun s' _ => G s') (c s) b

/-- None of the deferred actions aborts. -/
def Scopes.Good (outs : List Ty) : (n : Nat) → Scopes n → Prop
  | 0, _ => True
  | n + 1, s => Good outs n s.outer ∧ ∀ d ∈ s.deferred, Bears outs (Good outs n) d

/-- Lowering goes on to a point between statements, with scopes of which that holds. -/
abbrev Settles (outs : List Ty) (k : Nat) : Build (Scopes n) → Builder → Prop := Proceeds outs k fun s _ => Good outs n s

namespace Build

theorem runDeferred_proceeds {ds : List (Deferred n)} {current kept : Scopes n} (hDs : ∀ d ∈ ds, Bears outs (Good outs n) d)
    (hCurrent : Good outs n current) (hKept : Good outs n kept) (hb : b.Steady outs k) :
    Settles outs k (runDeferred ds current kept) b := by
  induction ds generalizing current kept b with
  | nil => exact .pure hb hKept
  | cons d ds ih =>
    refine (hDs d mem_cons_self hCurrent hb).bind fun s b1 hs hAdv => .read ?_
    have hKept' : Good outs n (if b1.linked then s else kept) := by
      split
      · exact hs
      · exact hKept
    exact ih (fun d hd => hDs d (mem_cons_of_mem _ hd)) hs hKept' hAdv.steady

theorem linked_advances (linked : Bool) (hb : b.Steady outs k) : Advances outs k b { b with linked } :=
  hb.unchanged ⟨rfl, rfl, rfl, rfl⟩ hb.sound.regs rfl

theorem leaveScopes_bears {depth : Nat} : Bears outs (Good outs n) (leaveScopes depth n) := by
  induction n with
  | zero => exact fun _ _ _ hs hb => .pure hb hs
  | succ n ih =>
    intro s b k hs hb
    rw [leaveScopes]
    split
    · exact .pure hb hs
    · have hLinked := linked_advances true hb
      refine .write hLinked ?_
      refine (runDeferred_proceeds (fun d hd => hs.2 d (mem_reverse.mp hd)) hs.1 hs.1 hLinked.steady).bind
        fun outer b2 hOuter hAdv => ?_
      exact (ih hOuter hAdv.steady).bind fun outer' b3 hOuter' hAdv' => .pure hAdv'.steady ⟨hOuter', hs.2⟩

theorem replay_bears {depth : Nat} : Bears outs (Good outs n) (replay depth n) := fun _ _ _ hs hb =>
  .read ((leaveScopes_bears hs hb).bind fun _ _ hs' hAdv =>
    have hLinked := linked_advances _ hAdv.steady
    .write hLinked (.pure hLinked.steady hs'))

theorem inScope_bears {body : Scopes (n + 1) → Build (Scopes (n + 1))} (hBody : Bears outs (Good outs (n + 1)) body) :
    Bears outs (Good outs n) (inScope n · body) := by
  intro s b k hs hb
  have hLinked := linked_advances false hb
  refine .write hLinked ((hBody (s := s.push []) ⟨hs, nofun⟩ hLinked.steady).bind fun s1 b1 hs1 hAdv1 => .read ?_)
  cases b1.dead with
  | true => exact .pure hAdv1.steady hs1.1
  | false => exact (replay_bears hs1 hAdv1.steady).bind fun s2 b2 hs2 hAdv2 => .pure hAdv2.steady hs2.1

theorem unlessDead_proceeds {s : Scopes n} {code : Build (Scopes n)} (hs : Good outs n s) (hb : b.Steady outs k)
    (hCode : Settles outs k code b) :
    Settles outs k (unlessDead s code) b := by
  refine .read ?_
  cases b.dead with
  | true => exact .pure hb hs
  | false =>
    refine hCode.bind fun s' b1 hs' hAdv => ?_
    have hReclaimed : Advances outs k b1 { b1 with regs := b1.regs.reclaim } :=
      hAdv.steady.unchanged ⟨rfl, rfl, rfl, rfl⟩ hAdv.steady.sound.regs.reclaim rfl
    exact .write hReclaimed (.pure hReclaimed.steady hs')

/-! ## Jump targets -/

theorem length_updateFirst {loopOnly : Bool} {f : JumpTarget → JumpTarget} {ts : List JumpTarget} :
    (updateFirst loopOnly f ts).length = ts.length := by
  induction ts with
  | nil => rfl
  | cons t ts ih =>
    rw [updateFirst]
    split
    · rfl
    · rw [length_cons, length_cons, ih]

/-- What a changed target has collected is new or was collected before. -/
theorem mem_updateFirst {loopOnly : Bool} {f : JumpTarget → JumpTarget} {ts : List JumpTarget} {P : Edge → Prop}
    (hf : ∀ t, ∀ e ∈ (f t).edges, P e ∨ e ∈ t.edges) {e : Edge}
    (he : e ∈ (updateFirst loopOnly f ts).flatMap JumpTarget.edges) : P e ∨ e ∈ ts.flatMap JumpTarget.edges := by
  induction ts with
  | nil => exact .inr he
  | cons t ts ih =>
    rw [updateFirst] at he
    rw [flatMap_cons, mem_append]
    split at he
    · rw [flatMap_cons, mem_append] at he
      rcases he with he | he
      · exact (hf t e he).imp_right .inl
      · exact .inr (.inr he)
    · rw [flatMap_cons, mem_append] at he
      rcases he with he | he
      · exact .inr (.inl he)
      · exact (ih he).imp_right .inr

theorem updateTarget_keeps {loopOnly : Bool} {f : JumpTarget → JumpTarget} (hb : b.Steady outs k)
    (hf : ∀ t, ∀ e ∈ (f t).edges, b.Patchable e ∨ e ∈ t.edges) : Keeps outs k (updateTarget loopOnly f) b :=
  .of_ok (a := ⟨⟩) rfl ⟨trivial, hb.modified ⟨rfl, rfl, rfl, rfl⟩
    (fun e he => (mem_updateFirst hf he).elim id (hb.edges e)) hb.sound.regs (length_updateFirst.trans hb.targets)⟩

/-- A jump that can be patched is collected. -/
theorem collect_keeps {loopOnly isLoop : Bool} {f : Edge → JumpTarget → JumpTarget} {e : Edge} (hb : b.Steady outs k)
    (hf : Collects isLoop f) (he : b.Patchable e) : Keeps outs k (updateTarget loopOnly (f e)) b :=
  updateTarget_keeps hb fun t e' he' => by
    rcases mem_cons.mp ((hf.edges e t).mem_iff.mp he') with rfl | hOld
    · exact .inl he
    · exact .inr hOld

/-- A loop or a switch is opened. -/
theorem openTarget_keeps {isLoop : Bool} {depth : Nat} (hb : b.Steady outs k) :
    Keeps outs (k + 1) (openTarget isLoop depth) b :=
  .of_ok (a := ⟨⟩) rfl ⟨trivial, hb.modified ⟨rfl, rfl, rfl, rfl⟩ hb.edges hb.sound.regs (congrArg (· + 1) hb.targets)⟩

/-- The innermost loop or switch is closed, and what it has collected can be patched. -/
theorem closeTarget_proceeds (hb : b.Steady outs (k + 1)) :
    Proceeds outs k (fun t b' => ∀ e ∈ t.edges, b'.Patchable e) closeTarget b := by
  refine .read ?_
  obtain ⟨t, ts, hTargets⟩ := exists_cons_of_length_eq_add_one hb.targets
  have hEdges : ∀ e, e ∈ t.edges ∨ e ∈ ts.flatMap JumpTarget.edges → b.Patchable e := fun e he =>
    hb.edges e (by rw [edges, hTargets, flatMap_cons, mem_append]; exact he)
  have hLen := hb.targets
  rw [hTargets, length_cons, Nat.add_right_cancel_iff] at hLen
  have hAdv : Advances outs k b { b with targets := ts } := hb.modified ⟨rfl, rfl, rfl, rfl⟩
    (fun e he => hEdges e (.inr he)) hb.sound.regs hLen
  rw [hTargets]
  exact .write hAdv (.pure hAdv.steady fun e he => hAdv.onward.patchable e (hEdges e (.inl he)))

/-! ## Statements -/

theorem declare_keeps {v : Variable} {init : Expr} (hPlain : v.ty.Plain) (hInit : init.isAbsent = true ∨ init.Works v.ty)
    (hb : b.Steady outs k) : Keeps outs k (declare v init) b := by
  obtain ⟨e, hExtent⟩ := v.ty.exists_extent hPlain.given
  refine .demand hExtent ((hb.traced (reserve_safe hb.sound) reserve_traces).bind fun slot b1 _ hAdv1 => ?_)
  have hBound : Advances outs k b1 { b1 with slots := (v.id, slot) :: b1.slots } :=
    hAdv1.steady.unchanged ⟨rfl, rfl, rfl, rfl⟩ hAdv1.steady.sound.regs rfl
  exact .write hBound (hBound.steady.traced (declared_safe slot hPlain hInit hBound.steady.apt) declared_traces)

theorem jumpOut_proceeds {loopOnly isLoop : Bool} {t : JumpTarget} {f : Edge → JumpTarget → JumpTarget} {s : Scopes n}
    (hs : Good outs n s) (hb : b.Steady outs k) (hf : Collects isLoop f) :
    Settles outs k (jumpOut n s loopOnly t f) b :=
  (replay_bears hs hb).bind fun _ _ hs1 hAdv1 => hAdv1.steady.jump.bind fun _ _ he hAdv2 =>
    (collect_keeps hAdv2.steady hf he).bind fun _ _ _ hAdv3 => .pure hAdv3.steady hs1

theorem holding_proceeds {code : Build (Scopes n)} (hb : b.Steady outs k)
    (hCode : ∀ b, Steady outs k b → Settles outs k code b) :
    Settles outs k (holding code) b := by
  have hHeld : Advances outs k b { b with regs := { b.regs with hold := b.regs.hold + 1 } } :=
    hb.unchanged ⟨rfl, rfl, rfl, rfl⟩ hb.sound.regs.held rfl
  refine .write hHeld ((hCode _ hHeld.steady).bind fun s1 b1 hs1 hAdv1 => ?_)
  have hFreed : Advances outs k b1 { b1 with regs := { b1.regs with hold := b1.regs.hold - 1 } } :=
    hAdv1.steady.unchanged ⟨rfl, rfl, rfl, rfl⟩ hAdv1.steady.sound.regs.held rfl
  exact .write hFreed (.pure hFreed.steady hs1)

theorem returnStmt_proceeds {xs : List Expr} {ts : List Ty} {s : Scopes n} (hxs : Forall₂ Expr.Works xs ts)
    (hSame : xs.length = outs.length → ts = outs)
    (hCall : ∀ t fn args ins results, xs = [.call t fn args] → 1 < outs.length → fn.Typed (.func ins results) →
      ∀ p ∈ outs.zip results, p.2 = p.1) (hs : Good outs n s) (hb : b.Steady outs k) :
    Settles outs k (returnStmt n s xs) b := by
  have hReturned : Answers (do
      let vs ← returnValues b.sig.results.length xs
      placeResults 0 noReg b.sig.results vs) b := by
    rw [hb.results]
    refine (returnValues_completes hxs hSame hCall hb.apt).bind fun vs b1 hRun1 hvs => ?_
    obtain ⟨hLow1, -, hOpen, -⟩ := returnValues_traces hb.sound vs b1 hRun1
    exact placeResults_safe (hb.apt.lowered hLow1) hOpen hvs hb.plain (hb.outlets.of_context hLow1.grows.context)
  refine .read ?_
  rw [← bind_assoc]
  refine (hb.traced hReturned returned_traces).bind fun r b2 _ hAdv2 => ?_
  refine (holding_proceeds hAdv2.steady fun b hb => replay_bears hs hb).bind fun s3 b3 hs3 hAdv3 => .read ?_
  cases b3.dead with
  | true => exact .pure hAdv3.steady hs3
  | false => exact hAdv3.steady.instr.bind fun _ b4 _ hAdv4 => .pure hAdv4.steady hs3

end Build

/-- Lowering a statement does not abort, wherever it finds scopes for what it defers. -/
def Stmt.Works (outs : List Ty) (x : Stmt) : Prop :=
  ∀ n, x.isAnchored n = true → Bears outs (Good outs n) (stmt x n)

namespace Stmt

variable {l : List Stmt} {test : Expr}

theorem stmts_bear (hl : ∀ x ∈ l, x.Works outs) (hAnchored : allAnchored l n = true) :
    Bears outs (Good outs n) (stmts l n) := by
  induction l with
  | nil => exact fun _ _ _ hs hb => .pure hb hs
  | cons x xs ih =>
    rw [allAnchored, Bool.and_eq_true] at hAnchored
    exact fun s b k hs hb => (hl x mem_cons_self n hAnchored.1 hs hb).bind fun s1 b1 hs1 hAdv1 =>
      ih (fun x hx => hl x (mem_cons_of_mem _ hx)) hAnchored.2 hs1 hAdv1.steady

theorem scope_bears (hl : ∀ x ∈ l, x.Works outs) (hAnchored : allAnchored l (n + 1) = true) :
    Bears outs (Good outs n) (inScope n · (stmts l (n + 1))) := inScope_bears (stmts_bear hl hAnchored)

theorem block_proceeds {s : Scopes n} (hl : ∀ x ∈ l, x.Works outs) (hAnchored : allAnchored l (n + 1) = true)
    (hs : Good outs n s) (hb : b.Steady outs k) :
    Settles outs k (unlessDead s (inScope n s (stmts l (n + 1)))) b :=
  unlessDead_proceeds hs hb (scope_bears hl hAnchored hs hb)

theorem cond_works {no : Stmt} (hTest : test.Works .bool) (hYes : ∀ x ∈ l, x.Works outs) (hNo : no.Works outs) :
    (cond test l no).Works outs := by
  intro n hAnchored s b k hs hb
  rw [isAnchored, Bool.and_eq_true] at hAnchored
  refine unlessDead_proceeds hs hb ((hb.condition hTest).bind fun otherwise b1 hOther hAdv1 => ?_)
  refine (block_proceeds hYes hAnchored.1 hs hAdv1.steady).bind fun s2 b2 hs2 hAdv2 => ?_
  have hOther2 := hAdv2.onward.patchable _ hOther
  cases no.isAbsent with
  | true =>
    refine hAdv2.steady.region.bind fun r b3 hr hAdv3 => ?_
    refine (hAdv3.steady.patch (hAdv3.onward.patchable _ hOther2) hr).bind fun _ b4 _ hAdv4 => ?_
    exact .pure hAdv4.steady hs2
  | false =>
    refine hAdv2.steady.skip.bind fun exit b3 hExit hAdv3 => ?_
    refine hAdv3.steady.region.bind fun r b4 hr hAdv4 => ?_
    refine (hAdv4.steady.patch ((hAdv3.onward.trans hAdv4.onward).patchable _ hOther2) hr).bind fun _ b5 _ hAdv5 => ?_
    refine (hNo n hAnchored.2 hs2 hAdv5.steady).bind fun s6 b6 hs6 hAdv6 => .read ?_
    cases exit.isEmpty && b6.dead with
    | true => exact .pure hAdv6.steady hs6
    | false =>
      refine hAdv6.steady.region.bind fun r b7 hr hAdv7 => ?_
      have hOn := (hAdv4.onward.trans hAdv5.onward).trans (hAdv6.onward.trans hAdv7.onward)
      refine (hAdv7.steady.patchAll (fun e he => hOn.patchable _ (hExit e he)) hr).bind fun _ b8 _ hAdv8 => ?_
      exact .pure hAdv8.steady hs6

/-- The jumps out of a loop are patched once it has an end. -/
theorem exits_proceed {t : JumpTarget} {exit next : Nat} {s : Scopes n} (hs : Scopes.Good outs n s) (hb : b.Steady outs k)
    (ht : ∀ e ∈ t.edges, b.Patchable e) (hExit : b.IsRegion exit) (hNext : b.IsRegion next) :
    Settles outs k (do
      patchAll t.breaks exit
      patchAll t.continues next
      return s) b := by
  refine (hb.patchAll (fun e he => ht e (by simp [JumpTarget.edges, he])) hExit).bind fun _ b1 _ hAdv1 => ?_
  refine (hAdv1.steady.patchAll (fun e he => hAdv1.onward.patchable e (ht e (by simp [JumpTarget.edges, he])))
    (hAdv1.onward.region _ hNext)).bind fun _ b2 _ hAdv2 => .pure hAdv2.steady hs

theorem whileDo_works (hTest : test.Works .bool) (hBody : ∀ x ∈ l, x.Works outs) : (whileDo test l).Works outs := by
  intro n hAnchored s b k hs hb
  refine unlessDead_proceeds hs hb (hb.region.bind fun head b1 hHead hAdv1 => ?_)
  refine (hAdv1.steady.condition hTest).bind fun otherwise b2 hOther hAdv2 => ?_
  refine (openTarget_keeps hAdv2.steady).bind fun _ b3 _ hAdv3 => ?_
  refine (block_proceeds hBody hAnchored hs hAdv3.steady).bind fun s4 b4 hs4 hAdv4 => .read ?_
  refine .when hAdv4.steady (fun _ => hAdv4.steady.instr) fun b5 hAdv5 => ?_
  refine (closeTarget_proceeds hAdv5.steady).bind fun t b6 ht hAdv6 => ?_
  refine hAdv6.steady.region.bind fun exit b7 hExit hAdv7 => ?_
  have hOn := hAdv3.onward.trans (hAdv4.onward.trans (hAdv5.onward.trans (hAdv6.onward.trans hAdv7.onward)))
  refine (hAdv7.steady.patch (hOn.patchable _ hOther) hExit).bind fun _ b8 _ hAdv8 => ?_
  exact exits_proceed hs4 hAdv8.steady (fun e he => (hAdv7.onward.trans hAdv8.onward).patchable e (ht e he))
    (hAdv8.onward.region _ hExit) ((hAdv2.onward.trans (hOn.trans hAdv8.onward)).region _ hHead)

theorem doWhile_works (hTest : test.Works .bool) (hBody : ∀ x ∈ l, x.Works outs) : (doWhile test l).Works outs := by
  intro n hAnchored s b k hs hb
  refine unlessDead_proceeds hs hb (hb.region.bind fun head b1 _ hAdv1 => ?_)
  refine (openTarget_keeps hAdv1.steady).bind fun _ b2 _ hAdv2 => ?_
  refine (block_proceeds hBody hAnchored hs hAdv2.steady).bind fun s3 b3 hs3 hAdv3 => ?_
  refine (closeTarget_proceeds hAdv3.steady).bind fun t b4 ht hAdv4 => ?_
  refine hAdv4.steady.region.bind fun next b5 hNext hAdv5 => ?_
  refine (hAdv5.steady.condition hTest).bind fun otherwise b6 hOther hAdv6 => ?_
  refine hAdv6.steady.instr.bind fun _ b7 _ hAdv7 => hAdv7.steady.region.bind fun exit b8 hExit hAdv8 => ?_
  have hOn := hAdv7.onward.trans hAdv8.onward
  refine (hAdv8.steady.patch (hOn.patchable _ hOther) hExit).bind fun _ b9 _ hAdv9 => ?_
  have hOn' := hAdv6.onward.trans (hOn.trans hAdv9.onward)
  exact exits_proceed hs3 hAdv9.steady (fun e he => (hAdv5.onward.trans hOn').patchable e (ht e he))
    (hAdv9.onward.region _ hExit) (hOn'.region _ hNext)

theorem loop_works {init post : Stmt} (hInit : init.Works outs) (hTest : test.isAbsent = true ∨ test.Works .bool)
    (hPost : post.Works outs) (hBody : ∀ x ∈ l, x.Works outs) : (loop init test post l).Works outs := by
  intro n hAnchored s b k hs hb
  rw [isAnchored, Bool.and_eq_true, Bool.and_eq_true] at hAnchored
  refine unlessDead_proceeds hs hb (.when hb (fun _ => .reject) fun b0 hAdv0 => inScope_bears ?_ hs hAdv0.steady)
  intro s b k hs hb
  refine .either (fun _ => .pure hb hs) (fun _ => hInit (n + 1) hAnchored.1.1 hs hb) fun s1 b1 hs1 hAdv1 => ?_
  refine hAdv1.steady.region.bind fun head b2 hHead hAdv2 => ?_
  refine (hAdv2.steady.optionalCondition hTest).bind fun exits b3 hExits hAdv3 => ?_
  refine (openTarget_keeps hAdv3.steady).bind fun _ b4 _ hAdv4 => ?_
  refine (block_proceeds hBody hAnchored.2 hs1 hAdv4.steady).bind fun s5 b5 hs5 hAdv5 => ?_
  refine (closeTarget_proceeds hAdv5.steady).bind fun t b6 ht hAdv6 => ?_
  -- what is open when the body begins stays open to the end of the loop
  have hOn6 := hAdv4.onward.trans (hAdv5.onward.trans hAdv6.onward)
  refine .either (Q := fun next b' => b'.IsRegion next)
    (fun _ => .pure hAdv6.steady ((hAdv3.onward.trans hOn6).region _ hHead)) (fun _ => hAdv6.steady.region)
    fun next b7 hNext hAdv7 => ?_
  refine .either (fun _ => .pure hAdv7.steady hs5) (fun _ => hPost (n + 1) hAnchored.1.2 hs5 hAdv7.steady)
    fun s8 b8 hs8 hAdv8 => .read (.when hAdv8.steady (fun _ => hAdv8.steady.instr) fun b9 hAdv9 => ?_)
  have hOn9 := hAdv8.onward.trans hAdv9.onward
  have hOn := hAdv7.onward.trans hOn9
  have hNext9 := hOn9.region _ hNext
  have ht9 : ∀ e ∈ t.edges, b9.Patchable e := fun e he => hOn.patchable e (ht e he)
  dsimp only
  split
  · refine hAdv9.steady.region.bind fun exit b10 hExit hAdv10 => ?_
    have hOn10 := hOn6.trans (hOn.trans hAdv10.onward)
    refine (hAdv10.steady.patchAll (fun e he => hOn10.patchable e (hExits e he)) hExit).bind fun _ b11 _ hAdv11 => ?_
    have hEnd := hAdv10.onward.trans hAdv11.onward
    exact exits_proceed hs8 hAdv11.steady (fun e he => hEnd.patchable e (ht9 e he)) (hAdv11.onward.region _ hExit)
      (hEnd.region _ hNext9)
  · refine (hAdv9.steady.patchAll (fun e he => ht9 e (by simp [JumpTarget.edges, he])) hNext9).bind fun _ b10 _ hAdv10 => ?_
    exact .pure hAdv10.steady hs8

/-- The cases of a switch from one on, whose arms can still be patched. -/
theorem cases_proceed {br : Nat} {default : Option Nat} {cs : List (Case Stmt)} {i arm : Nat} {s : Scopes n}
    (hBodies : ∀ c ∈ cs, ∀ x ∈ c.body, x.Works outs) (hAnchored : casesAnchored cs (n + 1) = true)
    (hs : Scopes.Good outs n s) (hb : b.Steady outs (k + 1))
    (hArms : ∀ j, j < arm + (cs.flatMap (·.values)).length → b.Patchable ⟨br, some j⟩) (hDefault : b.Patchable ⟨br, none⟩) :
    Settles outs (k + 1) (Build.cases br default i arm cs n s) b := by
  induction cs generalizing i arm s b with
  | nil => exact .pure hb hs
  | cons c cs ih =>
    rw [casesAnchored, Bool.and_eq_true] at hAnchored
    rw [List.flatMap_cons, List.length_append] at hArms
    refine hb.region.bind fun r b1 hr hAdv1 => ?_
    refine (hAdv1.steady.patchArms (fun j _ hLt => hAdv1.onward.patchable _ (hArms j (by omega))) hr).bind
      fun _ b2 _ hAdv2 => ?_
    have hr2 := hAdv2.onward.region _ hr
    have hOn2 := hAdv1.onward.trans hAdv2.onward
    refine .when hAdv2.steady (fun _ => hAdv2.steady.patch (hOn2.patchable _ hDefault) hr2) fun b3 hAdv3 => .read ?_
    obtain ⟨t, ts, hTargets⟩ := exists_cons_of_length_eq_add_one hAdv3.steady.targets
    have hFalls : ∀ e ∈ t.falls, b3.Patchable e := fun e he => hAdv3.steady.edges e (by
      rw [edges, hTargets, List.flatMap_cons, List.mem_append]
      exact .inl (by simp [JumpTarget.edges, he]))
    rw [hTargets]
    refine (hAdv3.steady.patchAll hFalls (hAdv3.onward.region _ hr2)).bind fun _ b4 _ hAdv4 => ?_
    refine (updateTarget_keeps hAdv4.steady fun t e he => .inr ?_).bind fun _ b5 _ hAdv5 => ?_
    · simp only [JumpTarget.edges, List.append_nil, List.mem_append] at he ⊢
      exact .inl he
    refine (scope_bears (hBodies c List.mem_cons_self) hAnchored.1 hs hAdv5.steady).bind fun s6 b6 hs6 hAdv6 => .read ?_
    have hOn6 := hOn2.trans (hAdv3.onward.trans (hAdv4.onward.trans (hAdv5.onward.trans hAdv6.onward)))
    -- the other cases, wherever this one has ended
    have hNext : ∀ b7, Advances outs (k + 1) b6 b7 → Settles outs (k + 1)
        (Build.cases br default (i + 1) (arm + c.values.length) cs n s6) b7 := fun b7 hAdv7 => by
      have hOn7 := hOn6.trans hAdv7.onward
      exact ih (fun c hc => hBodies c (List.mem_cons_of_mem _ hc)) hAnchored.2 hs6 hAdv7.steady
        (fun j hLt => hOn7.patchable _ (hArms j (by omega))) (hOn7.patchable _ hDefault)
    dsimp only
    split
    · exact hAdv6.steady.jump.bind fun e b7 he hAdv7 => (collect_keeps hAdv7.steady (collects_break : Collects false _) he).bind
        fun _ b8 _ hAdv8 => hNext b8 ⟨hAdv8.steady, hAdv7.onward.trans hAdv8.onward⟩
    · exact hNext b6 ⟨hAdv6.steady, .refl⟩

theorem switch_works {tag : Expr} {t : Ty} {cs : List (Case Stmt)} (hTag : tag.Works t) (hScalar : t.isScalar = true)
    (hBodies : ∀ c ∈ cs, ∀ x ∈ c.body, x.Works outs) : (switch tag cs).Works outs := by
  intro n hAnchored s b k hs hb
  have hValue : Answers (Build.expr tag >>= value) b := (hTag.expr hb.apt).bind fun v b1 _ ⟨hb1, hFresh, hv, _⟩ =>
    (value_completes hb1 hFresh.open hv (hTag.typed.plain.carried hScalar)).safe
  have hTraces : Traces (.plain Reg) ∅ b (Build.expr tag >>= value) fun _ => Shape.expr tag >>= Shape.value :=
    .bind expr_traces fun w _ _ _ hw => value_traces hw.open
  refine unlessDead_proceeds hs hb ?_
  rw [← bind_assoc]
  refine (hb.traced hValue hTraces).bind fun r b2 _ hAdv2 => ?_
  refine hAdv2.steady.emitted.bind fun br b3 ⟨hBr, hb3⟩ hAdv3 => ?_
  have hArms : ∀ j, j < (cs.flatMap (·.values)).length → b3.Patchable ⟨br, some j⟩ := fun j hj => by
    subst hBr hb3
    exact patchable_emitted fun i hi => by cases hi; rwa [length_map]
  have hDefault : b3.Patchable ⟨br, none⟩ := by
    subst hBr hb3
    exact patchable_emitted nofun
  refine (openTarget_keeps hAdv3.steady).bind fun _ b4 _ hAdv4 => ?_
  refine (cases_proceed hBodies hAnchored hs hAdv4.steady (fun j hLt => hAdv4.onward.patchable _ (hArms j (by omega)))
    (hAdv4.onward.patchable _ hDefault)).bind fun s5 b5 hs5 hAdv5 => ?_
  refine (closeTarget_proceeds hAdv5.steady).bind fun t b6 ht hAdv6 => ?_
  refine hAdv6.steady.region.bind fun exit b7 hExit hAdv7 => ?_
  have hOn7 := hAdv4.onward.trans (hAdv5.onward.trans (hAdv6.onward.trans hAdv7.onward))
  refine .when hAdv7.steady (fun _ => hAdv7.steady.patch (hOn7.patchable _ hDefault) hExit) fun b8 hAdv8 => ?_
  have ht8 : ∀ e ∈ t.edges, b8.Patchable e := fun e he => (hAdv7.onward.trans hAdv8.onward).patchable e (ht e he)
  refine (hAdv8.steady.patchAll (fun e he => ht8 e (by simp [JumpTarget.edges, he])) (hAdv8.onward.region _ hExit)).bind
    fun _ b9 _ hAdv9 => ?_
  refine (hAdv9.steady.patchAll (fun e he => hAdv9.onward.patchable _ (ht8 e (by simp [JumpTarget.edges, he])))
    ((hAdv8.onward.trans hAdv9.onward).region _ hExit)).bind fun _ b10 _ hAdv10 => ?_
  exact .pure hAdv10.steady hs5

theorem defer_works {x : Stmt} (hx : x.Works outs) : (defer x).Works outs := by
  intro n hAnchored s b k hs hb
  refine unlessDead_proceeds hs hb ?_
  cases n with
  | zero => cases hAnchored
  | succ n =>
    refine .pure hb ⟨hs.1, fun d hd => ?_⟩
    rcases mem_append.mp hd with hOld | hNew
    · exact hs.2 d hOld
    · rw [mem_singleton.mp hNew]
      exact hx n hAnchored

/-- A statement that leaves the scopes alone. -/
theorem works_of_keeps {x : Stmt} {α : Type} {code : Build α} (hCode : ∀ {b k}, b.Steady outs k → Keeps outs k code b)
    (hx : ∀ n s, stmt x n s = unlessDead s (code >>= fun _ => pure s)) : x.Works outs := fun n _ s b k hs hb => by
  rw [hx]
  exact unlessDead_proceeds hs hb ((hCode hb).bind fun _ _ _ hAdv => .pure hAdv.steady hs)

/-- Both sides of an assignment. -/
theorem operands_work {op : Option BinaryOp} {lhs rhs : List Expr} {ts us : List Ty} (hLhs : Forall₂ Expr.Typed lhs ts)
    (hRhs : Forall₂ Expr.Typed rhs us) (hSpares : (assign op lhs rhs).spares = true) :
    Forall₂ Expr.Works lhs ts ∧ Forall₂ Expr.Works rhs us ∧ (rhs.length = 1 ∨ rhs.all (!·.isVacant) = true) := by
  obtain ⟨⟨hLeft, hRight⟩, hThere⟩ := by simpa only [spares, Bool.and_eq_true, Bool.or_eq_true, beq_iff_eq] using hSpares
  exact ⟨works_of_forall₂ hLhs hLeft, works_of_forall₂ hRhs hRight, hThere⟩

/-- **Typed statements are lowered or rejected.** -/
theorem Typed.works {x : Stmt} (hTyped : x.Typed outs) (hSpares : x.spares = true) : x.Works outs := by
  -- each case splits `spares` among its parts; the lemma of the statement does the rest
  induction hTyped with
  | absent => exact fun n _ s b k hs hb => unlessDead_proceeds hs hb .reject
  | @block l _ ih =>
    rw [spares, allSpare_iff] at hSpares
    exact fun n hAnchored s b k hs hb => block_proceeds (fun x hx => ih x hx (hSpares x hx)) hAnchored hs hb
  | @expr x t hx =>
    refine works_of_keeps (fun hb => ?_) fun _ _ => rfl
    exact (hb.traced ((hx.works hSpares).expr hb.apt) expr_traces).bind fun _ _ _ hAdv => .pure hAdv.steady trivial
  | @decl v init hPlain hInit =>
    exact works_of_keeps (declare_keeps hPlain (hInit.imp_right (·.works hSpares))) fun _ _ => rfl
  | @assign lhs rhs ts us hLhs hRhs hSame hCall =>
    obtain ⟨hLeft, hRight, hThere⟩ := operands_work hLhs hRhs hSpares
    exact works_of_keeps (fun hb => hb.traced (assign_safe hLeft hRight hb.apt hSame hThere hCall) assign_traces)
      fun _ _ => rfl
  | @compound op lhs rhs ts us hLhs hRhs hTargets hValues =>
    obtain ⟨hLeft, hRight, -⟩ := operands_work hLhs hRhs hSpares
    exact works_of_keeps (fun hb => hb.traced (compound_safe hLeft hRight hb.apt op hTargets hValues) compound_traces)
      fun _ _ => rfl
  | @cond test yes no hTest _ _ ihYes ihNo =>
    simp only [spares, Bool.and_eq_true, allSpare_iff] at hSpares
    exact cond_works (hTest.works hSpares.1.1) (fun x hx => ihYes x hx (hSpares.1.2 x hx)) (ihNo hSpares.2)
  | @loop init test post body _ hTest _ _ ihInit ihPost ihBody =>
    simp only [spares, Bool.and_eq_true, allSpare_iff] at hSpares
    exact loop_works (ihInit hSpares.1.1.1) (hTest.imp_right (·.works hSpares.1.1.2)) (ihPost hSpares.1.2)
      fun x hx => ihBody x hx (hSpares.2 x hx)
  | @whileDo test body hTest _ ih =>
    simp only [spares, Bool.and_eq_true, allSpare_iff] at hSpares
    exact whileDo_works (hTest.works hSpares.1) fun x hx => ih x hx (hSpares.2 x hx)
  | @doWhile test body hTest _ ih =>
    simp only [spares, Bool.and_eq_true, allSpare_iff] at hSpares
    exact doWhile_works (hTest.works hSpares.1) fun x hx => ih x hx (hSpares.2 x hx)
  | @switch tag t cs hTag hScalar _ ih =>
    simp only [spares, Bool.and_eq_true, casesSpare_iff] at hSpares
    exact switch_works (hTag.works hSpares.1) hScalar fun c hc x hx => ih c hc x hx (hSpares.2 c hc x hx)
  | breakOut =>
    intro n _ s b k hs hb
    refine unlessDead_proceeds hs hb (.read ?_)
    -- a jump without a target is rejected
    cases b.targets.find? fun t => t.isLoop || !false with
    | none => exact .reject
    | some t => exact jumpOut_proceeds hs hb (collects_break : Collects false _)
  | continueLoop =>
    intro n _ s b k hs hb
    refine unlessDead_proceeds hs hb (.read ?_)
    cases b.targets.find? fun t => t.isLoop || !true with
    | none => exact .reject
    | some t => exact jumpOut_proceeds hs hb collects_continue
  | fallthrough =>
    intro n _ s b k hs hb
    refine unlessDead_proceeds hs hb (.read ?_)
    cases b.targets.find? fun t => t.isLoop || !false with
    | none => exact .reject
    | some t => exact .when hb (fun _ => .reject) fun b1 hAdv => jumpOut_proceeds hs hAdv.steady collects_fall
  | ret hTyped hSame hCall =>
    exact fun n _ s b k hs hb => unlessDead_proceeds hs hb
      (returnStmt_proceeds (works_of_forall₂ hTyped hSpares) hSame hCall hs hb)
  | defer _ ih => exact defer_works (ih hSpares)

end Stmt

end Comptime
