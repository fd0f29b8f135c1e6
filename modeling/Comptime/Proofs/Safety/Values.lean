import Comptime.Proofs.Lowering.Assignments
import Comptime.Proofs.Typing

/-!
# Values are used without aborting

`Completes` says of a computation of the builder that it ends in a given way or fails, but does not abort. A value that has
its type (`Value.Fits`) can be put into a register or into memory, if such a value takes room. Jumps are only ever patched
to regions; `Onward` says that what is a region or has a target to be patched stays so.
-/

namespace Comptime

open Builder Comptime.Stream Value

variable {b' b : Builder} {x : Instr} {y h m : Nat} {q : Pending}

/-- A builder in which expressions can be lowered. -/
structure Builder.Apt (b : Builder) : Prop where
  sound : b.Sound
  regular : Convention.Regular b.config.direct

theorem Builder.Apt.lowered {U : Set Spot} (hb : b.Apt) (hLow : Lowered U b b') : b'.Apt :=
  ⟨hLow.sound, by rw [hLow.grows.config]; exact hb.regular⟩

/-! ## Computations that do not abort -/

namespace Build

/-- A computation that ends as `Q` says, or fails, but does not abort. -/
def Completes {α : Type} (x : Build α) (b : Builder) (Q : α → Builder → Prop) : Prop :=
  match x b with
  | .ok a b' => Q a b'
  | .error (.failed _) _ => True
  | .error (.aborted _) _ => False

/-- A computation that does not abort. -/
abbrev Answers {α : Type} (x : Build α) (b : Builder) : Prop := Completes x b fun _ _ => True

namespace Completes

variable {α β : Type} {x : Build α} {k : α → Build β} {b : Builder} {Q : α → Builder → Prop} {R : β → Builder → Prop}
variable {a : α}

theorem of_ok (hRun : x b = .ok a b') (hQ : Q a b') : Completes x b Q := by
  rw [Completes, hRun]
  exact hQ

theorem bind (hx : Completes x b Q) (hk : ∀ a b1, x b = .ok a b1 → Q a b1 → Completes (k a) b1 R) :
    Completes (x >>= k) b R := by
  rw [Completes, bind_apply]
  rw [Completes] at hx
  cases hRun : x b with
  | ok a b1 =>
    rw [hRun] at hx
    exact hk a b1 hRun hx
  | error e b1 =>
    rw [hRun] at hx
    cases e with
    | failed f => trivial
    | aborted w => exact hx

theorem imp {P : α → Builder → Prop} (hx : Completes x b Q) (h : ∀ a b1, x b = .ok a b1 → Q a b1 → P a b1) :
    Completes x b P := by
  rw [← bind_pure x]
  exact hx.bind h

theorem safe (hx : Completes x b Q) : Answers x b := hx.imp fun _ _ _ _ => trivial

theorem pure (hQ : Q a b) : Completes (Pure.pure a) b Q := hQ

theorem reject {r : Rejection} : Completes (reject r : Build α) b Q := trivial

theorem reject_bind {r : Rejection} : Completes ((Build.reject r : Build α) >>= k) b R := trivial

/-- What lowering takes for granted is there. -/
theorem demand {o : Option α} (ha : o = some a) (hk : Completes (k a) b R) : Completes (orFault o >>= k) b R := by
  subst ha
  exact hk

theorem discard (hx : Completes x b Q) : Completes (Functor.discard x) b fun _ b' => ∃ a, Q a b' :=
  bind (k := fun _ => Pure.pure ()) hx fun a _ _ hQ => pure ⟨a, hQ⟩

theorem read {k : Builder → Build β} (hk : Completes (k b) b R) : Completes (get >>= k) b R := hk

theorem write {f : Builder → Builder} {k : PUnit → Build β} (hk : Completes (k ⟨⟩) (f b) R) :
    Completes (modify f >>= k) b R := hk

/-- A step that is only taken if `p` holds. -/
theorem when {p : Prop} [Decidable p] {x : Build Unit} {k : Unit → Build β} {Q : Builder → Prop}
    (hx : p → Completes x b fun _ => Q) (hNot : ¬ p → Q b) (hk : ∀ b1, Q b1 → Completes (k ()) b1 R) :
    Completes (if p then x >>= k else k ()) b R := by
  split
  · next hp => exact (hx hp).bind fun _ b1 _ hQ => hk b1 hQ
  · next hp => exact hk b (hNot hp)

/-- One of two steps. -/
theorem either {p : Prop} [Decidable p] {y : Build α} (hx : p → Completes x b Q) (hy : ¬ p → Completes y b Q)
    (hk : ∀ a b1, Q a b1 → Completes (k a) b1 R) : Completes (if p then x >>= k else y >>= k) b R := by
  split
  · next hp => exact (hx hp).bind fun a b1 _ hQ => hk a b1 hQ
  · next hp => exact (hy hp).bind fun a b1 _ hQ => hk a b1 hQ

/-- Lowering whose code has a shape. -/
theorem traced {κ : Kind α} {U : Set Spot} {X : Builder → Shape α} (hx : Completes x b Q) (hb : b.Apt)
    (hT : Traces κ U b x X) :
    Completes x b fun a b' => b'.Apt ∧ Lowered U b b' ∧ κ.static a b' ∧ Q a b' :=
  hx.imp fun a b' hRun hQ => by
    obtain ⟨hLow, -, hStatic, -⟩ := hT hb.sound a b' hRun
    exact ⟨hb.lowered hLow, hLow, hStatic, hQ⟩

end Completes

end Build

open Build

namespace Builder

variable {b b' b'' : Builder}
variable {e : Edge} {t : Nat}

/-! ## Patching -/

/-- Regions stay regions, and what can be patched can be patched later. -/
structure Onward (b b' : Builder) : Prop where
  patchable : ∀ e, b.Patchable e → b'.Patchable e
  region : ∀ h, b.IsRegion h → b'.IsRegion h

namespace Onward

theorem refl : Onward b b := ⟨fun _ h => h, fun _ h => h⟩

theorem trans (h : Onward b b') (h' : Onward b' b'') : Onward b b'' :=
  ⟨fun e he => h'.patchable e (h.patchable e he), fun r hr => h'.region r (h.region r hr)⟩

theorem of_code (hLe : b.handles ≤ b'.handles) (hCode : ∀ h < b.handles, b'.code h = b.code h) : Onward b b' where
  patchable e he := by
    obtain ⟨hLt, test, arms, default, hBranch, hArm⟩ := he
    exact ⟨hLt.trans_le hLe, test, arms, default, (hCode _ hLt).trans hBranch, hArm⟩
  region h hh := ⟨hh.lt.trans_le hLe, (hCode h hh.lt).trans hh.code⟩

theorem emitted : Onward b (b.emitted x) :=
  of_code (by rw [handles_emitted]; omega) fun h hLt => by rw [code_emitted, if_neg (Nat.ne_of_lt hLt)]

theorem patched : Onward b (b.patched e t) where
  patchable e' he' := by
    obtain ⟨hLt, test, arms, default, hBranch, hArm⟩ := he'
    refine ⟨by rwa [handles_patched], ?_⟩
    rw [code_patched]
    split
    · rw [hBranch]
      cases hSome : e.arm with
      | none => exact ⟨test, arms, t, rfl, hArm⟩
      | some i =>
        refine ⟨test, arms.modify i fun a => { a with target := t }, default, rfl, fun j hj => ?_⟩
        rw [List.length_modify]
        exact hArm j hj
    · exact ⟨_, _, _, hBranch, hArm⟩
  region h hh := by
    refine ⟨by rw [handles_patched]; exact hh.lt, ?_⟩
    rw [code_patched]
    split
    · rw [hh.code]
      rfl
    · exact hh.code

end Onward

/-- Lowering in place that leaves the code that is there. -/
theorem Lowered.onward {U : Set Spot} (hLow : Lowered U b b') (hU : ∀ h, .code h ∉ U) : Onward b b' :=
  .of_code hLow.grows.handles fun h hLt => hLow.grows.code h hLt fun hIn =>
    hIn.elim (hU h) fun ⟨_, _, hEq⟩ => by cases hEq

theorem isRegion_emitted : (b.emitted .region).IsRegion b.handles :=
  ⟨by rw [handles_emitted]; omega, by rw [code_emitted, if_pos rfl]⟩

theorem patchable_emitted {test : Reg} {arms : List Arm} {default : Handle} {arm : Option Nat}
    (hArm : ∀ i, arm = some i → i < arms.length) : (b.emitted (.branch test arms default)).Patchable ⟨b.handles, arm⟩ :=
  ⟨by rw [handles_emitted]; exact Nat.lt_succ_self _, test, arms, default, by rw [code_emitted, if_pos rfl], hArm⟩

/-- The jump that leaves a path can be led elsewhere. -/
theorem Leaves.patchable (hb : b.Sound) (hL : b.Leaves y h m) : b.Patchable ⟨h, none⟩ :=
  ⟨hb.lt_of_mem_front hL.mem_front, noReg, [], m, hL.code, nofun⟩

theorem patch_completes (he : b.Patchable e) (ht : b.IsRegion t) :
    Completes (patch e t) b fun _ b' => b' = b.patched e t := .of_ok (patch_eq he ht) rfl

/-! ## Instructions -/

theorem emit_completes : Completes (emit x) b fun h b' => h = b.handles ∧ b' = b.emitted x :=
  .of_ok emit_eq ⟨rfl, rfl⟩

theorem instr_safe : Answers (discard (emit x)) b := emit_completes.discard.safe

theorem define_safe {x : Reg → Instr} : Answers (define x) b :=
  .bind (x := allocReg) (Q := fun _ _ => True) trivial fun _ _ _ _ => instr_safe.bind fun _ _ _ _ => .pure trivial

theorem call_safe {t : RegType} {target : Reg} {args : List Reg} : Answers (call t target args) b := by
  unfold call
  split
  · exact instr_safe.bind fun _ _ _ _ => .pure trivial
  · exact define_safe (x := (.call t · target args))

theorem need_safe {s : Symbol} : Answers (need s) b := by
  refine .read ?_
  cases hReady : b.config.ready with
  | none => exact .pure trivial
  | some ready =>
    refine .write ?_
    cases ready s .sizeComputed with
    | none => exact .pure trivial
    | some f => trivial

theorem modifyStream_completes {f : Stream → Except Misuse Stream} {s : Stream} (hRun : f b.stream = .ok s) :
    Completes (modifyStream f) b fun _ b' => b' = { b with stream := s } := .of_ok (modifyStream_eq hRun) rfl

theorem reserve_safe {e : Extent} (hb : b.Sound) : Answers (reserve e) b := by
  obtain ⟨s, -, -, -, -, hRun⟩ := reserve_run (e := e) hb
  exact .of_ok hRun trivial

/-- Lowering in front of the jump that leaves a path. -/
theorem insertBefore_completes {α : Type} {x : Build α} {Q : α → Builder → Prop} (hb : b.Sound) (hL : b.Leaves y h m)
    (hx : Completes x (b.opened h) fun a b2 => Lowered ∅ (b.opened h) b2 ∧ Q a b2) :
    Completes (insertBefore h x) b fun a b' => ∃ b2, Q a b2 ∧ Onward b2 b' := by
  obtain ⟨xs, ys, hFront⟩ := hL.gap
  have hSplit : b.front = (xs ++ [y]) ++ h :: ys := by rw [hFront]; simp
  have hLayout : b.stream.layout = (b.setup ++ (xs ++ [y])) ++ h :: (ys ++ b.rest) := by
    rw [← setup_append_body, ← front_append_rest, hSplit]
    simp
  obtain ⟨s, hOpen, -⟩ := hb.stream.openBefore hLayout
  refine (modifyStream_completes hOpen).bind fun _ b1 _ hb1 => ?_
  rw [openBefore_eq hOpen] at hb1
  subst hb1
  refine .read (.write ?_)
  refine hx.bind fun a b2 _ hQ => ?_
  have hTop : b2.stream.anchors = h :: b.stream.anchors := hQ.1.anchors
  have hOther : h ∉ b.stream.anchors := hb.notMem_anchors hL.mem_front
  obtain ⟨s', hCommit, -, -, hCode, -⟩ := hQ.1.sound.stream.commit hTop hOther
  refine (modifyStream_completes (f := (·.commit?)) hCommit).bind fun _ b3 _ hb3 => ?_
  subst hb3
  refine ⟨b2, hQ.2, .of_code ?_ fun k _ => ?_⟩
  · exact (congrArg Array.size hCode).ge
  · exact congrArg (fun c => Array.getD c k .hole) hCode

/-! ## Branches -/

theorem branchFalse_completes {test : Reg} :
    Completes (branchFalse test) b fun r b' => b'.IsRegion r.1 ∧ b'.Patchable r.2 ∧ Onward b b' := by
  refine emit_completes.bind fun br b1 _ hEmit => ?_
  obtain ⟨rfl, rfl⟩ := hEmit
  refine emit_completes.bind fun yes b2 _ hEmit => ?_
  obtain ⟨rfl, rfl⟩ := hEmit
  have hBranch : (b.emitted (.branch test [⟨0, noHandle⟩] noHandle)).Patchable ⟨b.handles, none⟩ := patchable_emitted nofun
  have hEdge : (b.emitted (.branch test [⟨0, noHandle⟩] noHandle)).Patchable ⟨b.handles, some 0⟩ :=
    patchable_emitted fun i hi => by cases hi; exact Nat.zero_lt_one
  refine (patch_completes (Onward.emitted.patchable _ hBranch) isRegion_emitted).bind fun _ b3 _ hPatch => ?_
  subst hPatch
  exact ⟨Onward.patched.region _ isRegion_emitted, (Onward.emitted.trans .patched).patchable _ hEdge,
    (Onward.emitted.trans .emitted).trans .patched⟩

theorem jump_completes : Completes jump b fun e b' => b'.Patchable e ∧ Onward b b' := by
  refine emit_completes.bind fun h b1 _ hEmit => ?_
  obtain ⟨rfl, rfl⟩ := hEmit
  exact ⟨patchable_emitted nofun, .emitted⟩

theorem region_completes : Completes region b fun h b' => b'.IsRegion h ∧ Onward b b' := by
  refine emit_completes.imp fun h b1 _ hEmit => ?_
  obtain ⟨rfl, rfl⟩ := hEmit
  exact ⟨isRegion_emitted, .emitted⟩

theorem patch_onward (he : b.Patchable e) (ht : b.IsRegion t) : Completes (patch e t) b fun _ b' => Onward b b' :=
  (patch_completes he ht).imp fun _ _ _ hEq => hEq ▸ .patched

end Builder

/-- The paths of a pending value start at regions and meet at one. -/
structure Pending.Joined (q : Pending) (b : Builder) : Prop where
  onTrue : b.IsRegion q.onTrue
  onFalse : b.IsRegion q.onFalse
  merge : b.IsRegion q.merge

theorem Pending.Joined.onward (h : q.Joined b) (hOn : Onward b b') : q.Joined b' :=
  ⟨hOn.region _ h.onTrue, hOn.region _ h.onFalse, hOn.region _ h.merge⟩

/-- Code is put on one path. -/
theorem Pending.Joined.restart (and : Bool) (h : q.Joined b) (hOn : Onward b b') (hy : b'.IsRegion y) :
    (q.restart and y).Joined b' := by
  have h' := h.onward hOn
  cases and with
  | true => exact ⟨hy, h'.onFalse, h'.merge⟩
  | false => exact ⟨h'.onTrue, hy, h'.merge⟩

/-- What is known of a value of type `t`. -/
def Value.Fits (t : Ty) : Value → Prop
  | none _ => t.size? = some 0
  | place u _ => u = t
  | reg u _ => u = t ∧ t.Carried
  | pending u _ => u = t ∧ t = .bool

def Value.Joined (b : Builder) : Value → Prop
  | pending _ q => q.Joined b
  | _ => True

def Value.isNone : Value → Bool
  | none _ => true
  | _ => false

theorem Value.Settled.joined {v : Value} (hv : v.Settled) : v.Joined b := by
  cases v with
  | pending => exact hv.elim
  | _ => trivial

/-- A value that takes room is there. -/
theorem Value.Fits.isNone_eq {v : Value} {t : Ty} (hFits : v.Fits t) (hRoom : t.size? ≠ some 0) : v.isNone = false := by
  cases v with
  | none => exact absurd hFits hRoom
  | _ => rfl

namespace Builder

variable {b : Builder} {v : Value} {t : Ty}

theorem startPending_completes {r : Reg} : Completes (startPending r) b fun q b' => q.Joined b' := by
  refine branchFalse_completes.bind fun p b1 _ h1 => ?_
  refine jump_completes.bind fun leaveTrue b2 _ h2 => ?_
  refine region_completes.bind fun onFalse b3 _ h3 => ?_
  refine jump_completes.bind fun leaveFalse b4 _ h4 => ?_
  refine region_completes.bind fun merge b5 _ h5 => ?_
  have hOn2 := h3.2.trans (h4.2.trans h5.2)
  have hOn1 := h2.2.trans hOn2
  have hJoined : (⟨p.1, onFalse, leaveTrue.branch, leaveFalse.branch, merge⟩ : Pending).Joined b5 :=
    ⟨hOn1.region _ h1.1, (h4.2.trans h5.2).region _ h3.1, h5.1⟩
  refine (patch_onward (hOn1.patchable _ h1.2.1) hJoined.onFalse).bind fun _ b6 _ h6 => ?_
  refine (patch_onward ((hOn2.trans h6).patchable _ h2.1) (h6.region _ h5.1)).bind fun _ b7 _ h7 => ?_
  refine (patch_onward ((h5.2.trans (h6.trans h7)).patchable _ h4.1) ((h6.trans h7).region _ h5.1)).bind fun _ b8 _ h8 => ?_
  exact hJoined.onward (h6.trans (h7.trans h8))

/-! ## Values -/

theorem insert_safe (hb : b.Sound) (hx : x.isPlain = true) (hL : b.Leaves y h m) :
    Answers (insertBefore h (discard (emit x))) b :=
  (insertBefore_completes (Q := fun _ _ => True) hb hL (instr_safe.imp fun _ _ hRun _ =>
    ⟨(emit_traces hx (hL.opened hb).1 _ _ hRun).1, trivial⟩)).safe

theorem materialize_safe (hb : b.Apt) (hq : q.Open b) : Answers (materialize q) b := by
  refine (Completes.traced (x := allocReg) (Q := fun _ _ => True) trivial hb allocReg_traces).bind
    fun dst b1 _ ⟨hb1, hLow1, _⟩ => ?_
  have hq1 := hq.lowered hb.sound hLow1 fun _ _ => Set.notMem_empty _
  refine (insert_safe hb1.sound rfl hq1.onTrue).bind fun _ b2 hRun _ => ?_
  obtain ⟨-, -, -, hLow2, -⟩ := insertBefore_traces hb1.sound hq1.onTrue (emit_traces rfl) hRun
  have hL := hq1.onFalse.insert_ne hb1.sound hLow2 hq.ne.symm
  exact (insert_safe hLow2.sound rfl hL).bind fun _ _ _ _ => trivial

theorem value_completes (hb : b.Apt) (hv : v.Open b) (hFits : v.Fits t) (hCarried : t.Carried) :
    Completes (value v) b fun _ b' => b'.Apt ∧ Lowered v.spots b b' := by
  have hSafe : Answers (value v) b := by
    cases v with
    | none u => exact absurd hFits hCarried.size
    | reg u r => trivial
    | pending u q => exact materialize_safe hb hv
    | place u addr =>
      obtain rfl : u = t := hFits
      obtain ⟨rt, hReg, hVoid⟩ := hCarried.reg
      obtain ⟨e, hExtent⟩ := hCarried.extent
      refine .demand hReg ?_
      rw [if_neg hVoid]
      exact .demand hExtent define_safe
  exact (hSafe.traced hb (value_traces hv)).imp fun _ _ _ h => ⟨h.1, h.2.1⟩

theorem toPending_completes (hb : b.Apt) (hv : v.Fresh b) (hJoined : v.Joined b) (hFits : v.Fits .bool) :
    Completes (toPending v) b fun q b' => q.Joined b' := by
  have hStart : Completes (value v >>= startPending) b fun q b' => q.Joined b' :=
    (value_completes hb hv.open hFits .bool).bind fun _ _ _ _ => startPending_completes
  cases v with
  | pending u q => exact hJoined
  | _ => exact hStart

theorem reserve_completes {e : Extent} (hb : b.Apt) : Completes (reserve e) b fun _ b' => b'.Apt ∧ Lowered ∅ b b' :=
  ((reserve_safe hb.sound).traced hb reserve_traces).imp fun _ _ _ h => ⟨h.1, h.2.1⟩

theorem address_completes (hb : b.Apt) (hv : v.Open b) (hFits : v.Fits t) (hNone : v.isNone = false) :
    Completes (address v) b fun _ b' => b'.Apt := by
  have hSpill : v.ty = t → t.Carried → Answers (do
      let r ← value v
      let e ← extent v.ty
      let tmp ← reserve e
      store (← regType v.ty) tmp r e.align
      return tmp) b := fun hTy hCarried => by
    rw [hTy]
    obtain ⟨rt, hReg, -⟩ := hCarried.reg
    obtain ⟨e, hExtent⟩ := hCarried.extent
    refine (value_completes hb hv hFits hCarried).bind fun r b1 _ ⟨hb1, _⟩ => ?_
    refine .demand hExtent ((reserve_safe hb1.sound).bind fun tmp b2 _ _ => .demand hReg ?_)
    exact instr_safe.bind fun _ _ _ _ => trivial
  have hSafe : Answers (address v) b := by
    cases v with
    | none u => cases hNone
    | place u addr => trivial
    | reg u r => exact hSpill hFits.1 hFits.2
    | pending u q => exact hSpill hFits.1 (hFits.2 ▸ .bool)
  exact (hSafe.traced hb (address_traces hv)).imp fun _ _ _ h => h.1

theorem assignTo_completes {dst : Reg} (hb : b.Apt) (hv : v.Open b) (hFits : v.Fits t) (hPlain : t.Plain) :
    Completes (assignTo dst t v) b fun _ b' => b'.Apt ∧ Lowered v.spots b b' := by
  have hSafe : Answers (assignTo dst t v) b := by
    obtain ⟨e, hExtent⟩ := t.exists_extent hPlain.given
    refine .demand hExtent ?_
    by_cases hSize : e.size = 0
    · rw [if_pos hSize]
      trivial
    rw [if_neg hSize]
    have hRoom : t.size? ≠ some 0 := by
      rw [Ty.size?, hExtent]
      exact fun h => hSize (Option.some.inj h)
    have hStore : t.Carried → Answers (do
        let rt ← regType t
        if rt = .void then bug ("store " ++ t.name ++ " from a register")
        store rt dst (← value v) e.align) b := fun hCarried => by
      obtain ⟨rt, hReg, hVoid⟩ := hCarried.reg
      refine .demand hReg ?_
      rw [if_neg hVoid]
      exact (value_completes hb hv hFits hCarried).bind fun _ _ _ _ => instr_safe
    cases hScalar : t.isScalar with
    | true => exact hStore (hPlain.carried hScalar)
    | false =>
      cases v with
      | none u => exact absurd hFits hRoom
      | place u src => exact instr_safe
      | reg u r => exact hStore hFits.2
      | pending u q => exact hStore (hFits.2 ▸ .bool)
  exact (hSafe.traced hb (assignTo_traces hv)).imp fun _ _ _ h => ⟨h.1, h.2.1⟩

theorem zero_safe {dst : Reg} (hPlain : t.Plain) : Answers (zero dst t) b := by
  obtain ⟨e, hExtent⟩ := t.exists_extent hPlain.given
  refine .demand hExtent ?_
  by_cases hSize : e.size = 0
  · rw [if_pos hSize]
    trivial
  rw [if_neg hSize]
  obtain ⟨rt, hReg⟩ := Ty.exists_regType hPlain.given
  cases t.isScalar with
  | true => exact .demand hReg (define_safe.bind fun _ _ _ _ => instr_safe)
  | false => exact define_safe.bind fun _ _ _ _ => instr_safe

theorem detach_completes (hb : b.Apt) (hv : v.Open b) (hFits : v.Fits t) (hNone : v.isNone = false) (hPlain : t.Plain) :
    Completes (detach v) b fun w b' => b'.Apt ∧ w.Fits t := by
  have hHold : v.ty = t → t.Carried → Completes (do return reg v.ty (← value v)) b fun w _ => w.Fits t :=
    fun hTy hCarried =>
    (value_completes hb hv hFits hCarried).bind fun _ _ _ _ => ⟨hTy, hCarried⟩
  have hFit : Completes (detach v) b fun w _ => w.Fits t := by
    cases v with
    | none u => cases hNone
    | reg u r => exact hHold hFits.1 hFits.2
    | pending u q => exact hHold hFits.1 (hFits.2 ▸ .bool)
    | place u src =>
      obtain rfl : u = t := hFits
      obtain ⟨rt, hReg⟩ := Ty.exists_regType hPlain.given
      obtain ⟨e, hExtent⟩ := u.exists_extent hPlain.given
      refine .demand hReg ?_
      by_cases hHeld : (u.isScalar || rt != .void) = true
      · rw [if_pos hHeld]
        refine hHold rfl ?_
        cases hScalar : u.isScalar with
        | true => exact hPlain.carried hScalar
        | false =>
          rw [hScalar, Bool.false_or, bne_iff_ne] at hHeld
          refine ⟨fun hSize => hHeld ?_, rt, hReg, hHeld⟩
          cases u with
          | bool | float _ | ptr _ | func _ _ => cases hScalar
          | _ =>
            simp only [Ty.regType?, hSize, Option.map_some, Option.some.injEq] at hReg
            exact hReg.symm
      · rw [if_neg hHeld]
        refine .demand hExtent ((reserve_safe hb.sound).bind fun tmp b1 _ _ => ?_)
        exact instr_safe.bind fun _ _ _ _ => rfl
  exact (hFit.traced hb (detach_traces hv)).imp fun _ _ _ h => ⟨h.1, h.2.2.2⟩

end Builder

end Comptime
