import Comptime.Proofs.Lowering.WellFormed
import Comptime.Proofs.Safety.Statements
import Mathlib

/-!
# Procedures are lowered or rejected

A typed procedure is entered without trouble, its body is lowered or rejected, and what was lowered can be frozen, as every
branch has got its targets. So its build gives code or says what is wrong (`build_never_aborts`).
-/

namespace Comptime

open Builder Build List Stmt Convention

namespace Builder

variable {b : Builder}

/-! ## The entry -/

/-- Nothing is in the body yet. -/
structure AtEntry (b : Builder) : Prop where
  anchor : b.anchor = none
  entering : b.entering = true

theorem AtEntry.reserve {e : Extent} (hb : b.AtEntry) : Completes (reserve e) b fun _ b' => b'.AtEntry := by
  rw [Completes, reserve_eq, ← Completes]
  have hb0 : AtEntry { b with regs := b.regs.allocPermanent.1 } := ⟨hb.anchor, hb.entering⟩
  generalize ({ b with regs := b.regs.allocPermanent.1 } : Builder) = b0 at hb0 ⊢
  rw [hb.anchor]
  have hEmit : Completes (discard (emitRaw (b.reservation e))) b0 fun _ b' => ∃ _ : Nat, b'.AtEntry :=
    (Completes.of_ok emitRaw_eq ⟨hb0.anchor, hb0.entering⟩).discard
  refine hEmit.bind ?_
  rintro _ _ _ ⟨_, hb'⟩
  exact .pure hb'

theorem AtEntry.store {t : RegType} {addr val : Reg} {align : Int64} (hb : b.AtEntry) :
    Completes (store t addr val align) b fun _ b' => b'.AtEntry := by
  refine emit_completes.discard.imp fun _ b' _ ⟨_, _, hEq⟩ => ?_
  subst hEq
  rw [emitted, hb.anchor, hb.entering]
  exact ⟨rfl, rfl⟩

theorem AtEntry.enterParams {r : Nat} {ps : List Param} {vs : List Variable} (hb : b.AtEntry)
    (hps : ∀ p ∈ ps, p.ty.isGiven = true) : Answers (enterParams r ps vs) b := by
  induction ps generalizing r vs b with
  | nil => exact .pure trivial
  | cons p ps ih =>
    obtain ⟨hp, hps⟩ := forall_mem_cons.mp hps
    obtain ⟨e, he⟩ := p.ty.exists_extent hp
    rw [Build.enterParams]
    cases p.rule with
    | ignore =>
      cases vs.head? with
      | none => exact ih hb hps
      | some v => exact .demand he (hb.reserve.bind fun slot b1 _ hb1 => .write (ih ⟨hb1.anchor, hb1.entering⟩ hps))
    | direct =>
      cases vs.head? with
      | none => exact ih hb hps
      | some v =>
        refine .demand he (hb.reserve.bind fun slot b1 _ hb1 => ?_)
        exact hb1.store.bind fun _ b2 _ hb2 => .write (ih ⟨hb2.anchor, hb2.entering⟩ hps)
    | indirect =>
      cases vs.head? with
      | none => exact .write (ih ⟨hb.anchor, hb.entering⟩ hps)
      | some v => exact .write (.write (ih ⟨hb.anchor, hb.entering⟩ hps))

theorem AtEntry.keepOuts {r : Nat} {hs : List Hidden} (hb : b.AtEntry) :
    Completes (keepOuts r hs) b fun _ b' => b'.AtEntry := by
  induction hs generalizing r b with
  | nil => exact .pure hb
  | cons h hs ih => exact .write (ih ⟨hb.anchor, hb.entering⟩)

variable {config : Config} {sig : Sig} {params : List Variable} {ins outs : List Ty}

theorem enter_completes (hSig : sig? config.direct ins outs = some sig) (hIns : ∀ t ∈ ins, t.Plain)
    (hRegular : Regular config.direct) :
    Completes (enter params) { config, sig } fun _ b' => Entered config sig params b' := by
  have hParams : ∀ p ∈ sig.params, p.ty.isGiven = true := fun p hp => by
    obtain ⟨i, hi, rfl⟩ := getElem_of_mem hp
    have hAll := forall₂_of_sig hSig
    have hi' : i < ins.length := hAll.length_eq.symm ▸ hi
    have hPlain := hIns ins[i] (getElem_mem hi')
    have hTy : sig.params[i].ty = ins[i] := (classify?_spec hRegular hPlain (hAll.get _ hi)).1
    exact hTy ▸ hPlain.given
  have hSafe : Answers (enter params) { config, sig } := by
    refine .read (.write ?_)
    have hStart : AtEntry { config, sig, entering := true, regs := .ofParams sig.regParams.length } := ⟨rfl, rfl⟩
    exact hStart.keepOuts.bind fun _ b1 _ hb1 => (hb1.enterParams hParams).bind fun _ b2 _ _ => .write trivial
  exact hSafe.imp fun _ _ hRun _ => enter_entered hRun

theorem lookup_reverse_mapIdx {hs : List Hidden} {i : Nat} (hi : i ∈ hs.map (·.result)) :
    (hs.mapIdx fun i h => (h.result, (i : Reg))).reverse.lookup i ≠ none := by
  rw [Ne, lookup_eq_none_iff]
  intro hNone
  obtain ⟨h, hh, rfl⟩ := mem_map.mp hi
  obtain ⟨k, hk, rfl⟩ := getElem_of_mem hh
  have hIn : (hs[k].result, (k : Reg)) ∈ (hs.mapIdx fun i h => (h.result, (i : Reg))).reverse :=
    mem_reverse.mpr (mem_mapIdx.mpr ⟨k, hk, rfl⟩)
  exact absurd (hNone _ hIn) (by simp)

/-- Once it was entered, lowering the body of a procedure can start. -/
theorem Entered.steady (hE : Entered config sig params b) (hSig : sig? config.direct ins outs = some sig)
    (hOuts : ∀ t ∈ outs, t.Plain) (hRegular : Regular config.direct) : b.Steady outs 0 where
  closed := hE.ready.closed
  edges := by
    rw [edges, hE.targets]
    exact forall_mem_nil _
  regular := hE.config_eq ▸ hRegular
  results := by rw [hE.sig_eq, (sig?_eq_some hSig).1]
  plain := hOuts
  outlets := fun i t ht hNone hRule => by
    rw [hE.outs, Nat.zero_add] at hNone
    rw [hE.sig_eq] at hRule
    -- a result that there is no pointer for is the last one
    have hLast : i + 1 = outs.length := by
      by_contra hNot
      exact lookup_reverse_mapIdx (mem_hidden hSig ht fun h => absurd h hNot) hNone
    have hGet : outs.getLast? = some t := by rw [getLast?_eq_getElem?, ← hLast, Nat.add_sub_cancel, ht]
    exact (ret_spec hSig hOuts hRegular hGet).2 hRule
  targets := by rw [hE.targets, length_nil]

end Builder

/-! ## Builds -/

theorem Build.implicitReturn_safe {b : Builder} : Answers implicitReturn b := by
  refine .read (.either (Q := fun _ _ => True) (fun _ => .pure trivial) (fun _ => define_safe) fun _ _ _ => instr_safe)

namespace ProcDecl

variable {p : ProcDecl} {config : Config} {sig : Sig} {body : List Stmt}

theorem Typed.procedure_safe (hTyped : p.Typed) (hBody : p.body = some body)
    (hSig : sig? config.direct p.ins p.outs = some sig) (hRegular : Regular config.direct)
    (hSpares : allSpare body = true) (hAnchored : allAnchored body 1 = true) :
    Answers (procedure p body) { config, sig } := by
  -- the code is followed up to where it is frozen, where it is known to be sound
  refine (enter_completes hSig hTyped.ins hRegular).bind fun _ b1 hRun1 hE => ?_
  have hStmts : ∀ x ∈ body, x.Works p.outs := fun x hx =>
    (hTyped.body body hBody x hx).works (allSpare_iff.mp hSpares x hx)
  have hScope := scope_bears (n := 0) hStmts hAnchored (s := ()) trivial (hE.steady hSig hTyped.outs hRegular)
  refine (Completes.discard hScope).bind fun _ b2 hRun2 _ => .read ?_
  have hRun : ∀ {F}, (if !b2.dead then implicitReturn else pure ()) b2 = .ok () F →
      unfrozen p body { config, sig } = .ok () F := fun hEnd =>
    bind_eq_ok.mpr ⟨_, _, hRun1, bind_eq_ok.mpr ⟨_, _, hRun2, bind_eq_ok.mpr ⟨_, _, rfl, hEnd⟩⟩⟩
  refine .when (Q := fun F => unfrozen p body { config, sig } = .ok () F) (fun hLive => ?_) (fun hDead => ?_)
    fun F hUnfrozen => ?_
  · exact implicitReturn_safe.imp fun _ F hEnd _ => hRun (by rw [if_pos hLive]; exact hEnd)
  · exact hRun (by rw [if_neg hDead]; rfl)
  · obtain ⟨hClosed, -, hSound⟩ := unfrozen_sound (P := fun _ => true) (E := Set.univ) hUnfrozen hSig
      ⟨rfl, fun _ _ _ _ _ _ _ => Set.mem_univ _⟩ (listTypes_true body)
    have hFreeze := hClosed.freeze_ok fun i x hx => hSound.targets hx
    exact (Completes.of_ok (Q := fun _ _ => True) (onStream_eq_ok.mpr ⟨hFreeze, rfl⟩) trivial).bind fun _ _ _ _ =>
      .read (.pure trivial)

/-- **A typed procedure is built or rejected.** -/
theorem build_never_aborts (hTyped : p.Typed) (hRegular : Convention.Regular config.direct)
    (hSpares : ∀ body, p.body = some body → Stmt.allSpare body = true)
    (hAnchored : ∀ body, p.body = some body → Stmt.allAnchored body 1 = true) (w : Abort) :
    (p.build config).built ≠ .error (.aborted w) := by
  obtain ⟨sig, hSig⟩ := Convention.exists_sig config.direct (fun t ht => (hTyped.ins t ht).given)
    (fun t ht => (hTyped.outs t ht).given)
  unfold build
  cases hBody : p.body with
  | none => rintro ⟨⟩
  | some body =>
    have hSafe := hTyped.procedure_safe hBody hSig hRegular (hSpares body hBody) (hAnchored body hBody)
    rw [Answers, Completes] at hSafe
    rw [hSig]
    dsimp only [EStateM.run]
    cases hRun : procedure p body { config, sig } with
    | ok r b => rintro ⟨⟩
    | error e b =>
      rw [hRun] at hSafe
      cases e with
      | failed f => rintro ⟨⟩
      | aborted w => exact hSafe.elim

theorem typed_local {id : Nat} {name : String} {t : Ty} (ht : t.Plain) :
    Expr.Typed (.ident t (.var ⟨⟨id, name⟩, t, false⟩)) t := .var (v := ⟨⟨id, name⟩, t, false⟩) ht

/-- A type whose values take no room. -/
def blank : Ty := .struct "blank" []

/-- It assigns both results of a call, of which one takes no room, and defers a deferred statement in a block. -/
def thorough : ProcDecl :=
  let c : Variable := ⟨⟨1, "c"⟩, blank, false⟩
  let n : Variable := ⟨⟨2, "n"⟩, .int 64 true, false⟩
  let both : ProcRef := ⟨⟨3, "both"⟩, [], [blank, .int 64 true]⟩
  { id := 0
    name := "thorough"
    ins := []
    outs := [.int 64 true]
    params := []
    body := some [
      .decl c .absent,
      .decl n .absent,
      .assign none [.ident c.ty (.var c), .ident n.ty (.var n)] [.call (.int 64 true) (.ident both.ty (.proc both)) []],
      .block [.defer (.defer (.block []))],
      .ret [.ident n.ty (.var n)]] }

theorem thorough_typed : thorough.Typed where
  ins := nofun
  outs := by simpa [thorough] using ⟨rfl, rfl⟩
  body := by
    rintro body ⟨⟩
    simp only [forall_mem_cons]
    refine ⟨.decl ⟨rfl, rfl⟩ (.inl rfl), .decl ⟨rfl, rfl⟩ (.inl rfl), ?_, ?_, ?_, nofun⟩
    · refine .assign (.cons (typed_local ⟨rfl, rfl⟩) (.cons (typed_local ⟨rfl, rfl⟩) .nil))
        (.cons (.call (.proc ⟨rfl, rfl⟩) nofun rfl) .nil) nofun fun t fn args ins results hCall _ hFn => ?_
      cases hCall
      cases hFn.ty_eq
      simp [blank]
    · refine .block (forall_mem_cons.mpr ⟨.defer (.defer (.block nofun)), nofun⟩)
    · exact .ret (.cons (typed_local ⟨rfl, rfl⟩) .nil) (fun _ => rfl) nofun

theorem build_never_aborts_thorough : thorough.Typed ∧ ∀ w, (thorough.build {}).built ≠ .error (.aborted w) :=
  ⟨thorough_typed, build_never_aborts thorough_typed Convention.regular_standard (by rintro _ ⟨⟩; rfl) (by rintro _ ⟨⟩; rfl)⟩

/-- It assigns the results of two calls that leave no value. -/
def swapping : ProcDecl :=
  let a : Variable := ⟨⟨1, "a"⟩, blank, false⟩
  let b : Variable := ⟨⟨2, "b"⟩, blank, false⟩
  let make : ProcRef := ⟨⟨3, "make"⟩, [], [blank]⟩
  let made : Expr := .call blank (.ident make.ty (.proc make)) []
  { id := 0
    name := "swapping"
    ins := []
    outs := []
    params := []
    body := some [.decl a .absent, .decl b .absent, .assign none [.ident a.ty (.var a), .ident b.ty (.var b)] [made, made]] }

/-- It takes the address of what a call has not left. -/
def pointing : ProcDecl :=
  let make : ProcRef := ⟨⟨1, "make"⟩, [], [blank]⟩
  { id := 0
    name := "pointing"
    ins := []
    outs := []
    params := []
    body := some [.expr (.unary (.ptr blank) .addressOf (.call blank (.ident make.ty (.proc make)) []))] }

/-- It defers a deferred statement in its outermost scope. -/
def postponing : ProcDecl where
  id := 0
  name := "postponing"
  ins := []
  outs := []
  params := []
  body := some [.defer (.defer (.block []))]

/-- It returns its parameter, which has three bytes. -/
def passing : ProcDecl :=
  let a : Variable := ⟨⟨1, "a"⟩, .array (.int 8 false) 3, false⟩
  { id := 0
    name := "passing"
    ins := [a.ty]
    outs := [a.ty]
    params := [a]
    body := some [.ret [.ident a.ty (.var a)]] }

theorem swapping_typed : swapping.Typed where
  ins := nofun
  outs := nofun
  body := by
    rintro body ⟨⟩
    simp only [forall_mem_cons]
    refine ⟨.decl ⟨rfl, rfl⟩ (.inl rfl), .decl ⟨rfl, rfl⟩ (.inl rfl), ?_, nofun⟩
    refine .assign (.cons (typed_local ⟨rfl, rfl⟩) (.cons (typed_local ⟨rfl, rfl⟩) .nil))
      (.cons (.call (.proc ⟨rfl, rfl⟩) nofun rfl) (.cons (.call (.proc ⟨rfl, rfl⟩) nofun rfl) .nil)) (fun _ => rfl) nofun

/-- Each of them is typed, and its build aborts. -/
theorem build_aborts :
    (swapping.Typed ∧ (swapping.build {}).built = .error (.aborted (.bug "no value"))) ∧
    (pointing.Typed ∧ (pointing.build {}).built = .error (.aborted (.bug "no value"))) ∧
    (postponing.Typed ∧ (postponing.build {}).built = .error (.aborted .fault)) ∧
    (passing.Typed ∧ (passing.build { direct := fun n => n == 3 }).built =
      .error (.aborted (.bug "[3]u8 does not fit a register"))) := by
  have hNil {α : Type} {P : α → Prop} : ∀ x ∈ [], P x := forall_mem_nil _
  refine ⟨⟨swapping_typed, by cbv⟩, ⟨⟨hNil, hNil, ?_⟩, by cbv⟩, ⟨⟨hNil, hNil, ?_⟩, by cbv⟩, ⟨?_, ?_, ?_⟩, by cbv⟩
  · rintro body ⟨⟩
    exact List.forall_mem_singleton.mpr (.expr (.addressOf (.call (.proc ⟨rfl, rfl⟩) hNil rfl)))
  · rintro body ⟨⟩
    exact List.forall_mem_singleton.mpr (.defer (.defer (.block hNil)))
  · exact List.forall_mem_singleton.mpr ⟨rfl, rfl⟩
  · exact List.forall_mem_singleton.mpr ⟨rfl, rfl⟩
  · rintro body ⟨⟩
    refine List.forall_mem_singleton.mpr (.ret (.cons (typed_local ⟨rfl, rfl⟩) .nil) (fun _ => rfl) ?_)
    rintro _ _ _ _ _ ⟨⟩

end ProcDecl

end Comptime
