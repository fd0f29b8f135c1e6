import Comptime.Lowering.Build
import Comptime.Proofs.Lowering.Monad

/-!
# What lowering asks for

Lowering reads its surroundings only through `Build.need`, which notes the question before it looks at the answer. So an
attempt that gives up because something is not there yet has an answer of that kind among its questions
(`ProcDecl.build_yields`): whoever replays the questions is told to yield at least once.

Every operation of the builder is `Accountable` in this sense. The lemmas below are tagged for `grind`, which takes a
computation apart at its binds, matches and tests.
-/

namespace Comptime

open List Scopes

variable {code : Build α}

/-- The questions of `b` are still there, and so is who answers them. The others are about sizes. -/
structure Builder.Recalls (b b' : Builder) : Prop where
  config : b'.config = b.config
  asked : b.asked ⊆ b'.asked
  phase : ∀ q ∈ b'.asked, q ∈ b.asked ∨ q.2 = .sizeComputed

/-- If the failure is a yield then one of the questions was answered by a yield. -/
def Builder.Justifies (b : Builder) (f : Failure) : Prop :=
  f.isCause .yield = true → ∃ ready, b.config.ready = some ready ∧
    ∃ s q g, (s, q) ∈ b.asked ∧ ready s q = some g ∧ g.isCause .yield = true

theorem Builder.Recalls.refl (b : Builder) : b.Recalls b := ⟨rfl, fun _ h => h, fun _ => Or.inl⟩

theorem Builder.Recalls.trans {a b c : Builder} (hab : a.Recalls b) (hbc : b.Recalls c) : a.Recalls c where
  config := hbc.config.trans hab.config
  asked := fun _ h => hbc.asked (hab.asked h)
  phase := fun q hq => (hbc.phase q hq).elim (hab.phase q) Or.inr

namespace Build

variable {α β : Type}
variable {x : Build α} {f : α → Build β} {c : Prop}

/-- Every question is noted, and only an answer makes the computation yield. -/
structure Accountable (x : Build α) : Prop where
  ok : ∀ b a b', x b = .ok a b' → b.Recalls b'
  error : ∀ b e b', x b = .error e b' → b.Recalls b' ∧ ∀ f, e = .failed f → b'.Justifies f

/-! ## Composition -/

namespace Accountable

/-- What comes of the computation, wherever it is started. -/
theorem of_run (h : ∀ b, (∃ a b', x b = .ok a b' ∧ b.Recalls b') ∨
    ∃ e b', x b = .error e b' ∧ b.Recalls b' ∧ ∀ f, e = .failed f → b'.Justifies f) : Accountable x := by
  constructor
  · intro b a b' hRun
    rcases h b with ⟨a', b1, hOk, hRecalls⟩ | ⟨e, b1, hError, -⟩
    · cases hOk.symm.trans hRun
      exact hRecalls
    · cases hError.symm.trans hRun
  · intro b e b' hRun
    rcases h b with ⟨a, b1, hOk, -⟩ | ⟨e', b1, hError, hJust⟩
    · cases hOk.symm.trans hRun
    · cases hError.symm.trans hRun
      exact hJust

theorem bind_of (hx : Accountable x) (hf : ∀ b a b', x b = .ok a b' → Accountable (f a)) : Accountable (x >>= f) := by
  constructor
  · intro b c b' h
    obtain ⟨a, b1, hRun, hRest⟩ := bind_eq_ok.mp h
    exact (hx.ok b a b1 hRun).trans ((hf b a b1 hRun).ok b1 c b' hRest)
  · intro b e b' h
    rcases bind_eq_error.mp h with hRun | ⟨a, b1, hRun, hRest⟩
    · exact hx.error b e b' hRun
    · obtain ⟨hRecalls, hJust⟩ := (hf b a b1 hRun).error b1 e b' hRest
      exact ⟨(hx.ok b a b1 hRun).trans hRecalls, hJust⟩

@[grind ←]
theorem bind (hx : Accountable x) (hf : ∀ a, Accountable (f a)) : Accountable (x >>= f) := hx.bind_of fun _ a _ _ => hf a

@[grind ←]
theorem pure (a : α) : Accountable (Pure.pure a : Build α) := of_run fun b => .inl ⟨_, _, rfl, .refl b⟩

@[grind ←]
theorem discard (hx : Accountable x) : Accountable (Functor.discard x) :=
  hx.bind fun _ => pure _

@[grind ←]
theorem modify {f : Builder → Builder} (hf : ∀ b : Builder, b.Recalls (f b)) : Accountable (modify f : Build Unit) :=
  of_run fun b => .inl ⟨_, _, rfl, hf b⟩

@[grind .]
theorem get : Accountable (MonadState.get : Build Builder) := of_run fun b => .inl ⟨_, _, rfl, .refl b⟩

/-- A test that makes the computation fail, and the computation it guards. -/
theorem guarded [Decidable c] {k : Build β} (hx : Accountable x) (hk : Accountable k) :
    Accountable (if c then x >>= fun _ => k else k) := by
  split
  · exact hx.bind fun _ => hk
  · exact hk

theorem throw {e : Stop} (he : ∀ f, e = .failed f → f.isCause .yield = false) :
    Accountable (MonadExcept.throw e : Build α) := of_run fun b =>
  .inr ⟨_, _, rfl, .refl b, fun f hf hYield => by rw [he f hf] at hYield; cases hYield⟩

end Accountable

/-- A rejected program is no reason to yield. -/
theorem Rejection.isCause_yield (r : Rejection) : r.toFailure.isCause .yield = false := by
  cases r <;> rfl

@[grind .]
theorem accountable_reject (r : Rejection) : Accountable (reject r : Build α) :=
  .throw fun f hf => by cases hf; exact Rejection.isCause_yield r

@[grind .]
theorem accountable_abort (a : Abort) : Accountable (throw (.aborted a) : Build α) :=
  .throw fun f hf => by cases hf

@[grind .]
theorem accountable_bug (text : String) : Accountable (bug text : Build α) := accountable_abort _

@[grind .]
theorem accountable_fault : Accountable (fault : Build α) := accountable_abort _

@[grind .]
theorem accountable_orFault (o : Option α) : Accountable (orFault o) := by
  cases o <;> simp only [orFault] <;> grind

/-- The one operation that asks: the question is noted whatever the answer is. -/
@[grind .]
theorem accountable_need (s : Symbol) : Accountable (need s) := by
  have hNoted (b : Builder) : b.Recalls { b with asked := b.asked ++ [(s, .sizeComputed)] } := by
    refine ⟨rfl, subset_append_left _ _, fun q hq => (mem_append.mp hq).imp id fun hNew => ?_⟩
    rw [mem_singleton.mp hNew]
  refine .of_run fun b => ?_
  rw [need, get_bind]
  cases hReady : b.config.ready with
  | none => exact .inl ⟨_, _, rfl, .refl b⟩
  | some ready =>
    simp only [modify_bind]
    cases hAnswer : ready s .sizeComputed with
    | none => exact .inl ⟨_, _, rfl, hNoted b⟩
    | some g =>
      refine .inr ⟨_, _, rfl, hNoted b, fun f hf hYield => ⟨ready, hReady, s, .sizeComputed, g, ?_, hAnswer, ?_⟩⟩
      · exact mem_append_right _ (mem_singleton.mpr rfl)
      · cases hf
        exact hYield

@[grind .]
theorem accountable_onStream (f : Stream → Except Stream.Misuse α) : Accountable (onStream f) := by
  unfold onStream
  grind

-- what the other operations change is not among what has to be recalled
@[grind .]
theorem recalls_update {b b' : Builder} (hConfig : b'.config = b.config) (hAsked : b'.asked = b.asked) :
    b.Recalls b' := ⟨hConfig, hAsked ▸ Subset.refl _, fun _ hq => .inl (hAsked ▸ hq)⟩

@[grind .]
theorem accountable_modifyStream (f : Stream → Except Stream.Misuse Stream) : Accountable (modifyStream f) := by
  unfold modifyStream
  grind

@[grind .]
theorem accountable_emitRaw (x : Instr) : Accountable (emitRaw x) := by
  unfold emitRaw
  grind

@[grind .]
theorem accountable_emit (x : Instr) : Accountable (emit x) := by
  unfold emit
  grind

@[grind ←]
theorem accountable_insertBefore (h : Nat) (hCode : Accountable code) : Accountable (insertBefore h code) := by
  unfold insertBefore
  refine .bind (accountable_modifyStream _) fun _ => .bind .get fun b => ?_
  grind

@[grind .]
theorem accountable_allocReg : Accountable allocReg := by
  unfold allocReg
  grind

@[grind .]
theorem accountable_allocPermanent : Accountable allocPermanent := by
  unfold allocPermanent
  grind

@[grind .]
theorem accountable_reclaim : Accountable reclaim := by
  unfold reclaim
  grind

@[grind .]
theorem accountable_define (x : Reg → Instr) : Accountable (define x) := by
  unfold define
  grind

@[grind .]
theorem accountable_reserve (e : Extent) : Accountable (reserve e) := by
  unfold reserve
  grind

@[grind .]
theorem accountable_call (t : RegType) (target : Reg) (args : List Reg) : Accountable (call t target args) := by
  unfold call
  grind

@[grind .]
theorem accountable_patch (e : Edge) (target : Nat) : Accountable (patch e target) := by
  unfold patch
  grind

@[grind .]
theorem accountable_patchAll (es : List Edge) (target : Nat) : Accountable (patchAll es target) := by
  induction es with
  | nil => exact .pure ()
  | cons e es ih => exact (accountable_patch e target).bind fun _ => ih

@[grind .]
theorem accountable_jump : Accountable jump := by
  unfold jump
  grind

@[grind .]
theorem accountable_branchFalse (test : Reg) : Accountable (branchFalse test) := by
  unfold branchFalse region
  grind

@[grind .]
theorem accountable_referProc (p : ProcRef) : Accountable (referProc p) := by
  unfold referProc
  grind

@[grind .]
theorem accountable_referVar (v : Variable) : Accountable (referVar v) := by
  unfold referVar
  grind

/-! ## Values and expressions -/

@[grind .]
theorem accountable_startPending (r : Reg) : Accountable (startPending r) := by
  unfold startPending
  refine .bind (accountable_branchFalse r) fun _ => .bind accountable_jump fun _ => ?_
  refine .bind (accountable_emit _) fun _ => .bind accountable_jump fun _ => .bind (accountable_emit _) fun _ => ?_
  grind

@[grind .]
theorem accountable_materialize (p : Pending) : Accountable (materialize p) := by
  unfold materialize
  grind

@[grind .]
theorem accountable_value (v : Value) : Accountable (value v) := by
  cases v <;> unfold value <;> grind [load, extent, regType]

@[grind .]
theorem accountable_toPending (v : Value) : Accountable (toPending v) := by
  cases v <;> unfold toPending <;> grind

@[grind .]
theorem accountable_address (v : Value) : Accountable (address v) := by
  cases v <;> unfold address <;> grind [store, extent, regType]

@[grind .]
theorem accountable_assignTo (dst : Reg) (t : Ty) (v : Value) : Accountable (assignTo dst t v) := by
  unfold assignTo
  grind [store, copy, extent, regType]

@[grind .]
theorem accountable_zero (dst : Reg) (t : Ty) : Accountable (zero dst t) := by
  unfold zero
  grind [store, imm, extent, regType]

@[grind .]
theorem accountable_detach (v : Value) : Accountable (detach v) := by
  unfold detach
  grind [copy, extent, regType]

@[grind .]
theorem accountable_convert (r : Reg) (source target : Ty) : Accountable (convert r source target) := by
  unfold convert
  grind [bin, un, imm, regType]

@[grind .]
theorem accountable_offset (addr : Reg) (off : Int64) : Accountable (offset addr off) := by
  unfold offset
  grind [bin, imm]

@[grind .]
theorem accountable_reference (r : Ref) : Accountable (reference r) := by
  cases r <;> unfold reference <;> grind [slot?, addrOf]

@[grind ←]
theorem accountable_chain (and : Bool) (p : Pending) {code : Build Value} (hCode : Accountable code) :
    Accountable (chain and p code) := by
  unfold chain
  grind [region]

@[grind .]
theorem accountable_applyUnary (ty : Ty) (op : UnaryOp) (t : Ty) (v : Value) :
    Accountable (applyUnary ty op t v) := by
  unfold applyUnary
  grind [bin, un, imm, regType]

@[grind .]
theorem accountable_resultSlots (hs : List Hidden) : Accountable (resultSlots hs) := by
  induction hs with
  | nil => exact .pure _
  | cons h hs ih => unfold resultSlots; grind [extent]

@[grind .]
theorem accountable_pass (p : Param) (v : Value) : Accountable (pass p v) := by
  unfold pass
  grind [extent]

mutual

@[grind .]
theorem accountable_results : ∀ x : Expr, Accountable (results x)
  | .absent | .ident _ _ => by unfold results; grind
  | .int _ _ => by unfold results; grind [imm, regType]
  | .float _ _ => by unfold results; grind [imm, immFloat, regType]
  | .bool _ => by unfold results; grind [imm]
  | .binary _ op l r => by
    have hl := accountable_results l
    have hr := accountable_results r
    unfold results
    refine hl.bind fun lv => ?_
    cases op
    -- the logical operators put the right operand on a path of the left one
    case land | lor => exact .bind (accountable_toPending _) fun p => by grind
    all_goals
      refine .bind (accountable_value _) fun a => .bind hr fun rv => .bind (accountable_value _) fun b => ?_
      grind [bin, regType, typeOf]
  | .unary _ _ x | .cast _ x => by
    have hx := accountable_results x
    unfold results
    grind [typeOf]
  | .call _ fn args => by
    have hfn := accountable_results fn
    have hArgs := accountable_arguments args
    unfold results
    refine .bind (by grind [typeOf]) fun t => ?_
    cases t
    case func ins outs =>
      refine .guarded (accountable_reject _) (.bind .get fun _ => .bind (accountable_orFault _) fun sig => ?_)
      split <;> grind [addrOf]
    all_goals exact accountable_reject _
  | .field _ x _ => by
    have hx := accountable_results x
    unfold results
    refine hx.bind fun v => .bind (by grind [typeOf]) fun t => ?_
    cases t <;> grind
  | .index ty x i => by
    have hx := accountable_results x
    have hi := accountable_results i
    unfold results
    refine hx.bind fun v => .bind (by grind [typeOf]) fun t => ?_
    have hPlace (base : Reg) : Accountable (do
        let iv ← results i
        let n ← convert (← value iv.1) (← typeOf i) .s64
        let size ← imm .i64 (← extent ty).size.toUInt64
        let off ← bin .mul .i64 n size
        return ((.place ty (← bin .add .ptr base off), []) : Value × List Value)) := by
      refine hi.bind fun iv => .bind (accountable_value _) fun _ => .bind (by grind [typeOf]) fun _ => ?_
      grind [bin, imm, extent]
    cases t
    case array => exact .bind (accountable_address _) hPlace
    case ptr => exact .bind (accountable_value _) hPlace
    all_goals exact .bind (accountable_reject _) hPlace

@[grind .]
theorem accountable_arguments : ∀ (xs : List Expr) (ps : List Param), Accountable (arguments xs ps)
  | [], _ | _ :: _, [] => by unfold arguments; grind
  | x :: xs, p :: ps => by
    have hx := accountable_results x
    have hxs := accountable_arguments xs ps
    unfold arguments
    grind

end

/-! ## Scopes -/

/-- An accountable computation whose result is as `Q` says. -/
structure Gives (Q : α → Prop) (x : Build α) : Prop extends Accountable x where
  result : ∀ b a b', x b = .ok a b' → Q a

namespace Gives

variable {P : α → Prop} {Q : β → Prop}

theorem pure {b : β} (h : Q b) : Gives Q (Pure.pure b : Build β) where
  toAccountable := .pure b
  result := by
    intro _ _ _ hRun
    cases hRun
    exact h

theorem bind (hx : Gives P x) (hf : ∀ a, P a → Gives Q (f a)) : Gives Q (x >>= f) where
  toAccountable := hx.bind_of fun b a b' hRun => (hf a (hx.result b a b' hRun)).toAccountable
  result := by
    intro b c b' h
    obtain ⟨a, b1, hRun, hRest⟩ := bind_eq_ok.mp h
    exact (hf a (hx.result b a b1 hRun)).result b1 c b' hRest

/-- A computation that is only accountable, in front of one that gives something. -/
theorem after (hx : Accountable x) (hf : ∀ a, Gives Q (f a)) : Gives Q (x >>= f) :=
  bind (P := fun _ => True) ⟨hx, fun _ _ _ _ => trivial⟩ fun a _ => hf a

theorem guarded [Decidable c] {k : Build β} (hx : Accountable x) (hk : Gives Q k) :
    Gives Q (if c then x >>= fun _ => k else k) := by
  split
  · exact after hx fun _ => hk
  · exact hk

/-- One of two computations, and what both are followed by. -/
theorem choice [Decidable c] {y : Build α} (hx : Gives P x) (hy : Gives P y) (hf : ∀ a, P a → Gives Q (f a)) :
    Gives Q (if c then x >>= f else y >>= f) := by
  split
  · exact hx.bind hf
  · exact hy.bind hf

/-- A computation that never returns gives anything. -/
theorem of_error {e : Stop} (he : Accountable (throw e : Build β)) : Gives Q (throw e : Build β) where
  toAccountable := he
  result := by
    intro _ _ _ hRun
    cases hRun

end Gives

end Build

/-- What is deferred in these scopes is accountable, in accountable scopes. -/
def Scopes.Accountable : (n : Nat) → Scopes n → Prop
  | 0, _ => True
  | n + 1, s => Accountable n s.outer ∧
    ∀ d ∈ s.deferred, ∀ t, Accountable n t → (d t).Gives (Accountable n)

namespace Build

variable {n : Nat}
variable {s : Scopes n} {Q : α → Prop}

theorem gives_runDeferred {ds : List (Deferred n)}
    (hds : ∀ d ∈ ds, ∀ t, Scopes.Accountable n t → (d t).Gives (Scopes.Accountable n)) :
    ∀ {current kept : Scopes n}, Scopes.Accountable n current → Scopes.Accountable n kept →
      (runDeferred ds current kept).Gives (Scopes.Accountable n) := by
  induction ds with
  | nil => exact fun _ hKept => .pure hKept
  | cons d ds ih =>
    intro current kept hCurrent hKept
    refine .bind (hds d (List.mem_cons_self ..) current hCurrent) fun t ht => .after .get fun b => ?_
    refine ih (fun d' hd' => hds d' (List.mem_cons_of_mem d hd')) ht ?_
    split
    · exact ht
    · exact hKept

theorem gives_leaveScopes (depth : Nat) (hs : s.Accountable) : (leaveScopes depth n s).Gives (Scopes.Accountable n) := by
  induction n with
  | zero => exact .pure hs
  | succ n ih =>
    unfold leaveScopes
    split
    · exact .pure hs
    · refine .after (by grind) fun _ => ?_
      refine .bind (gives_runDeferred ?_ hs.1 hs.1) fun t ht => .bind (ih ht) fun u hu => .pure ⟨hu, hs.2⟩
      exact fun d hd => hs.2 d (List.mem_reverse.mp hd)

theorem gives_replay (depth : Nat) (hs : s.Accountable) : (replay depth n s).Gives (Scopes.Accountable n) :=
  .after .get fun _ => .bind (gives_leaveScopes depth hs) fun _ ht => .after (by grind) fun _ => .pure ht

theorem gives_inScope (hs : s.Accountable) {body : Scopes (n + 1) → Build (Scopes (n + 1))}
    (hBody : ∀ t : Scopes (n + 1), t.Accountable → (body t).Gives (Scopes.Accountable (n + 1))) :
    (inScope n s body).Gives (Scopes.Accountable n) := by
  refine .after (by grind) fun _ => .bind (hBody _ ⟨hs, fun d hd => by cases hd⟩) fun t ht => .after .get fun b => ?_
  cases b.dead with
  | false => exact .bind (gives_replay n ht) fun u hu => .pure hu.1
  | true => exact .bind (.pure ht) fun u hu => .pure hu.1

theorem gives_defer (hs : s.Accountable) {d : (m : Nat) → Deferred m}
    (hd : ∀ m (t : Scopes m), t.Accountable → (d m t).Gives (Scopes.Accountable m)) :
    (Scopes.defer n s d).Gives (Scopes.Accountable n) := by
  cases n with
  | zero => exact .of_error (accountable_abort _)
  | succ n =>
    refine .pure ⟨hs.1, fun d' hd' => ?_⟩
    rcases List.mem_append.mp hd' with hOld | hNew
    · exact hs.2 d' hOld
    · rw [List.mem_singleton.mp hNew]
      exact hd n

/-! ## Statements -/

@[grind .]
theorem accountable_expr (x : Expr) : Accountable (expr x) := by
  unfold expr
  grind

@[grind .]
theorem accountable_places (xs : List Expr) : Accountable (places xs) := by
  induction xs with
  | nil => exact .pure _
  | cons x xs ih => unfold places; grind

@[grind .]
theorem accountable_detachedValues (xs : List Expr) : Accountable (detachedValues xs) := by
  induction xs with
  | nil => exact .pure _
  | cons x xs ih => unfold detachedValues; grind

@[grind .]
theorem accountable_values (xs : List Expr) : Accountable (values xs) := by
  induction xs with
  | nil => exact .pure _
  | cons x xs ih => unfold values; grind

@[grind .]
theorem accountable_assignAll (ds : List (Ty × Reg)) (vs : List Value) : Accountable (assignAll ds vs) := by
  fun_induction assignAll ds vs with
  | case1 t r ds v vs ih => grind
  | case2 => exact .pure _

@[grind .]
theorem accountable_assign (lhs rhs : List Expr) : Accountable (assign lhs rhs) := by
  unfold assign
  grind

@[grind .]
theorem accountable_compound (op : BinaryOp) (lhs rhs : List Expr) : Accountable (compound op lhs rhs) := by
  unfold compound
  split
  · refine .bind (accountable_expr _) fun v => ?_
    split
    · refine .bind (accountable_value _) fun l => .bind (accountable_expr _) fun x =>
        .bind (accountable_value _) fun r => ?_
      grind [bin, store, extent, regType]
    · exact accountable_reject _
  · exact accountable_reject _

@[grind .]
theorem accountable_declare (v : Variable) (init : Expr) : Accountable (declare v init) := by
  unfold declare
  grind [extent, bindSlot]

@[grind .]
theorem accountable_condition (x : Expr) : Accountable (condition x) := by
  unfold condition
  grind

@[grind .]
theorem accountable_optionalCondition (x : Expr) : Accountable (optionalCondition x) := by
  unfold optionalCondition
  grind

@[grind .]
theorem accountable_skip : Accountable skip := by
  unfold skip
  grind

@[grind .]
theorem accountable_returnValues (n : Nat) (xs : List Expr) : Accountable (returnValues n xs) := by
  unfold returnValues
  grind

@[grind .]
theorem accountable_placeResults (i : Nat) (r : Reg) (ts : List Ty) (vs : List Value) :
    Accountable (placeResults i r ts vs) := by
  induction ts generalizing i r vs with
  | nil => cases vs <;> exact .pure _
  | cons t ts ih =>
    cases vs with
    | nil => exact .pure _
    | cons v vs =>
      unfold placeResults
      grind

@[grind .]
theorem accountable_openTarget (isLoop : Bool) (n : Nat) : Accountable (openTarget isLoop n) := by
  unfold openTarget
  grind

@[grind .]
theorem accountable_closeTarget : Accountable closeTarget := by
  unfold closeTarget
  grind

@[grind .]
theorem accountable_updateTarget (loopOnly : Bool) (f : JumpTarget → JumpTarget) :
    Accountable (updateTarget loopOnly f) := by
  unfold updateTarget
  grind

@[grind .]
theorem accountable_patchArms (br first target : Nat) (vs : List Int64) :
    Accountable (patchArms br first target vs) := by
  induction vs generalizing first with
  | nil => exact .pure _
  | cons v vs ih => exact (accountable_patch _ target).bind fun _ => ih _

theorem gives_holding (hCode : code.Gives Q) : (holding code).Gives Q :=
  .after (by grind) fun _ => .bind hCode fun _ ha => .after (by grind) fun _ => .pure ha

theorem gives_unlessDead {a : α} (ha : Q a) (hCode : code.Gives Q) : (unlessDead a code).Gives Q := by
  refine .after .get fun b => ?_
  split
  · exact .pure ha
  · exact .bind hCode fun _ hc => .after accountable_reclaim fun _ => .pure hc

theorem gives_returnStmt (hs : s.Accountable) (xs : List Expr) : (returnStmt n s xs).Gives (Scopes.Accountable n) := by
  refine .after .get fun b => .after (accountable_returnValues _ _) fun vs => ?_
  refine .after (accountable_placeResults _ _ _ _) fun r => .bind (gives_holding (gives_replay 0 hs)) fun t ht => ?_
  refine .after .get fun b' => ?_
  split
  · exact .pure ht
  · exact .after (.discard (accountable_emit _)) fun _ => .pure ht

theorem gives_jumpOut (hs : s.Accountable) (loopOnly : Bool) (t : JumpTarget) (f : Edge → JumpTarget → JumpTarget) :
    (jumpOut n s loopOnly t f).Gives (Scopes.Accountable n) :=
  .bind (gives_replay t.depth hs) fun _ hu => .after accountable_jump fun _ =>
    .after (accountable_updateTarget _ _) fun _ => .pure hu

theorem gives_reject (r : Rejection) : (reject r : Build α).Gives Q := .of_error (accountable_reject r)

mutual

theorem gives_stmt : ∀ (x : Stmt) (n : Nat) (s : Scopes n), s.Accountable →
    (stmt x n s).Gives (Scopes.Accountable n)
  | .absent, _, _, hs => gives_unlessDead hs (gives_reject _)
  | .block l, n, _, hs => gives_unlessDead hs (gives_inScope hs (gives_stmts l (n + 1)))
  | .expr x, _, _, hs => gives_unlessDead hs (.after (.discard (accountable_expr x)) fun _ => .pure hs)
  | .decl v init, _, _, hs => gives_unlessDead hs (.after (accountable_declare v init) fun _ => .pure hs)
  | .assign none lhs rhs, _, _, hs => gives_unlessDead hs (.after (accountable_assign lhs rhs) fun _ => .pure hs)
  | .assign (some op) lhs rhs, _, _, hs =>
    gives_unlessDead hs (.after (accountable_compound op lhs rhs) fun _ => .pure hs)
  | .cond test yes no, n, s, hs => by
    -- the scopes go through both branches in turn
    refine gives_unlessDead hs (.after (accountable_condition test) fun otherwise => ?_)
    refine .bind (gives_unlessDead hs (gives_inScope hs (gives_stmts yes (n + 1)))) fun t ht => ?_
    split
    · exact .after (accountable_emit _) fun _ => .after (accountable_patch _ _) fun _ => .pure ht
    · refine .after accountable_skip fun exit => .after (accountable_emit _) fun _ => ?_
      refine .after (accountable_patch _ _) fun _ => .bind (gives_stmt no n t ht) fun u hu => .after .get fun b => ?_
      split
      · exact .pure hu
      · exact .after (accountable_emit _) fun _ => .after (accountable_patchAll _ _) fun _ => .pure hu
  | .loop init test post body, n, s, hs => by
    refine gives_unlessDead hs (.guarded (accountable_reject _) (gives_inScope hs fun s1 hs1 => ?_))
    -- the parts of the head share one scope, and the body has one inside it
    refine .choice (.pure hs1) (gives_stmt init (n + 1) s1 hs1) fun s2 hs2 => ?_
    refine .after (accountable_emit _) fun head => .after (accountable_optionalCondition test) fun exits => ?_
    refine .after (accountable_openTarget _ _) fun _ => ?_
    refine .bind (gives_unlessDead hs2 (gives_inScope hs2 (gives_stmts body (n + 2)))) fun s3 hs3 => ?_
    refine .after accountable_closeTarget fun t => ?_
    refine .choice (P := fun _ => True) (.pure trivial) ⟨accountable_emit _, fun _ _ _ _ => trivial⟩ fun next _ => ?_
    refine .choice (.pure hs3) (gives_stmt post (n + 1) s3 hs3) fun s4 hs4 => .after .get fun b => ?_
    refine .guarded (.discard (accountable_emit _)) ?_
    have hEnd : Gives (Scopes.Accountable (n + 1)) (do patchAll t.continues next; return s4) :=
      .after (accountable_patchAll _ _) fun _ => .pure hs4
    split
    · exact .after (accountable_emit _) fun _ => .after (accountable_patchAll _ _) fun _ =>
        .after (accountable_patchAll _ _) fun _ => hEnd
    · exact hEnd
  | .whileDo test body, n, s, hs => by
    refine gives_unlessDead hs (.after (accountable_emit _) fun head => .after (accountable_condition test) fun e => ?_)
    refine .after (accountable_openTarget _ _) fun _ => ?_
    refine .bind (gives_unlessDead hs (gives_inScope hs (gives_stmts body (n + 1)))) fun t ht => ?_
    refine .after .get fun b => .guarded (.discard (accountable_emit _)) (.after accountable_closeTarget fun t => ?_)
    exact .after (accountable_emit _) fun _ => .after (accountable_patch _ _) fun _ =>
      .after (accountable_patchAll _ _) fun _ => .after (accountable_patchAll _ _) fun _ => .pure ht
  | .doWhile test body, n, s, hs => by
    refine gives_unlessDead hs (.after (accountable_emit _) fun head => .after (accountable_openTarget _ _) fun _ => ?_)
    refine .bind (gives_unlessDead hs (gives_inScope hs (gives_stmts body (n + 1)))) fun t ht => ?_
    refine .after accountable_closeTarget fun _ => .after (accountable_emit _) fun _ => ?_
    refine .after (accountable_condition test) fun _ => .after (.discard (accountable_emit _)) fun _ => ?_
    exact .after (accountable_emit _) fun _ => .after (accountable_patch _ _) fun _ =>
      .after (accountable_patchAll _ _) fun _ => .after (accountable_patchAll _ _) fun _ => .pure ht
  | .switch tag cs, n, s, hs => by
    refine gives_unlessDead hs (.after (accountable_expr tag) fun _ => .after (accountable_value _) fun r => ?_)
    refine .after (accountable_emit _) fun br => .after (accountable_openTarget _ _) fun _ => ?_
    -- the scopes go from case to case
    refine .bind (gives_cases br _ 0 0 cs n s hs) fun t ht => .after accountable_closeTarget fun _ => ?_
    refine .after (accountable_emit _) fun _ => .guarded (accountable_patch _ _) ?_
    exact .after (accountable_patchAll _ _) fun _ => .after (accountable_patchAll _ _) fun _ => .pure ht
  | .breakOut, _, _, hs | .continueLoop, _, _, hs => gives_unlessDead hs (.after (.bind .get fun _ => .pure _) fun t => by
    cases t with
    | none => exact gives_reject _
    | some t => exact gives_jumpOut hs _ _ _)
  | .fallthrough, _, _, hs => gives_unlessDead hs (.after (.bind .get fun _ => .pure _) fun t => by
    cases t with
    | none => exact gives_reject _
    | some t => exact .guarded (accountable_reject _) (gives_jumpOut hs _ _ _))
  | .ret xs, _, _, hs => gives_unlessDead hs (gives_returnStmt hs xs)
  | .defer d, _, _, hs => gives_unlessDead hs (gives_defer hs fun m t ht => gives_stmt d m t ht)

theorem gives_stmts : ∀ (xs : List Stmt) (n : Nat) (s : Scopes n), s.Accountable →
    (stmts xs n s).Gives (Scopes.Accountable n)
  | [], _, _, hs => .pure hs
  | x :: xs, n, s, hs => .bind (gives_stmt x n s hs) fun t ht => gives_stmts xs n t ht

theorem gives_cases (br : Nat) (default : Option Nat) : ∀ (i arm : Nat) (cs : List (Case Stmt)) (n : Nat) (s : Scopes n),
    s.Accountable → (cases br default i arm cs n s).Gives (Scopes.Accountable n)
  | _, _, [], _, _, hs => .pure hs
  | i, arm, ⟨values, body⟩ :: cs, n, s, hs => by
    refine .after (accountable_emit _) fun r => .after (accountable_patchArms _ _ _ _) fun _ => ?_
    refine .guarded (accountable_patch _ _) (.after .get fun b => ?_)
    cases b.targets with
    | nil => exact .of_error (accountable_abort _)
    | cons t ts =>
      refine .after (accountable_patchAll _ _) fun _ => .after (accountable_updateTarget _ _) fun _ => ?_
      refine .bind (gives_inScope hs (gives_stmts body (n + 1))) fun s1 hs1 => .after .get fun b => ?_
      have hRest : Gives (Scopes.Accountable n) (cases br default (i + 1) (arm + values.length) cs n s1) :=
        gives_cases br default (i + 1) (arm + values.length) cs n s1 hs1
      split
      · exact .after accountable_jump fun _ => .after (accountable_updateTarget _ _) fun _ => hRest
      · exact hRest

end

/-! ## Procedures -/

@[grind .]
theorem accountable_keepOuts (r : Nat) (hs : List Hidden) : Accountable (keepOuts r hs) := by
  induction hs generalizing r with
  | nil => exact .pure ()
  | cons h hs ih => exact .bind (by grind) fun _ => ih (r + 1)

@[grind .]
theorem accountable_enterParams (r : Nat) (ps : List Param) (vs : List Variable) :
    Accountable (enterParams r ps vs) := by
  induction ps generalizing r vs with
  | nil => exact .pure ()
  | cons p ps ih =>
    unfold enterParams
    cases p.rule <;> cases vs.head? <;> grind [extent, store, bindSlot]

@[grind .]
theorem accountable_enter (params : List Variable) : Accountable (enter params) := by
  unfold enter
  grind

@[grind .]
theorem accountable_implicitReturn : Accountable implicitReturn := by
  unfold implicitReturn
  grind [ret, imm]

theorem accountable_procedure (p : ProcDecl) (body : List Stmt) : Accountable (procedure p body) := by
  have hBody : Accountable (inScope 0 () (stmts body 1)) :=
    (gives_inScope (n := 0) trivial fun t ht => gives_stmts body 1 t ht).toAccountable
  refine .bind (accountable_enter _) fun _ => .bind (.discard hBody) fun _ => .bind .get fun b => ?_
  grind

end Build

/-- The builder in which a procedure is lowered, whatever comes of it. -/
theorem ProcDecl.build_recalls (p : ProcDecl) (config : Config) :
    (p.build config).asked = [] ∧ (∀ f, (p.build config).built = .error (.failed f) → f.isCause .yield = false) ∨
      ∃ sig b, ({ config, sig } : Builder).Recalls b ∧ (p.build config).asked = b.asked ∧
        ∀ f, (p.build config).built = .error (.failed f) → b.Justifies f := by
  unfold build
  split
  · exact .inl ⟨rfl, fun f hf => by cases hf; rfl⟩
  · exact .inl ⟨rfl, fun f hf => by cases hf⟩
  · rename_i body sig _ _
    have hAcc := Build.accountable_procedure p body
    simp only [EStateM.run]
    cases hRun : Build.procedure p body { config, sig } with
    | ok r b => exact .inr ⟨sig, b, hAcc.ok _ _ _ hRun, rfl, fun f hf => by cases hf⟩
    | error e b =>
      obtain ⟨hRecalls, hJust⟩ := hAcc.error _ _ _ hRun
      cases e with
      | aborted a => exact .inr ⟨sig, b, hRecalls, rfl, fun f hf => by cases hf⟩
      | failed g => exact .inr ⟨sig, b, hRecalls, rfl, fun f hf => by cases hf; exact hJust g rfl⟩

/-- Lowering asks for sizes only. -/
theorem ProcDecl.build_asked {p : ProcDecl} {config : Config} {q : Symbol × Phase}
    (h : q ∈ (p.build config).asked) : q.2 = .sizeComputed := by
  rcases p.build_recalls config with ⟨hNone, -⟩ | ⟨sig, b, hRecalls, hAsked, -⟩
  · rw [hNone] at h
    cases h
  · rw [hAsked] at h
    exact (hRecalls.phase q h).resolve_left (by rintro ⟨⟩)

/-- An attempt to lower a procedure that gives up for now was told to, by an answer to one of its questions. -/
theorem ProcDecl.build_yields {p : ProcDecl} {config : Config} {f : Failure}
    (h : (p.build config).built = .error (.failed f)) (hYield : f.isCause .yield = true) :
    ∃ ready, config.ready = some ready ∧
      ∃ s q g, (s, q) ∈ (p.build config).asked ∧ ready s q = some g ∧ g.isCause .yield = true := by
  rcases p.build_recalls config with ⟨-, hNever⟩ | ⟨sig, b, hRecalls, hAsked, hJust⟩
  · rw [hNever f h] at hYield
    cases hYield
  · rw [hAsked, ← show b.config = config from hRecalls.config]
    exact hJust f h hYield

end Comptime
