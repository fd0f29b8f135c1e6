import Comptime.Proofs.Simulation.Procedures

/-!
# What built procedures do

Two classes of bodies that can be followed without a look at memory. A body that is made of calls and of control structures
does the calls of its structured semantics (`ProcDecl.build_structured`). A formula of logical operators is evaluated from
left to right, as far as it has to be, for its value as well as for its truth (`ProcDecl.build_formulas`).

Where control gets to the end of a body the word that is returned is zero, and nothing else is done
(`ProcDecl.build_runs_out`). Results that go to memory are not written then, and the caller finds in them what a call before
has left there.
-/

namespace Comptime

open Watch List Stmt Comptime.Expr Word Operand Eval

/-! ## Calls and control structures -/

/-- A call of a procedure without arguments. -/
def Expr.isPlainCall : Expr → Bool
  | .call _ (.ident _ (.proc _)) [] => true
  | _ => false

namespace Stmt

/-- What may stand in the head of a loop: nothing, or a call. -/
def isPlainHead : Stmt → Bool
  | .absent => true
  | .expr x => x.isPlainCall
  | _ => false

/-- What may follow `else`: nothing, a block or a further condition. -/
def isElse : Stmt → Bool
  | .absent | .block _ | .cond _ _ _ => true
  | _ => false

mutual

/-- The statement is made of calls without arguments and of control structures. What is deferred is not left by a jump. -/
def structured : Stmt → Bool
  | .absent | .breakOut | .continueLoop | .fallthrough => true
  | .block l => listStructured l
  | .expr x => x.isPlainCall
  | .cond test yes no => test.isPlainCall && listStructured yes && no.isElse && structured no
  | .loop init test post body =>
    init.isPlainHead && (test.isAbsent || test.isPlainCall) && post.isPlainHead && listStructured body
  | .whileDo test body | .doWhile test body => test.isPlainCall && listStructured body
  | .switch tag cs => tag.isPlainCall && casesStructured cs
  | .ret xs => xs.all (·.isPlainCall)
  | .defer d => !d.isDefer && d.stays .none && structured d
  | .decl _ _ | .assign _ _ _ => false

def listStructured : List Stmt → Bool
  | [] => true
  | x :: xs => structured x && listStructured xs

def casesStructured : List (Case Stmt) → Bool
  | [] => true
  | c :: cs => listStructured c.body && casesStructured cs

end

end Stmt

theorem Expr.vars_of_isPlainCall {x : Expr} (h : x.isPlainCall = true) : x.vars = [] := by
  unfold isPlainCall at h
  split at h
  · rfl
  · cases h

theorem Expr.avoids_of_isPlainCall {x : Expr} {later : List Nat} (h : x.isPlainCall = true) : x.avoids later = true := by
  rw [avoids, vars_of_isPlainCall h]
  rfl

namespace Stmt

theorem isPlainHead_spec {x : Stmt} (h : x.isPlainHead = true) : x.isDefer = false ∧ x.stays .none = true ∧
    x.decls = [] ∧ x.regular = true ∧ ∀ later, x.ordered later = true := by
  cases x with
  | absent => exact ⟨rfl, rfl, rfl, rfl, fun _ => rfl⟩
  | expr x => exact ⟨rfl, rfl, rfl, rfl, fun _ => avoids_of_isPlainCall h⟩
  | _ => cases h

theorem isDefer_of_isElse {x : Stmt} (h : x.isElse = true) : x.isDefer = false := by
  cases x with
  | absent | block _ | cond _ _ _ => rfl
  | _ => cases h

mutual

/-- A structured statement declares nothing, and it is as lowering keeps it. -/
theorem structured_spec : (x : Stmt) → x.structured = true →
    x.decls = [] ∧ x.regular = true ∧ ∀ later, x.ordered later = true
  | .absent, _ | .breakOut, _ | .continueLoop, _ | .fallthrough, _ => ⟨rfl, rfl, fun _ => rfl⟩
  | .block l, h => listStructured_spec l h
  | .expr x, h => ⟨rfl, rfl, fun _ => avoids_of_isPlainCall h⟩
  | .cond test yes no, h => by
    simp only [structured, Bool.and_eq_true] at h
    obtain ⟨⟨⟨hTest, hYes⟩, hElse⟩, hNo⟩ := h
    obtain ⟨hYesD, hYesR, hYesO⟩ := listStructured_spec yes hYes
    obtain ⟨hNoD, hNoR, hNoO⟩ := structured_spec no hNo
    simp [decls, regular, ordered, hYesD, hYesR, hYesO, hNoD, hNoR, hNoO, isDefer_of_isElse hElse, avoids_of_isPlainCall hTest]
  | .loop init test post body, h => by
    simp only [structured, Bool.and_eq_true, Bool.or_eq_true] at h
    obtain ⟨⟨⟨hInit, hTest⟩, hPost⟩, hBody⟩ := h
    obtain ⟨hInitDefer, hInitStays, hInitD, hInitR, hInitO⟩ := isPlainHead_spec hInit
    obtain ⟨hPostDefer, hPostStays, hPostD, hPostR, hPostO⟩ := isPlainHead_spec hPost
    obtain ⟨hD, hR, hO⟩ := listStructured_spec body hBody
    -- the test may be missing, and the heads are covered by `isPlainHead_spec`
    have hAvoids : ∀ later, test.avoids later = true := fun later => by
      rcases hTest with hAbsent | hCall
      · cases test with
        | absent => rfl
        | _ => cases hAbsent
      · exact avoids_of_isPlainCall hCall
    simp [decls, regular, ordered, hInitDefer, hInitStays, hInitD, hInitR, hInitO, hPostDefer, hPostStays, hPostD,
      hPostR, hPostO, hD, hR, hO, hAvoids]
  | .whileDo test body, h | .doWhile test body, h => by
    simp only [structured, Bool.and_eq_true] at h
    obtain ⟨hD, hR, hO⟩ := listStructured_spec body h.2
    simp [decls, regular, ordered, hD, hR, hO, avoids_of_isPlainCall h.1]
  | .switch tag cs, h => by
    simp only [structured, Bool.and_eq_true] at h
    obtain ⟨hD, hR, hO⟩ := casesStructured_spec cs h.2
    simp [decls, regular, ordered, hD, hR, hO, avoids_of_isPlainCall h.1]
  | .ret xs, h => ⟨rfl, rfl, fun _ => all_eq_true.mpr fun x hx => avoids_of_isPlainCall (all_eq_true.mp h x hx)⟩
  | .defer d, h => by
    simp only [structured, Bool.and_eq_true] at h
    obtain ⟨⟨hDefer, hStays⟩, hStructured⟩ := h
    obtain ⟨hD, hR, hO⟩ := structured_spec d hStructured
    refine ⟨hD, ?_, hO⟩
    simp only [regular, hDefer, hStays, hD, hR, isEmpty_nil, Bool.and_self]
  | .decl _ _, h | .assign _ _ _, h => by cases h

theorem listStructured_spec : (xs : List Stmt) → listStructured xs = true →
    listDecls xs = [] ∧ listRegular xs = true ∧ ∀ later, listOrdered later xs = true
  | [], _ => ⟨rfl, rfl, fun _ => rfl⟩
  | x :: xs, h => by
    obtain ⟨hFirst, hRest⟩ := Bool.and_eq_true_iff.mp h
    obtain ⟨hD, hR, hO⟩ := structured_spec x hFirst
    obtain ⟨hD', hR', hO'⟩ := listStructured_spec xs hRest
    simp [listDecls, listRegular, listOrdered, hD, hR, hO, hD', hR', hO']

theorem casesStructured_spec : (cs : List (Case Stmt)) → casesStructured cs = true →
    caseDecls cs = [] ∧ casesRegular cs = true ∧ ∀ later, casesOrdered later cs = true
  | [], _ => ⟨rfl, rfl, fun _ => rfl⟩
  | c :: cs, h => by
    obtain ⟨hFirst, hRest⟩ := Bool.and_eq_true_iff.mp h
    obtain ⟨hD, hR, hO⟩ := listStructured_spec c.body hFirst
    obtain ⟨hD', hR', hO'⟩ := casesStructured_spec cs hRest
    simp [caseDecls, casesRegular, casesOrdered, hD, hR, hO, hD', hR', hO']

end

end Stmt

namespace ProcDecl

variable {p : ProcDecl} {config : Config} {r : Built} {body : List Stmt}

/-- **A body of calls and control structures does the calls that it says.** Unless the run ends in the entry of the
procedure, it does the calls of the structured semantics, one after the other, whatever these give, and it returns if and
only if that does. -/
theorem build_structured (m : Machine) (args : List UInt64) (h : (p.build config).built = .ok r)
    (hBody : p.body = some body) (hStructured : listStructured body = true) (hSteps : m.limits.maxSteps = 0) :
    (ofCall m r.proc args).Barred ∨ ∃ (S : Setting) (ds : List Deed), S.Met config r m args ds ∧
        (ofCall m r.proc args).Performs fun n => execBody { S with rounds := n } body ds := by
  obtain ⟨-, hRegular, hOrdered⟩ := listStructured_spec body hStructured
  exact build_performs m args h hBody hRegular (hOrdered []) hSteps

end ProcDecl

/-- The word that a run has returned. -/
def Run.returned? : Run → Option UInt64
  | .returned _ v => some v
  | _ => none

theorem Run.returned?_eq_some {r : Run} {v : UInt64} : r.returned? = some v ↔ ∃ m, r = .returned m v := by
  cases r <;> simp [returned?]

/-- A procedure that returns one and the same word. -/
def Proc.constant (name : String) (ty : RegType) (v : UInt64) : Proc where
  name
  params := []
  ret := ty
  code := #[.imm ty 0 v, .ret ty 0]
  numRegs := 1

/-- The call of a procedure without parameters. -/
def Expr.plainCall (name : String) (out : Ty) : Expr :=
  let p : ProcRef := ⟨⟨0, name⟩, [], [out]⟩
  .call out (.ident p.ty (.proc p)) []

/-- It takes steps until one falls through to a return, which leaves two scopes in which something is deferred. -/
def tending : ProcDecl where
  id := 1
  name := "tend"
  ins := []
  outs := [.s64]
  params := []
  body := some [
    .defer (.expr (.plainCall "close" .s64)),
    .loop .absent .absent (.expr (.plainCall "step" .s64)) [
      .switch (.plainCall "kind" .s64) [
        ⟨[1], [.expr (.plainCall "step" .s64), .fallthrough]⟩,
        ⟨[2], [.defer (.expr (.plainCall "step" .s64)), .ret [.plainCall "count" .s64]]⟩]]]

def workshop : Machine where
  limits := { maxSteps := 0 }
  procs := #[.constant "close" .i64 0, .constant "step" .i64 0, .constant "kind" .i64 1, .constant "count" .i64 5]

/-- The result is that of the semantics, which defers as the run does. -/
theorem ProcDecl.build_structured_tending : ∃ r body, (tending.build {}).built = .ok r ∧ tending.body = some body ∧
    listStructured body = true ∧ ∃ (S : Setting) (ds : List Deed), S.Met {} r workshop [] ds ∧
      ((ofCall workshop r.proc []).Performs fun n => execBody { S with rounds := n } body ds) ∧
        ∃ n ds', execBody { S with rounds := n } body ds = .ok 5 ds' := by
  have hRun : ((tending.build {}).built.toOption.map fun r => (tick^[40] (ofCall workshop r.proc [])).run.returned?) =
      some (some 5) := by
    decide +kernel
  obtain ⟨r, hBuilt, hFive⟩ := exists_of_map_built hRun
  obtain ⟨m, hReturned⟩ := Run.returned?_eq_some.mp hFive
  rcases build_structured workshop [] hBuilt rfl rfl rfl with hBarred | ⟨S, ds, hMet, hPerforms⟩
  · exact absurd hBarred (Watch.not_barred hReturned)
  · exact ⟨r, _, hBuilt, rfl, rfl, S, ds, hMet, hPerforms, (hPerforms.returns 5).mp ⟨40, m, hReturned⟩⟩

/-! ## Logical operators -/

/-- An expression of logical operators. -/
inductive Formula where
  | leaf (x : Expr)
  | and (l r : Formula)
  | or (l r : Formula)
  | not (x : Formula)

namespace Formula

def expr : Formula → Expr
  | leaf x => x
  | and l r => .binary .bool .land l.expr r.expr
  | or l r => .binary .bool .lor l.expr r.expr
  | not x => .unary .bool .not x.expr

def isLeaf : Formula → Bool
  | leaf _ => true
  | _ => false

/-- The truth of a formula, whose leaves are evaluated from left to right and only as far as they decide. -/
def truth (S : Setting) : Formula → Eval Bool
  | leaf x => do return (← demand (← x.value S)) != 0
  | and l r => do if ← l.truth S then r.truth S else return false
  | or l r => do if ← l.truth S then return true else r.truth S
  | not x => do return !(← x.truth S)

/-- The leaves that are evaluated after what has been done are of the type of truth values, and have one as their value if
they have any. -/
def Boolean (S : Setting) : Formula → List Deed → Prop
  | leaf x, done => x.ty? = some .bool ∧ ∀ v done', x.value S done = .ok v done' → ∃ b, v = some (flag b)
  | and l r, done => l.Boolean S done ∧ ∀ done', l.truth S done = .ok true done' → r.Boolean S done'
  | or l r, done => l.Boolean S done ∧ ∀ done', l.truth S done = .ok false done' → r.Boolean S done'
  | not x, done => x.Boolean S done

variable {S : Setting} {F : Formula} {done : List Deed}

/-- The value is the truth, given what has been done. -/
def ValueAt (S : Setting) (x : Expr) (y : Eval Bool) (done : List Deed) : Prop :=
  x.value S done = (do return some (flag (← y)) : Eval (Option UInt64)) done

theorem ty?_expr (h : F.Boolean S done) : F.expr.ty? = some .bool := by
  cases F with
  | leaf x => exact h.1
  | _ => rfl

theorem isAbsent_expr (h : F.Boolean S done) : F.expr.isAbsent = false := by
  have hTy := ty?_expr h
  generalize F.expr = x at hTy
  cases x with
  | absent => cases hTy
  | _ => rfl

/-- Computations agree that start alike and go on alike from where they then are. -/
theorem bind_congr_at {α β : Type} {x y : Eval α} {f g : α → Eval β} (hx : x done = y done)
    (h : ∀ a done', y done = .ok a done' → f a done' = g a done') : (x >>= f) done = (y >>= g) done := by
  change EStateM.bind x f done = EStateM.bind y g done
  rw [EStateM.bind, EStateM.bind, hx]
  cases hy : y done with
  | ok a done' => exact h a done' hy
  | error e done' => rfl

theorem value_leaf {x : Expr} (h : (leaf x).Boolean S done) : ValueAt S x ((leaf x).truth S) done := by
  have hFlag := h.2
  simp only [ValueAt, truth, bind_assoc, pure_bind]
  change _ = EStateM.bind _ _ done
  rw [EStateM.bind]
  cases hx : x.value S done with
  | ok v done' =>
    obtain ⟨b, rfl⟩ := hFlag v done' hx
    cases b <;> rfl
  | error e done' => rfl

/-- What is done with the value of an operand is done with its truth. -/
theorem eval_bind_value {x : Expr} {y : Eval Bool} {α : Type} {k : Option UInt64 → Eval α} (h : ValueAt S x y done) :
    (x.eval S >>= fun o => o.value S >>= k) done = (y >>= fun b => k (some (flag b))) done :=
  calc (x.eval S >>= fun o => o.value S >>= k) done = (x.value S >>= k) done := by rw [Expr.value, bind_assoc]
    _ = ((do return some (flag (← y))) >>= k) done := bind_congr_at h fun _ _ _ => rfl
    _ = (y >>= fun b => k (some (flag b))) done := by rw [bind_assoc]; simp only [pure_bind]

section

variable {l r x : Formula}

theorem eval_and (hl : ValueAt S l.expr (l.truth S) done)
    (hr : ∀ done', l.truth S done = .ok true done' → ValueAt S r.expr (r.truth S) done') :
    (and l r).expr.eval S done = (do return .word .bool (some (flag (← (and l r).truth S))) : Eval Operand) done := by
  simp only [expr, truth, eval, bind_assoc]
  rw [eval_bind_value hl]
  refine bind_congr_at rfl fun b done' hb => ?_
  cases b with
  | false => rfl
  | true =>
    simp only [demand, pure_bind]
    refine (eval_bind_value (hr done' hb)).trans (bind_congr_at rfl fun b _ _ => ?_)
    cases b <;> rfl

theorem eval_or (hl : ValueAt S l.expr (l.truth S) done)
    (hr : ∀ done', l.truth S done = .ok false done' → ValueAt S r.expr (r.truth S) done') :
    (or l r).expr.eval S done = (do return .word .bool (some (flag (← (or l r).truth S))) : Eval Operand) done := by
  simp only [expr, truth, eval, bind_assoc]
  rw [eval_bind_value hl]
  refine bind_congr_at rfl fun b done' hb => ?_
  cases b with
  | false =>
    simp only [demand, pure_bind]
    refine (eval_bind_value (hr done' hb)).trans (bind_congr_at rfl fun b _ _ => ?_)
    cases b <;> rfl
  | true => rfl

theorem eval_not (hTy : x.expr.ty? = some .bool) (hx : ValueAt S x.expr (x.truth S) done) :
    (not x).expr.eval S done = (do return .word .bool (some (flag (← (not x).truth S))) : Eval Operand) done := by
  simp only [expr, truth, eval, hTy, applyUnary, demand, pure_bind, bind_assoc]
  rw [eval_bind_value hx]
  refine bind_congr_at rfl fun b _ _ => ?_
  cases b <;> rfl

end

theorem value_of_eval (h : F.expr.eval S done = (do return .word .bool (some (flag (← F.truth S))) : Eval Operand) done) :
    ValueAt S F.expr (F.truth S) done := by
  refine (bind_congr_at h fun _ _ _ => rfl).trans ?_
  simp only [bind_assoc, pure_bind, Operand.value]

/-- The value of a formula is its truth. -/
theorem value_expr (h : F.Boolean S done) : ValueAt S F.expr (F.truth S) done := by
  induction F generalizing done with
  | leaf x => exact value_leaf h
  | and l r ihl ihr => exact value_of_eval (eval_and (ihl h.1) fun done' hl => ihr (h.2 done' hl))
  | or l r ihl ihr => exact value_of_eval (eval_or (ihl h.1) fun done' hl => ihr (h.2 done' hl))
  | not x ih => exact value_of_eval (eval_not (ty?_expr (F := x) h) (ih h))

theorem eval_expr (h : F.Boolean S done) (hLeaf : F.isLeaf = false) :
    F.expr.eval S done = (do return .word .bool (some (flag (← F.truth S))) : Eval Operand) done := by
  cases F with
  | leaf x => cases hLeaf
  | and l r => exact eval_and (value_expr h.1) fun done' hl => value_expr (h.2 done' hl)
  | or l r => exact eval_or (value_expr h.1) fun done' hl => value_expr (h.2 done' hl)
  | not x => exact eval_not (ty?_expr (F := x) h) (value_expr (F := x) h)

theorem holds_expr (h : F.Boolean S done) : F.expr.holds S done = F.truth S done := by
  rw [holds, isAbsent_expr h, if_neg Bool.false_ne_true]
  refine (bind_congr_at (value_expr h) fun _ _ _ => rfl).trans ?_
  simp only [bind_assoc, pure_bind, demand, Scene.flag_ne_zero, bind_pure]

/-- The formula decides, in the order of its leaves, what is done with it after what has been done. -/
structure Governs (S : Setting) (F : Formula) (done : List Deed) : Prop where
  /-- A formula is evaluated when it is come to, whatever is done with it later. -/
  eval : F.isLeaf = false → F.expr.eval S done = (do return .word .bool (some (flag (← F.truth S))) : Eval Operand) done
  value : F.expr.value S done = (do return some (flag (← F.truth S)) : Eval (Option UInt64)) done
  /-- As the condition of a choice or a loop. -/
  test : F.expr.holds S done = F.truth S done
  returned : S.outlets = [.register] → exec S (.ret [F.expr]) done =
    (do return .returned (flag (← F.truth S)) : Eval Exit) done
  assigned : ∀ (v : Variable) a, v.ty = .bool → S.home v.id = some a →
    exec S (.assign none [.ident .bool (.var v)] [F.expr]) done = (do
      let b ← F.truth S
      discard (S.perform (.store .i8 a (flag b)))
      return .done : Eval Exit) done
  passed : ∀ (p : Param) xs ps, p.rule = .direct → evalAll S (F.expr :: xs) (p :: ps) done = (do
    let b ← F.truth S
    return some (flag b) :: (← evalAll S xs ps) : Eval (List (Option UInt64))) done

theorem assign_bool {o : Operand} {a : UInt64} :
    o.assign S (some a) .bool = (do discard (S.perform (.store .i8 a (← demand (← o.value S))))) := by
  cases o <;> rfl

theorem governs (h : F.Boolean S done) : F.Governs S done where
  eval := eval_expr h
  value := value_expr h
  test := holds_expr h
  returned hOutlets := by
    simp only [exec, hOutlets, Expr.returned, List.length_singleton, gt_iff_lt, lt_irrefl, if_false, Expr.operands, pure_bind,
      bind_assoc, Operand.deliver]
    rw [eval_bind_value (value_expr h)]
    rfl
  assigned v a hTy hHome := by
    simp only [exec, Expr.places, Expr.assigned, List.length_singleton, if_true, Expr.operands, Expr.eval, Expr.refer,
      hHome, hTy, pure_bind, Operand.assignAll, assign_bool, bind_assoc]
    rw [eval_bind_value (value_expr h)]
    rfl
  passed p xs ps hRule := by
    simp only [Expr.evalAll, Operand.pass, hRule, bind_assoc, pure_bind]
    rw [eval_bind_value (value_expr h)]
    rfl

end Formula

namespace ProcDecl

variable {p : ProcDecl} {config : Config} {r : Built} {body : List Stmt}

/-- **Logical operators decide as early as they can.** Unless the run ends in the entry of the procedure, it does what the
body says, and whatever formula there is in the body is evaluated as far as it has to be, its leaves from left to right. -/
theorem build_formulas (m : Machine) (args : List UInt64) (h : (p.build config).built = .ok r) (hBody : p.body = some body)
    (hRegular : listRegular body = true) (hOrdered : listOrdered [] body = true)
    (hSteps : m.limits.maxSteps = 0) :
    (ofCall m r.proc args).Barred ∨ ∃ (S : Setting) (ds : List Deed), S.Met config r m args ds ∧
        ((ofCall m r.proc args).Performs fun n => execBody { S with rounds := n } body ds) ∧
          ∀ n (F : Formula) done, F.Boolean { S with rounds := n } done → F.Governs { S with rounds := n } done := by
  rcases build_performs m args h hBody hRegular hOrdered hSteps with hBarred | ⟨S, ds, hMet, hPerforms⟩
  · exact .inl hBarred
  · exact .inr ⟨S, ds, hMet, hPerforms, fun n F done => Formula.governs⟩

end ProcDecl

theorem Expr.value_plainCall {S : Setting} {name : String} : (plainCall name .bool).value S = do
    let a ← demand (S.address name)
    return some (← S.perform (.call a [])) := by
  have hSig : Convention.sig? S.direct [] [.bool] = some ⟨[], [], ⟨.direct, .bool, .i8⟩, [.bool]⟩ := rfl
  simp only [value, plainCall, eval, ProcRef.ty, ty?, invoke, hSig, refer, evalAll, bind_assoc, pure_bind, demand, value,
    mapM_nil]
  refine bind_congr fun a => ?_
  rfl

/-- A call whose procedure has an address gives what it is answered. -/
theorem Expr.value_plainCall_some {S : Setting} {name : String} {a v : UInt64} {done : List Deed}
    (hAddress : S.address name = some a)
    (hGiven : S.given done.length = some v) : (plainCall name .bool).value S done = .ok (some v)
    (done ++ [.call a []]) := by
  rw [value_plainCall, hAddress]
  change EStateM.bind (S.perform _) _ done = _
  rw [EStateM.bind, Setting.perform_some hGiven]
  rfl

/-- A call is a leaf, if it gives a truth value. -/
theorem Formula.boolean_plainCall {S : Setting} {name : String} {done : List Deed}
    (h : ∀ v, S.given done.length = some v → ∃ b, v = flag b) : (leaf (.plainCall name .bool)).Boolean S done := by
  refine ⟨rfl, fun v done' hv => ?_⟩
  cases hAddress : S.address name with
  | none =>
    rw [value_plainCall, hAddress] at hv
    cases hv
  | some a =>
    cases hGiven : S.given done.length with
    | none =>
      rw [value_plainCall, hAddress] at hv
      change EStateM.bind (S.perform _) _ done = _ at hv
      rw [EStateM.bind, Setting.perform_none hGiven] at hv
      cases hv
    | some x =>
      rw [value_plainCall_some hAddress hGiven] at hv
      cases hv
      obtain ⟨b, rfl⟩ := h x hGiven
      exact ⟨b, rfl⟩

/-- A machine with a little stack. -/
def roomy : Machine where
  limits := { maxSteps := 0, stackSize := 64 }
  memory := { stack := Array.replicate 64 0 }
  stackMade := true

/-- It decides whether to decide. -/
def deciding : ProcDecl where
  id := 1
  name := "decide"
  ins := []
  outs := [.bool]
  params := []
  body := some [
    .cond (Formula.and (.leaf (.plainCall "left" .bool)) (.not (.leaf (.plainCall "right" .bool)))).expr
      [.ret [(Formula.or (.not (.leaf (.plainCall "left" .bool))) (.leaf (.plainCall "right" .bool))).expr]] .absent,
    .ret [.bool true]]

def sides : Machine where
  limits := { maxSteps := 0 }
  procs := #[.constant "left" .i8 1, .constant "right" .i8 0]

/-- What is returned is decided by both calls, of which the first holds. -/
theorem ProcDecl.build_formulas_deciding : ∃ r body, (deciding.build {}).built = .ok r ∧ deciding.body = some body ∧
    ∃ (S : Setting) (ds : List Deed), S.Met {} r sides [] ds ∧
      ((ofCall sides r.proc []).Performs fun n => execBody { S with rounds := n } body ds) ∧
        ∀ n done, (Formula.or (.not (.leaf (.plainCall "left" .bool))) (.leaf (.plainCall "right" .bool))).Governs
          { S with rounds := n } done := by
  have hRun : ((deciding.build {}).built.toOption.map fun r =>
      ((tick^[40] (ofCall sides r.proc [])).run.returned?, (tick^[40] (ofCall sides r.proc [])).answers)) =
        some (some 0, [1, 0, 1, 0]) := by
    decide +kernel
  obtain ⟨r, hBuilt, hBoth⟩ := exists_of_map_built hRun
  obtain ⟨hZero, hAnswers⟩ := Prod.mk.inj hBoth
  obtain ⟨m, hReturned⟩ := Run.returned?_eq_some.mp hZero
  rcases build_formulas sides [] hBuilt rfl rfl rfl rfl with
    hBarred | ⟨S, ds, hMet, hPerforms, hGoverns⟩
  · exact absurd hBarred (Watch.not_barred hReturned)
  · have hFlags : ∀ i v, S.given i = some v → ∃ b, v = Word.flag b := fun i v hv => by
      rw [hMet.given.of_returned hReturned, hAnswers] at hv
      have hEach : ∀ v ∈ [(1 : UInt64), 0, 1, 0], v = Word.flag true ∨ v = Word.flag false := by simp [Word.flag]
      rcases hEach v (List.mem_of_getElem? hv) with rfl | rfl
      · exact ⟨true, rfl⟩
      · exact ⟨false, rfl⟩
    refine ⟨r, _, hBuilt, rfl, S, ds, hMet, hPerforms, fun n done => hGoverns n _ done ⟨?_, fun done' _ => ?_⟩⟩
    · exact Formula.boolean_plainCall (S := { S with rounds := n }) (hFlags _)
    · exact Formula.boolean_plainCall (S := { S with rounds := n }) (hFlags _)

/-! ## The end of a body -/

/-- Results in registers are the word that is returned. -/
theorem Sig.eq_of_word_mem_operands {sig : Sig} {slots : List (Nat × UInt64)} {v x : UInt64} {t : Ty}
    (h : word t (some x) ∈ sig.operands slots v) : x = v := by
  rw [operands, mem_mapIdx] at h
  obtain ⟨i, hi, hOperand⟩ := h
  split at hOperand
  · split at hOperand <;> cases hOperand
    rfl
  · split at hOperand
    · cases hOperand
    · split at hOperand <;> cases hOperand

namespace ProcDecl

variable {p : ProcDecl} {config : Config} {r : Built} {body : List Stmt}

/-- **A body whose end is reached returns zero.** Unless the run ends in the entry of the procedure, it then returns with
the deeds of the body and no others, so that nothing is written to where results go in memory, and what the caller gets for
a result in a register is zero. -/
theorem build_runs_out (m : Machine) (args : List UInt64) (h : (p.build config).built = .ok r) (hBody : p.body = some body)
    (hRegular : listRegular body = true) (hOrdered : listOrdered [] body = true) (hSteps : m.limits.maxSteps = 0) :
    (ofCall m r.proc args).Barred ∨ ∃ (S : Setting) (ds : List Deed), S.Met config r m args ds ∧
        ∀ n done, closing (execList { S with rounds := n } body []) ds = .ok .done done →
          (∃ k m', (tick^[k] (ofCall m r.proc args)).run = .returned m' 0 ∧ (tick^[k] (ofCall m r.proc args)).deeds = done) ∧
            ∀ slots t x, Operand.word t (some x) ∈ r.sig.operands slots 0 → x = 0 := by
  rcases build_ends m args h hBody hRegular hOrdered hSteps with hBarred | ⟨S, ds, hMet, hEnds⟩
  · exact .inl hBarred
  refine .inr ⟨S, ds, hMet, fun n done hDone => ?_⟩
  have hZero : execBody { S with rounds := n } body ds = .ok 0 done := by
    change EStateM.bind (closing _) _ ds = _
    rw [EStateM.bind, hDone]
    rfl
  have hEnd := hEnds n
  rw [hZero] at hEnd
  exact ⟨hEnd, fun slots t x => Sig.eq_of_word_mem_operands⟩

end ProcDecl

/-- It returns only on one side. -/
def lapsing : ProcDecl where
  id := 1
  name := "lapse"
  ins := []
  outs := [.s64]
  params := []
  body := some [.cond (.plainCall "right" .bool) [.ret [.int .s64 5]] .absent]

/-- The call gives zero, so that the end of the body is reached. -/
theorem ProcDecl.build_runs_out_lapsing : ∃ r body, (lapsing.build {}).built = .ok r ∧ lapsing.body = some body ∧
    ∃ (S : Setting) (ds : List Deed), S.Met {} r sides [] ds ∧
      ∃ n done, closing (execList { S with rounds := n } body []) ds = .ok .done done ∧
        ∃ k m, (tick^[k] (ofCall sides r.proc [])).run = .returned m 0 ∧
          (tick^[k] (ofCall sides r.proc [])).deeds = done := by
  have hRun : ((lapsing.build {}).built.toOption.map fun r => ((tick^[20] (ofCall sides r.proc [])).run.returned?,
      (tick^[20] (ofCall sides r.proc [])).answers, r.proc.code[0]?.map (·.isSetup))) = some (some 0, [0], some false) := by
    decide +kernel
  obtain ⟨r, hBuilt, hAll⟩ := exists_of_map_built hRun
  obtain ⟨hZero, hRest⟩ := Prod.mk.inj hAll
  obtain ⟨hAnswers, hFirst⟩ := Prod.mk.inj hRest
  obtain ⟨m, hReturned⟩ := Run.returned?_eq_some.mp hZero
  rcases build_runs_out sides [] hBuilt rfl rfl rfl rfl with hBarred | ⟨S, ds, hMet, hEnds⟩
  · exact absurd hBarred (Watch.not_barred hReturned)
  · obtain rfl := hMet.nothing_done hFirst
    have hGiven : S.given ([] : List Deed).length = some 0 := by rw [hMet.given.of_returned hReturned, hAnswers]; rfl
    obtain ⟨a, ha⟩ : ∃ a, S.address "right" = some a := by
      rw [hMet.address]
      exact Option.isSome_iff_exists.mp (by decide +kernel)
    have hTest : (Expr.plainCall "right" .bool).holds S [] = .ok false [.call a []] := by
      change EStateM.bind (Expr.value S _) _ [] = _
      rw [EStateM.bind, Expr.value_plainCall_some ha hGiven]
      rfl
    have hDone : closing (execList S [.cond (.plainCall "right" .bool) [.ret [.int .s64 5]] .absent] []) [] =
        .ok .done [.call a []] := by
      simp only [closing, execList, exec, bind_assoc]
      change EStateM.bind (Expr.holds S _) _ [] = _
      rw [EStateM.bind, hTest]
      rfl
    exact ⟨r, _, hBuilt, rfl, S, [], hMet, S.rounds, _, hDone, (hEnds S.rounds _ hDone).1⟩

/-- Two numbers, which do not fit into a register. -/
def pair : Ty := .struct "Pair" [⟨"a", .s64⟩, ⟨"b", .s64⟩]

/-- It returns a pair for zero, and runs out for other numbers. -/
def drawing : ProcDecl where
  id := 1
  name := "draw"
  ins := [.s64]
  outs := [pair]
  params := [⟨⟨2, "x"⟩, .s64, false⟩]
  body := some [
    .decl ⟨⟨3, "p"⟩, pair, false⟩ .absent,
    .cond (.binary .bool .eq (.ident .s64 (.var ⟨⟨2, "x"⟩, .s64, false⟩)) (.int .s64 0)) [
      .assign none [.field .s64 (.ident pair (.var ⟨⟨3, "p"⟩, pair, false⟩)) "a"] [.int .s64 7],
      .ret [.ident pair (.var ⟨⟨3, "p"⟩, pair, false⟩)]] .absent]

/-- It calls that for zero and then for one, at the same place, and returns what it got last. -/
def drawingTwice : ProcDecl where
  id := 4
  name := "twice"
  ins := []
  outs := [.s64]
  params := []
  body := some [
    .decl ⟨⟨5, "s"⟩, .s64, false⟩ .absent,
    .decl ⟨⟨6, "i"⟩, .s64, false⟩ .absent,
    .whileDo (.binary .bool .lt (.ident .s64 (.var ⟨⟨6, "i"⟩, .s64, false⟩)) (.int .s64 2)) [
      .assign none [.ident .s64 (.var ⟨⟨5, "s"⟩, .s64, false⟩)] [.field .s64
        (.call pair (.ident (.func [.s64] [pair]) (.proc ⟨⟨1, "draw"⟩, [.s64], [pair]⟩))
          [.ident .s64 (.var ⟨⟨6, "i"⟩, .s64, false⟩)]) "a"],
      .assign (some .add) [.ident .s64 (.var ⟨⟨6, "i"⟩, .s64, false⟩)] [.int .s64 1]],
    .ret [.ident .s64 (.var ⟨⟨5, "s"⟩, .s64, false⟩)]]

/-- The last call runs out, and what is got for it is the result of the first. -/
theorem drawingTwice_stale : (do
    let draw ← (drawing.build {}).built.toOption
    let twice ← (drawingTwice.build {}).built.toOption
    (tick^[100] (ofCall { roomy with procs := #[draw.proc] } twice.proc [])).run.returned?) = some 7 := by
  decide +kernel

end Comptime
