import Comptime.Lowering.Build
import Comptime.Proofs.Shape.Basic
import Mathlib.Algebra.GroupWithZero.Nat

/-!
# The shape of statements

`Flow` relates the sites before and after the code of a statement. A `Site` has the position and what else lowering a
statement depends on: whether the site can be reached, the addresses of locals, and the statements deferred so far in
each of the scopes around it. Loops and switches around a statement are given by the positions that jumps out of them
lead to.

What a scope has deferred is lowered again at each way out of it, so a `Flow` of a statement contains those of the
statements it runs on leaving, under `Task.leave` and `Task.deferred`.
-/

namespace Comptime

namespace Shape

/-! ## Assignments, conditions and returns -/

def places : List Expr → Shape (List (Ty × Reg))
  | [] => pure []
  | x :: xs => do
    match ← expr x with
    | .place t r => return (t, r) :: (← places xs)
    | _ => never

def detachedValues : List Expr → Shape (List Value)
  | [] => pure []
  | x :: xs => do
    let v ← expr x
    let v ← detach v
    return v :: (← detachedValues xs)

def values : List Expr → Shape (List Value)
  | [] => pure []
  | x :: xs => do
    let v ← expr x
    return v :: (← values xs)

def assignAll : List (Ty × Reg) → List Value → Shape Unit
  | (t, r) :: ds, v :: vs => do
    assignTo r t v
    assignAll ds vs
  | _, _ => pure ()

def assign (lhs rhs : List Expr) : Shape Unit :=
  match rhs with
  | [x] =>
    if lhs.length = 1 then do
      let ds ← places lhs
      let v ← expr x
      assignAll ds [v]
    else match x with
      | .call t f args => do
        let ds ← places lhs
        let all := (← results (.call t f args)).2
        check (all.length = ds.length)
        assignAll ds all
      | _ => never
  | rhs => do
    check (lhs.length = rhs.length)
    let ds ← places lhs
    let vs ← detachedValues rhs
    assignAll ds vs

def compound (op : BinaryOp) (lhs rhs : List Expr) : Shape Unit :=
  match lhs, rhs with
  | [target], [x] => do
    match ← expr target with
    | .place t addr =>
      let l ← value (.place t addr)
      let v ← expr x
      let r ← value v
      match op.instr t with
      | .ok i =>
        let rt ← demand t.regType?
        let v ← bin i rt l r
        let e ← demand t.extent?
        instr (.store rt addr v e.align)
      | .error _ => never
    | _ => never
  | _, _ => never

/-- The first value of a local in a slot. -/
def declared (slot : Reg) (v : Variable) (init : Expr) : Shape Unit :=
  if init.isAbsent then zero slot v.ty
  else do
    let x ← expr init
    assignTo slot v.ty x

/-- A condition, by where it leads if it does not hold. -/
def condition (x : Expr) : Shape Nat := do
  match ← expr x with
  | .pending _ q =>
    let no ← given
    settle q q.merge no
    return no
  | v => return (← branchFalse (← value v)).2

def returnValues (n : Nat) (xs : List Expr) : Shape (List Value) :=
  if n > 1 ∧ xs.length = 1 then
    match xs with
    | [.call t f args] => do
      let all := (← results (.call t f args)).2
      check (all.length = n)
      return all
    | _ => never
  else do
    check (xs.length = n)
    values xs

def placeResults (i : Nat) (r : Reg) : List Ty → List Value → Shape Reg
  | t :: ts, v :: vs => do
    let T ← text
    match T.outs.lookup i with
    | some out =>
      assignTo out t v
      placeResults (i + 1) r ts vs
    | none =>
      if T.sig.ret.rule = .direct then
        let r ← value v
        placeResults (i + 1) r ts vs
      else
        drop v
        placeResults (i + 1) r ts vs
  | _, _ => pure r

/-- The results of a return statement, put where the caller expects them. -/
def returned (xs : List Expr) : Shape Reg := do
  let T ← text
  let vs ← returnValues T.sig.results.length xs
  placeResults 0 noReg T.sig.results vs

end Shape

/-! ## Sites -/

/-- A position between statements, and what lowering knows there. -/
structure Site where
  pos : Nat
  /-- No register from this one on has been used. -/
  high : Nat
  /-- Control cannot get here. -/
  dead : Bool
  slots : List (Nat × Reg)
  linked : Bool
  /-- The statements deferred in each scope around, innermost scope first. -/
  scopes : List (List Stmt)

/-- Where jumps out of a loop or a switch lead; nowhere if there are none. -/
structure Target where
  isLoop : Bool
  depth : Nat
  onBreak : Option Nat
  onContinue : Option Nat
  onFall : Option Nat

namespace Text

variable (T : Text)

/-- Straight code at a site, in registers from `floor` on. -/
def Runs {α : Type} (floor : Nat) (x : Shape α) (s : Site) (a : α) (s' : Site) : Prop :=
  s.dead = false ∧ ∃ n p, floor ≤ n ∧ x { T with slots := s.slots } ⟨s.pos, n, s.high⟩ a p ∧
    s' = { s with pos := p.pos, high := p.high }

def Region (s : Site) (pos : Nat) (s' : Site) : Prop :=
  pos = s.pos ∧ T.code[s.pos]? = some .region ∧ s' = { s with pos := s.pos + 1, dead := false }

def Jump (s : Site) (target : Nat) (s' : Site) : Prop :=
  T.code[s.pos]? = some (.branch noReg [] target) ∧ s' = { s with pos := s.pos + 1, dead := true }

/-- A jump, if the site can be reached. -/
def Skip (s : Site) (target : Nat) (s' : Site) : Prop :=
  (s.dead = true ∧ s' = s) ∨ (s.dead = false ∧ T.Jump s target s')

end Text

/-- The arms of the dispatch of a switch, by where its cases start. -/
def Case.arms {α : Type} : List (Case α) → List Nat → List Arm
  | c :: cs, start :: starts => c.values.map (⟨·, start⟩) ++ arms cs starts
  | _, _ => []

/-! ## Flow -/

/-- What a stretch of code was lowered from. -/
inductive Task where
  | stmt (x : Stmt)
  | stmts (xs : List Stmt)
  /-- Statements in a scope of their own. -/
  | scope (xs : List Stmt)
  /-- The end of a scope. -/
  | close
  /-- What the scopes deeper than `depth` have deferred. -/
  | leave (depth : Nat)
  /-- Deferred statements. `kept` is how the scopes look to those that are left afterwards. -/
  | deferred (ds : List Stmt) (kept : List (List Stmt))
  /-- The cases of a switch, by where they start and where control goes on after the last one. -/
  | cases (cs : List (Case Stmt)) (starts : List Nat) (exit : Nat)

open Shape in
inductive Flow (T : Text) : List Target → (floor : Nat) → Task → Site → Site → Prop
  | dead {ts floor x s} : s.dead = true → Flow T ts floor (.stmt x) s s
  | block {ts floor l s s'} : s.dead = false → Flow T ts floor (.scope l) s s' → Flow T ts floor (.stmt (.block l)) s s'
  | expr {ts floor x s s'} :
    T.Runs floor (do drop (← expr x)) s () s' →
    Flow T ts floor (.stmt (.expr x)) s s'
  | decl {ts floor v init e slot s s1 s'} :
    v.ty.extent? = some e →
    T.Runs floor (reserve e) s slot s1 →
    T.Runs floor (declared slot v init) { s1 with slots := (v.id, slot) :: s1.slots } () s' →
    Flow T ts floor (.stmt (.decl v init)) s s'
  | assign {ts floor lhs rhs s s'} :
    T.Runs floor (assign lhs rhs) s () s' →
    Flow T ts floor (.stmt (.assign none lhs rhs)) s s'
  | compound {ts floor op lhs rhs s s'} :
    T.Runs floor (compound op lhs rhs) s () s' →
    Flow T ts floor (.stmt (.assign (some op) lhs rhs)) s s'
  | cond {ts floor test yes no otherwise s s1 s2 s'} :
    T.Runs floor (condition test) s otherwise s1 →
    Flow T ts floor (.scope yes) s1 s2 →
    no.isAbsent = true →
    T.Region s2 otherwise s' →
    Flow T ts floor (.stmt (.cond test yes no)) s s'
  | condElse {ts floor test yes no otherwise exit s s1 s2 s3 s4 s5 s'} :
    T.Runs floor (condition test) s otherwise s1 →
    Flow T ts floor (.scope yes) s1 s2 →
    no.isAbsent = false →
    T.Skip s2 exit s3 →
    T.Region s3 otherwise s4 →
    Flow T ts floor (.stmt no) s4 s5 →
    (if s2.dead = true ∧ s5.dead = true then s' = s5 else T.Region s5 exit s') →
    Flow T ts floor (.stmt (.cond test yes no)) s s'
  | loop {ts floor init test post body head next exit t s s1 s2 s3 s4 s5 s6 s7 s8 s'} :
    s.dead = false →
    (init.isAbsent = true → s1 = { s with linked := false, scopes := [] :: s.scopes }) →
    (init.isAbsent = false → Flow T ts floor (.stmt init) { s with linked := false, scopes := [] :: s.scopes } s1) →
    T.Region s1 head s2 →
    (if test.isAbsent then s3 = s2 else ∃ otherwise, exit = some otherwise ∧ T.Runs floor (condition test) s2 otherwise s3) →
    t = ⟨true, s.scopes.length + 1, exit, some next, none⟩ →
    Flow T (t :: ts) floor (.scope body) s3 s4 →
    (post.isAbsent = true → next = head ∧ s6 = s4) →
    (post.isAbsent = false → T.Region s4 next s5) →
    (post.isAbsent = false → Flow T ts floor (.stmt post) s5 s6) →
    T.Skip s6 head s7 →
    (match exit with | none => s8 = s7 | some pos => T.Region s7 pos s8) →
    Flow T ts floor .close s8 s' →
    Flow T ts floor (.stmt (.loop init test post body)) s s'
  | whileDo {ts floor test body head exit s s1 s2 s3 s4 s'} :
    s.dead = false →
    T.Region s head s1 →
    T.Runs floor (condition test) s1 exit s2 →
    Flow T (⟨true, s.scopes.length, some exit, some head, none⟩ :: ts) floor (.scope body) s2 s3 →
    T.Skip s3 head s4 →
    T.Region s4 exit s' →
    Flow T ts floor (.stmt (.whileDo test body)) s s'
  | doWhile {ts floor test body head next exit s s1 s2 s3 s4 s5 s'} :
    s.dead = false →
    T.Region s head s1 →
    Flow T (⟨true, s.scopes.length, some exit, some next, none⟩ :: ts) floor (.scope body) s1 s2 →
    T.Region s2 next s3 →
    T.Runs floor (condition test) s3 exit s4 →
    T.Jump s4 head s5 →
    T.Region s5 exit s' →
    Flow T ts floor (.stmt (.doWhile test body)) s s'
  | switch {ts floor tag cs r starts default exit s s1 s2 s'} :
    T.Runs floor (do value (← Shape.expr tag)) s r s1 →
    T.code[s1.pos]? = some (.branch r (Case.arms cs starts) (default : Nat)) →
    starts.length = cs.length →
    (match Build.defaultCase? cs with | none => default = exit | some i => starts[i]? = some default) →
    Flow T (⟨false, s.scopes.length, some exit, none, some exit⟩ :: ts) floor (.cases cs starts exit)
      { s1 with pos := s1.pos + 1, dead := true } s2 →
    T.Region s2 exit s' →
    Flow T ts floor (.stmt (.switch tag cs)) s s'
  | breakOut {ts floor t pos s s1 s'} :
    s.dead = false →
    ts.head? = some t →
    t.onBreak = some pos →
    Flow T ts floor (.leave t.depth) s s1 →
    T.Jump { s1 with linked := s.linked } pos s' →
    Flow T ts floor (.stmt .breakOut) s s'
  | continueLoop {ts floor t pos s s1 s'} :
    s.dead = false →
    ts.find? (·.isLoop) = some t →
    t.onContinue = some pos →
    Flow T ts floor (.leave t.depth) s s1 →
    T.Jump { s1 with linked := s.linked } pos s' →
    Flow T ts floor (.stmt .continueLoop) s s'
  | fallthrough {ts floor t pos s s1 s'} :
    s.dead = false →
    ts.head? = some t →
    t.onFall = some pos →
    Flow T ts floor (.leave t.depth) s s1 →
    T.Jump { s1 with linked := s.linked } pos s' →
    Flow T ts floor (.stmt .fallthrough) s s'
  | ret {ts floor xs n p r s s1 s'} :
    s.dead = false →
    floor ≤ n →
    returned xs { T with slots := s.slots } ⟨s.pos, n, s.high⟩ r p →
    Flow T ts p.next (.leave 0) { s with pos := p.pos, high := p.high } s1 →
    (if s1.dead = true then s' = { s1 with linked := s.linked }
      else T.code[s1.pos]? = some (.ret T.sig.retReg r) ∧
        s' = { s1 with pos := s1.pos + 1, dead := true, linked := s.linked }) →
    Flow T ts floor (.stmt (.ret xs)) s s'
  | defer {ts floor d ds outer s} :
    s.dead = false →
    s.scopes = ds :: outer →
    Flow T ts floor (.stmt (.defer d)) s { s with scopes := (ds ++ [d]) :: outer }
  | nil {ts floor s} : Flow T ts floor (.stmts []) s s
  | cons {ts floor x xs s s1 s'} :
    Flow T ts floor (.stmt x) s s1 →
    Flow T ts floor (.stmts xs) s1 s' →
    Flow T ts floor (.stmts (x :: xs)) s s'
  | scope {ts floor xs s s1 s'} :
    Flow T ts floor (.stmts xs) { s with linked := false, scopes := [] :: s.scopes } s1 →
    Flow T ts floor .close s1 s' →
    Flow T ts floor (.scope xs) s s'
  | closeDead {ts floor s} :
    s.dead = true →
    Flow T ts floor .close s { s with scopes := s.scopes.tail }
  | close {ts floor s s1} :
    s.dead = false →
    Flow T ts floor (.leave (s.scopes.length - 1)) s s1 →
    Flow T ts floor .close s { s1 with linked := s.linked, scopes := s1.scopes.tail }
  | stay {ts floor depth s} :
    s.scopes.length ≤ depth →
    Flow T ts floor (.leave depth) s s
  | leave {ts floor depth ds outer s s1 s2} :
    s.scopes = ds :: outer →
    depth ≤ outer.length →
    Flow T ts floor (.deferred ds.reverse outer) { s with linked := true, scopes := outer } s1 →
    Flow T ts floor (.leave depth) s1 s2 →
    Flow T ts floor (.leave depth) s { s2 with scopes := ds :: s2.scopes }
  | undeferred {ts floor kept s} :
    Flow T ts floor (.deferred [] kept) s { s with scopes := kept }
  | deferred {ts floor d ds kept s s1 s'} :
    Flow T ts floor (.stmt d) s s1 →
    Flow T ts floor (.deferred ds (if s1.linked then s1.scopes else kept)) s1 s' →
    Flow T ts floor (.deferred (d :: ds) kept) s s'
  | noCases {ts floor exit s} : Flow T ts floor (.cases [] [] exit) s s
  | case {t ts floor c cs start starts exit s s1 s2 s3 s'} :
    T.Region s start s1 →
    Flow T ({ t with onFall := some (starts.headD exit) } :: ts) floor (.scope c.body) s1 s2 →
    T.Skip s2 exit s3 →
    Flow T (t :: ts) floor (.cases cs starts exit) s3 s' →
    Flow T (t :: ts) floor (.cases (c :: cs) (start :: starts) exit) s s'

/-! ## Procedures -/

/-- The registers of a parameter. -/
def Param.width (p : Param) : Nat := if p.rule = .ignore then 0 else 1

theorem Sig.length_regParams (sig : Sig) : sig.regParams.length = sig.hidden.length + (sig.params.map Param.width).sum := by
  rw [regParams, List.length_append, List.length_map, List.length_map]
  congr 1
  induction sig.params with
  | nil => rfl
  | cons p ps ih =>
    rw [List.map_cons, List.sum_cons, ← ih, Param.width]
    cases hRule : p.rule <;> simp [hRule, Nat.add_comm]

namespace Shape

/-- Stack memory that is taken right here. -/
def reserveHere (e : Extent) : Shape Reg where
  Looks T p r p' := r = p.high ∧ T.fixed p.high ∧ T.code[p.pos]? = some (.reserve p.high e.size e.align) ∧
    p' = { p with pos := p.pos + 1, high := p.high + 1 }
  rises := fun ⟨_, _, _, hEq⟩ => hEq ▸ Nat.le_refl _

/-- A parameter that arrives in register `r`, by the slot of its variable. -/
def enterParam (r : Nat) (p : Param) (v : Option Variable) : Shape (List (Nat × Reg)) :=
  match p.rule, v with
  | .ignore, none | .direct, none => pure []
  | .ignore, some v => do
    let e ← demand p.ty.extent?
    return [(v.id, ← reserveHere ⟨0, e.align⟩)]
  | .direct, some v => do
    let e ← demand p.ty.extent?
    let slot ← reserveHere e
    instr (.store p.reg slot r e.align)
    return [(v.id, slot)]
  | .indirect, v => do
    let T ← text
    check (T.fixed r)
    return (v.map fun v => (v.id, (r : Reg))).toList

/-- Parameters that arrive in the registers from `r` on, by the slots of their variables, the last one in front. -/
def enterParams (r : Nat) : List Param → List Variable → Shape (List (Nat × Reg))
  | [], _ => pure []
  | p :: ps, vs => do
    let slot ← enterParam r p vs.head?
    let slots ← enterParams (r + p.width) ps vs.tail
    return slots ++ slot

/-- The end of a procedure that is reached. -/
def implicitReturn : Shape Unit := do
  let T ← text
  if T.sig.retReg = .void then instr (.ret T.sig.retReg noReg)
  else instr (.ret T.sig.retReg (← imm T.sig.retReg 0))

end Shape

/-- Finished code of a procedure: the parameters are entered, memory is taken, and then there is the body, in a scope of its
own. -/
structure Text.Lowers (T : Text) (params : List Variable) (body : List Stmt) (entry : Point) (slots : List (Nat × Reg))
    (stop : Site) : Prop where
  entered : ∃ n, Shape.enterParams T.sig.hidden.length T.sig.params params T ⟨0, n, T.sig.regParams.length⟩ slots entry
  entry_le : entry.pos ≤ T.start
  /-- From there on memory is taken, each time in a register that has not been used for that before. -/
  reserved : ∀ i, entry.pos ≤ i → i < T.start →
    ∃ (r : Nat) (size align : Int64), T.code[i]? = some (.reserve r size align) ∧ T.fixed r ∧ entry.high ≤ r ∧
      ∀ j, entry.pos ≤ j → j < T.start → ∀ size' align', T.code[j]? = some (.reserve r size' align') → j = i
  fixed_lt : ∀ r, T.fixed r → r < T.numRegs
  high_le : entry.high ≤ T.numRegs
  outs : T.outs = (T.sig.hidden.mapIdx fun i h => (h.result, (i : Reg))).reverse
  outs_fixed : ∀ i < T.sig.hidden.length, T.fixed i
  flow : Flow T [] 0 (.scope body) ⟨T.start, entry.high, false, slots, false, []⟩ stop
  ending : if stop.dead then T.code.size = stop.pos
    else ∃ n p, Shape.implicitReturn T ⟨stop.pos, n, stop.high⟩ () p ∧ T.code.size = p.pos

end Comptime
