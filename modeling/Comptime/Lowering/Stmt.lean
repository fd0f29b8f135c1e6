import Comptime.Lowering.Expr
import Comptime.Lowering.Scope

/-!
# Lowering statements

Control flow becomes branches between regions. A statement that cannot be reached is not lowered at all. Leaving a scope,
by reaching its end or by a jump or return out of it, first runs what it deferred.
-/

namespace Comptime

namespace Build

/-! ## Jump targets -/

/-- Opens a loop or a switch at scope depth `n`. -/
def openTarget (isLoop : Bool) (n : Nat) : Build Unit :=
  modify fun b => { b with targets := ⟨isLoop, n, [], [], []⟩ :: b.targets }

/-- Closes the innermost loop or switch and returns the jumps it has collected. -/
def closeTarget : Build JumpTarget := do
  match (← get).targets with
  | t :: ts => modify fun b => { b with targets := ts }; return t
  | [] => fault

/-- The innermost loop, or the innermost loop or switch. -/
def innermost (loopOnly : Bool) : Build (Option JumpTarget) :=
  return (← get).targets.find? fun t => t.isLoop || !loopOnly

/-- Changes the first of the targets that is a loop, or the first at all. -/
def updateFirst (loopOnly : Bool) (f : JumpTarget → JumpTarget) : List JumpTarget → List JumpTarget
  | [] => []
  | t :: ts => if t.isLoop || !loopOnly then f t :: ts else t :: updateFirst loopOnly f ts

def updateTarget (loopOnly : Bool) (f : JumpTarget → JumpTarget) : Build Unit :=
  modify fun b => { b with targets := updateFirst loopOnly f b.targets }

/-! ## Assignments -/

/-- Lowers expressions that are assigned to. -/
def places : List Expr → Build (List (Ty × Reg))
  | [] => pure []
  | x :: xs => do
    match ← expr x with
    | .place t r => return (t, r) :: (← places xs)
    | _ => reject (.notAssignable x.kind)

/-- Lowers expressions to copies that later stores do not affect. -/
def detachedValues : List Expr → Build (List Value)
  | [] => pure []
  | x :: xs => do
    let v ← detach (← expr x)
    return v :: (← detachedValues xs)

def values : List Expr → Build (List Value)
  | [] => pure []
  | x :: xs => do
    let v ← expr x
    return v :: (← values xs)

/-- Stores values in order. -/
def assignAll : List (Ty × Reg) → List Value → Build Unit
  | (t, r) :: ds, v :: vs => do assignTo r t v; assignAll ds vs
  | _, _ => pure ()

/-- A plain assignment. The results of one call may go to many targets; of many values all are read before any target
is written. -/
def assign (lhs rhs : List Expr) : Build Unit := do
  match rhs with
  | [x] =>
    if lhs.length = 1 then
      let ds ← places lhs
      let v ← expr x
      assignAll ds [v]
    else match x with
      | .call .. =>
        let ds ← places lhs
        let all := (← results x).2
        if all.length ≠ ds.length then reject (.resultCount ds.length all.length)
        assignAll ds all
      | _ => reject (.oneValue lhs.length)
  | _ =>
    if lhs.length ≠ rhs.length then reject (.valueCount lhs.length rhs.length)
    let ds ← places lhs
    let vs ← detachedValues rhs
    assignAll ds vs

/-- An assignment that combines the target with a value. -/
def compound (op : BinaryOp) (lhs rhs : List Expr) : Build Unit := do
  match lhs, rhs with
  | [target], [x] =>
    match ← expr target with
    | .place t addr =>
      let l ← value (.place t addr)
      let r ← value (← expr x)
      match op.instr t with
      | .ok i =>
        let rt ← regType t
        let v ← bin i rt l r
        store rt addr v (← extent t).align
      | .error e => reject e
    | _ => reject (.notAssignable target.kind)
  | _, _ => reject (.compoundTargets lhs.length)

/-- Declares a local. It is in scope in its own initializer. -/
def declare (v : Variable) (init : Expr) : Build Unit := do
  let slot ← reserve (← extent v.ty)
  bindSlot v slot
  if init.isAbsent then zero slot v.ty
  else assignTo slot v.ty (← expr init)

/-! ## Conditions and returns -/

/-- Lowers a condition. The code that follows runs if it holds; the edge is taken if it does not. -/
def condition (x : Expr) : Build Edge := do
  match ← expr x with
  -- where the paths meet becomes the entry of the true path
  | .pending _ p => return ⟨p.leaveFalse, none⟩
  | v => return (← branchFalse (← value v)).2

/-- The same for a condition that may be missing, and then always holds. -/
def optionalCondition (x : Expr) : Build (List Edge) := do
  if x.isAbsent then return []
  return [← condition x]

/-- A jump over what follows, if it is needed. -/
def skip : Build (List Edge) := do
  if (← get).dead then return []
  return [← jump]

/-- The values of a return statement for `n` results. -/
def returnValues (n : Nat) (xs : List Expr) : Build (List Value) := do
  if n > 1 ∧ xs.length = 1 then
    match xs with
    | [.call t f args] =>
      let all := (← results (.call t f args)).2
      if all.length ≠ n then reject (.returnCount all.length n)
      return all
    | _ => reject (.returnOne n)
  else if xs.length ≠ n then reject (.returnCount xs.length n)
  else values xs

/-- Puts the results where the caller expects them: those with a pointer through it, the last one in a register. -/
def placeResults (i : Nat) (r : Reg) : List Ty → List Value → Build Reg
  | t :: ts, v :: vs => do
    let b ← get
    match b.outs.lookup i with
    | some out =>
      assignTo out t v
      placeResults (i + 1) r ts vs
    | none =>
      let r ← if b.sig.ret.rule = .direct then value v else pure r
      placeResults (i + 1) r ts vs
  | _, _ => pure r

/-- Returns from the procedure. Deferred statements run once the results are computed; one that returns itself decides
what is returned. -/
def returnStmt (n : Nat) (s : Scopes n) (xs : List Expr) : Build (Scopes n) := do
  let results := (← get).sig.results
  let vs ← returnValues results.length xs
  let r ← placeResults 0 noReg results vs
  let s ← holding (replay 0 n s)
  let b ← get
  if b.dead then return s
  ret b.sig.retReg r
  return s

/-- A jump to a loop or switch around this point, which collects it by `f`. -/
def jumpOut (n : Nat) (s : Scopes n) (loopOnly : Bool) (t : JumpTarget) (f : Edge → JumpTarget → JumpTarget) :
    Build (Scopes n) := do
  let s ← replay t.depth n s
  let e ← jump
  updateTarget loopOnly (f e)
  return s

/-- The index of the default case, the last one if there are several. -/
def defaultCase? {α : Type} (cs : List (Case α)) : Option Nat :=
  (cs.mapIdx fun i c => (c.values.isEmpty, i)).reverse.lookup true

/-! ## Statements -/

/-- Leads the arms of a dispatch to a place, one for each of the values, from the arm `first` on. -/
def patchArms (br first : Nat) (target : Nat) : List Int64 → Build Unit
  | [] => pure ()
  | _ :: vs => do patch ⟨br, some first⟩ target; patchArms br (first + 1) target vs

/-- Runs `code` unless this point cannot be reached, and takes back the registers it used. -/
def unlessDead {α : Type} (a : α) (code : Build α) : Build α := do
  if (← get).dead then return a
  let a ← code
  reclaim
  return a

mutual

/-- Lowers a statement in the scopes around it. -/
def stmt : Stmt → (n : Nat) → Scopes n → Build (Scopes n)
  | .absent, _, s => unlessDead s (reject (.unsupportedStmt "<nil>"))
  | .block l, n, s => unlessDead s (inScope n s (stmts l (n + 1)))
  | .expr x, _, s => unlessDead s do
    discard (expr x)
    return s
  | .decl v init, _, s => unlessDead s do
    declare v init
    return s
  | .assign none lhs rhs, _, s => unlessDead s do
    assign lhs rhs
    return s
  | .assign (some op) lhs rhs, _, s => unlessDead s do
    compound op lhs rhs
    return s
  | .cond test yes no, n, s => unlessDead s do
    let otherwise ← condition test
    let s ← unlessDead s (inScope n s (stmts yes (n + 1)))
    if no.isAbsent then
      patch otherwise (← region)
      return s
    let exit ← skip
    patch otherwise (← region)
    let s ← stmt no n s
    -- neither branch gets to its end, so that nothing can follow
    if exit.isEmpty && (← get).dead then return s
    patchAll exit (← region)
    return s
  | .loop init test post body, n, s => unlessDead s do
    if post.isDefer then reject .deferAsPost
    inScope n s fun s => do
      let s ← if init.isAbsent then pure s else stmt init (n + 1) s
      let head ← region
      let exits ← optionalCondition test
      openTarget true (n + 1)
      let s ← unlessDead s (inScope (n + 1) s (stmts body (n + 2)))
      let t ← closeTarget
      let next ← if post.isAbsent then pure head else region
      let s ← if post.isAbsent then pure s else stmt post (n + 1) s
      if !(← get).dead then jumpTo head
      -- a loop without a way out has no exit
      if !exits.isEmpty || !t.breaks.isEmpty then
        let exit ← region
        patchAll exits exit
        patchAll t.breaks exit
      patchAll t.continues next
      return s
  | .whileDo test body, n, s => unlessDead s do
    let head ← region
    let otherwise ← condition test
    openTarget true n
    let s ← unlessDead s (inScope n s (stmts body (n + 1)))
    if !(← get).dead then jumpTo head
    let t ← closeTarget
    let exit ← region
    patch otherwise exit
    patchAll t.breaks exit
    patchAll t.continues head
    return s
  | .doWhile test body, n, s => unlessDead s do
    let head ← region
    openTarget true n
    let s ← unlessDead s (inScope n s (stmts body (n + 1)))
    let t ← closeTarget
    let next ← region
    let otherwise ← condition test
    jumpTo head
    let exit ← region
    patch otherwise exit
    patchAll t.breaks exit
    patchAll t.continues next
    return s
  | .switch tag cs, n, s => unlessDead s do
    let r ← value (← expr tag)
    let br ← switch r (cs.flatMap (·.values))
    openTarget false n
    let s ← cases br (defaultCase? cs) 0 0 cs n s
    let t ← closeTarget
    let exit ← region
    if (defaultCase? cs).isNone then patch ⟨br, none⟩ exit
    patchAll t.breaks exit
    -- these fall through from the last case
    patchAll t.falls exit
    return s
  | .breakOut, n, s => unlessDead s do
    match ← innermost false with
    | some t => jumpOut n s false t fun e t => { t with breaks := t.breaks ++ [e] }
    | none => reject .breakOutside
  | .continueLoop, n, s => unlessDead s do
    match ← innermost true with
    | some t => jumpOut n s true t fun e t => { t with continues := t.continues ++ [e] }
    | none => reject .continueOutside
  | .fallthrough, n, s => unlessDead s do
    match ← innermost false with
    | some t =>
      if t.isLoop then reject .fallthroughOutside
      jumpOut n s false t fun e t => { t with falls := t.falls ++ [e] }
    | none => reject .fallthroughOutside
  | .ret xs, n, s => unlessDead s (returnStmt n s xs)
  | .defer d, n, s => unlessDead s (Scopes.defer n s (stmt d))
termination_by structural x => x

/-- Lowers statements one after the other. -/
def stmts : List Stmt → (n : Nat) → Scopes n → Build (Scopes n)
  | [], _, s => pure s
  | x :: xs, n, s => do
    let s ← stmt x n s
    stmts xs n s
termination_by structural xs => xs

/-- Lowers the cases of a switch from index `i` on, whose values are the arms of the dispatch from `arm` on. -/
def cases (br : Nat) (default : Option Nat) : (i arm : Nat) → List (Case Stmt) → (n : Nat) → Scopes n → Build (Scopes n)
  | _, _, [], _, s => pure s
  | i, arm, c :: cs, n, s => do
    let r ← region
    patchArms br arm r c.values
    if default = some i then patch ⟨br, none⟩ r
    match (← get).targets with
    | t :: _ =>
      patchAll t.falls r
      updateTarget false fun t => { t with falls := [] }
    | [] => fault
    let s ← inScope n s (stmts c.body (n + 1))
    -- a case that gets to its end leaves the switch
    if !(← get).dead then
      let e ← jump
      updateTarget false fun t => { t with breaks := t.breaks ++ [e] }
    cases br default (i + 1) (arm + c.values.length) cs n s
termination_by structural _ _ cs => cs

end

end Build

end Comptime
