import Comptime.Tree

/-!
# Programs with names

The tree as it is written down: names are not resolved yet and most expressions leave their type to be worked out.
`Source.program?` makes a checked tree of it. A procedure has one flat table of locals, which starts with its
parameters; a declaration statement adds its name once its initializer has been read. Any other name is that of a
declaration, the last one if there are several.
-/

namespace Comptime.Source

/-- An expression. Where a type is optional, giving it makes the node with just that type. -/
inductive Expr where
  | absent
  | int (ty : Ty) (value : Int64)
  | float (ty : Ty) (bits : UInt64)
  | bool (value : Bool)
  | ref (name : String) (ty : Option Ty)
  /-- A variable that is declared nowhere. -/
  | undeclared (name : String) (ty : Ty) (isGlobal : Bool)
  /-- A reference to nothing. -/
  | dangling (ty : Ty)
  | binary (op : BinaryOp) (l r : Expr) (ty : Option Ty)
  | unary (op : UnaryOp) (x : Expr) (ty : Option Ty)
  | call (fn : Expr) (args : List Expr) (ty : Option Ty)
  | cast (ty : Ty) (x : Expr)
  | field (x : Expr) (name : String) (ty : Option Ty)
  | index (x i : Expr) (ty : Option Ty)
deriving Repr

instance : Inhabited Expr := ⟨.absent⟩

inductive Stmt where
  | absent
  | block (body : List Stmt)
  | expr (x : Expr)
  | decl (name : String) (ty : Ty) (init : Expr)
  | assign (op : Option BinaryOp) (lhs rhs : List Expr)
  | cond (test : Expr) (thenBody : List Stmt) (otherwise : Stmt)
  | loop (init : Stmt) (test : Expr) (post : Stmt) (body : List Stmt)
  | whileDo (test : Expr) (body : List Stmt)
  | doWhile (test : Expr) (body : List Stmt)
  | switch (tag : Expr) (cases : List (Case Stmt))
  | breakOut
  | continueLoop
  | fallthrough
  | ret (results : List Expr)
  | defer (s : Stmt)
deriving Repr

instance : Inhabited Stmt := ⟨.absent⟩

inductive Decl where
  | proc (name : String) (params : List (String × Ty)) (ins outs : List Ty) (body : Option (List Stmt))
  | var (name : String) (ty : Ty) (init : Expr) (isGlobal : Bool)
  | type (name : String) (ty : Ty)
  | run (x : Expr)
deriving Repr

instance : Inhabited Decl := ⟨.run .absent⟩

/-- The declared name. -/
def Decl.name : Decl → String
  | proc n .. | var n .. | type n _ => n
  | run _ => ""

/-- The state of resolving: the locals in scope, latest first, and the next identity. -/
structure Names where
  locals : List (String × Variable) := []
  fresh : Nat
deriving Inhabited

/-- Resolving keeps track of names and may come upon something it cannot make a node of. -/
abbrev Resolve := StateT Names (Except Abort)

/-- The declarations a name can refer to, latest first. -/
abbrev Globals := List (String × Ref)

def freshVar (name : String) (ty : Ty) (isGlobal : Bool) : Resolve Variable := do
  let s ← get
  set { s with fresh := s.fresh + 1 }
  return { id := s.fresh, name, ty, isGlobal }

def lookup (gs : Globals) (name : String) : Resolve Ref := do
  match (← get).locals.lookup name with
  | some v => return .var v
  | none => return (gs.lookup name).getD .nothing

/-- A node of the given type, or of the type its parts determine. -/
def typed (ty : Option Ty) (node : Ty → Comptime.Expr) (made : Except Abort Comptime.Expr) : Resolve Comptime.Expr :=
  match ty with
  | some t => pure (node t)
  | none => liftM made

mutual

/-- Operands are resolved from left to right, before the node itself is made. -/
def expr (gs : Globals) : Expr → Resolve Comptime.Expr
  | .absent => pure .absent
  | .int t v => pure (.int t v)
  | .float t b => pure (.float t b)
  | .bool b => pure (.bool b)
  | .ref n t => do
    let r ← lookup gs n
    typed t (fun t => .ident t r) (Expr.ofRef? r)
  | .undeclared n t g => do
    let v ← freshVar n t g
    return .ident t (.var v)
  | .dangling t => pure (.ident t .nothing)
  | .binary op l r t => do
    let l ← expr gs l
    let r ← expr gs r
    typed t (fun t => .binary t op l r) (Expr.ofBinary? op l r)
  | .unary op x t => do
    let x ← expr gs x
    typed t (fun t => .unary t op x) (Expr.ofUnary? op x)
  | .call f args t => do
    let f ← expr gs f
    let args ← exprs gs args
    typed t (fun t => .call t f args) (Expr.ofCall? f args)
  | .cast t x => return .cast t (← expr gs x)
  | .field x n t => do
    let x ← expr gs x
    typed t (fun t => .field t x n) (Expr.ofField? x n)
  | .index x i t => do
    let x ← expr gs x
    let i ← expr gs i
    typed t (fun t => .index t x i) (Expr.ofIndex? x i)
termination_by structural x => x

def exprs (gs : Globals) : List Expr → Resolve (List Comptime.Expr)
  | [] => pure []
  | x :: xs => return (← expr gs x) :: (← exprs gs xs)
termination_by structural xs => xs

end

mutual

def stmt (gs : Globals) : Stmt → Resolve Comptime.Stmt
  | .absent => pure .absent
  | .block l => return .block (← stmts gs l)
  | .expr x => return .expr (← expr gs x)
  | .decl n t init => do
    let init ← expr gs init
    let v ← freshVar n t false
    modify fun s => { s with locals := (n, v) :: s.locals }
    return .decl v init
  | .assign op lhs rhs => return .assign op (← exprs gs lhs) (← exprs gs rhs)
  | .cond test yes no => return .cond (← expr gs test) (← stmts gs yes) (← stmt gs no)
  | .loop init test post body => return .loop (← stmt gs init) (← expr gs test) (← stmt gs post) (← stmts gs body)
  | .whileDo test body => return .whileDo (← expr gs test) (← stmts gs body)
  | .doWhile test body => return .doWhile (← expr gs test) (← stmts gs body)
  | .switch tag cs => return .switch (← expr gs tag) (← cases gs cs)
  | .breakOut => pure .breakOut
  | .continueLoop => pure .continueLoop
  | .fallthrough => pure .fallthrough
  | .ret xs => return .ret (← exprs gs xs)
  | .defer s => return .defer (← stmt gs s)
termination_by structural s => s

def stmts (gs : Globals) : List Stmt → Resolve (List Comptime.Stmt)
  | [] => pure []
  | s :: ss => return (← stmt gs s) :: (← stmts gs ss)
termination_by structural ss => ss

def cases (gs : Globals) : List (Case Stmt) → Resolve (List (Case Comptime.Stmt))
  | [] => pure []
  | c :: cs => return ⟨c.values, ← stmts gs c.body⟩ :: (← cases gs cs)
termination_by structural cs => cs

end

/-- The declaration of index `i` as references see it. -/
def Decl.toRef (i : Nat) : Decl → Ref
  | proc n _ ins outs _ => .proc { id := i, name := n, ins, outs }
  | var n t _ g => .var { id := i, name := n, ty := t, isGlobal := g }
  | type _ _ => .typeDecl
  | run _ => .directive

def globals (ds : List Decl) : Globals := (ds.mapIdx fun i d => (d.name, d.toRef i)).reverse

def params : List (String × Ty) → Resolve (List Variable)
  | [] => pure []
  | (n, t) :: ps => do
    let v ← freshVar n t false
    modify fun s => { s with locals := (n, v) :: s.locals }
    return v :: (← params ps)

/-- Resolves one declaration. Its own locals are gone afterwards. -/
def decl (gs : Globals) (i : Nat) (d : Decl) : Resolve Comptime.Decl := do
  modify fun s => { s with locals := [] }
  match d with
  | .proc n ps ins outs body =>
    let ps ← params ps
    let body ← match body with
      | none => pure none
      | some l => some <$> stmts gs l
    return .proc { id := i, name := n, ins, outs, params := ps, body }
  | .var n t init g => return .var { id := i, name := n, ty := t, isGlobal := g } (← expr gs init)
  | .type n t => return .type ⟨i, n⟩ t
  | .run x => return .run i (← expr gs x)

def declsFrom (gs : Globals) (i : Nat) : List Decl → Resolve (List Comptime.Decl)
  | [] => pure []
  | d :: ds => return (← decl gs i d) :: (← declsFrom gs (i + 1) ds)

/-- The checked program. A declaration's identity is its index. -/
def program? (ds : List Decl) : Except Abort (List Comptime.Decl) := do
  let (out, _) ← (declsFrom (globals ds) 0 ds).run { fresh := ds.length }
  return out

end Comptime.Source
