import Comptime.Failure
import Comptime.Ty.Basic

/-!
# Checked programs

The tree of a program whose names are resolved and whose expressions carry their types. Declarations have an identity
besides their name: two of the same name are different things.

A tree may have gaps, an expression or statement where there is none (`absent`); they are reported when they are
lowered. `Expr.ofBinary?` and its siblings give a node the type its parts determine.
-/

namespace Comptime

/-- A declared thing: its identity and its name. -/
structure Symbol where
  id : Nat
  name : String
deriving DecidableEq, Repr, Inhabited

/-- A global, a local or a parameter. -/
structure Variable extends Symbol where
  ty : Ty
  isGlobal : Bool
deriving Repr, Inhabited

/-- A procedure as references see it. -/
structure ProcRef extends Symbol where
  ins : List Ty
  outs : List Ty
deriving Repr, Inhabited

def ProcRef.ty (p : ProcRef) : Ty := .func p.ins p.outs

/-- What a name refers to. -/
inductive Ref where
  | var (v : Variable)
  | proc (p : ProcRef)
  | typeDecl
  | directive
  | nothing
deriving Repr, Inhabited

def Ref.kind : Ref → String
  | var _ => "*ast.Var"
  | proc _ => "*ast.Proc"
  | typeDecl => "*ast.TypeDecl"
  | directive => "*ast.RunDirective"
  | nothing => "<nil>"

inductive BinaryOp where
  | add | sub | mul | div | rem
  | and | or | xor | shl | shr
  | eq | ne | lt | le | gt | ge
  | land | lor
  /-- An operator the language does not have. -/
  | other (symbol : String)
deriving DecidableEq, Repr, Inhabited

namespace BinaryOp

def symbol : BinaryOp → String
  | add => "+" | sub => "-" | mul => "*" | div => "/" | rem => "%"
  | and => "&" | or => "|" | xor => "^" | shl => "<<" | shr => ">>"
  | eq => "==" | ne => "!=" | lt => "<" | le => "<=" | gt => ">" | ge => ">="
  | land => "&&" | lor => "||"
  | other s => s

def all : List BinaryOp :=
  [add, sub, mul, div, rem, and, or, xor, shl, shr, eq, ne, lt, le, gt, ge, land, lor]

def ofSymbol (s : String) : BinaryOp := (all.find? (·.symbol == s)).getD (other s)

/-- Comparisons and logical operators yield a bool, whatever their operands are. -/
def yieldsBool : BinaryOp → Bool
  | eq | ne | lt | le | gt | ge | land | lor => true
  | _ => false

end BinaryOp

inductive UnaryOp where
  | neg
  | not
  | compl
  | deref
  | addressOf
  /-- An operator the language does not have. -/
  | other (symbol : String)
deriving DecidableEq, Repr, Inhabited

namespace UnaryOp

def symbol : UnaryOp → String
  | neg => "-" | not => "!" | compl => "~" | deref => "*" | addressOf => "&"
  | other s => s

def all : List UnaryOp := [neg, not, compl, deref, addressOf]

def ofSymbol (s : String) : UnaryOp := (all.find? (·.symbol == s)).getD (other s)

end UnaryOp

inductive Expr where
  | absent
  | int (ty : Ty) (value : Int64)
  /-- A float literal, by the bits of its 64-bit format. -/
  | float (ty : Ty) (bits : UInt64)
  | bool (value : Bool)
  | ident (ty : Ty) (ref : Ref)
  | binary (ty : Ty) (op : BinaryOp) (l r : Expr)
  | unary (ty : Ty) (op : UnaryOp) (x : Expr)
  | call (ty : Ty) (fn : Expr) (args : List Expr)
  | cast (ty : Ty) (x : Expr)
  | field (ty : Ty) (x : Expr) (name : String)
  | index (ty : Ty) (x i : Expr)
deriving Repr

instance : Inhabited Expr := ⟨.absent⟩

namespace Expr

/-- The type of an expression, if there is an expression. -/
def ty? : Expr → Option Ty
  | absent => none
  | int t _ | float t _ | ident t _ | binary t _ _ _ | unary t _ _ | call t _ _ | cast t _ | field t _ _ | index t _ _ =>
    some t
  | bool _ => some .bool

/-- The kind of node, as diagnostics name it. -/
def kind : Expr → String
  | absent => "<nil>"
  | int .. => "*ast.IntLit"
  | float .. => "*ast.FloatLit"
  | bool .. => "*ast.BoolLit"
  | ident .. => "*ast.Ident"
  | binary .. => "*ast.Binary"
  | unary .. => "*ast.Unary"
  | call .. => "*ast.Call"
  | cast .. => "*ast.Cast"
  | field .. => "*ast.Field"
  | index .. => "*ast.Index"

def isAbsent : Expr → Bool
  | absent => true
  | _ => false

/-- The type of an operand, which has to be there. -/
def operandTy (x : Expr) : Except Abort Ty :=
  match x.ty? with
  | some t => .ok t
  | none => .error .fault

/-- Refers to a variable or a procedure. -/
def ofRef? : Ref → Except Abort Expr
  | .var v => .ok (ident v.ty (.var v))
  | .proc p => .ok (ident p.ty (.proc p))
  | .nothing => .error .fault
  | .typeDecl | .directive => .error (.refused none)

def ofBinary? (op : BinaryOp) (l r : Expr) : Except Abort Expr := do
  let t ← l.operandTy
  return binary (if op.yieldsBool then .bool else t) op l r

def ofUnary? (op : UnaryOp) (x : Expr) : Except Abort Expr := do
  let t ← x.operandTy
  match op, t with
  | .not, _ => return unary .bool op x
  | .deref, .ptr t => return unary t op x
  | .deref, _ => throw .fault
  | .addressOf, t => return unary (.ptr t) op x
  | _, t => return unary t op x

/-- The type of a call is that of its last result. -/
def ofCall? (fn : Expr) (args : List Expr) : Except Abort Expr := do
  match ← fn.operandTy with
  | .func _ outs => return call (outs.getLast?.getD .void) fn args
  | _ => throw .fault

def ofField? (x : Expr) (name : String) : Except Abort Expr := do
  match ← x.operandTy with
  | .struct _ fs => match Ty.field? fs name with
    | some f => return field f.ty x name
    | none => throw (.refused (some name))
  | _ => throw .fault

def ofIndex? (x i : Expr) : Except Abort Expr := do
  match ← x.operandTy with
  | .array t _ | .ptr t => return index t x i
  | .missing => throw .fault
  | _ => throw (.refused none)

end Expr

/-- A case of a switch. Without values it is the default case. -/
structure Case (α : Type) where
  values : List Int64
  body : List α
deriving Repr

inductive Stmt where
  | absent
  | block (body : List Stmt)
  | expr (x : Expr)
  /-- Declares a local, zero unless it has an initializer. -/
  | decl (v : Variable) (init : Expr)
  /-- Without an operator a plain assignment, of one or of many values; else a compound one. -/
  | assign (op : Option BinaryOp) (lhs rhs : List Expr)
  | cond (test : Expr) (thenBody : List Stmt) (otherwise : Stmt)
  /-- Without a test it goes on forever. -/
  | loop (init : Stmt) (test : Expr) (post : Stmt) (body : List Stmt)
  | whileDo (test : Expr) (body : List Stmt)
  | doWhile (test : Expr) (body : List Stmt)
  | switch (tag : Expr) (cases : List (Case Stmt))
  | breakOut
  | continueLoop
  | fallthrough
  | ret (results : List Expr)
  /-- Runs a statement when control leaves the enclosing block. -/
  | defer (s : Stmt)
deriving Repr

instance : Inhabited Stmt := ⟨.absent⟩

namespace Stmt

def isAbsent : Stmt → Bool
  | absent => true
  | _ => false

def isDefer : Stmt → Bool
  | defer _ => true
  | _ => false

end Stmt

/-- A declared procedure. -/
structure ProcDecl extends ProcRef where
  params : List Variable
  body : Option (List Stmt)
deriving Repr, Inhabited

inductive Decl where
  | proc (p : ProcDecl)
  | var (v : Variable) (init : Expr)
  | type (sym : Symbol) (ty : Ty)
  /-- An expression evaluated at compile time. -/
  | run (id : Nat) (x : Expr)
deriving Repr

instance : Inhabited Decl := ⟨.run 0 .absent⟩

namespace Decl

def id : Decl → Nat
  | proc p => p.id
  | var v _ => v.id
  | type s _ => s.id
  | run i _ => i

/-- The declared name. A run directive has none. -/
def name : Decl → String
  | proc p => p.name
  | var v _ => v.name
  | type s _ => s.name
  | run _ _ => ""

end Decl

end Comptime
