import Comptime.Convention
import Comptime.Tree
import Mathlib.Tactic.SplitIfs

/-!
# Types of natural width

Lowering takes any type it is given, but only numbers of 8, 16, 32 and 64 bits have registers of their own.
`Ty.isNatural` says that a type is built from such numbers, and `allTypes` that a whole tree mentions only types that pass
a test. A value of natural type that travels in a register does so in a register that has a type.
-/

namespace Comptime

variable {ins outs : List Ty} {t : Ty}

namespace Ty

mutual

/-- Every number in the type is as wide as a register. -/
def isNatural : Ty → Bool
  | missing | void | bool => true
  | int bits _ => bits == 8 || bits == 16 || bits == 32 || bits == 64
  | float bits => bits == 32 || bits == 64
  | ptr t => isNatural t
  | array t _ => isNatural t
  | struct _ fs => fieldsNatural fs
  | func ins outs => allNatural ins && allNatural outs

def fieldsNatural : List (Field Ty) → Bool
  | [] => true
  | f :: fs => isNatural f.ty && fieldsNatural fs

def allNatural : List Ty → Bool
  | [] => true
  | t :: ts => isNatural t && allNatural ts

end

theorem allNatural_iff {ts : List Ty} : allNatural ts = true ↔ ∀ t ∈ ts, t.isNatural = true := by
  induction ts with
  | nil => simp [allNatural]
  | cons t ts ih => simp [allNatural, ih]

theorem isNatural_func : (func ins outs).isNatural = true ↔ (∀ t ∈ ins, t.isNatural = true) ∧
    ∀ t ∈ outs, t.isNatural = true := by
  rw [isNatural, Bool.and_eq_true, allNatural_iff, allNatural_iff]

theorem regType?_ne_void {rt : RegType} (hNatural : t.isNatural = true) (hScalar : t.isScalar = true)
    (hType : t.regType? = some rt) : rt ≠ .void := by
  cases t with
  | int bits signed =>
    have hBits : bits = 8 ∨ bits = 16 ∨ bits = 32 ∨ bits = 64 := by simpa [isNatural, or_assoc] using hNatural
    rcases hBits with rfl | rfl | rfl | rfl <;>
      exact fun hVoid => absurd (hVoid ▸ hType) (by simp [regType?, size?, extent?]; decide)
  | float bits =>
    simp only [regType?, Option.some.injEq] at hType
    subst hType
    by_cases hBits : bits = 32 <;> simp [hBits]
  | bool | ptr _ | func _ _ =>
    simp only [regType?, Option.some.injEq] at hType
    simp [← hType]
  | missing | void | array _ _ | struct _ _ => simp [isScalar] at hScalar

end Ty

namespace Convention

/-- A value of natural type that is passed directly has a register. -/
theorem classify?_reg_ne_void {p : Param} (hNatural : t.isNatural = true) (hClass : classify? standard t = some p)
    (hRule : p.rule = .direct) : p.reg ≠ .void := by
  unfold classify? at hClass
  split at hClass
  · cases hClass
    cases hRule
  · simp only [Option.pure_def, Option.bind_eq_bind, Option.bind_eq_some_iff] at hClass
    obtain ⟨n, -, hClass⟩ := hClass
    split_ifs at hClass with hZero hScalar hDirect
    · cases hClass
      cases hRule
    · obtain ⟨rt, hType, hParam⟩ := Option.bind_eq_some_iff.mp hClass
      cases hParam
      exact Ty.regType?_ne_void hNatural hScalar hType
    · cases hClass
      have hSize : n = 1 ∨ n = 2 ∨ n = 4 ∨ n = 8 := by simpa [standard, or_assoc] using hDirect
      simp only
      rcases hSize with rfl | rfl | rfl | rfl <;> decide
    · cases hClass
      cases hRule

theorem sig?_eq_some {direct : DirectSize} {sig : Sig} (hSig : sig? direct ins outs = some sig) :
    sig.results = outs ∧ ins.mapM (classify? direct) = some sig.params ∧
      ((outs = [] ∧ sig.ret = ⟨.ignore, .void, .void⟩ ∧ sig.hidden = []) ∨
        ∃ t, outs.getLast? = some t ∧ classify? direct t = some sig.ret ∧ sig.hidden = hiddenResults sig.ret outs) := by
  unfold sig? at hSig
  cases hLast : outs.getLast? with
  | none =>
    simp only [hLast, Option.pure_def, Option.bind_eq_bind, Option.bind_some, Option.bind_eq_some_iff] at hSig
    obtain ⟨params, hParams, hEq⟩ := hSig
    cases hEq
    exact ⟨rfl, hParams, .inl ⟨List.getLast?_eq_none_iff.mp hLast, rfl, rfl⟩⟩
  | some t =>
    simp only [hLast, Option.pure_def, Option.bind_eq_bind, Option.bind_eq_some_iff, Option.some.injEq] at hSig
    obtain ⟨ret, hClass, _, rfl, params, hParams, rfl⟩ := hSig
    exact ⟨rfl, hParams, .inr ⟨t, rfl, hClass, rfl⟩⟩

/-- A result of natural type that comes back in a register has one. -/
theorem retReg_ne_void {sig : Sig} (hNatural : ∀ t ∈ outs, t.isNatural = true) (hSig : sig? standard ins outs = some sig)
    (hRule : sig.ret.rule = .direct) : sig.retReg ≠ .void := by
  obtain ⟨-, -, ⟨-, hRet, -⟩ | ⟨t, hLast, hClass, -⟩⟩ := sig?_eq_some hSig
  · simp [hRet] at hRule
  · rw [Sig.retReg, if_pos hRule]
    exact classify?_reg_ne_void (hNatural t (List.mem_of_getLast? hLast)) hClass hRule

end Convention

/-! ## Trees -/

def Ref.allTypes (P : Ty → Bool) : Ref → Bool
  | var v => P v.ty
  | proc p => P p.ty
  | typeDecl | directive | nothing => true

namespace Expr

mutual

/-- Every type in the expression passes the test. -/
def allTypes (P : Ty → Bool) : Expr → Bool
  | absent | bool _ => true
  | int t _ | float t _ => P t
  | ident t r => P t && r.allTypes P
  | binary t _ l r => P t && allTypes P l && allTypes P r
  | unary t _ x | cast t x | field t x _ => P t && allTypes P x
  | call t fn args => P t && allTypes P fn && listTypes P args
  | index t x i => P t && allTypes P x && allTypes P i

def listTypes (P : Ty → Bool) : List Expr → Bool
  | [] => true
  | x :: xs => allTypes P x && listTypes P xs

end

mutual

theorem allTypes_true : (x : Expr) → x.allTypes (fun _ => true) = true
  | absent | bool _ | int _ _ | float _ _ => rfl
  | ident _ r => by cases r <;> rfl
  | binary _ _ l r => by simp [allTypes, allTypes_true l, allTypes_true r]
  | unary _ _ x | cast _ x | field _ x _ => by simp [allTypes, allTypes_true x]
  | call _ fn args => by simp [allTypes, allTypes_true fn, listTypes_true args]
  | index _ x i => by simp [allTypes, allTypes_true x, allTypes_true i]

theorem listTypes_true : (xs : List Expr) → listTypes (fun _ => true) xs = true
  | [] => rfl
  | x :: xs => by simp [listTypes, allTypes_true x, listTypes_true xs]

end

theorem allTypes_ty? {P : Ty → Bool} {x : Expr} (hBool : P .bool = true) (hx : x.allTypes P = true) (hTy : x.ty? = some t) :
    P t = true := by
  cases x <;> simp_all [allTypes, ty?]

end Expr

namespace Stmt

mutual

/-- Every type in the statement passes the test. -/
def allTypes (P : Ty → Bool) : Stmt → Bool
  | absent | breakOut | continueLoop | fallthrough => true
  | block body => listTypes P body
  | expr x => x.allTypes P
  | decl v init => P v.ty && init.allTypes P
  | assign _ lhs rhs => Expr.listTypes P lhs && Expr.listTypes P rhs
  | cond test yes no => test.allTypes P && listTypes P yes && allTypes P no
  | loop init test post body => allTypes P init && test.allTypes P && allTypes P post && listTypes P body
  | whileDo test body | doWhile test body => test.allTypes P && listTypes P body
  | switch tag cs => tag.allTypes P && caseTypes P cs
  | ret xs => Expr.listTypes P xs
  | defer s => allTypes P s

def listTypes (P : Ty → Bool) : List Stmt → Bool
  | [] => true
  | s :: ss => allTypes P s && listTypes P ss

def caseTypes (P : Ty → Bool) : List (Case Stmt) → Bool
  | [] => true
  | c :: cs => listTypes P c.body && caseTypes P cs

end

mutual

theorem allTypes_true : (s : Stmt) → s.allTypes (fun _ => true) = true
  | absent | breakOut | continueLoop | fallthrough => rfl
  | block body => listTypes_true body
  | expr x => x.allTypes_true
  | decl _ init => by simp [allTypes, init.allTypes_true]
  | assign _ lhs rhs => by simp [allTypes, Expr.listTypes_true]
  | cond test yes no => by simp [allTypes, test.allTypes_true, listTypes_true yes, allTypes_true no]
  | loop init test post body => by
    simp [allTypes, allTypes_true init, test.allTypes_true, allTypes_true post, listTypes_true body]
  | whileDo test body | doWhile test body => by simp [allTypes, test.allTypes_true, listTypes_true body]
  | switch tag cs => by simp [allTypes, tag.allTypes_true, caseTypes_true cs]
  | ret xs => Expr.listTypes_true xs
  | defer s => allTypes_true s

/-- Every tree passes the test that everything passes. -/
theorem listTypes_true : (ss : List Stmt) → listTypes (fun _ => true) ss = true
  | [] => rfl
  | s :: ss => by simp [listTypes, allTypes_true s, listTypes_true ss]

theorem caseTypes_true : (cs : List (Case Stmt)) → caseTypes (fun _ => true) cs = true
  | [] => rfl
  | c :: cs => by simp [caseTypes, listTypes_true c.body, caseTypes_true cs]

end

theorem listTypes_iff {P : Ty → Bool} {ss : List Stmt} : listTypes P ss = true ↔ ∀ s ∈ ss, s.allTypes P = true := by
  induction ss with
  | nil => simp [listTypes]
  | cons s ss ih => simp [listTypes, ih]

end Stmt

/-- Every type in the procedure passes the test. -/
def ProcDecl.allTypes (P : Ty → Bool) (p : ProcDecl) : Bool :=
  p.ins.all P && p.outs.all P && p.params.all (P ·.ty) && (p.body.all (Stmt.listTypes P))

end Comptime
