import Comptime.Lowering.Expr

/-!
# The shape of finished code

A `Shape` says of a stretch of finished code what it looks like, and what it stands for there: a register, a place, or
a truth value that is a pair of paths. It is written like the lowering that emits the code, so that the two can be read
side by side, but where lowering moves back and forth, a shape only looks: a jump has the target that it was given in the
end, and a stretch that was inserted late is where it is found.

The positions of a pending value are those of finished code. What stands between `onTrue` and `leaveTrue`, and likewise
on the other path, depends on what the value is used for and is said there (`inGap`).
-/

namespace Comptime

/-- Finished code, and what its lowering knew. -/
structure Text where
  code : Array Instr
  /-- Where the body starts. -/
  start : Nat
  /-- Registers that are set at the entry and never again. -/
  fixed : Nat → Prop
  numRegs : Nat
  direct : Convention.DirectSize
  sig : Sig
  outs : List (Nat × Reg)
  slots : List (Nat × Reg)

/-- A position, and which registers are free there. -/
structure Point where
  pos : Nat
  /-- No register below this one is free. -/
  next : Nat
  /-- No register from this one on has been used. -/
  high : Nat
deriving DecidableEq, Repr

/-- What a stretch of code looks like, by the points where it starts and ends and what it stands for. Code that follows
other code picks registers that the other did not, whether control has come through the other or not. -/
structure Shape (α : Type) where
  Looks : Text → Point → α → Point → Prop
  rises : ∀ {T p a p'}, Looks T p a p' → p.next ≤ p'.next

namespace Shape

instance {α : Type} : CoeFun (Shape α) fun _ => Text → Point → α → Point → Prop := ⟨Looks⟩

instance : Monad Shape where
  pure a := ⟨fun _ p b p' => b = a ∧ p' = p, fun ⟨_, hEq⟩ => hEq ▸ Nat.le_refl _⟩
  bind x f := ⟨fun T p c p' => ∃ a q, x T p a q ∧ f a T q c p', fun ⟨a, _, h, h'⟩ => Nat.le_trans (x.rises h) ((f a).rises h')⟩

variable {α β : Type} {T : Text} {p p' : Point}

@[simp] theorem pure_iff {a b : α} : (pure a : Shape α) T p b p' ↔ b = a ∧ p' = p := Iff.rfl

@[simp] theorem bind_iff {x : Shape α} {f : α → Shape β} {c : β} :
    (x >>= f) T p c p' ↔ ∃ a q, x T p a q ∧ f a T q c p' := Iff.rfl

@[simp] theorem ite_iff {c : Prop} [Decidable c] {x y : Shape α} {a : α} :
    (if c then x else y : Shape α) T p a p' ↔ if c then x T p a p' else y T p a p' := by
  by_cases hc : c
  · simp only [hc, if_true]
  · simp only [hc, if_false]

/-! ## Looking around -/

def text : Shape Text := ⟨fun T p a p' => a = T ∧ p' = p, fun ⟨_, hEq⟩ => hEq ▸ Nat.le_refl _⟩

def here : Shape Nat := ⟨fun _ p a p' => a = p.pos ∧ p' = p, fun ⟨_, hEq⟩ => hEq ▸ Nat.le_refl _⟩

/-- Something that is settled elsewhere. -/
def given : Shape α := ⟨fun _ p _ p' => p' = p, fun hEq => hEq ▸ Nat.le_refl _⟩

def check (c : Prop) : Shape Unit := ⟨fun _ p _ p' => c ∧ p' = p, fun ⟨_, hEq⟩ => hEq ▸ Nat.le_refl _⟩

def demand (o : Option α) : Shape α := ⟨fun _ p a p' => o = some a ∧ p' = p, fun ⟨_, hEq⟩ => hEq ▸ Nat.le_refl _⟩

/-- No code looks like this. -/
def never : Shape α := ⟨fun _ _ _ _ => False, False.elim⟩

/-- What was put into a gap that starts at a position. -/
def inGap (start : Nat) (x : Shape α) : Shape α where
  Looks T p a p' := ∃ q, x T { p with pos := start } a q ∧ p' = { q with pos := p.pos }
  rises := by
    rintro T p a _ ⟨q, h, rfl⟩
    have hLe := x.rises h
    exact hLe

/-- A gap up to a jump that was emitted with it. -/
def gap (leave : Nat) : Shape Unit :=
  ⟨fun _ p _ p' => p.pos ≤ leave ∧ p' = { p with pos := leave + 1 }, fun ⟨_, hEq⟩ => hEq ▸ Nat.le_refl _⟩

/-! ## Instructions -/

def instr (x : Instr) : Shape Unit :=
  ⟨fun T p _ p' => T.code[p.pos]? = some x ∧ p' = { p with pos := p.pos + 1 }, fun ⟨_, hEq⟩ => hEq ▸ Nat.le_refl _⟩

@[simp] theorem instr_iff {x : Instr} {u : Unit} :
    instr x T p u p' ↔ T.code[p.pos]? = some x ∧ p' = { p with pos := p.pos + 1 } := Iff.rfl

def allocReg : Shape Reg where
  Looks T p r p' := ∃ k : Nat, r = k ∧ p.next ≤ k ∧ ¬ T.fixed k ∧ k < T.numRegs ∧
    p' = { p with next := k + 1, high := max p.high (k + 1) }
  rises := fun ⟨_, _, hLe, _, _, hEq⟩ => hEq ▸ Nat.le_succ_of_le hLe

/-- Stack memory whose address is in a register of its own. It is taken in front of the body. -/
def reserve (e : Extent) : Shape Reg where
  Looks T p r p' := r = p.high ∧ T.fixed p.high ∧ p.high < T.numRegs ∧
    (∃ i < T.start, T.code[i]? = some (.reserve p.high e.size e.align)) ∧ p' = { p with high := p.high + 1 }
  rises := fun ⟨_, _, _, _, hEq⟩ => hEq ▸ Nat.le_refl _

def define (x : Reg → Instr) : Shape Reg := do
  let dst ← allocReg
  instr (x dst)
  return dst

def bin (op : Op) (t : RegType) (l r : Reg) : Shape Reg := define (.bin op t · l r)

def un (op : Op) (t source : RegType) (src : Reg) : Shape Reg := define (.un op t source · src)

def imm (t : RegType) (bits : UInt64) : Shape Reg := define (.imm t · bits)

def immFloat (t : RegType) (bits : UInt64) : Shape Reg :=
  imm t (if t = .f32 then (Real.narrow bits).toUInt64 else bits)

def load (t : RegType) (addr : Reg) (align : Int64) : Shape Reg := define (.load t · addr align)

def addrOf (sym : String) : Shape Reg := define (.addr · sym)

def call (t : RegType) (target : Reg) (args : List Reg) : Shape Reg := do
  let dst ← if t = .void then pure noReg else allocReg
  instr (.call t dst target args)
  return dst

/-- A region, by its position. -/
def region : Shape Nat := do
  let pos ← here
  instr .region
  return pos

@[simp] theorem region_iff {pos : Nat} :
    region T p pos p' ↔ pos = p.pos ∧ T.code[p.pos]? = some .region ∧ p' = { p with pos := p.pos + 1 } := by
  constructor
  · rintro ⟨_, _, ⟨rfl, rfl⟩, _, _, ⟨hCode, rfl⟩, rfl, rfl⟩
    exact ⟨rfl, hCode, rfl⟩
  · rintro ⟨rfl, hCode, rfl⟩
    exact ⟨_, _, ⟨rfl, rfl⟩, (), _, ⟨hCode, rfl⟩, rfl, rfl⟩

def jumpTo (target : Nat) : Shape Unit := instr (.branch noReg [] target)

/-- A branch that goes on where the register is not zero. Gives that place, and where it leads if it is zero. -/
def branchFalse (test : Reg) : Shape (Nat × Nat) := do
  let no ← given
  let pos ← here
  instr (.branch test [⟨0, (no : Nat)⟩] ((pos + 1 : Nat) : Int))
  let yes ← region
  return (yes, no)

/-! ## Values -/

def startPending (r : Reg) : Shape Pending := do
  let q : Pending ← given
  instr (.branch r [⟨0, q.onFalse⟩] q.onTrue)
  check (q.onTrue = (← region))
  gap q.leaveTrue
  check (q.onFalse = (← region))
  gap q.leaveFalse
  check (q.merge = (← region))
  return q

theorem startPending_iff {r : Reg} {q : Pending} :
    startPending r T p q p' ↔ T.code[p.pos]? = some (.branch r [⟨0, q.onFalse⟩] q.onTrue) ∧
      q.onTrue = p.pos + 1 ∧ T.code[q.onTrue]? = some .region ∧ q.onTrue < q.leaveTrue ∧
      q.onFalse = q.leaveTrue + 1 ∧ T.code[q.onFalse]? = some .region ∧ q.onFalse < q.leaveFalse ∧
      q.merge = q.leaveFalse + 1 ∧ T.code[q.merge]? = some .region ∧ p' = { p with pos := q.merge + 1 } := by
  simp only [startPending, bind_iff, given, check, gap, instr_iff, region_iff, pure_iff]
  constructor
  · rintro ⟨q, _, rfl, _, _, ⟨hBranch, rfl⟩, _, _, ⟨rfl, hYes, rfl⟩, _, _, ⟨hTrue, rfl⟩,
      _, _, ⟨hLeave, rfl⟩, _, _, ⟨rfl, hNo, rfl⟩, _, _, ⟨hFalse, rfl⟩,
      _, _, ⟨hLeave', rfl⟩, _, _, ⟨rfl, hEnd, rfl⟩, _, _, ⟨hMerge, rfl⟩, rfl, rfl⟩
    grind
  · rintro ⟨hBranch, hTrue, hYes, hLeave, hFalse, hNo, hLeave', hMerge, hEnd, rfl⟩
    refine ⟨q, _, rfl, (), _, ⟨hBranch, rfl⟩, _, _, ⟨rfl, ?_, rfl⟩, (), _, ⟨hTrue, rfl⟩, (), _, ⟨?_, rfl⟩, _, _,
      ⟨rfl, ?_, rfl⟩, (), _, ⟨hFalse, rfl⟩, (), _, ⟨?_, rfl⟩, _, _, ⟨rfl, ?_, rfl⟩, (), _, ⟨hMerge, rfl⟩, rfl, ?_⟩ <;> grind

/-- The end of a gap: the jump that was emitted with it. -/
def leave (pos target : Nat) : Shape Unit := do
  check ((← here) = pos)
  jumpTo target

/-- Nothing was put on the two paths, which lead to these places. -/
def settle (q : Pending) (yes no : Nat) : Shape Unit := do
  inGap (q.onTrue + 1) (leave q.leaveTrue yes)
  inGap (q.onFalse + 1) (leave q.leaveFalse no)

def materialize (q : Pending) : Shape Reg := do
  let dst ← allocReg
  inGap (q.onTrue + 1) do
    instr (.imm .i8 dst 1)
    leave q.leaveTrue q.merge
  inGap (q.onFalse + 1) do
    instr (.imm .i8 dst 0)
    leave q.leaveFalse q.merge
  return dst

/-- A value that is not used. -/
def drop : Value → Shape Unit
  | .pending _ q => settle q q.merge q.merge
  | _ => pure ()

def value : Value → Shape Reg
  | .reg _ r => pure r
  | .place t addr => do
    let rt ← demand t.regType?
    check (rt ≠ .void)
    let e ← demand t.extent?
    load rt addr e.align
  | .pending _ q => materialize q
  | .none _ => never

def toPending : Value → Shape Pending
  | .pending _ q => pure q
  | v => do startPending (← value v)

def address : Value → Shape Reg
  | .place _ addr => pure addr
  | v => do
    let r ← value v
    let e ← demand v.ty.extent?
    let tmp ← reserve e
    let rt ← demand v.ty.regType?
    instr (.store rt tmp r e.align)
    return tmp

def assignTo (dst : Reg) (t : Ty) (v : Value) : Shape Unit := do
  let e ← demand t.extent?
  if e.size = 0 then drop v
  else match t.isScalar, v with
    | false, .place _ src => instr (.copy dst src e.size e.align)
    | _, _ => do
      let rt ← demand t.regType?
      check (rt ≠ .void)
      let r ← value v
      instr (.store rt dst r e.align)

def zero (dst : Reg) (t : Ty) : Shape Unit := do
  let e ← demand t.extent?
  if e.size = 0 then return
  if t.isScalar then
    let rt ← demand t.regType?
    let r ← imm rt 0
    instr (.store rt dst r e.align)
  else
    let byte ← imm .i8 0
    instr (.fill dst byte e.size e.align)

def detach (v : Value) : Shape Value :=
  match v with
  | .place t src => do
    let rt ← demand t.regType?
    if t.isScalar ∨ rt ≠ .void then return .reg t (← value v)
    let e ← demand t.extent?
    let tmp ← reserve e
    instr (.copy tmp src e.size e.align)
    return .place t tmp
  | v => return .reg v.ty (← value v)

/-! ## Expressions -/

def convert (r : Reg) (source target : Ty) : Shape Reg := do
  let sr ← demand source.regType?
  let tr ← demand target.regType?
  match Conversion.between? source target sr tr with
  | some .keep => return r
  | some (.test op) => bin op sr r (← imm sr 0)
  | some (.via op) => un op tr sr r
  | none => never

def offset (addr : Reg) (off : Int64) : Shape Reg := do
  if off = 0 then return addr
  bin .add .ptr addr (← imm .i64 off.toUInt64)

def reference : Ref → Shape Value
  | .var v => do
    match (← text).slots.lookup v.id with
    | some r => return .place v.ty r
    | none => return .place v.ty (← addrOf v.name)
  | .proc p => return .reg p.ty (← addrOf p.name)
  | _ => never

/-- A further operand on one path of a pending value. -/
def chain (and : Bool) (q : Pending) (code : Shape Value) : Shape Pending :=
  inGap ((if and then q.onTrue else q.onFalse) + 1) do
    match and, ← code with
    | true, .pending _ r => do
      settle r r.merge q.onFalse
      return { q with onTrue := r.merge }
    | false, .pending _ r => do
      settle r q.onTrue r.merge
      return { q with onFalse := r.merge }
    | true, v => do
      let (yes, no) ← branchFalse (← value v)
      check (no = q.onFalse)
      return { q with onTrue := yes }
    | false, v => do
      let r ← value v
      let pos ← here
      instr (.branch r [⟨0, ((pos + 1 : Nat) : Int)⟩] q.onTrue)
      let no ← region
      return { q with onFalse := no }

def applyUnary (ty : Ty) (op : UnaryOp) (t : Ty) (v : Value) : Shape Value :=
  match op, v with
  | .not, .pending _ q => return .pending ty q.swap
  | .not, v => do
    let r ← value v
    let z ← imm .i8 0
    return .reg ty (← bin .eq .i8 r z)
  | .neg, v => do
    let rt ← demand t.regType?
    return .reg ty (← un (if rt.isFloat then .fneg else .neg) rt rt (← value v))
  | .compl, v => do
    let rt ← demand t.regType?
    return .reg ty (← un .not rt rt (← value v))
  | .deref, v => return .place ty (← value v)
  | .addressOf, v => return .reg ty (← address v)
  | _, _ => never

def resultSlots : List Hidden → Shape (List (Nat × Reg))
  | [] => pure []
  | h :: hs => do
    let e ← demand h.ty.extent?
    let r ← reserve e
    return (h.result, r) :: (← resultSlots hs)

def pass (p : Param) (v : Value) : Shape (Option Reg) :=
  match p.rule with
  | .ignore => do
    drop v
    return none
  | .direct => return some (← value v)
  | .indirect => do
    let e ← demand p.ty.extent?
    let tmp ← reserve e
    assignTo tmp p.ty v
    return some tmp

mutual

def results : Expr → Shape (Value × List Value)
  | .absent => never
  | .int t v => do
    let rt ← demand t.regType?
    return (.reg t (← imm rt v.toUInt64), [])
  | .float t b => do
    let rt ← demand t.regType?
    return (.reg t (← immFloat rt b), [])
  | .bool b => return (.reg .bool (← imm .i8 (if b then 1 else 0)), [])
  | .ident _ r => return (← reference r, [])
  | .binary t op l r => do
    let lv ← results l
    match op with
    | .land | .lor =>
      let q ← toPending lv.1
      let q ← chain (op == .land) q (do return (← results r).1)
      return (.pending t q, [])
    | _ =>
      let a ← value lv.1
      let rv ← results r
      let b ← value rv.1
      let lt ← demand l.ty?
      match op.instr lt with
      | .ok i =>
        let rt ← demand lt.regType?
        return (.reg t (← bin i rt a b), [])
      | .error _ => never
  | .unary t op x => do
    let v ← results x
    let xt ← demand x.ty?
    return (← applyUnary t op xt v.1, [])
  | .call _ fn args => do
    match ← demand fn.ty? with
    | .func ins outs =>
      check (args.length = ins.length)
      let sig ← demand (Convention.sig? (← text).direct ins outs)
      let target ← match fn with
        | .ident _ (.proc p) => addrOf p.name
        | _ => do value (← results fn).1
      let slots ← resultSlots sig.hidden
      let passed ← arguments args sig.params
      let dst ← call sig.retReg target (slots.map (·.2) ++ passed)
      let all := Build.callResults sig slots dst
      return (all.getLast?.getD (.none .missing), all)
    | _ => never
  | .cast t x => do
    let v ← results x
    let r ← value v.1
    let xt ← demand x.ty?
    return (.reg t (← convert r xt t), [])
  | .field _ x name => do
    let v ← results x
    match ← demand x.ty? with
    | .struct _ fs => match Ty.field? fs name with
      | some f => return (.place f.ty (← offset (← address v.1) f.offset), [])
      | none => never
    | _ => never
  | .index t x i => do
    let v ← results x
    let base ← match ← demand x.ty? with
      | .array _ _ => address v.1
      | .ptr _ => value v.1
      | _ => never
    let iv ← results i
    let r ← value iv.1
    let it ← demand i.ty?
    let n ← convert r it .s64
    let e ← demand t.extent?
    let size ← imm .i64 e.size.toUInt64
    let off ← bin .mul .i64 n size
    return (.place t (← bin .add .ptr base off), [])

def arguments : List Expr → List Param → Shape (List Reg)
  | x :: xs, p :: ps => do
    let v ← results x
    let r ← pass p v.1
    return r.toList ++ (← arguments xs ps)
  | _, _ => pure []

end

def expr (x : Expr) : Shape Value := do return (← results x).1

/-- What is called. -/
def callee (fn : Expr) : Shape Reg :=
  match fn with
  | .ident _ (.proc p) => addrOf p.name
  | _ => do value (← results fn).1

/-- A call, from where its target is known. -/
def called (sig : Sig) (args : List Expr) (target : Reg) : Shape (Value × List Value) := do
  let slots ← resultSlots sig.hidden
  let passed ← arguments args sig.params
  let dst ← call sig.retReg target (slots.map (·.2) ++ passed)
  let all := Build.callResults sig slots dst
  return (all.getLast?.getD (.none .missing), all)

/-- An element, from where the address of the first one is known. -/
def element (t : Ty) (i : Expr) (base : Reg) : Shape (Value × List Value) := do
  let iv ← results i
  let r ← value iv.1
  let it ← demand i.ty?
  let n ← convert r it .s64
  let e ← demand t.extent?
  let size ← imm .i64 e.size.toUInt64
  let off ← bin .mul .i64 n size
  return (.place t (← bin .add .ptr base off), [])

section Parts

variable {T : Text} {t : Ty} {x i fn : Expr} {args : List Expr} {o : Value × List Value} {p p' : Point}

theorem of_call (h : results (.call t fn args) T p o p') :
    ∃ ins outs sig target s, fn.ty? = some (.func ins outs) ∧ Convention.sig? T.direct ins outs = some sig ∧
      callee fn T p target s ∧ called sig args target T s o p' := by
  obtain ⟨ft, p, ⟨hTy, rfl⟩, h⟩ := h
  cases ft with
  | func ins outs =>
    obtain ⟨_, p, ⟨-, rfl⟩, T0, p, ⟨hText, rfl⟩, sig, p, ⟨hSig, rfl⟩, h⟩ := h
    subst T0
    have hValue : (do called sig args (← value (← results fn).1) : Shape (Value × List Value)) T p o p' →
        ∃ target s, (do value (← results fn).1 : Shape Reg) T p target s ∧ called sig args target T s o p' :=
      fun ⟨fv, s1, hFn, target, s2, hTarget, h⟩ => ⟨target, s2, ⟨fv, s1, hFn, hTarget⟩, h⟩
    refine ⟨ins, outs, sig, ?_⟩
    simp only [hTy, hSig, true_and]
    cases fn with
    | ident ft ref =>
      cases ref with
      | proc y => exact h
      | _ => exact hValue h
    | _ => exact hValue h
  | _ => exact h.elim

/-- What is assigned has no size, or is copied from its place, or is stored as a word. -/
theorem of_assignTo {dst : Reg} {v : Value} {u : Unit} (h : assignTo dst t v T p u p') :
    ∃ e, t.extent? = some e ∧ (e.size = 0 ∧ drop v T p u p' ∨ e.size ≠ 0 ∧
      ((∃ t' src, v = .place t' src ∧ t.isScalar = false ∧ instr (.copy dst src e.size e.align) T p u p') ∨
        (t.isScalar = false → ∀ t' src, v ≠ .place t' src) ∧
          ∃ rt r s, t.regType? = some rt ∧ rt ≠ .void ∧ value v T p r s ∧ instr (.store rt dst r e.align) T s u p')) := by
  obtain ⟨e, p, ⟨hExtent, rfl⟩, h⟩ := h
  refine ⟨e, hExtent, ?_⟩
  rw [ite_iff] at h
  split at h
  · exact .inl ⟨‹_›, h⟩
  refine .inr ⟨‹_›, ?_⟩
  cases hScalar : t.isScalar with
  | true =>
    rw [hScalar] at h
    obtain ⟨rt, _, ⟨hRt, rfl⟩, _, _, ⟨hVoid, rfl⟩, r, s, h⟩ := h
    exact .inr ⟨nofun, rt, r, s, hRt, hVoid, h⟩
  | false =>
    rw [hScalar] at h
    cases v with
    | place t' src => exact .inl ⟨t', src, rfl, rfl, h⟩
    | _ =>
      obtain ⟨rt, _, ⟨hRt, rfl⟩, _, _, ⟨hVoid, rfl⟩, r, s, h⟩ := h
      exact .inr ⟨fun _ _ _ => nofun, rt, r, s, hRt, hVoid, h⟩

/-- With a further operand one of the paths of a pending value starts where the operand leads on, and the
other one where it did. -/
theorem of_chain {and : Bool} {q q' : Pending} {x : Shape Value} (h : chain and q x T p q' p') :
    ∃ e v s s', q' = (if and then { q with onTrue := e } else { q with onFalse := e }) ∧
      x T { p with pos := (if and then q.onTrue else q.onFalse) + 1 } v s ∧ p' = { s' with pos := p.pos } ∧
      ((∃ t r, v = .pending t r ∧ e = r.merge ∧ settle r q'.onTrue q'.onFalse T s () s') ∨
        ∃ r s1, value v T s r s1 ∧ e = s1.pos + 1 ∧ T.code[s1.pos]? = some (.branch r [⟨0, q'.onFalse⟩] q'.onTrue) ∧
          T.code[s1.pos + 1]? = some .region ∧ s' = { s1 with pos := s1.pos + 2 }) := by
  obtain ⟨s', ⟨v, s, hv, h⟩, rfl⟩ := h
  cases and with
  | true =>
    cases v with
    | pending t r =>
      obtain ⟨_, _, hSettle, rfl, rfl⟩ := h
      exact ⟨_, _, _, _, rfl, hv, rfl, .inl ⟨t, r, rfl, rfl, hSettle⟩⟩
    | _ =>
      obtain ⟨r, _, hValue, _, _, ⟨_, _, rfl, _, _, ⟨rfl, rfl⟩, _, _, ⟨hCode, rfl⟩, _, _, hRegion, rfl, rfl⟩, _, _,
        ⟨rfl, rfl⟩, rfl, rfl⟩ := h
      obtain ⟨rfl, hNext, rfl⟩ := region_iff.mp hRegion
      exact ⟨_, _, _, _, rfl, hv, rfl, .inr ⟨r, _, hValue, rfl, hCode, hNext, rfl⟩⟩
  | false =>
    cases v with
    | pending t r =>
      obtain ⟨_, _, hSettle, rfl, rfl⟩ := h
      exact ⟨_, _, _, _, rfl, hv, rfl, .inl ⟨t, r, rfl, rfl, hSettle⟩⟩
    | _ =>
      obtain ⟨r, _, hValue, _, _, ⟨rfl, rfl⟩, _, _, ⟨hCode, rfl⟩, _, _, hRegion, rfl, rfl⟩ := h
      obtain ⟨rfl, hNext, rfl⟩ := region_iff.mp hRegion
      exact ⟨_, _, _, _, rfl, hv, rfl, .inr ⟨r, _, hValue, rfl, hCode, hNext, rfl⟩⟩

/-- An array is indexed where it is, a pointer by its value. -/
theorem of_index (h : results (.index t x i) T p o p') :
    ∃ v s base s', results x T p v s ∧ element t i base T s' o p' ∧
      ((∃ u n, x.ty? = some (.array u n)) ∧ address v.1 T s base s' ∨
        (∃ u, x.ty? = some (.ptr u)) ∧ value v.1 T s base s') := by
  obtain ⟨v, s, hv, xt, s, ⟨hTy, rfl⟩, h⟩ := h
  refine ⟨v, s, ?_⟩
  cases xt with
  | array u n =>
    obtain ⟨base, s', hBase, h⟩ := h
    exact ⟨base, s', hv, h, .inl ⟨⟨u, n, hTy⟩, hBase⟩⟩
  | ptr u =>
    obtain ⟨base, s', hBase, h⟩ := h
    exact ⟨base, s', hv, h, .inr ⟨⟨u, hTy⟩, hBase⟩⟩
  | _ =>
    obtain ⟨_, _, hNever, -⟩ := h
    exact hNever.elim

end Parts

end Shape

end Comptime
