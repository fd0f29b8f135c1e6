import Comptime.Proofs.Width
import Mathlib.Data.List.Forall2

/-!
# Typed trees

The typing rules of checked trees. A node has the type that its parts determine, an operator is applied to operands of the
kind it requires, and what is assigned, passed, returned or declared with a value has the type of its target. How many
values there are is not a matter of types: lowering reports it if a number is wrong.

Two things are not said by the types, and lowering relies on both. A call whose result takes no room leaves no value, which
can be assigned and passed, but neither has an address nor can be copied (`Expr.spares`). And a deferred statement that
defers something itself needs a further scope around it (`Stmt.isAnchored`).
-/

namespace Comptime

open List

variable {t : Ty}

/-! ## Types -/

namespace Ty

variable {fs : List (Field Ty)}

mutual

/-- No part of the type is missing. -/
def isGiven : Ty → Bool
  | missing => false
  | void | bool | int _ _ | float _ => true
  | ptr t => isGiven t
  | array t _ => isGiven t
  | struct _ fs => fieldsGiven fs
  | func ins outs => allGiven ins && allGiven outs

def fieldsGiven : List (Field Ty) → Bool
  | [] => true
  | f :: fs => isGiven f.ty && fieldsGiven fs

def allGiven : List Ty → Bool
  | [] => true
  | t :: ts => isGiven t && allGiven ts

end

/-- A type of natural width that is there. -/
structure Plain (t : Ty) : Prop where
  natural : t.isNatural = true
  given : t.isGiven = true

theorem allGiven_iff {ts : List Ty} : allGiven ts = true ↔ ∀ t ∈ ts, t.isGiven = true := by
  induction ts with
  | nil => simp [allGiven]
  | cons t ts ih => simp [allGiven, ih]

mutual

theorem exists_extent : (t : Ty) → t.isGiven = true → ∃ e, t.extent? = some e
  | missing, h => by cases h
  | void, _ | bool, _ | int _ _, _ | float _, _ | ptr _, _ | func _ _, _ => ⟨_, rfl⟩
  | array t _, h => by
    obtain ⟨e, he⟩ := exists_extent t h
    exact ⟨_, by rw [extent?, he]; rfl⟩
  | struct _ fs, h => by
    obtain ⟨e, he⟩ := exists_fieldsEnd fs h ⟨0, 1⟩
    exact ⟨_, by rw [extent?, he]; rfl⟩

theorem exists_fieldsEnd : (fs : List (Field Ty)) → fieldsGiven fs = true → ∀ e, ∃ e', fieldsEnd? e fs = some e'
  | [], _, e => ⟨e, rfl⟩
  | f :: fs, h, e => by
    rw [fieldsGiven, Bool.and_eq_true] at h
    obtain ⟨x, hx⟩ := exists_extent f.ty h.1
    obtain ⟨e', he'⟩ := exists_fieldsEnd fs h.2 (e.addField x)
    exact ⟨e', by rw [fieldsEnd?, hx]; exact he'⟩

end

theorem exists_regType (hGiven : t.isGiven = true) : ∃ rt, t.regType? = some rt := by
  obtain ⟨e, he⟩ := t.exists_extent hGiven
  cases t with
  | bool | float _ | ptr _ | func _ _ => exact ⟨_, rfl⟩
  | _ => exact ⟨.ofSize e.size, by simp only [regType?, size?, he, Option.map_some]⟩

/-- The type of a field is a part of the type. -/
theorem of_placeFrom {P : Ty → Prop} {e : Extent} {l : List Placed} (hFs : ∀ f ∈ fs, P f.ty)
    (hPlaced : placeFrom? e fs = some l) : ∀ f ∈ l, P f.ty := by
  induction fs generalizing e l with
  | nil =>
    cases hPlaced
    nofun
  | cons f fs ih =>
    simp only [placeFrom?, Option.bind_eq_bind, Option.pure_def, Option.bind_eq_some_iff, Option.some.injEq] at hPlaced
    obtain ⟨x, -, rest, hRest, rfl⟩ := hPlaced
    exact forall_mem_cons.mpr ⟨hFs f mem_cons_self, ih (fun f hf => hFs f (mem_cons_of_mem _ hf)) hRest⟩

theorem fieldsNatural_iff : fieldsNatural fs = true ↔ ∀ f ∈ fs, f.ty.isNatural = true := by
  induction fs with
  | nil => simp [fieldsNatural]
  | cons f fs ih => simp [fieldsNatural, ih]

theorem fieldsGiven_iff : fieldsGiven fs = true ↔ ∀ f ∈ fs, f.ty.isGiven = true := by
  induction fs with
  | nil => simp [fieldsGiven]
  | cons f fs ih => simp [fieldsGiven, ih]

namespace Plain

variable {t : Ty} {ins outs : List Ty} {fs : List (Field Ty)}

theorem void : Plain .void := ⟨rfl, rfl⟩

theorem bool : Plain .bool := ⟨rfl, rfl⟩

theorem ptr_iff : Plain (.ptr t) ↔ Plain t := ⟨fun h => ⟨h.natural, h.given⟩, fun h => ⟨h.natural, h.given⟩⟩

theorem of_array {len : Int64} (h : Plain (.array t len)) : Plain t := ⟨h.natural, h.given⟩

theorem of_func (h : Plain (.func ins outs)) : (∀ t ∈ ins, Plain t) ∧ ∀ t ∈ outs, Plain t := by
  have hNatural := isNatural_func.mp h.natural
  have hGiven := h.given
  rw [isGiven, Bool.and_eq_true, allGiven_iff, allGiven_iff] at hGiven
  exact ⟨fun t ht => ⟨hNatural.1 t ht, hGiven.1 t ht⟩, fun t ht => ⟨hNatural.2 t ht, hGiven.2 t ht⟩⟩

theorem of_field {s name : String} {f : Placed} (h : Plain (.struct s fs)) (hField : field? fs name = some f) :
    Plain f.ty := by
  simp only [field?, Option.bind_eq_bind, Option.bind_eq_some_iff] at hField
  obtain ⟨l, hPlaced, hFind⟩ := hField
  have hFs : ∀ f ∈ fs, Plain f.ty := fun f hf =>
    ⟨fieldsNatural_iff.mp h.natural f hf, fieldsGiven_iff.mp h.given f hf⟩
  exact of_placeFrom hFs hPlaced f (mem_of_find?_eq_some hFind)

/-- The result that a call stands for. -/
theorem of_last (h : Plain (.func ins outs)) : Plain (outs.getLast?.getD .void) := by
  cases hLast : outs.getLast? with
  | none => exact void
  | some t => exact h.of_func.2 t (mem_of_getLast? hLast)

end Plain

/-- A value of the type takes room, and there are registers for it. -/
structure Carried (t : Ty) : Prop where
  size : t.size? ≠ some 0
  reg : ∃ rt, t.regType? = some rt ∧ rt ≠ .void

theorem Carried.extent (h : t.Carried) : ∃ e, t.extent? = some e := by
  obtain ⟨rt, hReg, -⟩ := h.reg
  cases t with
  | bool | float _ | ptr _ | func _ _ => exact ⟨_, rfl⟩
  | _ =>
    simp only [regType?, size?, Option.map_map, Option.map_eq_some_iff] at hReg
    exact hReg.imp fun _ h => h.1

/-- Scalars of natural width travel in registers. -/
theorem Plain.carried (h : t.Plain) (hScalar : t.isScalar = true) : t.Carried := by
  obtain ⟨rt, hrt⟩ := exists_regType h.given
  refine ⟨fun hSize => ?_, rt, hrt, regType?_ne_void h.natural hScalar hrt⟩
  have hNatural := h.natural
  cases t with
  | bool | ptr _ | func _ _ => cases hSize
  | int bits signed =>
    have hBits : bits = 8 ∨ bits = 16 ∨ bits = 32 ∨ bits = 64 := by simpa [isNatural, or_assoc] using hNatural
    rcases hBits with rfl | rfl | rfl | rfl <;> cases hSize
  | float bits =>
    have hBits : bits = 32 ∨ bits = 64 := by simpa [isNatural] using hNatural
    rcases hBits with rfl | rfl <;> cases hSize
  | missing | void | array _ _ | struct _ _ => cases hScalar

theorem Carried.bool : Carried .bool := Plain.bool.carried rfl

end Ty

/-! ## Conventions -/

namespace Convention

/-- Only compounds that fit a register travel in one. -/
def Regular (direct : DirectSize) : Prop := ∀ n, direct n = true → n = 1 ∨ n = 2 ∨ n = 4 ∨ n = 8

theorem regular_standard : Regular standard := fun n hn => by simpa [standard, or_assoc] using hn

theorem exists_classify (direct : DirectSize) (hGiven : t.isGiven = true) : ∃ p, classify? direct t = some p := by
  obtain ⟨e, he⟩ := t.exists_extent hGiven
  obtain ⟨rt, hrt⟩ := t.exists_regType hGiven
  have hSize : t.size? = some e.size := by rw [Ty.size?, he]; rfl
  unfold classify?
  split
  · exact ⟨_, rfl⟩
  · simp only [hSize, hrt, Option.pure_def, Option.bind_eq_bind, Option.bind_some]
    split_ifs
    · exact ⟨_, rfl⟩
    · exact ⟨_, rfl⟩
    · exact ⟨_, rfl⟩
    · exact ⟨_, rfl⟩

/-- How a value is passed, by what is known of its type. -/
theorem classify?_spec {direct : DirectSize} {t : Ty} {p : Param} (hRegular : Regular direct) (hPlain : t.Plain)
    (hClass : classify? direct t = some p) :
    p.ty = t ∧ (p.rule = .ignore → t.size? = some 0) ∧ (p.rule = .direct → t.Carried) ∧
      (p.rule = .indirect → t.size? ≠ some 0) := by
  obtain ⟨e, he⟩ := t.exists_extent hPlain.given
  have hSize : t.size? = some e.size := by rw [Ty.size?, he]; rfl
  unfold classify? at hClass
  split at hClass
  · cases hPlain.given
  · simp only [hSize, Option.pure_def, Option.bind_eq_bind, Option.bind_some] at hClass
    split_ifs at hClass with hZero hScalar hDirect
    · cases hClass
      refine ⟨rfl, fun _ => by rw [hSize, hZero], ?_, ?_⟩ <;> rintro ⟨⟩
    · obtain ⟨rt, -, hParam⟩ := Option.bind_eq_some_iff.mp hClass
      cases hParam
      refine ⟨rfl, ?_, fun _ => hPlain.carried hScalar, ?_⟩ <;> rintro ⟨⟩
    · cases hClass
      have hCarried : t.Carried := by
        refine ⟨fun h => hZero (Option.some.inj (hSize.symm.trans h)), .ofSize e.size, ?_, ?_⟩
        · cases t with
          | bool | float _ | ptr _ | func _ _ => exact absurd rfl hScalar
          | _ => simp only [Ty.regType?, hSize, Option.map_some]
        · rcases hRegular _ hDirect with h | h | h | h <;> rw [h] <;> decide
      refine ⟨rfl, ?_, fun _ => hCarried, ?_⟩ <;> rintro ⟨⟩
    · cases hClass
      refine ⟨rfl, ?_, ?_, fun _ h => hZero (Option.some.inj (hSize.symm.trans h))⟩ <;> rintro ⟨⟩

theorem exists_sig (direct : DirectSize) {ins outs : List Ty} (hIns : ∀ t ∈ ins, t.isGiven = true)
    (hOuts : ∀ t ∈ outs, t.isGiven = true) : ∃ sig, sig? direct ins outs = some sig := by
  obtain ⟨params, hParams⟩ : ∃ params, ins.mapM (classify? direct) = some params := by
    induction ins with
    | nil => exact ⟨[], rfl⟩
    | cons t ts ih =>
      obtain ⟨p, hp⟩ := exists_classify direct (hIns t mem_cons_self)
      obtain ⟨ps, hps⟩ := ih fun t ht => hIns t (mem_cons_of_mem _ ht)
      exact ⟨p :: ps, by simp [mapM_cons, hp, hps]⟩
  unfold sig?
  cases hLast : outs.getLast? with
  | none =>
    simp only [hParams, Option.pure_def, Option.bind_eq_bind, Option.bind_some]
    exact ⟨_, rfl⟩
  | some t =>
    obtain ⟨ret, hRet⟩ := exists_classify direct (hOuts t (mem_of_getLast? hLast))
    simp only [hRet, hParams, Option.pure_def, Option.bind_eq_bind, Option.bind_some]
    exact ⟨_, rfl⟩

section Signatures

variable {direct : DirectSize} {ins outs : List Ty} {sig : Sig} (hSig : sig? direct ins outs = some sig)

include hSig

/-- Every parameter is classified by its type. -/
theorem forall₂_of_sig : List.Forall₂ (fun t p => classify? direct t = some p) ins sig.params := by
  obtain ⟨-, hParams, -⟩ := sig?_eq_some hSig
  generalize sig.params = ps at hParams
  clear hSig
  induction ins generalizing ps with
  | nil =>
    cases hParams
    exact .nil
  | cons t ts ih =>
    simp only [mapM_cons, Option.pure_def, Option.bind_eq_bind, Option.bind_eq_some_iff, Option.some.injEq] at hParams
    obtain ⟨p, hp, qs, hqs, rfl⟩ := hParams
    exact .cons hp (ih qs hqs)

/-- A result comes back through a pointer, unless it is the last one and travels otherwise. -/
theorem mem_hidden {i : Nat} (ht : outs[i]? = some t) (hRule : i + 1 = outs.length → sig.ret.rule = .indirect) :
    i ∈ sig.hidden.map (·.result) := by
  have hLt : i < outs.length := (List.getElem?_eq_some_iff.mp ht).1
  obtain ⟨-, -, ⟨rfl, -⟩ | ⟨u, -, -, hHidden⟩⟩ := sig?_eq_some hSig
  · cases hLt
  rw [hHidden, hiddenResults]
  by_cases hLast : i + 1 = outs.length
  · rw [if_pos (hRule hLast)]
    exact mem_cons.mpr (.inl (by simp only; omega))
  · have hEarly : i ∈ (outs.dropLast.mapIdx fun i t => (⟨i, t⟩ : Hidden)).map (·.result) := by
      have hLt' : i < outs.dropLast.length := by rw [length_dropLast]; omega
      exact mem_map.mpr ⟨⟨i, outs.dropLast[i]⟩, mem_mapIdx.mpr ⟨i, hLt', rfl⟩, rfl⟩
    split
    · exact mem_cons_of_mem _ hEarly
    · exact hEarly

/-- The pointers are for results of the procedure. -/
theorem hidden_mem {h : Hidden} (hh : h ∈ sig.hidden) (hPlain : ∀ t ∈ outs, t.Plain) (hRegular : Regular direct) :
    h.ty.Plain := by
  obtain ⟨-, -, ⟨-, -, hNil⟩ | ⟨t, hLast, hClass, hHidden⟩⟩ := sig?_eq_some hSig
  · rw [hNil] at hh
    cases hh
  have hEarly : h ∈ outs.dropLast.mapIdx (fun i t => (⟨i, t⟩ : Hidden)) → h.ty.Plain := fun hIn => by
    obtain ⟨i, hi, rfl⟩ := mem_mapIdx.mp hIn
    exact hPlain _ ((dropLast_subset _) (getElem_mem hi))
  rw [hHidden, hiddenResults] at hh
  split at hh
  · rcases mem_cons.mp hh with rfl | hh
    · rw [(classify?_spec hRegular (hPlain t (mem_of_getLast? hLast)) hClass).1]
      exact hPlain t (mem_of_getLast? hLast)
    · exact hEarly hh
  · exact hEarly hh

/-- The last result, by the way it travels. -/
theorem ret_spec (hPlain : ∀ t ∈ outs, t.Plain) (hRegular : Regular direct)
    (hLast : outs.getLast? = some t) : (sig.ret.rule = .ignore → t.size? = some 0) ∧
    (sig.ret.rule = .direct → t.Carried) := by
  obtain ⟨-, -, ⟨rfl, -⟩ | ⟨u, hLast', hClass, -⟩⟩ := sig?_eq_some hSig
  · cases hLast
  obtain rfl : u = t := Option.some.inj (hLast'.symm.trans hLast)
  obtain ⟨-, hIgnore, hDirect, -⟩ := classify?_spec hRegular (hPlain u (mem_of_getLast? hLast)) hClass
  exact ⟨hIgnore, hDirect⟩

end Signatures

end Convention

/-! ## Expressions -/

namespace Expr

/-- An expression has a type. -/
inductive Typed : Expr → Ty → Prop
  | int {t v} : t.Plain → t.isScalar = true → Typed (.int t v) t
  | float {t bits} : t.Plain → t.isFloat = true → Typed (.float t bits) t
  | bool {v} : Typed (.bool v) .bool
  | var {v : Variable} : v.ty.Plain → Typed (.ident v.ty (.var v)) v.ty
  | proc {p : ProcRef} : p.ty.Plain → Typed (.ident p.ty (.proc p)) p.ty
  | logical {op l r} : op = .land ∨ op = .lor → Typed l .bool → Typed r .bool → Typed (.binary .bool op l r) .bool
  | binary {t op l r tl tr} : op ≠ .land → op ≠ .lor → Typed l tl → Typed r tr → tl.isScalar = true → tr.isScalar = true →
    t = (if op.yieldsBool then .bool else tl) → Typed (.binary t op l r) t
  | not {x} : Typed x .bool → Typed (.unary .bool .not x) .bool
  | deref {x t} : Typed x (.ptr t) → Typed (.unary t .deref x) t
  | addressOf {x t} : Typed x t → Typed (.unary (.ptr t) .addressOf x) (.ptr t)
  | unary {op x t} : op ≠ .not → op ≠ .deref → op ≠ .addressOf → Typed x t → t.isScalar = true → Typed (.unary t op x) t
  | call {t fn args ins outs} : Typed fn (.func ins outs) → (∀ p ∈ args.zip ins, Typed p.1 p.2) →
    t = outs.getLast?.getD .void → Typed (.call t fn args) t
  | cast {x t u} : Typed x u → u.isScalar = true → t.Plain → Typed (.cast t x) t
  | field {x s fs name f} : Typed x (.struct s fs) → Ty.field? fs name = some f → Typed (.field f.ty x name) f.ty
  | element {x i t u len} : Typed x (.array t len) → Typed i u → u.isScalar = true → Typed (.index t x i) t
  | offset {x i t u} : Typed x (.ptr t) → Typed i u → u.isScalar = true → Typed (.index t x i) t

theorem Typed.ty_eq {x : Expr} (h : x.Typed t) : x.ty? = some t := by cases h <;> rfl

theorem Typed.plain {x : Expr} (h : x.Typed t) : t.Plain := by
  induction h with
  | int h | float h | var h | proc h => exact h
  | bool | logical | not => exact .bool
  | binary _ _ _ _ _ _ hTy ihl _ =>
    subst hTy
    split
    · exact .bool
    · exact ihl
  | deref _ ih => exact Ty.Plain.ptr_iff.mp ih
  | addressOf _ ih => exact Ty.Plain.ptr_iff.mpr ih
  | unary _ _ _ _ _ ih => exact ih
  | call _ _ hTy ih _ => exact hTy ▸ ih.of_last
  | cast _ _ h => exact h
  | field _ hField ih => exact ih.of_field hField
  | element _ _ _ ih _ => exact ih.of_array
  | offset _ _ _ ih _ => exact Ty.Plain.ptr_iff.mp ih

/-- A call whose result takes no room. -/
def isVacant : Expr → Bool
  | .call t _ _ => t.size? == some 0
  | _ => false

mutual

/-- No part of the expression asks for the address of a value that a call has not left. -/
def spares : Expr → Bool
  | absent | int _ _ | float _ _ | bool _ | ident _ _ => true
  | binary _ _ l r => spares l && spares r
  | unary _ op x => (op != .addressOf || !x.isVacant) && spares x
  | call _ fn args => spares fn && allSpare args
  | cast _ x => spares x
  | field _ x _ => !x.isVacant && spares x
  | index _ x i => !x.isVacant && spares x && spares i

def allSpare : List Expr → Bool
  | [] => true
  | x :: xs => spares x && allSpare xs

end

theorem allSpare_iff {xs : List Expr} : allSpare xs = true ↔ ∀ x ∈ xs, x.spares = true := by
  induction xs with
  | nil => simp [allSpare]
  | cons x xs ih => simp [allSpare, ih]

end Expr

/-! ## Statements -/

namespace Stmt

/-- A statement of a procedure with these results is typed. -/
inductive Typed (outs : List Ty) : Stmt → Prop
  | absent : Typed outs .absent
  | block {l} : (∀ s ∈ l, Typed outs s) → Typed outs (.block l)
  | expr {x t} : x.Typed t → Typed outs (.expr x)
  | decl {v init} : v.ty.Plain → init.isAbsent = true ∨ init.Typed v.ty → Typed outs (.decl v init)
  | assign {lhs rhs ts us} : List.Forall₂ Expr.Typed lhs ts → List.Forall₂ Expr.Typed rhs us →
    (lhs.length = rhs.length → us = ts) →
    (∀ t fn args ins results, rhs = [.call t fn args] → lhs.length ≠ 1 → fn.Typed (.func ins results) →
      ∀ p ∈ ts.zip results, p.2 = p.1) → Typed outs (.assign none lhs rhs)
  | compound {op lhs rhs ts us} : List.Forall₂ Expr.Typed lhs ts → List.Forall₂ Expr.Typed rhs us →
    (∀ t ∈ ts, t.isScalar = true) → (∀ t ∈ us, t.isScalar = true) → Typed outs (.assign (some op) lhs rhs)
  | cond {test yes no} : test.Typed .bool → (∀ s ∈ yes, Typed outs s) → Typed outs no → Typed outs (.cond test yes no)
  | loop {init test post body} : Typed outs init → test.isAbsent = true ∨ test.Typed .bool → Typed outs post →
    (∀ s ∈ body, Typed outs s) → Typed outs (.loop init test post body)
  | whileDo {test body} : test.Typed .bool → (∀ s ∈ body, Typed outs s) → Typed outs (.whileDo test body)
  | doWhile {test body} : test.Typed .bool → (∀ s ∈ body, Typed outs s) → Typed outs (.doWhile test body)
  | switch {tag t cs} : tag.Typed t → t.isScalar = true → (∀ c ∈ cs, ∀ s ∈ c.body, Typed outs s) →
    Typed outs (.switch tag cs)
  | breakOut : Typed outs .breakOut
  | continueLoop : Typed outs .continueLoop
  | fallthrough : Typed outs .fallthrough
  | ret {xs ts} : List.Forall₂ Expr.Typed xs ts → (xs.length = outs.length → ts = outs) →
    (∀ t fn args ins results, xs = [.call t fn args] → 1 < outs.length → fn.Typed (.func ins results) →
      ∀ p ∈ outs.zip results, p.2 = p.1) → Typed outs (.ret xs)
  | defer {s} : Typed outs s → Typed outs (.defer s)

mutual

/-- No value that a call has not left is asked for its address, or copied so that others can be assigned first. -/
def spares : Stmt → Bool
  | absent | breakOut | continueLoop | fallthrough => true
  | block body => allSpare body
  | expr x => x.spares
  | decl _ init => init.spares
  | assign _ lhs rhs => Expr.allSpare lhs && Expr.allSpare rhs && (rhs.length == 1 || rhs.all (!·.isVacant))
  | cond test yes no => test.spares && allSpare yes && spares no
  | loop init test post body => spares init && test.spares && spares post && allSpare body
  | whileDo test body | doWhile test body => test.spares && allSpare body
  | switch tag cs => tag.spares && casesSpare cs
  | ret xs => Expr.allSpare xs
  | defer s => spares s

def allSpare : List Stmt → Bool
  | [] => true
  | s :: ss => spares s && allSpare ss

def casesSpare : List (Case Stmt) → Bool
  | [] => true
  | c :: cs => allSpare c.body && casesSpare cs

end

theorem allSpare_iff {ss : List Stmt} : allSpare ss = true ↔ ∀ s ∈ ss, s.spares = true := by
  induction ss with
  | nil => simp [allSpare]
  | cons s ss ih => simp [allSpare, ih]

theorem casesSpare_iff {cs : List (Case Stmt)} : casesSpare cs = true ↔ ∀ c ∈ cs, ∀ s ∈ c.body, s.spares = true := by
  induction cs with
  | nil => simp [casesSpare]
  | cons c cs ih => simp [casesSpare, allSpare_iff, ih]

mutual

/-- With `n` scopes around the statement, whatever is deferred finds a scope, now and when deferred statements run. -/
def isAnchored : Stmt → (n : Nat) → Bool
  | absent, _ | expr _, _ | decl _ _, _ | assign _ _ _, _ | breakOut, _ | continueLoop, _ | fallthrough, _ | ret _, _ =>
      true
  | block body, n => allAnchored body (n + 1)
  | cond _ yes no, n => allAnchored yes (n + 1) && isAnchored no n
  | loop init _ post body, n => isAnchored init (n + 1) && isAnchored post (n + 1) && allAnchored body (n + 2)
  | whileDo _ body, n | doWhile _ body, n => allAnchored body (n + 1)
  | switch _ cs, n => casesAnchored cs (n + 1)
  | defer _, 0 => false
  | defer s, n + 1 => isAnchored s n

def allAnchored : List Stmt → (n : Nat) → Bool
  | [], _ => true
  | s :: ss, n => isAnchored s n && allAnchored ss n

def casesAnchored : List (Case Stmt) → (n : Nat) → Bool
  | [], _ => true
  | c :: cs, n => allAnchored c.body n && casesAnchored cs n

end

end Stmt

/-- The parameters and results have types, and so has everything in the body. -/
structure ProcDecl.Typed (p : ProcDecl) : Prop where
  ins : ∀ t ∈ p.ins, t.Plain
  outs : ∀ t ∈ p.outs, t.Plain
  body : ∀ body, p.body = some body → ∀ s ∈ body, s.Typed p.outs

end Comptime
