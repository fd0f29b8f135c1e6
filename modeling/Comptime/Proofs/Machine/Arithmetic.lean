import Comptime.Machine.Word
import Mathlib.Algebra.GroupWithZero.Nat

/-!
# Fixed-width arithmetic

A register of an integer type holds the sign extension of a bit vector of the type's width (`Word.ofBits`). Operations work
on 64 bits, read their operands as signed or as zero-extended ones and cut the result to the width once, at the end. On
registers that hold bit vectors they are the operations on bit vectors (`Word.operations_fixedWidth`).
-/

namespace Comptime

open BitVec Except

namespace RegType

/-- The width in bits. -/
def bits (t : RegType) : Nat := 8 * t.size

def isInteger : RegType → Bool
  | i8 | i16 | i32 | i64 | ptr => true
  | _ => false

variable {t : RegType}

theorem bits_pos (ht : t.isInteger = true) : 0 < t.bits := by cases t <;> first | decide | cases ht

theorem bits_le (ht : t.isInteger = true) : t.bits ≤ 64 := by cases t <;> first | decide | cases ht

end RegType

namespace Op

variable {w : Nat} (a b : BitVec w)

/-- Divisions and remainders. -/
def divides : Op → Bool
  | sdiv | udiv | srem | urem => true
  | _ => false

/-- The bit vector that an operation gives. A shift count is taken modulo the width. -/
def onBits? : Op → Option (BitVec w)
  | add => some (a + b)
  | sub => some (a - b)
  | mul => some (a * b)
  | sdiv => some (a.sdiv b)
  | udiv => some (a / b)
  | srem => some (a.srem b)
  | urem => some (a % b)
  | and => some (a &&& b)
  | or => some (a ||| b)
  | xor => some (a ^^^ b)
  | shl => some (a <<< (b.toNat % w))
  | lshr => some (a >>> (b.toNat % w))
  | ashr => some (a.sshiftRight (b.toNat % w))
  | _ => none

/-- The truth value that a comparison gives. -/
def test? : Op → Option Bool
  | eq => some (a == b)
  | ne => some (a != b)
  | slt => some (a.slt b)
  | sle => some (a.sle b)
  | sgt => some (b.slt a)
  | sge => some (b.sle a)
  | ult => some (a.ult b)
  | ule => some (a.ule b)
  | ugt => some (b.ult a)
  | uge => some (b.ule a)
  | _ => none

end Op

namespace Word

open RegType

/-- The register that holds a bit vector. -/
def ofBits {w : Nat} (a : BitVec w) : UInt64 := ⟨a.signExtend 64⟩

/-- What a binary operation gives for registers that hold bit vectors. -/
def reference {w : Nat} (op : Op) (a b : BitVec w) : Except Undefined UInt64 :=
  if op.divides ∧ b = 0 then .error .divisionByZero
  else match op.onBits? a b, op.test? a b with
    | some v, _ => .ok (ofBits v)
    | none, some c => .ok (flag c)
    | none, none => .error (.notAnInteger op)

/-! ## Registers and bit vectors -/

theorem signExtend_setWidth {w v : Nat} {a : BitVec w} (h : v ≤ 64) : (a.signExtend 64).setWidth v = a.signExtend v := by
  apply eq_of_getLsbD_eq
  intro i hi
  rw [getLsbD_setWidth, getLsbD_signExtend, getLsbD_signExtend]
  simp [hi, Nat.lt_of_lt_of_le hi h]

section Registers

variable {t s : RegType} (ht : t.isInteger = true)
variable {v : UInt64} {c : BitVec t.bits}

include ht

theorem canon_eq_ofBits (v : UInt64) : canon t v = ofBits (v.toBitVec.setWidth t.bits) := by
  cases t with
  | i8 | i16 | i32 => rfl
  | i64 | ptr => exact UInt64.toBitVec_inj.mp (by simp [canon, ofBits, bits, size])
  | _ => cases ht

theorem canon_eq (h : v.toBitVec.setWidth t.bits = c) : canon t v = ofBits c := by
  rw [canon_eq_ofBits ht, h]

theorem canon_flag (c : Bool) : canon t (flag c) = flag c := by cases t <;> cases c <;> rfl

theorem toNat_width : (width t).toNat = t.bits := by cases t <;> rfl

variable (a b : BitVec t.bits)

theorem setWidth_ofBits : (ofBits a).toBitVec.setWidth t.bits = a := by
  rw [ofBits, signExtend_setWidth (bits_le ht), signExtend_eq]

theorem canon_ofBits : canon t (ofBits a) = ofBits a := canon_eq ht (setWidth_ofBits ht a)

theorem ofBits_inj : ofBits a = ofBits b ↔ a = b := by
  refine ⟨fun h => ?_, fun h => h ▸ rfl⟩
  rw [← setWidth_ofBits ht a, h, setWidth_ofBits ht]

theorem ofBits_eq_zero : ofBits b = 0 ↔ b = 0 := by
  have hZero : ofBits (0 : BitVec t.bits) = 0 := UInt64.toBitVec_inj.mp (by ext; simp [ofBits, getElem_signExtend])
  rw [← hZero, ofBits_inj ht]

theorem toInt_ofBits : (ofBits a).toInt64.toInt = a.toInt := toInt_signExtend_of_le (bits_le ht)

theorem zext_eq_ofBits : (zext t (ofBits a)).toBitVec = a.setWidth 64 := by
  have hCut : (zext t (ofBits a)).toBitVec = ((ofBits a).toBitVec.setWidth t.bits).setWidth 64 := by
    cases t with
    | i8 | i16 | i32 => rfl
    | i64 | ptr => simp [zext, bits, size]
    | _ => cases ht
  rw [hCut, setWidth_ofBits ht]

theorem toNat_zext : (zext t (ofBits a)).toNat = a.toNat := by
  rw [← UInt64.toNat_toBitVec, zext_eq_ofBits ht, toNat_setWidth_of_le (bits_le ht)]

/-! ## Binary operations -/

theorem add_ofBits : canon t (ofBits a + ofBits b) = ofBits (a + b) := canon_eq ht <| by
  rw [UInt64.toBitVec_add, setWidth_add _ _ (bits_le ht), setWidth_ofBits ht, setWidth_ofBits ht]

theorem sub_ofBits : canon t (ofBits a - ofBits b) = ofBits (a - b) := canon_eq ht <| by
  rw [UInt64.toBitVec_sub, sub_eq_add_neg, setWidth_add _ _ (bits_le ht), setWidth_neg_of_le (bits_le ht),
    setWidth_ofBits ht, setWidth_ofBits ht, sub_eq_add_neg]

theorem mul_ofBits : canon t (ofBits a * ofBits b) = ofBits (a * b) := canon_eq ht <| by
  rw [UInt64.toBitVec_mul, setWidth_mul _ _ (bits_le ht), setWidth_ofBits ht, setWidth_ofBits ht]

theorem signed_ofBits {v : Int64} (h : v.toInt.bmod (2 ^ t.bits) = c.toInt) : canon t v.toUInt64 = ofBits c := by
  refine canon_eq ht (eq_of_toInt_eq ?_)
  rw [← h, ← signExtend_eq_setWidth_of_le _ (bits_le ht), toInt_signExtend_eq_toInt_bmod_of_le _ (bits_le ht)]
  rfl

theorem unsigned_ofBits (h : v.toNat = c.toNat) : canon t v = ofBits c := by
  refine canon_eq ht (eq_of_toNat_eq ?_)
  rw [toNat_setWidth, UInt64.toNat_toBitVec, h, Nat.mod_eq_of_lt c.isLt]

theorem signedQuot_ofBits {f : Int64 → Int64 → Int64}
    (h : (f (ofBits a).toInt64 (ofBits b).toInt64).toInt.bmod (2 ^ t.bits) = c.toInt) :
    signedQuot f t (ofBits a) (ofBits b) = if b = 0 then .error .divisionByZero else .ok (ofBits c) := by
  simp only [signedQuot, ofBits_eq_zero ht, signed_ofBits ht h]

theorem unsignedQuot_ofBits {f : UInt64 → UInt64 → UInt64} (h : (f (zext t (ofBits a)) (zext t (ofBits b))).toNat = c.toNat) :
    unsignedQuot f t (ofBits a) (ofBits b) = if b = 0 then .error .divisionByZero else .ok (ofBits c) := by
  have hGuard : zext t (ofBits b) = 0 ↔ b = 0 := by
    rw [← UInt64.toNat_inj, toNat_zext ht, ← toNat_inj]
    simp
  simp only [unsignedQuot, ofBits_eq_zero ht, hGuard, unsigned_ofBits ht h]
  split <;> rfl

theorem count_lt : b.toNat % t.bits < 64 := Nat.lt_of_lt_of_le (Nat.mod_lt _ (bits_pos ht)) (bits_le ht)

theorem toNat_count : (zext t (ofBits b) % width t).toNat = b.toNat % t.bits := by
  rw [UInt64.toNat_mod, toNat_zext ht, toNat_width ht]

theorem shift_ofBits {f : UInt64 → UInt64} (h : canon t (f (zext t (ofBits b) % width t)) = ofBits c) :
    shift t (ofBits b) f = .ok (ofBits c) := by
  have hWidth : width t ≠ 0 := by cases t <;> first | decide | cases ht
  rw [shift, if_neg hWidth, h]

theorem shl_ofBits : canon t (ofBits a <<< (zext t (ofBits b) % width t)) = ofBits (a <<< (b.toNat % t.bits)) := by
  have hCount : ((zext t (ofBits b) % width t).toBitVec % 64).toNat = b.toNat % t.bits := by
    rw [toNat_umod, UInt64.toNat_toBitVec, toNat_count ht]
    exact Nat.mod_eq_of_lt (count_lt ht b)
  refine canon_eq ht ?_
  rw [UInt64.toBitVec_shiftLeft, shiftLeft_eq', setWidth_shiftLeft_of_le (bits_le ht), setWidth_ofBits ht, hCount]

theorem lshr_ofBits : canon t (zext t (ofBits a) >>> (zext t (ofBits b) % width t)) = ofBits (a >>> (b.toNat % t.bits)) := by
  refine unsigned_ofBits ht ?_
  rw [UInt64.toNat_shiftRight, toNat_zext ht, toNat_count ht, Nat.mod_eq_of_lt (count_lt ht b), toNat_ushiftRight]

theorem ashr_ofBits : canon t ((ofBits a).toInt64 >>> (zext t (ofBits b) % width t).toInt64).toUInt64 =
    ofBits (a.sshiftRight (b.toNat % t.bits)) := by
  have hNat : (zext t (ofBits b) % width t).toInt64.toBitVec.toNat = b.toNat % t.bits := toNat_count ht b
  -- a count below the width is not negative, so that it stays what it is when it is taken modulo 64 once more
  have hCount : ((zext t (ofBits b) % width t).toInt64.toBitVec.smod 64).toNat = b.toNat % t.bits := by
    have hLt := count_lt ht b
    have hMsb : (zext t (ofBits b) % width t).toInt64.toBitVec.msb = false := by grind
    rw [toNat_smod, hMsb]
    change (umod _ _).toNat = _
    rw [umod_eq, toNat_umod, hNat]
    exact Nat.mod_eq_of_lt hLt
  refine signed_ofBits ht ?_
  change ((ofBits a).toInt64 >>> (zext t (ofBits b) % width t).toInt64).toBitVec.toInt.bmod (2 ^ t.bits) = _
  rw [Int64.toBitVec_shiftRight, sshiftRight_eq', hCount, toInt_sshiftRight,
    show (ofBits a).toInt64.toBitVec.toInt = a.toInt from toInt_ofBits ht a, ← toInt_sshiftRight, toInt_bmod_cancel]

theorem slt_ofBits : decide ((ofBits a).toInt64 < (ofBits b).toInt64) = a.slt b := by
  simp only [Int64.lt_iff_toInt_lt, toInt_ofBits ht, BitVec.slt]

theorem sle_ofBits : decide ((ofBits a).toInt64 ≤ (ofBits b).toInt64) = a.sle b := by
  simp only [Int64.le_iff_toInt_le, toInt_ofBits ht, BitVec.sle]

theorem ult_ofBits : decide (zext t (ofBits a) < zext t (ofBits b)) = a.ult b := by
  simp only [UInt64.lt_iff_toNat_lt, toNat_zext ht, BitVec.ult]

theorem ule_ofBits : decide (zext t (ofBits a) ≤ zext t (ofBits b)) = a.ule b := by
  simp only [UInt64.le_iff_toNat_le, toNat_zext ht, BitVec.ule]

theorem beq_ofBits : (ofBits a == ofBits b) = (a == b) := by
  rw [Bool.eq_iff_iff, beq_iff_eq, beq_iff_eq, ofBits_inj ht]

theorem binary_ofBits (op : Op) : binary op t (ofBits a) (ofBits b) = reference op a b := by
  have hFloat : ¬t.isFloat = true := by cases t <;> first | decide | cases ht
  rw [binary, if_neg hFloat]
  -- words are kept sign-extended, so that the unsigned operations look at the low bits only
  cases op with
  | add => exact congrArg ok (add_ofBits ht a b)
  | sub => exact congrArg ok (sub_ofBits ht a b)
  | mul => exact congrArg ok (mul_ofBits ht a b)
  | sdiv =>
    refine (signedQuot_ofBits ht a b (c := a.sdiv b) ?_).trans (by simp [reference, Op.divides, Op.onBits?])
    rw [Int64.toInt_div, toInt_ofBits ht, toInt_ofBits ht, toInt_sdiv, Int.bmod_bmod_of_dvd (Nat.pow_dvd_pow 2 (bits_le ht))]
  | srem =>
    refine (signedQuot_ofBits ht a b (c := a.srem b) ?_).trans (by simp [reference, Op.divides, Op.onBits?])
    rw [Int64.toInt_mod, toInt_ofBits ht, toInt_ofBits ht, ← toInt_srem, toInt_bmod_cancel]
  | udiv =>
    refine (unsignedQuot_ofBits ht a b (c := a / b) ?_).trans (by simp [reference, Op.divides, Op.onBits?])
    rw [UInt64.toNat_div, toNat_zext ht, toNat_zext ht, toNat_udiv]
  | urem =>
    refine (unsignedQuot_ofBits ht a b (c := a % b) ?_).trans (by simp [reference, Op.divides, Op.onBits?])
    rw [UInt64.toNat_mod, toNat_zext ht, toNat_zext ht, toNat_umod]
  | and => exact congrArg ok (UInt64.toBitVec_inj.mp (by simp [ofBits, signExtend_and]))
  | or => exact congrArg ok (UInt64.toBitVec_inj.mp (by simp [ofBits, signExtend_or]))
  | xor => exact congrArg ok (UInt64.toBitVec_inj.mp (by simp [ofBits, signExtend_xor]))
  | shl => exact shift_ofBits ht b (shl_ofBits ht a b)
  | lshr => exact shift_ofBits ht b (lshr_ofBits ht a b)
  | ashr => exact shift_ofBits ht b (f := fun n => ((ofBits a).toInt64 >>> n.toInt64).toUInt64) (ashr_ofBits ht a b)
  | eq => exact congrArg (ok ∘ flag) (beq_ofBits ht a b)
  | ne => exact congrArg (fun c => ok (flag !c)) (beq_ofBits ht a b)
  | slt => exact congrArg (ok ∘ flag) (slt_ofBits ht a b)
  | sle => exact congrArg (ok ∘ flag) (sle_ofBits ht a b)
  | sgt => exact congrArg (ok ∘ flag) (slt_ofBits ht b a)
  | sge => exact congrArg (ok ∘ flag) (sle_ofBits ht b a)
  | ult => exact congrArg (ok ∘ flag) (ult_ofBits ht a b)
  | ule => exact congrArg (ok ∘ flag) (ule_ofBits ht a b)
  | ugt => exact congrArg (ok ∘ flag) (ult_ofBits ht b a)
  | uge => exact congrArg (ok ∘ flag) (ule_ofBits ht b a)
  | _ => rfl

/-! ## Unary operations -/

theorem neg_ofBits : unary .neg t s (ofBits a) = ofBits (-a) := canon_eq ht <| by
  rw [UInt64.toBitVec_sub, UInt64.toBitVec_zero, BitVec.zero_sub, BitVec.setWidth_neg_of_le (bits_le ht), setWidth_ofBits ht]

theorem not_ofBits : unary .not t s (ofBits a) = ofBits (~~~a) := canon_eq ht <| by
  rw [UInt64.toBitVec_not, setWidth_not (bits_le ht), setWidth_ofBits ht]

omit a b

theorem sext_ofBits (a : BitVec s.bits) : unary .sext t s (ofBits a) = ofBits (a.signExtend t.bits) :=
  canon_eq ht (signExtend_setWidth (bits_le ht))

theorem zext_ofBits (hs : s.isInteger = true) (a : BitVec s.bits) :
    unary .zext t s (ofBits a) = ofBits (a.setWidth t.bits) :=
  canon_eq ht <| by rw [zext_eq_ofBits hs, setWidth_setWidth_of_le _ (bits_le ht)]

theorem trunc_ofBits {a : BitVec s.bits} (h : t.bits ≤ s.bits) :
    unary .trunc t s (ofBits a) = ofBits (a.setWidth t.bits) := by
  rw [← signExtend_eq_setWidth_of_le a h]
  exact sext_ofBits ht a

theorem canon_eq_self_iff : canon t v = v ↔ ∃ a : BitVec t.bits, v = ofBits a := by
  refine ⟨fun h => ⟨_, h.symm.trans (canon_eq_ofBits ht v)⟩, ?_⟩
  rintro ⟨a, rfl⟩
  exact canon_ofBits ht a

/-- What an operation gives for registers in canonical form is in canonical form. -/
theorem canon_binary {op : Op} {l r : UInt64} (hl : canon t l = l) (hr : canon t r = r) (h : binary op t l r = .ok v) :
    canon t v = v := by
  obtain ⟨a, rfl⟩ := (canon_eq_self_iff ht).mp hl
  obtain ⟨b, rfl⟩ := (canon_eq_self_iff ht).mp hr
  rw [binary_ofBits ht, reference] at h
  split at h
  · cases h
  · split at h <;> cases h
    · exact canon_ofBits ht _
    · exact canon_flag ht _

end Registers

/-- **Registers compute with bit vectors.** Operations on sign extensions give the sign extension of what they give for bit
vectors of the type's width, a comparison gives 0 or 1, and nothing but a division by zero fails. -/
theorem operations_fixedWidth {t s : RegType} (ht : t.isInteger = true) (hs : s.isInteger = true) :
    (∀ (op : Op) (a b : BitVec t.bits), binary op t (ofBits a) (ofBits b) = reference op a b) ∧
    (∀ a : BitVec t.bits, unary .neg t s (ofBits a) = ofBits (-a) ∧ unary .not t s (ofBits a) = ofBits (~~~a)) ∧
    (∀ a : BitVec s.bits, unary .sext t s (ofBits a) = ofBits (a.signExtend t.bits) ∧
      unary .zext t s (ofBits a) = ofBits (a.setWidth t.bits) ∧
      (t.bits ≤ s.bits → unary .trunc t s (ofBits a) = ofBits (a.setWidth t.bits))) ∧
    (∀ v, canon t v = v ↔ ∃ a : BitVec t.bits, v = ofBits a) ∧
    ∀ (op : Op) (l r v : UInt64), canon t l = l → canon t r = r → binary op t l r = .ok v → canon t v = v :=
  ⟨fun op a b => binary_ofBits ht a b op, fun a => ⟨neg_ofBits ht a, not_ofBits ht a⟩,
    fun a => ⟨sext_ofBits ht a, zext_ofBits ht hs a, trunc_ofBits ht⟩, fun _ => canon_eq_self_iff ht,
    fun _ _ _ _ => canon_binary ht⟩

theorem operations_fixedWidth_i8 : RegType.isInteger .i8 = true ∧ RegType.isInteger .i32 = true ∧
    binary .sdiv .i8 (ofBits (-128 : BitVec 8)) (ofBits (-1 : BitVec 8)) = .ok (ofBits (-128 : BitVec 8)) ∧
    unary .zext .i32 .i8 (ofBits (200 : BitVec 8)) = ofBits (200 : BitVec 32) :=
  ⟨rfl, rfl, (operations_fixedWidth (t := .i8) (s := .i8) rfl rfl).1 .sdiv (-128 : BitVec 8) (-1 : BitVec 8),
    ((operations_fixedWidth (t := .i32) (s := .i8) rfl rfl).2.2.1 (200 : BitVec 8)).2.1⟩

end Word

end Comptime
