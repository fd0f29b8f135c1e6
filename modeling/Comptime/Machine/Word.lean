import Comptime.Machine.Real

/-!
# Register arithmetic

A register is 64 bits wide. An integer of a narrower type is kept sign-extended from the width of its type, a 32-bit
float as its bits with zeros above; `canon` brings any value into that form.
-/

namespace Comptime.Word

/-- Sign-extends an integer from the width of `t`, and cuts a 32-bit float to its bits. -/
def canon (t : RegType) (v : UInt64) : UInt64 :=
  match t with
  | .i8 => v.toUInt8.toInt8.toInt64.toUInt64
  | .i16 => v.toUInt16.toInt16.toInt64.toUInt64
  | .i32 => v.toUInt32.toInt32.toInt64.toUInt64
  | .f32 => v.toUInt32.toUInt64
  | _ => v

/-- Zero-extends an integer from the width of `t`. -/
def zext (t : RegType) (v : UInt64) : UInt64 :=
  match t with
  | .i8 => v.toUInt8.toUInt64
  | .i16 => v.toUInt16.toUInt64
  | .i32 => v.toUInt32.toUInt64
  | _ => v

/-- The width of a type in bits. -/
def width (t : RegType) : UInt64 := (8 * t.size).toUInt64

def flag (b : Bool) : UInt64 := if b then 1 else 0

/-- Why a binary operation has no result. -/
inductive Undefined where
  | divisionByZero
  | notAnInteger (op : Op)
  | notAFloat (op : Op)
  /-- The type has no width to shift by, or a divisor that is not in canonical form vanishes when cut to its width. -/
  | unguarded
deriving DecidableEq, Repr

/-- A shift count is taken modulo the width of the type. -/
def shift (t : RegType) (count : UInt64) (f : UInt64 → UInt64) : Except Undefined UInt64 :=
  if width t = 0 then .error .unguarded else .ok (canon t (f (zext t count % width t)))

def signedQuot (f : Int64 → Int64 → Int64) (t : RegType) (l r : UInt64) : Except Undefined UInt64 :=
  if r = 0 then .error .divisionByZero else .ok (canon t (f l.toInt64 r.toInt64).toUInt64)

def unsignedQuot (f : UInt64 → UInt64 → UInt64) (t : RegType) (l r : UInt64) : Except Undefined UInt64 :=
  if r = 0 then .error .divisionByZero
  else if zext t r = 0 then .error .unguarded
  else .ok (canon t (f (zext t l) (zext t r)))

def signedTest (f : Int64 → Int64 → Bool) (l r : UInt64) : Except Undefined UInt64 :=
  .ok (flag (f l.toInt64 r.toInt64))

def unsignedTest (f : UInt64 → UInt64 → Bool) (t : RegType) (l r : UInt64) : Except Undefined UInt64 :=
  .ok (flag (f (zext t l) (zext t r)))

def integer (op : Op) (t : RegType) (l r : UInt64) : Except Undefined UInt64 :=
  match op with
  | .add => .ok (canon t (l + r))
  | .sub => .ok (canon t (l - r))
  | .mul => .ok (canon t (l * r))
  | .sdiv => signedQuot (· / ·) t l r
  | .srem => signedQuot (· % ·) t l r
  | .udiv => unsignedQuot (· / ·) t l r
  | .urem => unsignedQuot (· % ·) t l r
  | .and => .ok (l &&& r)
  | .or => .ok (l ||| r)
  | .xor => .ok (l ^^^ r)
  | .shl => shift t r (l <<< ·)
  | .lshr => shift t r (zext t l >>> ·)
  | .ashr => shift t r fun n => (l.toInt64 >>> n.toInt64).toUInt64
  | .eq => .ok (flag (l == r))
  | .ne => .ok (flag (l != r))
  | .slt => signedTest (fun x y => decide (x < y)) l r
  | .sle => signedTest (fun x y => decide (x ≤ y)) l r
  | .sgt => signedTest (fun x y => decide (x > y)) l r
  | .sge => signedTest (fun x y => decide (x ≥ y)) l r
  | .ult => unsignedTest (fun x y => decide (x < y)) t l r
  | .ule => unsignedTest (fun x y => decide (x ≤ y)) t l r
  | .ugt => unsignedTest (fun x y => decide (x > y)) t l r
  | .uge => unsignedTest (fun x y => decide (x ≥ y)) t l r
  | _ => .error (.notAnInteger op)

/-- A binary operation on registers of type `t`. -/
def binary (op : Op) (t : RegType) (l r : UInt64) : Except Undefined UInt64 :=
  if t.isFloat then
    match Real.binary? op t l r with
    | some v => .ok v
    | none => .error (.notAFloat op)
  else integer op t l r

/-- A unary operation, or a conversion from `source` to `t`. What is no such operation copies its operand. -/
def unary (op : Op) (t source : RegType) (v : UInt64) : UInt64 :=
  match op with
  | .neg => canon t (0 - v)
  | .not => canon t (~~~v)
  | .fneg => Real.write t (Real.neg (Real.read t v))
  | .sext | .trunc | .ptrtoint => canon t v
  | .zext | .inttoptr => canon t (zext source v)
  | .fext | .ftrunc => Real.write t (Real.read source v)
  | .stof => Real.write t (Real.ofSigned v)
  | .utof => Real.write t (Real.ofUnsigned (zext source v))
  | .ftos => canon t (Real.toSigned (Real.read source v))
  | .ftou => canon t (Real.toUnsigned (Real.read source v))
  | _ => v

end Comptime.Word
