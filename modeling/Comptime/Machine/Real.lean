import Comptime.Bytecode.Code

/-!
# Floating point registers

A register holds a float as the bits of its format. Every operation works on 64-bit floats: a 32-bit operand is widened
first, which is exact, and a 32-bit result is rounded once more at the end.

Widening and rounding are written out on the bits, so that they are defined for every pattern.
-/

namespace Comptime.Real

/-- `n / 2 ^ k` to the nearest integer, a half to the even one. -/
def roundShift (n k : Nat) : Nat :=
  let q := n >>> k
  let r := n % (1 <<< k)
  if k = 0 then q
  else
    let half := 1 <<< (k - 1)
    if r > half || (r == half && q % 2 == 1) then q + 1 else q

/-- The 64-bit float of the same value. A quiet NaN keeps its sign and payload, a signalling one is made quiet. -/
def widen (b : UInt32) : UInt64 :=
  let b := b.toNat
  let sign := (b >>> 31) <<< 63
  let e := (b >>> 23) % 0x100
  let m := b % 0x800000
  let magnitude :=
    if e = 255 then
      if m = 0 then 2047 <<< 52 else 2047 <<< 52 + 1 <<< 51 + (m % 0x400000) <<< 29
    else if e = 0 then
      if m = 0 then 0 else (Nat.log2 m + 874) <<< 52 + (m <<< (52 - Nat.log2 m) - 1 <<< 52)
    else (e + 896) <<< 52 + m <<< 29
  (sign + magnitude).toUInt64

/-- The nearest 32-bit float. A NaN keeps its sign and the top of its payload, and is made quiet. -/
def narrow (b : UInt64) : UInt32 :=
  let b := b.toNat
  let sign := (b >>> 63) <<< 31
  let e := (b >>> 52) % 0x800
  let m := b % (1 <<< 52)
  let infinity := 255 <<< 23
  let magnitude :=
    if e = 2047 then
      if m = 0 then infinity else infinity + 1 <<< 22 + (m % (1 <<< 51)) >>> 29
    else if e = 0 then 0
    else if e ≥ 897 then min infinity ((e - 897) <<< 23 + roundShift (m + 1 <<< 52) 29)
    else roundShift (m + 1 <<< 52) (29 + (897 - e))
  (sign + magnitude).toUInt32

/-- The 64-bit float a register of type `t` holds. -/
def read (t : RegType) (v : UInt64) : UInt64 := if t = .f32 then widen v.toUInt32 else v

/-- The register of type `t` that holds a 64-bit float. -/
def write (t : RegType) (b : UInt64) : UInt64 := if t = .f32 then (narrow b).toUInt64 else b

def isNaN (b : UInt64) : Bool := b.toNat % 0x8000000000000000 > 0x7ff0000000000000

def neg (b : UInt64) : UInt64 := b ^^^ 0x8000000000000000

def quiet (b : UInt64) : UInt64 := b ||| 0x0008000000000000

/-- An arithmetic operation on bits. A NaN operand is passed on, and an operation without a value gives the default
NaN. -/
def arith (f : Float → Float → Float) (a b : UInt64) : UInt64 :=
  if isNaN a then quiet a
  else if isNaN b then quiet b
  else
    let r := (f (Float.ofBits a) (Float.ofBits b)).toBits
    if isNaN r then 0xfff8000000000000 else r

def compare (f : Float → Float → Bool) (a b : UInt64) : UInt64 :=
  if f (Float.ofBits a) (Float.ofBits b) then 1 else 0

/-- A binary operation on registers of type `t`; `none` if the operation is not one of floats. -/
def binary? (op : Op) (t : RegType) (l r : UInt64) : Option UInt64 :=
  let a := read t l
  let b := read t r
  match op with
  | .fadd => some (write t (arith (· + ·) a b))
  | .fsub => some (write t (arith (· - ·) a b))
  | .fmul => some (write t (arith (· * ·) a b))
  | .fdiv => some (write t (arith (· / ·) a b))
  | .feq => some (compare (· == ·) a b)
  | .fne => some (compare (· != ·) a b)
  | .flt => some (compare (fun x y => decide (x < y)) a b)
  | .fle => some (compare (fun x y => decide (x ≤ y)) a b)
  | .fgt => some (compare (fun x y => decide (x > y)) a b)
  | .fge => some (compare (fun x y => decide (x ≥ y)) a b)
  | _ => none

def ofSigned (v : UInt64) : UInt64 := v.toInt64.toFloat.toBits

def ofUnsigned (v : UInt64) : UInt64 := v.toFloat.toBits

/-- The value rounded toward zero. -/
def toSigned (b : UInt64) : UInt64 := (Float.ofBits b).toInt64.toUInt64

/-- The value rounded toward zero. -/
def toUnsigned (b : UInt64) : UInt64 := (Float.ofBits b).toUInt64

end Comptime.Real
