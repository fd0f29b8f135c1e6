/-!
# Shortest decimal text of binary numbers

A binary floating point number stands for all reals that round to it. Its shortest text has the fewest significant
digits of any decimal among them, and of several such decimals it is the one nearest the number itself.

All of it is exact arithmetic on naturals. A number `m * 2 ^ q` is scaled so that it is `4 * m` units, and its
rounding interval reaches two units up and two (or, at a power of two, one) units down.
-/

namespace Comptime.Decimal

/-- A positive binary number `mantissa * 2 ^ exponent`. -/
structure Binary where
  mantissa : Nat
  exponent : Int
  /-- The next number below is only half as far away as the next one above. -/
  tightBelow : Bool
deriving DecidableEq, Repr

/-- A decimal `digits * 10 ^ exponent`. -/
structure Digits where
  digits : Nat
  exponent : Int
deriving DecidableEq, Repr

/-- The interval of reals that round to a number, as fractions over one denominator. -/
structure Interval where
  low : Nat
  value : Nat
  high : Nat
  denominator : Nat
  /-- The ends belong to the interval. -/
  closed : Bool
deriving DecidableEq, Repr

def Binary.interval (b : Binary) : Interval :=
  let e := b.exponent - 2
  let num := 1 <<< e.toNat
  { low := (4 * b.mantissa - if b.tightBelow then 1 else 2) * num
    value := 4 * b.mantissa * num
    high := (4 * b.mantissa + 2) * num
    denominator := 1 <<< (-e).toNat
    closed := b.mantissa % 2 == 0 }

/-- `c * 10 ^ e` as a fraction over the denominator of the interval, cleared of `10 ^ e` below: both sides of a
comparison are multiplied by the second component. -/
def gridPoint (i : Interval) (c : Nat) (e : Int) : Nat × Nat :=
  (c * Nat.pow 10 e.toNat * i.denominator, Nat.pow 10 (-e).toNat)

/-- The decimal `c * 10 ^ e` rounds to the number. -/
def Interval.holds (i : Interval) (c : Nat) (e : Int) : Bool :=
  let (p, s) := gridPoint i c e
  if i.closed then i.low * s ≤ p && p ≤ i.high * s else i.low * s < p && p < i.high * s

/-- The largest `c` with `c * 10 ^ e` not above the value. -/
def Interval.below (i : Interval) (e : Int) : Nat :=
  i.value * Nat.pow 10 (-e).toNat / (Nat.pow 10 e.toNat * i.denominator)

/-- Of the two neighbours of the value on the grid of `10 ^ e`, the one that rounds to it; of both, the nearer, and the
even one if they are equally near. -/
def Interval.onGrid? (i : Interval) (e : Int) : Option Digits :=
  let c := i.below e
  match i.holds c e && c != 0, i.holds (c + 1) e with
  | false, false => none
  | true, false => some ⟨c, e⟩
  | false, true => some ⟨c + 1, e⟩
  | true, true =>
    let (p, s) := gridPoint i c e
    let (p', _) := gridPoint i (c + 1) e
    let down := i.value * s - p
    let up := p' - i.value * s
    some ⟨if down < up || (down == up && c % 2 == 0) then c else c + 1, e⟩

/-- The number of decimal digits of a natural, zero for zero. -/
def digitCount (n : Nat) : Nat := if n = 0 then 0 else (Nat.toDigits 10 n).length

/-- The exponent `k` of the leading decimal digit: `10 ^ k` is not above the value and `10 ^ (k + 1)` is. -/
def Interval.leading (i : Interval) : Int :=
  let whole := i.value / i.denominator
  if whole ≠ 0 then digitCount whole - 1
  else
    -- scale up until a digit shows in front of the point
    let shift := digitCount i.denominator - digitCount i.value
    let a := i.value * Nat.pow 10 shift / i.denominator
    if a ≠ 0 then (digitCount a : Int) - 1 - shift else -(shift + 1 : Int)

/-- The first grid, from coarse to fine, with a decimal that rounds to the number. -/
def Interval.search (i : Interval) (k : Int) : Nat → Nat → Option Digits
  | 0, _ => none
  | n + 1, used => match i.onGrid? (k - used) with
    | some d => some d
    | none => search i k n (used + 1)

/-- Takes zeros off the end of the digits, at most `fuel` of them. -/
def Digits.trim : Nat → Digits → Digits
  | 0, d => d
  | fuel + 1, d => if d.digits ≠ 0 && d.digits % 10 == 0 then trim fuel ⟨d.digits / 10, d.exponent + 1⟩ else d

/-- The shortest decimal of a positive number. Seventeen digits always suffice for 64-bit formats. -/
def Binary.shortest (b : Binary) : Digits :=
  let i := b.interval
  let d := (i.search i.leading 17 0).getD ⟨i.below (i.leading - 16), i.leading - 16⟩
  d.trim 20

/-- The decisions of a written form. -/
structure Style where
  /-- The lowest exponent of the leading digit that is written without an exponent. -/
  least : Int
  /-- The first exponent of the leading digit that is written with an exponent again. -/
  most : Int
  /-- Digits an exponent has at least. -/
  exponentWidth : Nat
  plusInfinity : String
  minusInfinity : String
  notANumber : String

/-- Constants in listings: up to six digits in front of the point, exponents of two digits. -/
def style : Style :=
  { least := -4, most := 6, exponentWidth := 2,
    plusInfinity := "+Inf", minusInfinity := "-Inf", notANumber := "NaN" }

def zeros (n : Nat) : List Char := List.replicate n '0'

/-- Digits with one of them in front of the point, and an exponent. -/
def Style.scientific (st : Style) (ds : List Char) (lead : Int) : List Char :=
  let e := Nat.toDigits 10 lead.natAbs
  ds.take 1 ++ (if ds.length ≤ 1 then [] else '.' :: ds.drop 1) ++ ['e', if lead < 0 then '-' else '+'] ++
    zeros (st.exponentWidth - e.length) ++ e

/-- Digits with the point in its place. -/
def positional (ds : List Char) (lead : Int) : List Char :=
  if lead < 0 then ['0', '.'] ++ zeros (-lead - 1).toNat ++ ds
  else
    let whole := lead.toNat + 1
    if ds.length ≤ whole then ds ++ zeros (whole - ds.length) else ds.take whole ++ '.' :: ds.drop whole

def Style.render (st : Style) (d : Digits) : String :=
  let ds := Nat.toDigits 10 d.digits
  let lead := d.exponent + ds.length - 1
  String.ofList (if st.least ≤ lead ∧ lead < st.most then positional ds lead else st.scientific ds lead)

/-- A binary format: stored mantissa bits and exponent bits. -/
structure Format where
  mantissaBits : Nat
  exponentBits : Nat

def binary32 : Format := ⟨23, 8⟩
def binary64 : Format := ⟨52, 11⟩

/-- The text of a number given by its bits. -/
def Style.ofBits (st : Style) (f : Format) (bits : Nat) : String :=
  let m := bits % (1 <<< f.mantissaBits)
  let e := (bits >>> f.mantissaBits) % (1 <<< f.exponentBits)
  let negative := (bits >>> (f.mantissaBits + f.exponentBits)) % 2 == 1
  let bias : Int := ((1 <<< (f.exponentBits - 1) : Nat) : Int) - 1 + f.mantissaBits
  if e = 1 <<< f.exponentBits - 1 then
    if m ≠ 0 then st.notANumber else if negative then st.minusInfinity else st.plusInfinity
  else
    let text :=
      if e = 0 then
        if m = 0 then "0" else st.render (Binary.shortest ⟨m, 1 - bias, false⟩)
      else st.render (Binary.shortest ⟨m + 1 <<< f.mantissaBits, e - bias, m == 0 && e != 1⟩)
    if negative then "-" ++ text else text

def ofBinary32 (bits : UInt32) : String := style.ofBits binary32 bits.toNat

def ofBinary64 (bits : UInt64) : String := style.ofBits binary64 bits.toNat

end Comptime.Decimal
