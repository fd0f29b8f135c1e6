import Comptime.Failure

/-!
# Growable sets of small naturals

A `Bitset` keeps one bit per number, 64 to a word, and grows when a number beyond its words is added. Numbers come in
as integers: an operation on a negative one aborts as soon as it would look at a word or a bit of negative index.
-/

namespace Comptime

/-- A set of naturals. `words` is `none` until something is added for the first time. -/
structure Bitset where
  words : Option (Array UInt64) := none
deriving DecidableEq, Repr, Inhabited

namespace Bitset

/-- The words present. -/
def data (s : Bitset) : Array UInt64 := s.words.getD #[]

/-- Bit `j` of a word. -/
def bit (w : UInt64) (j : Nat) : Bool := (w >>> j.toUInt64) &&& 1 == 1

/-- Room for the words `0 … i`, and for at least one word. -/
def grow (s : Bitset) (i : Nat) : Bitset :=
  let d := if s.data.isEmpty then #[0] else s.data
  ⟨some (d ++ Array.replicate (i + 1 - d.size) 0)⟩

/-- The word a number falls in. Indices round toward zero. -/
def wordIdx (i : Int) : Int := i.tdiv 64

/-- The bit of its word a number falls on. -/
def bitIdx (i : Int) : Int := i.tmod 64

/-- Adds a number. The second component is false when the number is negative; the first word is made all the same. -/
def insert (s : Bitset) (i : Int) : Bitset × Bool :=
  let s := s.grow (wordIdx i).toNat
  if i < 0 then (s, false)
  else
    let k := (wordIdx i).toNat
    (⟨some (s.data.modify k (· ||| (1 <<< (bitIdx i).toNat.toUInt64)))⟩, true)

/-- Membership. A negative number aborts unless it falls beyond the words. -/
def contains? (s : Bitset) (i : Int) : Except Abort Bool :=
  if wordIdx i ≥ s.data.size then .ok false
  else if i < 0 then .error .fault
  else .ok (bit (s.data.getD (wordIdx i).toNat 0) (bitIdx i).toNat)

/-- Membership of a natural. -/
def contains (s : Bitset) (i : Nat) : Bool := bit (s.data.getD (i / 64) 0) (i % 64)

/-- The first of the bits `j … j + n - 1` of a word that is clear. -/
def clearBit? (w : UInt64) (j : Nat) : Nat → Option Nat
  | 0 => none
  | n + 1 => if bit w j then clearBit? w (j + 1) n else some j

/-- The first number missing from `ws`, whose words hold the numbers from `64 * k`. -/
def clearFrom? (k : Nat) : List UInt64 → Option Nat
  | [] => none
  | w :: ws => match clearBit? w 0 64 with
    | some j => some (64 * k + j)
    | none => clearFrom? (k + 1) ws

/-- The least number not below `i` that is missing. -/
def nextClear (s : Bitset) (i : Nat) : Nat :=
  let k := i / 64
  let beyond := max i (64 * s.data.size)
  match s.data.toList.drop k with
  | [] => beyond
  | w :: ws => match clearBit? w (i % 64) (64 - i % 64) with
    | some j => 64 * k + j
    | none => (clearFrom? (k + 1) ws).getD beyond

/-- The same for an integer. A negative one aborts unless it falls beyond the words. -/
def nextClear? (s : Bitset) (i : Int) : Except Abort Int :=
  if wordIdx i ≥ s.data.size then .ok (max i (64 * s.data.size))
  else if i < 0 then .error .fault
  else .ok (s.nextClear i.toNat)

/-- The numbers of a word, given the number its lowest bit stands for. -/
def wordElems (base : Nat) (w : UInt64) : List Nat :=
  ((List.range 64).filter (bit w)).map (base + ·)

/-- The elements of the words that hold the numbers from `64 * k`. -/
def elemsFrom (k : Nat) : List UInt64 → List Nat
  | [] => []
  | w :: ws => wordElems (64 * k) w ++ elemsFrom (k + 1) ws

/-- The elements in increasing order. -/
def toList (s : Bitset) : List Nat := elemsFrom 0 s.data.toList

/-- Shows a list to a visitor, one element at a time, until the visitor has had enough. -/
def visitList {σ : Type} (f : σ → Nat → σ × Bool) : σ → List Nat → σ
  | st, [] => st
  | st, x :: xs => match f st x with
    | (st, true) => visitList f st xs
    | (st, false) => st

/-- Shows the elements to a visitor in increasing order, until the visitor has had enough. -/
def visit {σ : Type} (s : Bitset) (f : σ → Nat → σ × Bool) (st : σ) : σ :=
  visitList f st s.toList

end Bitset

end Comptime
