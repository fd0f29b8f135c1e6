import Comptime.Bitset

/-!
# Binary records

Values are written for the event log as tagged items: a head byte holds a tag and a small number, and a number of 24
or more follows it in 1, 2, 4 or 8 bytes, most significant first.
-/

namespace Comptime.Wire

/-- What an item is. -/
inductive Tag where
  | int
  | negative
  | text
  | array
  | map
  | special
deriving DecidableEq, Repr

def Tag.code : Tag → UInt8
  | int => 0
  | negative => 1
  | text => 3
  | array => 4
  | map => 5
  | special => 7

/-- The `n` low bytes of a number, most significant first. -/
def bigEndian : Nat → Nat → List UInt8
  | 0, _ => []
  | n + 1, v => (v >>> (8 * n)).toUInt8 :: bigEndian n v

/-- A head byte with its number. -/
def head (t : Tag) (v : Nat) : List UInt8 :=
  let h := t.code <<< 5
  if v < 24 then [h ||| v.toUInt8]
  else if v < 0x100 then (h ||| 24) :: bigEndian 1 v
  else if v < 0x10000 then (h ||| 25) :: bigEndian 2 v
  else if v < 0x100000000 then (h ||| 26) :: bigEndian 4 v
  else (h ||| 27) :: bigEndian 8 v

/-- A negative number is written as its distance below one. -/
def int (v : Int) : List UInt8 :=
  if v < 0 then head .negative (1 - v).toNat else head .int v.toNat

def text (s : String) : List UInt8 := head .text s.utf8ByteSize ++ s.toUTF8.toList

def nil : List UInt8 := [0xf6]

/-- A sequence whose length is not announced. -/
def sequence (items : List (List UInt8)) : List UInt8 := [0x9f] ++ items.flatten ++ [0xff]

/-- A record of integers under names. -/
def record (fields : List (String × Int)) : List UInt8 :=
  head .map fields.length ++ (fields.map fun (k, v) => text k ++ int v).flatten

/-- A wait-for edge: its target and the rank of the phase that is waited for. -/
def edge (target phase : Int) : List UInt8 := record [("target", target), ("phase", phase)]

/-- A truth value held as two paths: where they begin, where they are left and where they meet. -/
def paths (onTrue onFalse leaveTrue leaveFalse merge : Int) : List UInt8 :=
  record [("true", onTrue), ("false", onFalse), ("true_ph", leaveTrue), ("false_ph", leaveFalse), ("merge", merge)]

/-- A set is the sequence of its elements, or nothing if it was never used. -/
def ofBitset (s : Bitset) : List UInt8 :=
  match s.words with
  | none => nil
  | some _ => sequence (s.toList.map fun (i : Nat) => int i)

end Comptime.Wire
