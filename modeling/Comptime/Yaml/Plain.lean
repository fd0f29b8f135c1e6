import Comptime.Yaml.Scalar

/-!
# What a plain scalar stands for

A plain scalar is a text, unless it reads as nothing at all, as a truth value, as a number or as a point in time. Who
writes a text has to know, for one that reads as something else needs quotes.
-/

namespace Comptime.Yaml

/-- The plain forms of nothing. -/
def isNull (s : String) : Bool := ["", "~", "null", "Null", "NULL"].contains s

/-- The plain forms of the truth values. -/
def bool? (s : String) : Option Bool :=
  if ["true", "True", "TRUE"].contains s then some true
  else if ["false", "False", "FALSE"].contains s then some false
  else none

/-- Words that other readers take for truth values. -/
def oldBool? (s : String) : Option Bool :=
  if ["y", "Y", "yes", "Yes", "YES", "on", "On", "ON"].contains s then some true
  else if ["n", "N", "no", "No", "NO", "off", "Off", "OFF"].contains s then some false
  else none

namespace Numeral

/-- The value of a digit in bases up to sixteen. -/
def digit? (base : Nat) (c : Char) : Option Nat := (hexValue? c).filter (· < base)

/-- The number written by at least one digit, and by nothing else. -/
def magnitude? (base : Nat) (cs : List Char) : Option Nat :=
  if cs.isEmpty then none else (cs.mapM (digit? base)).map (·.foldl (fun n d => base * n + d) 0)

/-- Like `magnitude?`, where the first characters may give the base: a zero alone means eight. -/
def based? : List Char → Option Nat
  | '0' :: c :: d :: rest =>
    if c == 'b' || c == 'B' then magnitude? 2 (d :: rest)
    else if c == 'o' || c == 'O' then magnitude? 8 (d :: rest)
    else if c == 'x' || c == 'X' then magnitude? 16 (d :: rest)
    else magnitude? 8 (c :: d :: rest)
  | '0' :: [c] => magnitude? 8 [c]
  | cs => magnitude? 10 cs

/-- A signed number of 64 bits, as `read` reads what is after the sign. -/
def signed? (read : List Char → Option Nat) : List Char → Bool
  | '-' :: cs => (read cs).any (· ≤ 0x8000000000000000)
  | '+' :: cs => (read cs).any (· < 0x8000000000000000)
  | cs => (read cs).any (· < 0x8000000000000000)

def isInt (cs : List Char) : Bool :=
  signed? based? cs || (based? cs).any (· < 0x10000000000000000) ||
    match cs with
    | '0' :: 'b' :: cs => signed? (magnitude? 2) cs || (magnitude? 2 cs).any (· < 0x10000000000000000)
    | '-' :: '0' :: 'b' :: cs => signed? (magnitude? 2) ('-' :: cs)
    | '0' :: 'o' :: cs => signed? (magnitude? 8) cs || (magnitude? 8 cs).any (· < 0x10000000000000000)
    | '-' :: '0' :: 'o' :: cs => signed? (magnitude? 8) ('-' :: cs)
    | _ => false

def dropSign : List Char → List Char
  | '+' :: cs => cs
  | '-' :: cs => cs
  | cs => cs

/-- The digits at the start, and what follows them. -/
def digits (cs : List Char) : List Char × List Char := (cs.takeWhile Char.isDigit, cs.dropWhile Char.isDigit)

/-- The exponent after the digits: none at all is zero. -/
def exponent? : List Char → Option Int
  | [] => some 0
  | c :: cs =>
    if c == 'e' || c == 'E' then
      let n := magnitude? 10 (dropSign cs)
      n.map fun n => if cs.head? == some '-' then -(n : Int) else n
    else none

/-- `whole.fraction · 10^e` is not beyond the numbers of double precision: the least that is too large lies half a unit
above the largest of them. Only exponents that leave a doubt are worked out. -/
def inRange (whole fraction : List Char) (e : Int) : Bool :=
  let m := ((magnitude? 10 (whole ++ fraction)).getD 0)
  let e := e - fraction.length
  let length : Int := (Nat.toDigits 10 m).length
  if m = 0 || e + length < 300 then true
  else if e + length > 310 then false
  else m * Nat.pow 10 e.toNat < (1 <<< 1024 - 1 <<< 970) * Nat.pow 10 (-e).toNat

/-- A decimal fraction: digits with at most one point among them, and perhaps an exponent. -/
def isFloat (cs : List Char) : Bool :=
  let (whole, rest) := digits (dropSign cs)
  let (fraction, rest) := match rest with
    | '.' :: rest => digits rest
    | rest => ([], rest)
  !(whole ++ fraction).isEmpty && (exponent? rest).any (inRange whole fraction)

/-- Every underscore stands between two digits. -/
def separated : (afterDigit : Bool) → List Char → Bool
  | _, [] => true
  | afterDigit, c :: rest =>
    if c == '_' then afterDigit && rest.head?.any Char.isDigit && separated false rest
    else separated c.isDigit rest

/-- Numbers with a base of sixty, as in times: digits, then groups of up to two digits after colons. -/
def isSexagesimal (cs : List Char) : Bool :=
  let cs := dropSign cs
  let isDigits := fun (cs : List Char) => cs.all fun c => c.isDigit || c == '_'
  let last := fun (g : List Char) => g.takeWhile (· != '.')
  let group := fun (g : List Char) => match g with
    | [c] => c.isDigit
    | [c, d] => '0' ≤ c && c ≤ '5' && d.isDigit
    | _ => false
  match (String.ofList cs).splitOn ":" |>.map String.toList with
  | first :: g :: gs =>
    let gs := g :: gs
    first.head?.any Char.isDigit && isDigits first && gs.dropLast.all group &&
      (gs.getLast?.any fun g => group (last g) && isDigits ((g.dropWhile (· != '.')).drop 1))
  | _ => false

end Numeral

namespace Timestamp

/-- One or two digits, and what follows them. -/
def number? : List Char → Option (Nat × List Char)
  | c :: d :: rest =>
    if c.isDigit && d.isDigit then some (10 * (c.toNat - 48) + (d.toNat - 48), rest)
    else if c.isDigit then some (c.toNat - 48, d :: rest)
    else none
  | [c] => if c.isDigit then some (c.toNat - 48, []) else none
  | [] => none

def expect? (x : Char) : List Char → Option (List Char)
  | c :: rest => if c = x then some rest else none
  | [] => none

def daysIn (year month : Nat) : Nat :=
  if month = 2 then
    if year % 4 = 0 ∧ (year % 100 ≠ 0 ∨ year % 400 = 0) then 29 else 28
  else if [4, 6, 9, 11].contains month then 30
  else 31

/-- The date at the start, and what follows it. -/
def date? (cs : List Char) : Option (List Char) := do
  let (year, rest) := Numeral.digits cs
  guard (year.length = 4)
  let year ← Numeral.magnitude? 10 year
  let (month, rest) ← number? (← expect? '-' rest)
  guard (1 ≤ month ∧ month ≤ 12)
  let (day, rest) ← number? (← expect? '-' rest)
  guard (1 ≤ day ∧ day ≤ daysIn year month)
  return rest

/-- The time of day at the start, and what follows it. -/
def time? (cs : List Char) : Option (List Char) := do
  let (hour, rest) ← number? cs
  guard (hour < 24)
  let (minute, rest) ← number? (← expect? ':' rest)
  guard (minute < 60)
  let (second, rest) ← number? (← expect? ':' rest)
  guard (second < 60)
  match rest with
  | p :: d :: rest =>
    if (p == '.' || p == ',') && d.isDigit then return rest.dropWhile Char.isDigit else return p :: d :: rest
  | rest => return rest

/-- The distance from universal time. -/
def isZone : List Char → Bool
  | ['Z'] => true
  | [s, a, b, ':', c, d] =>
    let pair := fun (a b : Char) => Numeral.magnitude? 10 [a, b]
    (s == '+' || s == '-') && (pair a b).any (· ≤ 24) && (pair c d).any (· ≤ 60)
  | _ => false

/-- A date, or a date with a time of day: with a zone after a letter, and without one after a space. -/
def isTimestamp (cs : List Char) : Bool :=
  match date? cs with
  | none => false
  | some [] => true
  | some (c :: rest) =>
    if c == 'T' || c == 't' then (time? rest).any isZone
    else if c == ' ' then (time? (rest.dropWhile (· == ' '))).any List.isEmpty
    else false

end Timestamp

/-- The forms of the numbers that have no digits. -/
def isSpecialFloat (s : String) : Bool :=
  [".nan", ".NaN", ".NAN", ".inf", ".Inf", ".INF", "+.inf", "+.Inf", "+.INF", "-.inf", "-.Inf", "-.INF"].contains s

/-- Written plain, the text would read as something other than a text. -/
def readsAsOther (s : String) : Bool :=
  let cs := s.toList
  let plain := cs.filter (· != '_')
  isNull s || (bool? s).isSome || (oldBool? s).isSome || isSpecialFloat s || Numeral.isSexagesimal cs ||
    match cs.head? with
    | some '.' => Numeral.separated false cs && Numeral.isFloat plain
    | some c =>
      (c == '+' || c == '-' || c.isDigit) &&
        (Timestamp.isTimestamp cs || Numeral.isInt plain || Numeral.isFloat plain)
    | none => false

end Comptime.Yaml
