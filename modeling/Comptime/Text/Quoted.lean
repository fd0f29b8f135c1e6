import Comptime.Text.Printable

/-!
# Quoted text

A string in double quotes. What shows as itself is written as itself; the rest is escaped, by a letter where there is
one, else by its code point.
-/

namespace Comptime.Text

/-- The `width` low hexadecimal digits of a number. -/
def hexPadded (width n : Nat) : List Char :=
  let ds := Nat.toDigits 16 n
  List.replicate (width - ds.length) '0' ++ ds

def escape (c : Char) : List Char :=
  if c = '"' then ['\\', '"']
  else if c = '\\' then ['\\', '\\']
  else if isPrintable c then [c]
  else match c.toNat with
    | 0x07 => ['\\', 'a']
    | 0x08 => ['\\', 'b']
    | 0x09 => ['\\', 't']
    | 0x0a => ['\\', 'n']
    | 0x0b => ['\\', 'v']
    | 0x0c => ['\\', 'f']
    | 0x0d => ['\\', 'r']
    | n =>
      if n < 0x20 || n = 0x7f then ['\\', 'x'] ++ hexPadded 2 n
      else if n < 0x10000 then ['\\', 'u'] ++ hexPadded 4 n
      else ['\\', 'U'] ++ hexPadded 8 n

def quoted (s : String) : String := String.ofList (['"'] ++ s.toList.flatMap escape ++ ['"'])

end Comptime.Text
