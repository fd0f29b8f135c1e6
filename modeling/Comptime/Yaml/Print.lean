import Comptime.Yaml.Plain

/-!
# Writing scalars

A text is written plain where that reads back as the same text. Otherwise it is put in quotes: in double quotes if it
would read as something other than a text or holds a character that has to be escaped, and in single quotes if only its
marks are in the way. A text of several lines is written as one block of lines.
-/

namespace Comptime.Yaml

/-- How many columns a block is indented by. -/
def indentStep : Nat := 4

/-- The column of what is inside a block at a column: the next multiple of the step. -/
def inner (column : Nat) : Nat := indentStep * ((column + indentStep) / indentStep)

/-- The characters that are written as they are. -/
def isPrintable (c : Char) : Bool :=
  c == '\n' || ('\x20' ≤ c && c ≤ '\x7e') || ('\u00a0' ≤ c && c ≤ '\ufffd' && c != '\ufeff')

/-- What the places of the characters in a text say about how it may be written. -/
structure Layout where
  /-- A mark of the notation stands where it would be taken for one. -/
  marked : Bool
  /-- A blank or a line's end stands at the start or at the end. -/
  padded : Bool
  /-- A space stands at the end. -/
  trailing : Bool
  /-- A line begins with a space. -/
  breakSpace : Bool
  /-- A line ends with a space. -/
  spaceBreak : Bool
  /-- Some character has to be escaped, tabs aside. -/
  special : Bool
  tab : Bool
  multiline : Bool

/-- The text starts with a mark of the notation. -/
def startsMarked : List Char → Bool
  | c :: rest =>
    "#,[]\x7b\x7d&*!|>'\"%@\x60".toList.contains c || ((c == '?' || c == ':' || c == '-') && rest.head?.all isBlank)
  | [] => false

/-- A colon before a blank, or a number sign after one, stands somewhere in the text. -/
def marksInside : List Char → Bool
  | c :: d :: rest =>
    (c == ':' && isBlank d) || ((isBlank c || isBreak c || c == '\x00') && d == '#') || marksInside (d :: rest)
  | [c] => c == ':'
  | [] => false

/-- Some two neighbours are of these kinds. -/
def neighbours (p q : Char → Bool) (cs : List Char) : Bool := (cs.zip (cs.drop 1)).any fun (c, d) => p c && q d

def Layout.of (cs : List Char) : Layout where
  marked := cs.take 3 == ['-', '-', '-'] || cs.take 3 == ['.', '.', '.'] || startsMarked cs || marksInside cs
  padded := (cs.head?.any fun c => c == ' ' || isBreak c) || (cs.getLast?.any fun c => c == ' ' || isBreak c)
  trailing := cs.getLast? == some ' '
  breakSpace := neighbours isBreak (· == ' ') cs
  spaceBreak := neighbours (· == ' ') isBreak cs
  special := cs.any fun c => !isPrintable c && c != '\t'
  tab := cs.contains '\t'
  multiline := cs.any isBreak

namespace Layout

def plainAllowed (l : Layout) : Bool :=
  !(l.marked || l.padded || l.breakSpace || l.spaceBreak || l.special || l.tab || l.multiline)

def singleAllowed (l : Layout) : Bool := !(l.breakSpace || l.spaceBreak || l.special || l.tab)

def blockAllowed (l : Layout) : Bool := !(l.trailing || l.spaceBreak || l.special)

end Layout

def spaces (n : Nat) : List Char := List.replicate n ' '

/-- The hexadecimal digits of a number, in capitals, to a given width. -/
def hexDigits (width n : Nat) : List Char :=
  let ds := (Nat.toDigits 16 n).map Char.toUpper
  List.replicate (width - ds.length) '0' ++ ds

/-- What stands for a character between double quotes. -/
def escaped (c : Char) : List Char :=
  '\\' :: match c with
    | '\x00' => ['0']
    | '\x07' => ['a']
    | '\x08' => ['b']
    | '\t' => ['t']
    | '\n' => ['n']
    | '\x0b' => ['v']
    | '\x0c' => ['f']
    | '\r' => ['r']
    | '\x1b' => ['e']
    | '"' => ['"']
    | '\\' => ['\\']
    | '\u0085' => ['N']
    | '\u00a0' => ['_']
    | '\u2028' => ['L']
    | '\u2029' => ['P']
    | c =>
      if c.toNat ≤ 0xff then 'x' :: hexDigits 2 c.toNat
      else if c.toNat ≤ 0xffff then 'u' :: hexDigits 4 c.toNat
      else 'U' :: hexDigits 8 c.toNat

/-- The text between double quotes. One that starts with a byte order mark is escaped throughout. -/
def double (cs : List Char) : List Char :=
  let all := cs.head? == some '\ufeff'
  '"' :: cs.flatMap (fun c => if all || !isPrintable c || isBreak c || c == '"' || c == '\\' then escaped c else [c]) ++
    ['"']

/-- The text on lines of its own: after each line's end the next line is indented to a column. -/
def indented (column : Nat) (write : Char → List Char) : (lineStart : Bool) → List Char → List Char
  | _, [] => []
  | lineStart, c :: rest =>
    if isBreak c then c :: indented column write true rest
    else (if lineStart then spaces column else []) ++ write c ++ indented column write false rest

/-- The text between single quotes, where a quote is written twice. -/
def single (column : Nat) (cs : List Char) : List Char :=
  '\'' :: indented column (fun c => if c == '\'' then ['\'', '\''] else [c]) false cs ++ ['\'']

/-- How many ends of lines are kept at the end of a block: none, one, or all there are. -/
def chomp (cs : List Char) : List Char :=
  match cs.reverse with
  | [c] => if isBreak c then ['+'] else ['-']
  | c :: d :: _ => if !isBreak c then ['-'] else if isBreak d then ['+'] else []
  | [] => ['-']

/-- The text as a block of lines. -/
def block (column : Nat) (cs : List Char) : List Char :=
  let startsPadded := cs.head?.any fun c => c == ' ' || isBreak c
  let hint := if startsPadded then (Nat.toDigits 10 indentStep) else []
  let body := indented column (fun c => [c]) true cs
  '|' :: hint ++ chomp cs ++ (if cs.head?.any isBreak then body else '\n' :: body)

/-- The text as a scalar inside a block at a column. -/
def scalar (column : Nat) (s : String) : List Char :=
  let cs := s.toList
  let l := Layout.of cs
  if cs.contains '\n' then
    if l.blockAllowed then block (inner column) cs else double cs
  else if readsAsOther s then double cs
  else if l.plainAllowed then cs
  else if l.singleAllowed then single (inner column) cs
  else double cs

/-- An entry of a mapping, after its indentation. A block of lines may have ended the line already. -/
def entry (key : String) (value : List Char) : List Char :=
  let line := key.toList ++ ": ".toList ++ value
  if line.getLast?.any isBreak then line else line ++ ['\n']

/-- An entry that holds a text, in a mapping at a column. -/
def textEntry (column : Nat) (key value : String) : List Char := entry key (scalar column value)

end Comptime.Yaml
