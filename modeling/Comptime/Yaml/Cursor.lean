/-!
# Places in a YAML text

A text is read from a `Cursor`, which knows its line and column. Besides the newline and the carriage return, the next
line, line separator and paragraph separator characters end a line.
-/

namespace Comptime.Yaml

/-- What is wrong with a text. -/
structure Malformed where
  problem : String
deriving DecidableEq, Repr

def isBreak (c : Char) : Bool :=
  c == '\n' || c == '\r' || c == '\u0085' || c == '\u2028' || c == '\u2029'

def isBlank (c : Char) : Bool := c == ' ' || c == '\t'

/-- The characters a text may hold as they are. -/
def isAllowed (c : Char) : Bool :=
  c == '\t' || c == '\n' || c == '\r' || ('\x20' ≤ c && c ≤ '\x7e') || c == '\u0085' ||
    ('\u00a0' ≤ c && c ≤ '\ufffd') || 0x10000 ≤ c.toNat

/-- Nothing but blanks, a line's end or the end of the text comes next. -/
def endsWord : List Char → Bool
  | [] => true
  | c :: _ => isBlank c || isBreak c

structure Cursor where
  rest : List Char
  line : Nat := 0
  column : Nat := 0
  /-- How many characters have been passed. -/
  index : Nat := 0

namespace Cursor

def peek? (c : Cursor) : Option Char := c.rest.head?

/-- Passes characters of one line. -/
def skip (c : Cursor) (n : Nat) : Cursor :=
  { c with rest := c.rest.drop n, column := c.column + n, index := c.index + n }

/-- Passes the end of a line, which may be two characters. -/
def skipLine (c : Cursor) : Cursor :=
  let n := match c.rest with
    | '\r' :: '\n' :: _ => 2
    | _ => 1
  { rest := c.rest.drop n, line := c.line + 1, column := 0, index := c.index + n }

/-- What the end of a line stands for. -/
def lineEnd (c : Cursor) : List Char :=
  match c.rest with
  | '\u2028' :: _ => ['\u2028']
  | '\u2029' :: _ => ['\u2029']
  | _ => ['\n']

/-- A document marker stands here: the three characters at the start of a line, and nothing else in the word. -/
def atMarker (c : Cursor) (mark : Char) : Bool :=
  c.column == 0 && c.rest.take 3 == [mark, mark, mark] && endsWord (c.rest.drop 3)

def atDocumentMarker (c : Cursor) : Bool := c.atMarker '-' || c.atMarker '.'

end Cursor

/-- The blanks and line ends between two words. -/
structure Gap where
  /-- The blanks, if no line has ended. -/
  blanks : List Char := []
  /-- What the first line's end stands for. -/
  first : Option (List Char) := none
  /-- What the other line ends stand for. -/
  others : List Char := []

namespace Gap

/-- A single line's end between two words is a space, and of several the first is dropped. -/
def text (g : Gap) : List Char :=
  match g.first with
  | none => g.blanks
  | some ['\n'] => if g.others.isEmpty then [' '] else g.others
  | some b => b ++ g.others

/-- Reads the gap at the cursor. A tab that stands where the indentation has to be is reported. -/
def read (indent : Nat) : (fuel : Nat) → Gap → Cursor → Except Malformed (Gap × Cursor)
  | 0, g, c => .ok (g, c)
  | fuel + 1, g, c =>
    match c.peek? with
    | none => .ok (g, c)
    | some x =>
      if isBlank x then
        if g.first.isNone then
          read indent fuel { g with blanks := g.blanks ++ [x] } (c.skip 1)
        else if x == '\t' && c.column < indent then
          .error ⟨"found a tab character that violates indentation"⟩
        else
          read indent fuel g (c.skip 1)
      else if isBreak x then
        match g.first with
        | none => read indent fuel { g with blanks := [], first := some c.lineEnd } c.skipLine
        | some _ => read indent fuel { g with others := g.others ++ c.lineEnd } c.skipLine
      else
        .ok (g, c)

end Gap

end Comptime.Yaml
