import Comptime.Yaml.Cursor

/-!
# Reading scalars

A scalar is plain, or it stands in single or double quotes. All three may go over several lines, which are then joined.
-/

namespace Comptime.Yaml

/-- The characters that have a meaning of their own inside brackets. -/
def isFlowMark (c : Char) : Bool :=
  c == ',' || c == '?' || c == '[' || c == ']' || c == '\x7b' || c == '\x7d'

/-- A word of a plain scalar and what follows it. A colon ends the word before a blank, and inside brackets their marks
end it too. -/
def plainWord (inFlow : Bool) : List Char → List Char × List Char
  | [] => ([], [])
  | c :: rest =>
    if isBlank c || isBreak c || (c == ':' && endsWord rest) || (inFlow && isFlowMark c) then ([], c :: rest)
    else
      let (word, after) := plainWord inFlow rest
      (c :: word, after)

/-- Reads a plain scalar. Its lines are indented by at least `indent`. The result tells whether a line ended after it. -/
def readPlain (inFlow : Bool) (indent : Nat) :
    (fuel : Nat) → List Char → Gap → Cursor → Except Malformed (List Char × Bool × Cursor)
  | 0, text, g, c => .ok (text, g.first.isSome, c)
  | fuel + 1, text, g, c =>
    if c.atDocumentMarker || c.peek? == some '#' then .ok (text, g.first.isSome, c)
    else
      let (word, _) := plainWord inFlow c.rest
      let (text, g) := if word.isEmpty then (text, g) else (text ++ g.text ++ word, {})
      let c := c.skip word.length
      if c.rest.isEmpty || !endsWord c.rest then .ok (text, g.first.isSome, c)
      else do
        let (g, c) ← g.read indent c.rest.length c
        if !inFlow && c.column < indent then return (text, g.first.isSome, c)
        readPlain inFlow indent fuel text g c

def hexValue? (c : Char) : Option Nat :=
  if c.isDigit then some (c.toNat - 48)
  else if 'a' ≤ c && c ≤ 'f' then some (c.toNat - 87)
  else if 'A' ≤ c && c ≤ 'F' then some (c.toNat - 55)
  else none

/-- The character of a code in hexadecimal digits. -/
def codePoint (digits : List Char) (length : Nat) : Except Malformed Char :=
  match (digits.take length).mapM hexValue? with
  | none => .error ⟨"did not find expected hexdecimal number"⟩
  | some ds =>
    let n := ds.foldl (fun n d => 16 * n + d) 0
    if ds.length < length then .error ⟨"did not find expected hexdecimal number"⟩
    else if n.isValidChar then .ok (Char.ofNat n)
    else .error ⟨"found invalid Unicode character escape code"⟩

/-- What comes after a backslash: the character it stands for, and how long it is. -/
def escape : List Char → Except Malformed (Char × Nat)
  | '0' :: _ => .ok ('\x00', 1)
  | 'a' :: _ => .ok ('\x07', 1)
  | 'b' :: _ => .ok ('\x08', 1)
  | 't' :: _ | '\t' :: _ => .ok ('\t', 1)
  | 'n' :: _ => .ok ('\n', 1)
  | 'v' :: _ => .ok ('\x0b', 1)
  | 'f' :: _ => .ok ('\x0c', 1)
  | 'r' :: _ => .ok ('\r', 1)
  | 'e' :: _ => .ok ('\x1b', 1)
  | ' ' :: _ => .ok (' ', 1)
  | '"' :: _ => .ok ('"', 1)
  | '\'' :: _ => .ok ('\'', 1)
  | '\\' :: _ => .ok ('\\', 1)
  | 'N' :: _ => .ok ('\u0085', 1)
  | '_' :: _ => .ok ('\u00a0', 1)
  | 'L' :: _ => .ok ('\u2028', 1)
  | 'P' :: _ => .ok ('\u2029', 1)
  | 'x' :: ds => (·, 3) <$> codePoint ds 2
  | 'u' :: ds => (·, 5) <$> codePoint ds 4
  | 'U' :: ds => (·, 9) <$> codePoint ds 8
  | _ => .error ⟨"found unknown escape character"⟩

/-- Reads on in a quoted scalar up to its closing quote. -/
def readQuoted (quote : Char) : (fuel : Nat) → List Char → Cursor → Except Malformed (List Char × Cursor)
  | 0, _, _ => .error ⟨"found unexpected end of stream"⟩
  | fuel + 1, text, c =>
    if c.atDocumentMarker then .error ⟨"found unexpected document indicator"⟩
    else
      match c.rest with
      | [] => .error ⟨"found unexpected end of stream"⟩
      | x :: after =>
        if x == quote then
          if quote == '\'' && after.head? == some '\'' then readQuoted quote fuel (text ++ ['\'']) (c.skip 2)
          else .ok (text, c.skip 1)
        else if isBlank x || isBreak x then do
          let (g, c) ← Gap.read 0 c.rest.length {} c
          readQuoted quote fuel (text ++ g.text) c
        else if x == '\\' && quote == '"' then
          if after.head?.any isBreak then do
            -- an escaped line's end joins the lines with nothing in between
            let (g, c) ← Gap.read 0 c.rest.length { first := some [] } (c.skip 1).skipLine
            readQuoted quote fuel (text ++ g.text) c
          else do
            let (x, n) ← escape after
            readQuoted quote fuel (text ++ [x]) (c.skip (n + 1))
        else readQuoted quote fuel (text ++ [x]) (c.skip 1)

end Comptime.Yaml
