import Comptime.Yaml.Scalar

/-!
# Tokens of a YAML text

Indentation becomes tokens that open and close blocks. That a word is the key of a mapping shows only at the colon
after it, so a word that may turn out to be one is remembered, and the tokens that say so are put in front of it then.
-/

namespace Comptime.Yaml

inductive Token where
  | documentStart
  | documentEnd
  | streamEnd
  | blockSequenceStart
  | blockMappingStart
  | blockEnd
  | flowSequenceStart
  | flowSequenceEnd
  | flowMappingStart
  | flowMappingEnd
  | blockEntry
  | flowEntry
  | key
  | value
  | scalar (text : String) (plain : Bool)
deriving DecidableEq, Repr

namespace Token

/-- A token that may turn out to be a key. -/
structure Candidate where
  /-- Nothing but a key may stand there. -/
  required : Bool
  /-- The place of the token among those read. -/
  place : Nat
  line : Nat
  column : Nat
  index : Nat

/-- A text that is being split into tokens. -/
structure Scanner where
  cursor : Cursor
  tokens : Array Token := #[]
  /-- The column of the innermost block, if any is open, and of those around it. -/
  indent : Int := -1
  indents : List Int := []
  /-- A key may stand at the cursor. -/
  keyAllowed : Bool := true
  /-- The candidate of each open bracket, the innermost first, and last that outside of all. -/
  candidates : List (Option Candidate) := [none]

namespace Scanner

def inFlow (s : Scanner) : Bool := s.candidates.length > 1

def emit (s : Scanner) (t : Token) : Scanner := { s with tokens := s.tokens.push t }

/-- Closes the blocks that are indented beyond a column. -/
def closeBlocks (column : Int) : List Int → Scanner → Scanner
  | [], s => s
  | outer :: rest, s =>
    if s.indent ≤ column then s
    else closeBlocks column rest { s.emit .blockEnd with indent := outer, indents := rest }

def unroll (s : Scanner) (column : Int) : Scanner :=
  if s.inFlow then s else closeBlocks column s.indents s

/-- Opens a block at a column, if that is beyond the innermost one, with its token at a place. -/
def roll (s : Scanner) (column place : Nat) (t : Token) : Scanner :=
  if s.inFlow || (column : Int) ≤ s.indent then s
  else
    { s with
      indents := s.indent :: s.indents
      indent := column
      tokens := s.tokens.insertIdxIfInBounds place t }

/-- The innermost candidate can no longer be a key. -/
def dropCandidate (s : Scanner) : Except Malformed Scanner :=
  match s.candidates with
  | some k :: rest =>
    if k.required then .error ⟨"could not find expected ':'"⟩ else .ok { s with candidates := none :: rest }
  | _ => .ok s

/-- The token to be read next may be a key. -/
def saveCandidate (s : Scanner) : Except Malformed Scanner :=
  if s.keyAllowed then do
    let s ← s.dropCandidate
    let k : Candidate :=
      { required := !s.inFlow && s.indent == s.cursor.column
        place := s.tokens.size
        line := s.cursor.line
        column := s.cursor.column
        index := s.cursor.index }
    return { s with candidates := some k :: s.candidates.drop 1 }
  else .ok s

/-- The innermost candidate, if it can still be a key: it is on the same line and not far away. -/
def candidate? (s : Scanner) : Except Malformed (Option Candidate) :=
  match s.candidates with
  | some k :: _ =>
    if k.line < s.cursor.line || k.index + 1024 < s.cursor.index then
      if k.required then .error ⟨"could not find expected ':'"⟩ else .ok none
    else .ok (some k)
  | _ => .ok none

/-- Passes over blanks, comments and line ends. -/
def skipToToken : (fuel : Nat) → Scanner → Scanner
  | 0, s => s
  | fuel + 1, s =>
    match s.cursor.peek? with
    | none => s
    | some x =>
      if x == ' ' || (x == '\t' && (s.inFlow || !s.keyAllowed)) || (x == '\ufeff' && s.cursor.column == 0) then
        skipToToken fuel { s with cursor := s.cursor.skip 1 }
      else if x == '#' then
        skipToToken fuel { s with cursor := s.cursor.skip (s.cursor.rest.takeWhile (!isBreak ·)).length }
      else if isBreak x then
        skipToToken fuel { s with cursor := s.cursor.skipLine, keyAllowed := s.keyAllowed || !s.inFlow }
      else s

/-- Passes a token of the given length, after which a key may or may not stand. -/
def take (s : Scanner) (length : Nat) (t : Token) (keyAllowed : Bool) : Scanner :=
  { s.emit t with cursor := s.cursor.skip length, keyAllowed }

def documentMarker (s : Scanner) (t : Token) : Except Malformed Scanner := do
  let s ← (s.unroll (-1)).dropCandidate
  return s.take 3 t false

def openBracket (s : Scanner) (t : Token) : Except Malformed Scanner := do
  let s ← s.saveCandidate
  return { s with candidates := none :: s.candidates }.take 1 t true

def closeBracket (s : Scanner) (t : Token) : Except Malformed Scanner := do
  let s ← s.dropCandidate
  let s := if s.inFlow then { s with candidates := s.candidates.drop 1 } else s
  return s.take 1 t false

def separator (s : Scanner) : Except Malformed Scanner := do
  let s ← s.dropCandidate
  return s.take 1 .flowEntry true

def blockEntry (s : Scanner) : Except Malformed Scanner := do
  if !s.inFlow && !s.keyAllowed then
    throw ⟨"block sequence entries are not allowed in this context"⟩
  let s ← (s.roll s.cursor.column s.tokens.size .blockSequenceStart).dropCandidate
  return s.take 1 .blockEntry true

/-- A question mark makes what follows a key. -/
def explicitKey (s : Scanner) : Except Malformed Scanner := do
  if !s.inFlow && !s.keyAllowed then
    throw ⟨"mapping keys are not allowed in this context"⟩
  let s ← (s.roll s.cursor.column s.tokens.size .blockMappingStart).dropCandidate
  return s.take 1 .key (!s.inFlow)

/-- A colon makes the candidate a key, if there is one. -/
def value (s : Scanner) : Except Malformed Scanner := do
  match ← s.candidate? with
  | some k =>
    let s := { s with tokens := s.tokens.insertIdxIfInBounds k.place .key, candidates := none :: s.candidates.drop 1 }
    return (s.roll k.column k.place .blockMappingStart).take 1 .value false
  | none =>
    if !s.inFlow && !s.keyAllowed then
      throw ⟨"mapping values are not allowed in this context"⟩
    let s := { s with candidates := none :: s.candidates.drop 1 }
    return (s.roll s.cursor.column s.tokens.size .blockMappingStart).take 1 .value (!s.inFlow)

def quoted (s : Scanner) (quote : Char) : Except Malformed Scanner := do
  let s ← s.saveCandidate
  let (text, cursor) ← readQuoted quote s.cursor.rest.length [] (s.cursor.skip 1)
  return { s.emit (.scalar (String.ofList text) false) with cursor, keyAllowed := false }

def plain (s : Scanner) : Except Malformed Scanner := do
  let s ← s.saveCandidate
  let (text, ended, cursor) ← readPlain s.inFlow (s.indent + 1).toNat (s.cursor.rest.length + 1) [] {} s.cursor
  return { s.emit (.scalar (String.ofList text) true) with cursor, keyAllowed := ended }

def finish (s : Scanner) : Except Malformed Scanner := do
  let s ← (s.unroll (-1)).dropCandidate
  return { s.emit .streamEnd with keyAllowed := false }

/-- The characters that start no plain scalar. -/
def isIndicator (c : Char) : Bool :=
  "-?:,[]\x7b\x7d#&*!|>'\"%@\x60".toList.contains c

/-- A plain scalar starts at these characters: a dash, a question mark or a colon may start one before something that
is not a blank. -/
def startsPlain (s : Scanner) : List Char → Bool
  | [] => false
  | c :: rest =>
    !(isBlank c || isBreak c || isIndicator c) || (c == '-' && !rest.head?.any isBlank) ||
      (!s.inFlow && (c == '?' || c == ':') && !endsWord rest)

/-- Reads one token of the text that is left. -/
def token (s : Scanner) : Except Malformed Scanner :=
  if s.cursor.atMarker '-' then s.documentMarker .documentStart
  else if s.cursor.atMarker '.' then s.documentMarker .documentEnd
  else
    match s.cursor.rest with
    | '[' :: _ => s.openBracket .flowSequenceStart
    | ']' :: _ => s.closeBracket .flowSequenceEnd
    | '\x7b' :: _ => s.openBracket .flowMappingStart
    | '\x7d' :: _ => s.closeBracket .flowMappingEnd
    | ',' :: _ => s.separator
    | '"' :: _ => s.quoted '"'
    | '\'' :: _ => s.quoted '\''
    | c :: rest =>
      if c == '-' && endsWord rest then s.blockEntry
      else if c == '?' && (s.inFlow || endsWord rest) then s.explicitKey
      else if c == ':' && (s.inFlow || endsWord rest) then s.value
      else if s.startsPlain (c :: rest) then s.plain
      else .error ⟨"found character that cannot start any token"⟩
    | [] => s.finish

/-- Reads tokens up to the end of the text, or to the first problem. -/
def run : (fuel : Nat) → Scanner → Scanner × Option Malformed
  | 0, s => (s, none)
  | fuel + 1, s =>
    let s := skipToToken (s.cursor.rest.length + 1) s
    let s := s.unroll s.cursor.column
    match s.token with
    | .error e => (s, some e)
    | .ok s => if s.tokens.back? == some .streamEnd then (s, none) else run fuel s

end Scanner

/-- The tokens of a text, up to its end or to the first problem. -/
def scan (text : List Char) : List Token × Option Malformed :=
  let (s, problem) := Scanner.run (text.length + 1) { cursor := { rest := text } }
  (s.tokens.toList, problem)

end Token

end Comptime.Yaml
