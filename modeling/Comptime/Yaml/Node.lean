import Comptime.Yaml.Token

/-!
# YAML documents

A document is a tree of scalars, sequences and mappings. `Node.parse` reads the first document of a text. What comes
after it does not matter, as long as the next few tokens can be read.
-/

namespace Comptime.Yaml

inductive Node where
  | scalar (text : String) (plain : Bool)
  | sequence (items : List Node)
  | mapping (pairs : List (Node × Node))
deriving Inhabited, Repr

namespace Node

/-- A scalar that was left out. -/
def empty : Node := .scalar "" true

/-- What has been read, and the tokens after it. -/
abbrev Rest (α : Type) := α × List Token

/-- Nothing stands where a node could: one of these tokens comes next. -/
def missing (ends : List Token) (ts : List Token) : Bool := ts.head?.all ends.contains

mutual

/-- A node in a block, or inside brackets, where `indentless` allows a sequence that is not indented. -/
def node (block indentless : Bool) : (fuel : Nat) → List Token → Except Malformed (Rest Node)
  | 0, _ => .error ⟨"did not find expected node content"⟩
  | fuel + 1, ts =>
    match ts with
    | .scalar text plain :: ts => .ok (.scalar text plain, ts)
    | .flowSequenceStart :: ts => do
      let (items, ts) ← flowItems fuel true ts
      return (.sequence items, ts)
    | .flowMappingStart :: ts => do
      let (pairs, ts) ← flowPairs fuel true ts
      return (.mapping pairs, ts)
    | .blockEntry :: _ =>
      if indentless then do
        let (items, ts) ← indentlessItems fuel ts
        return (.sequence items, ts)
      else .error ⟨"did not find expected node content"⟩
    | .blockSequenceStart :: ts =>
      if block then do
        let (items, ts) ← blockItems fuel ts
        return (.sequence items, ts)
      else .error ⟨"did not find expected node content"⟩
    | .blockMappingStart :: ts =>
      if block then do
        let (pairs, ts) ← blockPairs fuel ts
        return (.mapping pairs, ts)
      else .error ⟨"did not find expected node content"⟩
    | _ => .error ⟨"did not find expected node content"⟩

/-- A node, or nothing before one of these tokens. -/
def optional (block indentless : Bool) (ends : List Token) : (fuel : Nat) → List Token → Except Malformed (Rest Node)
  | 0, _ => .error ⟨"did not find expected node content"⟩
  | fuel + 1, ts => if missing ends ts then .ok (empty, ts) else node block indentless fuel ts

def blockItems : (fuel : Nat) → List Token → Except Malformed (Rest (List Node))
  | 0, _ => .error ⟨"did not find expected '-' indicator"⟩
  | fuel + 1, ts =>
    match ts with
    | .blockEntry :: ts => do
      let (x, ts) ← optional true false [.blockEntry, .blockEnd] fuel ts
      let (xs, ts) ← blockItems fuel ts
      return (x :: xs, ts)
    | .blockEnd :: ts => .ok ([], ts)
    | _ => .error ⟨"did not find expected '-' indicator"⟩

def indentlessItems : (fuel : Nat) → List Token → Except Malformed (Rest (List Node))
  | 0, _ => .error ⟨"did not find expected '-' indicator"⟩
  | fuel + 1, ts =>
    match ts with
    | .blockEntry :: ts => do
      let (x, ts) ← optional true false [.blockEntry, .key, .value, .blockEnd] fuel ts
      let (xs, ts) ← indentlessItems fuel ts
      return (x :: xs, ts)
    | ts => .ok ([], ts)

def blockPairs : (fuel : Nat) → List Token → Except Malformed (Rest (List (Node × Node)))
  | 0, _ => .error ⟨"did not find expected key"⟩
  | fuel + 1, ts =>
    match ts with
    | .key :: ts => do
      let (k, ts) ← optional true true [.key, .value, .blockEnd] fuel ts
      let (v, ts) ← match ts with
        | .value :: ts => optional true true [.key, .value, .blockEnd] fuel ts
        | ts => .ok (empty, ts)
      let (rest, ts) ← blockPairs fuel ts
      return ((k, v) :: rest, ts)
    | .blockEnd :: ts => .ok ([], ts)
    | _ => .error ⟨"did not find expected key"⟩

/-- The items up to the closing bracket. All but the first follow a comma, and one may be missing at the end. -/
def flowItems : (fuel : Nat) → (first : Bool) → List Token → Except Malformed (Rest (List Node))
  | 0, _, _ => .error ⟨"did not find expected ',' or ']'"⟩
  | fuel + 1, first, ts =>
    match first, ts with
    | _, .flowSequenceEnd :: ts => .ok ([], ts)
    | true, ts => flowItem fuel ts
    | false, .flowEntry :: .flowSequenceEnd :: ts => .ok ([], ts)
    | false, .flowEntry :: ts => flowItem fuel ts
    | false, _ => .error ⟨"did not find expected ',' or ']'"⟩

/-- An item and those after it. A pair that stands there by itself is a mapping. -/
def flowItem : (fuel : Nat) → List Token → Except Malformed (Rest (List Node))
  | 0, _ => .error ⟨"did not find expected node content"⟩
  | fuel + 1, ts => do
    let (x, ts) ← match ts with
      | .key :: ts => do
        let (pair, ts) ← flowPair .flowSequenceEnd fuel ts
        pure (.mapping [pair], ts)
      | ts => node false false fuel ts
    let (xs, ts) ← flowItems fuel false ts
    return (x :: xs, ts)

/-- A key and its value, either of which may be missing. -/
def flowPair (close : Token) : (fuel : Nat) → List Token → Except Malformed (Rest (Node × Node))
  | 0, _ => .error ⟨"did not find expected node content"⟩
  | fuel + 1, ts => do
    let (k, ts) ← optional false false [.value, .flowEntry, close] fuel ts
    let (v, ts) ← match ts with
      | .value :: ts => optional false false [.flowEntry, close] fuel ts
      | ts => .ok (empty, ts)
    return ((k, v), ts)

def flowPairs : (fuel : Nat) → (first : Bool) → List Token → Except Malformed (Rest (List (Node × Node)))
  | 0, _, _ => .error ⟨"did not find expected ',' or '\x7d'"⟩
  | fuel + 1, first, ts =>
    match first, ts with
    | _, .flowMappingEnd :: ts => .ok ([], ts)
    | true, ts => flowEntry fuel ts
    | false, .flowEntry :: .flowMappingEnd :: ts => .ok ([], ts)
    | false, .flowEntry :: ts => flowEntry fuel ts
    | false, _ => .error ⟨"did not find expected ',' or '\x7d'"⟩

/-- An entry of a mapping and those after it. A node without a colon is a key that has no value. -/
def flowEntry : (fuel : Nat) → List Token → Except Malformed (Rest (List (Node × Node)))
  | 0, _ => .error ⟨"did not find expected node content"⟩
  | fuel + 1, ts => do
    let (pair, ts) ← match ts with
      | .key :: ts => flowPair .flowMappingEnd fuel ts
      | ts => do
        let (k, ts) ← node false false fuel ts
        pure ((k, empty), ts)
    let (rest, ts) ← flowPairs fuel false ts
    return (pair :: rest, ts)

end

/-- The first document of the tokens, if there is any, and the tokens after it. -/
def document (ts : List Token) : Except Malformed (Rest (Option Node)) :=
  let fuel := 4 * ts.length + 8
  let found := fun (p : Node × List Token) => (some p.1, p.2)
  match ts with
  | [.streamEnd] | [] => .ok (none, ts)
  | .documentStart :: ts => found <$> optional true false [.documentStart, .documentEnd, .streamEnd] fuel ts
  | ts => found <$> node true false fuel ts

/-- How many tokens are read ahead of the one that is looked at. -/
def lookahead : Nat := 2

/-- The first document of a text, if there is any. -/
def parse (text : String) : Except Malformed (Option Node) := do
  let text := text.toList
  let text := if text.head? == some '\ufeff' then text.drop 1 else text
  if !text.all isAllowed then
    throw ⟨"control characters are not allowed"⟩
  let (tokens, problem) := Token.scan text
  let (doc, after) ← document tokens
  match problem with
  | some p => if after.length ≤ lookahead then throw p else return doc
  | none => return doc

end Node

end Comptime.Yaml
