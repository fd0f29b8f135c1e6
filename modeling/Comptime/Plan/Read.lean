import Comptime.Plan.Basic
import Comptime.Yaml.Node
import Comptime.Yaml.Plain

/-!
# Reading plans

A plan is read from a YAML document. Entries that no plan has are passed over, and an entry with nothing in it is as
good as none. A value of the wrong kind is passed over too, but makes the document as a whole unfit. A phase that does
not exist ends the reading at once.
-/

namespace Comptime

namespace Plan

/-- Reading goes on after a value of the wrong kind; the state tells that there was one. -/
abbrev Reader := StateT Bool (Except Failure)

namespace Reader

open Yaml (Node)

def mistyped {α : Type} : Reader (Option α) := do
  set true
  return none

/-- The scalar stands for nothing. -/
def isNothing (text : String) (plain : Bool) : Bool := plain && Yaml.isNull text

/-- Any scalar, by its text. -/
def text : Node → Reader (Option String)
  | .scalar t plain => return if isNothing t plain then none else some t
  | _ => mistyped

def phase : Node → Reader (Option Phase)
  | .scalar t plain =>
    if isNothing t plain then return none
    else
      match Phase.parse t with
      | .ok p => return some p
      | .error f => throw f
  | _ => mistyped

def bool : Node → Reader (Option Bool)
  | .scalar t plain =>
    if isNothing t plain then return none
    else
      match (if plain then Yaml.bool? t else none) <|> Yaml.oldBool? t with
      | some b => return some b
      | none => mistyped
  | _ => mistyped

/-- Reads the members of a list. Those with nothing in them are left out. -/
def members {α : Type} (read : Node → Reader (Option α)) : List Node → Reader (List α)
  | [] => return []
  | n :: rest => do
    let x ← read n
    let xs ← members read rest
    return x.toList ++ xs

def list {α : Type} (read : Node → Reader (Option α)) : Node → Reader (Option (List α))
  | .sequence items => some <$> members read items
  | .scalar t plain => if isNothing t plain then return none else mistyped
  | .mapping _ => mistyped

/-- Two keys that are the same: scalars with one text, or anything else of one kind. -/
def sameKey : Node → Node → Bool
  | .scalar a _, .scalar b _ => a == b
  | .sequence _, .sequence _ => true
  | .mapping _, .mapping _ => true
  | _, _ => false

def repeatsKey : List (Node × Node) → Bool
  | [] => false
  | (k, _) :: rest => rest.any (fun p => sameKey k p.1) || repeatsKey rest

/-- Reads the entries one after the other; `read` takes one into the record. -/
def entries {α : Type} (read : α → String → Node → Reader α) : α → List (Node × Node) → Reader α
  | a, [] => return a
  | a, (k, v) :: rest => do
    let a ← match ← text k with
      | some key => read a key v
      | none => pure a
    entries read a rest

def record {α : Type} (initial : α) (read : α → String → Node → Reader α) : Node → Reader (Option α)
  | .mapping pairs => if repeatsKey pairs then mistyped else some <$> entries read initial pairs
  | .scalar t plain => if isNothing t plain then return none else mistyped
  | .sequence _ => mistyped

def need : Node → Reader (Option Need) :=
  record {} fun n key v =>
    match key with
    | "at" => return { n with raised := (← phase v).getD n.raised }
    | "target" => return { n with target := (← text v).getD n.target }
    | "phase" => return { n with phase := (← phase v).getD n.phase }
    | "tolerate" => return { n with tolerate := (← bool v).getD n.tolerate }
    | _ => return n

def item : Node → Reader (Option Item) :=
  record {} fun i key v =>
    match key with
    | "name" => return { i with name := (← text v).getD i.name }
    | "needs" => return { i with needs := (← list need v).getD i.needs }
    | "fail" => return { i with fail := (← phase v).getD i.fail }
    | _ => return i

def plan : Node → Reader (Option Plan) :=
  record {} fun p key v =>
    match key with
    | "entities" => return { p with items := (← list item v).getD p.items }
    | _ => return p

end Reader

def malformed (problem : String) : Failure := .plain ("yaml: " ++ problem)

/-- The plan in a text, sensible or not. -/
def decode (text : String) : Except Failure Plan :=
  match Yaml.Node.parse text with
  | .error e => .error (malformed e.problem)
  | .ok none => .ok {}
  | .ok (some n) =>
    match (Reader.plan n).run false with
    | .error f => .error f
    | .ok (p, mistyped) => if mistyped then .error (malformed "unmarshal errors") else .ok (p.getD {})

/-- The plan in a text, if it makes sense. -/
def parse (text : String) : Except Failure Plan := do
  let p ← (decode text).mapError (.within "decode plan")
  match p.validate with
  | .ok () => return p
  | .error e => throw (.plain e.message)

end Plan

end Comptime
