import Comptime.Plan.Basic
import Comptime.Yaml.Print

/-!
# Running a plan

The items of a plan are scheduled through all the phases, and a report tells how far each one got. The report can be
written as lines of text and as a YAML document.
-/

namespace Comptime

namespace Plan

/-- How far an item got. -/
structure Outcome where
  name : String := ""
  phase : Phase := .uninitialized
  err : ErrorKind := .ok
  cause : Option Failure := none
  /-- How many attempts were made at its phases. -/
  calls : Nat := 0

structure Report where
  rounds : Nat
  outcomes : List Outcome
  /-- Set if some item failed. -/
  err : Option Failure

/-- Attempts a phase of a plan's item. The attempts are counted by entity. -/
def handler (p : Plan) : Scheduler.Handler String (Array Nat) := fun phase id => do
  Scheduler.Act.modifyOwn (·.modify id (· + 1))
  let pool := (← Scheduler.Act.scheduler).pool
  match (pool.entity id).node.bind p.item? with
  | none => return .ok ()
  | some i => i.replay phase fun target needed => Scheduler.Act.require id ((pool.lookup target).getD 0) needed

/-- A scheduler with these entities, all of whose phases have a handler. -/
def scheduler (names : List String) : Except Abort (Scheduler String) := do
  let s ← names.foldlM (fun (s : Scheduler String) n => do return (← s.register n).1) {}
  Phase.handled.foldlM (fun s p => s.setHandler p) s

def outcome (w : Scheduler.World String (Array Nat)) (name : String) : Outcome :=
  let id := (w.scheduler.pool.lookup name).getD 0
  let e := w.scheduler.pool.entity id
  { name, phase := e.phase, err := e.err, cause := e.cause, calls := w.own.getD id 0 }

/-- What a run ends in. That items failed is told in the report; anything else is a failure of the run itself. -/
structure Ending where
  report : Report
  internal : Option Failure

def run (p : Plan) : Except Abort Ending := do
  let s ← scheduler p.names
  match (Scheduler.run p.handler).run ⟨s, Array.replicate p.items.length 0⟩ with
  | .error a _ => throw a
  | .ok result w =>
    let report : Report := { rounds := w.scheduler.rounds, outcomes := p.names.map (outcome w), err := none }
    match result with
    | .ok () => return { report, internal := none }
    | .error f =>
      if f.isCause .failed then return { report := { report with err := some f }, internal := none }
      else return { report, internal := some f }

namespace Report

/-- The outcome of the item of that name. -/
def outcome? (r : Report) (name : String) : Option Outcome := r.outcomes.find? (·.name == name)

/-- The text, and blanks after it up to a width. -/
def padded (width : Nat) (s : String) : String := s ++ String.ofList (Yaml.spaces (width - s.length))

def line (o : Outcome) : String :=
  padded 16 o.name ++ " " ++ padded 14 o.phase.name ++
    (if o.err = .ok then "" else " " ++ o.err.name ++ ": " ++ (o.cause.map Failure.message).getD "") ++ "\n"

/-- One line for each item, and then what there is to say about the run. -/
def text (r : Report) : String :=
  String.join (r.outcomes.map line) ++ s!"rounds: {r.rounds}\n" ++
    match r.err with
    | some f => "error: " ++ f.message ++ "\n"
    | none => ""

/-- An entry that is left out if there is nothing in it. -/
def optionalEntry (column : Nat) (key value : String) : List (List Char) :=
  if value = "" then [] else [Yaml.textEntry column key value]

def number (n : Nat) : List Char := (toString n).toList

/-- The column of the items in the document, and that of their entries. -/
def itemColumn : Nat := Yaml.inner 0
def entryColumn : Nat := itemColumn + 2

/-- An item of the document: its first entry stands behind a dash. -/
def item (o : Outcome) : List Char :=
  let entries :=
    [Yaml.textEntry entryColumn "name" o.name, Yaml.textEntry entryColumn "phase" o.phase.name,
      Yaml.textEntry entryColumn "err" o.err.name] ++
    optionalEntry entryColumn "cause" ((o.cause.map Failure.message).getD "") ++
    [Yaml.entry "calls" (number o.calls)]
  (Yaml.spaces itemColumn ++ ['-', ' ']) ++ (Yaml.spaces entryColumn).intercalate entries

/-- The report as a document. -/
def yaml (r : Report) : String :=
  let entries :=
    [Yaml.entry "rounds" (number r.rounds)] ++
    optionalEntry 0 "error" ((r.err.map Failure.message).getD "") ++
    (if r.outcomes.isEmpty then [Yaml.entry "entities" "[]".toList] else ["entities:\n".toList]) ++
    r.outcomes.map item
  String.ofList entries.flatten

end Report

end Plan

end Comptime
