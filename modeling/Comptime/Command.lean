import Comptime.Plan.Read
import Comptime.Plan.Run

/-!
# The command line

Three commands take the names of files with plans: `sched` runs the plans and prints what became of every item, `dump`
prints the same as documents, and `check` only reads them. The first file that cannot be read or makes no sense ends
the command; plans whose items fail do not, but the first of them decides how the command ends.
-/

namespace Comptime

namespace Command

inductive Verb where
  | sched
  | dump
  | check
deriving DecidableEq, Repr

def Verb.name : Verb → String
  | sched => "sched"
  | dump => "dump"
  | check => "check"

def Verb.ofName? (s : String) : Option Verb := [sched, dump, check].find? (·.name == s)

/-- A file as it was found: its name, and what is in it if it is there. -/
structure File where
  name : String
  content : Option String

def load (f : File) : Except Failure Plan :=
  match f.content with
  | none => .error (.within "read plan" (.plain ("open " ++ f.name ++ ": no such file or directory")))
  | some text => (Plan.parse text).mapError (.within f.name)

/-- What a command has printed, and the failure that it ends in. -/
structure Result where
  printed : String := ""
  /-- How many reports are among what was printed. -/
  reports : Nat := 0
  failure : Option Failure := none

def Result.print (r : Result) (verb : Verb) (name : String) (report : Plan.Report) : Result :=
  let text := match verb with
    | .dump => (if r.reports = 0 then "" else "---\n") ++ report.yaml
    | _ => name ++ ":\n" ++ report.text
  { r with printed := r.printed ++ text, reports := r.reports + 1 }

/-- Runs the plans one after the other. -/
def runPlans (verb : Verb) : List File → Result → Except Abort Result
  | [], r => .ok r
  | f :: rest, r =>
    match load f with
    | .error e => .ok { r with failure := some e }
    | .ok p => do
      let ending ← p.run
      match ending.internal with
      | some e => return { r with failure := some (.within ("run " ++ f.name) e) }
      | none =>
        let r := r.print verb f.name ending.report
        let failed := ending.report.err.map (.within f.name)
        runPlans verb rest { r with failure := r.failure <|> failed }

/-- Reads the plans one after the other. -/
def checkPlans : List File → Result
  | [] => {}
  | f :: rest =>
    match load f with
    | .error e => { failure := some e }
    | .ok _ => checkPlans rest

/-- A stream of documents that ends before it has begun is an error. -/
def closeStream (r : Result) : Result :=
  if r.reports = 0 ∧ r.failure.isNone then { r with failure := some (.plain "yaml: expected STREAM-START") } else r

def run (verb : Verb) (files : List File) : Except Abort Result := do
  let r ← match verb with
    | .sched => runPlans verb files {}
    | .dump => closeStream <$> runPlans verb files {}
    | .check => pure (checkPlans files)
  return { r with failure := r.failure.map (.within verb.name) }

end Command

end Comptime
