import Comptime.Command

/-!
# The program

Reads the files, runs the command and prints what it has to say.
-/

namespace Comptime.Program

/-- A file that cannot be opened is taken for one that is not there. -/
def readFile (name : String) : IO Command.File := do
  let content ← try some <$> IO.FS.readFile name catch _ => pure none
  return { name, content }

def report (result : Except Abort Command.Result) : IO UInt32 := do
  match result with
  | .error _ =>
    IO.eprintln "error: broken contract"
    return 2
  | .ok r =>
    IO.print r.printed
    match r.failure with
    | none => return 0
    | some f =>
      IO.eprintln ("error: " ++ f.message)
      return 1

/-- Runs the command that the arguments name. -/
def run (args : List String) : IO UInt32 := do
  match args with
  | [] =>
    IO.println "commands: sched, dump, check"
    return 0
  | verb :: names =>
    match Command.Verb.ofName? verb with
    | some v => report (Command.run v (← names.mapM readFile))
    | none =>
      IO.eprintln ("error: no such command: " ++ verb)
      return 1

end Comptime.Program

def main (args : List String) : IO UInt32 := Comptime.Program.run args
