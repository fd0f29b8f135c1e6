/-!
# Kinds of error

A declaration that will not be finished carries one word about why: it was wrong itself, something it needs was, or it
takes part in a circle of declarations that wait for each other.
-/

namespace Comptime

inductive ErrorKind where
  | ok
  | semantic
  | dependency
  | cycle
  | cycleDependent
  /-- A code that stands for no kind. It still counts as an error. -/
  | unnamed (code : Int)
deriving DecidableEq, Repr, Inhabited

namespace ErrorKind

def name : ErrorKind → String
  | ok => "ok"
  | semantic => "semantic"
  | dependency => "dependency"
  | cycle => "cycle"
  | cycleDependent => "cycle_dependent"
  | unnamed _ => "errkind(?)"

def ofCode : Int → ErrorKind
  | 0 => ok
  | 1 => semantic
  | 2 => dependency
  | 3 => cycle
  | 4 => cycleDependent
  | n => unnamed n

/-- The kind of that name. -/
def ofName? (s : String) : Option ErrorKind :=
  [ok, semantic, dependency, cycle, cycleDependent].find? fun k => k.name == s

/-- The declaration waits in a circle, or for one that does. -/
def isCyclic : ErrorKind → Bool
  | cycle | cycleDependent => true
  | _ => false

end ErrorKind

end Comptime
