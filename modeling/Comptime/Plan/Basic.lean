import Comptime.Schedule.Scheduler

/-!
# Plans

A plan describes declarations by what they need only, and so drives the scheduler without any program. `Plan.validate`
accepts the plans that make sense: every item has a name of its own, and every phase in them can be attempted.
-/

namespace Comptime

namespace Plan

/-- A requirement that an item raises when it attempts a phase. -/
structure Need where
  /-- The phase at whose attempt the need is raised. -/
  raised : Phase := .uninitialized
  target : String := ""
  /-- The phase the target has to reach. -/
  phase : Phase := .uninitialized
  /-- That the target failed is no reason to fail. -/
  tolerate : Bool := false
deriving DecidableEq, Repr

structure Item where
  name : String := ""
  needs : List Need := []
  /-- The phase the item fails at. One that never fails has none. -/
  fail : Phase := .uninitialized
deriving DecidableEq, Repr

/-- Why a plan makes no sense. -/
inductive Invalid where
  | unnamed
  | repeated (name : String)
  | failsAt (name : String) (phase : Phase)
  | unknownTarget (name target : String)
  | raisedAt (name : String) (phase : Phase)
  | neededAt (name target : String) (phase : Phase)
deriving DecidableEq, Repr

def Invalid.message : Invalid → String
  | unnamed => "entity without a name"
  | repeated name => s!"entity {name} defined twice"
  | failsAt name p => s!"{name}: can't fail at {p.name}"
  | unknownTarget name target => s!"{name}: unknown target {target}"
  | raisedAt name p => s!"{name}: need raised at {p.name}"
  | neededAt name target p => s!"{name}: need of {target} at {p.name}"

end Plan

structure Plan where
  items : List Plan.Item := []
deriving DecidableEq, Repr

namespace Plan

def names (p : Plan) : List String := p.items.map (·.name)

def item? (p : Plan) (name : String) : Option Item := p.items.find? (·.name == name)

/-- Every name is there, and none of those seen before. -/
def checkNames : (seen : List String) → List String → Except Invalid Unit
  | _, [] => .ok ()
  | seen, n :: rest =>
    if n = "" then .error .unnamed
    else if n ∈ seen then .error (.repeated n)
    else checkNames (n :: seen) rest

/-- An item attempts the phase by a handler. -/
def attempted (p : Phase) : Prop := .typeChecked ≤ p ∧ p ≤ .run

instance (p : Phase) : Decidable (attempted p) := inferInstanceAs (Decidable (_ ∧ _))

def checkNeed (names : List String) (i : Item) (n : Need) : Except Invalid Unit := do
  if n.target ∉ names then throw (.unknownTarget i.name n.target)
  if ¬ attempted n.raised then throw (.raisedAt i.name n.raised)
  if ¬ (.parsed ≤ n.phase ∧ n.phase ≤ .run) then throw (.neededAt i.name n.target n.phase)

def checkItem (names : List String) (i : Item) : Except Invalid Unit := do
  if i.fail ≠ .uninitialized ∧ ¬ attempted i.fail then throw (.failsAt i.name i.fail)
  i.needs.forM (checkNeed names i)

/-- The names are checked before anything else. -/
def validate (p : Plan) : Except Invalid Unit := do
  checkNames [] p.names
  p.items.forM (checkItem p.names)

/-- Raises the needs in order, until one is not met. A tolerated need is met by a target that failed. -/
def raise {m : Type → Type} [Monad m] (require : String → Phase → m (Except Failure Unit)) :
    List Need → m (Except Failure Unit)
  | [] => pure (.ok ())
  | n :: rest => do
    match ← require n.target n.phase with
    | .ok () => raise require rest
    | .error f => if n.tolerate && f.isCause .dependency then raise require rest else pure (.error f)

/-- An attempt at a phase: the item raises what it needs there, and then may fail. -/
def Item.replay {m : Type → Type} [Monad m] (i : Item) (p : Phase)
    (require : String → Phase → m (Except Failure Unit)) : m (Except Failure Unit) := do
  match ← raise require (i.needs.filter (·.raised = p)) with
  | .error f => pure (.error f)
  | .ok () =>
    pure (if i.fail = p then .error (.within s!"{i.name} at {p.name}" (.known .injected)) else .ok ())

end Plan

end Comptime
