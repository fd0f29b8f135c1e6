import Comptime.Failure
import Comptime.Schedule.ErrorKind
import Comptime.Schedule.Phase

/-!
# The pool of entities

An entity is what is known about one declaration on its way through the phases: the phase it has reached, the entities
it waits for, and the error that stopped it. Entities refer to each other by index only. The index of an entity that was
freed is given to a later one, the lowest index first.
-/

namespace Comptime

/-- A wait-for edge: the target has to reach the phase. -/
structure Dep where
  target : Nat
  phase : Phase
deriving DecidableEq, Repr

structure Entity (ν : Type) where
  /-- What the entity stands for. A freed entity stands for nothing. -/
  node : Option ν
  phase : Phase
  /-- At most one edge to each target. -/
  deps : List Dep := []
  err : ErrorKind := .ok
  cause : Option Failure := none

namespace Entity

variable {ν : Type}

def failed (e : Entity ν) : Bool := e.err != .ok

/-- A freed entity, until its index is used again. -/
def vacant : Entity ν := { node := none, phase := .uninitialized }

/-- An entity that has been read and nothing more. -/
def fresh (n : ν) : Entity ν := { node := some n, phase := .parsed }

/-- Records an edge. A second edge to the same target asks for the later of the two phases. -/
def need (e : Entity ν) (d : Dep) : Entity ν :=
  if e.deps.any (·.target == d.target) then
    { e with deps := e.deps.map fun x =>
        if x.target = d.target then { x with phase := if x.phase < d.phase then d.phase else x.phase } else x }
  else
    { e with deps := e.deps ++ [d] }

/-- Marks the entity, unless it carries an error already: the first one stays. -/
def setError (e : Entity ν) (kind : ErrorKind) (cause : Failure) : Entity ν :=
  if e.failed then e else { e with err := kind, cause := some cause }

end Entity

structure Pool (ν : Type) where
  entities : Array (Entity ν) := #[]
  /-- The index of every node that has an entity. What is in front counts. -/
  byNode : List (ν × Nat) := []
  /-- The indexes of the freed entities, in increasing order. -/
  free : List Nat := []

namespace Pool

variable {ν : Type}

def size (p : Pool ν) : Nat := p.entities.size

/-- The index as a position of the pool. -/
def position (p : Pool ν) (id : Int) : Except Abort Nat :=
  if 0 ≤ id ∧ id < p.size then
    .ok id.toNat
  else
    .error (.refused (some (s!"entity index out of range: {id} (len {p.size})")))

/-- The entity at a position. Beyond the end there are only vacant ones. -/
def entity (p : Pool ν) (i : Nat) : Entity ν := p.entities.getD i .vacant

protected def get (p : Pool ν) (id : Int) : Except Abort (Entity ν) := p.entity <$> p.position id

/-- Changes the entity at a position, if there is one. -/
def update (p : Pool ν) (i : Nat) (f : Entity ν → Entity ν) : Pool ν :=
  { p with entities := p.entities.modify i f }

protected def modify (p : Pool ν) (id : Int) (f : Entity ν → Entity ν) : Except Abort (Pool ν) :=
  (p.update · f) <$> p.position id

/-- The index of the live entity of a node. -/
def lookup [BEq ν] (p : Pool ν) (n : ν) : Option Nat := p.byNode.lookup n

/-- Puts an index among others, which are in increasing order. -/
def insertFree (i : Nat) : List Nat → List Nat
  | [] => [i]
  | j :: rest => if i ≤ j then i :: j :: rest else j :: insertFree i rest

/-- Something done to a pool, one change after the other. What was changed before a contract was broken stays changed. -/
abbrev Edit (ν : Type) := EStateM Abort (Pool ν)

namespace Edit

/-- Takes the lowest freed index, or else one more at the end. -/
def takeIndex : Edit ν Nat := do
  let p ← get
  match p.free with
  | i :: rest =>
    set { p with free := rest }
    return i
  | [] =>
    set { p with entities := p.entities.push .vacant }
    return p.size

def add [BEq ν] [ToString ν] (n : ν) : Edit ν Nat := do
  let p ← get
  if (p.lookup n).isSome then
    throw (.refused (some ("node registered twice: " ++ toString n)))
  let i ← takeIndex
  modify (·.update i fun _ => .fresh n)
  modify fun p => { p with byNode := (n, i) :: p.byNode }
  return i

def release [BEq ν] (id : Int) : Edit ν Unit := do
  let p ← get
  let i ← MonadExcept.ofExcept (p.position id)
  let e := p.entity i
  match e.node with
  | none => throw (.refused (some s!"entity {i} freed twice"))
  | some n =>
    if e.phase ≠ Phase.run ∧ ¬ e.failed then
      throw (.refused (some s!"entity {i} freed in phase {e.phase.name}"))
    modify fun p => { p with byNode := p.byNode.filter (·.1 != n) }
    modify (·.update i fun _ => .vacant)
    modify fun p => { p with free := insertFree i p.free }

/-- What an edit gives, and the pool then, unless a contract was broken. -/
def outcome {α : Type} (x : Edit ν α) (p : Pool ν) : Except Abort (Pool ν × α) :=
  match x p with
  | .ok a p => .ok (p, a)
  | .error a _ => .error a

end Edit

/-- Adds an entity for a node that has none, at the lowest freed index or else at the end. -/
def add [BEq ν] [ToString ν] (p : Pool ν) (n : ν) : Except Abort (Pool ν × Nat) := (Edit.add n).outcome p

/-- Gives up an entity that is finished or failed. -/
def release [BEq ν] (p : Pool ν) (id : Int) : Except Abort (Pool ν) := Prod.fst <$> (Edit.release id).outcome p

/-- The edge is out of date: its target has reached the phase. -/
def satisfied (p : Pool ν) (d : Dep) : Bool := d.phase ≤ (p.entity d.target).phase

/-- Like `satisfied`, for an index that nobody has checked. -/
def satisfied? (p : Pool ν) (target : Int) (phase : Phase) : Except Abort Bool :=
  if 0 ≤ target ∧ target < p.size then .ok (p.satisfied ⟨target.toNat, phase⟩) else .error .fault

/-- Records a wait-for edge. -/
def need (p : Pool ν) (id target : Int) (phase : Phase) : Except Abort (Pool ν) := do
  let i ← p.position id
  let t ← p.position target
  return p.update i (·.need ⟨t, phase⟩)

def setError (p : Pool ν) (id : Int) (kind : ErrorKind) (cause : Failure) : Except Abort (Pool ν) :=
  p.modify id (·.setError kind cause)

def anyFailed (p : Pool ν) : Bool := p.entities.any (·.failed)

def failedCount (p : Pool ν) : Nat := p.entities.countP (·.failed)

/-- Asks that the target has reached a phase. If it has not, and may still get there, the edge is recorded. -/
def require (p : Pool ν) (self target : Int) (phase : Phase) : Except Abort (Pool ν × Except Failure Unit) := do
  let t ← p.position target
  let e := p.entity t
  if phase ≤ e.phase then
    return (p, .ok ())
  if e.failed then
    return (p, .error (.within s!"entity {t} ({e.err.name})" (.known .dependency)))
  let p ← p.need self target phase
  return (p, .error (.within s!"wait for {t} to reach {phase.name}" (.known .yield)))

/-- What is reported about a failed entity. -/
structure Diagnostic (ν : Type) where
  id : Nat
  node : Option ν
  kind : ErrorKind
  cause : Option Failure

/-- The failed entities, by index. -/
def diagnostics (p : Pool ν) : List (Diagnostic ν) :=
  p.entities.toList.zipIdx.filterMap fun (e, i) =>
    if e.failed then some { id := i, node := e.node, kind := e.err, cause := e.cause } else none

end Pool

end Comptime
