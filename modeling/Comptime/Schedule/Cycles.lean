import Comptime.Schedule.Pool

/-!
# Cycles of waiting entities

The wait-for graph has the unfailed entities as its nodes and their unsatisfied edges as its edges. `Pool.detectCycles`
walks what can be reached from a queue, depth first, and splits it into strongly connected components. The members of a
component with more than one entity, or with an edge to itself, wait for each other and can never go on: they fail. So
does an entity outside that waits for one of them, in the same walk.
-/

namespace Comptime

namespace Pool

variable {ν : Type}

/-- What the walk knows about an entity it has come to. -/
structure Mark where
  /-- The order in which the entity was come to. -/
  index : Nat
  /-- The least `index` known to be reachable inside the same component. -/
  low : Nat
  /-- The component the entity belongs to, once that is complete. -/
  component : Option Nat := none

/-- A walk over the wait-for graph that is under way. -/
structure Walk (ν : Type) where
  pool : Pool ν
  marks : Array (Option Mark)
  /-- The entities whose component is not complete, the latest first. -/
  stack : List Nat := []
  /-- How many entities the walk has come to. -/
  counter : Nat := 0
  /-- How many components are complete. -/
  components : Nat := 0
  /-- How many entities the walk has marked as failed. -/
  failed : Nat := 0

namespace Walk

def start (p : Pool ν) : Walk ν := { pool := p, marks := Array.replicate p.size none }

def mark? (w : Walk ν) (i : Nat) : Option Mark := w.marks.getD i none

def setMark (w : Walk ν) (i : Nat) (m : Mark) : Walk ν := { w with marks := w.marks.setIfInBounds i (some m) }

/-- The walk comes to an entity. -/
def enter (w : Walk ν) (v : Nat) : Walk ν :=
  { w.setMark v { index := w.counter, low := w.counter } with counter := w.counter + 1, stack := v :: w.stack }

/-- The entity can reach one with that index in its own component. -/
def lower (w : Walk ν) (v low : Nat) : Walk ν :=
  match w.mark? v with
  | some m => w.setMark v { m with low := min m.low low }
  | none => w

/-- Marks an entity as failed, and counts it. -/
def fail (w : Walk ν) (v : Nat) (kind : ErrorKind) (cause : Failure) : Walk ν :=
  { w with pool := w.pool.update v (·.setError kind cause), failed := w.failed + 1 }

/-- What has been seen among the edges of one entity. -/
structure Seen where
  /-- An edge leads back to the entity itself. -/
  self : Bool := false
  /-- An edge leads to an entity that failed for a cycle. -/
  taint : Bool := false

/-- Follows one edge of `v`; `visit` walks on from an entity that is new. -/
def follow (visit : Nat → Walk ν → Walk ν) (v : Nat) : Walk ν × Seen → Dep → Walk ν × Seen
  | (w, seen), d =>
    if w.pool.satisfied d then (w, seen)
    else
      let target := w.pool.entity d.target
      -- a failed entity is not walked to, but a cycle behind it still matters
      if target.failed then (w, { seen with taint := seen.taint || target.err.isCyclic })
      else
        let seen := { seen with self := seen.self || d.target == v }
        match w.mark? d.target with
        | none =>
          let w := visit d.target w
          let low := ((w.mark? d.target).map Mark.low).getD w.counter
          (w.lower v low, { seen with taint := seen.taint || (w.pool.entity d.target).err.isCyclic })
        -- what is closed reaches nothing that is on the stack
        | some m => (if m.component.isNone then w.lower v m.index else w, seen)

/-- The members of the component of `v`, which reaches no earlier entity of the stack: all down to `v` itself. -/
def members (v : Nat) : List Nat → List Nat
  | [] => []
  | x :: rest => if x = v then [x] else x :: members v rest

/-- Closes the component of `v` and fails those that can never go on. -/
def close (w : Walk ν) (v : Nat) (seen : Seen) : Walk ν :=
  let ms := members v w.stack
  let w := ms.foldl (fun w x => match w.mark? x with
    | some m => w.setMark x { m with component := some w.components }
    | none => w) w
  let w := { w with stack := w.stack.drop ms.length, components := w.components + 1 }
  if ms.length > 1 || seen.self then
    let listed := "entities [" ++ " ".intercalate (ms.map toString) ++ "]"
    ms.foldl (fun w x => w.fail x .cycle (.within listed (.known .cycle))) w
  else if seen.taint then
    w.fail v .cycleDependent (.within s!"entity {v} waits on a cycle" (.known .cycle))
  else w

/-- Walks on from an entity that is new. No path of new entities is longer than `fuel`. -/
def visit : (fuel : Nat) → Nat → Walk ν → Walk ν
  | 0, _, w => w
  | fuel + 1, v, w =>
    let (w, seen) := ((w.pool.entity v).deps).foldl (follow (visit fuel) v) (w.enter v, {})
    -- unless it reaches an earlier entity, its component is complete
    match w.mark? v with
    | some m => if m.low = m.index then w.close v seen else w
    | none => w

/-- The walk sets out from an entity that waits for something, unless it has been there. -/
def setOut (w : Walk ν) (v : Nat) : Walk ν :=
  let e := w.pool.entity v
  if e.failed || (w.mark? v).isSome || e.deps.isEmpty then w else visit w.pool.size v w

end Walk

/-- Fails every entity that can be reached from the queue and can never go on. -/
def detectCycles (p : Pool ν) (queue : List Nat) : Walk ν := queue.foldl Walk.setOut (Walk.start p)

end Pool

end Comptime
