import Comptime.Lowering.Builder

/-!
# Scopes and deferred statements

A block opens a scope, and a scope collects the statements deferred in it. A deferred statement is kept as what lowering
it does to the scopes around its own, so the scopes at depth `n + 1` are the scopes at depth `n` together with actions on
those.

When control leaves scopes, `replay` runs what they deferred, innermost scope first and in reverse order. An action that
defers something itself adds it to the scope around the one being left, which is left next if control goes that far. Once
an action has opened a scope of its own, what is deferred at that level no longer reaches the scopes being left.
-/

namespace Comptime

/-- The scopes at a depth, each with the actions deferred in it, in order. -/
def Scopes : Nat → Type
  | 0 => Unit
  | n + 1 => Scopes n × List (Scopes n → Build (Scopes n))

/-- An action on the scopes at a depth. -/
abbrev Deferred (n : Nat) := Scopes n → Build (Scopes n)

namespace Scopes

def outer {n : Nat} (s : Scopes (n + 1)) : Scopes n := s.1

def deferred {n : Nat} (s : Scopes (n + 1)) : List (Deferred n) := s.2

def push {n : Nat} (s : Scopes n) (ds : List (Deferred n)) : Scopes (n + 1) := (s, ds)

/-- Defers an action in the innermost scope; there has to be one. -/
def defer : (n : Nat) → Scopes n → ((m : Nat) → Deferred m) → Build (Scopes n)
  | 0, _, _ => Build.fault
  | n + 1, s, d => pure (s.outer.push (s.deferred ++ [d n]))

end Scopes

namespace Build

/-- Runs actions one after the other. `kept` is how the scopes look to those that are left afterwards. -/
def runDeferred {n : Nat} : List (Deferred n) → (current kept : Scopes n) → Build (Scopes n)
  | [], _, kept => pure kept
  | d :: ds, current, kept => do
    let current ← d current
    let linked := (← get).linked
    runDeferred ds current (if linked then current else kept)

/-- Leaves the scopes deeper than `depth`, as far as what they deferred goes. -/
def leaveScopes (depth : Nat) : (n : Nat) → Scopes n → Build (Scopes n)
  | 0, s => pure s
  | n + 1, s =>
    if n < depth then pure s
    else do
      modify fun b => { b with linked := true }
      let outer ← runDeferred s.deferred.reverse s.outer s.outer
      let outer ← leaveScopes depth n outer
      return outer.push s.deferred

/-- Runs what the scopes deeper than `depth` have deferred. The scopes themselves stay. -/
def replay (depth n : Nat) (s : Scopes n) : Build (Scopes n) := do
  let linked := (← get).linked
  let s ← leaveScopes depth n s
  modify fun b => { b with linked }
  return s

/-- Runs `body` in a new scope, and what it deferred if control reaches its end. -/
def inScope (n : Nat) (s : Scopes n) (body : Scopes (n + 1) → Build (Scopes (n + 1))) : Build (Scopes n) := do
  modify fun b => { b with linked := false }
  let s ← body (s.push [])
  let s ← if (← get).dead then pure s else replay n (n + 1) s
  return s.outer

end Build

end Comptime
