import Comptime.Schedule.Cycles

/-!
# The scheduler

The scheduler takes entities through the phases. Each phase has a queue of the entities that are to attempt it and a
handler that makes the attempt. A handler that needs something another entity has not done yet asks for it, gives up for
now and is called again later. Rounds over all the phases are repeated until nothing is outstanding; a round in which
nothing moved would be repeated for ever and is a deadlock.
-/

namespace Comptime

/-- The entities waiting to attempt each phase. Nothing waits for a phase that is reached without a handler. -/
structure Queues where
  typeChecked : List Nat := []
  sizeComputed : List Nat := []
  bytecodeBuilt : List Nat := []
  run : List Nat := []

namespace Queues

def get (q : Queues) (p : Phase) : List Nat :=
  match p.rank with
  | 2 => q.typeChecked
  | 3 => q.sizeComputed
  | 4 => q.bytecodeBuilt
  | 5 => q.run
  | _ => []

def set (q : Queues) (p : Phase) (l : List Nat) : Queues :=
  match p.rank with
  | 2 => { q with typeChecked := l }
  | 3 => { q with sizeComputed := l }
  | 4 => { q with bytecodeBuilt := l }
  | 5 => { q with run := l }
  | _ => q

/-- All the queued entities. -/
def all (q : Queues) : List Nat := q.typeChecked ++ q.sizeComputed ++ q.bytecodeBuilt ++ q.run

end Queues

structure Scheduler (ν : Type) where
  pool : Pool ν := {}
  queues : Queues := {}
  /-- The phases that have a handler. The others complete at once. -/
  handled : List Phase := []
  rounds : Nat := 0

namespace Scheduler

variable {ν σ : Type}

/-- Has the handler called for entities that attempt the phase. -/
def setHandler (s : Scheduler ν) (p : Phase) : Except Abort (Scheduler ν) :=
  if .parsed < p ∧ p ≤ .run then
    .ok { s with handled := p :: s.handled }
  else
    .error (.refused (some ("no handler for phase " ++ p.name)))

/-- Adds an entity and queues it for type checking. -/
def register [BEq ν] [ToString ν] (s : Scheduler ν) (n : ν) : Except Abort (Scheduler ν × Nat) := do
  let (pool, id) ← s.pool.add n
  return ({ s with pool, queues := { s.queues with typeChecked := s.queues.typeChecked ++ [id] } }, id)

/-- The entities waiting to attempt a phase. -/
def queue? (s : Scheduler ν) (p : Phase) : Except Abort (List Nat) :=
  if .uninitialized ≤ p ∧ p ≤ .run then .ok (s.queues.get p) else .error .fault

/-- How many of the queued entities have not failed. -/
def outstanding (s : Scheduler ν) : Nat := s.queues.all.countP fun id => !(s.pool.entity id).failed

/-- The scheduler, and what the handlers keep for themselves. -/
structure World (ν σ : Type) where
  scheduler : Scheduler ν
  own : σ

/-- Something that acts on the scheduler. What it did before it broke a contract stays done. -/
abbrev Act (ν σ : Type) := EStateM Abort (World ν σ)

/-- Makes an entity attempt a phase. It succeeds, fails for good, or yields: it is called again once every entity it
waits for has got there or failed. -/
abbrev Handler (ν σ : Type) := Phase → Nat → Act ν σ (Except Failure Unit)

namespace Act

def scheduler : Act ν σ (Scheduler ν) := do return (← get).scheduler

def modifyScheduler (f : Scheduler ν → Scheduler ν) : Act ν σ Unit :=
  modify fun w => { w with scheduler := f w.scheduler }

def own : Act ν σ σ := do return (← get).own

def modifyOwn (f : σ → σ) : Act ν σ Unit := modify fun w => { w with own := f w.own }

def abort {α : Type} (a : Abort) : Act ν σ α := throw a

/-- Goes on with a scheduler that may turn out not to exist. -/
def change {α : Type} (f : Scheduler ν → Except Abort (Scheduler ν × α)) : Act ν σ α := do
  match f (← scheduler) with
  | .ok (s, a) =>
    modifyScheduler fun _ => s
    return a
  | .error a => abort a

def require (self target : Int) (p : Phase) : Act ν σ (Except Failure Unit) :=
  change fun s => do
    let (pool, r) ← s.pool.require self target p
    return ({ s with pool }, r)

def updateEntity (id : Nat) (f : Entity ν → Entity ν) : Act ν σ Unit :=
  modifyScheduler fun s => { s with pool := s.pool.update id f }

end Act

/-- Drops the edges that are out of date and those to failed entities, and says whether any are left. -/
def settle (s : Scheduler ν) (id : Nat) : Scheduler ν × Bool :=
  let deps := (s.pool.entity id).deps.filter fun d => !(s.pool.satisfied d || (s.pool.entity d.target).failed)
  ({ s with pool := s.pool.update id fun e => { e with deps } }, !deps.isEmpty)

open Act

/-- One attempt at a phase by an entity that is not waiting: is it to stay in the queue, and has anything moved? -/
def attempt (handle : Handler ν σ) (p : Phase) (id : Nat) : Act ν σ (Bool × Bool) := do
  let result ← if p ∈ (← scheduler).handled then handle p id else pure (.ok ())
  match result with
  | .ok () =>
    updateEntity id fun e => { e with phase := p, deps := [] }
    modifyScheduler fun s => { s with queues := s.queues.set p.succ (s.queues.get p.succ ++ [id]) }
    return (false, true)
  | .error f =>
    if f.isCause .yield then
      -- it was not waiting before, so every recorded edge is new
      return (true, !((← scheduler).pool.entity id).deps.isEmpty)
    updateEntity id (·.setError (if f.isCause .dependency then .dependency else .semantic) f)
    return (false, true)

/-- Gives every queued entity its turn, and tells which are to stay and whether anything has moved. -/
def turns (handle : Handler ν σ) (p : Phase) : List Nat → Act ν σ (List Nat × Bool)
  | [] => return ([], false)
  | id :: rest => do
    let s ← scheduler
    let (stays, moved) ←
      if (s.pool.entity id).failed then pure (false, true)
      else
        let (s, waits) := s.settle id
        modifyScheduler fun _ => s
        if waits then pure (true, false) else attempt handle p id
    let (kept, more) ← turns handle p rest
    return (if stays then id :: kept else kept, moved || more)

/-- Gives the queue of a phase its turns. Those that stay come before those that were queued meanwhile. -/
def runPhase (handle : Handler ν σ) (p : Phase) : Act ν σ Bool := do
  let queued := (← scheduler).queues.get p
  modifyScheduler fun s => { s with queues := s.queues.set p [] }
  let (kept, moved) ← turns handle p queued
  modifyScheduler fun s => { s with queues := s.queues.set p (kept ++ s.queues.get p) }
  return moved

/-- Fails the entities that can never go on, and tells whether there were any. -/
def failCycles (p : Phase) : Act ν σ Bool := do
  let s ← scheduler
  let walk := s.pool.detectCycles (s.queues.get p)
  modifyScheduler fun s => { s with pool := walk.pool }
  return walk.failed != 0

/-- Goes over the given phases, and tells whether anything has moved. -/
def phases (handle : Handler ν σ) : List Phase → Act ν σ Bool
  | [] => return false
  | p :: rest => do
    let moved ←
      if ((← scheduler).queues.get p).isEmpty then pure false
      else
        let broken ← failCycles p
        let moved ← runPhase handle p
        pure (broken || moved)
    let more ← phases handle rest
    return moved || more

/-- How a run ends, given what is left of it. -/
def verdict (s : Scheduler ν) : Except Failure Unit :=
  match s.pool.failedCount with
  | 0 => .ok ()
  | n => .error (.within s!"{n} declarations with errors" (.known .failed))

def deadlock (s : Scheduler ν) : Failure :=
  .within s!"round {s.rounds}: {s.outstanding} entities outstanding" (.known .deadlock)

/-- One round over all the phases. It tells how the run ends, if it does: nothing is outstanding, or nothing moved. -/
def round (handle : Handler ν σ) : Act ν σ (Option (Except Failure Unit)) := do
  let s ← scheduler
  if s.outstanding = 0 then
    return some s.verdict
  modifyScheduler fun s => { s with rounds := s.rounds + 1 }
  if ← phases handle Phase.handled then
    return none
  else
    return some (.error (← scheduler).deadlock)

/-- The least solution of the equation of `repeatRounds`. -/
def repeatRounds._loop (handle : Handler ν σ) (w : World ν σ) :
    Option (EStateM.Result Abort (World ν σ) (Except Failure Unit)) :=
  match (round handle).run w with
  | .ok none w => _loop handle w
  | .ok (some r) w => some (.ok r w)
  | .error a w => some (.error a w)
partial_fixpoint

/-- Repeats rounds until the run ends. A run that never ends has no result. -/
def repeatRounds (handle : Handler ν σ) (w : World ν σ) :
    Option (EStateM.Result Abort (World ν σ) (Except Failure Unit)) := repeatRounds._loop handle w

/-- Takes every entity through the phases, until it is finished or failed. -/
def run (handle : Handler ν σ) : Act ν σ (Except Failure Unit) := fun w =>
  match repeatRounds handle w with
  | some r => r
  | none => .ok (.error w.scheduler.deadlock) w

end Scheduler

end Comptime
