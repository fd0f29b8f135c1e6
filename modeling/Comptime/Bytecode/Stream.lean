import Comptime.Failure
import Comptime.Bytecode.Code

/-!
# Code under construction

A `Stream` is a sequence of instructions that can still be inserted into. An instruction is addressed by the handle it
got when it was emitted, and a table of places says where in the program order it stands now. Insertions nest: what is
emitted between `openBefore` and `commit` is held back in a buffer and spliced in front of its anchor, wherever the
anchor has moved to by then.
-/

namespace Comptime

/-- Instructions held back to be put in front of an anchor. -/
structure Insertion where
  anchor : Nat
  held : List Nat
deriving DecidableEq, Repr, Inhabited

structure Stream where
  /-- Instructions by handle. -/
  code : Array Instr := #[]
  /-- Handles in program order. -/
  order : List Nat := []
  /-- The position of every handle, `none` while it is held back. -/
  places : Array (Option Nat) := #[]
  /-- Open insertions, innermost first. -/
  insertions : List Insertion := []
  /-- How many times the program order has been inserted into. -/
  generation : Nat := 0
deriving DecidableEq, Repr, Inhabited

/-- A position in program order, good until the next insertion. -/
structure Position where
  index : Int := 0
  generation : Nat := 0
deriving DecidableEq, Repr, Inhabited

namespace Stream

/-- A stream operation called outside its contract. -/
inductive Misuse where
  | unknownHandle (h : Int) (handles : Nat)
  | nothingToCommit
  | lostAnchor (h : Nat)
  | notPlaced (h : Nat)
  | stalePosition (index : Int) (taken now : Nat)
  | noSuchPosition (index : Int) (len : Nat)
  | openInsertions (n : Nat)
  | unpatchedTarget (branch : Nat)
  | notARegion (branch : Nat) (target : Int) (found : Instr)
  /-- A target that was never emitted. -/
  | unknownTarget (target : Int)
deriving DecidableEq, Repr

def Misuse.toAbort : Misuse → Abort
  | unknownHandle h n => .bug s!"instruction handle out of range: {h} (have {n})"
  | nothingToCommit => .bug "commit without begin"
  | lostAnchor h => .bug s!"insertion anchor {h} is not in the stream"
  | notPlaced h => .bug s!"instruction {h} is not placed yet"
  | stalePosition i taken now => .bug s!"stale position {i}: taken at generation {taken}, stream is at {now}"
  | noSuchPosition i n => .bug s!"position out of range: {i} (len {n})"
  | openInsertions n => .bug s!"freeze with {n} open insertions"
  | unpatchedTarget b => .bug s!"branch {b} has unpatched target"
  | notARegion b t x => .bug (s!"branch {b} targets {t} which is not a region: " ++ x.kind)
  | unknownTarget _ => .fault

/-- The number of instructions in program order. -/
def len (s : Stream) : Nat := s.order.length

/-- The number of handles given out. -/
def handles (s : Stream) : Nat := s.code.size

def inserting (s : Stream) : Bool := !s.insertions.isEmpty

/-- A handle that has been given out. -/
def check (s : Stream) (h : Int) : Except Misuse Nat :=
  if 0 ≤ h ∧ h < s.handles then .ok h.toNat else .error (.unknownHandle h s.handles)

/-- Appends to the innermost open insertion, or to the program order. -/
def emit (s : Stream) (x : Instr) : Stream × Nat :=
  let h := s.handles
  match s.insertions with
  | [] =>
    ({ s with code := s.code.push x, places := s.places.push (some s.len), order := s.order ++ [h] }, h)
  | b :: bs =>
    ({ s with code := s.code.push x, places := s.places.push none,
              insertions := { b with held := b.held ++ [h] } :: bs }, h)

/-- The instruction of a handle. -/
def at? (s : Stream) (h : Int) : Except Misuse Instr := do
  let h ← s.check h
  return s.code.getD h .hole

/-- Replaces the instruction of a handle. -/
def set? (s : Stream) (h : Int) (x : Instr) : Except Misuse Stream := do
  let h ← s.check h
  return { s with code := s.code.setIfInBounds h x }

/-- Opens an insertion in front of a handle. -/
def openBefore? (s : Stream) (anchor : Int) : Except Misuse Stream := do
  let anchor ← s.check anchor
  return { s with insertions := ⟨anchor, []⟩ :: s.insertions }

/-- The place of a handle. -/
def place (s : Stream) (h : Nat) : Option Nat := (s.places[h]?).join

/-- Notes the positions of a stretch of the program order that starts at `pos`. -/
def renumber (pos : Nat) : List Nat → Array (Option Nat) → Array (Option Nat)
  | [], places => places
  | h :: hs, places => renumber (pos + 1) hs (places.setIfInBounds h (some pos))

/-- Splices handles into the program order in front of a position. -/
def insertAt (s : Stream) (pos : Nat) (hs : List Nat) : Stream :=
  let tail := hs ++ s.order.drop pos
  { s with
    order := s.order.take pos ++ tail
    places := renumber pos tail s.places
    generation := s.generation + 1 }

/-- Splices `hs` in front of `anchor` where a buffer holds it; `none` if it does not. -/
def splice? (anchor : Nat) (hs held : List Nat) : Option (List Nat) :=
  if anchor ∈ held then some (held.takeWhile (· != anchor) ++ hs ++ held.dropWhile (· != anchor)) else none

/-- Splices into the innermost insertion that holds the anchor. -/
def spliceHeld? (anchor : Nat) (hs : List Nat) : List Insertion → Option (List Insertion)
  | [] => none
  | b :: bs => match splice? anchor hs b.held with
    | some held => some ({ b with held } :: bs)
    | none => (spliceHeld? anchor hs bs).map (b :: ·)

/-- Closes the innermost insertion. One that holds nothing leaves no trace. -/
def commit? (s : Stream) : Except Misuse Stream :=
  match s.insertions with
  | [] => .error .nothingToCommit
  | b :: bs =>
    let s := { s with insertions := bs }
    if b.held.isEmpty then .ok s
    else match s.place b.anchor with
      | some pos => .ok (s.insertAt pos b.held)
      | none => match spliceHeld? b.anchor b.held bs with
        | some bs => .ok { s with insertions := bs }
        | none => .error (.lostAnchor b.anchor)

/-- The current position of a handle. -/
def placeOf? (s : Stream) (h : Int) : Except Misuse Nat := do
  let h ← s.check h
  match s.place h with
  | some p => return p
  | none => throw (.notPlaced h)

def placed? (s : Stream) (h : Int) : Except Misuse Bool := do
  let h ← s.check h
  return (s.place h).isSome

def position? (s : Stream) (h : Int) : Except Misuse Position := do
  let i ← s.placeOf? h
  return ⟨i, s.generation⟩

/-- The instruction at a position. One that was taken before the last insertion is refused. -/
def atPosition? (s : Stream) (p : Position) : Except Misuse Instr := do
  if p.generation ≠ s.generation then throw (.stalePosition p.index p.generation s.generation)
  if p.index < 0 then throw (.noSuchPosition p.index s.len)
  match s.order[p.index.toNat]? with
  | some h => return s.code.getD h .hole
  | none => throw (.noSuchPosition p.index s.len)

/-- The position a branch leads to, for the target it names by handle. -/
def resolve? (s : Stream) (branch : Nat) (target : Handle) : Except Misuse Int := do
  if target = noHandle then throw (.unpatchedTarget branch)
  if target < 0 then throw (.unknownTarget target)
  match s.code[target.toNat]? with
  | none => throw (.unknownTarget target)
  | some .region => return (← s.placeOf? target)
  | some x => throw (.notARegion branch target x)

/-- An instruction with its branch targets as positions. -/
def freezeInstr? (s : Stream) (h : Nat) : Except Misuse Instr :=
  match s.code.getD h .hole with
  | .branch test arms default => do
    let arms ← arms.mapM fun a => do return { a with target := ← s.resolve? h a.target }
    return .branch test arms (← s.resolve? h default)
  | x => .ok x

/-- The instructions in program order with branch targets as positions. -/
def freeze? (s : Stream) : Except Misuse (Array Instr) := do
  if s.inserting then throw (.openInsertions s.insertions.length)
  return (← s.order.mapM s.freezeInstr?).toArray

end Stream

end Comptime
