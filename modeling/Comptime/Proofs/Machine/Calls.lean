import Comptime.Proofs.Machine.Procs

/-!
# Calls end

A step counts itself, and a run with a step limit is over once it has counted one more. Each frame knows the stack pointer
to go back to, so that the frames of a run stand on the depth and the stack pointer with which it began (`Run.Stands`), and
however it ends the machine is left with both.
-/

namespace Comptime

open List Machine

/-- The stack pointer once the frames that wait are left, given what it is before. -/
def Machine.floor (sp : Nat) : List Waiting → Nat
  | [] => sp
  | w :: ws => floor w.frame.base ws

/-- With the frames that wait left, the machine has a depth and a stack pointer again, and it has counted `n` steps. -/
structure Machine.Rests (l : Limits) (d sp n : Nat) (m : Machine) (ws : List Waiting) : Prop where
  limits : m.limits = l
  steps : m.steps = n
  depth : m.depth = d + ws.length
  floor : floor m.memory.sp ws = sp

/-- The frames of a run stand on a depth and a stack pointer, and it has counted `n` steps. -/
def Run.Stands (l : Limits) (d sp n : Nat) : Run → Prop
  | .running m f ws => Rests l d sp n (m.leave f) ws ∧ m.depth = d + ws.length + 1 ∧ (m.depth : Int) ≤ l.maxDepth
  | .returned m _ | .halted m _ => Rests l d sp n m []

namespace Machine

variable {l : Limits} {d sp n : Nat} {m : Machine} {f g : Frame} {ws : List Waiting} {h : Halt} {x : Instr} {r : Run}

theorem Rests.unwind (hRests : m.Rests l d sp n ws) : ∃ m', m.unwind h ws = .halted m' h ∧ m'.Rests l d sp n [] := by
  induction ws generalizing m with
  | nil => exact ⟨m, rfl, hRests⟩
  | cons w ws ih =>
    have hDepth := hRests.depth
    rw [length_cons] at hDepth
    refine ih { hRests with depth := ?_ }
    show m.depth - 1 = d + ws.length
    omega

theorem Rests.stands_unwind (hRests : m.Rests l d sp n ws) : (m.unwind h ws).Stands l d sp n := by
  obtain ⟨m', hHalt, hRests'⟩ := hRests.unwind (h := h)
  rw [hHalt]
  exact hRests'

/-- Entering a procedure puts a frame on the others, or leaves them all. -/
theorem Rests.enter {p : Proc} {args : List UInt64} (hRests : m.Rests l d sp n ws) :
    (m.enter p args ws).Stands l d sp n := by
  obtain ⟨hLimits, hSteps, hDepth, hFloor⟩ := hRests
  rw [Machine.enter]
  split
  · exact Rests.stands_unwind ⟨hLimits, hSteps, hDepth, hFloor⟩
  split
  · exact Rests.stands_unwind ⟨hLimits, hSteps, hDepth, hFloor⟩
  next hDeep =>
  dsimp only
  split
  · exact Rests.stands_unwind ⟨hLimits, hSteps, hDepth, hFloor⟩
  · have hDeep' : ((m.depth + 1 : Nat) : Int) ≤ l.maxDepth := by
      rw [hLimits] at hDeep
      omega
    exact ⟨⟨hLimits, hSteps, hDepth, hFloor⟩, congrArg (· + 1) hDepth, hDeep'⟩

theorem Rests.halt (hRests : (m.leave f).Rests l d sp n ws) (hBase : g.base = f.base) (mem : Memory) :
    (Machine.halt { m with memory := mem } g ws h).Stands l d sp n := by
  refine Rests.stands_unwind { hRests with floor := ?_ }
  show Machine.floor g.base ws = sp
  rw [hBase]
  exact hRests.floor

variable (hStands : (Run.running m f ws).Stands l d sp n)

include hStands

theorem finish_stands {v : UInt64} : (m.finish f v ws).Stands l d sp n := by
  obtain ⟨hRests, -, hDeep⟩ := hStands
  cases ws with
  | nil => exact hRests
  | cons w ws =>
    obtain ⟨hLimits, hSteps, hDepth, hFloor⟩ := hRests
    have hDepth' : m.depth - 1 = d + ws.length + 1 := hDepth
    have hLow : ((m.depth - 1 : Nat) : Int) ≤ l.maxDepth := by omega
    have hCaller : ((m.leave f).leave w.frame).Rests l d sp n ws := by
      refine ⟨hLimits, hSteps, ?_, hFloor⟩
      show m.depth - 1 - 1 = d + ws.length
      omega
    simp only [finish]
    split
    · exact ⟨hCaller, hDepth', hLow⟩
    split
    · next g hDefine =>
      obtain ⟨rfl, -⟩ := Frame.define?_eq_some hDefine
      exact ⟨hCaller, hDepth', hLow⟩
    · exact hCaller.halt rfl (m.leave f).memory

/-- **Executing an instruction leaves the frames standing where they stood.** -/
theorem Does.stands (hDoes : m.Does f ws x r) : r.Stands l d sp n := by
  obtain ⟨hRests, hDepth, hDeep⟩ := id hStands
  have hGoesOn {mem : Memory} {g : Frame} (hBase : g.base = f.base) :
      (Run.running { m with memory := mem } g ws).Stands l d sp n := by
    refine ⟨{ hRests with floor := ?_ }, hDepth, hDeep⟩
    show floor g.base ws = sp
    rw [hBase]
    exact hRests.floor
  cases hDoes with
  | passes _ hPasses => exact hGoesOn hPasses.base
  | takes _ _ hDefine =>
    obtain ⟨rfl, -⟩ := Frame.define?_eq_some hDefine
    exact hGoesOn rfl
  | calls => exact Rests.enter { hRests with depth := hDepth }
  | returns => exact finish_stands hStands
  | @halts mem => exact hRests.halt rfl mem

end Machine

namespace Run

variable {l : Limits} {d sp n : Nat} {r : Run}

/-- What a call gives whose run has ended. -/
def answer? : Run → Option (Machine × Except Halt UInt64)
  | .running .. => none
  | .returned m v => some (m, .ok v)
  | .halted m h => some (m, .error h)

end Run

namespace Machine

variable {m m1 : Machine} {name : String} {args : List UInt64} {i : Nat}

/-- What a call of a procedure runs. -/
def started (m : Machine) (p : Proc) (args : List UInt64) : Run := enter { m with steps := 0 } p args []

/-- A call gives the answer of its run, unless it cannot be followed to the end. -/
theorem call_cases (args : List UInt64) (hIdx : m.procIdx? name = some i) (hStack : m.withStack? = some m1) :
    (runFor (Limits.fuel m.limits) (m1.started (m.procs.getD i default) args)).answer? = some (m.call name args) ∨
      ∃ m' f ws, runFor (Limits.fuel m.limits) (m1.started (m.procs.getD i default) args) = .running m' f ws ∧
        (m'.halt f ws .endless).answer? = some (m.call name args) := by
  obtain ⟨hLimits, hProcs, -⟩ := withStack?_eq hStack
  rw [started, ← hLimits, ← hProcs]
  simp only [call, hIdx, hStack]
  generalize runFor (Limits.fuel m1.limits) _ = r
  cases r with
  | returned | halted => exact .inl rfl
  | running m2 f ws =>
    obtain ⟨m3, -, hHalt⟩ := halt_eq_halted (m := m2) (f := f) (h := .endless) (s := ws)
    refine .inr ⟨m2, f, ws, rfl, ?_⟩
    simp only [hHalt]
    rfl

end Machine

end Comptime
