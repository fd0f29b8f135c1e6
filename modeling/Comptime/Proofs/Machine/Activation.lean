import Comptime.Proofs.Machine.Step
import Mathlib.Logic.Function.Iterate

/-!
# Activations

An activation is what becomes of one frame of the stack, from when it is pushed until it is left. It lives as long as the
stack is that high: no step both leaves a frame and pushes one. `Frame.Course` says what a step of the run can make of the
frame, `Enters.course` that nothing else happens to it.
-/

namespace Comptime

open List Option Machine

namespace Run

/-- The frame at a depth of the stack, the first one at depth zero. -/
def frame? (d : Nat) : Run → Option Frame
  | .running _ f ws => ((f :: ws.map (·.frame)).reverse)[d]?
  | _ => none

/-- The position that the frame at a depth is about to execute, if it is its turn. -/
def turn? (d : Nat) : Run → Option Int
  | .running _ f ws => if ws.length = d then some f.pos else none
  | _ => none

def next : Run → Run
  | .running m f ws => m.step f ws
  | r => r

theorem runFor_eq (k : Nat) (r : Run) : runFor k r = next^[k] r := by
  induction k generalizing r with
  | zero => rfl
  | succ k ih =>
    rw [Function.iterate_succ_apply, ← ih]
    cases r with
    | running m f ws => rfl
    | _ => cases k <;> rfl

theorem runFor_succ (k : Nat) (r : Run) : runFor (k + 1) r = (runFor k r).next := by
  rw [runFor_eq, runFor_eq, Function.iterate_succ_apply']

/-- The machine of a run. -/
def machine : Run → Machine
  | .running m _ _ | .returned m _ | .halted m _ => m

theorem next_like (r : Run) : r.machine.Like r.next.machine := by
  cases r with
  | running m f ws =>
    have hAfter := after_step (m := m) (f := f) (s := ws)
    rw [next]
    generalize m.step f ws = r at hAfter
    cases r <;> exact hAfter.1
  | returned | halted => exact .refl

theorem runFor_like (k : Nat) (r : Run) : r.machine.Like (runFor k r).machine := by
  induction k with
  | zero => exact .refl
  | succ k ih =>
    rw [runFor_succ]
    exact ih.trans (next_like _)

end Run

namespace Frame

/-- The frame stands at a call. -/
def Calls (f : Frame) : Prop := ∃ t dst target args, f.instr = .call t dst target args

/-- What a step of the run makes of a frame, and the position that the frame has executed in it. -/
inductive Course (f : Frame) : Option Int → Frame → Prop where
  | moves {f' : Frame} : f.Moves f.instr f' → Course f (some f.pos) f'
  | calls : f.Calls → Course f (some f.pos) f
  | waits : f.Calls → Course f none f
  | resumes {f' : Frame} : f.Calls → f.Moves f.instr f' → Course f none f'

variable {f f' : Frame} {t : Option Int}

theorem Course.proc (h : f.Course t f') : f'.proc = f.proc := by
  cases h with
  | moves h | resumes _ h => exact h.proc
  | calls | waits => rfl

theorem Course.turn (h : f.Course t f') : t = some f.pos ∨ t = none := by
  cases h with
  | moves | calls => exact .inl rfl
  | waits | resumes => exact .inr rfl

/-- What the instruction does not write keeps its value. -/
theorem Course.keeps {r : Reg} (h : f.Course t f') (hr : r ∉ f.instr.writes) : f'.reg? r = f.reg? r := by
  cases h with
  | moves h | resumes _ h => exact h.keeps r hr
  | calls | waits => rfl

end Frame

/-- A frame that waits stands at its call. -/
def Waiting.Stands (w : Waiting) : Prop := ∃ target args, w.frame.instr = .call w.ty w.dst target args

theorem Waiting.Stands.calls {w : Waiting} (h : w.Stands) : w.frame.Calls := by
  obtain ⟨target, args, h⟩ := h
  exact ⟨_, _, _, _, h⟩

/-- A run in which the frames above those of `base` wait at their calls. -/
def Run.Above (base : List Waiting) (r : Run) : Prop :=
  ∃ m f us, r = .running m f (us ++ base) ∧ ∀ w ∈ us, w.Stands

namespace Run

variable {m : Machine} {f g : Frame} {us base : List Waiting} {r : Run} {k : Nat}

theorem frame?_above : (running m f (us ++ base)).frame? base.length = (f :: us.map (·.frame)).getLast? := by
  rw [frame?, map_append, ← cons_append, reverse_append, getElem?_append_right (by simp),
    length_reverse, length_map, Nat.sub_self, ← head?_eq_getElem?, head?_reverse]

theorem frame?_top : (running m f base).frame? base.length = some f :=
  (frame?_above : (running m f ([] ++ base)).frame? base.length = _)

/-- The frames that wait below the top do not matter for the one above the base. -/
theorem frame?_cons {w : Waiting} :
    (running m f (w :: us ++ base)).frame? base.length = (w.frame :: us.map (·.frame)).getLast? := frame?_above

theorem turn?_above : (running m f (us ++ base)).turn? base.length = if us = [] then some f.pos else none := by
  rw [turn?, length_append]
  exact ite_congr (by simp) (fun _ => rfl) fun _ => rfl

/-- A frame that has others above it stands at a call. -/
theorem calls_of_above {w : Waiting} (hStands : ∀ u ∈ w :: us, u.Stands)
    (hg : (w.frame :: us.map (·.frame)).getLast? = some g) : g.Calls := by
  have hMem : g ∈ (w :: us).map (·.frame) := mem_of_getLast? hg
  obtain ⟨u, hu, rfl⟩ := mem_map.mp hMem
  exact (hStands u hu).calls

/-- One step of the run is one step of the course of each frame that it does not leave. -/
theorem Above.next (h : r.Above base) (hg : r.frame? base.length = some g) (hLives : (r.next.frame? base.length).isSome) :
    r.next.Above base ∧ ∃ g', r.next.frame? base.length = some g' ∧ g.Course (r.turn? base.length) g' := by
  obtain ⟨m, f, us, rfl, hStands⟩ := h
  rw [turn?_above]
  have hAfter := after_step (m := m) (f := f) (s := us ++ base)
  change (Run.next (.running m f (us ++ base))).After _ _ _ _ at hAfter
  generalize Run.next (.running m f (us ++ base)) = r' at hAfter hLives
  cases r' with
  | returned | halted => cases hLives
  | running m' f' ws =>
    obtain ⟨-, ⟨rfl, hMoves⟩ | ⟨t, dst, target, args, hCall, rfl, -⟩ | ⟨w, hEq, hReceives⟩⟩ := hAfter
    · refine ⟨⟨m', f', us, rfl, hStands⟩, ?_⟩
      cases us with
      | nil =>
        obtain rfl : f = g := some.inj (frame?_top.symm.trans hg)
        exact ⟨f', frame?_top, .moves hMoves⟩
      | cons w us =>
        rw [frame?_cons] at hg
        exact ⟨g, frame?_cons.trans hg, .waits (calls_of_above hStands hg)⟩
    · have hStands' : ∀ w ∈ ⟨f, dst, t⟩ :: us, w.Stands := forall_mem_cons.mpr ⟨⟨target, args, hCall⟩, hStands⟩
      refine ⟨⟨m', f', ⟨f, dst, t⟩ :: us, rfl, hStands'⟩, g, ?_⟩
      rw [frame?_above] at hg
      refine ⟨(frame?_cons (w := ⟨f, dst, t⟩)).trans hg, ?_⟩
      cases us with
      | nil =>
        obtain rfl : f = g := some.inj hg
        exact .calls ⟨t, dst, target, args, hCall⟩
      | cons w us => exact .waits (calls_of_above hStands' hg)
    · cases us with
      | nil =>
        -- the frame itself returns, and the stack is too low
        obtain rfl : base = w :: ws := hEq
        simp [frame?] at hLives
      | cons u us =>
        obtain ⟨rfl, rfl⟩ := cons.inj hEq
        refine ⟨⟨m', f', us, rfl, fun v hv => hStands v (mem_cons_of_mem _ hv)⟩, ?_⟩
        cases us with
        | nil =>
          obtain rfl : u.frame = g := some.inj (frame?_cons.symm.trans hg)
          have hu := hStands u mem_cons_self
          obtain ⟨target, args, hInstr⟩ := id hu
          exact ⟨f', frame?_top, .resumes hu.calls (hInstr ▸ hReceives.passes.moves)⟩
        | cons v us =>
          rw [frame?_cons] at hg
          exact ⟨g, frame?_cons.trans hg, .waits (calls_of_above hStands hg)⟩

/-- Something holds of every frame, and the frames that wait stand at their calls. -/
def Every (P : Frame → Prop) : Run → Prop
  | .running _ f ws => (∀ g ∈ f :: ws.map (·.frame), P g) ∧ ∀ w ∈ ws, w.Stands
  | _ => True

section Every

variable {P : Frame → Prop}

theorem Every.next (hStarts : ∀ g, r.machine.Starts g → P g) (hMoves : ∀ g g', P g → g.Moves g.instr g' → P g')
    (h : r.Every P) : r.next.Every P := by
  cases r with
  | returned | halted => exact h
  | running m f ws =>
    obtain ⟨hEvery, hStands⟩ := h
    rw [forall_mem_cons] at hEvery
    have hAfter := after_step (m := m) (f := f) (s := ws)
    rw [Run.next]
    generalize m.step f ws = r' at hAfter
    cases r' with
    | returned | halted => trivial
    | running m' f' ws' =>
      obtain ⟨-, ⟨rfl, hOn⟩ | ⟨t, dst, target, args, hCall, rfl, hStart⟩ | ⟨w, rfl, hReceives⟩⟩ := hAfter
      · exact ⟨forall_mem_cons.mpr ⟨hMoves f f' hEvery.1 hOn, hEvery.2⟩, hStands⟩
      · exact ⟨forall_mem_cons.mpr ⟨hStarts f' hStart, forall_mem_cons.mpr hEvery⟩,
          forall_mem_cons.mpr ⟨⟨target, args, hCall⟩, hStands⟩⟩
      · obtain ⟨⟨target, args, hInstr⟩, hStands⟩ := forall_mem_cons.mp hStands
        rw [map_cons, forall_mem_cons] at hEvery
        have hOn : w.frame.Moves w.frame.instr f' := hInstr ▸ hReceives.passes.moves
        exact ⟨forall_mem_cons.mpr ⟨hMoves w.frame f' hEvery.2.1 hOn, hEvery.2.2⟩, hStands⟩

/-- What holds of frames when they start and stays true as they move, holds of every frame of a run. -/
theorem Every.runFor (hStarts : ∀ g, r.machine.Starts g → P g) (hMoves : ∀ g g', P g → g.Moves g.instr g' → P g')
    (h : r.Every P) (k : Nat) : (runFor k r).Every P := by
  induction k with
  | zero => exact h
  | succ k ih =>
    rw [runFor_succ]
    refine ih.next (fun g hg => hStarts g ⟨?_, hg.pos, hg.size⟩) hMoves
    rw [← (runFor_like k r).procs]
    exact hg.proc

theorem Every.enter {p : Proc} {args : List UInt64}
    (hStart : ∀ g : Frame, g.proc = p → g.pos = 0 → g.regs.size = max p.params.length p.numRegs.toNat → P g) :
    (m.enter p args []).Every P := by
  rcases enter_cases (m := m) (p := p) (a := args) (s := []) with ⟨_, _, -, hHalt, -⟩ |
    ⟨_, g, -, -, hRun, -, hProc, hPos, hSize⟩
  · rw [hHalt]
    trivial
  · rw [hRun]
    exact ⟨forall_mem_singleton.mpr (hStart g hProc hPos hSize), nofun⟩

end Every

/-- A run that has just entered a procedure, whose frame is the one at that depth. -/
def Enters (r : Run) (p : Proc) (d : Nat) (f : Frame) : Prop :=
  ∃ m args base m', enter m p args base = r ∧ r = .running m' f base ∧ d = base.length

/-- The frame at a depth is not left for a number of steps. -/
def Lives (r : Run) (d k : Nat) : Prop := ∀ j ≤ k, ((runFor j r).frame? d).isSome

theorem Lives.le {d j : Nat} (h : r.Lives d k) (hj : j ≤ k) : r.Lives d j := fun i hi => h i (hi.trans hj)

theorem Above.runFor (h : r.Above base) (hLives : r.Lives base.length k) : (runFor k r).Above base := by
  induction k with
  | zero => exact h
  | succ k ih =>
    obtain ⟨g, hg⟩ := isSome_iff_exists.mp (hLives k (Nat.le_succ k))
    have hNext := hLives (k + 1) le_rfl
    rw [runFor_succ] at hNext ⊢
    exact ((ih (hLives.le (Nat.le_succ k))).next hg hNext).1

namespace Enters

variable {p : Proc} {d : Nat} {f0 : Frame} (h : r.Enters p d f0)

include h

theorem start : r.frame? d = some f0 ∧ f0.proc = p ∧ f0.pos = 0 := by
  obtain ⟨m, args, base, m', hEnter, rfl, rfl⟩ := h
  exact ⟨frame?_top, enter_eq_running hEnter⟩

/-- **The course of an activation.** While it lives, its frame changes only as the step that it takes, or the return of what
it has called, lets it. -/
theorem course (hLives : r.Lives d (k + 1)) : ∃ g g', (runFor k r).frame? d = some g ∧
    (runFor (k + 1) r).frame? d = some g' ∧ g.Course ((runFor k r).turn? d) g' := by
  obtain ⟨m, args, base, m', -, rfl, rfl⟩ := h
  have hk := Above.runFor ⟨m', f0, [], rfl, nofun⟩ (hLives.le (Nat.le_succ k))
  obtain ⟨g, hg⟩ := isSome_iff_exists.mp (hLives k (Nat.le_succ k))
  have hNext := hLives (k + 1) le_rfl
  rw [runFor_succ] at hNext ⊢
  obtain ⟨-, g', hg', hCourse⟩ := hk.next hg hNext
  exact ⟨g, g', hg, hg', hCourse⟩

/-- An activation stays in its procedure. -/
theorem proc_eq (hLives : r.Lives d k) (hk : (runFor k r).frame? d = some g) : g.proc = p := by
  induction k generalizing g with
  | zero =>
    obtain ⟨hStart, hProc, -⟩ := h.start
    obtain rfl : f0 = g := some.inj (hStart.symm.trans hk)
    exact hProc
  | succ k ih =>
    obtain ⟨g1, g2, hg1, hg2, hCourse⟩ := h.course hLives
    obtain rfl : g = g2 := some.inj (hk.symm.trans hg2)
    exact hCourse.proc.trans (ih (hLives.le (Nat.le_succ k)) hg1)

end Enters

end Run

end Comptime
