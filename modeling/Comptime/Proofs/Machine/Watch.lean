import Comptime.Proofs.Machine.Step
import Mathlib.Logic.Function.Iterate
import Mathlib.Data.List.Infix

/-!
# Watching an activation

A `Watch` follows a run from the point of view of its first frame. What the frame does that others can notice, its calls
and its accesses to memory, is recorded as a list of deeds, and what it got for each of them as a list of answers. While
a call runs nothing is recorded, whatever the callee does.

`Frame.resolve` says how a deed goes on: either the frame gets its answer and goes on with the next instruction, or it is
the last thing the frame does.
-/

namespace Comptime

open List

variable {d : Deed} {r : Reg}

/-! ## Deeds -/

/-- What a frame does that others can notice. -/
inductive Deed where
  | call (target : UInt64) (args : List UInt64)
  | load (ty : RegType) (addr : UInt64)
  | store (ty : RegType) (addr value : UInt64)
  | copy (dst src : UInt64) (size : Int64)
  | fill (dst value : UInt64) (size : Int64)
deriving DecidableEq, Repr

/-- The addresses that a deed names: the arguments of a call, or where memory is accessed. -/
def Deed.words : Deed → List UInt64
  | call _ args => args
  | load _ a | store _ a _ | fill a _ _ => [a]
  | copy dst src _ => [dst, src]

namespace Frame

/-- What an instruction does that others can notice, and the register that gets the answer. -/
def deedOf? (f : Frame) : Instr → Option (Deed × Reg)
  | .call _ dst target args => do return (.call (← f.reg? target) (← args.mapM f.reg?), dst)
  | .load ty dst addr _ => do return (.load ty (← f.reg? addr), dst)
  | .store ty addr val _ => do return (.store ty (← f.reg? addr) (← f.reg? val), noReg)
  | .copy dst src size _ => do return (.copy (← f.reg? dst) (← f.reg? src) size, noReg)
  | .fill dst val size _ => do return (.fill (← f.reg? dst) (← f.reg? val) size, noReg)
  | _ => none

def deed? (f : Frame) : Option (Deed × Reg) := f.deedOf? f.instr

/-- What has arrived in a register, nothing being zero. -/
def answer (f : Frame) (r : Reg) : UInt64 := (f.reg? r).getD 0

end Frame

/-- A run, with what its first frame has done and what it has got for it. -/
structure Watch where
  run : Run
  /-- The register that is to get the answer of the last deed. -/
  due : Option Reg := none
  deeds : List Deed := []
  answers : List UInt64 := []

namespace Watch

/-- Records the answer of the last deed once the first frame goes on. -/
def settle (w : Watch) : Watch :=
  match w.run, w.due with
  | .running _ f [], some r => { w with answers := w.answers ++ [f.answer r], due := none }
  | _, _ => w

/-- Records what the first frame does next, if it is its turn. -/
def note (w : Watch) : Watch :=
  match w.run with
  | .running _ f [] => match f.deed? with
    | some (d, r) => { w with deeds := w.deeds ++ [d], due := some r }
    | none => w
  | _ => w

/-- One step of the run. -/
def tick (w : Watch) : Watch :=
  match w.run with
  | .running m f ws => settle { w.note with run := m.step f ws }
  | _ => w

/-- What the first frame gets for its deeds, by their number. -/
def Answers (w : Watch) (given : Nat → Option UInt64) : Prop :=
  ∀ i v, given i = some v ↔ ∃ n, (tick^[n] w).answers[i]? = some v

/-- The addresses that the deeds of the first frame name, by the number of the deed and their number in it. -/
def Names (w : Watch) (named : Nat → Nat → Option UInt64) : Prop :=
  ∀ i k a, named i k = some a ↔ ∃ n d, (tick^[n] w).deeds[i]? = some d ∧ d.words[k]? = some a

end Watch

namespace Machine

variable {m m' : Machine} {f f' : Frame}

/-- A frame that goes on past a deed has got its answer. -/
theorem receives_of_passes {x : Instr} (hDeed : f.deedOf? x = some (d, r)) (hPasses : f.Passes x f') : f.Receives r f' := by
  -- only a call or a load writes a register, and a call need not
  cases x with
  | call ty dst target args =>
    simp only [Frame.deedOf?, Option.bind_eq_bind, Option.bind_eq_some_iff, Option.pure_def, Option.some.injEq,
      Prod.mk.injEq] at hDeed
    obtain ⟨_, -, _, -, -, rfl⟩ := hDeed
    cases hPasses with
    | next _ hNone =>
      rw [Instr.writes] at hNone
      split at hNone
      · next hDst => exact .inl ⟨hDst, rfl⟩
      · cases hNone
    | defines _ hr hDefine =>
      rw [Instr.writes] at hr
      split at hr
      · cases hr
      · exact .inr ⟨_, mem_singleton.mp hr ▸ hDefine⟩
    | branches ht => cases ht
  | load ty dst addr align =>
    simp only [Frame.deedOf?, Option.bind_eq_bind, Option.bind_eq_some_iff, Option.pure_def, Option.some.injEq,
      Prod.mk.injEq] at hDeed
    obtain ⟨_, -, -, rfl⟩ := hDeed
    cases hPasses with
    | next _ hNone => cases hNone
    | defines _ hr hDefine => exact .inr ⟨_, mem_singleton.mp hr ▸ hDefine⟩
    | branches ht => cases ht
  | store ty addr val align | copy dst src size align | fill dst val size align =>
    simp only [Frame.deedOf?, Option.bind_eq_bind, Option.bind_eq_some_iff, Option.pure_def, Option.some.injEq,
      Prod.mk.injEq] at hDeed
    obtain ⟨_, -, _, -, -, rfl⟩ := hDeed
    cases hPasses with
    | next => exact .inl ⟨rfl, rfl⟩
    | defines _ hr _ => cases hr
    | branches ht => cases ht
  | _ => cases hDeed

/-- A deed ends the run, is answered at once, or starts a callee that returns to the frame. -/
theorem step_deed (hDeed : f.deed? = some (d, r)) :
    (∃ m' h, m.step f [] = .halted m' h) ∨ (∃ m' f', m.Like m' ∧ f.Receives r f' ∧ m.step f [] = .running m' f' []) ∨
      ∃ m' g ty, m.Like m' ∧ m.step f [] = .running m' g [⟨f, r, ty⟩] := by
  rcases step_cases (m := m) (f := f) (s := []) with ⟨-, m', g, h, -, -, hHalt, -⟩ | ⟨-, hStep⟩
  · exact .inl ⟨_, _, hHalt.trans halt_eq_halted.choose_spec.2⟩
  have hLike : m.Like { m with steps := m.steps + 1 } := ⟨rfl, rfl, rfl, .refl⟩
  generalize { m with steps := m.steps + 1 } = m1 at hLike hStep
  rw [hStep]
  rw [Frame.deed?] at hDeed
  have hDoes := does_exec m1 f [] f.instr
  generalize m1.exec f [] f.instr = run at hDoes
  cases hDoes with
  | passes hAlike hPasses =>
    refine .inr (.inl ⟨_, _, hLike.trans ?_, receives_of_passes hDeed hPasses, rfl⟩)
    exact ⟨rfl, rfl, rfl, hAlike.toSized⟩
  | takes hx _ _ | returns hx =>
    rw [hx] at hDeed
    cases hDeed
  | @calls ty dst target args p vs hx _ =>
    rw [hx] at hDeed
    simp only [Frame.deedOf?, Option.bind_eq_bind, Option.bind_eq_some_iff, Option.pure_def, Option.some.injEq,
      Prod.mk.injEq] at hDeed
    obtain ⟨_, -, _, -, -, rfl⟩ := hDeed
    rcases enter_cases (m := m1) (p := p) (a := vs) (s := [⟨f, dst, ty⟩]) with
      ⟨m2, h, -, hHalt, -⟩ | ⟨m2, g, hLike', -, hEnter, -⟩
    · exact .inl ⟨m2, h, hHalt⟩
    · exact .inr (.inr ⟨m2, g, ty, hLike.trans hLike', hEnter⟩)
  | halts => exact .inl ⟨_, _, halt_eq_halted.choose_spec.2⟩

end Machine

/-! ## Watched runs -/

namespace Watch

open Machine

variable {w : Watch} {m : Machine} {f : Frame} {ws : List Waiting} {given : Nat → Option UInt64}

theorem getElem?_of_prefix {α : Type} {l l' : List α} {i : Nat} {v : α} (h : l <+: l') (hi : l[i]? = some v) :
    l'[i]? = some v := by
  obtain ⟨t, rfl⟩ := h
  rw [List.getElem?_append_left (List.getElem?_eq_some_iff.mp hi).1]
  exact hi

theorem settle_run : w.settle.run = w.run := by
  rw [settle]
  split <;> rfl

theorem settle_deeds : w.settle.deeds = w.deeds := by
  rw [settle]
  split <;> rfl

theorem settle_answers : w.answers <+: w.settle.answers := by
  rw [settle]
  split
  · exact prefix_append _ _
  · exact prefix_rfl

theorem note_answers : w.note.answers = w.answers := by
  rw [note]
  split
  · split <;> rfl
  · rfl

theorem note_deeds : w.deeds <+: w.note.deeds := by
  rw [note]
  split
  · split
    · exact prefix_append _ _
    · exact prefix_rfl
  · exact prefix_rfl

theorem tick_running (h : w.run = .running m f ws) : w.tick = settle { w.note with run := m.step f ws } := by
  rw [tick, h]

theorem tick_idle (h : ∀ m f ws, w.run ≠ .running m f ws) : w.tick = w := by
  rw [tick]
  split
  · next m f ws hRun => exact absurd hRun (h m f ws)
  · rfl

theorem iterate_idle (h : ∀ m f ws, w.run ≠ .running m f ws) (n : Nat) : tick^[n] w = w :=
  Function.iterate_fixed (tick_idle h) n

theorem answers_tick : w.answers <+: w.tick.answers := by
  rw [tick]
  split
  · refine List.IsPrefix.trans ?_ settle_answers
    change w.answers <+: w.note.answers
    rw [note_answers]
  · exact prefix_rfl

theorem deeds_tick : w.deeds <+: w.tick.deeds := by
  rw [tick]
  split
  · rw [settle_deeds]
    exact note_deeds
  · exact prefix_rfl

theorem answers_iterate (n : Nat) : w.answers <+: (tick^[n] w).answers := by
  induction n generalizing w with
  | zero => exact prefix_rfl
  | succ n ih => exact answers_tick.trans ih

theorem deeds_iterate (n : Nat) : w.deeds <+: (tick^[n] w).deeds := by
  induction n generalizing w with
  | zero => exact prefix_rfl
  | succ n ih => exact deeds_tick.trans ih

/-- What the first frame gets is the same from any later point on. -/
theorem Answers.iterate (h : w.Answers given) (k : Nat) : (tick^[k] w).Answers given := by
  intro i v
  rw [h i v]
  constructor
  · rintro ⟨n, hn⟩
    refine ⟨n, ?_⟩
    rw [← Function.iterate_add_apply, Nat.add_comm, Function.iterate_add_apply]
    exact getElem?_of_prefix (answers_iterate k) hn
  · rintro ⟨n, hn⟩
    exact ⟨n + k, by rw [Function.iterate_add_apply]; exact hn⟩

/-- What the deeds of the first frame name is the same from any later point on. -/
theorem Names.iterate {named : Nat → Nat → Option UInt64} (h : w.Names named) (k : Nat) : (tick^[k] w).Names named := by
  intro i j a
  rw [h i j a]
  constructor
  · rintro ⟨n, d, hn, hd⟩
    refine ⟨n, d, ?_, hd⟩
    rw [← Function.iterate_add_apply, Nat.add_comm, Function.iterate_add_apply]
    exact getElem?_of_prefix (deeds_iterate k) hn
  · rintro ⟨n, d, hn, hd⟩
    exact ⟨n + k, d, by rw [Function.iterate_add_apply]; exact hn, hd⟩

/-- After some steps the first frame goes on with an answer. -/
def Resumes (w : Watch) (m : Machine) (f : Frame) (r : Reg) (k : Nat) : Prop :=
  ∃ m' f', tick^[k] w = ⟨.running m' f' [], none, w.deeds, w.answers ++ [f'.answer r]⟩ ∧ m.Like m' ∧ f.Receives r f'

/-- After some steps nothing has been recorded, and the run has not returned. -/
def Silent (w : Watch) (n : Nat) : Prop :=
  (tick^[n] w).deeds = w.deeds ∧ (tick^[n] w).answers = w.answers ∧ ∀ m' v, (tick^[n] w).run ≠ .returned m' v

theorem silent_halted {m' : Machine} {h : Halt} (hRun : w.run = .halted m' h) (n : Nat) : w.Silent n := by
  have hIdle : tick^[n] w = w := iterate_idle (by simp [hRun]) n
  exact ⟨by rw [hIdle], by rw [hIdle], by rw [hIdle, hRun]; exact fun _ _ => Run.noConfusion⟩

/-- While a callee runs nothing is recorded, until the first frame goes on or the run ends. -/
theorem silent_or_resumes {u : List Waiting} {g : Frame} {ty : RegType} (hRun : w.run = .running m g (u ++ [⟨f, r, ty⟩]))
    (hDue : w.due = some r) (n : Nat) : w.Silent n ∨ ∃ k ≤ n, w.Resumes m f r k := by
  induction n generalizing w m g u with
  | zero => exact .inl ⟨rfl, rfl, by simp [hRun]⟩
  | succ n ih =>
    have hNote : w.note = w := by
      rw [note, hRun]
      cases u <;> rfl
    have hTick : w.tick = settle { w with run := m.step g (u ++ [⟨f, r, ty⟩]) } := by rw [tick_running hRun, hNote]
    have hAfter := after_step (m := m) (f := g) (s := u ++ [⟨f, r, ty⟩])
    cases hStep : m.step g (u ++ [⟨f, r, ty⟩]) with
    | halted m' h =>
      rw [hStep] at hTick
      have hSilent : Silent w.tick n := silent_halted (by rw [hTick]; rfl) n
      rw [Silent, hTick] at hSilent
      rw [Silent, Function.iterate_succ_apply, hTick]
      exact .inl hSilent
    | returned m' v =>
      rw [hStep] at hAfter
      exact absurd hAfter.2 (append_ne_nil_of_right_ne_nil u (cons_ne_nil _ _))
    | running m' g' ws' =>
      rw [hStep] at hAfter hTick
      obtain ⟨hLike, hMoves⟩ := hAfter
      -- as long as the first frame waits below the others the hypothesis applies
      have hOn : ∀ us', ws' = us' ++ [⟨f, r, ty⟩] → w.Silent (n + 1) ∨ ∃ k ≤ n + 1, w.Resumes m f r k := by
        rintro us' rfl
        have hSettle : w.tick = { w with run := .running m' g' (us' ++ [⟨f, r, ty⟩]) } := by
          rw [hTick, settle]
          cases us' <;> rfl
        rcases ih (w := w.tick) (by rw [hSettle]) (by rw [hSettle]; exact hDue) with hSilent | ⟨k, hk, m1, f', h1, h2, h3⟩
        · rw [Silent, hSettle] at hSilent
          rw [Silent, Function.iterate_succ_apply, hSettle]
          exact .inl hSilent
        · refine .inr ⟨k + 1, by omega, m1, f', ?_, hLike.trans h2, h3⟩
          rw [Function.iterate_succ_apply, h1, hSettle]
      rcases hMoves with ⟨rfl, -⟩ | ⟨ty', dst, _, _, -, rfl, -⟩ | ⟨w1, hCons, hReceives⟩
      · exact hOn u rfl
      · exact hOn (⟨g, dst, ty'⟩ :: u) rfl
      · cases u with
        | nil =>
          cases hCons
          refine .inr ⟨1, by omega, m', g', ?_, hLike, hReceives⟩
          rw [Function.iterate_one, hTick, settle]
          simp [hDue]
        | cons u u =>
          cases hCons
          exact hOn u rfl

/-- A deed of the first frame is answered after some steps, or it is the last thing that is recorded. -/
theorem resolve (hRun : w.run = .running m f []) (hDeed : f.deed? = some (d, r)) :
    (∃ k m' f', tick^[k + 1] w = ⟨.running m' f' [], none, w.deeds ++ [d], w.answers ++ [f'.answer r]⟩ ∧ m.Like m' ∧
      f.Receives r f') ∨
    ∀ n, (tick^[n + 1] w).deeds = w.deeds ++ [d] ∧ (tick^[n + 1] w).answers = w.answers ∧
      ∀ m' v, (tick^[n + 1] w).run ≠ .returned m' v := by
  have hTick : w.tick = settle ⟨m.step f [], some r, w.deeds ++ [d], w.answers⟩ := by
    rw [tick_running hRun, note, hRun]
    simp only [hDeed]
  rcases step_deed (m := m) hDeed with ⟨m', h, hStep⟩ | ⟨m', f', hLike, hReceives, hStep⟩ | ⟨m', g, ty, hLike, hStep⟩
  · refine .inr fun n => ?_
    rw [hStep] at hTick
    have hSilent : Silent w.tick n := silent_halted (by rw [hTick]; rfl) n
    rw [Silent, hTick] at hSilent
    rw [Function.iterate_succ_apply, hTick]
    exact hSilent
  · refine .inl ⟨0, m', f', ?_, hLike, hReceives⟩
    rw [Function.iterate_one, hTick, hStep]
    rfl
  · have hBusy : w.tick = ⟨.running m' g [⟨f, r, ty⟩], some r, w.deeds ++ [d], w.answers⟩ := by
      rw [hTick, hStep]
      rfl
    by_cases hAlways : ∀ n, w.tick.Silent n
    · refine .inr fun n => ?_
      have hSilent := hAlways n
      rw [Silent, hBusy] at hSilent
      rw [Function.iterate_succ_apply, hBusy]
      exact hSilent
    · obtain ⟨n, hn⟩ := not_forall.mp hAlways
      obtain ⟨k, -, m1, f', h1, h2, h3⟩ := (silent_or_resumes (u := []) (by rw [hBusy]; rfl) (by rw [hBusy]) n).resolve_left hn
      refine .inl ⟨k, m1, f', ?_, hLike.trans h2, h3⟩
      rw [Function.iterate_succ_apply, h1, hBusy]

/-- The answer of the next deed is the one that is given for it. -/
theorem Answers.answered {d : Deed} {r : Reg} {v : UInt64} (hAnswers : w.Answers given)
    (hRun : w.run = .running m f []) (hDeed : f.deed? = some (d, r)) (hv : given w.answers.length = some v) :
    ∃ k m' f', tick^[k + 1] w = ⟨.running m' f' [], none, w.deeds ++ [d], w.answers ++ [v]⟩ ∧ m.Like m' ∧
      f.Receives r f' ∧ f'.answer r = v := by
  obtain ⟨n, hn⟩ := (hAnswers _ v).mp hv
  rcases resolve hRun hDeed with ⟨k, m', f', hk, hLike, hReceives⟩ | hNever
  · have hSame : f'.answer r = v := by
      have hGiven : given w.answers.length = some (f'.answer r) := (hAnswers _ _).mpr ⟨k + 1, by rw [hk]; simp⟩
      exact Option.some.inj (hGiven.symm.trans hv)
    exact ⟨k, m', f', by rw [hk, hSame], hLike, hReceives, hSame⟩
  · cases n with
    | zero => simp at hn
    | succ n =>
      rw [(hNever n).2.1] at hn
      simp at hn

/-- A deed for which no answer is given is the last thing that is recorded. -/
theorem Answers.unanswered (hAnswers : w.Answers given) (hRun : w.run = .running m f []) (hDeed : f.deed? = some (d, r))
    (hv : given w.answers.length = none) (n : Nat) :
    (tick^[n + 1] w).deeds = w.deeds ++ [d] ∧ ∀ m' v, (tick^[n + 1] w).run ≠ .returned m' v := by
  rcases resolve hRun hDeed with ⟨k, m', f', hk, -, -⟩ | hNever
  · have hGiven : given w.answers.length = some (f'.answer r) := (hAnswers _ _).mpr ⟨k + 1, by rw [hk]; simp⟩
    rw [hv] at hGiven
    cases hGiven
  · exact ⟨(hNever n).1, (hNever n).2.2⟩

end Watch

end Comptime
