import Comptime.Proofs.Semantics
import Comptime.Proofs.Shape.Flow

/-!
# Runs that do what a body says

`Scene.Does` relates an evaluation to the run of a frame: the run does the same deeds, one after the other, and gets to
where the evaluation has its result. If the evaluation is stuck the run does nothing more and does not return, and if it has
gone on for longer than it was followed, so has the run. Such statements are put together by `Does.bind`; what the run does
without being noticed is passed over by `Does.step`.

There is one statement for each instruction, in terms of the shape that code of that kind has.
-/

namespace Comptime

open Watch Machine Comptime.Frame Eval

variable {v : UInt64}

/-! ## Frames -/

namespace Frame

variable {f f' f'' : Frame} {r : Reg} {k n n' : Nat} {v : UInt64} {x : Instr}

/-- The frame with a register set, past the instruction. -/
def put (f : Frame) (k : Nat) (v : UInt64) : Frame := { f with regs := f.regs.setIfInBounds k v, pos := f.pos + 1 }

/-- The frame at another position. -/
def goto (f : Frame) (t : Nat) : Frame := { f with pos := t }

theorem define?_eq (hk : k < f.regs.size) : f.define? k v = some (f.put k v) := by
  rw [define?, if_pos ⟨Int.natCast_nonneg k, by exact_mod_cast hk⟩]
  rfl

theorem reg?_natCast : f.reg? (k : Int) = f.regs[k]? := by
  rw [reg?, if_pos (Int.natCast_nonneg k), Int.toNat_natCast]

theorem reg?_put_self (hk : k < f.regs.size) : (f.put k v).reg? k = some v := by
  rw [reg?_natCast]
  exact Array.getElem?_setIfInBounds_self_of_lt hk

theorem reg?_put_ne (hr : r ≠ k) : (f.put k v).reg? r = f.reg? r := by
  rcases Nat.lt_or_ge k f.regs.size with hk | hk
  · exact reg?_define (define?_eq hk) hr
  · rw [put, Array.setIfInBounds_eq_of_size_le hk]
    rfl

/-- Registers below `n` have the values they had. -/
def Keeps (n : Nat) (f f' : Frame) : Prop := ∀ k : Nat, k < n → f'.reg? k = f.reg? k

namespace Keeps

theorem refl : Keeps n f f := fun _ _ => rfl

theorem trans (h : Keeps n f f') (h' : Keeps n' f' f'') (hLe : n ≤ n') : Keeps n f f'' := fun k hk =>
  (h' k (hk.trans_le hLe)).trans (h k hk)

theorem put (hk : n ≤ k) : Keeps n f (f.put k v) := fun j hj => reg?_put_ne fun hEq => by
  have hEq' : (j : Int) = k := hEq
  omega

end Keeps

/-- Registers have the values they had, but for those from `n` up to `n'`. -/
def Spares (n n' : Nat) (f f' : Frame) : Prop := ∀ k : Nat, k < n ∨ n' ≤ k → f'.reg? k = f.reg? k

namespace Spares

variable {m m' : Nat}

theorem refl : Spares n n' f f := fun _ _ => rfl

theorem trans (h : Spares n m f f') (h' : Spares m n' f' f'') (hLe : n ≤ m) (hLe' : m ≤ n') :
    Spares n n' f f'' := fun k hk =>
  (h' k (hk.imp_left fun hLt => hLt.trans_le hLe)).trans (h k (hk.imp_right hLe'.trans))

theorem mono (h : Spares n n' f f') (hLe : m ≤ n) (hLe' : n' ≤ m') : Spares m m' f f' := fun k hk =>
  h k (hk.imp (fun hLt => hLt.trans_le hLe) hLe'.trans)

theorem put (hLe : n ≤ k) (hLt : k < n') : Spares n n' f (f.put k v) := fun j hj => reg?_put_ne fun hEq => by
  have hEq' : (j : Int) = k := hEq
  omega

theorem keeps (h : Spares n n' f f') : Keeps n f f' := fun k hk => h k (.inl hk)

end Spares

end Frame

/-- A register that code which picks its registers from `n` on does not set. -/
def Text.Holds (T : Text) (n : Nat) (r : Reg) : Prop :=
  r = noReg ∨ ∃ k : Nat, r = k ∧ k < T.numRegs ∧ (T.fixed k ∨ k < n)

theorem Text.Holds.mono {T : Text} {n n' : Nat} {r : Reg} (h : T.Holds n r) (hLe : n ≤ n') : T.Holds n' r :=
  h.imp_right fun ⟨k, hr, hSize, hk⟩ => ⟨k, hr, hSize, hk.imp_right fun hLt => hLt.trans_le hLe⟩

theorem Text.Holds.picked {T : Text} {k : Nat} (hk : k < T.numRegs) :
    T.Holds (k + 1) k := .inr ⟨k, rfl, hk, .inr (Nat.lt_succ_self k)⟩

/-! ## Scenes -/

/-- A body that runs: what it meets with, its finished code, and what is in the registers that are set at its entry. -/
structure Scene where
  setting : Setting
  text : Text
  proc : Proc
  entry : Nat → Option UInt64
  code_eq : proc.code = text.code
  direct_eq : setting.direct = text.direct

namespace Scene

variable {E : Scene} {α β : Type} {n : Nat} {f f' : Frame} {w : Watch} {m : Machine} {x : Eval α}
  {Q R : α → Frame → Prop} {l : List (Nat × Reg)}
variable {k : Nat} {r : EStateM.Result Halted (List Deed) α}

/-- The code as it is seen from a point where these locals have slots. -/
abbrev seen (E : Scene) (l : List (Nat × Reg)) : Text := { E.text with slots := l }

/-- A frame of the body. -/
structure Fits (E : Scene) (f : Frame) : Prop where
  proc : f.proc = E.proc
  size : f.regs.size = E.text.numRegs
  fixed : ∀ k, E.text.fixed k → f.reg? k = E.entry k

theorem Fits.next (h : E.Fits f) : E.Fits f.next := { h with }

theorem Fits.goto {t : Nat} (h : E.Fits f) : E.Fits (f.goto t) := { h with }

theorem Fits.put (h : E.Fits f) (hk : ¬ E.text.fixed k) : E.Fits (f.put k v) where
  proc := h.proc
  size := Array.size_setIfInBounds.trans h.size
  fixed j hj := (reg?_put_ne fun hEq => hk (by rwa [← Int.ofNat.inj hEq])).trans (h.fixed j hj)

/-- A register that is held has the value it had. -/
theorem reg?_eq {r : Reg} (hr : E.text.Holds n r) (hf : E.Fits f) (hf' : E.Fits f') (hKeeps : f.Keeps n f') :
    f'.reg? r = f.reg? r := by
  rcases hr with rfl | ⟨k, rfl, -, hk | hk⟩
  · rfl
  · rw [hf.fixed k hk, hf'.fixed k hk]
  · exact hKeeps k hk

/-- It is the turn of the first frame, and what it has done is answered. -/
structure Stands (E : Scene) (w : Watch) (m : Machine) (f : Frame) : Prop where
  run : w.run = .running m f []
  due : w.due = none
  answered : w.answers.length = w.deeds.length
  answers : w.Answers E.setting.given
  names : w.Names E.setting.named
  unlimited : m.limits.maxSteps = 0
  address : m.address? = E.setting.address
  fits : E.Fits f

/-- What the run makes of the result of an evaluation. -/
def Follows (E : Scene) (n : Nat) (w : Watch) (Q : α → Frame → Prop) : EStateM.Result Halted (List Deed) α → Prop
  | .ok a ds => ∃ k m f, E.Stands (tick^[k] w) m f ∧ (tick^[k] w).deeds = ds ∧ Q a f
  | .error .stuck ds => ∃ k, ∀ i, k ≤ i → (tick^[i] w).deeds = ds ∧ ∀ m v, (tick^[i] w).run ≠ .returned m v
  | .error .endless ds => ∃ k, n ≤ k ∧ (tick^[k] w).deeds = ds ∧ ∃ m f ws, (tick^[k] w).run = .running m f ws

/-- From this frame on the run does what the evaluation does. -/
def Does (E : Scene) (n : Nat) (f : Frame) (x : Eval α) (Q : α → Frame → Prop) : Prop :=
  ∀ w m, E.Stands w m f → E.Follows n w Q (x w.deeds)

theorem Follows.mono (h : E.Follows n w Q r) (hk : k ≤ n) : E.Follows k w Q r := by
  cases r with
  | ok a ds => exact h
  | error e ds =>
    cases e with
    | stuck => exact h
    | endless =>
      obtain ⟨j, hLe, hRest⟩ := h
      exact ⟨j, hk.trans hLe, hRest⟩

/-- What follows some steps later follows, and an endless run goes on for as many steps more. -/
theorem Follows.later (h : E.Follows n (tick^[k] w) Q r) : E.Follows (n + k) w Q r := by
  cases r with
  | ok a ds =>
    obtain ⟨j, m, f, hStands, hDeeds, hQ⟩ := h
    rw [← Function.iterate_add_apply] at hStands hDeeds
    exact ⟨j + k, m, f, hStands, hDeeds, hQ⟩
  | error e ds =>
    cases e with
    | stuck =>
      obtain ⟨j, hj⟩ := h
      refine ⟨j + k, fun i hi => ?_⟩
      have hLater := hj (i - k) (by omega)
      rwa [← Function.iterate_add_apply, Nat.sub_add_cancel (by omega)] at hLater
    | endless =>
      obtain ⟨j, hLe, hDeeds, hRun⟩ := h
      rw [← Function.iterate_add_apply] at hDeeds hRun
      exact ⟨j + k, by omega, hDeeds, hRun⟩

theorem Follows.after (h : E.Follows n (tick^[k] w) Q r) : E.Follows n w Q r := h.later.mono (Nat.le_add_right n k)

namespace Does

theorem pure {a : α} (h : E.Fits f → Q a f) : E.Does n f (Pure.pure a) Q := fun _ m hw =>
  ⟨0, m, f, hw, rfl, h hw.fits⟩

theorem bind {k : α → Eval β} {R : β → Frame → Prop} (hx : E.Does n f x Q)
    (hk : ∀ a f', E.Fits f' → Q a f' → E.Does n f' (k a) R) : E.Does n f (x >>= k) R := by
  intro w m hw
  have hFollows := hx w m hw
  change E.Follows n w R (EStateM.bind x k w.deeds)
  rw [EStateM.bind]
  cases hRun : x w.deeds with
  | ok a ds =>
    rw [hRun] at hFollows
    obtain ⟨j, m', f', hStands, rfl, hQ⟩ := hFollows
    exact (hk a f' hStands.fits hQ _ m' hStands).after
  | error e ds =>
    rw [hRun] at hFollows
    cases e with
    | stuck | endless => exact hFollows

theorem imp (hx : E.Does n f x Q) (h : ∀ a f', E.Fits f' → Q a f' → R a f') : E.Does n f x R := by
  intro w m hw
  have hFollows := hx w m hw
  cases hRun : x w.deeds with
  | ok a ds =>
    rw [hRun] at hFollows
    obtain ⟨k, m', f', hStands, hDeeds, hQ⟩ := hFollows
    exact ⟨k, m', f', hStands, hDeeds, h a f' hStands.fits hQ⟩
  | error e ds =>
    rw [hRun] at hFollows
    cases e with
    | stuck | endless => exact hFollows

theorem mono (hx : E.Does n f x Q) (hk : k ≤ n) : E.Does k f x Q := fun w m hw => (hx w m hw).mono hk

/-- The frame is one of the body. -/
theorem of_fits (h : E.Fits f → E.Does n f x Q) : E.Does n f x Q := fun w m hw => h hw.fits w m hw

theorem demand {o : Option α} {k : α → Eval β} {R : β → Frame → Prop} (hk : ∀ a, o = some a → E.Does n f (k a) R)
    (hNone : o = none → E.Does n f (throw .stuck : Eval β) R) : E.Does n f (demand o >>= k) R := by
  cases o with
  | none => exact hNone rfl
  | some a => exact hk a rfl

/-- What is there is found. -/
theorem known {a : α} {o : Option α} {k : α → Eval β} {R : β → Frame → Prop} (ho : o = some a) (hk : E.Does n f (k a) R) :
    E.Does n f (Eval.demand o >>= k) R := by
  subst ho
  exact hk

end Does

end Scene

/-! ## Steps -/

theorem Machine.step_eq {m : Machine} {f : Frame} {ws : List Waiting} {i : Nat} {x : Instr} (hSteps : m.limits.maxSteps = 0)
    (hPos : f.pos = i) (hCode : f.proc.code[i]? = some x) :
    m.step f ws = Machine.exec { m with steps := m.steps + 1 } f ws x := by
  have hLt := (Array.getElem?_eq_some_iff.mp hCode).1
  have hx : f.proc.code.getD f.pos.toNat .hole = x := by
    rw [hPos, Int.toNat_natCast, Array.getD_eq_getD_getElem?, hCode]
    rfl
  rw [step, if_neg (by omega)]
  simp only [hSteps, ne_eq, not_true_eq_false, false_and, if_false, hx]
  rw [if_neg (by omega)]

namespace Scene

variable {E : Scene} {α β : Type} {n : Nat} {f f' : Frame} {w : Watch} {m : Machine} {c : Eval α}
  {Q : α → Frame → Prop} {l : List (Nat × Reg)} {i : Nat} {x : Instr}

/-- The machine and the frame as the next instruction finds them. -/
theorem Stands.step (h : E.Stands w m f) (hPos : f.pos = i) (hx : E.text.code[i]? = some x) :
    ∃ m', m.Like m' ∧ m'.address? = E.setting.address ∧ f.instr = x ∧ m.step f [] = m'.exec f [] x := by
  have hCode : f.proc.code[i]? = some x := by rw [h.fits.proc, E.code_eq, hx]
  refine ⟨{ m with steps := m.steps + 1 }, ⟨rfl, rfl, rfl, .refl⟩, h.address, ?_, step_eq h.unlimited hPos hCode⟩
  rw [instr_of_pos hPos, Array.getD_eq_getD_getElem?, hCode]
  rfl

namespace Does

variable (hPos : f.pos = i) (hx : E.text.code[i]? = some x) (hDeed : f.deedOf? x = none)

include hPos hx hDeed

/-- The run ends at an instruction that nobody notices. -/
theorem halts (hExec : ∀ m : Machine, m.address? = E.setting.address → ∃ m' h, m.exec f [] x = .halted m' h) :
    E.Does n f (throw .stuck : Eval α) Q := by
  intro w m hw
  obtain ⟨m', hLike, hAddress, hInstr, hStep⟩ := hw.step hPos hx
  obtain ⟨m1, h, hHalt⟩ := hExec m' hAddress
  have hTick : w.tick = { w with run := .halted m1 h } := by
    rw [tick_running hw.run, hStep, hHalt, note, hw.run]
    simp only [Frame.deed?, hInstr, hDeed, settle]
  refine ⟨1, fun j hj => ?_⟩
  obtain ⟨j, rfl⟩ : ∃ i, j = i + 1 := ⟨j - 1, by omega⟩
  rw [Function.iterate_succ_apply, iterate_idle (by rw [hTick]; simp), hTick]
  exact ⟨rfl, by simp⟩

variable (hExec : ∀ m : Machine, m.address? = E.setting.address → m.exec f [] x = .running m f' [])
variable (hFits : E.Fits f → E.Fits f') (hNext : E.Does n f' c Q)

include hExec hFits hNext

/-- A step that nobody notices makes an endless run longer. -/
theorem advance : E.Does (n + 1) f c Q := by
  intro w m hw
  obtain ⟨m', hLike, hAddress, hInstr, hStep⟩ := hw.step hPos hx
  have hTick : w.tick = { w with run := .running m' f' [] } := by
    rw [tick_running hw.run, hStep, hExec m' hAddress, note, hw.run]
    simp only [Frame.deed?, hInstr, hDeed]
    rw [settle, hw.due]
  have hStands : E.Stands (tick^[1] w) m' f' := by
    rw [Function.iterate_one]
    refine ⟨by rw [hTick], by rw [hTick]; exact hw.due, by rw [hTick]; exact hw.answered, hw.answers.iterate 1,
      hw.names.iterate 1, by rw [hLike.limits]; exact hw.unlimited, hAddress, hFits hw.fits⟩
  have hFollows := hNext _ m' hStands
  rw [show (tick^[1] w).deeds = w.deeds by rw [Function.iterate_one, hTick]] at hFollows
  exact hFollows.later

/-- A step that nobody notices. -/
theorem step : E.Does n f c Q := (advance hPos hx hDeed hExec hFits hNext).mono (Nat.le_succ n)

end Does

end Scene

/-! ## Deeds -/

section Demand

variable {α β : Type} {o : Option α} {a : α} {c : α → Eval β} {ds : List Deed}

theorem demand_some (h : o = some a) : demand o ds = .ok a ds := by
  rw [h]
  rfl

theorem demand_none (h : o = none) : demand o ds = .error .stuck ds := by
  rw [h]
  rfl

theorem demand_stuck (hc : ∀ a ds, c a ds = .error .stuck ds) : EStateM.bind (demand o) c ds = .error .stuck ds := by
  cases o with
  | none => rfl
  | some a => exact hc a ds

end Demand

namespace Setting

variable {α : Type} {S : Setting} {d : Deed} {ds : List Deed} {v : UInt64}

theorem perform_some (hv : S.given ds.length = some v) : S.perform d ds = .ok v (ds ++ [d]) := demand_some hv

theorem perform_none (hv : S.given ds.length = none) : S.perform d ds = .error .stuck (ds ++ [d]) := demand_none hv

/-- What is stuck once it has an address is stuck. -/
theorem fresh_stuck {k : Nat} {c : UInt64 → Eval α} (hc : ∀ a ds, c a ds = .error .stuck ds) :
    (S.fresh k >>= c) ds = .error .stuck ds := demand_stuck hc

theorem freshAll_stuck {k : Nat} {c : List UInt64 → Eval α} (hc : ∀ vs ds, c vs ds = .error .stuck ds) :
    (S.freshAll k >>= c) ds = .error .stuck ds := demand_stuck hc

end Setting

theorem mapM_range {α : Type} {g : Nat → Option α} {vs : List α} (h : ∀ j (hj : j < vs.length), g j = some vs[j]) :
    (List.range vs.length).mapM g = some vs := by
  induction vs using List.reverseRecOn with
  | nil => rfl
  | append_singleton vs v ih =>
    have hInit : (List.range vs.length).mapM g = some vs := ih fun j hj => by
      rw [h j (by simp; omega), List.getElem_append_left hj]
    have hLast : g vs.length = some v := by rw [h vs.length (by simp)]; simp
    rw [List.length_append, List.length_singleton, List.range_succ, List.mapM_append, hInit, List.mapM_cons, List.mapM_nil, hLast]
    rfl

namespace Scene

variable {E : Scene} {α β : Type} {n : Nat} {f f' : Frame} {w : Watch} {m : Machine} {c : Eval α}
  {Q : α → Frame → Prop} {l : List (Nat × Reg)} {i : Nat} {x : Instr} {d : Deed} {r : Reg}
variable {k : Nat} {align : Int64} {target : Reg} {args : List Reg}

section

variable (hPos : f.pos = i) (hx : E.text.code[i]? = some x) (hDeed : f.deedOf? x = some (d, r))

include hPos hx hDeed

/-- Something that is noticed. -/
theorem Does.perform (hFits : ∀ f', E.Fits f → f.Receives r f' → E.Fits f') :
    E.Does n f (E.setting.perform d) fun v f' => f.Receives r f' ∧ f'.answer r = v := by
  intro w m hw
  obtain ⟨m', hLike, hAddress, hInstr, hStep⟩ := hw.step hPos hx
  have hDeed' : f.deed? = some (d, r) := by rw [deed?, hInstr, hDeed]
  cases hv : E.setting.given w.deeds.length with
  | some v =>
    rw [Setting.perform_some hv]
    rw [← hw.answered] at hv
    obtain ⟨k, m1, f', hTicks, hLike', hReceives, hAnswer⟩ := hw.answers.answered hw.run hDeed' hv
    refine ⟨k + 1, m1, f', ⟨by rw [hTicks], by rw [hTicks], ?_, hw.answers.iterate _, hw.names.iterate _, ?_, ?_,
      hFits f' hw.fits hReceives⟩, by rw [hTicks], hReceives, hAnswer⟩
    · rw [hTicks, List.length_append, List.length_append, hw.answered]
      rfl
    · rw [hLike'.limits]
      exact hw.unlimited
    · rw [hLike'.address?]
      exact hw.address
  | none =>
    rw [Setting.perform_none hv]
    rw [← hw.answered] at hv
    refine ⟨1, fun j hj => ?_⟩
    obtain ⟨j, rfl⟩ : ∃ i, j = i + 1 := ⟨j - 1, by omega⟩
    exact hw.answers.unanswered hw.run hDeed' hv j

/-- What the deed that the frame is about to do names. -/
theorem Stands.named (h : E.Stands w m f) (k : Nat) : E.setting.named w.deeds.length k = d.words[k]? := by
  obtain ⟨m', hLike, hAddress, hInstr, hStep⟩ := h.step hPos hx
  have hNoted : w.tick.deeds = w.deeds ++ [d] := by
    rw [tick_running h.run, settle_deeds, note, h.run]
    simp only [deed?, hInstr, hDeed]
  have hOnly : ∀ j d', (tick^[j] w).deeds[w.deeds.length]? = some d' → d' = d := fun j d' hd' => by
    cases j with
    | zero => simp at hd'
    | succ j =>
      rw [Function.iterate_succ_apply] at hd'
      have hSome : (tick^[j] w.tick).deeds[w.deeds.length]? = some d :=
        getElem?_of_prefix (deeds_iterate j) (by rw [hNoted]; simp)
      exact Option.some.inj (hd'.symm.trans hSome)
  cases hWord : d.words[k]? with
  | some a =>
    refine (h.names _ _ _).mpr ⟨1, d, ?_, hWord⟩
    rw [Function.iterate_one, hNoted]
    simp
  | none =>
    cases hNamed : E.setting.named w.deeds.length k with
    | none => rfl
    | some a =>
      obtain ⟨j, d', hd', ha⟩ := (h.names _ _ _).mp hNamed
      rw [hOnly j d' hd', hWord] at ha
      cases ha

/-- The address that the deed names. -/
theorem Does.fresh {a : UInt64} {c : UInt64 → Eval α} (ha : d.words[k]? = some a) (hNext : E.Does n f (c a) Q) :
    E.Does n f (E.setting.fresh k >>= c) Q := by
  intro w m hw
  change E.Follows n w Q (EStateM.bind _ _ _)
  rw [EStateM.bind, show E.setting.fresh k w.deeds = _ from demand_some ((hw.named hPos hx hDeed k).trans ha)]
  exact hNext w m hw

theorem Does.freshAll {vs rest : List UInt64} {c : List UInt64 → Eval α} (hWords : d.words = vs ++ rest)
    (hk : vs.length = k) (hNext : E.Does n f (c vs) Q) : E.Does n f (E.setting.freshAll k >>= c) Q := by
  intro w m hw
  have hAll : (List.range k).mapM (E.setting.named w.deeds.length) = some vs := by
    subst hk
    refine mapM_range fun j hj => ?_
    rw [hw.named hPos hx hDeed j, hWords, List.getElem?_append_left hj]
    exact List.getElem?_eq_getElem hj
  change E.Follows n w Q (EStateM.bind _ _ _)
  rw [EStateM.bind, show E.setting.freshAll k w.deeds = _ from demand_some hAll]
  exact hNext w m hw

end

/-! ## Instructions -/

variable {p p' p'' : Point} {f'' : Frame} {u : Unit} {t : RegType} {y z : Option UInt64} {g : UInt64 → Eval α}

/-- Control is at a point. -/
structure Rests (E : Scene) (p : Point) (f : Frame) : Prop where
  pos : f.pos = p.pos
  fits : E.Fits f

/-- From one point to the next only the registers that were picked in between have been set. -/
structure Passed (E : Scene) (p p' : Point) (f f' : Frame) : Prop extends Rests E p' f' where
  spares : f.Spares p.next p'.next f'
  next : p.next ≤ p'.next

theorem Passed.keeps (h : E.Passed p p' f f') : f.Keeps p.next f' := h.spares.keeps

theorem Passed.refl (hf : E.Rests p f) : E.Passed p p f f := ⟨hf, .refl, le_rfl⟩

theorem Passed.trans (h : E.Passed p p' f f') (h' : E.Passed p' p'' f' f'') : E.Passed p p'' f f'' :=
  ⟨h'.toRests, h.spares.trans h'.spares h.next h'.next, h.next.trans h'.next⟩

/-- A register that is free is picked and set. -/
theorem Passed.put {high : Nat} (hPos : f.pos = p.pos) (hLe : p.next ≤ k) (hFits : E.Fits f) (hFree : ¬ E.text.fixed k) :
    E.Passed p ⟨p.pos + 1, k + 1, high⟩ f (f.put k v) :=
  ⟨⟨by rw [Frame.put, hPos]; rfl, hFits.put hFree⟩, .put hLe (Nat.lt_succ_self k), by simp only; omega⟩

/-- What is in a register that is held stays there. -/
theorem Passed.reg?_eq (h : E.Passed p p' f f') (hFits : E.Fits f) (hr : E.text.Holds p.next r) : f'.reg? r = f.reg? r :=
  Scene.reg?_eq hr hFits h.fits h.keeps

/-- A register that is held has got a value on the way. -/
structure Gets (E : Scene) (p p' : Point) (f f' : Frame) (r : Reg) (y : Option UInt64) :
    Prop extends Passed E p p' f f' where
  reg : f'.reg? r = y
  holds : E.text.Holds p'.next r

theorem Gets.after (h : E.Gets p p' f f' r y) (h' : E.Passed p' p'' f' f'') : E.Gets p p'' f f'' r y :=
  ⟨h.trans h', (h'.reg?_eq h.fits h.holds).trans h.reg, h.holds.mono h'.next⟩

theorem Passed.gets (h : E.Passed p p' f f') (h' : E.Gets p' p'' f' f'' r y) : E.Gets p p'' f f'' r y :=
  ⟨h.trans h'.toPassed, h'.reg, h'.holds⟩

/-- A register that was set at the entry. -/
theorem Passed.fixed (h : E.Passed p p' f f') (hFixed : E.text.fixed k) (hLt : k < E.text.numRegs) :
    ∃ a, E.Gets p p' f f' k (some a) :=
  ⟨_, h, reg?_natCast.trans (Array.getElem?_eq_getElem (h.fits.size ▸ hLt)), .inr ⟨k, rfl, hLt, .inl hFixed⟩⟩

/-- A register that is picked and set. -/
theorem define_does {x : Reg → Instr} (h : Shape.define x (E.seen l) p r p') (hPos : f.pos = p.pos)
    (hDeed : ∀ k, f.deedOf? (x k) = none)
    (hExec : ∀ (m : Machine) (k : Nat), m.address? = E.setting.address → m.exec f [] (x k) = m.continueWith f [] (f.define? k v))
    (hNext : ∀ f', E.Gets p p' f f' r (some v) → E.Does n f' c Q) : E.Does n f c Q := by
  obtain ⟨_, _, ⟨k, rfl, hLe, hFree, hLt, rfl⟩, _, _, ⟨hCode, rfl⟩, rfl, rfl⟩ := h
  refine .of_fits fun hFits => ?_
  have hSize : k < f.regs.size := hFits.size ▸ hLt
  refine .step hPos hCode (hDeed k) (fun m hm => ?_) (fun hFits => hFits.put hFree (v := v)) ?_
  · rw [hExec m k hm, define?_eq hSize]
    rfl
  · exact hNext _ ⟨.put hPos hLe hFits hFree, reg?_put_self hSize, .picked hLt⟩

theorem imm_does {bits : UInt64} (h : Shape.imm t bits (E.seen l) p r p') (hPos : f.pos = p.pos)
    (hNext : ∀ f', E.Gets p p' f f' r (some (Word.canon t bits)) → E.Does n f' c Q) : E.Does n f c Q :=
  define_does h hPos (fun _ => rfl) (fun _ _ _ => rfl) hNext

theorem region_does (hPos : f.pos = i) (hx : E.text.code[i]? = some .region) (hNext : E.Does n f.next c Q) :
    E.Does n f c Q := .step hPos hx rfl (fun _ _ => rfl) (fun hFits => hFits.next) hNext

theorem jump_does {t : Nat} (hPos : f.pos = i) (hx : E.text.code[i]? = some (.branch noReg [] t))
    (hNext : E.Does n (f.goto t) c Q) : E.Does n f c Q :=
  .step hPos hx rfl (fun _ _ => rfl) (fun hFits => hFits.goto) hNext

theorem exists_halted {h : Halt} : ∃ m' h', m.halt f [] h = .halted m' h' := by
  obtain ⟨m', -, hEq⟩ := halt_eq_halted (m := m) (f := f) (h := h) (s := [])
  exact ⟨m', h, hEq⟩

/-- Where the instruction of a register that is picked stands. -/
theorem define_at {x : Reg → Instr} (h : Shape.define x (E.seen l) p r p') :
    ∃ k : Nat, E.text.code[p.pos]? = some (x k) := by
  obtain ⟨_, _, ⟨k, rfl, -, -, -, rfl⟩, _, _, ⟨hCode, rfl⟩, rfl, rfl⟩ := h
  exact ⟨k, hCode⟩

theorem addrOf_does {sym : String} (h : Shape.addrOf sym (E.seen l) p r p') (hPos : f.pos = p.pos)
    (hNext : ∀ a f', E.Gets p p' f f' r (some a) → E.Does n f' (g a) Q) :
    E.Does n f (demand (E.setting.address sym) >>= g) Q := by
  refine .demand (fun a ha => ?_) fun hNone => ?_
  · refine define_does (v := a) h hPos (fun _ => rfl) (fun m k hm => ?_) (hNext a)
    simp only [exec, hm, ha]
  · obtain ⟨k, hCode⟩ := define_at h
    refine .halts hPos hCode rfl fun m hm => ?_
    simp only [exec, hm, hNone]
    exact exists_halted

theorem un_does {op : Op} {source : RegType} {src : Reg} (h : Shape.un op t source src (E.seen l) p r p')
    (hPos : f.pos = p.pos) (hy : f.reg? src = y)
    (hNext : ∀ v f', E.Gets p p' f f' r (some (Word.unary op t source v)) → E.Does n f' (g v) Q) :
    E.Does n f (demand y >>= g) Q := by
  subst hy
  refine .demand (fun v hv => ?_) fun hNone => ?_
  · refine define_does (v := Word.unary op t source v) h hPos (fun _ => rfl) (fun m k hm => ?_) (hNext v)
    simp only [exec, hv, Option.bind_some]
  · obtain ⟨k, hCode⟩ := define_at h
    refine .halts hPos hCode rfl fun m hm => ?_
    simp only [exec, hNone, Option.bind_none]
    exact exists_halted

theorem bin_does {op : Op} {a b : Reg} (h : Shape.bin op t a b (E.seen l) p r p') (hPos : f.pos = p.pos) (hy : f.reg? a = y)
    (hz : f.reg? b = z)
    (hNext : ∀ v f', E.Gets p p' f f' r (some v) → E.Does n f' (g v) Q) :
    E.Does n f (do
      let y ← demand y
      let z ← demand z
      let v ← result (Word.binary op t y z)
      g v) Q := by
  subst hy hz
  obtain ⟨k, hCode⟩ := define_at h
  have hHalts : (∀ m : Machine, ∃ m' e, m.exec f [] (.bin op t k a b) = .halted m' e) →
    E.Does n f (throw .stuck : Eval α) Q := fun hExec => .halts hPos hCode rfl fun m _ => hExec m
  refine .demand (fun y hy => .demand (fun z hz => ?_) fun hNone => ?_) fun hNone => ?_
  · cases hv : Word.binary op t y z with
    | ok v =>
      refine define_does (v := v) h hPos (fun _ => rfl) (fun m k hm => ?_) (hNext v)
      simp only [exec, hy, hz, hv]
    | error e =>
      refine hHalts fun m => ?_
      simp only [exec, hy, hz, hv]
      cases e <;> exact exists_halted
  · refine hHalts fun m => ?_
    simp only [exec, hNone, hy]
    exact exists_halted
  · refine hHalts fun m => ?_
    simp only [exec, hNone]
    exact exists_halted

/-! ## Instructions that are noticed -/

theorem Does.discard (hx : E.Does n f c Q) : E.Does n f (discard c) fun _ f' => ∃ a, Q a f' :=
  .bind (k := fun _ => Pure.pure ()) hx fun a _ _ hQ => .pure fun _ => ⟨a, hQ⟩

theorem receives_noReg (h : f.Receives noReg f') : f' = f.next := by
  rcases h with ⟨-, rfl⟩ | ⟨v, hv⟩
  · rfl
  · cases hv

theorem receives_natCast (h : f.Receives k f') (hk : k < f.regs.size) : ∃ v, f' = f.put k v := by
  rcases h with ⟨hNone, -⟩ | ⟨v, hv⟩
  · have hNone' : (k : Int) = -1 := hNone
    omega
  · rw [define?_eq hk] at hv
    exact ⟨v, (Option.some.inj hv).symm⟩

/-- A deed whose answer is put into a register that is picked for it. -/
theorem answer_does {x : Reg → Instr} (h : Shape.define x (E.seen l) p r p') (hPos : f.pos = p.pos)
    (hDeed : ∀ k, f.deedOf? (x k) = some (d, k))
    (hNext : ∀ v f', E.Gets p p' f f' r (some v) → E.Does n f' (g v) Q) :
    E.Does n f (E.setting.perform d >>= g) Q := by
  obtain ⟨_, _, ⟨k, rfl, hLe, hFree, hLt, rfl⟩, _, _, ⟨hCode, rfl⟩, rfl, rfl⟩ := h
  refine .of_fits fun hFits => ?_
  have hSize : k < f.regs.size := hFits.size ▸ hLt
  have hReceives : ∀ f', f.Receives k f' → ∃ v, f' = f.put k v := fun f' h => receives_natCast h hSize
  refine (Does.perform hPos hCode (hDeed k) fun f' hFits h => ?_).bind fun v f' _ ⟨h, hAnswer⟩ => ?_
  · obtain ⟨v, rfl⟩ := hReceives f' h
    exact hFits.put hFree
  · obtain ⟨u, rfl⟩ := hReceives f' h
    rw [answer, reg?_put_self hSize, Option.getD_some] at hAnswer
    subst hAnswer
    exact hNext u _ ⟨.put hPos hLe hFits hFree, reg?_put_self hSize, .picked hLt⟩

theorem load_does {addr : Reg} (h : Shape.load t addr align (E.seen l) p r p') (hPos : f.pos = p.pos) (hy : f.reg? addr = y)
    (hNext : ∀ v f', E.Gets p p' f f' r (some v) → E.Does n f' (g v) Q) : E.Does n f (do
      let a ← demand y
      let v ← E.setting.perform (.load t a)
      g v) Q := by
  subst hy
  refine .demand (fun a ha => answer_does h hPos (fun k => by simp [deedOf?, ha]) hNext) fun hNone => ?_
  obtain ⟨k, hCode⟩ := define_at h
  refine .halts hPos hCode (by simp [deedOf?, hNone]) fun m hm => ?_
  simp only [exec, hNone]
  exact exists_halted

/-- A deed that nothing comes back for. -/
theorem deed_does (h : Shape.instr x (E.seen l) p u p') (hPos : f.pos = p.pos) (hDeed : f.deedOf? x = some (d, noReg))
    (hNext : ∀ v f', E.Passed p p' f f' → E.Does n f' (g v) Q) : E.Does n f (E.setting.perform d >>= g) Q := by
  obtain ⟨hCode, rfl⟩ := h
  refine .of_fits fun hFits => (Does.perform hPos hCode hDeed fun f' hFits h => ?_).bind fun v f' _ ⟨h, _⟩ => ?_
  · rw [receives_noReg h]
    exact hFits.next
  · rw [receives_noReg h]
    exact hNext v _ ⟨⟨by rw [Frame.next, hPos]; rfl, hFits.next⟩, .refl, le_rfl⟩

/-- The instruction does this with the words in two registers, and ends the run if one of them is not there. -/
structure Joins (x : Instr) (r s : Reg) (d : UInt64 → UInt64 → Deed) : Prop where
  deed : ∀ f : Frame, f.deedOf? x = do return (d (← f.reg? r) (← f.reg? s), noReg)
  halts : ∀ (m : Machine) (f : Frame), f.reg? r = none ∨ f.reg? s = none → ∃ m' h, m.exec f [] x = .halted m' h

theorem joins_store {addr val : Reg} : Joins (.store t addr val align) addr val (.store t) where
  deed _ := rfl
  halts m f hNone := by
    simp only [exec, store]
    split
    · next a ha =>
      simp only [hNone.resolve_left (by simp [ha])]
      split <;> exact exists_halted
    · exact exists_halted

theorem joins_copy {dst src : Reg} {size : Int64} : Joins (.copy dst src size align) dst src (.copy · · size) where
  deed _ := rfl
  halts m f hNone := by
    simp only [exec]
    split
    · exact exists_halted
    · next a ha =>
      simp only [hNone.resolve_left (by simp [ha])]
      split <;> exact exists_halted

/-- A store or a copy. -/
theorem pair_does {r s : Reg} {d : UInt64 → UInt64 → Deed} (hx : Joins x r s d) (h : Shape.instr x (E.seen l) p u p')
    (hPos : f.pos = p.pos) (hy : f.reg? r = y) (hz : f.reg? s = z)
    (hNext : ∀ v f', E.Passed p p' f f' → E.Does n f' (g v) Q) :
    E.Does n f (do
      let a ← demand y
      let b ← demand z
      E.setting.perform (d a b) >>= g) Q := by
  subst hy hz
  refine .demand (fun a ha => .demand (fun b hb => ?_) fun hNone => ?_) fun hNone => ?_
  · exact deed_does h hPos (by simp [hx.deed, ha, hb]) hNext
  · exact .halts hPos h.1 (by simp [hx.deed, hNone]) fun m _ => hx.halts m f (.inr hNone)
  · exact .halts hPos h.1 (by simp [hx.deed, hNone]) fun m _ => hx.halts m f (.inl hNone)

/-- The arguments of a call are there, and what it gives back arrives if it has a type. -/
theorem call_does {a : UInt64} {vs : List UInt64} (h : Shape.call t target args (E.seen l) p r p') (hPos : f.pos = p.pos)
    (ha : f.reg? target = some a) (hvs : args.mapM f.reg? = some vs)
    (hNext : ∀ v f', E.Gets p p' f f' r (if t = .void then none else some v) → E.Does n f' (g v) Q) :
    E.Does n f (E.setting.perform (.call a vs) >>= g) Q := by
  have hDeed : ∀ k, f.deedOf? (.call t k target args) = some (.call a vs, k) := fun k => by simp [Frame.deedOf?, ha, hvs]
  rw [Shape.call, Shape.ite_iff] at h
  split at h
  · next hVoid =>
    obtain ⟨_, p, ⟨rfl, rfl⟩, _, _, ⟨hCode, rfl⟩, rfl, rfl⟩ := h
    have hHere : Shape.instr _ (E.seen l) p () { p with pos := p.pos + 1 } := ⟨hCode, rfl⟩
    refine deed_does hHere hPos (hDeed _) fun v f' hPassed => ?_
    exact hNext v f' ⟨hPassed, by rw [if_pos hVoid]; rfl, .inl rfl⟩
  · next hVoid =>
    simp only [if_neg hVoid] at hNext
    exact answer_does (x := (.call t · target args)) h hPos hDeed hNext

/-- Where the instruction of a call stands. -/
theorem call_at {target : Reg} {args : List Reg} (h : Shape.call t target args (E.seen l) p r p') :
    ∃ k, E.text.code[p.pos]? = some (.call t k target args) := by
  rw [Shape.call, Shape.ite_iff] at h
  split at h
  · obtain ⟨_, p, ⟨rfl, rfl⟩, _, _, ⟨hCode, rfl⟩, rfl, rfl⟩ := h
    exact ⟨_, hCode⟩
  · obtain ⟨_, _, ⟨k, rfl, -, -, -, rfl⟩, _, _, ⟨hCode, rfl⟩, rfl, rfl⟩ := h
    exact ⟨_, hCode⟩

/-- A call whose target or one of whose arguments is missing. -/
theorem call_halts {target : Reg} {args : List Reg} (h : Shape.call t target args (E.seen l) p r p')
    (hPos : f.pos = p.pos) (hMissing : f.reg? target = none ∨ args.mapM f.reg? = none) :
    E.Does n f (throw .stuck : Eval α) Q := by
  obtain ⟨k, hCode⟩ := call_at h
  refine .halts hPos hCode ?_ fun m hm => ?_
  · rcases hMissing with hNone | hNone <;> simp [deedOf?, hNone]
  · simp only [exec]
    split
    · exact exists_halted
    · next a ha =>
      split
      · exact exists_halted
      · rcases hMissing with hNone | hNone
        · rw [hNone] at ha
          cases ha
        · rw [hNone]
          exact exists_halted

/-- A test of a register against zero. -/
theorem branch_does {test : Reg} {yes no : Nat} (hPos : f.pos = i)
    (hx : E.text.code[i]? = some (.branch test [⟨0, no⟩] yes)) (hy : f.reg? test = y)
    (hNext : ∀ v, y = some v → E.Does n (f.goto (if v = 0 then no else yes)) (g v) Q) :
    E.Does n f (Eval.demand y >>= g) Q := by
  subst hy
  refine .demand (fun v hv => ?_) fun hNone => ?_
  · refine .step hPos hx rfl (fun m hm => ?_) (fun hFits => hFits.goto) (hNext v hv)
    have hTarget : f.target? test [⟨0, no⟩] yes = some ((if v = 0 then no else yes : Nat) : Int) := by
      have hZero : ((0 : Int64) == v.toInt64) = decide (v = 0) := by
        rw [beq_eq_decide, decide_eq_decide]
        exact ⟨fun h => (UInt64.toUInt64_toInt64 v).symm.trans (congrArg Int64.toUInt64 h.symm), fun h => h ▸ rfl⟩
      rw [Frame.target?]
      simp only [List.isEmpty_cons, hv, Option.map_some, List.find?_cons, hZero]
      by_cases h0 : v = 0 <;> simp [h0]
    simp only [Machine.exec, hTarget]
    rfl
  · refine .halts hPos hx rfl fun m hm => ?_
    simp only [Machine.exec, Frame.target?, hNone]
    exact exists_halted

end Scene

end Comptime
