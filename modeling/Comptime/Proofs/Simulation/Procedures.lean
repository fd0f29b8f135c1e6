import Comptime.Proofs.Lowering.Built
import Comptime.Proofs.Simulation.Flows

/-!
# Procedures do what their bodies say

The run of a built procedure takes memory and stores parameters first, and may end there (`Watch.Barred`). Where it does
not, it performs what its body says (`Watch.Performs`): it does the same deeds in the same order, and it returns a value if
and only if the body does, followed for sufficiently many rounds.
-/

namespace Comptime

open Watch List Option Machine Stmt Array Comptime.Frame

variable {α : Type} {n k i r : Nat} {m : Machine} {v : UInt64}

/-! ## What a run does in the end -/

/-- What growing lists tend to. -/
theorem exists_limit {L : Nat → List α} (hL : ∀ n k, L n <+: L (n + k)) :
    ∃ g : Nat → Option α, ∀ i a, g i = some a ↔ ∃ n, (L n)[i]? = some a := by
  classical
  refine ⟨fun i => if h : ∃ a n, (L n)[i]? = some a then some h.choose else none, fun i a => ?_⟩
  beta_reduce
  constructor
  · intro h
    split at h
    · next hSome => exact some.inj h ▸ hSome.choose_spec
    · cases h
  · rintro ⟨n, hn⟩
    have hSome : ∃ a n, (L n)[i]? = some a := ⟨a, n, hn⟩
    obtain ⟨n', hn'⟩ := hSome.choose_spec
    have hFirst := getElem?_of_prefix (hL n n') hn
    have hSecond := getElem?_of_prefix (hL n' n) hn'
    rw [Nat.add_comm] at hSecond
    rw [dif_pos hSome, some.inj (hSecond.symm.trans hFirst)]

namespace Eval

/-- The deeds of an evaluation, whether it has a result or not. -/
def done {α : Type} : EStateM.Result Halted (List Deed) α → List Deed
  | .ok _ ds | .error _ ds => ds

end Eval

namespace Watch

variable {w : Watch}

theorem exists_answers (w : Watch) : ∃ given, w.Answers given :=
  exists_limit (L := fun n => (tick^[n] w).answers) fun n k => by
    rw [Nat.add_comm, Function.iterate_add_apply]
    exact answers_iterate k

theorem exists_names (w : Watch) : ∃ named, w.Names named := by
  obtain ⟨g, hg⟩ := exists_limit (L := fun n => (tick^[n] w).deeds) fun n k => by
    rw [Nat.add_comm, Function.iterate_add_apply]
    exact deeds_iterate k
  refine ⟨fun i k => (g i).bind (·.words[k]?), fun i k a => ?_⟩
  rw [bind_eq_some_iff]
  constructor
  · rintro ⟨d, hd, ha⟩
    obtain ⟨n, hn⟩ := (hg i d).mp hd
    exact ⟨n, d, hn, ha⟩
  · rintro ⟨n, d, hd, ha⟩
    exact ⟨d, (hg i d).mpr ⟨n, hd⟩, ha⟩

/-- The run does what an evaluation does that can be followed for any number of rounds, and returns if it does. -/
structure Performs (w : Watch) (x : Nat → EStateM.Result Halted (List Deed) UInt64) : Prop where
  deeds : ∀ (i : Nat) d, (∃ n, (tick^[n] w).deeds[i]? = some d) ↔ ∃ n, (Eval.done (x n))[i]? = some d
  returns : ∀ v, (∃ n m, (tick^[n] w).run = .returned m v) ↔ ∃ n ds, x n = .ok v ds

/-- What the run makes of the result of its body. -/
def Ends (w : Watch) (n : Nat) : EStateM.Result Halted (List Deed) UInt64 → Prop
  | .ok v ds => ∃ k m, (tick^[k] w).run = .returned m v ∧ (tick^[k] w).deeds = ds
  | .error .stuck ds => ∃ k, ∀ i, k ≤ i → (tick^[i] w).deeds = ds ∧ ∀ m v, (tick^[i] w).run ≠ .returned m v
  | .error .endless ds => ∃ k, n ≤ k ∧ (tick^[k] w).deeds = ds ∧ ∃ m f ws, (tick^[k] w).run = .running m f ws

theorem iterate_le (h : n ≤ k) : tick^[k] w = tick^[k - n] (tick^[n] w) := by
  rw [← Function.iterate_add_apply, Nat.sub_add_cancel h]

theorem deeds_le (h : n ≤ k) : (tick^[n] w).deeds <+: (tick^[k] w).deeds := by
  rw [iterate_le h]
  exact deeds_iterate _

/-- A run that has returned stays as it is. -/
theorem iterate_returned (h : (tick^[n] w).run = .returned m v) (hk : n ≤ k) : tick^[k] w = tick^[n] w := by
  rw [iterate_le hk]
  exact iterate_idle (by simp [h]) _

/-- What a run that has returned has got for its deeds is all that it gets. -/
theorem Answers.of_returned {given : Nat → Option UInt64} (h : w.Answers given) (hRun : (tick^[n] w).run = .returned m v) :
    given i = (tick^[n] w).answers[i]? := by
  refine ext fun a => (h i a).trans ⟨?_, fun ha => ⟨n, ha⟩⟩
  rintro ⟨k, hk⟩
  have hLater : (tick^[k] w).answers <+: (tick^[k + n] w).answers := by
    rw [iterate_le (Nat.le_add_right k n)]
    exact answers_iterate _
  rw [← iterate_returned hRun (Nat.le_add_left n k)]
  exact getElem?_of_prefix hLater hk

namespace Ends

variable {n : Nat} {r : EStateM.Result Halted (List Deed) UInt64}

theorem reached (h : w.Ends n r) : ∃ k, (tick^[k] w).deeds = Eval.done r := by
  match r, h with
  | .ok v ds, ⟨k, _, _, hk⟩ => exact ⟨k, hk⟩
  | .error .stuck ds, ⟨k, hk⟩ => exact ⟨k, (hk k le_rfl).1⟩
  | .error .endless ds, ⟨k, _, hk, _⟩ => exact ⟨k, hk⟩

/-- As many steps of the run as there are rounds do no more than the body. -/
theorem deeds (h : w.Ends n r) : (tick^[n] w).deeds <+: Eval.done r := by
  match r, h with
  | .ok v ds, ⟨k, m, hRun, hk⟩ =>
    rw [show Eval.done (.ok v ds) = _ from hk.symm]
    rcases Nat.le_total n k with hLe | hLe
    · exact deeds_le hLe
    · rw [iterate_returned hRun hLe]
  | .error .stuck ds, ⟨k, hk⟩ =>
    rw [show Eval.done (.error .stuck ds : EStateM.Result Halted (List Deed) UInt64) = _ from
      (hk (max n k) (Nat.le_max_right n k)).1.symm]
    exact deeds_le (Nat.le_max_left n k)
  | .error .endless ds, ⟨k, hLe, hk, _⟩ =>
    rw [show Eval.done (.error .endless ds : EStateM.Result Halted (List Deed) UInt64) = _ from hk.symm]
    exact deeds_le hLe

/-- The body has a result if the run returns in as many steps as there are rounds. -/
theorem returns (h : w.Ends n r) (hRun : (tick^[n] w).run = .returned m v) : ∃ ds, r = .ok v ds := by
  match r, h with
  | .ok v' ds, ⟨k, m', hRun', hk⟩ =>
    have hSame : tick^[k] w = tick^[n] w := by
      rcases Nat.le_total n k with hLe | hLe
      · exact iterate_returned hRun hLe
      · exact (iterate_returned hRun' hLe).symm
    rw [hSame, hRun] at hRun'
    cases hRun'
    exact ⟨ds, rfl⟩
  | .error .stuck ds, ⟨k, hk⟩ =>
    refine absurd ?_ ((hk (max n k) (Nat.le_max_right n k)).2 m v)
    rw [iterate_returned hRun (Nat.le_max_left n k)]
    exact hRun
  | .error .endless ds, ⟨k, hLe, hk, m', f, ws, hRun'⟩ =>
    rw [iterate_returned hRun hLe, hRun] at hRun'
    cases hRun'

/-- What a run makes of its body from some point on, it makes of it from the start. -/
theorem after (h : (tick^[k] w).Ends n r) : w.Ends n r := by
  match r, h with
  | .ok v ds, ⟨j, m, hRun, hDeeds⟩ =>
    rw [← Function.iterate_add_apply] at hRun hDeeds
    exact ⟨j + k, m, hRun, hDeeds⟩
  | .error .stuck ds, ⟨j, hj⟩ =>
    refine ⟨j + k, fun i hi => ?_⟩
    have hLater := hj (i - k) (by omega)
    rwa [← Function.iterate_add_apply, Nat.sub_add_cancel (by omega)] at hLater
  | .error .endless ds, ⟨j, hLe, hDeeds, hRun⟩ =>
    rw [← Function.iterate_add_apply] at hDeeds hRun
    exact ⟨j + k, by omega, hDeeds, hRun⟩

end Ends

/-- A run that ends as its body does, however many rounds that is followed for, performs it. -/
theorem Performs.of_ends {x : Nat → EStateM.Result Halted (List Deed) UInt64} (h : ∀ n, w.Ends n (x n)) : w.Performs x where
  deeds i d := by
    constructor
    · rintro ⟨n, hn⟩
      exact ⟨n, getElem?_of_prefix (h n).deeds hn⟩
    · rintro ⟨n, hn⟩
      obtain ⟨k, hk⟩ := (h n).reached
      exact ⟨k, hk ▸ hn⟩
  returns v := by
    constructor
    · rintro ⟨n, m, hRun⟩
      exact ⟨n, (h n).returns hRun⟩
    · rintro ⟨n, ds, hx⟩
      have hEnds := h n
      rw [hx] at hEnds
      obtain ⟨k, m, hRun, -⟩ := hEnds
      exact ⟨k, m, hRun⟩

end Watch

/-! ## The entry -/

def Deed.isStore : Deed → Bool
  | .store .. => true
  | _ => false

/-- Why a run may end in the entry of its procedure: it is not called as it should be, there is no room for its frame, or a
parameter cannot be stored. -/
def Halt.atEntry : Halt → Bool
  | .argCount .. | .fault | .trapped _ _ .callDepth | .trapped _ _ .stackOverflow | .trapped _ _ (.access "store" _) => true
  | _ => false

/-- The run has ended for a reason that there may be in the entry of its procedure. -/
structure Watch.Stopped (w : Watch) : Prop where
  run : ∃ m h, w.run = .halted m h ∧ h.atEntry = true
  deeds : ∀ d ∈ w.deeds, d.isStore = true

/-- Control is in the entry of its procedure for `n` steps: it goes through instructions that take memory or store, from the
first one on. -/
def Watch.InEntry (w : Watch) (n : Nat) : Prop :=
  ∀ k < n, ∃ m f, (tick^[k] w).run = .running m f [] ∧ f.pos = k ∧ f.instr.isSetup = true

/-- The run ends in the entry of its procedure, before control is in the body. -/
def Watch.Barred (w : Watch) : Prop := ∃ n, w.InEntry n ∧ (tick^[n] w).Stopped

/-- The first frame is in the entry of its procedure. -/
structure Watch.Enters (w : Watch) (N : Nat) (m0 : Machine) (f0 : Frame) (m : Machine) (f : Frame) : Prop where
  run : w.run = .running m f []
  due : w.due = none
  answered : w.answers.length = w.deeds.length
  deeds : ∀ d ∈ w.deeds, d.isStore = true
  like : m0.Like m
  proc : f.proc = f0.proc
  size : f.regs.size = f0.regs.size
  /-- What has arrived in registers is still there. -/
  keeps : f0.Keeps N f

/-- A run that returns has not ended in its entry. -/
theorem Watch.not_barred {w : Watch} (h : (tick^[n] w).run = .returned m v) : ¬w.Barred := by
  rintro ⟨k, -, ⟨m', e, hHalted, -⟩, -⟩
  have hSame : tick^[k] w = tick^[n] w := by
    rcases Nat.le_total n k with hLe | hLe
    · exact iterate_returned h hLe
    · rw [iterate_le hLe]
      exact (iterate_idle (by simp [hHalted]) _).symm
  rw [hSame, h] at hHalted
  cases hHalted

namespace Watch.Enters

variable {T : Text} {w : Watch} {N i : Nat} {m0 m : Machine} {f0 f : Frame}

section

variable (h : w.Enters N m0 f0 m f) (hSteps : m0.limits.maxSteps = 0) (hPos : f.pos = i)

include h hSteps hPos

theorem step {x : Instr} (hx : f0.proc.code[i]? = some x) :
    ∃ m', m.Like m' ∧ f.instr = x ∧ m.step f [] = m'.exec f [] x := by
  have hCode : f.proc.code[i]? = some x := by rw [h.proc, hx]
  refine ⟨{ m with steps := m.steps + 1 }, ⟨rfl, rfl, rfl, .refl⟩, ?_, step_eq (by rw [h.like.limits, hSteps]) hPos hCode⟩
  rw [instr_of_pos hPos, getD_eq_getD_getElem?, hCode]
  rfl

/-- Memory is taken, if there is any. -/
theorem reserve {size align : Int64} (hx : f0.proc.code[i]? = some (.reserve k size align)) (hN : N ≤ k)
    (hk : k < f0.regs.size) :
    w.tick.Stopped ∨ ∃ m' f', w.tick.Enters N m0 f0 m' f' ∧ f'.pos = (i + 1 : Nat) := by
  obtain ⟨m', hLike, hInstr, hStep⟩ := h.step hSteps hPos hx
  have hTick : w.tick = settle { w with run := m.step f [] } := by
    rw [tick_running h.run, note, h.run]
    simp only [Frame.deed?, hInstr, Frame.deedOf?]
  rw [hTick, hStep, Machine.exec, Machine.reserve]
  split
  · exact .inl ⟨⟨_, _, rfl, rfl⟩, h.deeds⟩
  · exact .inl ⟨⟨_, _, rfl, rfl⟩, h.deeds⟩
  · next start stop _ =>
    rw [Frame.define?_eq (h.size ▸ hk)]
    refine .inr ⟨{ m' with memory := m'.memory.take start stop }, f.put k _, ⟨settle_run, ?_, ?_, ?_,
      (h.like.trans hLike).trans ⟨rfl, rfl, rfl, .take⟩, h.proc, ?_, h.keeps.trans (.put hN) le_rfl⟩, ?_⟩
    · simp [Machine.continueWith, settle, h.due]
    · simpa [Machine.continueWith, settle, h.due] using h.answered
    · simpa [Machine.continueWith, settle, h.due] using h.deeds
    · exact Array.size_setIfInBounds.trans h.size
    · rw [Frame.put, hPos]
      rfl

/-- A parameter is stored, if that can be done. -/
theorem store {t : RegType} {align : Int64} (hx : f0.proc.code[i]? = some (.store t k r align)) (hk : k < f0.regs.size)
    (hr : r < f0.regs.size) : w.tick.Stopped ∨ ∃ m' f', w.tick.Enters N m0 f0 m' f' ∧ f'.pos = (i + 1 : Nat) := by
  obtain ⟨m', hLike, hInstr, hStep⟩ := h.step hSteps hPos hx
  obtain ⟨a, ha⟩ : ∃ a, f.reg? k = some a := ⟨_, Frame.reg?_natCast.trans (Array.getElem?_eq_getElem (h.size ▸ hk))⟩
  obtain ⟨v, hv⟩ : ∃ v, f.reg? r = some v := ⟨_, Frame.reg?_natCast.trans (Array.getElem?_eq_getElem (h.size ▸ hr))⟩
  have hTick : w.tick = settle { w with deeds := w.deeds ++ [.store t a v], due := some noReg, run := m.step f [] } := by
    rw [tick_running h.run, note, h.run]
    simp [Frame.deed?, hInstr, Frame.deedOf?, ha, hv]
  have hDeeds : ∀ d ∈ w.deeds ++ [Deed.store t a v], d.isStore = true := by
    simpa [or_imp, forall_and] using ⟨h.deeds, rfl⟩
  rw [hTick, hStep]
  simp only [Machine.exec, ha, Machine.store]
  split
  · exact .inl ⟨⟨_, _, rfl, rfl⟩, hDeeds⟩
  · simp only [hv]
    split
    · exact .inl ⟨⟨_, _, rfl, rfl⟩, hDeeds⟩
    · refine .inr ⟨_, f.next, ⟨rfl, rfl, ?_, hDeeds, (h.like.trans hLike).trans
        ⟨rfl, rfl, rfl, Memory.Alike.write.toSized⟩, h.proc, h.size, h.keeps⟩, ?_⟩
      · simp [settle, h.answered]
      · rw [Frame.next, hPos]
        rfl

end

/-- The entry is got through, or the run ends there. -/
theorem through (hSetup : Setup T N ⟨0, 0, N⟩ ⟨T.start, 0, T.numRegs⟩) (h : w.Enters N m0 f0 m f) (hPos : f.pos = 0)
    (hSteps : m0.limits.maxSteps = 0) (hCode : f0.proc.code = T.code) (hSize : f0.regs.size = T.numRegs)
    (hi : i ≤ T.start) :
    w.Barred ∨ w.InEntry i ∧ ∃ m' f', (tick^[i] w).Enters N m0 f0 m' f' ∧ f'.pos = i := by
  induction i with
  | zero => exact .inr ⟨nofun, m, f, h, hPos⟩
  | succ i ih =>
    rcases ih (Nat.le_of_succ_le hi) with hBarred | ⟨hBefore, m', f', hEnters, hPos'⟩
    · exact .inl hBarred
    -- the next instruction takes memory or stores, and so control is in the entry for one step more, however that ends
    have hNext : f'.instr.isSetup = true ∧ ((tick (tick^[i] w)).Stopped ∨
        ∃ m'' f'', (tick (tick^[i] w)).Enters N m0 f0 m'' f'' ∧ f''.pos = (i + 1 : Nat)) := by
      rcases hSetup.instrs i (Nat.zero_le i) hi with ⟨k, size, align, hx, -, hLe, hLt⟩ |
        ⟨t, k, r, align, hx, hr, j, -, hj, size, align', hTaken⟩
      · obtain ⟨-, -, hInstr, -⟩ := hEnters.step hSteps hPos' (hCode ▸ hx)
        exact ⟨hInstr ▸ rfl, hEnters.reserve hSteps hPos' (hCode ▸ hx) hLe (hSize ▸ hLt)⟩
      · obtain ⟨k, rfl, -, -, hLt⟩ := hSetup.taken (Nat.zero_le j) (hj.trans hi) hTaken
        obtain ⟨-, -, hInstr, -⟩ := hEnters.step hSteps hPos' (hCode ▸ hx)
        exact ⟨hInstr ▸ rfl, hEnters.store hSteps hPos' (hCode ▸ hx) (hSize ▸ hLt) (hSize ▸ hr.trans_le hSetup.high_le)⟩
    have hIn : w.InEntry (i + 1) := fun k hk => by
      rcases Nat.lt_succ_iff_lt_or_eq.mp hk with hLt | rfl
      · exact hBefore k hLt
      · exact ⟨m', f', hEnters.run, hPos', hNext.1⟩
    rw [← Function.iterate_succ_apply' tick i w] at hNext
    rcases hNext.2 with hStopped | hEntered
    · exact .inl ⟨i + 1, hIn, hStopped⟩
    · exact .inr ⟨hIn, hEntered⟩

end Watch.Enters

/-! ## Results -/

theorem lookup_eq_some_iff_mem {l : List (Nat × α)} {a : α} (h : (l.map (·.1)).Nodup) :
    l.lookup i = some a ↔ (i, a) ∈ l := by
  induction l with
  | nil => simp
  | cons x l ih =>
    obtain ⟨j, b⟩ := x
    obtain ⟨hj, hl⟩ := nodup_cons.mp h
    by_cases hi : i = j
    · subst hi
      simp only [lookup_cons_self, some.injEq, mem_cons, Prod.mk.injEq, true_and]
      refine ⟨fun hEq => .inl hEq.symm, ?_⟩
      rintro (hEq | hMem)
      · exact hEq.symm
      · exact absurd (mem_map_of_mem hMem) hj
    · have hNe : (i == j) = false := beq_eq_false_iff_ne.mpr hi
      simp [lookup_cons, hNe, ih hl, hi]

/-- Each result that is written through a pointer has one. -/
theorem Convention.nodup_hidden {direct : DirectSize} {ins outs : List Ty} {sig : Sig}
    (hSig : sig? direct ins outs = some sig) :
    (sig.hidden.map (·.result)).Nodup := by
  obtain ⟨-, -, ⟨-, -, hNone⟩ | ⟨t, -, -, hHidden⟩⟩ := sig?_eq_some hSig
  · simp [hNone]
  · have hEarly : (outs.dropLast.mapIdx fun i t => (⟨i, t⟩ : Hidden)).map (·.result) = List.range (outs.length - 1) := by
      refine List.ext_getElem (by simp) fun i _ _ => by simp
    rw [hHidden, hiddenResults]
    split
    · rw [List.map_cons, hEarly]
      exact List.nodup_cons.mpr ⟨by simp, List.nodup_range⟩
    · rw [hEarly]
      exact List.nodup_range

/-! ## The body -/

namespace Text

variable {T : Text} {floor : Nat} {α : Type} {x : Shape α} {s s' : Site} {a : α} {pos : Nat}

theorem Runs.slots_eq (h : T.Runs floor x s a s') : s'.slots = s.slots := by
  obtain ⟨-, n, p, -, -, rfl⟩ := h
  rfl

theorem Region.slots_eq (h : T.Region s pos s') : s'.slots = s.slots := by
  obtain ⟨-, -, rfl⟩ := h
  rfl

theorem Jump.slots_eq (h : T.Jump s pos s') : s'.slots = s.slots := by
  obtain ⟨-, rfl⟩ := h
  rfl

theorem Skip.slots_eq (h : T.Skip s pos s') : s'.slots = s.slots := by
  rcases h with ⟨-, rfl⟩ | ⟨-, hJump⟩
  · rfl
  · exact hJump.slots_eq

end Text

/-- Memory for a local is taken at the entry. -/
theorem Flow.settled {T : Text} {ts : List Target} {floor : Nat} {task : Task} {s s' : Site} (h : Flow T ts floor task s s')
    (hs : T.Settled s.slots) : T.Settled s'.slots := by
  induction h with
  | dead _ | nil | closeDead _ | stay _ | undeferred | noCases | defer _ _ => exact hs
  | block _ _ ih | close _ _ ih => exact ih hs
  | expr hRuns | assign hRuns | compound hRuns => exact hRuns.slots_eq ▸ hs
  | decl _ hReserve hDeclared =>
    obtain ⟨-, _, _, -, ⟨rfl, -, -, ⟨i, hi, hTaken⟩, rfl⟩, rfl⟩ := hReserve
    -- only a declaration adds a slot, and its memory is taken at the entry
    rw [hDeclared.slots_eq]
    exact forall_mem_cons.mpr ⟨.inr ⟨i, hi, _, _, hTaken⟩, hs⟩
  | cond hTest _ _ hEnd ih => exact hEnd.slots_eq ▸ ih (hTest.slots_eq ▸ hs)
  | condElse hTest _ _ hSkip hOther _ hEnd ihYes ihNo =>
    have hNo := ihNo (hOther.slots_eq ▸ hSkip.slots_eq ▸ ihYes (hTest.slots_eq ▸ hs))
    split at hEnd
    · exact hEnd ▸ hNo
    · exact hEnd.slots_eq ▸ hNo
  | @loop ts floor init test post body head next exit t s s1 s2 s3 s4 s5 s6 s7 s8 s' _ hNoInit _ hHead hTest _ _ hNoPost
      hNext _ hSkip hExit _ ihInit ihBody ihPost ihClose =>
    -- the sites of a loop in order; a part that is absent leaves its site as it is
    have hInit : T.Settled s1.slots := by
      cases hAbsent : init.isAbsent with
      | true => exact hNoInit hAbsent ▸ hs
      | false => exact ihInit hAbsent hs
    have hTested : s3.slots = s2.slots := by
      split at hTest
      · rw [hTest]
      · obtain ⟨otherwise, -, hCond⟩ := hTest
        exact hCond.slots_eq
    have hBody := ihBody (hTested ▸ hHead.slots_eq ▸ hInit)
    have hPost : T.Settled s6.slots := by
      cases hAbsent : post.isAbsent with
      | true => exact (hNoPost hAbsent).2 ▸ hBody
      | false => exact ihPost hAbsent ((hNext hAbsent).slots_eq ▸ hBody)
    have hEnd : s8.slots = s7.slots := by
      cases exit with
      | none => rw [show s8 = s7 from hExit]
      | some pos => exact Text.Region.slots_eq hExit
    exact ihClose (hEnd ▸ hSkip.slots_eq ▸ hPost)
  | whileDo _ hHead hTest _ hSkip hEnd ih =>
    exact hEnd.slots_eq ▸ hSkip.slots_eq ▸ ih (hTest.slots_eq ▸ hHead.slots_eq ▸ hs)
  | doWhile _ hHead _ hNext hTest hJump hEnd ih =>
    exact hEnd.slots_eq ▸ hJump.slots_eq ▸ hTest.slots_eq ▸ hNext.slots_eq ▸ ih (hHead.slots_eq ▸ hs)
  | switch hTag _ _ _ _ hEnd ih => exact hEnd.slots_eq ▸ ih (hTag.slots_eq ▸ hs)
  | breakOut _ _ _ _ hJump ih | continueLoop _ _ _ _ hJump ih | fallthrough _ _ _ _ hJump ih => exact hJump.slots_eq ▸ ih hs
  | ret _ _ _ _ hRet ih =>
    split at hRet
    · exact hRet ▸ ih hs
    · exact hRet.2 ▸ ih hs
  | cons _ _ ihFirst ihRest | scope _ _ ihFirst ihRest | deferred _ _ ihFirst ihRest => exact ihRest (ihFirst hs)
  | leave _ _ _ _ ihFirst ihRest => exact ihRest (ihFirst hs)
  | case hStart _ hSkip _ ihBody ihRest => exact ihRest (hSkip.slots_eq ▸ ihBody (hStart.slots_eq ▸ hs))

/-- Where result `i`, of type `t`, of a procedure goes, given the words that it is called with. -/
def Sig.outlet (sig : Sig) (args : List UInt64) (i : Nat) (t : Ty) : Outlet :=
  match ((sig.hidden.map (·.result)).zip args).lookup i with
  | some a => .memory t a
  | none => if sig.ret.rule = .direct then .register else .nowhere

/-- Where the results of a procedure go, given the words that it is called with. -/
def Sig.outlets (sig : Sig) (args : List UInt64) : List Outlet := sig.results.mapIdx (sig.outlet args)

namespace Scene

variable {E : Scene} {n : Nat} {f : Frame} {v : UInt64} {w : Watch} {m : Machine}

theorem delivered_mapIdx {g : Nat → Ty → Outlet} (ts : List Ty) (h : ∀ j t, E.Delivered j [t] [g j t]) :
    E.Delivered i ts (ts.mapIdx fun j => g (i + j)) := by
  induction ts generalizing i with
  | nil => trivial
  | cons t ts ih =>
    rw [mapIdx_cons]
    refine ⟨(h i t).1, ?_⟩
    simpa only [Nat.add_assoc, Nat.add_comm 1] using ih (i := i + 1)

/-- The results of a procedure are delivered as its convention says. -/
theorem delivers {args : List UInt64} (hOuts : E.text.outs = (E.text.sig.hidden.mapIdx fun i h => (h.result, (i : Reg))).reverse)
    (hNodup : (E.text.sig.hidden.map (·.result)).Nodup)
    (hFixed : ∀ i < E.text.sig.hidden.length, E.text.fixed i ∧ i < E.text.numRegs)
    (hOutlets : E.setting.outlets = E.text.sig.outlets args)
    (hEntry : ∀ i < E.text.sig.hidden.length, ∃ a, args[i]? = some a ∧ E.entry i = some a) : E.Delivers := by
  have hKeys : (E.text.outs.map (·.1)).Nodup := by
    have hMap : (E.text.sig.hidden.mapIdx fun i h => (h.result, (i : Reg))).map (·.1) = E.text.sig.hidden.map (·.result) :=
      List.ext_getElem (by simp) fun i _ _ => by simp
    rw [hOuts, List.map_reverse, List.nodup_reverse, hMap]
    exact hNodup
  have hMem : ∀ j (r : Reg), (j, r) ∈ E.text.outs ↔
      ∃ k : Nat, (E.text.sig.hidden.map (·.result))[k]? = some j ∧ r = k := fun j r => by
    rw [hOuts, List.mem_reverse, List.mem_iff_getElem?]
    simp only [List.getElem?_mapIdx, List.getElem?_map, Option.map_eq_some_iff, Prod.mk.injEq]
    grind
  have hLength : (E.text.sig.hidden.map (·.result)).length ≤ args.length := by
    rw [List.length_map]
    by_contra hShort
    obtain ⟨a, ha, -⟩ := hEntry args.length (Nat.lt_of_not_le hShort)
    simp at ha
  have hZip : (((E.text.sig.hidden.map (·.result)).zip args).map (·.1)).Nodup := by
    rw [List.map_fst_zip hLength]
    exact hNodup
  -- a result has a pointer in the signature if and only if the entry kept one for it
  have hEach : ∀ j t, E.Delivered j [t] [E.text.sig.outlet args j t] := fun j t => by
    refine ⟨?_, trivial⟩
    rw [Sig.outlet]
    cases hLookup : ((E.text.sig.hidden.map (·.result)).zip args).lookup j with
    | some a =>
      obtain ⟨k, hPair⟩ := List.mem_iff_getElem?.mp ((lookup_eq_some_iff_mem hZip).mp hLookup)
      obtain ⟨hHidden, hArg⟩ := List.getElem?_zip_eq_some.mp hPair
      have hk : k < E.text.sig.hidden.length := by simpa using (List.getElem?_eq_some_iff.mp hHidden).1
      obtain ⟨a', ha', hReg⟩ := hEntry k hk
      cases hArg.symm.trans ha'
      exact ⟨rfl, k, (lookup_eq_some_iff_mem hKeys).mpr ((hMem j k).mpr ⟨k, hHidden, rfl⟩), (hFixed k hk).2,
        (hFixed k hk).1, hReg⟩
    | none =>
      have hNone : E.text.outs.lookup j = none := by
        by_contra hSome
        obtain ⟨r, hr⟩ := Option.ne_none_iff_exists'.mp hSome
        obtain ⟨k, hHidden, -⟩ := (hMem j r).mp ((lookup_eq_some_iff_mem hKeys).mp hr)
        have hk : k < E.text.sig.hidden.length := by simpa using (List.getElem?_eq_some_iff.mp hHidden).1
        obtain ⟨a, ha, -⟩ := hEntry k hk
        have hPair : (j, a) ∈ (E.text.sig.hidden.map (·.result)).zip args :=
          List.mem_iff_getElem?.mpr ⟨k, List.getElem?_zip_eq_some.mpr ⟨hHidden, ha⟩⟩
        cases hLookup.symm.trans ((lookup_eq_some_iff_mem hZip).mpr hPair)
      by_cases hDirect : E.text.sig.ret.rule = .direct
      · simp only [hDirect, if_true]
        exact ⟨hNone, trivial⟩
      · simp only [hDirect, if_false]
        exact ⟨hNone, hDirect⟩
  simpa only [Delivers, hOutlets, Sig.outlets, Nat.zero_add] using delivered_mapIdx (i := 0) E.text.sig.results hEach

/-- A run that is at a return ends with what is returned. -/
theorem Stands.returned (hw : E.Stands w m f) (h : E.Returns v f) :
    ∃ m', w.tick.run = .returned m' v ∧ w.tick.deeds = w.deeds := by
  obtain ⟨i, r, hPos, hCode, hv⟩ := h
  obtain ⟨m', -, -, hInstr, hStep⟩ := hw.step hPos hCode
  have hRun : m.step f [] = .returned (m'.leave f) v := by
    rw [hStep, Machine.exec]
    rcases hv with ⟨rfl, rfl⟩ | hv
    · rfl
    · have hReg : r ≠ noReg := by
        rintro rfl
        cases hv
      rw [if_neg hReg, hv]
      rfl
  have hTick : w.tick = settle { w with run := m.step f [] } := by
    rw [tick_running hw.run, note, hw.run]
    simp only [Frame.deed?, hInstr, Frame.deedOf?]
  rw [hTick, settle_run, settle_deeds]
  exact ⟨_, hRun, rfl⟩

/-- The end of a body that is reached returns zero. -/
theorem implicitReturn_does {p p' : Point} {u : Unit} {Q : α → Frame → Prop} {c : Eval α}
    (h : Shape.implicitReturn E.text p u p')
    (hPos : f.pos = p.pos) (hNext : ∀ f', E.Fits f' → E.Returns 0 f' → E.Does n f' c Q) : E.Does n f c Q := by
  obtain ⟨_, _, ⟨rfl, rfl⟩, h⟩ := h
  rw [Shape.ite_iff] at h
  refine .of_fits fun hFits => ?_
  split at h
  · exact hNext f hFits ⟨_, noReg, hPos, h.1, .inl ⟨rfl, rfl⟩⟩
  · obtain ⟨r, q, hImm, hRet⟩ := h
    refine imm_does (l := E.text.slots) hImm hPos fun f' hr => hNext f' hr.fits ⟨_, r, hr.pos, hRet.1, .inr ?_⟩
    rw [hr.reg]
    cases E.text.sig.retReg <;> rfl

/-- **A body does what it says**, and control gets to a return of its result. -/
theorem body_does {params : List Variable} {body : List Stmt} {entry : Point} {slots : List (Nat × Reg)} {stop : Site}
    (hLowers : E.text.Lowers params body entry slots stop) (hDelivers : E.Delivers) (hn : E.setting.rounds = n)
    (hRegular : listRegular body = true) (hOrdered : listOrdered [] body = true) (hKnows : ∀ i, E.Knows stop.slots i)
    (hPos : f.pos = E.text.start) : E.Does n f (execBody E.setting body) E.Returns := by
  refine .of_fits fun hFits => ?_
  have hObeys := (obeys hDelivers hn hLowers.flow hRegular hOrdered nofun).2 fun i _ => hKnows i
  refine (hObeys .all f (listStays_all body) ⟨nofun, nofun⟩ ⟨rfl, hPos, hFits⟩).bind fun e f' _ hAfter => ?_
  cases e with
  | done =>
    have hArrived : E.Arrived 0 stop f f' := hAfter
    obtain ⟨k, q, hReturn, -⟩ := by simpa only [hArrived.here.live, Bool.false_eq_true, if_false] using hLowers.ending
    exact implicitReturn_does hReturn hArrived.here.pos fun f'' _ h => .pure fun _ => h
  | broke | continued | fell =>
    obtain ⟨-, _, _, hNone, -⟩ := hAfter
    cases hNone
  | returned v => exact .pure fun _ => hAfter.2

/-- The run of a body ends as the body does. -/
theorem Does.ends {x : Eval UInt64} (h : E.Does n f x E.Returns) (hw : E.Stands w m f) : w.Ends n (x w.deeds) := by
  have hFollows := h w m hw
  cases hx : x w.deeds with
  | ok v ds =>
    rw [hx] at hFollows
    obtain ⟨k, m', f', hStands, hDeeds, hReturns⟩ := hFollows
    obtain ⟨m'', hRun, hSame⟩ := hStands.returned hReturns
    rw [← Function.iterate_succ_apply' tick k w] at hRun hSame
    exact ⟨k + 1, m'', hRun, hSame.trans hDeeds⟩
  | error e ds =>
    rw [hx] at hFollows
    cases e with
    | stuck | endless => exact hFollows

end Scene

/-! ## Built procedures -/

/-- The call of a procedure. -/
def Watch.ofCall (m : Machine) (p : Proc) (args : List UInt64) : Watch := { run := m.enter p args [] }

/-- The run gets through the entry of its procedure in `n` steps, and does this there. The first frame is then at the
body. -/
structure Watch.Passes (w : Watch) (n : Nat) (f : Frame) (ds : List Deed) : Prop where
  before : w.InEntry n
  run : ∃ m, (tick^[n] w).run = .running m f []
  pos : f.pos = n
  deeds : (tick^[n] w).deeds = ds
  stores : ∀ d ∈ ds, d.isStore = true

/-- The body of a procedure that is called meets with this, where `ds` has been done in the entry. -/
structure Setting.Met (S : Setting) (config : Config) (r : Built) (m : Machine) (args : List UInt64) (ds : List Deed) :
    Prop where
  direct : S.direct = config.direct
  given : (ofCall m r.proc args).Answers S.given
  named : (ofCall m r.proc args).Names S.named
  address : S.address = m.address?
  outlets : S.outlets = r.sig.outlets args
  /-- A variable is where memory has been taken for it in the entry, or where the caller has put it. -/
  home : ∃ n f slots, (ofCall m r.proc args).Passes n f ds ∧ (∀ i, S.home i = (lookup i slots).bind f.reg?) ∧
    ∀ x ∈ slots, (∃ k : Nat, x.2 = k ∧ k < r.proc.params.length) ∨
      ∃ j < n, ∃ size align, r.proc.code[j]? = some (.reserve x.2 size align)

namespace Watch

/-- A procedure that is called is entered with its arguments in its first registers. -/
theorem ofCall_enters (m : Machine) (p : Proc) (args : List UInt64) : (ofCall m p args).Stopped ∨
  ∃ m' f, (ofCall m p args).Enters p.params.length m f m' f ∧ f.proc = p ∧ f.pos = 0 ∧
    f.regs.size = max p.params.length p.numRegs.toNat ∧
      ∀ (k : Nat) (hk : k < p.params.length), ∃ a, args[k]? = some a ∧ f.reg? k = some (Word.canon p.params[k] a) := by
  rw [ofCall, Machine.enter]
  split
  · exact .inl ⟨⟨_, _, rfl, rfl⟩, List.forall_mem_nil _⟩
  next hArgs =>
  split
  · exact .inl ⟨⟨_, _, rfl, rfl⟩, List.forall_mem_nil _⟩
  split
  · exact .inl ⟨⟨_, _, rfl, rfl⟩, List.forall_mem_nil _⟩
  simp only [ne_eq, Decidable.not_not] at hArgs
  refine .inr ⟨_, _, ⟨rfl, rfl, rfl, List.forall_mem_nil _, ⟨rfl, rfl, rfl, .refl⟩, rfl, rfl, .refl⟩, rfl, rfl, ?_,
    fun k hk => ?_⟩
  · simp only [Array.size_append, List.size_toArray, List.length_zipWith, Array.size_replicate, hArgs]
    omega
  · refine ⟨args[k], List.getElem?_eq_getElem _, ?_⟩
    rw [Frame.reg?_natCast, Array.getElem?_append_left (by simpa [hArgs] using hk)]
    simp [hk, hArgs]

end Watch

/-- Nothing is done in an entry that is empty. -/
theorem Setting.Met.nothing_done {S : Setting} {config : Config} {r : Built} {args : List UInt64} {ds : List Deed}
    (h : S.Met config r m args ds) (hFirst : r.proc.code[0]?.map (·.isSetup) = some false) : ds = [] := by
  obtain ⟨n, f, slots, hPasses, -⟩ := h.home
  cases n with
  | zero => exact hPasses.deeds.symm
  | succ n =>
    obtain ⟨m1, f1, hRun, hPos, hInstr⟩ := hPasses.before 0 n.succ_pos
    rcases ofCall_enters m r.proc args with ⟨⟨m2, e, hHalted, -⟩, -⟩ | ⟨m2, f2, hEnters, hProc, -⟩
    · cases hHalted.symm.trans hRun
    · cases hEnters.run.symm.trans hRun
      obtain ⟨x, hx, hSetup⟩ := map_eq_some_iff.mp hFirst
      rw [instr_of_pos hPos, hProc, getD_eq_getD_getElem?, hx, getD_some, hSetup] at hInstr
      cases hInstr

/-- What a body meets with, given the frame in which it starts and the slots of its variables. -/
def Text.setting (T : Text) (m : Machine) (slots : List (Nat × Reg)) (f : Frame) (given : Nat → Option UInt64)
    (named : Nat → Nat → Option UInt64) (args : List UInt64) (rounds : Nat) : Setting where
  direct := T.direct
  given
  named
  home i := (slots.lookup i).bind f.reg?
  address := m.address?
  outlets := T.sig.outlets args
  rounds

namespace Text.Lowers

variable {T : Text} {params : List Variable} {body : List Stmt} {entry : Point} {slots : List (Nat × Reg)} {stop : Site}
  {m m0 : Machine}
  {f0 f : Frame} {given : Nat → Option UInt64} {named : Nat → Nat → Option UInt64} {args : List UInt64} {n : Nat}
  {w : Watch}

theorem settled (h : T.Lowers params body entry slots stop) : T.Settled stop.slots := by
  exact h.flow.settled h.setup.2.2

/-- **A body does what it says**, from the frame on in which its procedure has been entered. -/
theorem ends {ins outs : List Ty} (h : T.Lowers params body entry slots stop)
    (hSig : Convention.sig? T.direct ins outs = some T.sig)
    (hw : w.Enters T.sig.regParams.length m0 f0 m f) (hPos : f.pos = T.start) (hSteps : m0.limits.maxSteps = 0)
    (hCode : f0.proc.code = T.code) (hSize : f0.regs.size = T.numRegs) (hGiven : w.Answers given) (hNamed : w.Names named)
    (hHidden : ∀ i < T.sig.hidden.length, ∃ a, args[i]? = some a ∧ f0.reg? i = some a)
    (hRegular : listRegular body = true) (hOrdered : listOrdered [] body = true) :
    w.Ends n (execBody (T.setting m0 stop.slots f given named args n) body w.deeds) := by
  let E : Scene :=
    { setting := T.setting m0 stop.slots f given named args n, text := T, proc := f0.proc, entry := fun j => f.reg? j
      code_eq := hCode, direct_eq := rfl }
  have hStands : E.Stands w m f := ⟨hw.run, hw.due, hw.answered, hGiven, hNamed, by rw [hw.like.limits, hSteps], hw.like.address?,
    hw.proc, hw.size.trans hSize, fun _ _ => rfl⟩
  have hFirst : T.sig.hidden.length ≤ T.sig.regParams.length := by
    rw [Sig.length_regParams]
    exact Nat.le_add_right _ _
  have hDelivers : E.Delivers := by
    refine Scene.delivers h.outs (Convention.nodup_hidden hSig)
      (fun i hi => ⟨h.outs_fixed i hi, h.fixed_lt i (h.outs_fixed i hi)⟩) rfl fun i hi => ?_
    obtain ⟨a, ha, hReg⟩ := hHidden i hi
    exact ⟨a, ha, (hw.keeps i (hi.trans_le hFirst)).trans hReg⟩
  -- the register of a slot is written in the entry only, and its value there is the home of the variable
  have hKnows : ∀ i, E.Knows stop.slots i := fun i => by
    rw [Scene.Knows]
    split
    · next r hr =>
      obtain ⟨k, rfl, hFixed⟩ : ∃ k : Nat, r = k ∧ T.fixed k := by
        rcases h.settled (i, r) (mem_of_lookup hr) with ⟨k, hk, hFixed, -⟩ | ⟨j, hj, _, _, hTaken⟩
        · exact ⟨k, hk, hFixed⟩
        · obtain ⟨k, hk, hFixed, -⟩ := h.setup.1.taken (Nat.zero_le j) hj hTaken
          exact ⟨k, hk, hFixed⟩
      have hLt := h.fixed_lt k hFixed
      exact ⟨k, rfl, hFixed, hLt, by simp [E, Text.setting, hr]⟩
    · next hNone => simp [E, Text.setting, hNone]
  exact (Scene.body_does h hDelivers rfl hRegular hOrdered hKnows hPos).ends hStands

end Text.Lowers

namespace ProcDecl

variable {p : ProcDecl} {config : Config} {r : Built} {body : List Stmt}

/-- **A built procedure ends as its body does**, unless it ends in its entry. -/
theorem build_ends (m : Machine) (args : List UInt64) (h : (p.build config).built = .ok r) (hBody : p.body = some body)
    (hRegular : listRegular body = true) (hOrdered : listOrdered [] body = true)
    (hSteps : m.limits.maxSteps = 0) :
    (ofCall m r.proc args).Barred ∨ ∃ (S : Setting) (ds : List Deed), S.Met config r m args ds ∧
      ∀ n, (ofCall m r.proc args).Ends n (execBody { S with rounds := n } body ds) := by
  obtain ⟨body', sig, F, hSome, hSig, hRun, hFreeze, hParams, hRegs, hSig', -⟩ := build_eq_ok h
  cases hSome.symm.trans hBody
  obtain ⟨hClosed, rfl, rfl, entry, slots, stop, hLowers⟩ := Build.unfrozen_lowers hRun
  obtain ⟨hSetup, -, -⟩ := hLowers.setup
  rcases ofCall_enters m r.proc args with hBarred | ⟨m1, f1, hEnters, hProc, hPos, hSize, hArgs⟩
  · exact .inl ⟨0, nofun, hBarred⟩
  have hCode : f1.proc.code = (F.text []).code := by rw [hProc, hClosed.freeze_eq hFreeze]
  have hRegsSize : f1.regs.size = (F.text []).numRegs := by
    rw [hSize, hParams, hRegs]
    exact max_eq_right hSetup.high_le
  rw [hParams] at hEnters
  -- what the procedure sets up comes before its body and may end in a trap
  rcases hEnters.through hSetup hPos hSteps hCode hRegsSize le_rfl with hBarred | ⟨hBefore, m2, f2, hEntered, hStart⟩
  · exact .inl hBarred
  obtain ⟨given, hGiven⟩ := (ofCall m r.proc args).exists_answers
  obtain ⟨named, hNamed⟩ := (ofCall m r.proc args).exists_names
  have hHidden : ∀ i < F.sig.hidden.length, ∃ a, args[i]? = some a ∧ f1.reg? i = some a := fun i hi => by
    have hLt : i < r.proc.params.length := by
      rw [hParams, Sig.length_regParams]
      exact hi.trans_le (Nat.le_add_right _ _)
    have hPtr : r.proc.params[i] = .ptr := by simp [hParams, Sig.regParams, hi]
    obtain ⟨a, ha, hReg⟩ := hArgs i hLt
    exact ⟨a, ha, by rwa [hPtr] at hReg⟩
  have hPasses : (ofCall m r.proc args).Passes (F.text []).start f2 _ :=
    ⟨hBefore, ⟨m2, hEntered.run⟩, hStart, rfl, hEntered.deeds⟩
  have hSlots : ∀ x ∈ stop.slots, (∃ k : Nat, x.2 = k ∧ k < r.proc.params.length) ∨
      ∃ j < (F.text []).start, ∃ size align, r.proc.code[j]? = some (.reserve x.2 size align) := fun x hx => by
    rcases hLowers.settled x hx with ⟨k, hk, -, hLt⟩ | ⟨j, hj, size, align, hTaken⟩
    · exact .inl ⟨k, hk, hParams ▸ hLt⟩
    · exact .inr ⟨j, hj, size, align, hProc ▸ hCode ▸ hTaken⟩
  -- the setting is read off the frame that the entry has left
  refine .inr ⟨(F.text []).setting m stop.slots f2 given named args 0, _, ⟨rfl, hGiven, hNamed, rfl,
    congrArg (Sig.outlets · _) hSig'.symm, _, f2, stop.slots, hPasses, fun i => rfl, hSlots⟩, fun n =>
      .after (k := (F.text []).start) ?_⟩
  exact hLowers.ends hSig hEntered hStart hSteps hCode hRegsSize (hGiven.iterate _)
    (hNamed.iterate _) hHidden hRegular hOrdered

/-- **A built procedure does what its body says**, unless it ends in its entry. -/
theorem build_performs (m : Machine) (args : List UInt64) (h : (p.build config).built = .ok r) (hBody : p.body = some body)
    (hRegular : listRegular body = true) (hOrdered : listOrdered [] body = true)
    (hSteps : m.limits.maxSteps = 0) :
    (ofCall m r.proc args).Barred ∨ ∃ (S : Setting) (ds : List Deed), S.Met config r m args ds ∧
      (ofCall m r.proc args).Performs fun n => execBody { S with rounds := n } body ds := by
  rcases build_ends m args h hBody hRegular hOrdered hSteps with hBarred | ⟨S, ds, hMet, hEnds⟩
  · exact .inl hBarred
  · exact .inr ⟨S, ds, hMet, .of_ends hEnds⟩

end ProcDecl

end Comptime
