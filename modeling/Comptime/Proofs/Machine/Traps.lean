import Comptime.Proofs.Machine.Calls
import Comptime.Proofs.Rounding

/-!
# Runs that trap

Code may be in order, with operands, branch targets and types that are there, and a call of it still end in a fault
(`faulty_faults`). There are two reasons for that and no other (`Machine.Slips`): a divisor that is zero only once it is cut
to the width of the division, and a stretch of the stack whose end is no word.
-/

namespace Comptime

open List

/-! ## Rounding on the stack -/

/-- What a stretch of memory is aligned to. -/
def grain (align : Int64) : Nat := (max align 1).toInt.toNat

theorem toInt_grain (align : Int64) : (max align 1).toInt = grain align ∧ 0 < grain align := by
  have hPos : 1 ≤ (max align 1).toInt := by
    show 1 ≤ (if align ≤ 1 then 1 else align).toInt
    split
    · decide
    · next hLe =>
      rw [Int64.le_iff_toInt_le, show (1 : Int64).toInt = 1 from rfl] at hLe
      omega
  rw [grain]
  omega

/-- Unless a sum wraps, the stretch is the exact one. -/
theorem Memory.room_eq {m : Memory} {size align : Int64} {n : Nat} (hSize : size.toInt = n)
    (hSp : m.sp + grain align ≤ 2 ^ 63) (hEnd : ceil m.sp (grain align) + n < 2 ^ 63) :
    m.room size align = if (Int64.ofNat m.stack.size).toInt < (ceil m.sp (grain align) + n : Nat) then .overflow
      else .free (ceil m.sp (grain align)) (ceil m.sp (grain align) + n) := by
  obtain ⟨hAlign, hPos⟩ := toInt_grain align
  have hOff := toInt_alignUp (toInt_int64_ofNat (by omega)) hAlign hPos hSp
  have hStop := toInt_add hOff hSize hEnd
  have hOrder : 0 ≤ alignUp (Int64.ofNat m.sp) (max align 1) ∧
      alignUp (Int64.ofNat m.sp) (max align 1) ≤ alignUp (Int64.ofNat m.sp) (max align 1) + size := by
    rw [Int64.le_iff_toInt_le, Int64.le_iff_toInt_le, hOff, hStop]
    exact ⟨by simp, by omega⟩
  rw [room]
  simp only [gt_iff_lt, Int64.lt_iff_toInt_lt, hStop, if_pos hOrder, hOff, Int.toNat_natCast]

/-! ## Procedures in order -/

/-- What has a type has one with a size, and a stretch of the stack is not asked for in negative numbers. -/
def Instr.isMeant : Instr → Bool
  | .bin _ ty _ _ _ | .load ty _ _ _ | .store ty _ _ _ => ty.size != 0
  | .reserve _ size align => 0 ≤ size && 1 ≤ align
  | _ => true

/-- A procedure whose operands are registers it has, and whose branches lead to positions of its code. -/
structure Proc.Sound (p : Proc) : Prop where
  operands : ∀ x ∈ p.code, ∀ r ∈ x.needs, 0 ≤ r ∧ r < p.numRegs
  targets : ∀ x ∈ p.code, ∀ t ∈ x.targets, 0 ≤ t ∧ t < p.code.size
  meant : ∀ x ∈ p.code, x.isMeant = true
  numRegs : p.numRegs ≤ Machine.tooManyRegs

/-- A frame of such a procedure that has its registers. -/
structure Frame.Equipped (f : Frame) : Prop where
  sound : f.proc.Sound
  regs : f.proc.numRegs ≤ f.regs.size
  pos : 0 ≤ f.pos

namespace Frame

variable {f f' : Frame} {r : Reg}

theorem instr_mem (f : Frame) : f.instr ∈ f.proc.code ∨ f.instr = .hole := by
  rw [instr]
  split
  · exact .inr rfl
  · rw [Array.getD_eq_getD_getElem?]
    cases hx : f.proc.code[f.pos.toNat]? with
    | none => exact .inr rfl
    | some x => exact .inl (Array.mem_of_getElem? hx)

theorem Equipped.reg?_ne_none (h : f.Equipped) (hr : r ∈ f.instr.needs) : f.reg? r ≠ none := by
  rcases f.instr_mem with hMem | hHole
  · have hBounds := h.sound.operands f.instr hMem r hr
    rw [ne_eq, reg?_eq_none_iff, not_not]
    exact ⟨hBounds.1, Int.lt_of_lt_of_le hBounds.2 h.regs⟩
  · rw [hHole] at hr
    cases hr

theorem Equipped.moves (h : f.Equipped) (hMoves : f.Moves f.instr f') : f'.Equipped := by
  refine ⟨hMoves.proc ▸ h.sound, by rw [hMoves.proc, hMoves.size]; exact h.regs, ?_⟩
  rcases hMoves.pos with ⟨-, hNext⟩ | hTarget
  · have hPos := h.pos
    omega
  · rcases f.instr_mem with hMem | hHole
    · exact (h.sound.targets f.instr hMem f'.pos hTarget).1
    · rw [hHole] at hTarget
      cases hTarget

theorem Equipped.start (hSound : f.proc.Sound) (hPos : f.pos = 0)
    (hSize : f.regs.size = max f.proc.params.length f.proc.numRegs.toNat) : f.Equipped := ⟨hSound, by omega, by omega⟩

end Frame

/-! ## Faults -/

/-- The frame is about to divide by something that only its low bits make zero, or to take a stretch of the stack that ends
behind the last word. -/
def Machine.Slips (m : Machine) (f : Frame) : Prop :=
  (∃ op ty dst l r b, f.instr = .bin op ty dst l r ∧ (op = .udiv ∨ op = .urem) ∧ f.reg? r = some b ∧ b ≠ 0 ∧
      Word.zext ty b = 0) ∨
    ∃ dst size align, f.instr = .reserve dst size align ∧
      (2 ^ 63 < m.memory.sp + grain align ∨ 2 ^ 63 ≤ ceil m.memory.sp (grain align) + size.toInt.toNat)

theorem Word.binary_unguarded {op : Op} {t : RegType} {a b : UInt64} (h : binary op t a b = .error .unguarded)
    (ht : t.size ≠ 0) : (op = .udiv ∨ op = .urem) ∧ b ≠ 0 ∧ zext t b = 0 := by
  have hWidth : width t ≠ 0 := by
    cases t with
    | void | other => exact absurd rfl ht
    | _ => decide
  have hQuot {f : UInt64 → UInt64 → UInt64} (hf : unsignedQuot f t a b = .error .unguarded) : b ≠ 0 ∧ zext t b = 0 := by
    rw [unsignedQuot] at hf
    split at hf
    · cases hf
    · next hb =>
      split at hf
      · next hz => exact ⟨hb, hz⟩
      · cases hf
  rw [binary] at h
  split at h
  · split at h <;> cases h
  · cases op with
    | udiv => exact ⟨.inl rfl, hQuot h⟩
    | urem => exact ⟨.inr rfl, hQuot h⟩
    | sdiv | srem =>
      simp only [integer, signedQuot] at h
      split at h <;> cases h
    | shl | lshr | ashr =>
      simp only [integer, shift, if_neg hWidth] at h
      cases h
    | _ => cases h

namespace Machine

variable {m m' : Machine} {f : Frame} {ws : List Waiting}

theorem Faults.slips (hFrame : f.Equipped) (h : m.Faults f f.instr) : m.Slips f := by
  have hMeant : f.instr.isMeant = true := by
    rcases f.instr_mem with hMem | hHole
    · exact hFrame.sound.meant f.instr hMem
    · rw [hHole]
      rfl
  have hNeeds (r : Reg) (hr : r ∈ f.instr.needs) : f.reg? r ≠ none := hFrame.reg?_ne_none hr
  rw [Slips]
  generalize f.instr = x at h hMeant hNeeds
  cases h with
  | operand hr hNone => exact absurd hNone (hNeeds _ hr)
  | emptyLoad hEmpty | emptyStore hEmpty => exact absurd hEmpty (by simpa [Instr.isMeant] using hMeant)
  | unguarded _ hb hBinary =>
    obtain ⟨hOp, hNe, hCut⟩ := Word.binary_unguarded hBinary (by simpa [Instr.isMeant] using hMeant)
    exact .inl ⟨_, _, _, _, _, _, rfl, hOp, hb, hNe, hCut⟩
  | @inverted dst size align hRoom =>
    refine .inr ⟨dst, size, align, rfl, ?_⟩
    by_contra hFits
    rw [not_or, not_lt, not_le] at hFits
    have hSize : size.toInt = size.toInt.toNat := by
      simp only [Instr.isMeant, Bool.and_eq_true, decide_eq_true_eq, Int64.le_iff_toInt_le] at hMeant
      exact (Int.toNat_of_nonneg hMeant.1).symm
    rw [Memory.room_eq hSize hFits.1 hFits.2] at hRoom
    split at hRoom <;> cases hRoom

/-- **A step of a procedure in order ends in a fault only if its frame slips.** -/
theorem slips_of_step (hSound : ∀ p ∈ m.procs, p.Sound) (hEvery : (Run.running m f ws).Every Frame.Equipped)
    (hStep : m.step f ws = .halted m' .fault) : m.Slips f := by
  obtain ⟨hFrames, hStands⟩ := hEvery
  rw [forall_mem_cons] at hFrames
  rcases step_cases (m := m) (f := f) (s := ws) with ⟨-, m1, g, h, -, -, hHalt, -, hFault⟩ | ⟨-, hExec⟩
  · obtain ⟨m2, -, hEq⟩ := halt_eq_halted (m := m1) (f := g) (h := h) (s := ws)
    cases hStep.symm.trans (hHalt.trans hEq)
    exact absurd (hFault rfl) (Int.not_lt.mpr hFrames.1.pos)
  have hDoes := does_exec { m with steps := m.steps + 1 } f ws f.instr
  rw [← hExec, hStep] at hDoes
  generalize hRun : Run.halted m' .fault = r at hDoes
  cases hDoes with
  | passes | takes => cases hRun
  | @calls t dst target args p vs _ hp =>
    rcases enter_cases (m := { m with steps := m.steps + 1 }) (p := p) (a := vs) (s := ⟨f, dst, t⟩ :: ws) with
      ⟨m1, h, -, hEnter, -, hMany⟩ | ⟨m1, g, -, -, hEnter, -⟩
    · cases hRun.trans hEnter
      exact absurd (hMany rfl) (Int.not_lt.mpr (hSound p hp).numRegs)
    · cases hRun.trans hEnter
  | returns =>
    cases ws with
    | nil => cases hRun
    | cons w ws =>
      simp only [finish] at hRun
      split at hRun
      · cases hRun
      · next hDst =>
        split at hRun
        · cases hRun
        · next hNone =>
          -- the frame that waits has the register that its call writes
          obtain ⟨⟨target, args, hCall⟩, -⟩ := forall_mem_cons.mp hStands
          refine absurd (Frame.reg?_of_define_none hNone) ((hFrames.2 w.frame mem_cons_self).reg?_ne_none ?_)
          rw [hCall]
          refine mem_append_right _ ?_
          rw [Instr.writes, if_neg hDst]
          exact mem_cons_self
  | @halts mem h _ _ hFault =>
    obtain ⟨m2, -, hEq⟩ := halt_eq_halted (m := { m with steps := m.steps + 1, memory := mem }) (f := f) (h := h) (s := ws)
    cases hRun.trans hEq
    have hSlips : Slips { m with steps := m.steps + 1 } f := (hFault rfl).slips hFrames.1
    exact hSlips

theorem step_of_ready (hReady : m.Ready f) : m.step f ws = exec { m with steps := m.steps + 1 } f ws f.instr :=
  step_cases.elim (fun h => absurd hReady h.1) (·.2)

/-- A stretch of the stack that ends behind the stack is an overflow, if its end is a word. -/
theorem step_overflow {dst : Reg} {size align : Int64} (hReady : m.Ready f) (hInstr : f.instr = .reserve dst size align)
    (hSize : 0 ≤ size) (hSp : m.memory.sp + grain align ≤ 2 ^ 63)
    (hEnd : ceil m.memory.sp (grain align) + size.toInt.toNat < 2 ^ 63)
    (hOver : m.memory.stack.size < ceil m.memory.sp (grain align) + size.toInt.toNat) :
    ∃ m', m.step f ws = .halted m' (.trapped f.proc.name f.pos .stackOverflow) := by
  rw [Int64.le_iff_toInt_le] at hSize
  have hRoom := Memory.room_eq (m := m.memory) (Int.toNat_of_nonneg hSize).symm hSp hEnd
  rw [toInt_int64_ofNat (by omega), if_pos (Int.ofNat_lt.mpr hOver)] at hRoom
  obtain ⟨m', -, hHalt⟩ := halt_eq_halted (m := { m with steps := m.steps + 1 }) (f := f) (s := ws)
    (h := .trapped f.proc.name f.pos .stackOverflow)
  refine ⟨m', ?_⟩
  rw [step_of_ready hReady, hInstr, exec, reserve]
  simp only [hRoom]
  exact hHalt

theorem Run.eq_halted_of_answer {r : Run} {a : Machine × Except Halt UInt64} {h : Halt} (hAnswer : r.answer? = some a)
    (hError : a.2 = .error h) : ∃ m, r = .halted m h := by
  cases r with
  | running => cases hAnswer
  | returned m v =>
    cases hAnswer
    cases hError
  | halted m h' =>
    cases hAnswer
    cases hError
    exact ⟨m, rfl⟩

/-- A run that has been halted was so from the start, or by a step. -/
theorem exists_step_of_halted {n : Nat} {r : Run} {h : Halt} (hRun : runFor n r = .halted m' h) :
    r = .halted m' h ∨ ∃ k m f ws, runFor k r = .running m f ws ∧ m.step f ws = .halted m' h := by
  induction n with
  | zero => exact .inl hRun
  | succ n ih =>
    rw [Run.runFor_succ] at hRun
    cases hEq : runFor n r with
    | running m f ws =>
      rw [hEq] at hRun
      exact .inr ⟨n, m, f, ws, hEq, hRun⟩
    | returned | halted =>
      rw [hEq] at hRun
      exact ih (hEq.trans hRun)

theorem mem_procs_of_procIdx {name : String} {i : Nat} (h : m.procIdx? name = some i) :
    m.procs.getD i default ∈ m.procs := by
  obtain ⟨hLt, -⟩ := Array.findIdx?_eq_some_iff_getElem.mp h
  rw [Array.getD_eq_getD_getElem?, Array.getElem?_eq_getElem hLt]
  exact Array.getElem_mem hLt

/-- **Code in order ends in a fault for two reasons only.** A call of procedures in order whose stack can be made gives a
value, a trap or another error, unless one of its frames slips. A stretch that does not fit the rest of the stack gives an
overflow, unless its end is no word. -/
theorem call_traps (m : Machine) (hSound : ∀ p ∈ m.procs, p.Sound) :
    (∀ name args, (m.call name args).2 = .error .fault → m.withStack? = none ∨
      ∃ i m1 k m' f ws, m.procIdx? name = some i ∧ m.withStack? = some m1 ∧
        runFor k (m1.started (m.procs.getD i default) args) = .running m' f ws ∧ m'.Slips f) ∧
    ∀ (m' : Machine) (f : Frame) (ws : List Waiting) (dst : Reg) (size align : Int64), m'.Ready f →
      f.instr = .reserve dst size align → 0 ≤ size → m'.memory.sp + grain align ≤ 2 ^ 63 →
      ceil m'.memory.sp (grain align) + size.toInt.toNat < 2 ^ 63 →
      m'.memory.stack.size < ceil m'.memory.sp (grain align) + size.toInt.toNat →
      ∃ m'', m'.step f ws = .halted m'' (.trapped f.proc.name f.pos .stackOverflow) := by
  refine ⟨fun name args hFault => ?_, fun _ _ _ _ _ _ hReady hInstr hSize hSp hEnd hOver =>
    step_overflow hReady hInstr hSize hSp hEnd hOver⟩
  cases hIdx : m.procIdx? name with
  | none =>
    rw [call, hIdx] at hFault
    cases hFault
  | some i =>
    cases hStack : m.withStack? with
    | none => exact .inl rfl
    | some m1 =>
      obtain ⟨-, hProcs, -⟩ := withStack?_eq hStack
      have hProc := hSound _ (mem_procs_of_procIdx hIdx)
      -- running out of steps is no fault, so that the run itself has ended in one
      obtain ⟨m2, hRun⟩ : ∃ m2, runFor (Limits.fuel m.limits)
        (m1.started (m.procs.getD i default) args) = .halted m2 .fault := by
        rcases call_cases args hIdx hStack with hAnswer | ⟨m2, f, ws, -, hAnswer⟩
        · exact Run.eq_halted_of_answer hAnswer hFault
        · obtain ⟨m3, hEndless⟩ := Run.eq_halted_of_answer hAnswer hFault
          cases hEndless.symm.trans halt_eq_halted.choose_spec.2
      rcases exists_step_of_halted hRun with hStart | ⟨k, m', f, ws, hk, hStep⟩
      -- a procedure in order does not have too many registers to be entered
      · rcases enter_cases (m := { m1 with steps := 0 }) (p := m.procs.getD i default) (a := args) (s := []) with
          ⟨m3, h, -, hEnter, -, hMany⟩ | ⟨m3, g, -, -, hEnter, -⟩
        · cases hStart.symm.trans hEnter
          exact absurd (hMany rfl) (Int.not_lt.mpr hProc.numRegs)
        · cases hStart.symm.trans hEnter
      · have hLike := (enter_like { m1 with steps := 0 } (m.procs.getD i default) args []).trans (Run.runFor_like k _)
        -- every frame on the way is one of a procedure in order
        have hEvery : (runFor k (m1.started (m.procs.getD i default) args)).Every Frame.Equipped := by
          refine Run.Every.runFor (fun g hg => .start (hSound _ ?_) hg.pos hg.size) (fun g g' hg => hg.moves)
            (Run.Every.enter fun g hEq hPos hSize => .start (hEq ▸ hProc) hPos (hEq ▸ hSize)) k
          rw [← hProcs]
          exact (enter_like { m1 with steps := 0 } (m.procs.getD i default) args []).procs ▸ hg.proc
        rw [started] at hk hEvery
        rw [hk] at hEvery hLike
        refine .inr ⟨i, m1, k, m', f, ws, rfl, rfl, hk, slips_of_step (fun p hp => hSound p ?_) hEvery hStep⟩
        rw [← hProcs]
        exact hLike.procs ▸ hp

/-- Two procedures in order: the one takes more of the stack than a word can count, the other divides by a number whose low
bits are zero. -/
def faulty : Machine where
  limits := { stackSize := 32 }
  procs := #[⟨"grow", [], .i64, #[.reserve 0 8 8, .reserve 1 0x7fffffffffffffff 1, .ret .i64 1], 2⟩,
    ⟨"cut", [], .i64, #[.imm .i64 0 256, .bin .udiv .i8 1 0 0, .ret .i64 1], 2⟩]

theorem faulty_sound : ∀ p ∈ faulty.procs, p.Sound := by
  intro p hp
  simp only [faulty, mem_toArray, mem_cons, not_mem_nil, or_false] at hp
  rcases hp with rfl | rfl
  · exact ⟨by decide, by decide, by decide, by decide⟩
  · exact ⟨by decide, by decide, by decide, by decide⟩

theorem faulty_faults : (∀ p ∈ faulty.procs, p.Sound) ∧ (faulty.call "grow" []).2 = .error .fault ∧
    (faulty.call "cut" []).2 = .error .fault :=
  ⟨faulty_sound, by decide +kernel, by decide +kernel⟩

theorem faulty_slips : (∀ p ∈ faulty.procs, p.Sound) ∧ (faulty.call "grow" []).2 = .error .fault ∧
    ∃ i m1 k m' f ws, faulty.procIdx? "grow" = some i ∧ faulty.withStack? = some m1 ∧
      runFor k (m1.started (faulty.procs.getD i default) []) = .running m' f ws ∧ m'.Slips f := by
  have hFault : (faulty.call "grow" []).2 = .error .fault := by decide +kernel
  have hStack : faulty.withStack? ≠ none := by decide
  exact ⟨faulty_sound, hFault, ((call_traps faulty faulty_sound).1 "grow" [] hFault).resolve_left hStack⟩

end Machine

end Comptime
