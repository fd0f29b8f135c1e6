import Comptime.Machine.Exec
import Comptime.Proofs.Bytecode.Paths

/-!
# What a step can do

Executing an instruction goes on in the frame, takes memory for it, starts a callee, returns to the frame that waits, or
ends the run (`Machine.Does`). A frame that goes on has changed no register but the one its instruction writes, and stands
at a position that the instruction leads to (`Frame.Moves`). Whatever holds along runs is derived from `does_exec`, much of
it from `after_step`, which leaves the memory out.
-/

namespace Comptime

open List Array Comptime.Frame

variable {t : RegType}

namespace Frame

/-- The instruction a frame is about to execute, a hole outside of its code. -/
def instr (f : Frame) : Instr := if f.pos < 0 then .hole else f.proc.code.getD f.pos.toNat .hole

theorem instr_of_pos {f : Frame} {i : Nat} (h : f.pos = i) : f.instr = f.proc.code.getD i .hole := by
  rw [instr, if_neg (by omega), h, Int.toNat_natCast]

/-- An instruction that a frame executes stands in its code. -/
theorem code_of_instr {f : Frame} {i : Nat} {x : Instr} (hPos : f.pos = i) (hInstr : f.instr = x) (hx : x ≠ .hole) :
    f.proc.code[i]? = some x := by
  rw [instr_of_pos hPos, getD_eq_getD_getElem?] at hInstr
  cases hCode : f.proc.code[i]? with
  | none =>
    rw [hCode] at hInstr
    exact absurd hInstr.symm hx
  | some y =>
    rw [hCode] at hInstr
    exact congrArg some hInstr

/-- The frame goes on with the answer it waits for. -/
def Receives (f : Frame) (r : Reg) (f' : Frame) : Prop :=
  (r = noReg ∧ f' = f.next) ∨ ∃ v, f.define? r v = some f'

/-- The frame goes on past an instruction. -/
structure Moves (f : Frame) (x : Instr) (f' : Frame) : Prop where
  proc : f'.proc = f.proc
  size : f'.regs.size = f.regs.size
  keeps : ∀ r, r ∉ x.writes → f'.reg? r = f.reg? r
  pos : (x.fallsThrough = true ∧ f'.pos = f.pos + 1) ∨ f'.pos ∈ x.targets

/-- How a frame goes on past an instruction. -/
inductive Passes (f : Frame) (x : Instr) : Frame → Prop where
  | next : x.fallsThrough = true → x.writes = [] → Passes f x f.next
  | defines {r : Reg} {v : UInt64} {f' : Frame} : x.fallsThrough = true → r ∈ x.writes → f.define? r v = some f' →
      Passes f x f'
  | branches {t : Handle} : t ∈ x.targets → Passes f x { f with pos := t }

variable {f f' : Frame} {x : Instr} {r s : Reg} {v : UInt64}

theorem reg?_eq_none_iff : f.reg? r = none ↔ ¬ (0 ≤ r ∧ r < f.regs.size) := by
  rw [reg?]
  split
  · next hr =>
    rw [Array.getElem?_eq_none_iff, not_and, Int.not_lt, ← Int.ofNat_le, Int.toNat_of_nonneg hr]
    exact ⟨fun h _ => h, fun h => h hr⟩
  · next hr => exact ⟨fun _ h => hr h.1, fun _ => rfl⟩

theorem define?_eq_some (h : f.define? r v = some f') :
    f' = { f with regs := f.regs.setIfInBounds r.toNat v, pos := f.pos + 1 } ∧ 0 ≤ r ∧ r < f.regs.size := by
  rw [define?] at h
  split at h
  · next hr =>
    cases h
    exact ⟨rfl, hr⟩
  · cases h

theorem reg?_of_define_none (h : f.define? r v = none) : f.reg? r = none := by
  rw [reg?_eq_none_iff]
  intro hr
  rw [define?, if_pos hr] at h
  cases h

theorem reg?_define (h : f.define? r v = some f') (hs : s ≠ r) : f'.reg? s = f.reg? s := by
  obtain ⟨rfl, hr, -⟩ := define?_eq_some h
  rw [reg?, reg?]
  split
  · next hPos =>
    have hNe : r.toNat ≠ s.toNat := fun hEq => hs ((Int.toNat_of_nonneg hPos).symm.trans (hEq ▸ Int.toNat_of_nonneg hr))
    exact getElem?_setIfInBounds_ne hNe
  · rfl

theorem Passes.base (h : f.Passes x f') : f'.base = f.base := by
  cases h with
  | next | branches => rfl
  | defines _ _ h => rw [(define?_eq_some h).1]

theorem Passes.moves (h : f.Passes x f') : f.Moves x f' := by
  cases h with
  | next hx _ => exact ⟨rfl, rfl, fun _ _ => rfl, .inl ⟨hx, rfl⟩⟩
  | defines hx hr h =>
    obtain ⟨rfl, -⟩ := define?_eq_some h
    exact ⟨rfl, size_setIfInBounds, fun s hs => reg?_define h fun hEq => hs (hEq ▸ hr), .inl ⟨hx, rfl⟩⟩
  | branches ht => exact ⟨rfl, rfl, fun _ _ => rfl, .inr ht⟩

theorem mem_targets_of_target {test : Reg} {arms : List Arm} {d t : Handle} (h : f.target? test arms d = some t) :
    t ∈ (Instr.branch test arms d).targets := by
  rw [target?] at h
  split at h
  · cases h
    exact mem_append_right _ mem_cons_self
  · obtain ⟨v, -, h⟩ := Option.map_eq_some_iff.mp h
    split at h
    · next a ha =>
      exact h ▸ mem_append_left _ (mem_map.mpr ⟨a, mem_of_find?_eq_some ha, rfl⟩)
    · exact h ▸ mem_append_right _ mem_cons_self

/-- A frame that was waiting goes on past its call. -/
theorem Receives.passes {target : Reg} {args : List Reg} (h : f.Receives r f') : f.Passes (.call t r target args) f' := by
  rcases h with ⟨rfl, rfl⟩ | ⟨v, hDefine⟩
  · exact .next rfl rfl
  · have hSome : r ≠ noReg := by
      rintro rfl
      exact absurd (define?_eq_some hDefine).2.1 (by decide)
    refine .defines rfl ?_ hDefine
    rw [Instr.writes, if_neg hSome]
    exact mem_cons_self

end Frame

namespace Memory

/-- Both areas are as large as they were. -/
structure Sized (m m' : Memory) : Prop where
  globals : m'.globals.size = m.globals.size
  stack : m'.stack.size = m.stack.size

/-- Bytes may have changed, and nothing else. -/
structure Alike (m m' : Memory) : Prop extends Sized m m' where
  sp : m'.sp = m.sp

variable {m m' m'' : Memory}

theorem Sized.refl : Sized m m := ⟨rfl, rfl⟩

theorem Sized.trans (h : Sized m m') (h' : Sized m' m'') : Sized m m'' :=
  ⟨h'.globals.trans h.globals, h'.stack.trans h.stack⟩

theorem Alike.refl : Alike m m := ⟨.refl, rfl⟩

@[simp] theorem size_overwrite (xs : Array UInt8) (off : Nat) (bs : List UInt8) : (overwrite xs off bs).size = xs.size := by
  induction bs generalizing xs off with
  | nil => rfl
  | cons b bs ih => rw [overwrite, ih, size_setIfInBounds]

theorem Alike.write {a : Area} {off : Nat} {bs : List UInt8} : Alike m (m.write a off bs) := by
  cases a with
  | globals => exact ⟨⟨size_overwrite .., rfl⟩, rfl⟩
  | stack => exact ⟨⟨rfl, size_overwrite ..⟩, rfl⟩

theorem Sized.take {start stop : Nat} : Sized m (m.take start stop) := ⟨rfl, size_overwrite ..⟩

end Memory

namespace Machine

/-- Two machines with the same procedures, symbols and limits, and with memories of one size. -/
structure Like (m m' : Machine) : Prop where
  limits : m'.limits = m.limits
  procs : m'.procs = m.procs
  symbols : m'.symbols = m.symbols
  memory : m.memory.Sized m'.memory

/-- A frame at the start of a procedure. -/
structure Starts (m : Machine) (f : Frame) : Prop where
  proc : f.proc ∈ m.procs
  pos : f.pos = 0
  size : f.regs.size = max f.proc.params.length f.proc.numRegs.toNat

variable {m m' : Machine} {f : Frame}

theorem Like.refl : Like m m := ⟨rfl, rfl, rfl, .refl⟩

theorem Like.trans {m'' : Machine} (h : Like m m') (h' : Like m' m'') : Like m m'' :=
  ⟨h'.limits.trans h.limits, h'.procs.trans h.procs, h'.symbols.trans h.symbols,
    h.memory.trans h'.memory⟩

theorem Like.leave (h : Like m m') : Like m (m'.leave f) := { h with memory := { h.memory with } }

theorem Like.address? (h : Like m m') : m'.address? = m.address? := by
  funext sym
  rw [Machine.address?, Machine.address?, symbol?, symbol?, procIdx?, procIdx?, h.symbols, h.procs]

end Machine

/-- The run did not get past the end of a procedure. -/
def Halt.Inside (h : Halt) : Prop := ∀ name pos, h ≠ .trapped name pos .endOfCode

/-- The registers that executing an instruction needs. -/
def Instr.needs : Instr → List Reg
  | .branch test arms _ => if arms.isEmpty then [] else [test]
  | .ret _ val => if val = noReg then [] else [val]
  | x => x.reads ++ x.writes

namespace Machine

/-- Why executing an instruction ends a run in a fault. -/
inductive Faults (m : Machine) (f : Frame) : Instr → Prop where
  | operand {x : Instr} {r : Reg} : r ∈ x.needs → f.reg? r = none → Faults m f x
  | emptyLoad {ty : RegType} {dst addr : Reg} {align : Int64} : ty.size = 0 → Faults m f (.load ty dst addr align)
  | emptyStore {ty : RegType} {addr val : Reg} {align : Int64} : ty.size = 0 → Faults m f (.store ty addr val align)
  | unguarded {op : Op} {ty : RegType} {dst l r : Reg} {a b : UInt64} : f.reg? l = some a → f.reg? r = some b →
      Word.binary op ty a b = .error .unguarded → Faults m f (.bin op ty dst l r)
  | inverted {dst : Reg} {size align : Int64} : m.memory.room size align = .inverted → Faults m f (.reserve dst size align)

/-- What executing an instruction makes of a run. -/
inductive Does (m : Machine) (f : Frame) (ws : List Waiting) (x : Instr) : Run → Prop where
  | passes {mem : Memory} {f' : Frame} : m.memory.Alike mem → f.Passes x f' →
      Does m f ws x (.running { m with memory := mem } f' ws)
  | takes {dst : Reg} {size align : Int64} {start stop : Nat} {f' : Frame} : x = .reserve dst size align →
      m.memory.room size align = .free start stop → f.define? dst (stackBase + start).toUInt64 = some f' →
      Does m f ws x (.running { m with memory := m.memory.take start stop } f' ws)
  | calls {t : RegType} {dst target : Reg} {args : List Reg} {p : Proc} {vs : List UInt64} : x = .call t dst target args →
      p ∈ m.procs → Does m f ws x (m.enter p vs (⟨f, dst, t⟩ :: ws))
  | returns {t : RegType} {val : Reg} {v : UInt64} : x = .ret t val → Does m f ws x (m.finish f v ws)
  | halts {mem : Memory} {h : Halt} : m.memory.Sized mem → h.Inside → (h = .fault → m.Faults f x) →
      Does m f ws x (halt { m with memory := mem } f ws h)

end Machine

/-- What executing an instruction can make of a run, given the frame that executes and those that wait. -/
def Run.After (m : Machine) (f : Frame) (ws : List Waiting) (x : Instr) : Run → Prop
  | .running m' f' ws' => m.Like m' ∧
    ((ws' = ws ∧ f.Moves x f') ∨
      (∃ t dst target args, x = .call t dst target args ∧ ws' = ⟨f, dst, t⟩ :: ws ∧ m.Starts f') ∨
      ∃ w, ws = w :: ws' ∧ w.frame.Receives w.dst f')
  | .returned m' _ => m.Like m' ∧ ws = []
  | .halted m' h => m.Like m' ∧ (f.pos < f.proc.code.size → h.Inside)

theorem exists_of_mapM_none {g : Reg → Option UInt64} : ∀ {rs : List Reg}, rs.mapM g = none → ∃ r ∈ rs, g r = none
  | [], h => by cases h
  | r :: rs, h => by
    cases hr : g r with
    | none => exact ⟨r, mem_cons_self, hr⟩
    | some v =>
      have hRest : rs.mapM g = none := by
        rw [mapM_cons] at h
        cases hRest : rs.mapM g with
        | none => rfl
        | some vs => simp [hr, hRest] at h
      obtain ⟨q, hq, hNone⟩ := exists_of_mapM_none hRest
      exact ⟨q, mem_cons_of_mem _ hq, hNone⟩

namespace Machine

variable {m m' : Machine} {f f' : Frame} {ws : List Waiting} {v : UInt64} {h : Halt} {x : Instr}
variable {s : List Waiting} {r dst : Reg} {p : Proc} {align size : Int64}

theorem unwind_eq_halted : ∃ m', m.Like m' ∧ m.unwind h s = .halted m' h := by
  induction s generalizing m with
  | nil => exact ⟨m, .refl, rfl⟩
  | cons w ws ih =>
    obtain ⟨m', hLike, hHalt⟩ := ih (m := m.leave w.frame)
    exact ⟨m', Like.refl.leave.trans hLike, hHalt⟩

theorem halt_eq_halted : ∃ m', m.Like m' ∧ m.halt f s h = .halted m' h := by
  obtain ⟨m', hLike, hHalt⟩ := unwind_eq_halted (m := m.leave f) (h := h) (s := s)
  exact ⟨m', Like.refl.leave.trans hLike, hHalt⟩

/-- Entering a procedure ends the run or starts the procedure. -/
theorem enter_cases {a : List UInt64} : (∃ m' h, m.Like m' ∧ m.enter p a s = .halted m' h ∧ h.Inside ∧
        (h = .fault → tooManyRegs < p.numRegs)) ∨
      ∃ m' g, m.Like m' ∧ m'.memory = m.memory ∧ m.enter p a s = .running m' g s ∧ g.base = m.memory.sp ∧ g.proc = p ∧
        g.pos = 0 ∧ g.regs.size = max p.params.length p.numRegs.toNat := by
  rw [enter]
  split
  · obtain ⟨m', hLike, hHalt⟩ := unwind_eq_halted (m := m) (h := .argCount p.name a.length p.params.length) (s := s)
    exact .inl ⟨m', _, hLike, hHalt, fun _ _ => Halt.noConfusion, nofun⟩
  next hArgs =>
  split
  · obtain ⟨m', hLike, hHalt⟩ := unwind_eq_halted (m := m) (h := .trapped p.name 0 .callDepth) (s := s)
    exact .inl ⟨m', _, hLike, hHalt, fun _ _ h => (by cases h), nofun⟩
  dsimp only
  split
  · next hMany =>
    obtain ⟨m', hLike, hHalt⟩ := halt_eq_halted (m := { m with depth := m.depth + 1 })
      (f := { proc := p, regs := #[], pos := 0, base := m.memory.sp }) (h := .fault) (s := s)
    exact .inl ⟨m', _, { hLike with }, hHalt, fun _ _ => Halt.noConfusion, fun _ => hMany⟩
  · refine .inr ⟨_, _, ?_, ?_, rfl, rfl, rfl, rfl, ?_⟩
    · exact ⟨rfl, rfl, rfl, .refl⟩
    · rfl
    simp only [ne_eq, Decidable.not_not] at hArgs
    simp only [size_append, size_toArray, length_zipWith, size_replicate, hArgs]
    omega

theorem enter_eq_running {p : Proc} {a : List UInt64} {s s' : List Waiting} (h : m.enter p a s = .running m' f s') :
    f.proc = p ∧ f.pos = 0 := by
  rcases enter_cases (m := m) (p := p) (a := a) (s := s) with ⟨_, _, -, hHalt, -⟩ | ⟨_, g, -, -, hRun, -, hProc, hPos, -⟩
  · cases hHalt.symm.trans h
  · cases hRun.symm.trans h
    exact ⟨hProc, hPos⟩

theorem mem_procs_of_callee {a : UInt64} (h : m.callee? a = some p) : p ∈ m.procs := by
  simp only [callee?] at h
  split at h
  · cases h
  · exact mem_of_getElem? h

/-! ## Executing an instruction -/

theorem does_fault (hFault : m.Faults f x) : m.Does f ws x (m.halt f ws .fault) :=
  .halts .refl nofun fun _ => hFault

theorem does_trap {t : Trap} (ht : t ≠ .endOfCode) : m.Does f ws x (m.trap f ws t) :=
  .halts .refl (fun _ _ hEq => ht (by cases hEq; rfl)) nofun

/-- A register that is needed is missing. -/
theorem does_lack (hr : r ∈ x.needs) (hNone : f.reg? r = none) : m.Does f ws x (m.halt f ws .fault) :=
  does_fault (.operand hr hNone)

theorem does_define (hx : x.fallsThrough = true) (hr : r ∈ x.writes) (hNeeds : r ∈ x.needs) :
    m.Does f ws x (m.continueWith f ws (f.define? r v)) := by
  cases hDefine : f.define? r v with
  | none => exact does_lack hNeeds (reg?_of_define_none hDefine)
  | some g => exact .passes .refl (.defines hx hr hDefine)

theorem does_load {addr : UInt64} : m.Does f ws (.load t dst r align) (m.load f ws t dst addr) := by
  rw [load]
  split
  · exact does_trap nofun
  · split
    · next hSize => exact does_fault (.emptyLoad hSize)
    · exact does_define rfl mem_cons_self (mem_append_right _ mem_cons_self)

theorem does_store {val : Reg} {addr : UInt64} : m.Does f ws (.store t r val align) (m.store f ws t addr val) := by
  rw [store]
  split
  · exact does_trap nofun
  · split
    · next hVal => exact does_lack (mem_cons_of_mem _ mem_cons_self) hVal
    · split
      · next hSize => exact does_fault (.emptyStore hSize)
      · exact .passes .write (.next rfl rfl)

theorem does_copy {dst src : UInt64} {d s : Reg} : m.Does f ws (.copy d s size align) (m.copy f ws dst src size) := by
  rw [copy]
  split
  · exact does_trap nofun
  · split
    · exact does_trap nofun
    · exact .passes .write (.next rfl rfl)

theorem does_fill {d val : Reg} {dst : UInt64} : m.Does f ws (.fill d val size align) (m.fill f ws dst val size) := by
  rw [fill]
  split
  · exact does_trap nofun
  · split
    · exact .passes .refl (.next rfl rfl)
    · split
      · next hVal => exact does_lack (mem_cons_of_mem _ mem_cons_self) hVal
      · exact .passes .write (.next rfl rfl)

theorem does_reserve : m.Does f ws (.reserve dst size align) (m.reserve f ws dst size align) := by
  rw [reserve]
  split
  · exact does_trap nofun
  · next hRoom => exact does_fault (.inverted hRoom)
  · next start stop hRoom =>
    cases hDefine : f.define? dst (stackBase + start).toUInt64 with
    | none => exact .halts .take nofun fun _ => .operand mem_cons_self (reg?_of_define_none hDefine)
    | some g => exact .takes rfl hRoom hDefine

theorem does_undefined {op : Op} {l r : Reg} {a b : UInt64} {e : Word.Undefined} (hl : f.reg? l = some a)
    (hr : f.reg? r = some b) (he : Word.binary op t a b = .error e) :
    m.Does f ws (.bin op t dst l r) (m.undefined f ws e) := by
  cases e with
  | unguarded => exact does_fault (.unguarded hl hr he)
  | _ => exact does_trap nofun

/-- **What an instruction does.** -/
theorem does_exec (m : Machine) (f : Frame) (ws : List Waiting) (x : Instr) : m.Does f ws x (m.exec f ws x) := by
  -- an instruction that reads a register which is not there ends the run, whatever else it would do
  cases x with
  | hole => exact does_trap nofun
  | region => exact .passes .refl (.next rfl rfl)
  | bin op ty dst l r =>
    rw [exec]
    cases hl : f.reg? l with
    | none => exact does_lack mem_cons_self hl
    | some a =>
      cases hr : f.reg? r with
      | none => exact does_lack (mem_cons_of_mem _ mem_cons_self) hr
      | some b =>
        dsimp only
        split
        · exact does_define rfl mem_cons_self (mem_append_right _ mem_cons_self)
        · next e he => exact does_undefined hl hr he
  | un op ty source dst src =>
    rw [exec]
    cases hSrc : f.reg? src with
    | none => exact does_lack mem_cons_self hSrc
    | some v => exact does_define rfl mem_cons_self (mem_append_right _ mem_cons_self)
  | imm ty dst bits => exact does_define rfl mem_cons_self mem_cons_self
  | load ty dst addr align =>
    rw [exec]
    split
    · exact does_load
    · next hAddr => exact does_lack mem_cons_self hAddr
  | store ty addr val align =>
    rw [exec]
    split
    · exact does_store
    · next hAddr => exact does_lack mem_cons_self hAddr
  | copy dst src size align =>
    rw [exec]
    split
    · next hDst => exact does_lack mem_cons_self hDst
    · split
      · exact does_copy
      · next hSrc =>
        split
        · exact does_trap nofun
        · exact does_lack (mem_cons_of_mem _ mem_cons_self) hSrc
  | fill dst val size align =>
    rw [exec]
    split
    · exact does_fill
    · next hDst => exact does_lack mem_cons_self hDst
  | reserve dst size align => exact does_reserve
  | addr dst sym =>
    rw [exec]
    split
    · exact does_define rfl mem_cons_self mem_cons_self
    · exact does_trap nofun
  | call ty dst target args =>
    rw [exec]
    split
    · next hTarget => exact does_lack mem_cons_self hTarget
    · split
      · exact does_trap nofun
      · next p hp =>
        split
        · exact .calls rfl (mem_procs_of_callee hp)
        · next hArgs =>
          obtain ⟨r, hr, hNone⟩ := exists_of_mapM_none hArgs
          exact does_lack (mem_append_left _ (mem_cons_of_mem _ hr)) hNone
  | branch test arms default =>
    rw [exec]
    cases hTarget : f.target? test arms default with
    | some t => exact .passes .refl (.branches (mem_targets_of_target hTarget))
    | none =>
      rw [target?] at hTarget
      split at hTarget
      · cases hTarget
      · next hArms =>
        refine does_lack (r := test) ?_ (Option.map_eq_none_iff.mp hTarget)
        rw [Instr.needs, if_neg hArms]
        exact mem_cons_self
  | ret ty val =>
    rw [exec]
    split
    · exact .returns rfl
    · next hVal =>
      split
      · exact .returns rfl
      · next hNone =>
        refine does_lack (r := val) ?_ hNone
        rw [Instr.needs, if_neg hVal]
        exact mem_cons_self

/-- What executing an instruction makes of the frames. -/
theorem Does.after {m0 : Machine} {r : Run} (hLike : m0.Like m) (hDoes : m.Does f ws x r) : r.After m0 f ws x := by
  have hMem {mem : Memory} (hSized : m.memory.Sized mem) : m0.Like { m with memory := mem } :=
    hLike.trans ⟨rfl, rfl, rfl, hSized⟩
  -- a call puts a frame on top, a return takes one away, and all else moves the top one
  cases hDoes with
  | passes hAlike hPasses => exact ⟨hMem hAlike.toSized, .inl ⟨rfl, hPasses.moves⟩⟩
  | takes hx _ hDefine =>
    subst hx
    exact ⟨hMem .take, .inl ⟨rfl, (Passes.defines rfl mem_cons_self hDefine).moves⟩⟩
  | @calls t dst target args p vs hx hp =>
    subst hx
    rcases enter_cases (m := m) (p := p) (a := vs) (s := ⟨f, dst, t⟩ :: ws) with
      ⟨m1, h, hLike', hEnter, hInside, -⟩ | ⟨m1, g, hLike', -, hEnter, -, rfl, hPos, hSize⟩
    · rw [hEnter]
      exact ⟨hLike.trans hLike', fun _ => hInside⟩
    · rw [hEnter]
      exact ⟨hLike.trans hLike', .inr (.inl ⟨t, dst, target, args, rfl, rfl, hLike.procs ▸ hp, hPos, hSize⟩)⟩
  | @returns _ _ v hx =>
    cases ws with
    | nil => exact ⟨hLike.leave, rfl⟩
    | cons w ws =>
      simp only [finish]
      split
      · next hNone => exact ⟨hLike.leave, .inr (.inr ⟨w, rfl, .inl ⟨hNone, rfl⟩⟩)⟩
      · split
        · next g hg => exact ⟨hLike.leave, .inr (.inr ⟨w, rfl, .inr ⟨_, hg⟩⟩)⟩
        · obtain ⟨m1, hLike', h1⟩ := halt_eq_halted (m := m.leave f) (f := w.frame) (h := .fault) (s := ws)
          rw [h1]
          exact ⟨hLike.leave.trans hLike', fun _ => nofun⟩
  | @halts mem h hSized hInside _ =>
    obtain ⟨m1, hLike', h1⟩ := halt_eq_halted (m := { m with memory := mem }) (f := f) (h := h) (s := ws)
    rw [h1]
    exact ⟨(hMem hSized).trans hLike', fun _ => hInside⟩

/-- The frame is at a position of its code, and one more step is within the limit. -/
def Ready (m : Machine) (f : Frame) : Prop :=
  0 ≤ f.pos ∧ f.pos < f.proc.code.size ∧ (m.limits.maxSteps ≠ 0 → (m.steps : Int) + 1 ≤ m.limits.maxSteps)

/-- A step ends the run, or counts and executes the instruction of the frame. -/
theorem step_cases : (¬ m.Ready f ∧ ∃ m' g h, (m' = m ∨ m' = { m with steps := m.steps + 1 }) ∧ g.base = f.base ∧
      m.step f s = m'.halt g s h ∧ (f.pos < f.proc.code.size → h.Inside) ∧ (h = .fault → f.pos < 0)) ∨
    (m.Ready f ∧ m.step f s = exec { m with steps := m.steps + 1 } f s f.instr) := by
  rw [step]
  split
  · next hEnd =>
    have hNot : ¬ f.pos < f.proc.code.size := Int.not_lt.mpr hEnd
    exact .inl ⟨fun hReady => hNot hReady.2.1, m, _, _, .inl rfl, rfl, rfl, fun hLt => absurd hLt hNot, nofun⟩
  next hLt =>
  dsimp only
  split
  · next hLimit =>
    exact .inl ⟨fun hReady => absurd (hReady.2.2 hLimit.1) (Int.not_le.mpr hLimit.2), _, f, _, .inr rfl, rfl, rfl,
      fun _ _ _ h => (by cases h), nofun⟩
  next hLimit =>
  split
  · next hPos =>
    exact .inl ⟨fun hReady => absurd hPos (Int.not_lt.mpr hReady.1), _, f, _, .inr rfl, rfl, rfl, fun _ => nofun, fun _ => hPos⟩
  · next hPos =>
    rw [instr, if_neg hPos]
    exact .inr ⟨⟨Int.not_lt.mp hPos, Int.not_le.mp hLt, fun hSome => Int.not_lt.mp fun hGt => hLimit ⟨hSome, hGt⟩⟩, rfl⟩

/-- A step goes on in the frame, calls, returns, or ends the run. -/
theorem after_step : (m.step f s).After m f s f.instr := by
  rcases step_cases (m := m) (f := f) (s := s) with ⟨-, m', g, h, hm', -, hStep, hInside, -⟩ | ⟨-, hStep⟩
  · obtain ⟨m1, hLike, hHalt⟩ := halt_eq_halted (m := m') (f := g) (h := h) (s := s)
    rw [hStep, hHalt]
    rcases hm' with rfl | rfl
    · exact ⟨hLike, hInside⟩
    · exact ⟨{ hLike with }, hInside⟩
  · rw [hStep]
    have hLike : m.Like { m with steps := m.steps + 1 } := ⟨rfl, rfl, rfl, .refl⟩
    exact (does_exec _ f s f.instr).after hLike

end Machine

end Comptime
