import Comptime.Proofs.Lowering.Built
import Comptime.Proofs.Machine.Activation
import Mathlib.Data.Nat.Count

/-!
# Memory is taken once

Wherever a local is declared, its memory is taken at the entry of the procedure, in a register that keeps its address.
Main statement: `build_hoists`, what this says of the code and of every activation of it.
-/

namespace Comptime

open Option Machine

variable {i : Nat} {q : Reg}

/-! ## Code that starts with a setup -/

/-- Code that sets up in its first `n` instructions, and never comes back to them. -/
structure Hoisted (code : Array Instr) (n : Nat) : Prop where
  setup : ∀ i < n, ∃ x, code[i]? = some x ∧ x.SetsUp
  onward : ∀ (i : Nat) (x : Instr), code[i]? = some x → ∀ t ∈ x.targets, (n : Int) ≤ t

namespace Frame

variable {f f' : Frame} {n : Nat} {t : Option Int} {i : Nat}

/-- A frame goes through the setup one instruction after the other, and stays out of it afterwards. -/
theorem Course.pos (h : f.Course t f') (hCode : Hoisted f.proc.code n) (hPos : f.pos = i) :
    (i < n → t = some f.pos ∧ f'.pos = f.pos + 1) ∧ (n ≤ i → (n : Int) ≤ f'.pos) := by
  have hMoves : f.Moves f.instr f' → (i < n → f'.pos = f.pos + 1) ∧ (n ≤ i → (n : Int) ≤ f'.pos) := by
    intro hMoves
    rcases hMoves.pos with ⟨-, hNext⟩ | hTarget
    · exact ⟨fun _ => hNext, fun hLe => by omega⟩
    · have hx : f.instr ≠ .hole := by
        intro hHole
        rw [hHole] at hTarget
        cases hTarget
      have hAt := code_of_instr hPos rfl hx
      refine ⟨fun hLt => ?_, fun _ => hCode.onward i _ hAt _ hTarget⟩
      obtain ⟨x, hx, ⟨_, _, _, rfl⟩ | ⟨_, _, _, _, rfl⟩⟩ := hCode.setup i hLt
      · cases some.inj (hAt.symm.trans hx) ▸ hTarget
      · cases some.inj (hAt.symm.trans hx) ▸ hTarget
  have hCalls : f.Calls → n ≤ i := by
    rintro ⟨_, _, _, _, hCall⟩
    by_contra hLt
    obtain ⟨x, hx, ⟨_, _, _, rfl⟩ | ⟨_, _, _, _, rfl⟩⟩ := hCode.setup i (Nat.lt_of_not_le hLt)
    · cases (code_of_instr hPos hCall nofun).symm.trans hx
    · cases (code_of_instr hPos hCall nofun).symm.trans hx
  cases h with
  | moves h => exact ⟨fun hLt => ⟨rfl, (hMoves h).1 hLt⟩, (hMoves h).2⟩
  | calls h | waits h => exact ⟨fun hLt => absurd (hCalls h) (Nat.not_le.mpr hLt), fun hLe => by omega⟩
  | resumes h h' => exact ⟨fun hLt => absurd (hCalls h) (Nat.not_le.mpr hLt), (hMoves h').2⟩

end Frame

namespace Run

variable {r : Run} {p : Proc} {d : Nat} {f0 f g : Frame} {n j k : Nat}

/-- How often the frame at a depth has executed a position. -/
def executions (r : Run) (d : Nat) (pos : Int) (k : Nat) : Nat :=
  Nat.count (fun j => (runFor j r).turn? d = some pos) k

namespace Enters

variable (h : r.Enters p d f0) (hCode : Hoisted p.code n) (hLives : r.Lives d k)

include h hCode hLives

theorem exists_pos (hk : (runFor k r).frame? d = some f) : ∃ i : Nat, f.pos = i := by
  induction k generalizing f with
  | zero =>
    obtain ⟨hStart, -, hPos⟩ := h.start
    obtain rfl : f0 = f := some.inj (hStart.symm.trans hk)
    exact ⟨0, hPos⟩
  | succ k ih =>
    obtain ⟨f1, f2, hf1, hf2, hCourse⟩ := h.course hLives
    obtain rfl : f = f2 := some.inj (hk.symm.trans hf2)
    have hLives' := hLives.le (Nat.le_succ k)
    obtain ⟨i, hi⟩ := ih hLives' hf1
    obtain ⟨hIn, hOut⟩ := hCourse.pos (h.proc_eq hLives' hf1 ▸ hCode) hi
    rcases Nat.lt_or_ge i n with hLt | hGe
    · exact ⟨i + 1, by rw [(hIn hLt).2, hi]; rfl⟩
    · exact Int.eq_ofNat_of_zero_le ((Int.natCast_nonneg n).trans (hOut hGe))

/-- **Every instruction of the setup is executed once.** Those that the activation has passed it has executed, and it will
not execute them again. -/
theorem executions_setup (hk : (runFor k r).frame? d = some f) (hi : i < n) :
    r.executions d i k = if (i : Int) < f.pos then 1 else 0 := by
  induction k generalizing f with
  | zero =>
    obtain ⟨hStart, -, hPos⟩ := h.start
    obtain rfl : f0 = f := some.inj (hStart.symm.trans hk)
    rw [if_neg (by omega)]
    rfl
  | succ k ih =>
    obtain ⟨f1, f2, hf1, hf2, hCourse⟩ := h.course hLives
    obtain rfl : f = f2 := some.inj (hk.symm.trans hf2)
    have hLives' := hLives.le (Nat.le_succ k)
    obtain ⟨a, ha⟩ := h.exists_pos hCode hLives' hf1
    obtain ⟨hIn, hOut⟩ := hCourse.pos (h.proc_eq hLives' hf1 ▸ hCode) ha
    rw [executions, Nat.count_succ, ← executions, ih hLives' hf1]
    rcases Nat.lt_or_ge a n with hLt | hGe
    · obtain ⟨hTurn, hNext⟩ := hIn hLt
      rw [hTurn, hNext, ha]
      simp only [some.injEq]
      split_ifs <;> omega
    · have hAfter := hOut hGe
      have hTurn : (runFor k r).turn? d ≠ some (i : Int) := by
        rcases hCourse.turn with hEq | hEq <;> rw [hEq]
        · simp only [ne_eq, some.injEq]
          omega
        · nofun
      rw [if_neg hTurn, if_pos (by omega), if_pos (by omega)]

/-- **A register that only the setup writes keeps its value** from when the activation has passed the instruction on. -/
theorem reg?_eq (hjk : j ≤ k) (hj : (runFor j r).frame? d = some g) (hk : (runFor k r).frame? d = some f)
    (hWrites : ∀ (i : Nat) (x : Instr), p.code[i]? = some x → q ∈ x.writes → i < n ∧ (i : Int) < g.pos) :
    f.reg? q = g.reg? q := by
  -- also: what has been passed of the setup stays passed, since no jump leads back into it
  have hBoth : f.reg? q = g.reg? q ∧ ∀ i < n, (i : Int) < g.pos → (i : Int) < f.pos := by
    induction k, hjk using Nat.le_induction generalizing f with
    | base =>
      obtain rfl : g = f := some.inj (hj.symm.trans hk)
      exact ⟨rfl, fun _ _ => id⟩
    | succ k hjk ih =>
      obtain ⟨f1, f2, hf1, hf2, hCourse⟩ := h.course hLives
      obtain rfl : f = f2 := some.inj (hk.symm.trans hf2)
      have hLives' := hLives.le (Nat.le_succ k)
      obtain ⟨hSame, hPassed⟩ := ih hLives' hf1
      obtain ⟨a, ha⟩ := h.exists_pos hCode hLives' hf1
      have hProc := h.proc_eq hLives' hf1
      obtain ⟨hIn, hOut⟩ := hCourse.pos (hProc ▸ hCode) ha
      have hKept : q ∉ f1.instr.writes := by
        intro hq
        have hx : f1.instr ≠ .hole := by
          intro hHole
          rw [hHole] at hq
          cases hq
        obtain ⟨hLt, hBefore⟩ := hWrites a _ (hProc ▸ Frame.code_of_instr ha rfl hx) hq
        have := hPassed a hLt hBefore
        omega
      refine ⟨(hCourse.keeps hKept).trans hSame, fun i hi hBefore => ?_⟩
      have := hPassed i hi hBefore
      rcases Nat.lt_or_ge a n with hLt | hGe
      · have := (hIn hLt).2
        omega
      · have := hOut hGe
        omega
  exact hBoth.1

end Enters

end Run

/-! ## Built procedures -/

/-- The registers that bring in pointers: those for results come first, and those of parameters that are passed by address
stand in order among the other parameters. -/
def Sig.pointers (s : Sig) : Set Reg :=
  {q | (∃ i < s.hidden.length, q = (i : Int)) ∨ ∃ xs x ys, s.params = xs ++ x :: ys ∧ x.rule = .indirect ∧
    q = ((s.hidden.length + (xs.map Param.width).sum : Nat) : Int)}

namespace Text.Sound

variable {T : Text} {E : Set Reg} (h : T.Sound E)
variable {x : Instr}

include h

theorem hoisted : Hoisted T.code T.start := by
  refine ⟨fun i hi => ?_, fun i x hx t ht => ?_⟩
  · rcases h.setup.instrs i (Nat.zero_le _) hi with ⟨k, size, align, hCode, -⟩ | ⟨t, k, r, align, hCode, -⟩
    · exact ⟨_, hCode, .inl ⟨_, _, _, rfl⟩⟩
    · exact ⟨_, hCode, .inr ⟨_, _, _, _, rfl⟩⟩
  · rcases h.setup_or_body hx with ⟨-, ⟨_, _, _, rfl⟩ | ⟨_, _, _, _, rfl⟩⟩ | ⟨-, hFits⟩
    · cases ht
    · cases ht
    · obtain ⟨j, rfl, hRegion⟩ := hFits.targets t ht
      rcases h.setup_or_body hRegion with ⟨-, ⟨_, _, _, hEq⟩ | ⟨_, _, _, _, hEq⟩⟩ | ⟨hGe, -⟩
      · cases hEq
      · cases hEq
      · exact_mod_cast hGe

theorem start_le : T.start ≤ T.code.size := by
  by_contra hGt
  obtain ⟨x, hx, -⟩ := h.hoisted.setup T.code.size (Nat.lt_of_not_le hGt)
  exact absurd (Array.getElem?_eq_some_iff.mp hx).1 (Nat.lt_irrefl _)

theorem lt_start_of_reserve {size align : Int64} (hx : T.code[i]? = some (.reserve q size align)) : i < T.start := by
  rcases h.setup_or_body hx with ⟨hLt, -⟩ | ⟨-, hFits⟩
  · exact hLt
  · exact absurd rfl (hFits.inBody q size align)

/-- Only taking memory writes a register that is set for good. -/
theorem reserve_of_writes {k : Nat} (hFixed : T.fixed k) (hx : T.code[i]? = some x) (hk : (k : Reg) ∈ x.writes) :
    i < T.start ∧ ∃ size align, x = .reserve k size align := by
  rcases h.setup_or_body hx with ⟨hLt, ⟨q, size, align, rfl⟩ | ⟨_, _, _, _, rfl⟩⟩ | ⟨-, hFits⟩
  · exact ⟨hLt, size, align, List.mem_singleton.mp hk ▸ rfl⟩
  · cases hk
  · obtain ⟨m, hm, -, hFree⟩ := hFits.writes _ hk
    obtain rfl : k = m := by exact_mod_cast hm
    exact absurd hFixed hFree

/-- The register of a stretch of memory is written where the memory is taken, and nowhere else. -/
theorem eq_of_writes {j : Nat} {size align : Int64} (hi : T.code[i]? = some (.reserve q size align))
    (hj : T.code[j]? = some x) (hq : q ∈ x.writes) : j = i := by
  have hLt := h.lt_start_of_reserve hi
  obtain ⟨k, rfl, hFixed, -⟩ := h.setup.taken (Nat.zero_le _) hLt hi
  obtain ⟨hLt', size', align', rfl⟩ := h.reserve_of_writes hFixed hj hq
  exact h.setup.unique (Nat.zero_le _) hLt' (Nat.zero_le _) hLt hj hi

/-- Nothing writes a register that brings in a pointer. -/
theorem not_writes_of_pointer {j : Nat} (hPointer : q ∈ T.sig.pointers) (hj : T.code[j]? = some x) : q ∉ x.writes := by
  intro hq
  have hIncoming : ∃ k : Nat, q = k ∧ T.fixed k ∧ k < T.sig.regParams.length := by
    rw [T.sig.length_regParams]
    rcases hPointer with ⟨i, hi, rfl⟩ | ⟨xs, y, ys, hParams, hRule, rfl⟩
    · exact ⟨i, rfl, h.hidden i hi, by omega⟩
    · refine ⟨_, rfl, h.indirect xs y ys hParams hRule, ?_⟩
      have hWidth : y.width = 1 := by simp [Param.width, hRule]
      simp only [hParams, List.map_append, List.map_cons, List.sum_append, List.sum_cons, hWidth]
      omega
  obtain ⟨k, rfl, hFixed, hParam⟩ := hIncoming
  obtain ⟨hLt, size, align, rfl⟩ := h.reserve_of_writes hFixed hj hq
  obtain ⟨m, hm, -, hHigh, -⟩ := h.setup.taken (Nat.zero_le _) hLt hj
  obtain rfl : k = m := by exact_mod_cast hm
  simp only at hHigh
  omega

end Text.Sound

/-- What is built takes memory in its first `n` instructions, once in each activation, and keeps the addresses. -/
structure Built.Hoists (r : Built) (n : Nat) : Prop where
  setup : ∀ i < n, ∃ x, r.proc.code[i]? = some x ∧ x.SetsUp
  taken : ∀ {i : Nat} {q : Reg} {size align : Int64}, r.proc.code[i]? = some (.reserve q size align) → i < n
  /-- The register of a stretch of memory is written where the memory is taken, and nowhere else. -/
  own : ∀ {i j : Nat} {q : Reg} {size align : Int64} {x : Instr}, r.proc.code[i]? = some (.reserve q size align) →
    r.proc.code[j]? = some x → q ∈ x.writes → j = i
  /-- A register that brings in a pointer is written nowhere. -/
  brought : ∀ q ∈ r.sig.pointers, ∀ {j : Nat} {x : Instr}, r.proc.code[j]? = some x → q ∉ x.writes
  /-- An activation has executed every instruction of the segment that it has passed once, and the others not yet. -/
  once : ∀ {r0 : Run} {d k : Nat} {f0 f : Frame}, r0.Enters r.proc d f0 → r0.Lives d k →
    (runFor k r0).frame? d = some f → ∀ i < n, r0.executions d i k = if (i : Int) < f.pos then 1 else 0
  /-- From when an activation has taken memory on it has the address. -/
  address : ∀ {r0 : Run} {d j k : Nat} {f0 g f : Frame}, r0.Enters r.proc d f0 → r0.Lives d k → j ≤ k →
    (runFor j r0).frame? d = some g → (runFor k r0).frame? d = some f →
    ∀ {i : Nat} {q : Reg} {size align : Int64}, r.proc.code[i]? = some (.reserve q size align) → (i : Int) < g.pos →
      f.reg? q = g.reg? q
  /-- An activation has the pointers that it was given. -/
  pointer : ∀ {r0 : Run} {d k : Nat} {f0 f : Frame}, r0.Enters r.proc d f0 → r0.Lives d k →
    (runFor k r0).frame? d = some f → ∀ q ∈ r.sig.pointers, f.reg? q = f0.reg? q

/-- **Memory is taken once, and its address is kept.** Whatever is built starts with a segment of instructions that take
memory or store, and takes memory nowhere else. -/
theorem ProcDecl.build_hoists {p : ProcDecl} {config : Config} {r : Built} (h : (p.build config).built = .ok r) :
    ∃ n ≤ r.proc.code.size, r.Hoists n := by
  obtain ⟨T, hCode, hSig, -, -, hSound⟩ := build_sound (P := fun _ => true) (E := {noReg}) h
    ⟨rfl, fun _ _ _ _ _ _ _ => rfl⟩ fun body _ => Stmt.listTypes_true body
  have hHoisted : Hoisted r.proc.code T.start := hCode ▸ hSound.hoisted
  refine ⟨T.start, hCode ▸ hSound.start_le, hHoisted.setup, ?_, ?_, ?_, ?_, ?_, ?_⟩
  · exact hCode ▸ hSound.lt_start_of_reserve
  · exact hCode ▸ hSound.eq_of_writes
  · exact hCode ▸ hSig ▸ fun q hq _ _ hj => hSound.not_writes_of_pointer hq hj
  · exact fun hEnters hLives hf i hi => hEnters.executions_setup hHoisted hLives hf hi
  · intro r₀ d j k f₀ g f hEnters hLives hjk hg hf i q size align hi hBefore
    refine hEnters.reg?_eq hHoisted hLives hjk hg hf fun i' x hx hWrites => ?_
    rw [← hCode] at hi hx
    obtain rfl := hSound.eq_of_writes hi hx hWrites
    exact ⟨hSound.lt_start_of_reserve hi, hBefore⟩
  · intro r₀ d k f₀ f hEnters hLives hf q hq
    refine hEnters.reg?_eq hHoisted hLives (Nat.zero_le k) hEnters.start.1 hf fun i x hx hWrites => ?_
    rw [← hCode] at hx
    exact absurd hWrites (hSound.not_writes_of_pointer (hSig ▸ hq) hx)

/-- It has a pointer for its first result, is given an array by address, and declares a local in a loop. -/
def spinning : ProcDecl where
  id := 0
  name := "spin"
  ins := [.array (.int 64 true) 3]
  outs := [.int 64 true, .int 64 true]
  params := [⟨⟨1, "a"⟩, .array (.int 64 true) 3, false⟩]
  body := some [
    .whileDo (.bool true) [.decl ⟨⟨2, "v"⟩, .int 64 true, false⟩ (.int (.int 64 true) 7)],
    .ret [.int (.int 64 true) 1, .int (.int 64 true) 2]]

/-- The local of the loop is in the first instruction. -/
theorem ProcDecl.build_hoists_spinning : ∃ r, (spinning.build {}).built = .ok r ∧
    r.proc.code[0]? = some (.reserve 3 8 8) ∧ ∃ n ≤ r.proc.code.size, r.Hoists n := by
  have hFirst : (spinning.build {}).built.toOption.map (·.proc.code[0]?) = some (some (.reserve 3 8 8)) := by decide +kernel
  obtain ⟨r, hBuilt, hCode⟩ := exists_of_map_built hFirst
  exact ⟨r, hBuilt, hCode, build_hoists hBuilt⟩

end Comptime
