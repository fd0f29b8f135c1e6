import Comptime.Proofs.Lowering.Built
import Comptime.Proofs.Machine.Activation
import Comptime.Proofs.Width

/-!
# Well-formed code

Over types of natural width whatever is built is well formed: its branches lead to regions, its operands are registers that
it has, and its last instruction leads away (`build_wellFormed`). So no run gets out of its code or its registers. And no
register is read on any path before it is written (`build_reads_written`).
-/

namespace Comptime

open List Convention Array

/-! ## Well-formed procedures -/

/-- A procedure whose code and registers are all that its instructions need. -/
structure Proc.WellFormed (p : Proc) : Prop where
  targets : ∀ {i : Nat} {x : Instr}, p.code[i]? = some x → ∀ t ∈ x.targets, ∃ j : Nat, t = j ∧ p.code[j]? = some .region
  /-- What an instruction reads and writes does not include the `noReg` of a call without a result, of a jump that tests
  nothing, and of a return of nothing. -/
  operands : ∀ {i : Nat} {x : Instr}, p.code[i]? = some x → ∀ q ∈ x.reads ++ x.writes, 0 ≤ q ∧ q < p.numRegs
  params : p.params.length ≤ p.numRegs
  ended : (∃ test arms default, p.code.back? = some (.branch test arms default)) ∨
    ∃ ty val, p.code.back? = some (.ret ty val)

/-- The frame is at a position of its code, and has the registers of the instruction there. -/
structure Frame.Inside (f : Frame) : Prop where
  pos : 0 ≤ f.pos ∧ f.pos < f.proc.code.size
  operands : ∀ q ∈ f.instr.reads ++ f.instr.writes, 0 ≤ q ∧ q < f.regs.size

namespace Proc.WellFormed

variable {p : Proc} (h : p.WellFormed)

include h

/-- From a position of the code control goes to one of the code. -/
theorem lt_size {f f' : Frame} {i : Nat} (hProc : f.proc = p) (hPos : f.pos = i) (hLt : i < p.code.size)
    (hMoves : f.Moves f.instr f') : ∃ j : Nat, f'.pos = j ∧ j < p.code.size := by
  obtain ⟨x, hx⟩ : ∃ x, p.code[i]? = some x := ⟨_, Array.getElem?_eq_getElem hLt⟩
  have hInstr : f.instr = x := by
    rw [Frame.instr_of_pos hPos, hProc, Array.getD_eq_getD_getElem?, hx]
    rfl
  rcases hMoves.pos with ⟨hFalls, hNext⟩ | hTarget
  · refine ⟨i + 1, by rw [hNext, hPos]; rfl, ?_⟩
    refine Nat.lt_of_le_of_ne hLt fun hEnd => ?_
    -- the last instruction leads away
    have hBack : p.code.back? = some x := by
      rw [Array.back?_eq_getElem?, ← hEnd, Nat.add_sub_cancel, hx]
    rw [hInstr] at hFalls
    rcases h.ended with ⟨_, _, _, hLast⟩ | ⟨_, _, hLast⟩ <;> cases hBack.symm.trans hLast <;> cases hFalls
  · rw [hInstr] at hTarget
    obtain ⟨j, hj, hRegion⟩ := h.targets hx _ hTarget
    exact ⟨j, hj, (Array.getElem?_eq_some_iff.mp hRegion).1⟩

end Proc.WellFormed

/-- The frame is at a position of its code and has as many registers as its procedure asks for. -/
structure Frame.Fits (f : Frame) : Prop where
  pos : ∃ i : Nat, f.pos = i ∧ i < f.proc.code.size
  size : f.regs.size = f.proc.numRegs

namespace Frame

variable {f f' : Frame}

theorem Fits.inside (h : f.Fits) (hProc : f.proc.WellFormed) : f.Inside := by
  obtain ⟨⟨i, hi, hLt⟩, hSize⟩ := h
  refine ⟨by omega, fun q hq => hSize ▸ hProc.operands (i := i) ?_ q hq⟩
  rw [instr_of_pos hi, Array.getD_eq_getD_getElem?, Array.getElem?_eq_getElem hLt]
  rfl

theorem Fits.moves (h : f.Fits) (hProc : f.proc.WellFormed) (hMoves : f.Moves f.instr f') : f'.Fits := by
  obtain ⟨⟨i, hi, hLt⟩, hSize⟩ := h
  obtain ⟨j, hj, hLt'⟩ := hProc.lt_size rfl hi hLt hMoves
  exact ⟨⟨j, hj, by rwa [hMoves.proc]⟩, by rw [hMoves.size, hMoves.proc, hSize]⟩

/-- A frame fits when its procedure is entered. -/
theorem Fits.start (hProc : f.proc.WellFormed) (hPos : f.pos = 0)
    (hSize : f.regs.size = max f.proc.params.length f.proc.numRegs.toNat) : f.Fits := by
  refine ⟨⟨0, hPos, ?_⟩, ?_⟩
  · rcases hProc.ended with ⟨_, _, _, hLast⟩ | ⟨_, _, hLast⟩ <;> (rw [Array.back?_eq_getElem?] at hLast)
    · exact Nat.zero_lt_of_lt (Array.getElem?_eq_some_iff.mp hLast).1
    · exact Nat.zero_lt_of_lt (Array.getElem?_eq_some_iff.mp hLast).1
  · have hParams := hProc.params
    omega

end Frame

/-- Every frame of a well-formed procedure fits. -/
theorem Run.every_fits (m : Machine) (p : Proc) (args : List UInt64) (k : Nat) :
    (Machine.runFor k (m.enter p args [])).Every fun g => g.proc.WellFormed → g.Fits := by
  refine Every.runFor (fun g hStarts hProc => .start hProc hStarts.pos hStarts.size) (fun g g' hFits hMoves hProc => ?_)
    (Every.enter fun g hEq hPos hSize hProc => .start hProc hPos (hEq ▸ hSize)) k
  rw [hMoves.proc] at hProc
  exact (hFits hProc).moves hProc hMoves

/-- Whatever is called, and whatever else there is to call, no frame of the procedure gets out of its code or its registers,
and no run ends because one did. -/
def Proc.Confined (p : Proc) : Prop :=
  ∀ (m : Machine) (q : Proc) (args : List UInt64) (k : Nat) (m' : Machine) (f : Frame) (ws : List Waiting),
    Machine.runFor k (m.enter q args []) = .running m' f ws →
      (∀ g ∈ f :: ws.map (·.frame), g.proc = p → g.Inside) ∧ (f.proc = p → ∀ m'' h, m'.step f ws = .halted m'' h → h.Inside)

theorem Proc.WellFormed.confined {p : Proc} (h : p.WellFormed) : p.Confined := by
  intro m q args k m' f ws hRun
  have hEvery := Run.every_fits m q args k
  rw [hRun] at hEvery
  refine ⟨?_, ?_⟩
  · rintro g hg rfl
    exact (hEvery.1 g hg h).inside h
  · rintro rfl m'' halt hStep
    have hAfter := Machine.after_step (m := m') (f := f) (s := ws)
    rw [hStep] at hAfter
    exact hAfter.2 ((hEvery.1 f mem_cons_self h).inside h).pos.2

/-! ## Built procedures -/

/-- With natural types every result that comes in a register has one. -/
theorem Config.accepts_natural {config : Config} (hDirect : config.direct = standard) :
    config.Accepts Ty.isNatural ∅ := by
  refine ⟨rfl, fun ins outs sig hNatural hSig hRule hVoid => ?_⟩
  rw [hDirect] at hSig
  exact absurd hVoid (retReg_ne_void (Ty.isNatural_func.mp hNatural).2 hSig hRule)

theorem Text.inRange_iff {T : Text} {q : Reg} : q ∈ T.inRange ↔ 0 ≤ q ∧ q < T.numRegs := by
  constructor
  · rintro ⟨k, rfl, hLt⟩
    exact ⟨Int.natCast_nonneg k, Int.ofNat_lt.mpr hLt⟩
  · rintro ⟨hLe, hLt⟩
    obtain ⟨k, rfl⟩ := Int.eq_ofNat_of_zero_le hLe
    exact ⟨k, rfl, Int.ofNat_lt.mp hLt⟩

namespace Text.Sound

variable {T : Text} (h : T.Sound ∅)

include h

omit h in
theorem targets {E : Set Reg} {i : Nat} {x : Instr} (h : T.Sound E) (hx : T.code[i]? = some x) :
    ∀ t ∈ x.targets, ∃ j : Nat, t = j ∧ T.code[j]? = some .region := by
  rcases h.setup_or_body hx with ⟨-, ⟨_, _, _, rfl⟩ | ⟨_, _, _, _, rfl⟩⟩ | ⟨-, hFits⟩
  · nofun
  · nofun
  · exact hFits.targets

theorem taken_inRange {i : Nat} {q : Reg} {size align : Int64} (hLt : i < T.start)
    (hx : T.code[i]? = some (.reserve q size align)) : q ∈ T.inRange := by
  obtain ⟨k, rfl, -, -, hk⟩ := h.setup.taken (Nat.zero_le _) hLt hx
  exact ⟨k, rfl, hk⟩

theorem operands {i : Nat} {x : Instr} (hx : T.code[i]? = some x) : ∀ q ∈ x.reads ++ x.writes, q ∈ T.inRange := by
  intro q hq
  rcases Nat.lt_or_ge i T.start with hLt | hGe
  · rcases h.setup.instrs i (Nat.zero_le _) hLt with ⟨k, size, align, hCode, -⟩ |
      ⟨t, k, s, align, hCode, hs, j, -, hj, _, _, hk⟩
    · cases hx.symm.trans hCode
      obtain rfl : q = k := mem_singleton.mp hq
      exact h.taken_inRange hLt hCode
    · cases hx.symm.trans hCode
      rcases mem_pair.mp hq with rfl | rfl
      · exact h.taken_inRange (hj.trans hLt) hk
      · exact ⟨s, rfl, hs.trans_le h.setup.high_le⟩
  · obtain ⟨y, hy, hFits⟩ := h.body i hGe (Array.getElem?_eq_some_iff.mp hx).1
    obtain rfl := Option.some.inj (hx.symm.trans hy)
    rcases mem_append.mp hq with hq | hq
    · exact (hFits.reads q hq).resolve_right nofun
    · obtain ⟨k, rfl, hk, -⟩ := hFits.writes q hq
      exact ⟨k, rfl, hk⟩

theorem wellFormed {p : Proc} (hCode : T.code = p.code) (hParams : p.params = T.sig.regParams)
    (hRegs : p.numRegs = T.numRegs) :
    p.WellFormed := by
  refine ⟨?_, fun hx q hq => ?_, ?_, ?_⟩
  · exact hCode ▸ h.targets
  · rw [← hCode] at hx
    exact hRegs ▸ Text.inRange_iff.mp (h.operands hx q hq)
  · rw [hParams, hRegs]
    exact Int.ofNat_le.mpr h.setup.high_le
  · obtain ⟨i, x, hSize, hx, hLeads⟩ := h.ended
    have hBack : p.code.back? = some x := by
      rw [← hCode, back?_eq_getElem?, hSize, Nat.add_sub_cancel, hx]
    cases x with
    | branch test arms default => exact .inl ⟨test, arms, default, hBack⟩
    | ret ty val => exact .inr ⟨ty, val, hBack⟩
    | _ => cases hLeads

end Text.Sound

namespace ProcDecl

variable {p : ProcDecl} {config : Config} {r : Built}

theorem natural_body (hNatural : p.allTypes Ty.isNatural = true) {body : List Stmt} (hBody : p.body = some body) :
    Stmt.listTypes Ty.isNatural body = true := by
  rw [allTypes, Bool.and_eq_true, hBody] at hNatural
  exact hNatural.2

/-- Freezing never stops a build. -/
theorem build_ok (hNatural : p.allTypes Ty.isNatural = true) (hDirect : config.direct = standard)
    {body : List Stmt} {sig : Sig} {F : Builder} (hBody : p.body = some body)
    (hSig : sig? config.direct p.ins p.outs = some sig) (hRun : Build.unfrozen p body { config, sig } = .ok () F) :
    ∃ r, (p.build config).built = .ok r := by
  obtain ⟨hClosed, -, hSound⟩ := Build.unfrozen_sound hRun hSig (config.accepts_natural hDirect)
    (natural_body hNatural hBody)
  have hFreeze := hClosed.freeze_ok fun i x hx => hSound.targets hx
  obtain ⟨r, hr⟩ : ∃ r, Build.procedure p body { config, sig } = .ok r F :=
    ⟨_, Build.procedure_eq_ok.mpr ⟨_, hRun, hFreeze, rfl⟩⟩
  exact ⟨r, by simp only [build, hBody, hSig, EStateM.run, hr]⟩

/-- **What is built is well formed.** Over types of natural width a body that is lowered to its end is always frozen, and
the code is well formed and confined. -/
theorem build_wellFormed (hNatural : p.allTypes Ty.isNatural = true) (hDirect : config.direct = Convention.standard) :
    (∀ body sig F, p.body = some body → Convention.sig? config.direct p.ins p.outs = some sig →
      Build.unfrozen p body { config, sig } = .ok () F → ∃ r, (p.build config).built = .ok r) ∧
    ∀ r, (p.build config).built = .ok r → r.proc.WellFormed ∧ r.proc.Confined := by
  refine ⟨fun body sig F hBody hSig hRun => build_ok hNatural hDirect hBody hSig hRun, fun r h => ?_⟩
  obtain ⟨T, hCode, -, hParams, hRegs, hSound⟩ := build_sound h (config.accepts_natural hDirect) fun _ =>
    natural_body hNatural
  have hWell := hSound.wellFormed hCode hParams hRegs
  exact ⟨hWell, hWell.confined⟩

/-- It returns `a || !a`, whose value is put into a register on two paths. -/
def wavering : ProcDecl :=
  let a : Variable := ⟨⟨1, "a"⟩, .bool, false⟩
  let x : Expr := .ident .bool (.var a)
  { id := 0
    name := "waver"
    ins := [.bool]
    outs := [.bool]
    params := [a]
    body := some [.ret [.binary .bool .lor x (.unary .bool .not x)]] }

theorem build_wellFormed_wavering : wavering.allTypes Ty.isNatural = true ∧
    ∃ r, (wavering.build {}).built = .ok r ∧ r.proc.WellFormed ∧ r.proc.Confined := by
  have hOk : (wavering.build {}).built.toOption.map (fun _ => ()) = some () := by decide +kernel
  obtain ⟨r, hBuilt, -⟩ := exists_of_map_built hOk
  exact ⟨rfl, r, hBuilt, (build_wellFormed rfl rfl).2 r hBuilt⟩

/-- **No register is read before it is written**, on any path through the code, feasible or not: what an instruction reads
has come with the call or was written earlier on the path. -/
theorem build_reads_written (hNatural : p.allTypes Ty.isNatural = true) (hDirect : config.direct = Convention.standard)
    (h : (p.build config).built = .ok r) {l : List Nat} {i : Nat} (hStart : (l ++ [i]).head? = some 0)
    (hPath : (l ++ [i]).IsChain (Goes r.proc.code)) {x : Instr} (hx : r.proc.code[i]? = some x) :
    ∀ q ∈ x.reads, (∃ k < r.proc.params.length, q = (k : Int)) ∨ q ∈ written r.proc.code l := by
  intro q hq
  obtain ⟨T, hCode, -, hParams, -, hSound⟩ := build_sound h (config.accepts_natural hDirect) fun _ => natural_body hNatural
  rw [← hCode] at hPath hx ⊢
  rcases reads_of_path hSound.safe hStart hPath hx hq with (⟨k, rfl, hk⟩ | hNone) | hWritten
  · exact .inl ⟨k, by rwa [hParams], rfl⟩
  · cases hNone
  · exact .inr hWritten

/-- The returned register is written on the path on which neither side holds. -/
theorem build_reads_written_wavering : ∃ r, (wavering.build {}).built = .ok r ∧
    [0, 1, 2, 3, 7, 8, 9, 10, 11, 12, 13, 14, 15, 16].IsChain (Goes r.proc.code) ∧ r.proc.code[16]? = some (.ret .i8 5) ∧
    ((∃ k < r.proc.params.length, (5 : Int) = (k : Int)) ∨
      5 ∈ written r.proc.code [0, 1, 2, 3, 7, 8, 9, 10, 11, 12, 13, 14, 15]) := by
  have hCode : ((wavering.build {}).built.toOption.map fun r => decide
      ([0, 1, 2, 3, 7, 8, 9, 10, 11, 12, 13, 14, 15, 16].IsChain (Goes r.proc.code) ∧
        r.proc.code[16]? = some (.ret .i8 5))) = some true := by decide +kernel
  obtain ⟨r, hBuilt, hHolds⟩ := exists_of_map_built hCode
  obtain ⟨hPath, hRet⟩ := of_decide_eq_true hHolds
  refine ⟨r, hBuilt, hPath, hRet, build_reads_written rfl rfl hBuilt (l := [0, 1, 2, 3, 7, 8, 9, 10, 11, 12, 13, 14, 15]) rfl
    hPath hRet 5 ?_⟩
  exact List.mem_singleton.mpr rfl

end ProcDecl

end Comptime
