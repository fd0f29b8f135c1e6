import Comptime.Proofs.Shape.Statements

/-!
# Getting through a procedure

The code of a procedure is a setup, in which memory is taken and parameters are stored, and a body. Every instruction of
the setup that takes memory has a register of its own (`Setup`), none of the body writes such a register, and from the
entry on nothing is read that was not written before (`Text.Lowers.sound`).
-/

namespace Comptime

open List Convention

variable {T : Text} {E : Set Reg} {P : Ty → Bool} {N : Nat} {p q p' : Point}

/-! ## The setup -/

/-- The instruction takes memory or stores. -/
def Instr.SetsUp (x : Instr) : Prop :=
  (∃ dst size align, x = .reserve dst size align) ∨ ∃ ty addr val align, x = .store ty addr val align

/-- A stretch of the setup of a procedure that has `N` incoming registers. -/
structure Setup (T : Text) (N : Nat) (p p' : Point) : Prop where
  pos_le : p.pos ≤ p'.pos
  high_le : p.high ≤ p'.high
  instrs : ∀ i, p.pos ≤ i → i < p'.pos →
    (∃ (k : Nat) (size align : Int64), T.code[i]? = some (.reserve k size align) ∧ T.fixed k ∧ p.high ≤ k ∧ k < p'.high) ∨
      ∃ (t : RegType) (k : Reg) (r : Nat) (align : Int64), T.code[i]? = some (.store t k r align) ∧ r < N ∧
        ∃ j, p.pos ≤ j ∧ j < i ∧ ∃ size align, T.code[j]? = some (.reserve k size align)
  unique : ∀ {i j k size align size' align'}, p.pos ≤ i → i < p'.pos → p.pos ≤ j → j < p'.pos →
    T.code[i]? = some (.reserve k size align) → T.code[j]? = some (.reserve k size' align') → i = j

namespace Setup

theorem refl : Setup T N p p :=
  ⟨le_rfl, le_rfl, fun _ hLe hLt => absurd hLe (Nat.not_le.mpr hLt), fun hLe hLt => absurd hLe (Nat.not_le.mpr hLt)⟩

/-- The register of an instruction that takes memory. -/
theorem taken (h : Setup T N p p') {i : Nat} {r : Reg} {size align : Int64} (hLe : p.pos ≤ i) (hLt : i < p'.pos)
    (hCode : T.code[i]? = some (.reserve r size align)) : ∃ k : Nat, r = k ∧ T.fixed k ∧ p.high ≤ k ∧ k < p'.high := by
  rcases h.instrs i hLe hLt with ⟨k, _, _, hk, hRest⟩ | ⟨_, _, _, _, hk, -⟩
  · cases hCode.symm.trans hk
    exact ⟨k, rfl, hRest⟩
  · cases hCode.symm.trans hk

theorem trans (h : Setup T N p q) (h' : Setup T N q p') : Setup T N p p' where
  pos_le := h.pos_le.trans h'.pos_le
  high_le := h.high_le.trans h'.high_le
  instrs i hLe hLt := by
    rcases Nat.lt_or_ge i q.pos with hi | hi
    · rcases h.instrs i hLe hi with ⟨k, size, align, hk, hFixed, hLow, hHigh⟩ | hStore
      · exact .inl ⟨k, size, align, hk, hFixed, hLow, hHigh.trans_le h'.high_le⟩
      · exact .inr hStore
    · rcases h'.instrs i hi hLt with ⟨k, size, align, hk, hFixed, hLow, hHigh⟩ | ⟨t, k, r, align, hk, hr, j, hj, hRest⟩
      · exact .inl ⟨k, size, align, hk, hFixed, h.high_le.trans hLow, hHigh⟩
      · exact .inr ⟨t, k, r, align, hk, hr, j, h.pos_le.trans hj, hRest⟩
  unique {i j k size align size' align'} hi hi' hj hj' hCode hCode' := by
    -- what is taken before the middle is in registers below those that are taken after it
    have hSplit : ∀ {i j size align size' align'}, p.pos ≤ i → i < q.pos → q.pos ≤ j → j < p'.pos →
        T.code[i]? = some (.reserve k size align) → T.code[j]? ≠ some (.reserve k size' align') := by
      intro i j size align size' align' hi hi' hj hj' hCode hCode'
      obtain ⟨m, rfl, -, -, hHigh⟩ := h.taken hi hi' hCode
      obtain ⟨m', hEq, -, hLow, -⟩ := h'.taken hj hj' hCode'
      obtain rfl : m = m' := by exact_mod_cast hEq
      omega
    rcases Nat.lt_or_ge i q.pos with hiq | hiq
    · rcases Nat.lt_or_ge j q.pos with hjq | hjq
      · exact h.unique hi hiq hj hjq hCode hCode'
      · exact absurd hCode' (hSplit hi hiq hjq hj' hCode)
    · rcases Nat.lt_or_ge j q.pos with hjq | hjq
      · exact absurd hCode (hSplit hj hjq hiq hi' hCode')
      · exact h'.unique hiq hi' hjq hj' hCode hCode'

end Setup

/-- The registers that memory is taken in before a position. -/
def Text.taken (T : Text) (n : Nat) : Set Reg := {r | ∃ j < n, ∃ size align, T.code[j]? = some (.reserve r size align)}

/-- The incoming registers. -/
def Text.params (T : Text) : Set Reg := {r | ∃ k : Nat, r = k ∧ k < T.sig.regParams.length}

/-- The slots are registers that are set at the entry: the caller brings a pointer in them, or memory is taken in them. -/
def Text.Settled (T : Text) (l : List (Nat × Reg)) : Prop :=
  ∀ x ∈ l, (∃ k : Nat, x.2 = k ∧ T.fixed k ∧ k < T.sig.regParams.length) ∨ x.2 ∈ T.taken T.start

namespace Shape

variable {r : Nat}

theorem reserveHere_setup {e : Extent} {d : Reg} (h : reserveHere e T p d p') :
    Setup T N p p' ∧ p'.pos = p.pos + 1 ∧ T.code[p.pos]? = some (.reserve d e.size e.align) := by
  obtain ⟨rfl, hFixed, hCode, rfl⟩ := h
  refine ⟨⟨Nat.le_succ _, Nat.le_succ _, fun i hLe hLt => .inl ?_, fun hi hi' hj hj' _ _ => ?_⟩, rfl, hCode⟩
  · obtain rfl : i = p.pos := by
      simp only at hLt
      omega
    exact ⟨_, _, _, hCode, hFixed, le_rfl, Nat.lt_succ_self _⟩
  · simp only at hi' hj'
    omega

/-- A parameter is put where its variable is, which is in memory of its own or where the caller has it. -/
theorem enterParam_setup {x : Param} {v : Option Variable} {slots : List (Nat × Reg)} (h : enterParam r x v T p slots p')
    (hN : r + x.width ≤ N) : Setup T N p p' ∧ (x.rule = .indirect → T.fixed r) ∧
      ∀ s ∈ slots, (∃ k : Nat, s.2 = k ∧ T.fixed k ∧ k < N) ∨ s.2 ∈ T.taken p'.pos := by
  obtain ⟨rule, ty, reg⟩ := x
  cases rule with
  | ignore =>
    cases v with
    | none =>
      obtain ⟨rfl, rfl⟩ := h
      exact ⟨.refl, nofun, nofun⟩
    | some v =>
      obtain ⟨e, p, ⟨-, rfl⟩, d, q, hReserve, rfl, rfl⟩ := h
      obtain ⟨hSetup, hPos, hCode⟩ := reserveHere_setup hReserve
      refine ⟨hSetup, nofun, fun s hs => .inr ?_⟩
      rw [mem_singleton.mp hs]
      exact ⟨p.pos, by omega, _, _, hCode⟩
  | direct =>
    cases v with
    | none =>
      obtain ⟨rfl, rfl⟩ := h
      exact ⟨.refl, nofun, nofun⟩
    | some v =>
      obtain ⟨e, p, ⟨-, rfl⟩, d, q, hReserve, _, _, ⟨hStore, rfl⟩, rfl, rfl⟩ := h
      obtain ⟨hSetup, hPos, hCode⟩ := reserveHere_setup (N := N) hReserve
      have hr : r < N := hN
      refine ⟨⟨hSetup.pos_le.trans (Nat.le_succ _), hSetup.high_le, fun i hLe hLt => ?_, ?_⟩, nofun, fun s hs => ?_⟩
      -- behind the instructions of the reservation there is the store only
      · rcases Nat.lt_or_ge i q.pos with hi | hi
        · rcases hSetup.instrs i hLe hi with hTaken | ⟨t, k, r', align, hk, hRest⟩
          · exact .inl hTaken
          · exact .inr ⟨t, k, r', align, hk, hRest⟩
        · obtain rfl : i = q.pos := by
            simp only at hLt
            omega
          exact .inr ⟨_, d, r, _, hStore, hr, p.pos, le_rfl, by omega, _, _, hCode⟩
      · intro i j k size align size' align' hi hi' hj hj' hc hc'
        -- the store is no reservation, so that both reservations lie before it
        have hNot : ∀ {i size align}, i < q.pos + 1 → T.code[i]? = some (.reserve k size align) → i < q.pos := by
          intro i size align hi hc
          refine Nat.lt_of_le_of_ne (Nat.lt_succ_iff.mp hi) ?_
          rintro rfl
          cases hStore.symm.trans hc
        exact hSetup.unique hi (hNot hi' hc) hj (hNot hj' hc') hc hc'
      · rw [mem_singleton.mp hs]
        refine .inr ⟨p.pos, ?_, _, _, hCode⟩
        simp only
        omega
  | indirect =>
    obtain ⟨T0, p, ⟨hText, rfl⟩, _, p, ⟨hFixed, rfl⟩, rfl, rfl⟩ := h
    subst T0
    refine ⟨.refl, fun _ => hFixed, fun s hs => .inl ⟨r, ?_, hFixed, ?_⟩⟩
    · cases v with
      | none => cases hs
      | some v => rw [mem_singleton.mp hs]
    · exact hN

theorem enterParams_setup {ps : List Param} {vs : List Variable} {slots : List (Nat × Reg)}
    (h : enterParams r ps vs T p slots p') (hN : r + (ps.map Param.width).sum ≤ N) :
    Setup T N p p' ∧ (∀ xs x ys, ps = xs ++ x :: ys → x.rule = .indirect → T.fixed (r + (xs.map Param.width).sum)) ∧
      ∀ s ∈ slots, (∃ k : Nat, s.2 = k ∧ T.fixed k ∧ k < N) ∨ s.2 ∈ T.taken p'.pos := by
  induction ps generalizing r vs slots p with
  | nil =>
    obtain ⟨rfl, rfl⟩ := h
    exact ⟨.refl, fun xs x ys hEq => by simp at hEq, nofun⟩
  | cons x ps ih =>
    rw [map_cons, sum_cons] at hN
    obtain ⟨slot, q, hFirst, rest, _, hRest, rfl, rfl⟩ := h
    obtain ⟨hSetup, hFixed, hSlot⟩ := enterParam_setup (N := N) hFirst (by omega)
    obtain ⟨hSetup', hFixed', hSlots⟩ := ih hRest (by omega)
    refine ⟨hSetup.trans hSetup', fun xs y ys hEq hRule => ?_, fun s hs => ?_⟩
    · cases xs with
      | nil =>
        obtain ⟨rfl, -⟩ := cons.inj hEq
        exact hFixed hRule
      | cons z xs =>
        obtain ⟨rfl, rfl⟩ := cons.inj hEq
        rw [map_cons, sum_cons, ← Nat.add_assoc]
        exact hFixed' xs y ys rfl hRule
    · rcases mem_append.mp hs with hs | hs
      · exact hSlots s hs
      · refine (hSlot s hs).imp_right fun ⟨j, hj, hCode⟩ => ⟨j, hj.trans_le hSetup'.pos_le, hCode⟩

/-- A procedure whose end is reached returns there. -/
theorem implicitReturn_spec {Z : Zone T.code} {u : Unit} (hG : T.Ground Z P) (h : implicitReturn T p u p') :
    (∀ i, p.pos ≤ i → i < p'.pos → Z.FitsAt i) ∧ Ended T.code p'.pos ∧ ∀ n, Safe T.code n Z.base p.pos := by
  obtain ⟨T0, p, ⟨hText, rfl⟩, h⟩ := h
  subst T0
  rw [ite_iff] at h
  split at h
  · next hVoid =>
    obtain ⟨hCode, rfl⟩ := h
    have hReads : ∀ r ∈ (Instr.ret T.sig.retReg noReg).reads, False := by
      rw [Instr.reads, if_pos ⟨hVoid, rfl⟩]
      exact forall_mem_nil _
    refine ⟨fun i hLe hLt => ?_, ⟨_, _, rfl, hCode, rfl⟩, fun n => .ret hCode fun r hr => (hReads r hr).elim⟩
    obtain rfl : i = p.pos := by
      simp only at hLt
      omega
    exact Zone.fitsAt_ret hCode fun r hr => (hReads r hr).elim
  · obtain ⟨d, q, hImm, hCode, rfl⟩ := h
    obtain ⟨C, hC, hd⟩ : Gets Z.start p.pos q.pos (d ∈ ·) := imm_gets hG hImm
    have hReads : ∀ r ∈ (Instr.ret T.sig.retReg d).reads, r ∈ C := fun r hr => by
      rw [Instr.reads] at hr
      split at hr
      · cases hr
      · exact mem_singleton.mp hr ▸ hd
    refine ⟨fun i hLe hLt => ?_, ⟨_, _, rfl, hCode, rfl⟩, fun n => hC.safe subset_rfl
      (.ret hCode fun r hr => .inr (hReads r hr))⟩
    rcases Nat.lt_or_ge i q.pos with hi | hi
    · exact hC.fits i hLe hi
    · obtain rfl : i = q.pos := by
        simp only at hLt
        omega
      exact Zone.fitsAt_ret hCode fun r hr => C.within (hReads r hr)

end Shape

/-! ## Procedures -/

/-- The registers that there are. -/
def Text.inRange (T : Text) : Set Reg := {r | ∃ k : Nat, r = k ∧ k < T.numRegs}

/-- The registers that the body may write. -/
def Text.temporary (T : Text) : Set Reg := {r | ∃ k : Nat, r = k ∧ k < T.numRegs ∧ ¬ T.fixed k}

/-- Finished code in which everything is as it should be. Where `noReg` is read as if it were a register, it is in `E`. -/
structure Text.Sound (T : Text) (E : Set Reg) : Prop where
  setup : Setup T T.sig.regParams.length ⟨0, 0, T.sig.regParams.length⟩ ⟨T.start, 0, T.numRegs⟩
  body : ∀ i, T.start ≤ i → i < T.code.size → ∃ x, T.code[i]? = some x ∧ x.Fits T.code T.temporary (T.inRange ∪ E)
  ended : Ended T.code T.code.size
  safe : ∀ n, Safe T.code n (T.params ∪ E) 0
  hidden : ∀ i < T.sig.hidden.length, T.fixed i
  indirect : ∀ xs x ys, T.sig.params = xs ++ x :: ys → x.rule = .indirect →
    T.fixed (T.sig.hidden.length + (xs.map Param.width).sum)

/-- From the setup on nothing is read that was not written, if that holds of what follows. -/
theorem Setup.safe {W : Set Reg} {n : Nat} (h : Setup T T.sig.regParams.length ⟨0, 0, T.sig.regParams.length⟩ p)
    (hParams : T.params ⊆ W) (hEnd : Safe T.code n (W ∪ T.taken p.pos) p.pos) : Safe T.code n W 0 := by
  have hAll : ∀ i ≤ p.pos, Safe T.code n (W ∪ T.taken i) i := by
    intro i hi
    induction hi using Nat.decreasingInduction with
    | self => exact hEnd
    | of_succ i hi ih =>
      rcases h.instrs i (Nat.zero_le _) hi with ⟨k, size, align, hCode, -⟩ | ⟨t, k, r, align, hCode, hr, j, -, hj, hk⟩
      · refine .plain hCode rfl nofun (ih.mono ?_)
        rintro r (hr | ⟨j, hj, hTaken⟩)
        · exact .inl (.inl hr)
        · rcases Nat.lt_succ_iff_lt_or_eq.mp hj with hj | rfl
          · exact .inl (.inr ⟨j, hj, hTaken⟩)
          · obtain ⟨size', align', hTaken⟩ := hTaken
            cases hCode.symm.trans hTaken
            exact .inr mem_cons_self
      · refine .plain hCode rfl (fun s hs => ?_) (ih.mono ?_)
        · rcases mem_pair.mp hs with rfl | rfl
          · exact .inr ⟨j, hj, hk⟩
          · exact .inl (hParams ⟨r, rfl, hr⟩)
        · rintro r' (hr' | ⟨j', hj', hTaken⟩)
          · exact .inl (.inl hr')
          · rcases Nat.lt_succ_iff_lt_or_eq.mp hj' with hj' | rfl
            · exact .inl (.inr ⟨j', hj', hTaken⟩)
            · obtain ⟨size', align', hTaken⟩ := hTaken
              cases hCode.symm.trans hTaken
  refine (hAll 0 (Nat.zero_le _)).mono ?_
  rintro r (hr | ⟨j, hj, -⟩)
  · exact hr
  · cases hj

/-- A result that is returned in a register is not among those that are written through pointers. -/
theorem Sig.lookup_last {direct : DirectSize} {ins outs : List Ty} {sig : Sig}
    (hSig : sig? direct ins outs = some sig) (hRule : sig.ret.rule = .direct) : sig.results ≠ [] ∧
      ((sig.hidden.mapIdx fun i h => (h.result, (i : Reg))).reverse).lookup (sig.results.length - 1) = none := by
  obtain ⟨hResults, -, ⟨-, hRet, -⟩ | ⟨t, hLast, -, hHidden⟩⟩ := sig?_eq_some hSig
  · simp [hRet] at hRule
  · have hSome : sig.results ≠ [] := by
      rintro hc
      rw [hResults] at hc
      simp [hc] at hLast
    refine ⟨hSome, lookup_eq_none_iff.mpr fun x hx => ?_⟩
    rw [mem_reverse, mem_mapIdx] at hx
    obtain ⟨i, hi, rfl⟩ := hx
    have hMem := getElem_mem hi
    generalize sig.hidden[i] = x at hMem ⊢
    rw [hHidden, hiddenResults, if_neg (by rw [hRule]; decide), mem_mapIdx] at hMem
    obtain ⟨j, hj, hEq⟩ := hMem
    have hLt : j < sig.results.length - 1 := by simpa [hResults] using hj
    rw [← hEq]
    exact bne_iff_ne.mpr (Nat.ne_of_gt hLt)

namespace Text.Lowers

variable {params : List Variable} {body : List Stmt} {entry : Point} {slots : List (Nat × Reg)} {stop : Site}

section

variable (h : T.Lowers params body entry slots stop)

include h

/-- All of the setup. -/
theorem setup : Setup T T.sig.regParams.length ⟨0, 0, T.sig.regParams.length⟩ ⟨T.start, 0, T.numRegs⟩ ∧
    (∀ xs x ys, T.sig.params = xs ++ x :: ys → x.rule = .indirect →
      T.fixed (T.sig.hidden.length + (xs.map Param.width).sum)) ∧
    T.Settled slots := by
  obtain ⟨n, hEntered⟩ := h.entered
  obtain ⟨hFirst, hIndirect, hSlots⟩ := Shape.enterParams_setup hEntered T.sig.length_regParams.ge
  have hRest : Setup T T.sig.regParams.length entry ⟨T.start, 0, T.numRegs⟩ := by
    refine ⟨h.entry_le, h.high_le, fun i hLe hLt => .inl ?_, fun {i j k size align size' align'} hi hi' hj hj' hc hc' => ?_⟩
    · obtain ⟨r, size, align, hCode, hFixed, hLow, -⟩ := h.reserved i hLe hLt
      exact ⟨r, size, align, hCode, hFixed, hLow, h.fixed_lt r hFixed⟩
    · obtain ⟨r, _, _, hCode, -, -, hOnly⟩ := h.reserved i hi hi'
      cases hCode.symm.trans hc
      exact (hOnly j hj hj' _ _ hc').symm
  have hWhole := hFirst.trans hRest
  refine ⟨{ hWhole with }, hIndirect, fun s hs => ?_⟩
  rcases hSlots s hs with hBrought | ⟨j, hj, hTaken⟩
  · exact .inl hBrought
  · exact .inr ⟨j, hj.trans_le h.entry_le, hTaken⟩

/-- The registers of the body. -/
def zone (E : Set Reg) : Zone T.code where
  free := T.temporary
  all := T.inRange ∪ E
  base := T.params ∪ T.taken T.start ∪ E
  within := by
    have hSetup := h.setup.1
    rintro r ((⟨k, rfl, hLt⟩ | ⟨j, hj, size, align, hCode⟩) | hr)
    · exact .inl ⟨k, rfl, hLt.trans_le hSetup.high_le⟩
    · obtain ⟨k, rfl, -, -, hLt⟩ := hSetup.taken (Nat.zero_le _) hj hCode
      exact .inl ⟨k, rfl, hLt⟩
    · exact .inr hr

theorem ground {ins outs : List Ty} (hSig : sig? T.direct ins outs = some T.sig) (hSlots : T.slots = [])
    (hBool : P .bool = true)
    (hCalls : ∀ ins outs sig, P (.func ins outs) = true → sig? T.direct ins outs = some sig →
      sig.ret.rule = .direct → sig.retReg = .void → noReg ∈ E) : T.Ground (h.zone E) P := by
  refine ⟨fun k hLt hFixed => ⟨⟨k, rfl, hLt, hFixed⟩, .inl ⟨k, rfl, hLt⟩⟩, fun i hi r size align hCode => ?_, ?_, fun o ho => ?_,
    fun hRule => ?_, fun ins outs sig hP hs hRule hVoid => .inr (hCalls ins outs sig hP hs hRule hVoid), hBool⟩
  · exact .inl (.inr ⟨i, hi, size, align, hCode⟩)
  · rw [hSlots]
    nofun
  · rw [h.outs, mem_reverse, mem_mapIdx] at ho
    obtain ⟨i, hi, rfl⟩ := ho
    refine .inl (.inl ⟨i, rfl, hi.trans_le ?_⟩)
    rw [T.sig.length_regParams]
    exact Nat.le_add_right _ _
  · rw [h.outs]
    exact .inr (Sig.lookup_last hSig hRule)

/-- **Finished code is as it should be.** -/
theorem sound {ins outs : List Ty} (hSig : sig? T.direct ins outs = some T.sig) (hSlots : T.slots = [])
    (hBool : P .bool = true) (hBody : Stmt.listTypes P body = true)
    (hCalls : ∀ ins outs sig, P (.func ins outs) = true → sig? T.direct ins outs = some sig →
      sig.ret.rule = .direct → sig.retReg = .void → noReg ∈ E) : T.Sound E := by
  have hG := h.ground hSig hSlots hBool hCalls
  obtain ⟨hSetup, hIndirect, hEntered⟩ := h.setup
  have hSlots : ∀ s ∈ slots, s.2 ∈ T.params ∪ T.taken T.start := fun s hs =>
    (hEntered s hs).imp_left fun ⟨k, hk, _, hLt⟩ => ⟨k, hk, hLt⟩
  have hFlow := (h.flow.crosses hG ⟨fun s hs => .inl (hSlots s hs), nofun⟩ hBody nofun).1
  have hAhead : ∀ n, Ahead (h.zone E) (labels []) n (h.zone E).base := fun n => ⟨subset_rfl, nofun⟩
  have hEntry : ∀ {n}, Safe T.code n (h.zone E).base T.start → Safe T.code n (T.params ∪ E) 0 := fun hSafe =>
    hSetup.safe Set.subset_union_left (hSafe.mono fun r hr => by
      rcases hr with (hr | hr) | hr
      · exact .inl (.inl hr)
      · exact .inr hr
      · exact .inl (.inr hr))
  -- the end of the body is not reached, or there is a return behind it
  have hEnd : (∀ i, T.start ≤ i → i < T.code.size → (h.zone E).FitsAt i) ∧ Ended T.code T.code.size ∧
      ∀ n, stop.dead = false → Safe T.code n (h.zone E).base stop.pos := by
    have hEnding := h.ending
    split at hEnding
    · next hDead =>
      rw [hEnding]
      exact ⟨hFlow.fits nofun, hFlow.ends nofun hDead, fun n hAlive => absurd (hAlive.symm.trans hDead) nofun⟩
    · obtain ⟨n, p, hReturn, hSize⟩ := hEnding
      obtain ⟨hFits, hEnded, hSafe⟩ := Shape.implicitReturn_spec hG hReturn
      rw [hSize]
      refine ⟨fun i hLe hLt => ?_, hEnded, fun n _ => hSafe n⟩
      rcases Nat.lt_or_ge i stop.pos with hi | hi
      · exact hFlow.fits nofun i hLe hi
      · exact hFits i hi hLt
  exact ⟨hSetup, hEnd.1, hEnd.2.1, fun n => hEntry (hFlow.safe (hAhead n) (hEnd.2.2 n) rfl), h.outs_fixed, hIndirect⟩

end

end Text.Lowers

namespace Text.Sound

variable (h : T.Sound E)

include h

/-- An instruction is one of the setup, or a fitting one of the body. -/
theorem setup_or_body {i : Nat} {x : Instr} (hx : T.code[i]? = some x) :
    (i < T.start ∧ x.SetsUp) ∨ T.start ≤ i ∧ x.Fits T.code T.temporary (T.inRange ∪ E) := by
  rcases Nat.lt_or_ge i T.start with hLt | hGe
  · refine .inl ⟨hLt, ?_⟩
    rcases h.setup.instrs i (Nat.zero_le _) hLt with ⟨k, size, align, hCode, -⟩ | ⟨t, k, r, align, hCode, -⟩
    · exact .inl ⟨_, _, _, Option.some.inj (hx.symm.trans hCode)⟩
    · exact .inr ⟨_, _, _, _, Option.some.inj (hx.symm.trans hCode)⟩
  · obtain ⟨y, hy, hFits⟩ := h.body i hGe (Array.getElem?_eq_some_iff.mp hx).1
    obtain rfl := Option.some.inj (hx.symm.trans hy)
    exact .inr ⟨hGe, hFits⟩

end Text.Sound

end Comptime
