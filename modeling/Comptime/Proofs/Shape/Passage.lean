import Comptime.Proofs.Bytecode.Paths
import Comptime.Proofs.Shape.Basic
import Comptime.Proofs.Width

/-!
# Getting through a stretch of code

`Passes` says of a stretch of finished code that every instruction in it is as it should be, and that control which enters
it with some registers written leaves it, if at all, with these and some more. Stretches are put together by `Passes.trans`.
A test has two ways out (`Splits`). Those of a pending value lead into its gaps (`Awaits`); once what stands there is known
(`Filled`), the stretch has one way out again.

What stands for a value is used in one of a few ways, by `value_uses`, `address_uses` and `assignTo_uses`.
-/

namespace Comptime

open List

variable {code : Array Instr} {W : Set Reg}

/-- An instruction of a body: it writes registers that are free, reads those that there are, and branches to regions. -/
structure Instr.Fits (code : Array Instr) (Free In : Set Reg) (x : Instr) : Prop where
  real : x ≠ .hole
  inBody : ∀ dst size align, x ≠ .reserve dst size align
  writes : ∀ r ∈ x.writes, r ∈ Free
  reads : ∀ r ∈ x.reads, r ∈ In
  targets : ∀ t ∈ x.targets, ∃ pos : Nat, t = pos ∧ code[pos]? = some .region

/-- The registers of a body: those that it may write, those that there are, and those that are set where it starts. -/
structure Zone (code : Array Instr) where
  free : Set Reg
  all : Set Reg
  base : Set Reg
  within : base ⊆ all

namespace Zone

variable (Z : Zone code)

/-- Registers that are written at some position of the body. -/
structure Written where
  regs : Set Reg
  base : Z.base ⊆ regs
  within : regs ⊆ Z.all

instance : Membership Reg Z.Written := ⟨fun B r => r ∈ B.regs⟩

def start : Z.Written := ⟨Z.base, subset_rfl, Z.within⟩

def FitsAt (i : Nat) : Prop := ∃ x, code[i]? = some x ∧ x.Fits code Z.free Z.all

variable {Z}

/-- Some more registers are written. -/
def Written.add (B : Z.Written) {R : Set Reg} (hR : R ⊆ Z.all) : Z.Written :=
  ⟨B.regs ∪ R, B.base.trans Set.subset_union_left, Set.union_subset B.within hR⟩

end Zone

/-- The positions where something may be put on the paths of a pending value. -/
def Pending.Gap (q : Pending) (i : Nat) : Prop :=
  (q.onTrue < i ∧ i ≤ q.leaveTrue) ∨ (q.onFalse < i ∧ i ≤ q.leaveFalse)

/-- The regions of a pending value. -/
structure Pending.Marked (code : Array Instr) (q : Pending) : Prop where
  onTrue : code[q.onTrue]? = some .region
  onFalse : code[q.onFalse]? = some .region
  merge : code[q.merge]? = some .region

/-- What stands in the gaps of a pending value writes `R` on both paths, and leads to where they meet. -/
structure Pending.Filled (Z : Zone code) (q : Pending) (R : Set Reg) : Prop where
  within : R ⊆ Z.all
  fits : ∀ i, q.Gap i → Z.FitsAt i
  onTrue : ∀ {n W}, Safe code n (W ∪ R) q.merge → Safe code n W (q.onTrue + 1)
  onFalse : ∀ {n W}, Safe code n (W ∪ R) q.merge → Safe code n W (q.onFalse + 1)

variable {Z : Zone code} {B C D : Z.Written} {R : Set Reg} {a b c i n : Nat} {x : Instr} {q : Pending}

/-- Control that enters at `a` where `B` is written leaves at `b` where `C` is written. -/
structure Passes (B : Z.Written) (a b : Nat) (C : Z.Written) : Prop where
  grows : B.regs ⊆ C.regs
  fits : ∀ i, a ≤ i → i < b → Z.FitsAt i
  safe : ∀ {n W}, B.regs ⊆ W → Safe code n (W ∪ C.regs) b → Safe code n W a

/-- Control that enters at `a` where `B` is written leaves at `b`, and `Q` holds of what is written there. -/
def Gets (B : Z.Written) (a b : Nat) (Q : Z.Written → Prop) : Prop := ∃ C, Passes B a b C ∧ Q C

/-- Control that enters at `a` where `B` is written comes to a test and goes on at `yes` or at `no`. What stands in the gap
is left open. -/
structure Splits (B : Z.Written) (a b : Nat) (Gap : Nat → Prop) (yes no : Nat) : Prop where
  fits : ∀ i, a ≤ i → i < b → ¬ Gap i → Z.FitsAt i
  safe : ∀ {n W}, B.regs ⊆ W → SafeNext code n W yes → SafeNext code n W no → Safe code n W a

/-- Control that enters at `a` where `B` is written leaves into the gaps of a pending value. -/
structure Awaits (B : Z.Written) (a b : Nat) (q : Pending) : Prop
    extends Splits B a b q.Gap (q.onTrue + 1) (q.onFalse + 1) where
  marked : q.Marked code
  merge : b = q.merge + 1

/-- Control that enters at `a` where `B` is written goes on at `b` or at a region elsewhere. -/
abbrev Forks (B : Z.Written) (a b other : Nat) : Prop := Splits B a b (fun _ => False) b other

/-! ## Single instructions -/

theorem Goes.eq_succ (hx : code[i]? = some x) (hPlain : x.targets = []) {j : Nat} (h : Goes code i j) : j = i + 1 := by
  obtain ⟨y, hy, ⟨-, hj⟩ | hj⟩ := h
  · exact hj
  · obtain rfl : y = x := by rwa [hx, Option.some.injEq, eq_comm] at hy
    rw [hPlain] at hj
    cases hj

/-- An instruction that is not a branch is safe if the next one is. -/
theorem Safe.plain (hx : code[i]? = some x) (hPlain : x.targets = []) (hReads : ∀ r ∈ x.reads, r ∈ W)
    (hNext : Safe code n (W ∪ {r | r ∈ x.writes}) (i + 1)) : Safe code n W i :=
  .step hx hReads fun _ hj => hj.eq_succ hx hPlain ▸ hNext.next

theorem Safe.region (hx : code[i]? = some .region) (hNext : Safe code n W (i + 1)) : Safe code n W i :=
  .plain hx rfl nofun (hNext.mono Set.subset_union_left)

/-- A branch is safe if its targets are. -/
theorem Safe.branch {test : Reg} {arms : List Arm} {d : Handle} (hx : code[i]? = some (.branch test arms d))
    (hReads : arms.isEmpty = false → test ∈ W) (hTest : arms.isEmpty = true → test = noReg ∨ test ∈ W)
    (hArms : ∀ a ∈ arms, ∀ j : Nat, a.target = j → SafeNext code n W j)
    (hDefault : ∀ j : Nat, d = j → SafeNext code n W j) : Safe code n W i := by
  refine .step hx (fun r hr => ?_) fun j hj => ?_
  · simp only [Instr.reads] at hr
    split at hr
    · cases hr
    · next hNot =>
      obtain rfl : r = test := by simpa using hr
      cases hEmpty : arms.isEmpty with
      | false => exact hReads hEmpty
      | true => exact (hTest hEmpty).resolve_left fun hc => hNot ⟨hEmpty, hc⟩
  · obtain ⟨y, hy, ⟨hFalls, -⟩ | hj⟩ := hj
    · obtain rfl : y = .branch test arms d := by rwa [hx, Option.some.injEq, eq_comm] at hy
      cases hFalls
    · obtain rfl : y = .branch test arms d := by rwa [hx, Option.some.injEq, eq_comm] at hy
      refine SafeNext.mono ?_ Set.subset_union_left
      rcases mem_append.mp hj with hj | hj
      · obtain ⟨a, ha, hEq⟩ := mem_map.mp hj
        exact hArms a ha j hEq
      · exact hDefault j (mem_singleton.mp hj).symm

theorem Safe.jump {t : Nat} (hx : code[i]? = some (.branch noReg [] t)) (hNext : SafeNext code n W t) : Safe code n W i :=
  .branch hx nofun (fun _ => .inl rfl) nofun fun j hj => by
    obtain rfl : t = j := by exact_mod_cast hj
    exact hNext

/-- A return is safe if its value is there. -/
theorem Safe.ret {t : RegType} {r : Reg} (hx : code[i]? = some (.ret t r)) (hReads : ∀ s ∈ (Instr.ret t r).reads, s ∈ W) :
    Safe code n W i := by
  refine .step hx hReads fun j hj => ?_
  obtain ⟨y, hy, ⟨hFalls, -⟩ | hj⟩ := hj <;> obtain rfl : y = .ret t r := by rwa [hx, Option.some.injEq, eq_comm] at hy
  · cases hFalls
  · cases hj

/-- A test is safe if both of its ends are. -/
theorem Safe.test {r : Reg} {arm d : Nat} (hx : code[i]? = some (.branch r [⟨0, arm⟩] d)) (hr : r ∈ W)
    (hArm : SafeNext code n W arm) (hDefault : SafeNext code n W d) : Safe code n W i := by
  refine .branch hx (fun _ => hr) nofun (fun u hu j hj => ?_) fun j hj => ?_
  · obtain rfl : u = ⟨0, arm⟩ := by simpa using hu
    obtain rfl : arm = j := by exact_mod_cast (show (arm : Int) = j from hj)
    exact hArm
  · obtain rfl : d = j := by exact_mod_cast hj
    exact hDefault

namespace Zone

theorem fitsAt_region (hx : code[i]? = some .region) : Z.FitsAt i := ⟨_, hx, nofun, nofun, nofun, nofun, nofun⟩

theorem fitsAt_jump {t : Nat} (hx : code[i]? = some (.branch noReg [] t)) (ht : code[t]? = some .region) : Z.FitsAt i := by
  refine ⟨_, hx, nofun, nofun, nofun, nofun, fun u hu => ⟨t, ?_, ht⟩⟩
  simpa [Instr.targets] using hu

theorem fitsAt_test {r : Reg} {arm d : Nat} (hx : code[i]? = some (.branch r [⟨0, arm⟩] d)) (hr : r ∈ Z.all)
    (hArm : code[arm]? = some .region) (hDefault : code[d]? = some .region) : Z.FitsAt i := by
  refine ⟨_, hx, nofun, nofun, nofun, fun s hs => ?_, fun u hu => ?_⟩
  · obtain rfl : s = r := by simpa [Instr.reads] using hs
    exact hr
  · have hu : u = arm ∨ u = d := by simpa [Instr.targets] using hu
    exact hu.elim (fun h => ⟨_, h, hArm⟩) fun h => ⟨_, h, hDefault⟩

theorem fitsAt_ret {t : RegType} {r : Reg} (hx : code[i]? = some (.ret t r))
    (hReads : ∀ s ∈ (Instr.ret t r).reads, s ∈ Z.all) : Z.FitsAt i :=
  ⟨_, hx, nofun, nofun, nofun, hReads, nofun⟩

end Zone

/-! ## Stretches -/

namespace Passes

theorem refl : Passes B a a B :=
  ⟨subset_rfl, fun _ h h' => absurd h (Nat.not_le.mpr h'), fun hW h => h.mono (Set.union_subset subset_rfl hW)⟩

theorem trans (h : Passes B a b C) (h' : Passes C b c D) : Passes B a c D where
  grows := h.grows.trans h'.grows
  fits i hLe hLt := by
    rcases Nat.lt_or_ge i b with hi | hi
    · exact h.fits i hLe hi
    · exact h'.fits i hi hLt
  safe hW hEnd := h.safe hW (h'.safe Set.subset_union_right
    (hEnd.mono (Set.union_subset_union_left _ Set.subset_union_left)))

theorem instr (hx : code[a]? = some x) (hPlain : x.targets = []) (hReal : x ≠ .hole)
    (hBody : ∀ dst size align, x ≠ .reserve dst size align) (hReads : ∀ r ∈ x.reads, r ∈ B)
    (hWrites : ∀ r ∈ x.writes, r ∈ Z.free ∧ r ∈ Z.all) :
    Passes B a (a + 1) (B.add (R := {r | r ∈ x.writes}) fun r hr => (hWrites r hr).2) where
  grows := Set.subset_union_left
  fits i hLe hLt := by
    obtain rfl : i = a := by omega
    exact ⟨x, hx, hReal, hBody, fun r hr => (hWrites r hr).1, fun r hr => B.within (hReads r hr), by rw [hPlain]; nofun⟩
  safe hW hEnd := .plain hx hPlain (fun r hr => hW (hReads r hr))
    (hEnd.mono (Set.union_subset Set.subset_union_left (Set.union_subset_union_left _ hW)))

variable {Q : Z.Written → Prop}

theorem gets (h : Passes B a b C) (h' : Gets C b c Q) : Gets B a c Q := by
  obtain ⟨D, hD, hQ⟩ := h'
  exact ⟨D, h.trans hD, hQ⟩

end Passes

/-- A stretch in front of a test. -/
theorem Splits.after {Gap : Nat → Prop} {yes no : Nat} (h : Passes B a b C) (h' : Splits C b c Gap yes no) :
    Splits B a c Gap yes no where
  fits i hLe hLt hGap := by
    rcases Nat.lt_or_ge i b with hi | hi
    · exact h.fits i hLe hi
    · exact h'.fits i hi hLt hGap
  safe hW hYes hNo := h.safe hW (h'.safe Set.subset_union_right (hYes.mono Set.subset_union_left)
    (hNo.mono Set.subset_union_left))

/-- With its gaps filled a pending value has one way out. -/
theorem Awaits.passes (h : Awaits B a b q) (hq : q.Filled Z R) : Passes B a b (B.add hq.within) where
  grows := Set.subset_union_left
  fits i hLe hLt := by
    by_cases hGap : q.Gap i
    · exact hq.fits i hGap
    · exact h.fits i hLe hLt hGap
  safe hW hEnd := by
    have hMerge := Safe.region h.marked.merge (h.merge ▸ hEnd.mono
      (Set.union_subset Set.subset_union_left (Set.union_subset_union_left _ hW)))
    exact h.safe hW (hq.onTrue hMerge).next (hq.onFalse hMerge).next

theorem Awaits.swap (h : Awaits B a b q) : Awaits B a b q.swap where
  marked := ⟨h.marked.onFalse, h.marked.onTrue, h.marked.merge⟩
  merge := h.merge
  fits i hLe hLt hGap := h.fits i hLe hLt fun hc => hGap hc.symm
  safe hW hTrue hFalse := h.safe hW hFalse hTrue

variable {other t : Nat} {r : Reg}

/-- A test whose arm and default are the region that follows and a region elsewhere, in either order. -/
theorem forks_branch {arm d : Nat} (hx : code[a]? = some (.branch r [⟨0, arm⟩] d)) (hNext : code[a + 1]? = some .region)
    (hOther : code[other]? = some .region) (hEnds : arm = other ∧ d = a + 1 ∨ arm = a + 1 ∧ d = other) (hr : r ∈ B) :
    Forks B a (a + 2) other where
  fits i hLe hLt _ := by
    by_cases hi : i = a
    · subst hi
      rcases hEnds with ⟨rfl, rfl⟩ | ⟨rfl, rfl⟩
      · exact Zone.fitsAt_test hx (B.within hr) hOther hNext
      · exact Zone.fitsAt_test hx (B.within hr) hNext hOther
    · obtain rfl : i = a + 1 := by omega
      exact Zone.fitsAt_region hNext
  safe hW hYes hNo := by
    have hFalls : SafeNext code _ _ (a + 1) := fun m hm => .region hNext (hYes m hm)
    rcases hEnds with ⟨rfl, rfl⟩ | ⟨rfl, rfl⟩
    · exact .test hx (hW hr) hNo hFalls
    · exact .test hx (hW hr) hFalls hNo

/-- A pending value whose true path leads to where the paths meet, and whose false path leads elsewhere. -/
theorem Awaits.forks (h : Awaits B a b q) (hOther : code[other]? = some .region)
    (hTrue : q.onTrue + 1 = q.leaveTrue ∧ code[q.leaveTrue]? = some (.branch noReg [] q.merge))
    (hFalse : q.onFalse + 1 = q.leaveFalse ∧ code[q.leaveFalse]? = some (.branch noReg [] other)) : Forks B a b other where
  fits i hLe hLt _ := by
    by_cases hGap : q.Gap i
    · rcases hGap with ⟨h1, h2⟩ | ⟨h1, h2⟩
      · obtain rfl : i = q.leaveTrue := by omega
        exact Zone.fitsAt_jump hTrue.2 h.marked.merge
      · obtain rfl : i = q.leaveFalse := by omega
        exact Zone.fitsAt_jump hFalse.2 hOther
    · exact h.fits i hLe hLt hGap
  safe hW hNext hElse := h.safe hW
    (fun m hm => hTrue.1 ▸ .jump hTrue.2 fun k hk => .region h.marked.merge (h.merge ▸ hNext k (hk.trans hm)))
    fun m hm => hFalse.1 ▸ .jump hFalse.2 (hElse.le hm.le)

/-- A further test on the true path of a pending value, from which control goes on or takes the false path. -/
theorem Awaits.extend (h : Awaits B a b q) (hFork : Forks B (q.onTrue + 1) (t + 1) q.onFalse)
    (ht : code[t]? = some .region) : Awaits B a b { q with onTrue := t } where
  marked := ⟨ht, h.marked.onFalse, h.marked.merge⟩
  merge := h.merge
  fits i hLe hLt hGap := by
    by_cases hOld : q.Gap i
    · rcases hOld with ⟨h1, h2⟩ | hOld
      · refine hFork.fits i h1 ?_ id
        by_contra hc
        exact hGap (.inl ⟨by simp only; omega, h2⟩)
      · exact absurd (.inr hOld) hGap
    · exact h.fits i hLe hLt hOld
  safe hW hTrue hFalse := h.safe hW (fun m hm => hFork.safe hW (hTrue.le hm.le) fun k hk =>
    .region h.marked.onFalse (hFalse k (hk.trans hm))) hFalse

/-! ## Values -/

namespace Value

variable {v : Value}

/-- The registers of a value. -/
def regs : Value → Set Reg
  | reg _ r | place _ r => {r}
  | none _ | pending _ _ => ∅

/-- The value is in registers that are in use. -/
def Known (B : Z.Written) : Value → Prop
  | pending _ _ => False
  | v => v.regs ⊆ B.regs

theorem Known.mono (h : v.Known B) (hC : B.regs ⊆ C.regs) : v.Known C := by
  cases v with
  | pending _ _ => exact h.elim
  | _ => exact Set.Subset.trans h hC

/-- What is done about the gaps of a value writes `R` there. -/
def Resolves (Z : Zone code) (R : Set Reg) : Value → Prop
  | pending _ q => q.Filled Z R
  | _ => R = ∅

/-- The paths of a value start and meet at regions. -/
def Marked (code : Array Instr) : Value → Prop
  | pending _ q => q.Marked code
  | _ => True

theorem Known.regs (h : v.Known B) : v.regs ⊆ B.regs := by
  cases v with
  | pending _ _ => exact h.elim
  | _ => exact h

theorem Known.resolves (h : v.Known B) (hR : v.Resolves Z R) : R = ∅ := by
  cases v with
  | pending _ _ => exact h.elim
  | _ => exact hR

theorem Known.marked (h : v.Known B) : v.Marked code := by
  cases v with
  | pending _ _ => exact h.elim
  | _ => trivial

end Value

/-- Control that enters at `a` where `B` is written comes to have a value at `b`. -/
def Yields (B : Z.Written) (a b : Nat) : Value → Prop
  | .pending _ q => Awaits B a b q
  | v => Gets B a b fun C => v.regs ⊆ C.regs

/-- A value is used between two points, wherever it is there. -/
def Uses (B : Z.Written) (v : Value) (a b : Nat) (Q : Z.Written → Prop) : Prop :=
  ∃ R, v.Resolves Z R ∧ ∀ C : Z.Written, B.regs ⊆ C.regs → v.regs ⊆ C.regs → R ⊆ C.regs → Gets C a b Q

variable {v : Value} {Q Q' : Z.Written → Prop}

theorem Uses.andThen (h : Uses B v a b Q) (h' : ∀ C : Z.Written, B.regs ⊆ C.regs → Q C → Gets C b c Q') :
    Uses B v a c Q' := by
  obtain ⟨R, hR, hUse⟩ := h
  refine ⟨R, hR, fun C hB hv hRC => ?_⟩
  obtain ⟨D, hD, hQ⟩ := hUse C hB hv hRC
  exact hD.gets (h' D (hB.trans hD.grows) hQ)

namespace Yields

theorem reg {t : Ty} (h : Gets B a b (r ∈ ·)) : Yields B a b (.reg t r) := by
  obtain ⟨C, hC, hr⟩ := h
  exact ⟨C, hC, Set.singleton_subset_iff.mpr hr⟩

theorem place {t : Ty} (h : Gets B a b (r ∈ ·)) : Yields B a b (.place t r) := reg (t := t) h

theorem marked (h : Yields B a b v) : v.Marked code := by
  cases v with
  | pending _ q => exact Awaits.marked h
  | _ => trivial

theorem resolve (h : Yields B a b v) (hR : v.Resolves Z R) : Gets B a b fun C => v.regs ⊆ C.regs ∧ R ⊆ C.regs := by
  cases v with
  | pending _ q => exact ⟨_, Awaits.passes h hR, Set.empty_subset _, Set.subset_union_right⟩
  | _ =>
    obtain ⟨C, hC, hv⟩ := h
    exact ⟨C, hC, hv, by rw [show R = ∅ from hR]; exact Set.empty_subset _⟩

/-- A value that is used right where it is. -/
theorem use (h : Yields B a b v) (hUse : Uses B v b c Q) : Gets B a c Q := by
  obtain ⟨R, hR, hUse⟩ := hUse
  obtain ⟨C, hC, hv, hRC⟩ := h.resolve hR
  exact hC.gets (hUse C hC.grows hv hRC)

theorem of_known (h : Passes B a b C) (hv : v.Known C) : Yields B a b v := by
  cases v with
  | pending _ q => exact hv.elim
  | _ => exact ⟨C, h, hv⟩

end Yields

/-- Control that enters at `a` where `B` is written comes to have all these values at `b`. -/
structure YieldAll (B : Z.Written) (a b : Nat) (vs : List Value) : Prop where
  marked : ∀ v ∈ vs, v.Marked code
  resolve : ∀ Rs, List.Forall₂ (Value.Resolves Z) Rs vs →
    Gets B a b fun C => (∀ v ∈ vs, v.regs ⊆ C.regs) ∧ ∀ R ∈ Rs, R ⊆ C.regs

theorem YieldAll.of_known {vs : List Value} (h : Passes B a b C) (hvs : ∀ v ∈ vs, v.Known C) : YieldAll B a b vs := by
  refine ⟨fun v hv => (hvs v hv).marked, fun Rs hRs => ⟨C, h, fun v hv => (hvs v hv).regs, fun R hR => ?_⟩⟩
  obtain ⟨i, hi, rfl⟩ := mem_iff_getElem.mp hR
  have hResolves := hRs.get hi (hRs.length_eq ▸ hi)
  have hEmpty : Rs[i] = ∅ := (hvs _ (getElem_mem _)).resolves hResolves
  rw [hEmpty]
  exact Set.empty_subset C.regs

/-- Values are used one after the other. What comes of it may depend on what was written before. -/
def UseAll (vs : List Value) (a b : Nat) (Q : Z.Written → Z.Written → Prop) : Prop :=
  ∃ Rs, List.Forall₂ (Value.Resolves Z) Rs vs ∧
    ∀ C : Z.Written, (∀ v ∈ vs, v.regs ⊆ C.regs) → (∀ R ∈ Rs, R ⊆ C.regs) → Gets C a b (Q C)

section

variable {vs : List Value} {X Y : Z.Written → Z.Written → Prop}

theorem YieldAll.use (h : YieldAll B a b vs) (hUse : UseAll vs b c X) : Gets B a c fun D => ∃ C, X C D := by
  obtain ⟨Rs, hRs, hUse⟩ := hUse
  obtain ⟨C, hC, hvs, hRsC⟩ := h.resolve Rs hRs
  obtain ⟨D, hD, hX⟩ := hUse C hvs hRsC
  exact ⟨D, hC.trans hD, C, hX⟩

theorem Uses.cons (h : Uses Z.start v a b Q) (h' : UseAll vs b c X)
    (hY : ∀ {C D E : Z.Written}, C.regs ⊆ D.regs → Q D → X D E → Y C E) : UseAll (v :: vs) a c Y := by
  obtain ⟨R, hR, hUse⟩ := h
  obtain ⟨Rs, hRs, hRest⟩ := h'
  refine ⟨R :: Rs, .cons hR hRs, fun C hvs hRsC => ?_⟩
  rw [forall_mem_cons] at hvs hRsC
  obtain ⟨D, hD, hQ⟩ := hUse C C.base hvs.1 hRsC.1
  obtain ⟨E, hE, hX⟩ := hRest D (fun v hv => (hvs.2 v hv).trans hD.grows) fun R hR => (hRsC.2 R hR).trans hD.grows
  exact ⟨E, hD.trans hE, hY hD.grows hQ hX⟩

end

theorem Uses.known (h : Uses B v a b Q) (hv : v.Known B) : Gets B a b Q := (Yields.of_known .refl hv).use h

/-! ## Shapes -/

theorem mem_of_lookup {l : List (Nat × Reg)} (h : l.lookup i = some r) : (i, r) ∈ l := by
  obtain ⟨xs, ys, rfl, -⟩ := lookup_eq_some_iff.mp h
  exact mem_append_right xs mem_cons_self

/-- What code may count on: registers that it may write, and those that are set at the entry. -/
structure Text.Ground (T : Text) (Z : Zone T.code) (P : Ty → Bool) : Prop where
  alloc : ∀ k : Nat, k < T.numRegs → ¬ T.fixed k → (k : Reg) ∈ Z.free ∧ (k : Reg) ∈ Z.all
  reserved : ∀ i < T.start, ∀ r size align, T.code[i]? = some (.reserve r size align) → r ∈ Z.base
  slots : ∀ s ∈ T.slots, s.2 ∈ Z.base
  outs : ∀ o ∈ T.outs, o.2 ∈ Z.base
  /-- A result that is returned in a register is the last one. -/
  ret : T.sig.ret.rule = .direct →
    noReg ∈ Z.base ∨ T.sig.results ≠ [] ∧ T.outs.lookup (T.sig.results.length - 1) = none
  /-- A result that comes back in a register has one, if its type passes the test. -/
  calls : ∀ ins outs sig, P (.func ins outs) = true → Convention.sig? T.direct ins outs = some sig →
    sig.ret.rule = .direct → sig.retReg = .void → noReg ∈ Z.base
  bool : P .bool = true

/-- Where every register is set, code may count on everything. -/
theorem Text.Ground.whole (T : Text) : T.Ground ⟨Set.univ, Set.univ, Set.univ, Set.Subset.rfl⟩ fun _ => true where
  alloc _ _ _ := ⟨trivial, trivial⟩
  reserved _ _ _ _ _ _ := trivial
  slots _ _ := trivial
  outs _ _ := trivial
  ret _ := .inl trivial
  calls _ _ _ _ _ _ _ := trivial
  bool := rfl

namespace Shape

variable {T : Text} {Z : Zone T.code} {C : Z.Written} {P : Ty → Bool} {p p' : Point} {d l : Reg}
variable {t : RegType} {align : Int64} {u : Unit}

section

variable (hG : T.Ground Z P)

include hG

theorem reserve_spec {e : Extent} (h : reserve e T p d p') : p'.pos = p.pos ∧ ∀ C : Z.Written, d ∈ C := by
  obtain ⟨rfl, -, -, ⟨i, hi, hCode⟩, rfl⟩ := h
  exact ⟨rfl, fun C => C.base (hG.reserved i hi _ _ _ hCode)⟩

/-- An instruction that computes a register from others. -/
theorem define_gets {f : Reg → Instr} (h : define f T p d p') (hWrites : ∀ r, (f r).writes = [r])
    (hPlain : ∀ r, (f r).targets = []) (hBody : ∀ r dst size align, f r ≠ .reserve dst size align)
    (hReads : ∀ r, ∀ s ∈ (f r).reads, s ∈ C) : Gets C p.pos p'.pos (d ∈ ·) := by
  obtain ⟨_, _, ⟨k, rfl, -, hFixed, hLt, rfl⟩, _, _, ⟨hCode, rfl⟩, rfl, rfl⟩ := h
  have hReal : f k ≠ .hole := fun hHole => by
    have hNone := hWrites k
    rw [hHole] at hNone
    cases hNone
  refine ⟨_, Passes.instr hCode (hPlain k) hReal (hBody k) (hReads k) fun r hr => ?_, Or.inr ?_⟩
  · rw [hWrites, mem_singleton] at hr
    exact hr ▸ hG.alloc k hLt hFixed
  · change (k : Reg) ∈ (f k).writes
    rw [hWrites]
    exact mem_cons_self

theorem bin_gets {op : Op} (h : bin op t l r T p d p') (hl : l ∈ C) (hr : r ∈ C) : Gets C p.pos p'.pos (d ∈ ·) :=
  define_gets hG h (fun _ => rfl) (fun _ => rfl) nofun fun _ s hs => by
    rcases mem_pair.mp hs with rfl | rfl
    · exact hl
    · exact hr

theorem un_gets {op : Op} {u : RegType} (h : un op t u r T p d p') (hr : r ∈ C) : Gets C p.pos p'.pos (d ∈ ·) :=
  define_gets hG h (fun _ => rfl) (fun _ => rfl) nofun fun _ s hs => by
    rw [mem_singleton.mp hs]
    exact hr

theorem imm_gets {bits : UInt64} (h : imm t bits T p d p') : Gets C p.pos p'.pos (d ∈ ·) :=
  define_gets hG h (fun _ => rfl) (fun _ => rfl) nofun fun _ => nofun

theorem load_gets (h : load t r align T p d p') (hr : r ∈ C) : Gets C p.pos p'.pos (d ∈ ·) :=
  define_gets hG h (fun _ => rfl) (fun _ => rfl) nofun fun _ s hs => by
    rw [mem_singleton.mp hs]
    exact hr

theorem addrOf_gets {sym : String} (h : addrOf sym T p d p') : Gets C p.pos p'.pos (d ∈ ·) :=
  define_gets hG h (fun _ => rfl) (fun _ => rfl) nofun fun _ => nofun

/-- A call writes its result, unless there is none. -/
theorem call_gets {args : List Reg} (h : call t r args T p d p') (hr : r ∈ C) (hArgs : ∀ s ∈ args, s ∈ C) :
    Gets C p.pos p'.pos fun D => (t ≠ .void → d ∈ D) ∧ (t = .void → d = noReg) := by
  have hReads : ∀ d, ∀ s ∈ (Instr.call t d r args).reads, s ∈ C := fun d s hs => by
    rcases mem_cons.mp hs with rfl | hs
    · exact hr
    · exact hArgs s hs
  rw [call, ite_iff] at h
  split at h
  · next hVoid =>
    obtain ⟨_, _, ⟨rfl, rfl⟩, _, _, ⟨hCode, rfl⟩, rfl, rfl⟩ := h
    exact ⟨_, Passes.instr hCode rfl nofun nofun (hReads _) nofun, fun hNot => absurd hVoid hNot, fun _ => rfl⟩
  · next hNot =>
    obtain ⟨_, _, ⟨k, rfl, -, hFixed, hLt, rfl⟩, _, _, ⟨hCode, rfl⟩, rfl, rfl⟩ := h
    have hSome : (k : Reg) ≠ noReg := by
      change (k : Int) ≠ -1
      omega
    have hWrites : (Instr.call t k r args).writes = [(k : Reg)] := by rw [Instr.writes, if_neg hSome]
    refine ⟨_, Passes.instr hCode rfl nofun nofun (hReads k) fun s hs => ?_, fun _ => Or.inr ?_,
      fun hVoid => absurd hVoid hNot⟩
    · rw [hWrites, mem_singleton] at hs
      exact hs ▸ hG.alloc k hLt hFixed
    · change (k : Reg) ∈ (Instr.call t k r args).writes
      rw [hWrites]
      exact mem_cons_self

end

/-- An instruction that reads two registers and writes memory. -/
theorem effect_gets {x : Instr} (h : instr x T p u p') (hReads : x.reads = [l, r]) (hWrites : x.writes = [])
    (hPlain : x.targets = []) (hl : l ∈ C) (hr : r ∈ C) : Gets C p.pos p'.pos fun _ => True := by
  obtain ⟨hCode, rfl⟩ := h
  refine ⟨_, .instr hCode hPlain (fun hc => ?_) (fun d size align hc => ?_) (fun s hs => ?_) fun s hs => ?_, trivial⟩
  · rw [hc] at hReads
    cases hReads
  · rw [hc] at hReads
    cases hReads
  · rw [hReads] at hs
    rcases mem_pair.mp hs with rfl | rfl
    · exact hl
    · exact hr
  · rw [hWrites] at hs
    cases hs

theorem leave_iff {pos target : Nat} : leave pos target T p u p' ↔
    p.pos = pos ∧ T.code[pos]? = some (.branch noReg [] target) ∧ p' = { p with pos := pos + 1 } := by
  constructor
  · rintro ⟨_, _, ⟨rfl, rfl⟩, _, _, ⟨rfl, rfl⟩, hCode, rfl⟩
    exact ⟨rfl, hCode, rfl⟩
  · rintro ⟨rfl, hCode, rfl⟩
    exact ⟨_, _, ⟨rfl, rfl⟩, (), _, ⟨rfl, rfl⟩, hCode, rfl⟩

theorem settle_iff {yes no : Nat} : settle q yes no T p u p' ↔
    (q.onTrue + 1 = q.leaveTrue ∧ T.code[q.leaveTrue]? = some (.branch noReg [] yes)) ∧
      (q.onFalse + 1 = q.leaveFalse ∧ T.code[q.leaveFalse]? = some (.branch noReg [] no)) ∧ p' = p := by
  constructor
  · rintro ⟨_, _, ⟨e, hTrue, rfl⟩, f, hFalse, rfl⟩
    rw [leave_iff] at hTrue hFalse
    obtain ⟨hTrue, hCode, rfl⟩ := hTrue
    obtain ⟨hFalse, hCode', rfl⟩ := hFalse
    exact ⟨⟨hTrue, hCode⟩, ⟨hFalse, hCode'⟩, rfl⟩
  · rintro ⟨⟨hTrue, hCode⟩, ⟨hFalse, hCode'⟩, rfl⟩
    exact ⟨(), _, ⟨_, leave_iff.mpr ⟨hTrue, hCode, rfl⟩, rfl⟩, _, leave_iff.mpr ⟨hFalse, hCode', rfl⟩, rfl⟩

/-- A pending value nothing was put into. -/
theorem drop_spec (h : drop v T p u p') (hv : v.Marked T.code) : v.Resolves Z ∅ ∧ p'.pos = p.pos := by
  cases v with
  | pending t q =>
    obtain ⟨hTrue, hFalse, rfl⟩ := settle_iff.mp h
    have hMerge : T.code[q.merge]? = some .region := Pending.Marked.merge hv
    refine ⟨⟨Set.empty_subset _, fun i hi => ?_, fun {n W} hEnd => ?_, fun {n W} hEnd => ?_⟩, rfl⟩
    · rcases hi with ⟨h1, h2⟩ | ⟨h1, h2⟩
      · obtain rfl : i = q.leaveTrue := by omega
        exact Zone.fitsAt_jump hTrue.2 hMerge
      · obtain rfl : i = q.leaveFalse := by omega
        exact Zone.fitsAt_jump hFalse.2 hMerge
    · rw [Set.union_empty] at hEnd
      exact hTrue.1 ▸ .jump hTrue.2 hEnd.next
    · rw [Set.union_empty] at hEnd
      exact hFalse.1 ▸ .jump hFalse.2 hEnd.next
  | _ =>
    obtain ⟨-, rfl⟩ := h
    exact ⟨rfl, rfl⟩

/-- A value that is not used. -/
theorem drop_uses (h : drop v T p u p') (hv : v.Marked T.code) : Uses C v p.pos p'.pos fun _ => True := by
  obtain ⟨hDrop, hPos⟩ := drop_spec (Z := Z) h hv
  exact ⟨∅, hDrop, fun D _ _ _ => ⟨D, hPos ▸ .refl, trivial⟩⟩

theorem startPending_awaits (h : startPending r T p q p') (hr : r ∈ C) : Awaits C p.pos p'.pos q := by
  obtain ⟨hBranch, hTrue, hYes, hLeave, hFalse, hNo, hLeave', hMerge, hEnd, rfl⟩ := startPending_iff.mp h
  refine ⟨⟨fun i hLe hLt hGap => ?_, fun hW hOn hOff => .test hBranch (hW hr) (fun m hm => .region hNo (hOff m hm))
    fun m hm => .region hYes (hOn m hm)⟩, ⟨hYes, hNo, hEnd⟩, rfl⟩
  -- outside the gaps there are the branch and three regions
  have hi : i = p.pos ∨ i = q.onTrue ∨ i = q.onFalse ∨ i = q.merge := by
    simp only [Pending.Gap] at hGap
    simp only at hLt
    omega
  rcases hi with rfl | rfl | rfl | rfl
  · exact Zone.fitsAt_test hBranch (C.within hr) hNo hYes
  · exact Zone.fitsAt_region hYes
  · exact Zone.fitsAt_region hNo
  · exact Zone.fitsAt_region hEnd

section

variable (hG : T.Ground Z P)

include hG

/-- A pending value that is turned into a register. -/
theorem materialize_filled (h : materialize q T p d p') (hq : q.Marked T.code) :
    q.Filled Z {d} ∧ p'.pos = p.pos := by
  obtain ⟨_, _, ⟨k, rfl, -, hFixed, hLt, rfl⟩, _, _, ⟨e, ⟨_, _, ⟨hTrue, rfl⟩, hLeave⟩, rfl⟩, _, _,
    ⟨f, ⟨_, _, ⟨hFalse, rfl⟩, hLeave'⟩, rfl⟩, rfl, rfl⟩ := h
  obtain ⟨hFree, hIn⟩ := hG.alloc k hLt hFixed
  -- the two paths differ in their positions and in what is put into the register
  have hPath : ∀ {start leave : Nat} {bits : UInt64} {s s' : Point}, T.code[start + 1]? = some (.imm .i8 k bits) →
      s.pos = start + 1 + 1 → Shape.leave leave q.merge T s () s' → (∀ i, start < i → i ≤ leave → Z.FitsAt i) ∧
        ∀ {n W}, Safe T.code n (W ∪ {(k : Reg)}) q.merge → Safe T.code n W (start + 1) := by
    intro start leave bits s s' hSet hPos hLeave
    obtain ⟨hHere, hJump, -⟩ := leave_iff.mp hLeave
    obtain rfl : leave = start + 1 + 1 := by omega
    refine ⟨fun i hLt hLe => ?_, fun hEnd => .plain hSet rfl nofun (.jump hJump (hEnd.mono ?_).next)⟩
    · by_cases hi : i = start + 1
      · exact hi ▸ ⟨_, hSet, nofun, nofun, fun r hr => by rwa [mem_singleton.mp hr], nofun, nofun⟩
      · obtain rfl : i = start + 1 + 1 := by omega
        exact Zone.fitsAt_jump hJump hq.merge
    · exact Set.union_subset_union_right _ (Set.singleton_subset_iff.mpr mem_cons_self)
  have hYes := hPath hTrue rfl hLeave
  have hNo := hPath hFalse rfl hLeave'
  exact ⟨⟨Set.singleton_subset_iff.mpr hIn, fun i hi => hi.elim (fun hi => hYes.1 i hi.1 hi.2) fun hi => hNo.1 i hi.1 hi.2,
    hYes.2, hNo.2⟩, rfl⟩

theorem value_uses (h : value v T p d p') (hv : v.Marked T.code) : Uses C v p.pos p'.pos (d ∈ ·) := by
  cases v with
  | reg t r =>
    obtain ⟨rfl, rfl⟩ := h
    exact ⟨∅, rfl, fun D _ hr _ => ⟨D, .refl, hr rfl⟩⟩
  | place t addr =>
    obtain ⟨rt, _, ⟨-, rfl⟩, _, _, ⟨-, rfl⟩, e, _, ⟨-, rfl⟩, h⟩ := h
    exact ⟨∅, rfl, fun D _ hr _ => load_gets hG h (hr rfl)⟩
  | pending t q =>
    obtain ⟨hFilled, hPos⟩ := materialize_filled hG h hv
    exact ⟨{d}, hFilled, fun D _ _ hR => ⟨D, hPos ▸ .refl, hR rfl⟩⟩
  | none t => exact h.elim

theorem value_gets (h : value v T p d p') (hv : Yields C a p.pos v) : Gets C a p'.pos (d ∈ ·) :=
  hv.use (value_uses hG h hv.marked)

theorem toPending_awaits (h : toPending v T p q p') (hv : Yields C a p.pos v) : Awaits C a p'.pos q := by
  cases v with
  | pending t q =>
    obtain ⟨rfl, rfl⟩ := h
    exact hv
  | _ =>
    obtain ⟨r, s, hValue, hStart⟩ := h
    obtain ⟨D, hD, hr⟩ := value_gets hG hValue hv
    have hStart := startPending_awaits hStart hr
    exact ⟨.after hD hStart.toSplits, hStart.marked, hStart.merge⟩

theorem address_uses (h : address v T p d p') (hv : v.Marked T.code) : Uses C v p.pos p'.pos (d ∈ ·) := by
  cases v with
  | place t r =>
    obtain ⟨rfl, rfl⟩ := h
    exact ⟨∅, rfl, fun D _ hr _ => ⟨D, .refl, hr rfl⟩⟩
  | _ =>
    obtain ⟨r, s, hValue, e, _, ⟨-, rfl⟩, tmp, s', hReserve, rt, _, ⟨-, rfl⟩, _, _, hStore, rfl, rfl⟩ := h
    obtain ⟨hPos, hd⟩ := reserve_spec hG hReserve
    refine (value_uses hG hValue hv).andThen fun D _ hr => ?_
    obtain ⟨E, hE, -⟩ := effect_gets hStore rfl rfl rfl (hd D) hr
    exact ⟨E, hPos ▸ hE, hd E⟩

theorem assignTo_uses {t : Ty} (h : assignTo l t v T p u p') (hv : v.Marked T.code) (hl : l ∈ C) :
    Uses C v p.pos p'.pos fun _ => True := by
  obtain ⟨e, -, ⟨-, h⟩ | ⟨-, ⟨t', src, rfl, -, h⟩ | ⟨-, rt, r, s, -, -, hValue, hStore⟩⟩⟩ := of_assignTo h
  · exact drop_uses h hv
  · exact ⟨∅, rfl, fun D hCD hr _ => effect_gets h rfl rfl rfl (hCD hl) (hr rfl)⟩
  · exact (value_uses hG hValue hv).andThen fun D hCD hr => effect_gets hStore rfl rfl rfl (hCD hl) hr

theorem zero_gets {t : Ty} (h : zero l t T p u p') (hl : l ∈ C) : Gets C p.pos p'.pos fun _ => True := by
  obtain ⟨e, _, ⟨-, rfl⟩, h⟩ := h
  rw [ite_iff] at h
  split at h
  · obtain ⟨-, rfl⟩ := h
    exact ⟨C, .refl, trivial⟩
  · rw [ite_iff] at h
    split at h
    · obtain ⟨rt, _, ⟨-, rfl⟩, r, s, hImm, hStore⟩ := h
      obtain ⟨D, hD, hr⟩ := imm_gets hG hImm
      exact hD.gets (effect_gets hStore rfl rfl rfl (hD.grows hl) hr)
    · obtain ⟨r, s, hImm, hFill⟩ := h
      obtain ⟨D, hD, hr⟩ := imm_gets hG hImm
      exact hD.gets (effect_gets hFill rfl rfl rfl (hD.grows hl) hr)

/-- A value that later assignments leave as it is. -/
theorem detach_gets {w : Value} (h : detach v T p w p') (hv : Yields C a p.pos v) : Gets C a p'.pos w.Known := by
  have hReg : ∀ {t : Ty} {r : Reg}, value v T p r p' → Gets C a p'.pos (Value.reg t r).Known := by
    intro t r hValue
    exact Yields.reg (t := t) (value_gets hG hValue hv)
  cases v with
  | place t src =>
    obtain ⟨rt, _, ⟨-, rfl⟩, h⟩ := h
    rw [ite_iff] at h
    split at h
    · obtain ⟨r, _, hValue, rfl, rfl⟩ := h
      exact hReg hValue
    · obtain ⟨e, _, ⟨-, rfl⟩, tmp, s, hReserve, _, _, hCopy, rfl, rfl⟩ := h
      obtain ⟨hPos, hd⟩ := reserve_spec hG hReserve
      obtain ⟨D, hD, hr⟩ := hv
      obtain ⟨E, hE, -⟩ := effect_gets hCopy rfl rfl rfl (hd D) (hr rfl)
      exact ⟨E, hD.trans (hPos ▸ hE), Set.singleton_subset_iff.mpr (hd E)⟩
  | _ =>
    obtain ⟨r, _, hValue, rfl, rfl⟩ := h
    exact hReg hValue

end

end Shape

end Comptime
