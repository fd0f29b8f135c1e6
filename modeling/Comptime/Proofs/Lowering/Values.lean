import Comptime.Proofs.Lowering.Trace

/-!
# The shape of values

Lowering a value leaves its shape. A pending value is open: code can be put in front of the two jumps that leave its
paths, and they can be given other targets. `Pending.Open` says what is known of them until then.
-/

namespace Comptime

open Builder List Build Shape

variable {r : Reg} {l : List (Nat × Reg)} {h m : Nat} {b' F : Builder} {x : Instr} {V : Set Spot}

namespace Builder

variable {b : Builder}
variable {t : RegType} {e : Edge}

/-! ## Instructions that define a register -/

theorem define_traces {x : Reg → Instr} (hx : ∀ r, (x r).isPlain = true) :
    Traces (.plain Reg) ∅ b (define x) fun _ => define x :=
  .seq allocReg_traces fun r _ =>
    .seq (emit_traces (hx r)) fun _ _ => .pure trivial nofun

theorem bin_traces {op : Op} {l : Reg} :
    Traces (.plain Reg) ∅ b (bin op t l r) fun _ => bin op t l r := define_traces fun _ => rfl

theorem un_traces {op : Op} {source : RegType} :
    Traces (.plain Reg) ∅ b (un op t source r) fun _ => un op t source r := define_traces fun _ => rfl

theorem imm_traces {bits : UInt64} :
    Traces (.plain Reg) ∅ b (imm t bits) fun _ => imm t bits := define_traces fun _ => rfl

theorem load_traces {addr : Reg} {align : Int64} :
    Traces (.plain Reg) ∅ b (load t addr align) fun _ => load t addr align := define_traces fun _ => rfl

theorem addrOf_traces {sym : String} :
    Traces (.plain Reg) ∅ b (addrOf sym) fun _ => addrOf sym := define_traces fun _ => rfl

theorem call_traces {target : Reg} {args : List Reg} :
    Traces (.plain Reg) ∅ b (Build.call t target args) fun _ => Shape.call t target args := by
  have hRest : ∀ (r : Reg) (b1 : Builder),
      Traces (.plain Reg) ∅ b1 (do discard (Build.emit (.call t r target args)); pure r)
        fun _ => (do Shape.instr (.call t r target args); pure r) := fun r b1 =>
    .seq (emit_traces rfl) fun _ _ => .pure trivial nofun
  unfold Build.call Shape.call
  by_cases ht : t = .void
  · simp only [if_pos ht]
    exact .seq (κ := .plain Reg) (.pure trivial nofun) hRest
  · simp only [if_neg ht]
    exact .seq allocReg_traces hRest

/-! ## Paths that can still be extended -/

/-- Both what is in front of an instruction and its own code may change. -/
def spotsOf (h : Nat) : Set Spot := {u | u.handle = h}

/-- A path that starts at `y` is left by the jump `h` to `m`, with nothing in between so far. -/
structure Leaves (b : Builder) (y h m : Nat) : Prop where
  gap : ∃ xs ys, b.front = xs ++ y :: h :: ys
  code : b.code h = .branch noReg [] m

namespace Leaves

variable {b' F : Builder} {U V : Set Spot} {y h m : Nat} {p : Point}

variable (hb : b.Sound) (hL : b.Leaves y h m)

include hL

theorem mem_front : h ∈ b.front := by
  obtain ⟨xs, ys, hFront⟩ := hL.gap
  rw [hFront]
  simp

include hb

theorem notMem_cursor {u : Spot} (hu : u.handle = h) : u ∉ b.cursor := by
  rintro ⟨a, hHead, rfl⟩
  exact hb.notMem_anchors hL.mem_front (hu ▸ mem_of_head? hHead)

theorem lowered (hLow : Lowered U b b') (hU : ∀ u : Spot, u.handle = h → u ∉ U) : b'.Leaves y h m := by
  have hOpen : ∀ u : Spot, u.handle = h → u ∉ U ∪ b.cursor := fun u hu hIn =>
    hIn.elim (hU u hu) (hL.notMem_cursor hb hu)
  obtain ⟨xs, ys, hFront⟩ := hL.gap
  have hBody : b.body = (xs ++ [y]) ++ h :: (ys ++ b.rest) := by rw [← front_append_rest, hFront]; simp
  obtain ⟨xs1, ys1, hBody1, hLast⟩ := hLow.grows.gaps _ h _ hBody (hOpen (.before h) rfl)
  rw [getLast?_concat] at hLast
  obtain ⟨us, rfl⟩ := getLast?_eq_some_iff.mp hLast
  refine ⟨?_, by rw [hLow.grows.code h (hb.lt_of_mem_front hL.mem_front) (hOpen (.code h) rfl), hL.code]⟩
  -- the jump does not stand behind the cursor
  have hRest : h ∉ b.rest := hb.notMem_rest hL.mem_front
  rw [← front_append_rest, hLow.rest] at hBody1
  rcases append_eq_append_iff.mp hBody1 with ⟨vs, hVs, hEq⟩ | ⟨vs, hVs, hEq⟩
  · exact absurd (hEq ▸ mem_append_right _ mem_cons_self) hRest
  · cases vs with
    | nil => exact absurd (by rw [← show h :: ys1 = b.rest from hEq]; exact mem_cons_self) hRest
    | cons v vs =>
      rw [cons_append, cons.injEq] at hEq
      obtain ⟨rfl, -⟩ := hEq
      exact ⟨us, vs, by rw [hVs]; simp⟩

/-- Code is put on another path. -/
theorem insert_ne {h' : Nat} (hLow : Lowered {.before h'} b b') (hne : h ≠ h') : b'.Leaves y h m :=
  hL.lowered hb hLow fun u hu hIn => hne (by rw [← hu, show u = .before h' from hIn]; rfl)

/-- The path after code was put on it. -/
theorem extended {b2 : Builder} {y' : Nat} {ys : List Nat} (hLow : Lowered {.before h} b b')
    (hFront : b'.front = b2.front ++ h :: ys) (hLast : b2.last = some y') :
    b'.Leaves y' h m := by
  obtain ⟨us, hUs⟩ := getLast?_eq_some_iff.mp hLast
  refine ⟨⟨us, ys, by rw [hFront, hUs]; simp⟩, ?_⟩
  rw [hLow.grows.code h (hb.lt_of_mem_front hL.mem_front) (by simp [cursor]), hL.code]

/-- The state in which code is lowered into the path. -/
theorem opened : (b.opened h).Sound ∧ (b.opened h).last = some y := by
  obtain ⟨xs, ys, hFront⟩ := hL.gap
  obtain ⟨hOpened, -, -, hFront0, -⟩ := hb.opened (h := h) (show b.front = (xs ++ [y]) ++ h :: ys by rw [hFront]; simp)
    (by simp)
  exact ⟨hOpened, by rw [last, hFront0, getLast?_concat]⟩

omit hb in
/-- A path into which nothing more is put, by where its jump leads in the end. -/
theorem leads {t : Nat} (hF : F.Closed) (hGrows : Grows V b F) (hV : .before h ∉ V)
    (hCode : F.code h = .branch noReg [] t) :
    inGap (F.place y + 1) (leave (F.place h) (F.place t)) (F.text l) p () p := by
  obtain ⟨xs, ys, hFront⟩ := hL.gap
  have hPlace := hF.place_next hGrows hFront hV
  have hAt := hF.code_at (l := l) (Builder.Closed.mem_body hGrows hL.mem_front)
  rw [resolved, hCode, Instr.relocate, position_natCast, hPlace] at hAt
  exact ⟨{ p with pos := F.place h + 1 }, ⟨_, _, ⟨rfl, rfl⟩, (), _, ⟨hPlace.symm, rfl⟩, hAt, by rw [hPlace]⟩, rfl⟩

/-- The same if its jump is as it is. -/
theorem shape (hF : F.Closed) (hGrows : Grows V b F) (hV : ∀ u : Spot, u.handle = h → u ∉ V) :
    inGap (F.place y + 1) (leave (F.place h) (F.place m)) (F.text l) p () p :=
  hL.leads hF hGrows (hV (.before h) rfl)
    ((hGrows.code h (hb.lt_of_mem_front hL.mem_front) (hV (.code h) rfl)).trans hL.code)

end Leaves

/-- Lowering in front of the jump that leaves a path. -/
theorem insertBefore_traces {α : Type} {κ : Kind α} {x : Build α} {X : Builder → Shape α} {y : Nat} {a : α} (hb : b.Sound)
    (hL : b.Leaves y h m) (hx : Traces κ ∅ (b.opened h) x X) (hRun : insertBefore h x b = .ok a b') :
    ∃ b2, x (b.opened h) = .ok a b2 ∧ Lowered ∅ (b.opened h) b2 ∧ Lowered {.before h} b b' ∧ κ.static a b2 ∧
      (∀ u ∈ κ.loose a, b.handles ≤ u.handle) ∧ b'.dead = b.dead ∧ b'.last = b.last ∧ b'.regs = b2.regs ∧
      b'.handles = b2.handles ∧ (∃ ys, b'.front = b2.front ++ h :: ys) ∧
      ∀ F V, Closed F → Grows V b' F →
        (∀ u : Spot, b.handles ≤ u.handle → u.handle < b'.handles → u ∈ V → u ∈ κ.loose a) →
        Grows V b2 F ∧ X F (F.text b.slots) { F.atEnd b with pos := F.place y + 1 } (κ.locate F a) (F.atEnd b2) := by
  obtain ⟨xs, ys, hFront⟩ := hL.gap
  have hSplit : b.front = (xs ++ [y]) ++ h :: ys := by rw [hFront]; simp
  obtain ⟨b2, hRun2, hAll⟩ := insertBefore_lowered (U := ∅) hb hSplit (by simp) hRun
  obtain ⟨hLow, -, hStatic, hLoose, hShape⟩ := hx (hL.opened hb).1 a b2 hRun2
  obtain ⟨hLow', hSame, hFront', hHandles, hRegs, hDead⟩ := hAll hLow
  obtain ⟨hOpened, -, -, hFront0, -⟩ := hb.opened hSplit (by simp)
  have hLast : b'.last = b.last := by
    rw [last, last, hFront', hSplit, getLast?_append_of_ne_nil _ (by simp), getLast?_append_of_ne_nil _ (by simp)]
  refine ⟨b2, hRun2, hLow, by rwa [Set.empty_union] at hLow', hStatic, fun u hu => (hLoose u hu).resolve_right id, hDead, hLast,
    hRegs, hHandles, ⟨ys, hFront'⟩, fun F V hF hGrows hSettled => ?_⟩
  have hGrows2 : Grows V b2 F := hSame.andThen hGrows
  refine ⟨hGrows2, ?_⟩
  have hStart : F.atEnd (b.opened h) = { F.atEnd b with pos := F.place y + 1 } := by
    rw [Builder.atEnd, last, hFront0, getLast?_concat]
    rfl
  have hInner := hShape F V hF hGrows2 fun u hLt hOwn hCursor hIn =>
    hSettled u (hOwn.resolve_right id) (hHandles ▸ hLt) hIn
  rwa [hStart] at hInner

/-! ## Branches -/

theorem Lowered.emit {U : Set Spot} (hLow : Lowered U b b') (x : Instr) :
    Lowered U b (b'.emitted x) := hLow.andThen (lowered_emitted hLow.sound)

/-- A patch of a new branch. -/
theorem Lowered.patch {b'' : Builder} {U : Set Spot} {t : Nat} {u : Unit} (hLow : Lowered U b b')
    (hNew : b.handles ≤ e.branch) (hRun : patch e t b' = .ok u b'') : Lowered U b b'' ∧ b'' = b'.patched e t := by
  obtain ⟨hEdge, -, rfl⟩ := patch_eq_ok hRun
  refine ⟨hLow.trans (lowered_patched hLow.sound hEdge.isBranch) fun u hu hIn => ?_, rfl⟩
  obtain rfl : u = .code e.branch := hIn
  exact absurd hu (by simp only [Spot.handle]; omega)

theorem front_patched {t : Nat} : (b.patched e t).front = b.front := rfl

theorem last_patched {t : Nat} : (b.patched e t).last = b.last := rfl

/-- A branch with a region right after it, one of whose targets is patched. -/
theorem tested {x : Instr} {arm : Option Nat} {t : Nat} {u : Unit} {b' : Builder} (hb : b.Sound)
    (hRun : patch ⟨b.handles, arm⟩ t ((b.emitted x).emitted .region) = .ok u b') :
    Lowered ∅ b b' ∧ b'.dead = false ∧ b'.handles = b.handles + 2 ∧ b'.regs = b.regs ∧
      b'.front = b.front ++ [b.handles, b.handles + 1] ∧ b'.code b.handles = x.redirect arm t ∧
      b'.code (b.handles + 1) = .region := by
  obtain ⟨hLow, rfl⟩ := (((Lowered.refl hb).emit x).emit .region).patch (le_refl _) hRun
  refine ⟨hLow, rfl, by rw [handles_patched, handles_emitted, handles_emitted], rfl, ?_, ?_, ?_⟩
  · rw [front_patched, hb.emitted.front_emitted, hb.front_emitted, handles_emitted]
    simp
  · rw [code_patched, handles_emitted, handles_emitted, if_pos ⟨rfl, by omega⟩, code_emitted, handles_emitted,
      if_neg (by omega), code_emitted, if_pos rfl]
  · rw [code_patched_ne (by simp), code_emitted, handles_emitted, if_pos rfl]

theorem region_bind {β : Type} {f : Nat → Build β} : (Build.region >>= f) b = f b.handles (b.emitted .region) := emit_bind

theorem jump_bind {β : Type} {f : Edge → Build β} :
    (jump >>= f) b = f ⟨b.handles, none⟩ (b.emitted (.branch noReg [] noHandle)) := by
  rw [bind_apply, jump, emit_bind]
  rfl

theorem branchFalse_eq_ok {test : Reg} {yes : Nat} (hb : b.Sound) (hRun : Build.branchFalse test b = .ok (yes, e) b') :
    yes = b.handles + 1 ∧ e = ⟨b.handles, some 0⟩ ∧ Lowered ∅ b b' ∧ b'.dead = false ∧ b'.handles = b.handles + 2 ∧
      b'.regs = b.regs ∧ b'.front = b.front ++ [b.handles, b.handles + 1] ∧
      b'.code b.handles = .branch test [⟨0, noHandle⟩] (b.handles + 1 : Nat) ∧ b'.code (b.handles + 1) = .region := by
  rw [Build.branchFalse, emit_bind, region_bind, handles_emitted] at hRun
  obtain ⟨_, b3, hPatch, hRun⟩ := Build.bind_eq_ok.mp hRun
  cases hRun
  exact ⟨rfl, rfl, tested hb hPatch⟩

theorem last_of_front {n : Nat} (hFront : b'.front = b.front ++ [m, n]) : b'.last = some n := by
  rw [last, hFront, getLast?_append_of_ne_nil _ (by simp)]
  rfl

/-- The shape of a branch with a region right after it. -/
theorem test_shape (hF : F.Closed) (hGrows : Grows V b' F) (hV : ∀ h, b.handles ≤ h → h < b.handles + 2 → .before h ∉ V)
    (hRegs : b'.regs = b.regs) (hFront : b'.front = b.front ++ [b.handles, b.handles + 1]) (hBranch : F.code b.handles = x)
    (hRegion : F.code (b.handles + 1) = .region) : F.place (b.handles + 1) = (F.atEnd b).pos + 1 ∧
      (do instr (x.relocate F.position); region : Shape Nat) (F.text l) (F.atEnd b)
        (F.place (b.handles + 1)) (F.atEnd b') := by
  have hFirst := hF.place_first hGrows hFront (hV _ (le_refl _) (by omega))
  have hNext := hF.place_next hGrows hFront (hV _ (by omega) (by omega))
  have hCode := hF.code_at (l := l) (Builder.Closed.mem_body hGrows (h := b.handles) (by rw [hFront]; simp))
  have hCode' := hF.code_at (l := l) (Builder.Closed.mem_body hGrows (h := b.handles + 1) (by rw [hFront]; simp))
  rw [hFirst] at hNext
  rw [resolved, hBranch, hFirst] at hCode
  rw [resolved, hRegion, hNext] at hCode'
  refine ⟨hNext, (), _, ⟨hCode, rfl⟩, region_iff.mpr ⟨hNext, hCode', ?_⟩⟩
  rw [Closed.atEnd_of_last (last_of_front hFront), hNext, hRegs]
  rfl

/-- The same of a branch and a region that are as they were emitted. -/
theorem settled_test {x : Instr} {b' F : Builder} {V : Set Spot} {l : List (Nat × Reg)} (hb : b.Sound) (hF : F.Closed)
    (hGrows : Grows V b' F) (hSettled : ∀ u : Spot, u.handle < b'.handles → b.handles ≤ u.handle ∨ u ∈ (∅ : Set Spot) →
      u ∉ b.cursor → u ∈ V → u ∈ (∅ : Set Spot)) (hHandles : b'.handles = b.handles + 2) (hRegs : b'.regs = b.regs)
    (hFront : b'.front = b.front ++ [b.handles, b.handles + 1]) (hBranch : b'.code b.handles = x)
    (hRegion : b'.code (b.handles + 1) = .region) :
    F.place (b.handles + 1) = (F.atEnd b).pos + 1 ∧
      (do instr (x.relocate F.position); region : Shape Nat) (F.text l) (F.atEnd b)
        (F.place (b.handles + 1)) (F.atEnd b') := by
  have hV : ∀ h, b.handles ≤ h → h < b.handles + 2 → .before h ∉ V ∧ F.code h = b'.code h := fun h hLe hLt => by
    rw [← hHandles] at hLt
    exact ⟨hb.settled (u := .before h) hSettled hLe hLt id, hGrows.code h hLt (hb.settled (u := .code h) hSettled hLe hLt id)⟩
  exact test_shape hF hGrows (fun h hLe hLt => (hV h hLe hLt).1) hRegs hFront
    ((hV _ (le_refl _) (by omega)).2.trans hBranch) ((hV _ (by omega) (by omega)).2.trans hRegion)

/-! ## Pending values -/

end Builder

namespace Pending

/-- The same value with other numbers for its instructions. -/
def map (f : Nat → Nat) (q : Pending) : Pending := ⟨f q.onTrue, f q.onFalse, f q.leaveTrue, f q.leaveFalse, f q.merge⟩

/-- The jumps that leave its paths can still be changed. -/
def spots (q : Pending) : Set Spot := spotsOf q.leaveTrue ∪ spotsOf q.leaveFalse

/-- Nothing has been put on the paths yet. -/
structure Open (q : Pending) (b : Builder) : Prop where
  onTrue : b.Leaves q.onTrue q.leaveTrue q.merge
  onFalse : b.Leaves q.onFalse q.leaveFalse q.merge
  ne : q.leaveTrue ≠ q.leaveFalse

namespace Open

variable {q : Pending} {b b' : Builder} {U : Set Spot}

theorem spots_lt (hb : b.Sound) (hq : q.Open b) : ∀ u ∈ q.spots, u.handle < b.handles := by
  rintro u (hu | hu)
  · exact hu ▸ hb.lt_of_mem_front hq.onTrue.mem_front
  · exact hu ▸ hb.lt_of_mem_front hq.onFalse.mem_front

theorem lowered (hb : b.Sound) (hq : q.Open b) (hLow : Lowered U b b') (hU : ∀ u ∈ q.spots, u ∉ U) : q.Open b' :=
  ⟨hq.onTrue.lowered hb hLow fun u hu => hU u (.inl hu), hq.onFalse.lowered hb hLow fun u hu => hU u (.inr hu), hq.ne⟩

end Open

end Pending

/-- A truth value that is a pair of paths, at whose end lowering goes on. -/
def Kind.pending : Kind Pending := ⟨Pending.spots, fun q b => q.Open b ∧ b.last = some q.merge, fun F q => q.map F.place⟩

namespace Builder

variable {b : Builder}
variable {q : Pending}

theorem startPending_eq_ok (hb : b.Sound) (hRun : startPending r b = .ok q b') :
    q = ⟨b.handles + 1, b.handles + 3, b.handles + 2, b.handles + 4, b.handles + 5⟩ ∧ Lowered ∅ b b' ∧ b'.dead = false ∧
      b'.handles = b.handles + 6 ∧ b'.regs = b.regs ∧
      b'.front = b.front ++ [b.handles, b.handles + 1, b.handles + 2, b.handles + 3, b.handles + 4, b.handles + 5] ∧
      b'.code b.handles = .branch r [⟨0, (b.handles + 3 : Nat)⟩] (b.handles + 1 : Nat) ∧
      b'.code (b.handles + 1) = .region ∧ b'.code (b.handles + 2) = .branch noReg [] (b.handles + 5 : Nat) ∧
      b'.code (b.handles + 3) = .region ∧ b'.code (b.handles + 4) = .branch noReg [] (b.handles + 5 : Nat) ∧
      b'.code (b.handles + 5) = .region := by
  obtain ⟨⟨yes, e⟩, b1, hBranch, hRun⟩ := bind_eq_ok.mp hRun
  obtain ⟨rfl, rfl, hLow1, hDead, hHandles, hRegs, hFront, hOld, hRegion⟩ := branchFalse_eq_ok hb hBranch
  dsimp only at hRun
  rw [jump_bind, region_bind, jump_bind, region_bind] at hRun
  have hLow5 := (((hLow1.emit (.branch noReg [] noHandle)).emit .region).emit (.branch noReg [] noHandle)).emit
    .region
  simp only [handles_emitted, hHandles, Nat.add_assoc, Nat.reduceAdd] at hRun
  obtain ⟨_, b6, hPatch6, hRun⟩ := bind_eq_ok.mp hRun
  obtain ⟨hLow6, rfl⟩ := hLow5.patch (le_refl _) hPatch6
  obtain ⟨_, b7, hPatch7, hRun⟩ := bind_eq_ok.mp hRun
  obtain ⟨hLow7, rfl⟩ := hLow6.patch (by simp only; omega) hPatch7
  obtain ⟨_, b8, hPatch8, hRun⟩ := bind_eq_ok.mp hRun
  obtain ⟨hLow8, rfl⟩ := hLow7.patch (by simp only; omega) hPatch8
  cases hRun
  have hb1 := hLow1.sound
  refine ⟨rfl, hLow8, rfl, ?_, hRegs, ?_, ?_, ?_, ?_, ?_, ?_, ?_⟩
  · simp only [handles_patched, handles_emitted, hHandles]
  · rw [front_patched, front_patched, front_patched, hb1.emitted.emitted.emitted.front_emitted,
      hb1.emitted.emitted.front_emitted, hb1.emitted.front_emitted, hb1.front_emitted, hFront]
    simp [handles_emitted, hHandles]
  all_goals simp [code_patched, code_emitted, handles_patched, handles_emitted, hHandles, hOld, hRegion, Instr.redirect,
    Nat.add_assoc]

theorem startPending_traces : Traces .pending ∅ b (startPending r) fun _ => startPending r := by
  intro hb q b' hRun
  obtain ⟨rfl, hLow, hDead, hHandles, hRegs, hFront, hBranch, hYes, hTrue, hNo, hFalse, hMerge⟩ :=
    startPending_eq_ok hb hRun
  generalize hh : b.handles = h at *
  have hFront2 : b'.front = (b.front ++ [h]) ++ (h + 1) :: (h + 2) :: [h + 3, h + 4, h + 5] := by rw [hFront]; simp
  have hFront3 : b'.front = (b.front ++ [h, h + 1]) ++ (h + 2) :: (h + 3) :: [h + 4, h + 5] := by rw [hFront]; simp
  have hFront4 : b'.front = (b.front ++ [h, h + 1, h + 2]) ++ (h + 3) :: (h + 4) :: [h + 5] := by rw [hFront]; simp
  have hFront5 : b'.front = (b.front ++ [h, h + 1, h + 2, h + 3]) ++ (h + 4) :: (h + 5) :: [] := by rw [hFront]; simp
  have hLast : b'.last = some (h + 5) := by
    rw [last, hFront5, getLast?_append_of_ne_nil _ (by simp)]
    rfl
  refine ⟨hLow, fun _ => hDead, ⟨⟨⟨⟨_, _, hFront2⟩, hTrue⟩, ⟨⟨_, _, hFront4⟩, hFalse⟩, by simp⟩, hLast⟩, ?_,
    fun F V hF hGrows hSettled => ?_⟩
  · rintro u (hu | hu)
    · exact .inl (by rw [show u.handle = h + 2 from hu]; omega)
    · exact .inl (by rw [show u.handle = h + 4 from hu]; omega)
  -- of the six new instructions, the jumps `h + 2` and `h + 4` stay open: code may still be put before them
  have hNew : ∀ u : Spot, h ≤ u.handle → u.handle < h + 6 → u.handle ≠ h + 2 → u.handle ≠ h + 4 → u ∉ V :=
    fun u hLe hLt hne hne' hIn => (hSettled u (hHandles ▸ hLt) (.inl hLe)
      (fun hCursor => absurd (hh ▸ hb.cursor_lt hCursor) (by omega)) hIn).elim hne hne'
  have hAt : ∀ k, k < 6 → k ≠ 2 → k ≠ 4 →
      (F.text b.slots).code[F.place (h + k)]? = some ((b'.code (h + k)).relocate F.position) := fun k hk h2 h4 =>
    hF.code_front hGrows hLow.sound (by rw [hFront]; simp; omega)
      (hNew (.code (h + k)) (by simp [Spot.handle]) (by simp [Spot.handle, hk]) (by simp [Spot.handle, h2])
        (by simp [Spot.handle, h4]))
  have hGap : ∀ k, k < 6 → k ≠ 2 → k ≠ 4 → .before (h + k) ∉ V := fun k hk h2 h4 =>
    hNew (.before (h + k)) (by simp [Spot.handle]) (by simp [Spot.handle, hk]) (by simp [Spot.handle, h2])
      (by simp [Spot.handle, h4])
  -- so the others stand right behind what comes before them, and of those two it is known only that they lie behind
  have hPlace0 : F.place h = (F.atEnd b).pos :=
    hF.place_first hGrows hFront (hGap 0 (by omega) (by omega) (by omega))
  have hPlace1 : F.place (h + 1) = F.place h + 1 :=
    hF.place_next hGrows hFront (hGap 1 (by omega) (by omega) (by omega))
  have hPlace2 : F.place (h + 1) < F.place (h + 2) := hF.place_lt hGrows hFront2 (by simp)
  have hPlace3 : F.place (h + 3) = F.place (h + 2) + 1 :=
    hF.place_next hGrows hFront3 (hGap 3 (by omega) (by omega) (by omega))
  have hPlace4 : F.place (h + 3) < F.place (h + 4) := hF.place_lt hGrows hFront4 (by simp)
  have hPlace5 : F.place (h + 5) = F.place (h + 4) + 1 :=
    hF.place_next hGrows hFront5 (hGap 5 (by omega) (by omega) (by omega))
  have hCode0 := hAt 0 (by omega) (by omega) (by omega)
  have hCode1 := hAt 1 (by omega) (by omega) (by omega)
  have hCode3 := hAt 3 (by omega) (by omega) (by omega)
  have hCode5 := hAt 5 (by omega) (by omega) (by omega)
  simp only [Nat.add_zero, hBranch, Instr.relocate, position_natCast, hPlace0, map_cons, map_nil] at hCode0
  rw [hYes] at hCode1
  rw [hNo] at hCode3
  rw [hMerge] at hCode5
  refine startPending_iff.mpr ⟨hCode0, by rw [← hPlace0]; exact hPlace1, hCode1, hPlace2, hPlace3, hCode3, hPlace4,
    hPlace5, hCode5, ?_⟩
  rw [Closed.atEnd_of_last hLast, hRegs]
  rfl

/-- An instruction is put in front of the jump that leaves a path. -/
theorem insert_traces {y : Nat} {W : Set Spot} {P : Builder → Prop} (hx : x.isPlain = true) (hL : b.Leaves y h m)
    (hW : ∀ u ∈ W, u.handle < b.handles ∧ u.handle ≠ h) (hP : ∀ b', Lowered {.before h} b b' → P b') :
    Traces (.keeping Unit W P) (spotsOf h ∪ W) b (insertBefore h (discard (emit x))) fun F =>
      inGap (F.place y + 1) (do instr x; leave (F.place h) (F.place m)) := by
  intro hb _ b' hRun
  obtain ⟨b2, -, hLow2, hLow, -, -, hDead, hLast, hRegs, hHandles, ⟨ys, hFront⟩, hShape⟩ :=
    insertBefore_traces hb hL (emit_traces hx) hRun
  refine ⟨hLow.mono ?_, fun h => hDead.trans h, hP b' hLow, fun u hu => .inr (.inr hu), fun F V hF hGrows hSettled => ?_⟩
  · rintro u rfl
    exact .inl rfl
  have hh : h < b.handles := hb.lt_of_mem_front hL.mem_front
  have hNew : ∀ u : Spot, u.handle = h ∨ b.handles ≤ u.handle → u.handle < b'.handles → u ∉ V := fun u hu hLt hIn => by
    have hSame : u ∈ W := hSettled u hLt (hu.symm.imp_right .inl) (fun hCursor => ?_) hIn
    · have := hW u hSame
      omega
    · rcases hu with hu | hu
      · exact hL.notMem_cursor hb hu hCursor
      · exact absurd (hb.cursor_lt hCursor) (by omega)
  have hLe := hLow.grows.handles
  obtain ⟨hGrows2, hInner⟩ := hShape F V hF hGrows fun u hLe hLt hIn => absurd hIn (hNew u (.inr hLe) hLt)
  have hPlace := hF.place_first hGrows hFront (hNew (.before h) (.inl rfl) (hh.trans_le hLe))
  have hJump := hF.code_front (l := b.slots) hGrows hLow.sound (by rw [hFront]; simp)
    (hNew (.code h) (.inl rfl) (hh.trans_le hLe))
  rw [hLow.grows.code h hh (by simp [cursor]), hL.code, Instr.relocate, position_natCast] at hJump
  refine ⟨_, ⟨(), _, hInner, _, _, ⟨rfl, rfl⟩, (), _, ⟨hPlace.symm, rfl⟩, hPlace ▸ hJump, rfl⟩, ?_⟩
  rw [Builder.atEnd, Builder.atEnd, hLast, hRegs]
  rfl

theorem materialize_traces (hq : q.Open b) :
    Traces (.plain Reg) q.spots b (materialize q) fun F => materialize (q.map F.place) := by
  refine .of_sound fun hb => .bind (κ := .keeping Reg q.spots q.Open) ((allocReg_traces.keeping
    (fun u hu => ⟨hq.spots_lt hb u hu, Set.notMem_empty _⟩) fun b' hLow => hq.lowered hb hLow fun _ _ => Set.notMem_empty _).mono
    (by simp)) fun dst b1 _ hLow1 hq1 => ?_
  have hOther : ∀ b2, Lowered {.before q.leaveTrue} b1 b2 → b2.Leaves q.onFalse q.leaveFalse q.merge := fun b2 hLow2 =>
    hq1.onFalse.insert_ne hLow1.sound hLow2 hq.ne.symm
  have hSpots : ∀ u ∈ spotsOf q.leaveFalse, u.handle < b1.handles ∧ u.handle ≠ q.leaveTrue := fun u hu =>
    ⟨hq1.spots_lt hLow1.sound u (.inr hu), fun hEq => hq.ne (hEq.symm.trans hu)⟩
  refine .bind (insert_traces rfl hq1.onTrue hSpots hOther) fun _ _ _ _ hL => ?_
  refine .seq (κ := .keeping Unit ∅ fun _ => True)
    ((insert_traces (W := ∅) rfl hL nofun fun _ _ => trivial).mono (by simp [Kind.keeping])) fun _ _ => ?_
  exact .pure trivial nofun

/-- The shape of two paths into which nothing more is put. -/
theorem settle_shape {yes no : Nat} {p : Point} (hb : b.Sound) (hTrue : b.Leaves q.onTrue q.leaveTrue yes)
    (hFalse : b.Leaves q.onFalse q.leaveFalse no) (hF : F.Closed) (hGrows : Grows V b F) (hV : ∀ u ∈ q.spots, u ∉ V) :
    settle (q.map F.place) (F.place yes) (F.place no) (F.text l) p () p :=
  ⟨(), p, hTrue.shape hb hF hGrows fun u hu => hV u (.inl hu), hFalse.shape hb hF hGrows fun u hu => hV u (.inr hu)⟩

end Builder

/-! ## Values -/

namespace Value

/-- What may still change of a value. -/
def spots : Value → Set Spot
  | pending _ q => q.spots
  | _ => ∅

def map (f : Nat → Nat) : Value → Value
  | pending t q => pending t (q.map f)
  | v => v

/-- A value that has not been used yet. -/
def Open (b : Builder) : Value → Prop
  | pending _ q => q.Open b
  | _ => True

/-- A value at whose end lowering goes on. -/
def Fresh (b : Builder) : Value → Prop
  | pending _ q => q.Open b ∧ b.last = some q.merge
  | _ => True

variable {v : Value} {b b' : Builder} {U : Set Spot}

theorem Fresh.open (hv : v.Fresh b) : v.Open b := by
  cases v with
  | pending t q => exact hv.1
  | _ => trivial

theorem Open.spots_lt (hb : b.Sound) (hv : v.Open b) : ∀ u ∈ v.spots, u.handle < b.handles := by
  cases v with
  | pending t q => exact Pending.Open.spots_lt hb hv
  | _ => exact nofun

theorem Open.lowered (hb : b.Sound) (hv : v.Open b) (hLow : Lowered U b b') (hU : ∀ u ∈ v.spots, u ∉ U) : v.Open b' := by
  cases v with
  | pending t q => exact Pending.Open.lowered hb hv hLow hU
  | _ => trivial

end Value

/-- A value that is not a pair of paths. -/
def Value.Settled : Value → Prop
  | pending .. => False
  | _ => True

namespace Value.Settled

variable {v : Value} (hv : v.Settled)

include hv

theorem fresh {b : Builder} : v.Fresh b := by
  cases v with
  | pending => exact hv.elim
  | _ => trivial

theorem spots_eq : v.spots = ∅ := by
  cases v with
  | pending => exact hv.elim
  | _ => rfl

theorem map_eq {f : Nat → Nat} : v.map f = v := by
  cases v with
  | pending => exact hv.elim
  | _ => rfl

end Value.Settled

/-- A value that is in a register or in memory. -/
def Kind.stored : Kind Value := ⟨fun _ => ∅, fun v _ => v.Settled, fun _ v => v⟩

def Kind.value : Kind Value := ⟨Value.spots, fun v b => v.Fresh b, fun F v => v.map F.place⟩

namespace Builder

variable {b : Builder} {v : Value}

theorem drop_traces (hv : v.Open b) :
    Traces (.plain Unit) v.spots b (Pure.pure ()) fun F => drop (v.map F.place) := by
  intro hb _ b' hRun
  cases hRun
  refine ⟨.refl hb, id, trivial, nofun, fun F V hF hGrows hSettled => ?_⟩
  cases v with
  | pending t q =>
    refine settle_shape hb hv.onTrue hv.onFalse hF hGrows fun u hu hIn =>
      hSettled u (Pending.Open.spots_lt hb hv u hu) (.inr hu) ?_ hIn
    exact hu.elim (hv.onTrue.notMem_cursor hb) (hv.onFalse.notMem_cursor hb)
  | _ => exact ⟨rfl, rfl⟩

theorem value_traces (hv : v.Open b) :
    Traces (.plain Reg) v.spots b (value v) fun F => value (v.map F.place) := by
  cases v with
  | none t => exact .throw
  | reg t r => exact .pure trivial nofun
  | pending t q => exact materialize_traces hv
  | place t addr =>
    refine .demand fun rt _ => ?_
    by_cases hVoid : rt = .void
    · simp only [if_pos hVoid]
      exact .throw_bind
    · simp only [if_neg hVoid]
      exact .check hVoid (.demand fun e _ => load_traces)

theorem toPending_traces (hv : v.Fresh b) :
    Traces .pending v.spots b (toPending v) fun F => toPending (v.map F.place) := by
  cases v with
  | pending t q => exact .pure hv fun _ hu => hu
  | _ => exact .seq (value_traces trivial) fun r _ => startPending_traces

theorem address_traces (hv : v.Open b) :
    Traces (.plain Reg) v.spots b (address v) fun F => address (v.map F.place) := by
  have hSpill : Traces (.plain Reg) v.spots b (do
      let r ← value v
      let e ← extent v.ty
      let tmp ← reserve e
      store (← regType v.ty) tmp r e.align
      return tmp) fun F => do
      let r ← value (v.map F.place)
      let e ← demand v.ty.extent?
      let tmp ← reserve e
      let rt ← demand v.ty.regType?
      instr (.store rt tmp r e.align)
      return tmp :=
    .seq (value_traces hv) fun r _ => .demand fun e _ =>
      .seq reserve_traces fun tmp _ => .demand fun rt _ =>
        .seq (emit_traces rfl) fun _ _ => .pure trivial nofun
  cases v with
  | place t addr => exact .pure trivial nofun
  | _ => exact hSpill

theorem assignTo_traces {dst : Reg} {t : Ty} (hv : v.Open b) :
    Traces (.plain Unit) v.spots b (assignTo dst t v) fun F => assignTo dst t (v.map F.place) := by
  refine .demand fun e _ => ?_
  by_cases hSize : e.size = 0
  · simp only [if_pos hSize]
    exact drop_traces hv
  simp only [if_neg hSize]
  have hStore : Traces (.plain Unit) v.spots b (do
      let rt ← regType t
      if rt = .void then bug ("store " ++ t.name ++ " from a register")
      store rt dst (← value v) e.align) (fun F => do
      let rt ← demand t.regType?
      check (rt ≠ .void)
      let r ← value (v.map F.place)
      instr (.store rt dst r e.align)) := by
    refine .demand fun rt _ => ?_
    by_cases hVoid : rt = .void
    · simp only [if_pos hVoid]
      exact .throw_bind
    · simp only [if_neg hVoid]
      exact .check hVoid (.seq (value_traces hv) fun r _ => emit_traces rfl)
  cases hScalar : t.isScalar with
  | true => exact hStore
  | false =>
    cases v with
    | place _ src => exact emit_traces rfl
    | _ => exact hStore

theorem zero_traces {dst : Reg} {t : Ty} :
    Traces (.plain Unit) ∅ b (zero dst t) fun _ => zero dst t := by
  refine .demand fun e _ => ?_
  by_cases hSize : e.size = 0
  · simp only [if_pos hSize]
    exact .pure trivial nofun
  simp only [if_neg hSize]
  cases hScalar : t.isScalar with
  | true =>
    exact .demand fun rt _ => .seq imm_traces fun r _ => emit_traces rfl
  | false => exact .seq imm_traces fun r _ => emit_traces rfl

theorem detach_traces (hv : v.Open b) :
    Traces .stored v.spots b (detach v) fun F => detach (v.map F.place) := by
  have hHold : Traces .stored v.spots b (do return .reg v.ty (← value v)) fun F => do
      return .reg v.ty (← value (v.map F.place)) :=
    .seq (value_traces hv) fun r _ => .pure trivial nofun
  cases v with
  | place t src =>
    refine .demand fun rt _ => ?_
    have hSame : (t.isScalar || rt != .void) = true ↔ t.isScalar = true ∨ rt ≠ .void := by simp
    by_cases hFits : t.isScalar = true ∨ rt ≠ .void
    · simp only [if_pos hFits, if_pos (hSame.mpr hFits)]
      exact hHold
    · simp only [if_neg hFits, if_neg fun h => hFits (hSame.mp h)]
      exact .demand fun e _ => .seq reserve_traces fun tmp _ =>
        .seq (emit_traces rfl) fun _ _ => .pure trivial nofun
  | _ => exact hHold

end Builder

end Comptime
