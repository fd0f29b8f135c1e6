import Comptime.Proofs.Lowering.Assignments

/-!
# Between statements

Between statements no insertion is open, and what may still change about the code are branches that wait for their targets:
the jumps out of loops and switches, which these collect, and those that a statement keeps track of itself. A builder is
`Ready` for a statement together with the list of the latter, and a statement leaves that list as it is. `Reached` is how a
builder grows from one statement to the next, and what is known of the code in between once everything is finished.
-/

namespace Comptime

open Builder List Build JumpTarget Registers

variable {es : List Edge} {e : Edge} {ts : List JumpTarget}

/-! ## Jumps that are collected -/

namespace JumpTarget

variable {t t' t'' : JumpTarget}

/-- The jumps that a loop or a switch has collected. -/
def edges (t : JumpTarget) : List Edge := t.breaks ++ t.continues ++ t.falls

/-- Only a switch is fallen through, and only a loop is continued. -/
def Proper (t : JumpTarget) : Prop := if t.isLoop then t.falls = [] else t.continues = []

theorem edges_of_loop (hProper : t.Proper) (hLoop : t.isLoop = true) : t.edges = t.breaks ++ t.continues := by
  rw [Proper, if_pos hLoop] at hProper
  rw [edges, hProper, append_nil]

theorem edges_of_switch (hProper : t.Proper) (hLoop : t.isLoop = false) : t.edges = t.breaks ++ t.falls := by
  rw [Proper, if_neg (by simp [hLoop])] at hProper
  rw [edges, hProper, append_nil]

/-- More jumps were collected. -/
structure Extends (t t' : JumpTarget) : Prop where
  isLoop : t'.isLoop = t.isLoop
  depth : t'.depth = t.depth
  breaks : t.breaks ⊆ t'.breaks
  continues : t.continues ⊆ t'.continues
  falls : t.falls ⊆ t'.falls

theorem Extends.refl : Extends t t := ⟨rfl, rfl, Subset.refl _, Subset.refl _, Subset.refl _⟩

theorem Extends.all : Forall₂ Extends ts ts := forall₂_same.mpr fun _ _ => refl

theorem Extends.trans (hT : Extends t t') (hT' : Extends t' t'') : Extends t t'' where
  isLoop := hT'.isLoop.trans hT.isLoop
  depth := hT'.depth.trans hT.depth
  breaks := Subset.trans hT.breaks hT'.breaks
  continues := Subset.trans hT.continues hT'.continues
  falls := Subset.trans hT.falls hT'.falls

end JumpTarget

theorem forall₂_comp {α β γ : Type} {R : α → β → Prop} {S : β → γ → Prop} {T : α → γ → Prop} {as : List α} {bs : List β}
    {cs : List γ} (hR : Forall₂ R as bs) (hS : Forall₂ S bs cs) (hT : ∀ a b c, R a b → S b c → T a c) :
      Forall₂ T as cs := by
  induction hR generalizing cs with
  | nil =>
    cases hS
    exact .nil
  | cons hHead _ ih =>
    cases hS with
    | cons hHead' hTail => exact .cons (hT _ _ _ hHead hHead') (ih hTail)

namespace Builder

variable {t : Nat} {b0 : Builder} {u : Unit} {x : Instr} {N O O' O'' P P' P'' : List (Nat × Instr)}
variable {b b' b'' F : Builder} {floor h : Nat}

/-! ## Branches that wait -/

/-- A jump that has no target. -/
abbrev openJump : Instr := .branch noReg [] noHandle

/-- The branches that the edges belong to, which are all the same. -/
def pending (x : Instr) (es : List Edge) : List (Nat × Instr) := es.map fun e => (e.branch, x)

theorem pending_append {es' : List Edge} : pending x (es ++ es') = pending x es ++ pending x es' := map_append

/-- The jumps that loops and switches have collected. -/
def edges (b : Builder) : List Edge := b.targets.flatMap JumpTarget.edges

/-- All that is open, if besides the jumps that are collected this is what `P` lists. -/
def opens (P : List (Nat × Instr)) (b : Builder) : List (Nat × Instr) := P ++ pending openJump b.edges

/-- These are branches of the code, each listed once. -/
structure Opens (O : List (Nat × Instr)) (b : Builder) : Prop where
  lt : ∀ p ∈ O, p.1 < b.handles
  code : ∀ p ∈ O, b.code p.1 = p.2
  branch : ∀ p ∈ O, ∃ test arms default, p.2 = .branch test arms default
  nodup : (O.map Prod.fst).Nodup

namespace Opens

theorem nil : Opens [] b := ⟨forall_mem_nil _, forall_mem_nil _, forall_mem_nil _, nodup_nil⟩

theorem singleton (hLt : h < b.handles) (hCode : b.code h = x) (hx : ∃ test arms default, x = .branch test arms default) :
    Opens [(h, x)] b :=
  ⟨forall_mem_singleton.mpr hLt, forall_mem_singleton.mpr hCode, forall_mem_singleton.mpr hx, nodup_singleton _⟩

theorem of_perm (hO : Opens O b) (hPerm : O.Perm (N ++ O')) : Opens O' b := by
  have hMem : ∀ p ∈ O', p ∈ O := fun p hp => hPerm.mem_iff.mpr (mem_append_right _ hp)
  have hNodup := (hPerm.map Prod.fst).nodup_iff.mp hO.nodup
  rw [map_append] at hNodup
  exact ⟨fun p hp => hO.lt p (hMem p hp), fun p hp => hO.code p (hMem p hp), fun p hp => hO.branch p (hMem p hp),
    hNodup.of_append_right⟩

/-- Branches that are listed apart are apart. -/
theorem ne_of_append {p q : Nat × Instr} (hO : Opens (N ++ O) b) (hp : p ∈ N) (hq : q ∈ O) : q.1 ≠ p.1 := by
  have hNodup := hO.nodup
  rw [map_append, nodup_append] at hNodup
  exact (hNodup.2.2 _ (mem_map_of_mem hp) _ (mem_map_of_mem hq)).symm

theorem append (hN : Opens N b) (hO : Opens O b) (hApart : ∀ p ∈ N, ∀ q ∈ O, p.1 ≠ q.1) : Opens (N ++ O) b where
  lt := forall_mem_append.mpr ⟨hN.lt, hO.lt⟩
  code := forall_mem_append.mpr ⟨hN.code, hO.code⟩
  branch := forall_mem_append.mpr ⟨hN.branch, hO.branch⟩
  nodup := by
    rw [map_append, nodup_append]
    refine ⟨hN.nodup, hO.nodup, fun h hh k hk => ?_⟩
    obtain ⟨p, hp, rfl⟩ := mem_map.mp hh
    obtain ⟨q, hq, rfl⟩ := mem_map.mp hk
    exact hApart p hp q hq

theorem of_code (hO : Opens O b) (hHandles : b.handles ≤ b'.handles) (hCode : ∀ p ∈ O, b'.code p.1 = b.code p.1) :
    Opens O b' :=
  { hO with
    lt := fun p hp => (hO.lt p hp).trans_le hHandles
    code := fun p hp => (hCode p hp).trans (hO.code p hp) }

theorem grows (hO : Opens O b) (hGrows : Grows ∅ b b') : Opens O b' :=
  hO.of_code hGrows.handles fun p hp => hGrows.code _ (hO.lt p hp) (Set.notMem_empty _)

end Opens

/-! ## Steps -/

/-- Any instruction may be another one. -/
def anyCode : Set Spot := {u | ∃ h, u = .code h}

/-- The instructions that are not as they will be. -/
def changed (b F : Builder) : Set Spot := {u | ∃ h, u = .code h ∧ F.code h ≠ b.code h}

theorem Grows.changed (hGrows : Grows anyCode b F) : Grows (b.changed F) b F :=
  { hGrows with
    code := fun h _ hV => by
      by_contra hne
      exact hV ⟨h, rfl, hne⟩
    gaps := fun xs y ys hBody _ => hGrows.gaps xs y ys hBody nofun }

/-- From a builder where `O` is open to one where `O'` is. All other instructions are as they will be. -/
structure Advance (O : List (Nat × Instr)) (b : Builder) (O' : List (Nat × Instr)) (b' : Builder) : Prop where
  grows : Grows anyCode b b'
  code : ∀ h < b.handles, (∀ p ∈ O, p.1 ≠ h) → b'.code h = b.code h ∧ ∀ p ∈ O', p.1 ≠ h

theorem Advance.trans (hA : Advance O b O' b') (hA' : Advance O' b' O'' b'') : Advance O b O'' b'' where
  grows := hA.grows.trans hA'.grows fun _ _ h => h
  code h hLt hOut := by
    obtain ⟨hCode, hOut'⟩ := hA.code h hLt hOut
    obtain ⟨hCode', hOut''⟩ := hA'.code h (hLt.trans_le hA.grows.handles) hOut'
    exact ⟨hCode'.trans hCode, hOut''⟩

/-- No instruction changes, and what is open has been, or is new. -/
theorem Grows.advance (hGrows : Grows ∅ b b') (hO : ∀ p ∈ O', p ∈ O ∨ b.handles ≤ p.1) : Advance O b O' b' where
  grows := hGrows.mono (Set.empty_subset _)
  code h hLt hOut := ⟨hGrows.code h hLt (Set.notMem_empty _), fun p hp hEq =>
    (hO p hp).elim (fun hIn => hOut p hIn hEq) fun hNew => absurd hLt (by omega)⟩

/-- The code that is open at `b` and nothing else has still to change until it is `F`. -/
structure Settled (O : List (Nat × Instr)) (b F : Builder) : Prop where
  closed : F.Closed
  advance : Advance O b [] F

theorem Advance.settled (hA : Advance O b O' b') (hF : Settled O' b' F) : Settled O b F := ⟨hF.closed, hA.trans hF.advance⟩

theorem Closed.cursor_eq (hb : b.Closed) : b.cursor = ∅ := by
  refine Set.eq_empty_iff_forall_notMem.mpr fun u hu => ?_
  obtain ⟨h, hHead, -⟩ := hu
  rw [Stream.anchors, hb.done] at hHead
  cases hHead

theorem Closed.lowered {U : Set Spot} (hb : b.Closed) (hLow : Lowered U b b') : b'.Closed ∧ Grows U b b' := by
  have hNil : b'.stream.anchors = [] := by rw [hLow.anchors, Stream.anchors, hb.done]; rfl
  have hGrows := hLow.grows
  rw [hb.cursor_eq, Set.union_empty] at hGrows
  exact ⟨⟨hLow.sound, map_eq_nil_iff.mp hNil⟩, hGrows⟩

theorem Closed.alike (hb : b.Closed) (hSame : Alike b b') (hRegs : b'.regs.Sound) : b'.Closed :=
  ⟨hSame.sound hb.sound hRegs, hSame.stream ▸ hb.done⟩

/-- Where the next statement of `b` will stand in the code of `F`. -/
def site (F b : Builder) (scopes : List (List Stmt)) : Site :=
  ⟨F.point b.last, b.regs.high, b.dead, b.slots, b.linked, scopes⟩

variable {L : List (List Stmt)}

theorem site_dead : (F.site b L).dead = b.dead := rfl

/-! ## Where jumps lead -/

def Leads (F : Builder) (e : Edge) (target : Option Nat) : Prop :=
  ∃ t : Nat, F.code e.branch = openJump.redirect e.arm t ∧ target = some (F.place t)

/-- The jumps that a loop or a switch has collected lead where it says. -/
structure Matches (F : Builder) (t : JumpTarget) (t' : Target) : Prop where
  isLoop : t'.isLoop = t.isLoop
  depth : t'.depth = t.depth
  breaks : ∀ e ∈ t.breaks, F.Leads e t'.onBreak
  continues : ∀ e ∈ t.continues, F.Leads e t'.onContinue
  falls : ∀ e ∈ t.falls, F.Leads e t'.onFall

theorem Matches.of_extends {t t' : JumpTarget} {u : Target} (hT : t.Extends t') (hM : F.Matches t' u) : F.Matches t u where
  isLoop := hM.isLoop.trans hT.isLoop
  depth := hM.depth.trans hT.depth
  breaks e he := hM.breaks e (hT.breaks he)
  continues e he := hM.continues e (hT.continues he)
  falls e he := hM.falls e (hT.falls he)

/-! ## From site to site -/

/-- What lowering needs between statements, where `P` is open besides the jumps that are collected. Registers from `floor`
on are free. -/
structure Ready (floor : Nat) (P : List (Nat × Instr)) (b : Builder) : Prop where
  closed : b.Closed
  opens : Opens (b.opens P) b
  proper : ∀ t ∈ b.targets, t.Proper
  floor_le : floor ≤ b.regs.next
  hold : b.regs.hold = 0 → floor = 0

/-- Lowering got from `b` to `b'`, and the finished code in between is as `Q` says. -/
structure Reached (floor : Nat) (P : List (Nat × Instr)) (b : Builder) (P' : List (Nat × Instr)) (b' : Builder)
    (Q : Builder → List Target → Prop) : Prop where
  ready : Ready floor P' b'
  advance : Advance (b.opens P) b (b'.opens P') b'
  hold : b'.regs.hold = b.regs.hold
  targets : Forall₂ Extends b.targets b'.targets
  flow : ∀ F ts, Settled (b'.opens P') b' F → Forall₂ F.Matches b'.targets ts → Q F ts

namespace Reached

variable {Q Q' : Builder → List Target → Prop} (hR : Reached floor P b P' b' Q)

include hR

theorem imp (hQ : ∀ F ts, Q F ts → Q' F ts) : Reached floor P b P' b' Q' :=
  { hR with flow := fun F ts hF hTs => hQ F ts (hR.flow F ts hF hTs) }

theorem growing : Reached floor P b P' b' fun F ts => Q F ts ∧ Grows anyCode b' F :=
  { hR with flow := fun F ts hF hTs => ⟨hR.flow F ts hF hTs, hF.advance.grows⟩ }

theorem seq (hR' : Reached floor P' b' P'' b'' Q') : Reached floor P b P'' b'' fun F ts => Q F ts ∧ Q' F ts where
  ready := hR'.ready
  advance := hR.advance.trans hR'.advance
  hold := hR'.hold.trans hR.hold
  targets := forall₂_comp hR.targets hR'.targets fun _ _ _ => .trans
  flow F ts hF hTs := ⟨hR.flow F ts (hR'.advance.settled hF) (forall₂_comp hR'.targets hTs fun _ _ _ => .of_extends),
    hR'.flow F ts hF hTs⟩

theorem cons_targets {t : JumpTarget} (hTargets : b.targets = t :: ts) :
    ∃ t' ts', b'.targets = t' :: ts' ∧ t.Extends t' ∧ Forall₂ Extends ts ts' := by
  have hTs := hR.targets
  rw [hTargets, forall₂_cons_left_iff] at hTs
  obtain ⟨t', ts', hT, hTail, hTargets'⟩ := hTs
  exact ⟨t', ts', hTargets', hT, hTail⟩

end Reached

section

variable (hb : Ready floor P b)

include hb

theorem Ready.ne_of_handles_le (hNew : b.handles ≤ h) : ∀ p ∈ b.opens P, p.1 ≠ h := by
  intro p hp
  have hLt := hb.opens.lt p hp
  omega

/-- Some of what is open is as it will be. -/
theorem Ready.release (hPerm : P.Perm (N ++ P')) : Reached floor P b P' b fun F _ => ∀ p ∈ N, F.code p.1 = p.2 := by
  have hAll : (b.opens P).Perm (N ++ b.opens P') := by
    rw [Builder.opens, Builder.opens, ← append_assoc]
    exact hPerm.append_right _
  have hSub : ∀ p ∈ b.opens P', p ∈ b.opens P := fun p hp => hAll.mem_iff.mpr (mem_append_right _ hp)
  refine ⟨{ hb with opens := hb.opens.of_perm hAll }, (Grows.refl hb.closed.sound).advance fun p hp => .inl (hSub p hp),
    rfl, Extends.all, fun F ts hF _ p hp => ?_⟩
  have hOpen : p ∈ b.opens P := hAll.mem_iff.mpr (mem_append_left _ hp)
  have hOut : ∀ q ∈ b.opens P', q.1 ≠ p.1 := fun q hq => (hb.opens.of_perm (N := []) hAll).ne_of_append hp hq
  exact (hF.advance.code _ (hb.opens.lt p hOpen) hOut).1.trans (hb.opens.code p hOpen)

theorem Ready.stay {Q : Builder → List Target → Prop} (hQ : ∀ F ts, Q F ts) : Reached floor P b P b Q :=
  (hb.release (N := []) .rfl).imp fun F ts _ => hQ F ts

/-- Lowering in place. The new branches in `N` have to be patched. -/
theorem Ready.grown (hLow : Lowered ∅ b b') (hN : Opens N b') (hNew : ∀ p ∈ N, b.handles ≤ p.1) :
    Reached floor P b (N ++ P) b' fun F _ => F.Closed ∧ Grows anyCode b' F ∧
      ∀ h, b.handles ≤ h → h < b'.handles → (∀ p ∈ N, p.1 ≠ h) → F.code h = b'.code h := by
  obtain ⟨hClosed, hGrows⟩ := hb.closed.lowered hLow
  have hOpens : b'.opens (N ++ P) = N ++ b.opens P := by
    rw [Builder.opens, Builder.opens, edges, edges, hLow.targets, append_assoc]
  refine ⟨⟨hClosed, ?_, hLow.targets ▸ hb.proper, hb.floor_le.trans hLow.next, hLow.hold ▸ hb.hold⟩,
    hGrows.advance fun p hp => ?_, hLow.hold, hLow.targets ▸ Extends.all,
    fun F ts hF _ => ⟨hF.closed, hF.advance.grows, fun h hLe hLt hOut => (hF.advance.code h hLt ?_).1⟩⟩
  · rw [hOpens]
    exact hN.append (hb.opens.grows hGrows) fun p hp q hq => (hb.ne_of_handles_le (hNew p hp) q hq).symm
  · rw [hOpens] at hp
    exact (mem_append.mp hp).symm.imp_right (hNew p)
  · rw [hOpens]
    exact forall_mem_append.mpr ⟨hOut, hb.ne_of_handles_le hLe⟩

/-- Nothing changes but what lowering keeps track of besides the code. -/
theorem Ready.alike (hSame : Alike b b') (hRegs : b'.regs.Sound) (hGrows : b.regs.Grows b'.regs)
    (hHold : b'.regs.hold = b.regs.hold) (hFloor : floor ≤ b'.regs.next) (hTargets : b'.targets = b.targets) :
    Reached floor P b P b' fun _ _ => True := by
  have hCode := hSame.grows (U := ∅) hb.closed.sound.below hGrows
  have hOpens : b'.opens P = b.opens P := by rw [Builder.opens, Builder.opens, edges, edges, hTargets]
  refine ⟨⟨hb.closed.alike hSame hRegs, ?_, hTargets ▸ hb.proper, hFloor, hHold ▸ hb.hold⟩,
    hCode.advance fun p hp => .inl (hOpens ▸ hp), hHold, hTargets ▸ Extends.all, fun _ _ _ _ => trivial⟩
  rw [hOpens]
  exact hb.opens.grows hCode

/-- What is deferred reaches the scopes that are left, or it does not. -/
theorem Ready.link (linked : Bool) : Reached floor P b P { b with linked } fun _ _ => True :=
  hb.alike ⟨rfl, rfl, rfl, rfl⟩ hb.closed.sound.regs .refl rfl hb.floor_le rfl

theorem Ready.reclaim : Reached floor P b P { b with regs := b.regs.reclaim } fun F _ =>
    ∀ L, F.site { b with regs := b.regs.reclaim } L = F.site b L := by
  have hFloor : floor ≤ b.regs.reclaim.next := by
    by_cases hHold : b.regs.hold = 0
    · rw [hb.hold hHold]
      exact Nat.zero_le _
    · rw [reclaim_of_hold hHold]
      exact hb.floor_le
  have hAlike : Alike b { b with regs := b.regs.reclaim } := ⟨rfl, rfl, rfl, rfl⟩
  refine (hb.alike hAlike hb.closed.sound.regs.reclaim grows_reclaim hold_reclaim hFloor rfl).imp fun F _ _ L => ?_
  simp only [site, high_reclaim]
  rfl

/-- While registers are held, those below the next one stay in use. -/
theorem Ready.held : Ready b.regs.next P { b with regs := { b.regs with hold := b.regs.hold + 1 } } :=
  ⟨hb.closed.alike ⟨rfl, rfl, rfl, rfl⟩ hb.closed.sound.regs.held, hb.opens.of_code (le_refl _) fun _ _ => rfl, hb.proper,
    le_refl _, nofun⟩

theorem Reached.released {Q : Builder → List Target → Prop}
    (hR : Reached b.regs.next P { b with regs := { b.regs with hold := b.regs.hold + 1 } } P b' Q) :
    Reached floor P b P { b' with regs := { b'.regs with hold := b'.regs.hold - 1 } } Q := by
  have hHold : b'.regs.hold - 1 = b.regs.hold := by
    rw [hR.hold]
    rfl
  have hBefore : Grows ∅ b { b with regs := { b.regs with hold := b.regs.hold + 1 } } :=
    Alike.grows ⟨rfl, rfl, rfl, rfl⟩ hb.closed.sound.below grows_held
  have hAfter : Grows ∅ b' { b' with regs := { b'.regs with hold := b'.regs.hold - 1 } } :=
    Alike.grows ⟨rfl, rfl, rfl, rfl⟩ hR.ready.closed.sound.below grows_held
  have hAdvance : Advance (b'.opens P) b' (b'.opens P) _ := hAfter.advance fun _ => .inl
  exact ⟨⟨hR.ready.closed.alike ⟨rfl, rfl, rfl, rfl⟩ hR.ready.closed.sound.regs.held, hR.ready.opens.grows hAfter,
      hR.ready.proper, hb.floor_le.trans hR.ready.floor_le, fun h => hb.hold (hHold.symm.trans h)⟩,
    ((hBefore.advance fun _ => .inl).trans hR.advance).trans hAdvance, hHold, hR.targets,
    fun F ts hF hTs => hR.flow F ts (hAdvance.settled hF) hTs⟩

/-! ## Opening and closing loops and switches -/

/-- Jumps are collected, or are not any more. -/
theorem Ready.retarget (hPerm : (b.opens P).Perm (P' ++ pending openJump (ts.flatMap JumpTarget.edges)))
    (hProper : ∀ t ∈ ts, t.Proper) : Ready floor P' { b with targets := ts } ∧
      Advance (b.opens P) b (Builder.opens P' { b with targets := ts }) { b with targets := ts } := by
  have hGrows : Grows ∅ b { b with targets := ts } := Alike.grows ⟨rfl, rfl, rfl, rfl⟩ hb.closed.sound.below .refl
  exact ⟨⟨hb.closed.alike ⟨rfl, rfl, rfl, rfl⟩ hb.closed.sound.regs, (hb.opens.of_perm (N := []) hPerm).grows hGrows, hProper,
    hb.floor_le, hb.hold⟩, hGrows.advance fun p hp => .inl (hPerm.mem_iff.mpr hp)⟩

/-- A loop or a switch is opened. -/
theorem Ready.opened {isLoop : Bool} {depth : Nat} :
    Ready floor P { b with targets := ⟨isLoop, depth, [], [], []⟩ :: b.targets } := by
  have hProper : ∀ t ∈ ⟨isLoop, depth, [], [], []⟩ :: b.targets, t.Proper := by
    refine forall_mem_cons.mpr ⟨?_, hb.proper⟩
    rw [JumpTarget.Proper]
    exact ite_self _ |>.mpr rfl
  refine (hb.retarget ?_ hProper).1
  exact .rfl

end

theorem Reached.perm {Q : Builder → List Target → Prop} (hR : Reached floor P b P' b' Q) (hPerm : P'.Perm P'') :
    Reached floor P b P'' b' Q :=
  (hR.seq (hR.ready.release (N := []) hPerm)).imp fun _ _ hQ => hQ.1

theorem closeTarget_eq_ok {t : JumpTarget} (hRun : closeTarget b = .ok t b') :
    ∃ ts, b.targets = t :: ts ∧ b' = { b with targets := ts } := by
  rw [closeTarget, get_bind] at hRun
  cases hTargets : b.targets with
  | nil =>
    rw [hTargets] at hRun
    cases hRun
  | cons t0 ts =>
    simp only [hTargets] at hRun
    rw [modify_bind] at hRun
    cases hRun
    exact ⟨ts, rfl, rfl⟩

/-- A loop or a switch is closed: the jumps it has collected are to be patched. -/
theorem Reached.closing {Q : Builder → List Target → Prop} {t0 : JumpTarget} {α : Type} {k : JumpTarget → Build α} {c : α}
    (hNone : t0.edges = []) (hR : Reached floor P { b with targets := t0 :: b.targets } P' b' Q)
    (hRun : (closeTarget >>= k) b' = .ok c b'') :
    ∃ t ts, k t { b' with targets := ts } = .ok c b'' ∧ t.isLoop = t0.isLoop ∧ t.depth = t0.depth ∧ t.Proper ∧
      Reached floor P b (pending openJump t.edges ++ P') { b' with targets := ts } fun F us =>
        ∀ u, F.Matches t u → Q F (u :: us) := by
  obtain ⟨t, _, hClose, hRun⟩ := bind_eq_ok.mp hRun
  obtain ⟨ts, hTargets, rfl⟩ := closeTarget_eq_ok hClose
  have hTs := hR.targets
  rw [hTargets] at hTs
  obtain _ | ⟨hT, hTs⟩ := hTs
  have hProper := hTargets ▸ hR.ready.proper
  have hBefore : Grows ∅ b { b with targets := t0 :: b.targets } :=
    Alike.grows ⟨rfl, rfl, rfl, rfl⟩ hR.advance.grows.below .refl
  have hOpens : opens P { b with targets := t0 :: b.targets } = b.opens P := by
    rw [opens, edges, flatMap_cons, hNone]
    rfl
  have hPerm : (b'.opens P').Perm ((pending openJump t.edges ++ P') ++ pending openJump (ts.flatMap JumpTarget.edges)) := by
    rw [opens, edges, hTargets, flatMap_cons, pending_append, ← append_assoc]
    exact perm_append_comm.append_right _
  obtain ⟨hReady, hAfter⟩ := hR.ready.retarget hPerm fun u hu => hProper u (mem_cons_of_mem _ hu)
  refine ⟨t, ts, hRun, hT.isLoop, hT.depth, hProper t mem_cons_self, hReady, ?_, hR.hold, hTs, fun F us hF hUs u hM => ?_⟩
  · exact ((hBefore.advance fun p hp => .inl (hOpens ▸ hp)).trans hR.advance).trans hAfter
  · exact hR.flow F (u :: us) (hAfter.settled hF) (hTargets ▸ .cons hM hUs)

/-- The jumps to the next case of a switch are to be patched. -/
theorem Reached.dropFalls {Q : Builder → List Target → Prop} {t t0 : JumpTarget} {ts0 : List JumpTarget}
    (hR : Reached floor P b P' b' Q) (hTargets0 : b.targets = t0 :: ts0) (hNone : t0.falls = [])
    (hTargets : b'.targets = t :: ts) (hLoop : t.isLoop = false) :
    Reached floor P b (pending openJump t.falls ++ P') { b' with targets := { t with falls := [] } :: ts } fun F us =>
      ∀ u us' next, us = u :: us' → (∀ e ∈ t.falls, F.Leads e next) → Q F ({ u with onFall := next } :: us') := by
  have hTs := hR.targets
  rw [hTargets0, hTargets] at hTs
  obtain _ | ⟨hT, hTs⟩ := hTs
  obtain ⟨hProper, hRest⟩ := forall_mem_cons.mp (hTargets ▸ hR.ready.proper)
  have hPerm : (b'.opens P').Perm ((pending openJump t.falls ++ P') ++
      pending openJump (({ t with falls := [] } :: ts).flatMap JumpTarget.edges)) := by
    rw [opens, edges, hTargets, flatMap_cons, flatMap_cons, JumpTarget.edges, JumpTarget.edges, append_nil]
    have hMove := perm_append_comm_assoc (P' ++ pending openJump t.breaks ++ pending openJump t.continues)
      (pending openJump t.falls) (pending openJump (ts.flatMap JumpTarget.edges))
    simpa only [pending_append, append_assoc] using hMove
  have hProper' : JumpTarget.Proper { t with falls := [] } := by
    rw [JumpTarget.Proper, if_neg (by simp [hLoop])] at hProper ⊢
    exact hProper
  obtain ⟨hReady, hAfter⟩ := hR.ready.retarget hPerm (forall_mem_cons.mpr ⟨hProper', hRest⟩)
  refine ⟨hReady, hR.advance.trans hAfter, hR.hold, ?_, ?_⟩
  · rw [hTargets0]
    exact .cons { hT with falls := by simp [hNone] } hTs
  · rintro F us hF hUs u us' next rfl hFalls
    obtain _ | ⟨hM, hUs⟩ := hUs
    exact hR.flow F _ (hAfter.settled hF) (hTargets ▸ .cons { hM with falls := hFalls } hUs)

/-! ## Patches -/

/-- A branch is patched, and may be patched again. -/
theorem Ready.patched (hb : Ready floor ((e.branch, x) :: P) b) :
    Reached floor ((e.branch, x) :: P) b ((e.branch, x.redirect e.arm t) :: P) (b.patched e t) fun F _ =>
      ∀ L, F.site (b.patched e t) L = F.site b L := by
  have hLt : e.branch < b.handles := hb.opens.lt _ mem_cons_self
  have hOld : b.code e.branch = x := hb.opens.code _ mem_cons_self
  obtain ⟨test, arms, default, hx⟩ := hb.opens.branch (e.branch, x) mem_cons_self
  change x = _ at hx
  have hLow : Lowered {.code e.branch} b (b.patched e t) :=
    lowered_patched hb.closed.sound ⟨test, arms, default, hOld.trans hx⟩
  obtain ⟨hClosed, hGrows⟩ := hb.closed.lowered hLow
  have hCode : ∀ h, h ≠ e.branch → (b.patched e t).code h = b.code h := fun h hne => by
    rw [code_patched, if_neg fun hEq => hne hEq.1]
  have hOpens : Opens (b.opens P) b := hb.opens.of_perm (N := [(e.branch, x)]) .rfl
  have hApart : ∀ q ∈ b.opens P, q.1 ≠ e.branch := fun q hq =>
    Opens.ne_of_append (N := [(e.branch, x)]) hb.opens mem_cons_self hq
  have hNew : Opens [(e.branch, x.redirect e.arm t)] (b.patched e t) := by
    refine .singleton (handles_patched.symm ▸ hLt) (by rw [code_patched, if_pos ⟨rfl, hLt⟩, hOld]) ?_
    rw [hx]
    cases e.arm <;> exact ⟨_, _, _, rfl⟩
  refine ⟨⟨hClosed, ?_, hb.proper, hb.floor_le, hb.hold⟩, ⟨hGrows.mono ?_, fun h hh hOut => ⟨hCode h ?_, ?_⟩⟩, rfl, Extends.all,
    fun F ts _ _ L => rfl⟩
  · exact hNew.append (hOpens.of_code handles_patched.ge fun p hp => hCode _ (hApart p hp)) fun p hp q hq => by
      rw [mem_singleton.mp hp]
      exact (hApart q hq).symm
  · rintro u rfl
    exact ⟨_, rfl⟩
  · exact (hOut (e.branch, x) mem_cons_self).symm
  · rintro p (_ | ⟨_, hp⟩)
    · exact hOut (e.branch, x) mem_cons_self
    · exact hOut p (mem_cons_of_mem _ hp)

theorem Ready.patch (hb : Ready floor ((e.branch, x) :: P) b) (hRun : patch e t b = .ok u b') :
    Reached floor ((e.branch, x) :: P) b P b' fun F _ => F.code e.branch = x.redirect e.arm t ∧
      ∀ L, F.site b' L = F.site b L := by
  obtain ⟨-, -, rfl⟩ := patch_eq_ok hRun
  have hPatched := hb.patched (t := t)
  refine (hPatched.seq (hPatched.ready.release (N := [(e.branch, x.redirect e.arm t)]) .rfl)).imp ?_
  rintro F ts ⟨hSite, hCode⟩
  exact ⟨hCode _ mem_cons_self, hSite⟩

theorem patchAll_eq_ok (hRun : patchAll es t b = .ok u b') : b' = es.foldl (fun b e => b.patched e t) b := by
  induction es generalizing b with
  | nil =>
    cases hRun
    rfl
  | cons e es ih =>
    obtain ⟨_, b1, hPatch, hRun⟩ := bind_eq_ok.mp hRun
    obtain ⟨-, -, rfl⟩ := patch_eq_ok hPatch
    exact ih hRun

/-- Branches are patched. -/
theorem Ready.patchedAll (hb : Ready floor (pending x es ++ P) b) :
    Reached floor (pending x es ++ P) b P (es.foldl (fun b e => b.patched e t) b) fun F _ =>
      (∀ e ∈ es, F.code e.branch = x.redirect e.arm t) ∧ ∀ L, F.site (es.foldl (fun b e => b.patched e t) b) L = F.site b L := by
  induction es generalizing b with
  | nil => exact hb.stay fun F _ => ⟨forall_mem_nil _, fun _ => rfl⟩
  | cons e es ih =>
    have hReach1 := hb.patched (t := t)
    have hReach2 := hReach1.ready.release (N := [(e.branch, x.redirect e.arm t)]) .rfl
    refine ((hReach1.seq hReach2).seq (ih hReach2.ready)).imp ?_
    rintro F ts ⟨⟨hSite, hFirst⟩, hRest, hSite'⟩
    exact ⟨forall_mem_cons.mpr ⟨hFirst _ mem_cons_self, hRest⟩, fun L => (hSite' L).trans (hSite L)⟩

theorem Ready.patchAll (hb : Ready floor (pending x es ++ P) b) (hRun : patchAll es t b = .ok u b') :
    Reached floor (pending x es ++ P) b P b' fun F _ =>
      (∀ e ∈ es, F.code e.branch = x.redirect e.arm t) ∧ ∀ L, F.site b' L = F.site b L :=
  patchAll_eq_ok hRun ▸ hb.patchedAll

/-- The jumps out of a loop or a switch are patched, and then the others. -/
theorem Ready.patchAway {α : Type} {a a' : α} {es' : List Edge} {exit next : Nat}
    (hb : Ready floor (pending openJump (es ++ es') ++ P) b)
    (hRun : (do Build.patchAll es exit; Build.patchAll es' next; return a) b = .ok a' b') : a' = a ∧
    Reached floor (pending openJump (es ++ es') ++ P) b P b' fun F _ => (∀ e ∈ es, F.Leads e (some (F.place exit))) ∧
      (∀ e ∈ es', F.Leads e (some (F.place next))) ∧ ∀ L, F.site b' L = F.site b L := by
  obtain ⟨_, b1, hFirst, hRun⟩ := bind_eq_ok.mp hRun
  obtain ⟨_, b2, hSecond, hRun⟩ := bind_eq_ok.mp hRun
  cases hRun
  rw [pending_append, append_assoc] at hb ⊢
  have hReach1 := hb.patchAll hFirst
  refine ⟨rfl, (hReach1.seq (hReach1.ready.patchAll hSecond)).imp ?_⟩
  rintro F ts ⟨⟨hExit, hSite⟩, hNext, hSite'⟩
  exact ⟨fun e he => ⟨_, hExit e he, rfl⟩, fun e he => ⟨_, hNext e he, rfl⟩, fun L => (hSite' L).trans (hSite L)⟩

/-! ## Pieces of code -/

section

variable (hb : Ready floor P b) {L : List (List Stmt)}

include hb

/-- Straight code between two statements. -/
theorem Ready.shape {α : Type} {x : Build α} {X : Builder → Shape α} {a : α} (hx : Traces (.plain α) ∅ b x X)
    (hRun : x b = .ok a b') (hDead : b.dead = false) :
    Reached floor P b P b' fun F _ => X F (F.text b.slots) (F.atEnd b) a (F.atEnd b') ∧
      F.site b' L = { F.site b L with pos := (F.atEnd b').pos, high := (F.atEnd b').high } := by
  obtain ⟨hLow, hDead', -, -, hShape⟩ := hx hb.closed.sound a b' hRun
  refine (hb.grown hLow .nil (forall_mem_nil _)).imp ?_
  rintro F ts ⟨hF, hGrows, hCode⟩
  refine ⟨hShape F _ hF hGrows.changed fun u hLt hOwn _ hIn => ?_, ?_⟩
  · obtain ⟨h, rfl, hne⟩ := hIn
    exact hne (hCode h (hOwn.resolve_right (Set.notMem_empty _)) hLt (forall_mem_nil _))
  · simp only [site, hDead' hDead, hDead, hLow.slots, hLow.linked]
    rfl

theorem Ready.runs {α : Type} {x : Build α} {X : Builder → Shape α} {a : α} (hx : Traces (.plain α) ∅ b x X)
    (hRun : x b = .ok a b') (hDead : b.dead = false) :
    Reached floor P b P b' fun F _ => (F.text []).Runs floor (X F) (F.site b L) a (F.site b' L) :=
  (hb.shape (L := L) hx hRun hDead).imp fun F _ ⟨hShape, hSite⟩ =>
    ⟨hDead, b.regs.next, F.atEnd b', hb.floor_le, hShape, hSite⟩

/-- A condition, by where its edge leads in the end. -/
theorem Ready.condition {c : Expr} (hDead : b.dead = false) (hRun : condition c b = .ok e b') :
    b'.dead = false ∧ ∃ x, Reached floor P b ((e.branch, x) :: P) b' fun F _ => ∀ t : Nat,
      F.code e.branch = x.redirect e.arm t → (F.text []).Runs floor (Shape.condition c) (F.site b L) (F.place t)
        (F.site b' L) := by
  obtain ⟨hLow, hDead', hNew, hLt, hBranch, hShape⟩ := condition_shape hb.closed.sound hRun
  refine ⟨hDead' hDead, _, (hb.grown hLow (.singleton hLt rfl hBranch) (forall_mem_singleton.mpr hNew)).imp ?_⟩
  rintro F ts ⟨hF, hGrows, hCode⟩ t hEdge
  refine ⟨hDead, b.regs.next, F.atEnd b', hb.floor_le, hShape F _ t hF hGrows.changed (fun u hLt hLe hIn => ?_) hEdge, ?_⟩
  · obtain ⟨h, rfl, hne⟩ := hIn
    by_contra hOther
    exact hne (hCode h hLe hLt (forall_mem_singleton.mpr fun hEq => hOther (congrArg Spot.code hEq.symm)))
  · simp only [site, hDead' hDead, hDead, hLow.slots, hLow.linked]
    rfl

/-- An instruction, by what becomes of it in the end. -/
theorem Ready.emit (hN : Opens N (b.emitted x)) (hNew : ∀ p ∈ N, b.handles ≤ p.1) :
    Reached floor P b (N ++ P) (b.emitted x) fun F _ => ((∀ p ∈ N, p.1 ≠ b.handles) → F.code b.handles = x) ∧
      F.place b.handles = (F.site b L).pos ∧
      (F.text []).code[(F.site b L).pos]? = some ((F.code b.handles).relocate F.position) ∧
      F.site (b.emitted x) L = { F.site b L with pos := (F.site b L).pos + 1, dead := deadAfter b.dead x } := by
  refine (hb.grown (lowered_emitted hb.closed.sound) hN hNew).imp ?_
  rintro F ts ⟨hF, hGrows, hCode⟩
  obtain ⟨hPlace, hAt, hEnd⟩ := emitted_shape (l := []) hb.closed.sound hF hGrows nofun rfl
  refine ⟨fun hOut => ?_, hPlace, hAt, by rw [site, show F.point _ = (F.atEnd _).pos from rfl, hEnd]; rfl⟩
  rw [hCode _ (le_refl _) (by rw [handles_emitted]; omega) hOut, code_emitted, if_pos rfl]

/-- A branch that has to be patched. -/
theorem Ready.emitOpen (test : Reg) (arms : List Arm) (d : Handle) :
    Reached floor P b ((b.handles, .branch test arms d) :: P) (b.emitted (.branch test arms d)) fun F _ =>
      (F.text []).code[(F.site b L).pos]? = some ((F.code b.handles).relocate F.position) ∧
      F.site (b.emitted (.branch test arms d)) L = { F.site b L with pos := (F.site b L).pos + 1, dead := true } :=
  (hb.emit (.singleton (h := b.handles) (by rw [handles_emitted]; omega) (by rw [code_emitted, if_pos rfl]) ⟨_, _, _, rfl⟩)
    (forall_mem_singleton.mpr (le_refl _))).imp fun F _ ⟨_, _, hAt, hEnd⟩ => ⟨hAt, hEnd⟩

/-- An instruction that stays as it is. -/
theorem Ready.settle : Reached floor P b P (b.emitted x) fun F _ =>
    F.place b.handles = (F.site b L).pos ∧
    (F.text []).code[(F.site b L).pos]? = some (x.relocate F.position) ∧
    F.site (b.emitted x) L = { F.site b L with pos := (F.site b L).pos + 1, dead := deadAfter b.dead x } := by
  refine (hb.emit (L := L) .nil (forall_mem_nil _)).imp ?_
  rintro F ts ⟨hCode, hEmit⟩
  rwa [hCode (forall_mem_nil _)] at hEmit

theorem Ready.region : Reached floor P b P (b.emitted .region) fun F _ =>
    (F.text []).Region (F.site b L) (F.place b.handles) (F.site (b.emitted .region) L) := hb.settle.imp fun _ _ h => h

/-- A jump, by where it leads in the end. -/
theorem Ready.jump : Reached floor P b ((b.handles, openJump) :: P) (b.emitted openJump) fun F _ => ∀ pos,
    F.Leads ⟨b.handles, none⟩ (some pos) → (F.text []).Jump (F.site b L) pos (F.site (b.emitted openJump) L) := by
  refine (hb.emitOpen (L := L) ..).imp ?_
  rintro F ts ⟨hAt, hEnd⟩ pos ⟨t, hCode, hPos⟩
  rw [hCode, Instr.redirect, Instr.relocate, position_natCast] at hAt
  rw [Option.some.inj hPos]
  exact ⟨hAt, hEnd⟩

theorem Ready.jumpTo : Reached floor P b P (b.emitted (.branch noReg [] t)) fun F _ =>
    (F.text []).Jump (F.site b L) (F.place t) (F.site (b.emitted (.branch noReg [] t)) L) :=
  (hb.settle (L := L)).imp fun F _ ⟨_, hAt, hEnd⟩ => by
    rw [Instr.relocate, position_natCast] at hAt
    exact ⟨hAt, hEnd⟩

end

end Builder

end Comptime
