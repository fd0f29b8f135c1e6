import Comptime.Proofs.Lowering.Sites

/-!
# The shape of lowered statements

Lowering a statement leaves the shape that `Flow` gives it (`stmt_moves`). Deferred statements are kept as actions on the
scopes around them; `Scopes.Holds` ties the actions of each scope to the statements they came from. An action of a scope
acts on the scopes further out only, so that what is known of it can be said by recursion on the number of scopes.
-/

namespace Comptime

open Builder List Scopes

/-- A piece of lowering moves from site to site as `Flow` says. -/
def Moves {n : Nat} (R : Scopes n → List (List Stmt) → Prop) (task : Task) (L : List (List Stmt)) (x : Build (Scopes n)) :
    Prop :=
  ∀ floor P b s' b', Ready floor P b → x b = .ok s' b' → ∃ L', R s' L' ∧
    Reached floor P b P b' fun F ts => Flow (F.text []) ts floor task (F.site b L) (F.site b' L')

namespace Scopes

/-- The actions of the scopes come from these statements. -/
def Holds : (n : Nat) → Scopes n → List (List Stmt) → Prop
  | 0, _, L => L = []
  | n + 1, s, L => ∃ D L', L = D :: L' ∧ s.deferred = D.map (fun d => Build.stmt d n) ∧
    (∀ d ∈ D, ∀ s L, Holds n s L → Moves (Holds n) (.stmt d) L (Build.stmt d n s)) ∧ Holds n s.outer L'

theorem Holds.length : ∀ {n : Nat} {s : Scopes n} {L : List (List Stmt)}, Holds n s L → L.length = n
  | 0, _, _, h => by rw [show _ = [] from h]; rfl
  | _ + 1, _, _, ⟨_, _, hL, _, _, hOuter⟩ => by rw [hL, length_cons, hOuter.length]

theorem Holds.push {n : Nat} {s : Scopes n} {L : List (List Stmt)} (hs : Holds n s L) :
    Holds (n + 1) (s.push []) ([] :: L) := ⟨[], L, rfl, rfl, nofun, hs⟩

end Scopes

namespace Build

variable {n : Nat} {L : List (List Stmt)}
variable {s s' : Scopes n} {floor : Nat} {P : List (Nat × Instr)} {b b' : Builder} {α : Type} {t : JumpTarget}
  {f : Edge → JumpTarget → JumpTarget} {a : α}

/-- From whatever scopes it starts, the code moves as the task says. -/
def Shaped (task : Task) (x : Deferred n) : Prop :=
  ∀ ⦃s⦄ ⦃L⦄, Holds n s L → Moves (Holds n) task L (x s)

/-! ## Leaving scopes -/

theorem runDeferred_moves {D : List Stmt} (hD : ∀ d ∈ D, Shaped (.stmt d) (stmt d n)) {kept : Scopes n}
    {K : List (List Stmt)} (hs : Holds n s L) (hKept : Holds n kept K) :
    Moves (Holds n) (.deferred D K) L (runDeferred (D.map fun d => stmt d n) s kept) := by
  intro floor P b s' b' hb hRun
  induction D generalizing s kept L K b with
  | nil =>
    cases hRun
    exact ⟨K, hKept, hb.stay fun F ts => .undeferred⟩
  | cons d D ih =>
    obtain ⟨s1, b1, hFirst, hRun⟩ := bind_eq_ok.mp hRun
    obtain ⟨L1, hs1, hReach1⟩ := hD d mem_cons_self hs floor P b s1 b1 hb hFirst
    rw [get_bind] at hRun
    have hKept1 : Holds n (if b1.linked then s1 else kept) (if b1.linked then L1 else K) := by
      split
      · exact hs1
      · exact hKept
    obtain ⟨L', hs', hReach'⟩ := ih (fun d hd => hD d (mem_cons_of_mem _ hd)) hs1 hKept1 b1 hReach1.ready hRun
    exact ⟨L', hs', (hReach1.seq hReach').imp fun F ts hFlow => .deferred hFlow.1 hFlow.2⟩

theorem leaveScopes_moves {depth : Nat} : Shaped (.leave depth) (leaveScopes depth n) := by
  induction n with
  | zero =>
    intro s L hs floor P b s' b' hb hRun
    cases hRun
    refine ⟨L, hs, hb.stay fun F ts => .stay ?_⟩
    rw [site, hs.length]
    exact Nat.zero_le _
  | succ n ih =>
    intro s L hs floor P b s' b' hb hRun
    by_cases hDepth : n < depth
    · rw [leaveScopes, if_pos hDepth] at hRun
      cases hRun
      refine ⟨L, hs, hb.stay fun F ts => .stay ?_⟩
      rw [site, hs.length]
      exact hDepth
    · rw [leaveScopes, if_neg hDepth] at hRun
      obtain ⟨D, L0, rfl, hDeferred, hGood, hOuter⟩ := hs
      rw [modify_bind] at hRun
      obtain ⟨s1, b1, hFirst, hRun⟩ := bind_eq_ok.mp hRun
      rw [hDeferred, ← map_reverse] at hFirst
      have hLinked := hb.link true
      obtain ⟨L1, hs1, hReach1⟩ := runDeferred_moves (fun d hd => hGood d (mem_reverse.mp hd)) hOuter hOuter floor P _ s1 b1
        hLinked.ready hFirst
      obtain ⟨s2, b2, hSecond, hRun⟩ := bind_eq_ok.mp hRun
      cases hRun
      obtain ⟨L2, hs2, hReach2⟩ := ih hs1 floor P b1 s2 b' hReach1.ready hSecond
      have hAll := (hLinked.seq hReach1).seq hReach2
      refine ⟨D :: L2, ⟨D, L2, rfl, hDeferred, hGood, hs2⟩, hAll.imp fun F ts hFlow => ?_⟩
      exact .leave rfl (by rw [hOuter.length]; omega) hFlow.1.2 hFlow.2

theorem replay_reaches {depth : Nat} (hs : Holds n s L) (hb : Ready floor P b) (hRun : replay depth n s b = .ok s' b') :
    ∃ L', Holds n s' L' ∧ Reached floor P b P b' fun F ts =>
      ∃ s1, Flow (F.text []) ts floor (.leave depth) (F.site b L) s1 ∧ F.site b' L' = { s1 with linked := b.linked } := by
  rw [replay, get_bind] at hRun
  obtain ⟨s1, b1, hLeave, hRun⟩ := bind_eq_ok.mp hRun
  rw [modify_bind] at hRun
  cases hRun
  obtain ⟨L', hs', hReach⟩ := leaveScopes_moves hs floor P b s' b1 hb hLeave
  exact ⟨L', hs', (hReach.seq (hReach.ready.link b.linked)).imp fun F ts hFlow => ⟨_, hFlow.1, rfl⟩⟩

/-- The end of a scope. -/
theorem close_moves {s : Scopes (n + 1)} (hs : Holds (n + 1) s L) :
    Moves (Holds n) .close L (do
      let s ← if (← get).dead then pure s else replay n (n + 1) s
      return s.outer) := by
  intro floor P b s' b' hb hRun
  rw [get_bind] at hRun
  cases hDead : b.dead with
  | true =>
    rw [hDead] at hRun
    cases hRun
    obtain ⟨D, L0, rfl, -, -, hOuter⟩ := hs
    exact ⟨L0, hOuter, hb.stay fun F ts => .closeDead hDead⟩
  | false =>
    rw [hDead] at hRun
    obtain ⟨s1, b1, hReplay, hRun⟩ := bind_eq_ok.mp hRun
    cases hRun
    obtain ⟨L1, ⟨D, L', rfl, -, -, hOuter⟩, hReach⟩ := replay_reaches hs hb hReplay
    refine ⟨L', hOuter, hReach.imp fun F ts ⟨s1, hLeave, hEnd⟩ => ?_⟩
    have hDepth : (F.site b L).scopes.length - 1 = n := by
      rw [show (F.site b L).scopes = L from rfl, hs.length]
      rfl
    have hSite : F.site b' L' = { s1 with linked := b.linked, scopes := s1.scopes.tail } :=
      congrArg (fun s : Site => { s with scopes := s.scopes.tail }) hEnd
    rw [hSite]
    exact .close hDead (hDepth.symm ▸ hLeave)

/-- Statements in a scope of their own. -/
theorem inScope_moves {xs : List Stmt} (hBody : Shaped (.stmts xs) (stmts xs (n + 1))) :
    Shaped (.scope xs) fun s => inScope n s (stmts xs (n + 1)) := by
  intro s L hs floor P b s' b' hb hRun
  dsimp only [inScope] at hRun
  rw [modify_bind] at hRun
  have hLinked := hb.link false
  obtain ⟨s1, b1, hStmts, hRun⟩ := bind_eq_ok.mp hRun
  obtain ⟨L1, hs1, hReach1⟩ := hBody hs.push floor P _ s1 b1 hLinked.ready hStmts
  obtain ⟨L', hs', hReach'⟩ := close_moves hs1 floor P b1 s' b' hReach1.ready hRun
  have hAll := (hLinked.seq hReach1).seq hReach'
  exact ⟨L', hs', hAll.imp fun F ts hFlow => .scope hFlow.1.2 hFlow.2⟩

/-! ## Statements that can be reached -/

/-- The same as `Moves` of a statement that can be reached. -/
def MovesLive (x : Stmt) (L : List (List Stmt)) (code : Build (Scopes n)) : Prop :=
  ∀ floor P b s' b', Ready floor P b → b.dead = false → code b = .ok s' b' → ∃ L', Holds n s' L' ∧
    Reached floor P b P b' fun F ts => Flow (F.text []) ts floor (.stmt x) (F.site b L) (F.site b' L')

theorem unlessDead_eq_ok {a' : α} {code : Build α} (hDead : b.dead = false) (hRun : unlessDead a code b = .ok a' b') :
    ∃ b1, code b = .ok a' b1 ∧ b' = { b1 with regs := b1.regs.reclaim } := by
  rw [unlessDead, get_bind, if_neg (by simp [hDead])] at hRun
  obtain ⟨_, b1, hCode, hRun⟩ := bind_eq_ok.mp hRun
  rw [reclaim, modify_bind] at hRun
  cases hRun
  exact ⟨b1, hCode, rfl⟩

theorem unlessDead_moves {x : Stmt} {code : Build (Scopes n)} (hs : Holds n s L) (hCode : MovesLive x L code) :
    Moves (Holds n) (.stmt x) L (unlessDead s code) := by
  intro floor P b s' b' hb hRun
  cases hDead : b.dead with
  | true =>
    rw [unlessDead, get_bind, if_pos hDead] at hRun
    cases hRun
    exact ⟨L, hs, hb.stay fun F ts => .dead hDead⟩
  | false =>
    obtain ⟨b1, hRun1, rfl⟩ := unlessDead_eq_ok hDead hRun
    obtain ⟨L', hs', hReach⟩ := hCode floor P b s' b1 hb hDead hRun1
    exact ⟨L', hs', (hReach.seq hReach.ready.reclaim).imp fun F ts hFlow =>
      (hFlow.2 L').symm ▸ hFlow.1⟩

/-- A statement that is straight code. -/
theorem straight_moves {x : Stmt} {code : Build Unit} {X : Shape Unit}
    (hCode : ∀ b : Builder, Traces (.plain Unit) ∅ b code fun _ => X)
    (hFlow : ∀ (T : Text) ts floor s s', T.Runs floor X s () s' → Flow T ts floor (.stmt x) s s') :
    Shaped (.stmt x) fun s : Scopes n => unlessDead s do code; return s := by
  refine fun s L hs => unlessDead_moves hs fun floor P b s' b' hb hDead hRun => ?_
  obtain ⟨_, b1, hRun1, hRun⟩ := bind_eq_ok.mp hRun
  cases hRun
  exact ⟨L, hs, (hb.runs (hCode b) hRun1 hDead).imp fun F ts hRuns => hFlow _ _ _ _ _ hRuns⟩

theorem expr_moves {x : Expr} : Shaped (.stmt (.expr x)) (stmt (.expr x) n) :=
  straight_moves (X := do Shape.drop (← Shape.expr x)) (fun _ => .bind expr_traces fun _ _ _ _ hv => drop_traces hv.open)
    fun _ _ _ _ _ => .expr

theorem decl_moves {v : Variable} {init : Expr} : Shaped (.stmt (.decl v init)) (stmt (.decl v init) n) := by
  refine fun s L hs => unlessDead_moves hs fun floor P b s' b' hb hDead hRun => ?_
  obtain ⟨_, b1, hDeclare, hRun⟩ := bind_eq_ok.mp hRun
  cases hRun
  obtain ⟨e, b0, hExtent, hRest⟩ := bind_eq_ok.mp hDeclare
  obtain ⟨rfl, hSize⟩ := orFault_eq_ok hExtent
  obtain ⟨slot, b2, hReserve, hRest⟩ := bind_eq_ok.mp hRest
  have hFirst := hb.runs (L := L) reserve_traces hReserve hDead
  obtain ⟨_, b3, hBind, hRest⟩ := bind_eq_ok.mp hRest
  cases hBind
  have hBound : Reached floor P b2 P { b2 with slots := (v.id, slot) :: b2.slots } fun _ _ => True :=
    hFirst.ready.alike ⟨rfl, rfl, rfl, rfl⟩ hFirst.ready.closed.sound.regs .refl rfl hFirst.ready.floor_le rfl
  have hDead2 : b2.dead = false := by
    obtain ⟨-, -, -, -, -, -, hSame⟩ := reserve_lowered hb.closed.sound hReserve
    rw [hSame, hDead]
  have hSecond := hBound.ready.runs (L := L) declared_traces hRest hDead2
  have hAll := (hFirst.seq hBound).seq hSecond
  exact ⟨L, hs, hAll.imp fun F ts hFlow => .decl hSize hFlow.1.1 hFlow.2⟩

/-! ## Jumps -/

/-- What is found first in a list is found first in a list that goes along with it. -/
theorem find_of_forall₂ {β : Type} {R : α → β → Prop} {p : α → Bool} {q : β → Bool} {as : List α} {bs : List β}
    (hR : Forall₂ R as bs) (hp : ∀ a b, R a b → q b = p a) (hFind : as.find? p = some a) :
    ∃ b, bs.find? q = some b ∧ R a b := by
  induction hR with
  | nil => cases hFind
  | @cons a₀ b₀ _ _ hHead _ ih =>
    cases hTest : p a₀ with
    | true =>
      rw [find?_cons_of_pos hTest, Option.some.injEq] at hFind
      subst hFind
      exact ⟨b₀, find?_cons_of_pos ((hp _ _ hHead).trans hTest), hHead⟩
    | false =>
      rw [find?_cons_of_neg (by simp [hTest])] at hFind
      obtain ⟨b, hb, hRel⟩ := ih hFind
      exact ⟨b, by rw [find?_cons_of_neg (by simp [hp _ _ hHead, hTest]), hb], hRel⟩

theorem updateFirst_eq {loopOnly : Bool} {f : JumpTarget → JumpTarget} {ts : List JumpTarget}
    (hFind : ts.find? (fun t => t.isLoop || !loopOnly) = some t) (hf : (f t).isLoop = t.isLoop) :
    ∃ xs ys, ts = xs ++ t :: ys ∧ updateFirst loopOnly f ts = xs ++ f t :: ys ∧
      (updateFirst loopOnly f ts).find? (fun t => t.isLoop || !loopOnly) = some (f t) := by
  induction ts with
  | nil => cases hFind
  | cons t0 ts ih =>
    cases hTest : (t0.isLoop || !loopOnly) with
    | true =>
      simp only [find?_cons, hTest, Option.some.injEq] at hFind
      subst hFind
      rw [updateFirst, if_pos hTest]
      exact ⟨[], ts, rfl, rfl, by simp only [find?_cons, hf, hTest]⟩
    | false =>
      simp only [find?_cons, hTest] at hFind
      obtain ⟨xs, ys, rfl, hUpdate, hFound⟩ := ih hFind
      rw [updateFirst, if_neg (by simp [hTest]), hUpdate]
      exact ⟨t0 :: xs, ys, rfl, rfl, by rw [← hUpdate]; simp only [find?_cons, hTest, hFound]⟩

/-- A way for a loop or a switch to collect a jump. -/
structure Collects (isLoop : Bool) (f : Edge → JumpTarget → JumpTarget) : Prop where
  grows : ∀ e t, JumpTarget.Extends t (f e t)
  edges : ∀ e t, (f e t).edges.Perm (e :: t.edges)
  proper : ∀ e t, t.isLoop = isLoop → t.Proper → (f e t).Proper

theorem collects_break {isLoop : Bool} : Collects isLoop fun e t => { t with breaks := t.breaks ++ [e] } where
  grows _ _ := { JumpTarget.Extends.refl with breaks := subset_append_left _ _ }
  edges e t := by
    simp only [JumpTarget.edges, append_assoc, singleton_append]
    exact perm_middle
  proper _ _ _ hProper := hProper

theorem collects_continue : Collects true fun e t => { t with continues := t.continues ++ [e] } where
  grows _ _ := { JumpTarget.Extends.refl with continues := subset_append_left _ _ }
  edges e t := by
    simp only [JumpTarget.edges, ← append_assoc]
    rw [append_assoc _ [e]]
    exact perm_middle
  proper _ t hLoop hProper := by
    rw [JumpTarget.Proper, if_pos hLoop] at hProper ⊢
    exact hProper

theorem collects_fall : Collects false fun e t => { t with falls := t.falls ++ [e] } where
  grows _ _ := { JumpTarget.Extends.refl with falls := subset_append_left _ _ }
  edges e t := by
    simp only [JumpTarget.edges, ← append_assoc]
    exact perm_append_singleton _ _
  proper _ t hLoop hProper := by
    rw [JumpTarget.Proper, if_neg (by simp [hLoop])] at hProper ⊢
    exact hProper

/-- The builder after a jump was emitted and collected by the first target of its kind. -/
def collected (b : Builder) (loopOnly : Bool) (f : Edge → JumpTarget → JumpTarget) : Builder :=
  { b.emitted openJump with targets := updateFirst loopOnly (f ⟨b.handles, none⟩) b.targets }

theorem collected_reaches {o : Bool} (hb : Ready floor P b) (hf : Collects t.isLoop f)
    (hFind : b.targets.find? (fun t => t.isLoop || !o) = some t) : Reached floor P b P (collected b o f) fun F ts =>
      ∃ u, ts.find? (fun u => u.isLoop || !o) = some u ∧ F.Matches (f ⟨b.handles, none⟩ t) u ∧
        ∀ pos, F.Leads ⟨b.handles, none⟩ (some pos) →
          (F.text []).Jump (F.site b L) pos (F.site (collected b o f) L) := by
  obtain ⟨xs, ys, hTargets, hUpdate, hFound⟩ := updateFirst_eq (f := f ⟨b.handles, none⟩) hFind (hf.grows _ t).isLoop
  have hReach := hb.jump (L := L)
  have hPerm : (opens ((b.handles, openJump) :: P) (b.emitted openJump)).Perm
      (P ++ pending openJump ((updateFirst o (f ⟨b.handles, none⟩) b.targets).flatMap JumpTarget.edges)) := by
    have hEdges : ((xs ++ f ⟨b.handles, none⟩ t :: ys).flatMap JumpTarget.edges).Perm
        (⟨b.handles, none⟩ :: (xs ++ t :: ys).flatMap JumpTarget.edges) := by
      rw [flatMap_append, flatMap_append, flatMap_cons, flatMap_cons]
      exact (((hf.edges _ t).append_right _).append_left _).trans perm_middle
    rw [hUpdate, opens, edges, show (b.emitted openJump).targets = _ from hTargets, cons_append]
    exact perm_middle.symm.trans ((hEdges.map fun e : Edge => (e.branch, openJump)).symm.append_left P)
  have hProper : ∀ u ∈ updateFirst o (f ⟨b.handles, none⟩) b.targets, u.Proper := by
    have hOld := hTargets ▸ hb.proper
    rw [forall_mem_append, forall_mem_cons] at hOld
    rw [hUpdate, forall_mem_append, forall_mem_cons]
    exact ⟨hOld.1, hf.proper _ t rfl hOld.2.1, hOld.2.2⟩
  obtain ⟨hReady, hAdvance⟩ := hReach.ready.retarget hPerm hProper
  have hTs : Forall₂ JumpTarget.Extends b.targets (updateFirst o (f ⟨b.handles, none⟩) b.targets) := by
    rw [hUpdate, hTargets]
    exact rel_append JumpTarget.Extends.all (.cons (hf.grows _ t) JumpTarget.Extends.all)
  refine ⟨hReady, hReach.advance.trans hAdvance, rfl, hTs, fun F us hF hUs => ?_⟩
  obtain ⟨u, hu, hM⟩ := find_of_forall₂ (q := fun u => u.isLoop || !o) hUs (fun t u hM => by rw [hM.isLoop]) hFound
  exact ⟨u, hu, hM, hReach.flow F us (hAdvance.settled hF) (forall₂_comp hTs hUs fun _ _ _ => .of_extends)⟩

/-- A jump out of a loop or a switch leaves the scopes in between and waits there. -/
theorem jumpOut_reaches {loopOnly : Bool} {g : Target → Option Nat} (hs : Holds n s L) (hb : Ready floor P b)
    (hf : Collects t.isLoop f) (hSel : ∀ (F : Builder) e t u, F.Matches (f e t) u → F.Leads e (g u))
    (hFind : b.targets.find? (fun t => t.isLoop || !loopOnly) = some t) (hRun : jumpOut n s loopOnly t f b = .ok s' b') :
    ∃ L', Holds n s' L' ∧ Reached floor P b P b' fun F ts => ∃ u pos s1,
      ts.find? (fun u => u.isLoop || !loopOnly) = some u ∧ g u = some pos ∧
      Flow (F.text []) ts floor (.leave u.depth) (F.site b L) s1 ∧
      (F.text []).Jump { s1 with linked := b.linked } pos (F.site b' L') := by
  obtain ⟨s₁, b₁, hReplay, hRun⟩ := bind_eq_ok.mp hRun
  obtain ⟨L', hs', hReach₁⟩ := replay_reaches hs hb hReplay
  rw [jump_bind] at hRun
  obtain ⟨_, _, hUpdate, hRun⟩ := bind_eq_ok.mp hRun
  cases hUpdate
  cases hRun
  obtain ⟨t₁, hFind₁, hT⟩ := find_of_forall₂ (q := fun t => t.isLoop || !loopOnly) hReach₁.targets
    (fun t t' hT => by rw [hT.isLoop]) hFind
  have hReach₂ := collected_reaches (L := L') hReach₁.ready (hT.isLoop ▸ hf) hFind₁
  refine ⟨L', hs', (hReach₁.seq hReach₂).imp ?_⟩
  rintro F ts ⟨⟨s₁, hLeave, hSite⟩, u, hu, hM, hJump⟩
  obtain ⟨d, hCode, hPos⟩ := hSel F _ _ _ hM
  refine ⟨u, F.place d, s₁, hu, hPos, ?_, hSite ▸ hJump _ ⟨d, hCode, rfl⟩⟩
  rwa [hM.depth, (hf.grows _ _).depth, hT.depth]

theorem find_innermost (p : α → Bool) (ts : List α) : ts.find? (fun t => p t || !false) = ts.head? := by
  cases ts <;> simp

/-- Without a loop or a switch around it a jump out of one is rejected. -/
theorem innermost_eq_ok {loopOnly : Bool} {r : Rejection} {k : JumpTarget → Build α} (hRun : (do
      match ← innermost loopOnly with
      | some t => k t
      | none => reject r) b = .ok a b') :
    ∃ t, b.targets.find? (fun t => t.isLoop || !loopOnly) = some t ∧ k t b = .ok a b' := by
  obtain ⟨o, _, hGet, hRun⟩ := bind_eq_ok.mp hRun
  cases hGet
  cases hFind : b.targets.find? (fun t => t.isLoop || !loopOnly) with
  | none =>
    rw [hFind] at hRun
    cases hRun
  | some t =>
    rw [hFind] at hRun
    exact ⟨t, rfl, hRun⟩

theorem breakOut_moves : Shaped (.stmt .breakOut) (stmt .breakOut n) := by
  refine fun s L hs => unlessDead_moves hs fun floor P b s' b' hb hDead hRun => ?_
  obtain ⟨t, hFind, hRun⟩ := innermost_eq_ok hRun
  obtain ⟨L', hs', hReach⟩ := jumpOut_reaches (g := Target.onBreak) hs hb collects_break
    (fun F e t u hM => hM.breaks e (by simp)) hFind hRun
  refine ⟨L', hs', hReach.imp ?_⟩
  rintro F ts ⟨u, pos, s1, hu, hPos, hLeave, hJump⟩
  exact .breakOut hDead ((find_innermost _ _).symm.trans hu) hPos hLeave hJump

theorem continueLoop_moves : Shaped (.stmt .continueLoop) (stmt .continueLoop n) := by
  refine fun s L hs => unlessDead_moves hs fun floor P b s' b' hb hDead hRun => ?_
  obtain ⟨t, hFind, hRun⟩ := innermost_eq_ok hRun
  have hLoop : t.isLoop = true := by simpa using find?_some hFind
  obtain ⟨L', hs', hReach⟩ := jumpOut_reaches (g := Target.onContinue) hs hb (hLoop ▸ collects_continue)
    (fun F e t u hM => hM.continues e (by simp)) hFind hRun
  refine ⟨L', hs', hReach.imp ?_⟩
  rintro F ts ⟨u, pos, s1, hu, hPos, hLeave, hJump⟩
  refine .continueLoop hDead ?_ hPos hLeave hJump
  simpa only [Bool.not_true, Bool.or_false] using hu

theorem fallthrough_moves : Shaped (.stmt .fallthrough) (stmt .fallthrough n) := by
  refine fun s L hs => unlessDead_moves hs fun floor P b s' b' hb hDead hRun => ?_
  obtain ⟨t, hFind, hRun⟩ := innermost_eq_ok hRun
  cases hLoop : t.isLoop with
  | true =>
    simp only [hLoop] at hRun
    cases hRun
  | false =>
    simp only [hLoop] at hRun
    obtain ⟨L', hs', hReach⟩ := jumpOut_reaches (g := Target.onFall) hs hb (hLoop ▸ collects_fall)
      (fun F e t u hM => hM.falls e (by simp)) hFind hRun
    refine ⟨L', hs', hReach.imp ?_⟩
    rintro F ts ⟨u, pos, s1, hu, hPos, hLeave, hJump⟩
    exact .fallthrough hDead ((find_innermost _ _).symm.trans hu) hPos hLeave hJump

/-! ## Deferring and returning -/

theorem defer_moves {d : Stmt} (hd : ∀ n, Shaped (.stmt d) (stmt d n)) : Shaped (.stmt (.defer d)) (stmt (.defer d) n) := by
  refine fun s L hs => unlessDead_moves hs fun floor P b s' b' hb hDead hRun => ?_
  cases n with
  | zero => cases hRun
  | succ n =>
    cases hRun
    obtain ⟨D, L0, rfl, hDeferred, hGood, hOuter⟩ := hs
    refine ⟨(D ++ [d]) :: L0, ⟨D ++ [d], L0, rfl, ?_, fun x hx => ?_, hOuter⟩, hb.stay fun F ts => .defer hDead rfl⟩
    · rw [map_append, ← hDeferred]
      rfl
    · rcases mem_append.mp hx with hx | hx
      · exact hGood x hx
      · rw [mem_singleton.mp hx]
        exact hd n

theorem holding_eq_ok {x : Build α} (hRun : holding x b = .ok a b') :
    ∃ b1, x { b with regs := { b.regs with hold := b.regs.hold + 1 } } = .ok a b1 ∧
      b' = { b1 with regs := { b1.regs with hold := b1.regs.hold - 1 } } := by
  rw [holding, modify_bind] at hRun
  obtain ⟨a', b1, hx, hRun⟩ := bind_eq_ok.mp hRun
  rw [modify_bind] at hRun
  cases hRun
  exact ⟨b1, hx, rfl⟩

theorem ret_moves {xs : List Expr} : Shaped (.stmt (.ret xs)) (stmt (.ret xs) n) := by
  refine fun s L hs => unlessDead_moves hs fun floor P b s' b' hb hDead hRun => ?_
  rw [returnStmt, get_bind] at hRun
  obtain ⟨vs, b1, hValues, hRun⟩ := bind_eq_ok.mp hRun
  obtain ⟨r, b2, hPlace, hRun⟩ := bind_eq_ok.mp hRun
  have hReturned := bind_eq_ok.mpr ⟨vs, b1, hValues, hPlace⟩
  have hReach2 := hb.shape (L := L) returned_traces hReturned hDead
  obtain ⟨s1, b3, hHolding, hRun⟩ := bind_eq_ok.mp hRun
  -- the deferred statements run after the results are placed, whose registers are held meanwhile
  obtain ⟨b4, hReplay, hb3⟩ := holding_eq_ok hHolding
  obtain ⟨L', hs', hReach4⟩ := replay_reaches hs hReach2.ready.held hReplay
  have hReach3 := hReach2.seq (hReach4.released hReach2.ready)
  rw [← hb3] at hReach3
  rw [get_bind] at hRun
  cases hDead3 : b3.dead with
  -- a deferred statement that does not go on leaves no place for the return
  | true =>
    rw [if_pos hDead3] at hRun
    cases hRun
    refine ⟨L', hs', hReach3.imp ?_⟩
    rintro F ts ⟨⟨hShape, hSite2⟩, s1, hLeave, hSite3⟩
    have hLinked : b2.linked = b.linked := congrArg Site.linked hSite2
    replace hSite3 : F.site b' L' = { s1 with linked := b.linked } := hLinked ▸ hb3 ▸ hSite3
    have hDead1 : s1.dead = true := (congrArg Site.dead hSite3).symm.trans hDead3
    exact .ret hDead hb.floor_le hShape (hSite2 ▸ hLeave) ((if_pos hDead1).mpr hSite3)
  | false =>
    rw [if_neg (by simp [hDead3])] at hRun
    obtain ⟨_, _, hRet, hRun⟩ := bind_eq_ok.mp hRun
    cases hRun
    rw [ret, discard_emit] at hRet
    cases hRet
    have hReach5 := (hReach3.ready.settle (x := .ret b3.sig.retReg r) (L := L')).growing
    refine ⟨L', hs', (hReach3.seq hReach5).imp ?_⟩
    rintro F ts ⟨⟨⟨hShape, hSite2⟩, s1, hLeave, hSite3⟩, ⟨-, hAt, hEnd⟩, hGrows⟩
    have hLinked : b2.linked = b.linked := congrArg Site.linked hSite2
    replace hSite3 : F.site b3 L' = { s1 with linked := b.linked } := hLinked ▸ hb3 ▸ hSite3
    have hDead1 : s1.dead = false := (congrArg Site.dead hSite3).symm.trans hDead3
    refine .ret hDead hb.floor_le hShape (hSite2 ▸ hLeave) ?_
    rw [if_neg (by simp [hDead1]), hEnd, hSite3]
    rw [hSite3] at hAt
    have hSig : (F.text []).sig = b3.sig := hGrows.sig
    exact ⟨hSig ▸ hAt, rfl⟩

/-! ## Conditions -/

/-- The body of a loop or of a condition that holds. -/
theorem body_reaches {xs : List Stmt} (hs : Holds n s L) (hBody : Shaped (.stmts xs) (stmts xs (n + 1)))
    (hb : Ready floor P b) (hDead : b.dead = false) (hRun : unlessDead s (inScope n s (stmts xs (n + 1))) b = .ok s' b') :
    ∃ L', Holds n s' L' ∧ Reached floor P b P b' fun F ts =>
      Flow (F.text []) ts floor (.scope xs) (F.site b L) (F.site b' L') := by
  obtain ⟨b1, hRun1, rfl⟩ := unlessDead_eq_ok hDead hRun
  obtain ⟨L', hs', hReach⟩ := inScope_moves hBody hs floor P b s' b1 hb hRun1
  exact ⟨L', hs', (hReach.seq hReach.ready.reclaim).imp fun F ts hFlow =>
    (hFlow.2 L').symm ▸ hFlow.1⟩

/-- A jump over what follows, if it is needed. -/
theorem skip_reaches {es : List Edge} (hb : Ready floor P b) (hRun : skip b = .ok es b') :
    es.isEmpty = b.dead ∧ Reached floor P b (pending openJump es ++ P) b' fun F _ =>
      ∀ pos, (∀ e ∈ es, F.Leads e (some pos)) → (F.text []).Skip (F.site b L) pos (F.site b' L) := by
  rw [skip, get_bind] at hRun
  cases hDead : b.dead with
  | true =>
    rw [if_pos hDead] at hRun
    cases hRun
    exact ⟨rfl, hb.stay fun F ts pos _ => .inl ⟨hDead, rfl⟩⟩
  | false =>
    rw [if_neg (by simp [hDead])] at hRun
    rw [jump_bind] at hRun
    cases hRun
    exact ⟨rfl, (hb.jump (L := L)).imp fun F ts hJump pos hLeads => .inr ⟨hDead, hJump pos (hLeads _ mem_cons_self)⟩⟩

theorem cond_moves {test : Expr} {yes : List Stmt} {no : Stmt} (hYes : Shaped (.stmts yes) (stmts yes (n + 1)))
    (hNo : Shaped (.stmt no) (stmt no n)) : Shaped (.stmt (.cond test yes no)) (stmt (.cond test yes no) n) := by
  refine fun s L hs => unlessDead_moves hs fun floor P b s' b' hb hDead hRun => ?_
  obtain ⟨e, b1, hCond, hRun⟩ := bind_eq_ok.mp hRun
  obtain ⟨hDead1, x, hReach1⟩ := hb.condition (L := L) hDead hCond
  obtain ⟨s1, b2, hBody, hRun⟩ := bind_eq_ok.mp hRun
  obtain ⟨L1, hs1, hReach2⟩ := body_reaches hs hYes hReach1.ready hDead1 hBody
  have hReach := hReach1.seq hReach2
  cases hAbsent : no.isAbsent with
  | true =>
    rw [if_pos hAbsent] at hRun
    rw [region_bind] at hRun
    obtain ⟨_, b3, hPatch, hRun⟩ := bind_eq_ok.mp hRun
    cases hRun
    have hReach3 := hReach2.ready.region (L := L1)
    refine ⟨L1, hs1, ((hReach.seq hReach3).seq (hReach3.ready.patch hPatch)).imp ?_⟩
    rintro F ts ⟨⟨⟨hTest, hScope⟩, hRegion⟩, hCode, hSite⟩
    exact .cond (hTest _ hCode) hScope hAbsent (hSite L1 ▸ hRegion)
  | false =>
    rw [if_neg (by simp [hAbsent])] at hRun
    obtain ⟨es, b3, hSkip, hRun⟩ := bind_eq_ok.mp hRun
    obtain ⟨hEmpty, hReach3⟩ := skip_reaches (L := L1) hReach2.ready hSkip
    rw [region_bind] at hRun
    obtain ⟨_, b4, hPatch, hRun⟩ := bind_eq_ok.mp hRun
    have hReach4 := (hReach3.ready.region (L := L1)).perm perm_middle
    have hReach5 := hReach4.ready.patch hPatch
    obtain ⟨s2, b5, hElse, hRun⟩ := bind_eq_ok.mp hRun
    obtain ⟨L2, hs2, hReach6⟩ := hNo hs1 floor _ b4 s2 b5 hReach5.ready hElse
    have hAll := (((hReach.seq hReach3).seq hReach4).seq hReach5).seq hReach6
    rw [get_bind] at hRun
    cases hBoth : es.isEmpty && b5.dead with
    | true =>
      -- neither branch gets to the end, so that there is no region for it
      rw [if_pos hBoth] at hRun
      cases hRun
      rw [Bool.and_eq_true, List.isEmpty_iff] at hBoth
      obtain ⟨rfl, hDead5⟩ := hBoth
      refine ⟨L2, hs2, hAll.imp ?_⟩
      rintro F ts ⟨⟨⟨⟨⟨hTest, hScope⟩, hSkip⟩, hRegion⟩, hCode, hSite⟩, hElse⟩
      refine .condElse (hTest _ hCode) hScope hAbsent (hSkip 0 nofun) hRegion (hSite L1 ▸ hElse) ?_
      rw [site_dead, site_dead, if_pos ⟨hEmpty.symm, hDead5⟩]
    | false =>
      rw [if_neg (by simp [hBoth])] at hRun
      rw [region_bind] at hRun
      obtain ⟨_, b6, hPatchAll, hRun⟩ := bind_eq_ok.mp hRun
      cases hRun
      have hReach7 := hReach6.ready.region (L := L2)
      refine ⟨L2, hs2, ((hAll.seq hReach7).seq (hReach7.ready.patchAll hPatchAll)).imp ?_⟩
      rintro F ts ⟨⟨⟨⟨⟨⟨⟨hTest, hScope⟩, hSkip⟩, hRegion⟩, hCode, hSite⟩, hElse⟩, hExit⟩, hLeads, hSite'⟩
      have hLive : ¬ (b2.dead = true ∧ b5.dead = true) := by
        rw [← hEmpty, ← Bool.and_eq_true, hBoth]
        nofun
      refine .condElse (hTest _ hCode) hScope hAbsent (hSkip _ fun e he => ⟨_, hLeads e he, rfl⟩) hRegion
        (hSite L1 ▸ hElse) ?_
      rw [site_dead, site_dead, if_neg hLive]
      exact hSite' L2 ▸ hExit

end Build

end Comptime
