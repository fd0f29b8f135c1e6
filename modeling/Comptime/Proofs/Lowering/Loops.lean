import Comptime.Proofs.Lowering.Stmts

/-!
# The shape of lowered loops and switches
-/

namespace Comptime

open Builder List

namespace Build

variable {n : Nat} {L : List (List Stmt)}
variable {t : JumpTarget} {b b' : Builder} {floor : Nat} {P : List (Nat × Instr)} {test : Expr} {body : List Stmt}
  {s : Scopes n} {es : List Edge}

/-! ## Loops -/

/-- The jump at the end of a loop body, if it is needed. -/
theorem loopBack_reaches {head : Nat} {u : Unit} (hb : Ready floor P b)
    (hRun : (if !b.dead then jumpTo head else pure ()) b = .ok u b') :
    Reached floor P b P b' fun F _ => (F.text []).Skip (F.site b L) (F.place head) (F.site b' L) := by
  cases hDead : b.dead with
  | true =>
    rw [hDead] at hRun
    cases hRun
    exact hb.stay fun F ts => .inl ⟨hDead, rfl⟩
  | false =>
    rw [hDead] at hRun
    rw [if_pos (by simp), jumpTo, discard_emit] at hRun
    cases hRun
    exact (hb.jumpTo (L := L)).imp fun F ts hJump => .inr ⟨hDead, hJump⟩

/-- A loop matches where its breaks and continues lead. -/
theorem matches_loop {F : Builder} {d : Nat} {exit next : Option Nat} (hLoop : t.isLoop = true) (hDepth : t.depth = d)
    (hProper : t.Proper) (hBreaks : ∀ e ∈ t.breaks, F.Leads e exit) (hContinues : ∀ e ∈ t.continues, F.Leads e next) :
    F.Matches t ⟨true, d, exit, next, none⟩ where
  isLoop := hLoop.symm
  depth := hDepth.symm
  breaks := hBreaks
  continues := hContinues
  falls := by
    rw [JumpTarget.Proper, if_pos hLoop] at hProper
    rw [hProper]
    exact List.forall_mem_nil _

theorem whileDo_moves (hBody : Shaped (.stmts body) (stmts body (n + 1))) :
    Shaped (.stmt (.whileDo test body)) (stmt (.whileDo test body) n) := by
  refine fun s L hs => unlessDead_moves hs fun floor P b s' b' hb hDead hRun => ?_
  rw [region_bind] at hRun
  have hReach1 := hb.region (L := L)
  obtain ⟨e, b2, hCond, hRun⟩ := bind_eq_ok.mp hRun
  obtain ⟨hDead2, x, hReach2⟩ := hReach1.ready.condition (L := L) rfl hCond
  obtain ⟨_, _, hOpen, hRun⟩ := bind_eq_ok.mp hRun
  cases hOpen
  obtain ⟨s1, b3, hInside, hRun⟩ := bind_eq_ok.mp hRun
  obtain ⟨L', hs', hReach3⟩ := body_reaches hs hBody hReach2.ready.opened hDead2 hInside
  rw [get_bind] at hRun
  obtain ⟨b4, hBack, hRun⟩ := when_eq_ok.mp hRun
  have hReach4 := loopBack_reaches (L := L') hReach3.ready hBack
  obtain ⟨t, ts, hRun, hLoop, hDepth, hProper, hReach5⟩ := (hReach3.seq hReach4).closing rfl hRun
  rw [JumpTarget.edges_of_loop hProper hLoop] at hReach5
  rw [region_bind] at hRun
  have hReach6 := (hReach5.ready.region (L := L')).perm perm_middle
  obtain ⟨_, b7, hPatch, hRun⟩ := bind_eq_ok.mp hRun
  have hReach7 := hReach6.ready.patch hPatch
  obtain ⟨rfl, hReach8⟩ := hReach7.ready.patchAway hRun
  have hAll := ((((hReach1.seq hReach2).seq hReach5).seq hReach6).seq hReach7).seq hReach8
  refine ⟨L', hs', hAll.imp ?_⟩
  rintro F us ⟨⟨⟨⟨⟨hHead, hTest⟩, hInside⟩, hExit⟩, hCode, hSite⟩, hBreaks, hContinues, hSite'⟩
  obtain ⟨hScope, hSkip⟩ := hInside _ (matches_loop hLoop (hDepth.trans hs.length.symm) hProper hBreaks hContinues)
  rw [hSite', hSite]
  exact .whileDo hDead hHead (hTest _ hCode) hScope hSkip hExit

theorem doWhile_moves (hBody : Shaped (.stmts body) (stmts body (n + 1))) :
    Shaped (.stmt (.doWhile test body)) (stmt (.doWhile test body) n) := by
  refine fun s L hs => unlessDead_moves hs fun floor P b s' b' hb hDead hRun => ?_
  rw [region_bind] at hRun
  have hReach1 := hb.region (L := L)
  obtain ⟨_, _, hOpen, hRun⟩ := bind_eq_ok.mp hRun
  cases hOpen
  obtain ⟨s1, b2, hInside, hRun⟩ := bind_eq_ok.mp hRun
  obtain ⟨L', hs', hReach2⟩ := body_reaches hs hBody hReach1.ready.opened rfl hInside
  obtain ⟨t, ts, hRun, hLoop, hDepth, hProper, hReach3⟩ := hReach2.closing rfl hRun
  rw [JumpTarget.edges_of_loop hProper hLoop] at hReach3
  rw [region_bind] at hRun
  have hReach4 := hReach3.ready.region (L := L')
  obtain ⟨e, b5, hCond, hRun⟩ := bind_eq_ok.mp hRun
  obtain ⟨-, x, hReach5⟩ := hReach4.ready.condition (L := L') rfl hCond
  obtain ⟨_, b6, hBack, hRun⟩ := bind_eq_ok.mp hRun
  rw [jumpTo, discard_emit] at hBack
  cases hBack
  have hReach6 := hReach5.ready.jumpTo (t := b.handles) (L := L')
  rw [region_bind] at hRun
  have hReach7 := hReach6.ready.region (L := L')
  obtain ⟨_, b8, hPatch, hRun⟩ := bind_eq_ok.mp hRun
  have hReach8 := hReach7.ready.patch hPatch
  obtain ⟨rfl, hReach9⟩ := hReach8.ready.patchAway hRun
  have hInner := (hReach1.seq hReach3).seq hReach4
  have hAll := ((((hInner.seq hReach5).seq hReach6).seq hReach7).seq hReach8).seq hReach9
  refine ⟨L', hs', hAll.imp ?_⟩
  rintro F us ⟨⟨⟨⟨⟨⟨⟨hHead, hInside⟩, hNext⟩, hTest⟩, hBack⟩, hExit⟩, hCode, hSite⟩, hBreaks, hContinues, hSite'⟩
  have hScope := hInside _ (matches_loop hLoop (hDepth.trans hs.length.symm) hProper hBreaks hContinues)
  rw [hSite', hSite]
  exact .doWhile hDead hHead hScope hNext (hTest _ hCode) hBack hExit

/-- A part of a loop that may be missing. -/
theorem optional_reaches {x : Stmt} {s' : Scopes n} (hs : Scopes.Holds n s L)
    (hx : Shaped (.stmt x) (stmt x n)) (hb : Ready floor P b)
    (hRun : (if x.isAbsent then pure s else stmt x n s) b = .ok s' b') :
    ∃ L', Scopes.Holds n s' L' ∧ Reached floor P b P b' fun F ts =>
      (x.isAbsent = true → F.site b' L' = F.site b L) ∧
      (x.isAbsent = false → Flow (F.text []) ts floor (.stmt x) (F.site b L) (F.site b' L')) := by
  cases hAbsent : x.isAbsent with
  | true =>
    rw [if_pos hAbsent] at hRun
    cases hRun
    exact ⟨L, hs, hb.stay fun F ts => ⟨fun _ => rfl, nofun⟩⟩
  | false =>
    rw [if_neg (by simp [hAbsent])] at hRun
    obtain ⟨L', hs', hReach⟩ := hx hs floor P b s' b' hb hRun
    exact ⟨L', hs', hReach.imp fun F ts hFlow => ⟨nofun, fun _ => hFlow⟩⟩

/-- A condition that may be missing. -/
theorem optionalCondition_reaches {c : Expr} (hb : Ready floor P b) (hDead : b.dead = false)
    (hRun : optionalCondition c b = .ok es b') :
    b'.dead = false ∧ ∃ x, Reached floor P b (pending x es ++ P) b' fun F _ => ∀ exit : Option Nat,
      (∀ e ∈ es, ∃ t : Nat, exit = some (F.place t) ∧ F.code e.branch = x.redirect e.arm t) →
      if c.isAbsent then F.site b' L = F.site b L
      else ∃ otherwise, exit = some otherwise ∧
        (F.text []).Runs floor (Shape.condition c) (F.site b L) otherwise (F.site b' L) := by
  rw [optionalCondition] at hRun
  cases hAbsent : c.isAbsent with
  | true =>
    rw [if_pos hAbsent] at hRun
    cases hRun
    exact ⟨hDead, openJump, hb.stay fun F ts exit _ => (if_pos rfl).mpr rfl⟩
  | false =>
    rw [if_neg (by simp [hAbsent])] at hRun
    obtain ⟨e, b1, hCond, hRun⟩ := bind_eq_ok.mp hRun
    cases hRun
    obtain ⟨hDead1, x, hReach⟩ := hb.condition (L := L) hDead hCond
    refine ⟨hDead1, x, hReach.imp fun F ts hTest exit hExit => ?_⟩
    obtain ⟨t, rfl, hCode⟩ := hExit e List.mem_cons_self
    exact ⟨_, rfl, hTest t hCode⟩

/-- The end of a loop that is left only if there is a way. -/
theorem loopEnd_reaches {α : Type} {a a' : α} {next : Nat} {x : Instr} (hLoop : t.isLoop = true) (hProper : t.Proper)
    (hb : Ready floor (pending openJump t.edges ++ (pending x es ++ P)) b)
    (hRun : (do
      if !es.isEmpty || !t.breaks.isEmpty then
        let exit ← region
        patchAll es exit
        patchAll t.breaks exit
      patchAll t.continues next
      return a : Build α) b = .ok a' b') :
    a' = a ∧ ∃ exit : Option Nat, Reached floor (pending openJump t.edges ++ (pending x es ++ P)) b P b' fun F _ =>
      (match exit.map F.place with
        | none => F.site b' L = F.site b L
        | some pos => (F.text []).Region (F.site b L) pos (F.site b' L)) ∧
      (∀ e ∈ es, ∃ h : Nat, exit.map F.place = some (F.place h) ∧ F.code e.branch = x.redirect e.arm h) ∧
      (∀ e ∈ t.breaks, F.Leads e (exit.map F.place)) ∧ ∀ e ∈ t.continues, F.Leads e (some (F.place next)) := by
  rw [JumpTarget.edges_of_loop hProper hLoop] at hb ⊢
  by_cases hLeft : (!es.isEmpty || !t.breaks.isEmpty) = true
  · rw [if_pos hLeft] at hRun
    rw [region_bind] at hRun
    have hReach1 := (hb.region (L := L)).perm (perm_append_comm_assoc _ _ _)
    obtain ⟨_, b2, hExits, hRun⟩ := bind_eq_ok.mp hRun
    have hReach2 := hReach1.ready.patchAll hExits
    obtain ⟨rfl, hReach3⟩ := hReach2.ready.patchAway hRun
    refine ⟨rfl, some b.handles, ((hReach1.seq hReach2).seq hReach3).imp ?_⟩
    rintro F ts ⟨⟨hRegion, hExits, hSite⟩, hBreaks, hContinues, hSite'⟩
    refine ⟨?_, fun e he => ⟨_, rfl, hExits e he⟩, hBreaks, hContinues⟩
    rw [hSite', hSite]
    exact hRegion
  -- no way leads out, so that there is no exit
  · rw [if_neg hLeft] at hRun
    obtain ⟨_, b2, hContinues, hRun⟩ := bind_eq_ok.mp hRun
    cases hRun
    simp only [Bool.or_eq_true, Bool.not_eq_true', not_or, Bool.not_eq_false, List.isEmpty_iff] at hLeft
    obtain ⟨rfl, hNone⟩ := hLeft
    rw [hNone] at hb ⊢
    refine ⟨rfl, none, (hb.patchAll hContinues).imp ?_⟩
    rintro F ts ⟨hContinues, hSite⟩
    exact ⟨hSite L, List.forall_mem_nil _, List.forall_mem_nil _, fun e he => ⟨_, hContinues e he, rfl⟩⟩

/-- The part of a loop that leads back, and the scopes it leaves. -/
theorem post_reaches {post : Stmt} {head : Nat} {s' : Scopes n} {next : Nat} (hs : Scopes.Holds n s L)
    (hPost : Shaped (.stmt post) (stmt post n)) (hb : Ready floor P b) {b1 : Builder}
    (hNext : (if post.isAbsent then pure head else region) b = .ok next b1)
    (hRun : (if post.isAbsent then pure s else stmt post n s) b1 = .ok s' b') :
    ∃ L', Scopes.Holds n s' L' ∧ Reached floor P b P b' fun F ts =>
      (post.isAbsent = true → F.place next = F.place head ∧ F.site b' L' = F.site b L) ∧
      (post.isAbsent = false → (F.text []).Region (F.site b L) (F.place next) (F.site b1 L)) ∧
      (post.isAbsent = false → Flow (F.text []) ts floor (.stmt post) (F.site b1 L) (F.site b' L')) := by
  cases hAbsent : post.isAbsent with
  | true =>
    rw [if_pos hAbsent] at hNext hRun
    cases hNext
    cases hRun
    exact ⟨L, hs, hb.stay fun F ts => ⟨fun _ => ⟨rfl, rfl⟩, nofun, nofun⟩⟩
  | false =>
    rw [if_neg (by simp [hAbsent])] at hNext hRun
    rw [Build.region, emit_eq] at hNext
    cases hNext
    have hReach1 := hb.region (L := L)
    obtain ⟨L', hs', hReach2⟩ := hPost hs floor P _ s' b' hReach1.ready hRun
    exact ⟨L', hs', (hReach1.seq hReach2).imp fun F ts ⟨hRegion, hFlow⟩ =>
      ⟨nofun, fun _ => hRegion, fun _ => hFlow⟩⟩

theorem loop_moves {init post : Stmt} (hInit : Shaped (.stmt init) (stmt init (n + 1)))
    (hPost : Shaped (.stmt post) (stmt post (n + 1))) (hBody : Shaped (.stmts body) (stmts body (n + 2))) :
    Shaped (.stmt (.loop init test post body)) (stmt (.loop init test post body) n) := by
  refine fun s L hs => unlessDead_moves hs fun floor P b s' b' hb hDead hRun => ?_
  by_cases hDefer : post.isDefer = true
  · rw [if_pos hDefer] at hRun
    cases hRun
  rw [if_neg hDefer] at hRun
  dsimp only [inScope] at hRun
  rw [modify_bind] at hRun
  have hLinked := hb.link false
  obtain ⟨s9, b9, hInside, hRun⟩ := bind_eq_ok.mp hRun
  -- one stretch of code for each part of the loop, in the order in which they are emitted
  obtain ⟨s1, b1, hFirst, hInside⟩ := ite_bind_eq_ok.mp hInside
  obtain ⟨L1, hs1, hReach1⟩ := optional_reaches hs.push hInit hLinked.ready hFirst
  rw [region_bind] at hInside
  have hReach2 := hReach1.ready.region (L := L1)
  obtain ⟨es, b3, hTest, hInside⟩ := bind_eq_ok.mp hInside
  obtain ⟨hDead3, x, hReach3⟩ := optionalCondition_reaches (L := L1) hReach2.ready rfl hTest
  obtain ⟨_, _, hOpen, hInside⟩ := bind_eq_ok.mp hInside
  cases hOpen
  obtain ⟨s4, b4, hStmts, hInside⟩ := bind_eq_ok.mp hInside
  obtain ⟨L4, hs4, hReach4⟩ := body_reaches hs1 hBody hReach3.ready.opened hDead3 hStmts
  obtain ⟨t, ts, hInside, hLoop, hDepth, hProper, hReach5⟩ := hReach4.closing rfl hInside
  obtain ⟨next, b5, hNext, hInside⟩ := ite_bind_eq_ok.mp hInside
  obtain ⟨s6, b6, hAgain, hInside⟩ := ite_bind_eq_ok.mp hInside
  obtain ⟨L6, hs6, hReach6⟩ := post_reaches hs4 hPost hReach5.ready hNext hAgain
  rw [get_bind] at hInside
  obtain ⟨b7, hBack, hInside⟩ := when_eq_ok.mp hInside
  have hReach7 := loopBack_reaches (L := L6) hReach6.ready hBack
  obtain ⟨rfl, exit, hReach8⟩ := loopEnd_reaches (L := L6) hLoop hProper hReach7.ready hInside
  obtain ⟨L', hs', hReach9⟩ := close_moves hs6 floor P b9 s' b' hReach8.ready hRun
  -- put together, they are the premises of the flow through a loop
  have hStart := ((hLinked.seq hReach1).seq hReach2).seq hReach3
  have hAll := ((((hStart.seq hReach5).seq hReach6).seq hReach7).seq hReach8).seq hReach9
  refine ⟨L', hs', hAll.imp ?_⟩
  rintro F us ⟨⟨⟨⟨⟨⟨⟨⟨-, hAbsent1, hFlow1⟩, hHead⟩, hTest⟩, hInside⟩, hPost1, hPost2, hPost3⟩, hBack⟩, hExit, hExits, hBreaks,
    hContinues⟩, hClose⟩
  have hScope := hInside _ (matches_loop hLoop (hDepth.trans (congrArg (· + 1) hs.length.symm)) hProper hBreaks hContinues)
  exact .loop hDead hAbsent1 hFlow1 hHead (hTest (exit.map F.place) hExits) rfl hScope hPost1 hPost2 hPost3 hBack hExit hClose

end Build

end Comptime
