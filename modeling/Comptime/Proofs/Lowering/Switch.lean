import Comptime.Proofs.Lowering.Loops

/-!
# The shape of lowered switches

The cases of a switch are lowered one after the other, and meanwhile the dispatch in front of them is patched, and so are
the jumps of the case before that falls through. What is known of the code so far is therefore stated from the point on
where the switch was opened, and carried along from case to case (`cases_reaches`).
-/

namespace Comptime

open Builder List

namespace Build

variable {n : Nat} {L : List (List Stmt)} {floor : Nat} {P P0 : List (Nat × Instr)} {b b' b0 : Builder}
variable {br i arm : Nat} {default : Option Nat} {test : Reg} {d : Handle} {cs : List (Case Stmt)} {t t0 : JumpTarget}
  {ts ts0 : List JumpTarget} {u : Unit}

/-! ## The dispatch -/

/-- The arms of one case of a dispatch are patched. -/
theorem patchArms_reaches {target : Nat} {vs : List Int64} {pre post : List Arm}
    (hb : Ready floor ((br, .branch test (pre ++ (vs.map (⟨·, noHandle⟩) ++ post)) d) :: P) b) (hArm : pre.length = arm)
    (hRun : patchArms br arm target vs b = .ok u b') :
    b'.targets = b.targets ∧ Reached floor ((br, .branch test (pre ++ (vs.map (⟨·, noHandle⟩) ++ post)) d) :: P) b
      ((br, .branch test (pre ++ (vs.map (⟨·, target⟩) ++ post)) d) :: P) b' fun F _ => ∀ L, F.site b' L = F.site b L := by
  induction vs generalizing b pre arm with
  | nil =>
    cases hRun
    exact ⟨rfl, hb.stay fun F _ _ => rfl⟩
  | cons v vs ih =>
    obtain ⟨_, b1, hPatch, hRun⟩ := bind_eq_ok.mp hRun
    obtain ⟨-, -, rfl⟩ := patch_eq_ok hPatch
    have hReach := Ready.patched (e := ⟨br, some arm⟩) (t := target) hb
    have hNext : Instr.redirect (some arm) target (.branch test (pre ++ ((v :: vs).map (⟨·, noHandle⟩) ++ post)) d) =
        .branch test ((pre ++ [⟨v, (target : Handle)⟩]) ++ (vs.map (⟨·, noHandle⟩) ++ post)) d := by
      subst hArm
      simp [Instr.redirect, modify_eq_take_drop]
    rw [hNext] at hReach
    obtain ⟨hTargets, hReach'⟩ := ih hReach.ready (by simp [hArm]) hRun
    have hBoth := hReach.seq hReach'
    rw [append_assoc] at hBoth
    exact ⟨hTargets, hBoth.imp fun F _ hSites L => (hSites.2 L).trans (hSites.1 L)⟩

theorem relocate_arms {F : Builder} {rs : List Nat} :
    (Case.arms cs rs).map (fun a => { a with target := F.position a.target }) = Case.arms cs (rs.map F.place) := by
  induction cs generalizing rs with
  | nil => rfl
  | cons c cs ih =>
    cases rs with
    | nil => rfl
    | cons r rs => simp [Case.arms, ih]

theorem defaultCase?_lt (hDefault : defaultCase? cs = some i) : i < cs.length := by
  obtain ⟨xs, ys, hEq, -⟩ := lookup_eq_some_iff.mp hDefault
  have hMem : (true, i) ∈ (cs.mapIdx fun i c => (c.values.isEmpty, i)).reverse := by
    rw [hEq]
    simp
  rw [mem_reverse, mem_mapIdx] at hMem
  obtain ⟨j, hj, hEq⟩ := hMem
  rw [Prod.mk.injEq] at hEq
  exact hEq.2 ▸ hj

/-! ## Cases -/

/-- The jump out of a switch at the end of a case, if it is needed. -/
theorem caseEnd_reaches {α : Type} {a : α} {rest : Build α} (hb : Ready floor P b)
    (hTargets : b.targets = t :: ts)
    (hRun : (do
      if !(← get).dead then
        let e ← jump
        updateTarget false fun t => { t with breaks := t.breaks ++ [e] }
      rest : Build α) b = .ok a b') :
    ∃ b1, rest b1 = .ok a b' ∧ Reached floor P b P b1 fun F us => ∀ exit u us', us = u :: us' → u.onBreak = some exit →
      (F.text []).Skip (F.site b L) exit (F.site b1 L) := by
  rw [get_bind] at hRun
  dsimp only at hRun
  cases hDead : b.dead with
  | true =>
    rw [if_neg (by simp [hDead])] at hRun
    exact ⟨b, hRun, hb.stay fun F us exit u us' _ _ => .inl ⟨hDead, rfl⟩⟩
  | false =>
    rw [if_pos (by simp [hDead])] at hRun
    rw [jump_bind] at hRun
    obtain ⟨_, _, hUpdate, hRun⟩ := bind_eq_ok.mp hRun
    cases hUpdate
    have hReach := collected_reaches (L := L) (t := t) (o := false) hb collects_break
      ((find_innermost _ _).trans (by rw [hTargets]; rfl))
    refine ⟨_, hRun, hReach.imp ?_⟩
    rintro F us ⟨v, hv, hM, hJump⟩ exit u us' rfl hExit
    rw [find_innermost, head?_cons, Option.some.injEq] at hv
    subst hv
    exact .inr ⟨hDead, hJump exit (hExit ▸ hM.breaks _ (by simp))⟩

/-- The default target of a dispatch is patched if the case at hand is the default. -/
theorem patchDefault_reaches {p : Prop} [Decidable p] {target : Nat} {arms : List Arm}
    (hb : Ready floor ((br, .branch test arms d) :: P) b) (hRun : (if p then patch ⟨br, none⟩ target else pure ()) b = .ok u b') :
    b'.targets = b.targets ∧ Reached floor ((br, .branch test arms d) :: P) b
      ((br, .branch test arms (if p then target else d)) :: P) b' fun F _ => ∀ L, F.site b' L = F.site b L := by
  by_cases hp : p
  · rw [if_pos hp] at hRun ⊢
    obtain ⟨-, -, rfl⟩ := patch_eq_ok hRun
    exact ⟨rfl, Ready.patched (e := ⟨br, none⟩) hb⟩
  · rw [if_neg hp] at hRun ⊢
    cases hRun
    exact ⟨rfl, hb.stay fun F _ _ => rfl⟩

theorem foldl_patched_targets (b : Builder) (ts : List JumpTarget) (es : List Edge) (target : Nat) :
    es.foldl (fun b e => b.patched e target) { b with targets := ts } =
    { es.foldl (fun b e => b.patched e target) b with targets := ts } := by
  induction es generalizing b with
  | nil => rfl
  | cons e es ih => exact ih (b.patched e target)

/-- The entry of a case. What is known of the code since the switch was opened is `Q`. -/
theorem caseEntry_reaches {Q : Builder → List Target → Prop} {vs : List Int64} {pre post : List Arm} {α : Type} {a : α}
    {rest : Build α} (hTargets0 : b0.targets = t0 :: ts0) (hNone : t0.falls = [])
    (hR : Reached floor P0 b0 ((br, .branch test (pre ++ (vs.map (⟨·, noHandle⟩) ++ post)) d) :: P) b Q)
    (hTargets : b.targets = t :: ts) (hLoop : t.isLoop = false) (hArm : pre.length = arm)
    (hRun : (do
      let r ← region
      patchArms br arm r vs
      if default = some i then patch ⟨br, none⟩ r
      match (← get).targets with
      | t :: _ =>
        patchAll t.falls r
        updateTarget false fun t => { t with falls := [] }
      | [] => fault
      rest) b = .ok a b') :
    ∃ b1, rest b1 = .ok a b' ∧ b1.targets = { t with falls := [] } :: ts ∧
      Reached floor P0 b0 ((br, .branch test (pre ++ (vs.map (⟨·, b.handles⟩) ++ post))
        (if default = some i then b.handles else d)) :: P) b1 fun F us => ∀ u us', us = u :: us' →
          Q F ({ u with onFall := some (F.place b.handles) } :: us') ∧
          (F.text []).Region (F.site b L) (F.place b.handles) (F.site b1 L) := by
  rw [region_bind] at hRun
  have hReach1 := hR.ready.region (L := L)
  obtain ⟨_, b2, hArms, hRun⟩ := bind_eq_ok.mp hRun
  obtain ⟨hTargets2, hReach2⟩ := patchArms_reaches hReach1.ready hArm hArms
  obtain ⟨b3, hDefault, hRun⟩ := when_eq_ok.mp hRun
  obtain ⟨hTargets3, hReach3⟩ := patchDefault_reaches hReach2.ready hDefault
  replace hTargets3 : b3.targets = t :: ts := hTargets3.trans (hTargets2.trans hTargets)
  obtain ⟨_, _, hGet, hRun⟩ := bind_eq_ok.mp hRun
  cases hGet
  rw [hTargets3] at hRun
  obtain ⟨_, b4, hFalls, hRun⟩ := bind_eq_ok.mp hRun
  obtain rfl := patchAll_eq_ok hFalls
  obtain ⟨_, _, hUpdate, hRun⟩ := bind_eq_ok.mp hRun
  cases hUpdate
  -- the jumps may as well be dropped before they are patched
  have hReach4 := (((hR.seq hReach1).seq hReach2).seq hReach3).dropFalls hTargets0 hNone hTargets3 hLoop
  have hReach5 := hReach4.ready.patchedAll (t := b.handles)
  rw [foldl_patched_targets] at hReach5
  have hTargets4 := congrArg Builder.targets (foldl_patched_targets b3 b3.targets t.falls b.handles)
  have hTargets5 : updateFirst false (fun t => { t with falls := [] })
    (t.falls.foldl (fun b3 e => b3.patched e b.handles) b3).targets = { t with falls := [] } :: ts := by
    rw [show (t.falls.foldl _ b3).targets = _ from hTargets4, hTargets3, updateFirst, if_pos (by simp)]
  dsimp only at hRun
  rw [hTargets5] at hRun
  refine ⟨_, hRun, rfl, (hReach4.seq hReach5).imp ?_⟩
  rintro F us ⟨hAll, hLeads, hSite⟩ u us' hEq
  obtain ⟨⟨⟨hQ, hRegion⟩, hSite2⟩, hSite3⟩ := hAll u us' (some (F.place b.handles)) hEq fun e he => ⟨_, hLeads e he, rfl⟩
  rw [← hSite2 L, ← hSite3 L] at hRegion
  rw [hSite]
  exact ⟨hQ, hRegion⟩

/-- The cases of a switch. What is known of the code so far is `Q`. -/
theorem cases_reaches (hTargets0 : b0.targets = t0 :: ts0) (hNone : t0.falls = []) (hLoop0 : t0.isLoop = false)
    (hCs : ∀ c ∈ cs, Shaped (.stmts c.body) (stmts c.body (n + 1)))
    {Q : Builder → List Target → Prop} {s s' : Scopes n} {l : List Arm} (hs : Scopes.Holds n s L)
    (hR : Reached floor P0 b0 ((br, .branch test (l ++ (cs.flatMap (·.values)).map (⟨·, noHandle⟩)) d) :: P) b Q)
    (hArm : l.length = arm) (hRun : cases br default i arm cs n s b = .ok s' b') :
    ∃ L' d', ∃ rs : List Nat, Scopes.Holds n s' L' ∧ rs.length = cs.length ∧
      (∀ k r, default = some (i + k) → rs[k]? = some r → d' = (r : Handle)) ∧
      ((∀ k < cs.length, default ≠ some (i + k)) → d' = d) ∧
      Reached floor P0 b0 ((br, .branch test (l ++ Case.arms cs rs) d') :: P) b' fun F us =>
        ∀ exit u us', us = u :: us' → u.onBreak = some exit → u.onFall = some exit →
          Q F ({ u with onFall := some ((rs.map F.place).headD exit) } :: us') ∧
          Flow (F.text []) us floor (.cases cs (rs.map F.place) exit) (F.site b L) (F.site b' L') := by
  induction cs generalizing b s L i arm l d Q with
  | nil =>
    cases hRun
    refine ⟨L, d, [], hs, rfl, nofun, fun _ => rfl, hR.imp ?_⟩
    rintro F us hQ exit u us' rfl - hFall
    exact ⟨by rwa [map_nil, headD_nil, ← hFall], .noCases⟩
  | cons c cs ih =>
    obtain ⟨t, ts, hTargets, hT, -⟩ := hR.cons_targets hTargets0
    rw [flatMap_cons, map_append] at hR
    rw [cases] at hRun
    obtain ⟨b1, hRest, hTargets1, hReach1⟩ := caseEntry_reaches (L := L) hTargets0 hNone hR hTargets
      (hT.isLoop.trans hLoop0)
      hArm hRun
    obtain ⟨s2, b2, hBody, hRest⟩ := bind_eq_ok.mp hRest
    obtain ⟨L2, hs2, hReach2⟩ := inScope_moves (hCs c mem_cons_self) hs floor _ b1 s2 b2 hReach1.ready hBody
    obtain ⟨t2, ts2, hTargets2, -⟩ := hReach2.cons_targets hTargets1
    obtain ⟨b3, hRest, hReach3⟩ := caseEnd_reaches (L := L2) hReach2.ready hTargets2 hRest
    have hReach := (hReach1.seq hReach2).seq hReach3
    rw [← append_assoc] at hReach
    obtain ⟨L', d', rs, hs', hLength, hDefault, hOther, hReach'⟩ := ih (fun c hc => hCs c (mem_cons_of_mem _ hc)) hs2
      hReach (by simp [hArm]) hRest
    rw [append_assoc] at hReach'
    refine ⟨L', d', b.handles :: rs, hs', by simp [hLength], ?_, ?_, hReach'.imp ?_⟩
    · -- the default is this case, and no later one changes that, or it is one of the later ones
      rintro (_ | k) r hIndex hr
      · rw [getElem?_cons_zero, Option.some.injEq] at hr
        rw [← hr, hOther fun k _ hEq => absurd (Option.some.inj (hIndex.symm.trans hEq)) (by omega)]
        exact if_pos hIndex
      · exact hDefault k r (by rw [hIndex]; congr 1; omega) hr
    · intro hNot
      rw [hOther fun k hk hEq => hNot (k + 1) (Nat.succ_lt_succ hk) (by rw [hEq]; congr 1; omega)]
      exact if_neg (hNot 0 (Nat.succ_pos _))
    · rintro F us hAll exit u us' rfl hBreak hFall
      obtain ⟨⟨⟨hEntry, hScope⟩, hSkip⟩, hCases⟩ := hAll exit u us' rfl hBreak hFall
      obtain ⟨hQ, hRegion⟩ := hEntry _ _ rfl
      exact ⟨hQ, .case hRegion hScope (hSkip exit _ _ rfl hBreak) hCases⟩

/-- A switch matches where its breaks and falls lead. -/
theorem matches_switch {F : Builder} {d : Nat} {exit fall : Option Nat} (hLoop : t.isLoop = false) (hDepth : t.depth = d)
    (hProper : t.Proper) (hBreaks : ∀ e ∈ t.breaks, F.Leads e exit) (hFalls : ∀ e ∈ t.falls, F.Leads e fall) :
    F.Matches t ⟨false, d, exit, none, fall⟩ where
  isLoop := hLoop.symm
  depth := hDepth.symm
  breaks := hBreaks
  continues := by
    rw [JumpTarget.Proper, if_neg (by simp [hLoop])] at hProper
    rw [hProper]
    exact forall_mem_nil _
  falls := hFalls

theorem switch_moves {tag : Expr} (hCs : ∀ c ∈ cs, Shaped (.stmts c.body) (stmts c.body (n + 1))) :
    Shaped (.stmt (.switch tag cs)) (stmt (.switch tag cs) n) := by
  refine fun s L hs => unlessDead_moves hs fun floor P b s' b' hb hDead hRun => ?_
  obtain ⟨v, b0, hExpr, hRun⟩ := bind_eq_ok.mp hRun
  obtain ⟨r, b1, hValue, hRun⟩ := bind_eq_ok.mp hRun
  have hTag : Traces (.plain Reg) ∅ b (do value (← expr tag)) (fun _ => do Shape.value (← Shape.expr tag)) :=
    .bind expr_traces fun v _ _ _ hv => value_traces hv.open
  have hReach1 := hb.runs (L := L) hTag (bind_eq_ok.mpr ⟨v, b0, hExpr, hValue⟩) hDead
  rw [switch, emit_bind] at hRun
  obtain ⟨_, _, hOpen, hRun⟩ := bind_eq_ok.mp hRun
  cases hOpen
  -- the dispatch may as well come after the switch was opened
  have hOpened : Ready floor P { b1 with targets := ⟨false, n, [], [], []⟩ :: b1.targets } := hReach1.ready.opened
  have hReach2 := hOpened.emitOpen (L := L) r ((cs.flatMap (·.values)).map (⟨·, noHandle⟩)) noHandle
  obtain ⟨s3, b3, hCases, hRun⟩ := bind_eq_ok.mp hRun
  obtain ⟨L', d, rs, hs', hLength, hDefault, hOther, hReach3⟩ :=
    cases_reaches (l := []) rfl rfl rfl hCs hs hReach2 rfl hCases
  rw [nil_append] at hReach3
  obtain ⟨t, ts, hRun, hLoop, hDepth, hProper, hReach4⟩ := hReach3.closing rfl hRun
  rw [JumpTarget.edges_of_switch hProper hLoop] at hReach4
  rw [region_bind] at hRun
  have hReach5 := (hReach4.ready.region (L := L')).perm perm_middle
  obtain ⟨b6, hPatch, hRun⟩ := when_eq_ok.mp hRun
  obtain ⟨-, hReach6⟩ := patchDefault_reaches hReach5.ready hPatch
  have hReach7 := hReach6.ready.release (N := [_]) .rfl
  obtain ⟨rfl, hReach8⟩ := hReach7.ready.patchAway hRun
  have hAll := ((((hReach1.seq hReach4).seq hReach5).seq hReach6).seq hReach7).seq hReach8
  refine ⟨L', hs', hAll.imp ?_⟩
  rintro F us ⟨⟨⟨⟨⟨hTag, hInside⟩, hExit⟩, hSite6⟩, hCode⟩, hBreaks, hFalls, hSite8⟩
  obtain ⟨⟨hAt, hSite⟩, hFlow⟩ := hInside _ (matches_switch hLoop (hDepth.trans hs.length.symm) hProper hBreaks hFalls)
    _ _ _ rfl rfl rfl
  rw [hSite8, hSite6]
  have hBranch : F.code b1.handles = _ := hCode _ mem_cons_self
  obtain ⟨first, hFirst⟩ : ∃ first : Nat, (if (defaultCase? cs).isNone = true then (b3.handles : Handle) else d) = first ∧
      ∀ i, defaultCase? cs = some i → rs[i]? = some first := by
    cases hWhich : defaultCase? cs with
    | none => exact ⟨b3.handles, rfl, by rintro i ⟨⟩⟩
    | some i =>
      have hLt : i < rs.length := hLength ▸ defaultCase?_lt hWhich
      have hStart : rs[i]? = some rs[i] := getElem?_eq_getElem hLt
      refine ⟨rs[i], hDefault i rs[i] (by rw [hWhich, Nat.zero_add]) hStart, ?_⟩
      rintro _ ⟨⟩
      exact hStart
  have hDispatch : (F.text []).code[(F.site b1 L).pos]? =
      some (.branch r (Case.arms cs (rs.map F.place)) (F.place first : Nat)) := by
    rw [← position_natCast, ← hFirst.1, ← relocate_arms]
    exact hAt.trans (congrArg (fun x => some (Instr.relocate F.position x)) hBranch)
  refine .switch hTag hDispatch (by rw [length_map, hLength]) ?_ ?_ hExit
  · cases hWhich : defaultCase? cs with
    | none =>
      rw [hWhich] at hFirst
      exact congrArg F.place (Int.ofNat.inj hFirst.1.symm)
    | some i => exact (getElem?_map ..).trans (by rw [hFirst.2 i hWhich]; rfl)
  · rw [hSite] at hFlow
    exact hFlow

/-! ## Statements -/

mutual

/-- Lowering a statement leaves its shape. -/
theorem stmt_moves : (x : Stmt) → ∀ {n : Nat}, Shaped (.stmt x) (stmt x n)
  | .absent, _ => fun _ _ hs => unlessDead_moves hs fun _ _ _ _ _ _ _ hRun => by cases hRun
  | .block l, _ => fun _ _ hs => unlessDead_moves hs fun floor P b s' b' hb hDead hRun => by
    obtain ⟨L', hs', hReach⟩ := inScope_moves (stmts_move l) hs floor P b s' b' hb hRun
    exact ⟨L', hs', hReach.imp fun F ts hFlow => .block hDead hFlow⟩
  | .expr _, _ => expr_moves
  | .decl _ _, _ => decl_moves
  | .assign none _ _, _ => straight_moves (fun _ => assign_traces) fun _ _ _ _ _ => .assign
  | .assign (some _) _ _, _ => straight_moves (fun _ => compound_traces) fun _ _ _ _ _ => .compound
  | .cond _ yes no, _ => cond_moves (stmts_move yes) (stmt_moves no)
  | .loop init _ post body, _ => loop_moves (stmt_moves init) (stmt_moves post) (stmts_move body)
  | .whileDo _ body, _ => whileDo_moves (stmts_move body)
  | .doWhile _ body, _ => doWhile_moves (stmts_move body)
  | .switch _ cs, _ => switch_moves fun c hc => bodies_move cs c hc
  | .breakOut, _ => breakOut_moves
  | .continueLoop, _ => continueLoop_moves
  | .fallthrough, _ => fallthrough_moves
  | .ret _, _ => ret_moves
  | .defer d, _ => defer_moves fun _ => stmt_moves d

theorem stmts_move : (xs : List Stmt) → ∀ {n : Nat}, Shaped (.stmts xs) (stmts xs n)
  | [], _, _, L, hs, _, _, _, _, _, hb, hRun => by
    cases hRun
    exact ⟨L, hs, hb.stay fun F ts => .nil⟩
  | x :: xs, _, _, _, hs, floor, P, b, s', b', hb, hRun => by
    obtain ⟨s1, b1, hFirst, hRun⟩ := bind_eq_ok.mp hRun
    obtain ⟨L1, hs1, hReach1⟩ := stmt_moves x hs floor P b s1 b1 hb hFirst
    obtain ⟨L', hs', hReach'⟩ := stmts_move xs hs1 floor P b1 s' b' hReach1.ready hRun
    exact ⟨L', hs', (hReach1.seq hReach').imp fun F ts ⟨hFlow, hFlow'⟩ => .cons hFlow hFlow'⟩

theorem bodies_move : (cs : List (Case Stmt)) → ∀ c ∈ cs, ∀ {n : Nat}, Shaped (.stmts c.body) (stmts c.body n)
  | ⟨_, body⟩ :: cs, c, hc, _ => by
    rcases mem_cons.mp hc with rfl | hc
    · exact stmts_move body
    · exact bodies_move cs c hc

end

end Build

end Comptime
