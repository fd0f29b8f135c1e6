import Comptime.Proofs.Simulation.Control

/-!
# Flows do what they say

The code of every task of lowering does what the task says (`Scene.obeys`), by induction on the flow. What becomes of scopes
and slots on the way is part of the same induction: a variable is found where the site says if it was not declared since.
-/

namespace Comptime

open List

namespace Stmt

variable {x : Stmt} {S : Setting}

theorem eq_defer_of_isDefer (h : x.isDefer = true) : ∃ d, x = .defer d := by
  cases x with
  | defer d => exact ⟨d, rfl⟩
  | _ => cases h

theorem execList_cons {xs : List Stmt} {ds : List (Eval Exit)} (h : x.isDefer = false) :
    execList S (x :: xs) ds = do
      match ← exec S x with
      | .done => execList S xs ds
      | e => return (e, ds) := by
  cases x with
  | defer d => cases h
  | _ => rfl

end Stmt

namespace Scene

variable {E : Scene} {n floor : Nat} {ts : List Target} {s s1 s' : Site} {later names : List Nat} {w : Ways}
  {task : Task} {x : Expr}

theorem Knows.congr {l l' : List (Nat × Reg)} {i : Nat} (h : E.Knows l i) (hLookup : l'.lookup i = l.lookup i) :
    E.Knows l' i := by
  rwa [Knows, hLookup]

/-- What is known at a site was known before, but for what was declared in between. -/
theorem knows_before (hKnows : ∀ i ∉ later, E.Knows s'.slots i) (hSteady : s.Steady names s') :
    ∀ i ∉ names ++ later, E.Knows s.slots i := fun i hi => by
  rw [mem_append, not_or] at hi
  exact (hKnows i hi.2).congr (hSteady.slots i hi.1).symm

theorem vars_known (hKnows : ∀ i ∉ later, E.Knows s.slots i) (hx : x.avoids later = true) :
    ∀ i ∈ x.vars, E.Knows s.slots i := fun i hi => hKnows i (Expr.avoids_iff.mp hx i hi)

/-- **Flows do what they say**, if what was not declared later is known where they end. -/
theorem obeys (hDelivers : E.Delivers) (hn : E.setting.rounds = n) (h : Flow E.text ts floor task s s')
    (hRegular : task.regular) (hOrdered : task.ordered later) (hOwes : s.Owes (task.decls ++ later)) :
    task.Settles later s s' ∧ ((∀ i ∉ later, E.Knows s'.slots i) → E.Obeys n ts floor s s' task) := by
  -- in every case scopes and slots are followed from the front on, and then what is known is taken back from the end
  induction h generalizing later with
  | @dead ts floor x s hDead =>
    refine ⟨?_, fun _ _ w f _ _ hAt => absurd (hAt.live.symm.trans hDead) Bool.false_ne_true⟩
    rw [Task.Settles]
    split
    · exact Site.Steady.grows .refl hOwes
    · exact .refl
  | block hDead _ ih =>
    obtain ⟨hSteady, hObeys⟩ := ih hRegular hOrdered hOwes
    exact ⟨hSteady, fun hKnows _ => hObeys hKnows⟩
  | expr hRuns =>
    refine ⟨hRuns.steady, fun hKnows _ w f _ _ hAt => ?_⟩
    obtain ⟨hDead, m, p, hFloor, hShape, rfl⟩ := hRuns
    exact (evaluated_does hShape ⟨hAt.pos, hAt.fits⟩ (vars_known hKnows hOrdered)).imp fun e f' _ h =>
      h.after hFloor hDead rfl
  | @decl ts floor v init ext slot s s1 s' hExtent hReserve hDeclared =>
    have hFirst := hReserve.steady
    have hSecond := hDeclared.steady
    refine ⟨⟨hSecond.scopes.trans hFirst.scopes, fun i hi => ?_⟩, fun hKnows _ w f _ _ hAt => ?_⟩
    · have hNe : (i == v.id) = false := beq_eq_false_iff_ne.mpr fun hEq => hi (hEq ▸ mem_singleton_self _)
      rw [hSecond.slots i not_mem_nil, lookup_cons, hNe]
      exact hFirst.slots i not_mem_nil
    simp only [Task.ordered, Stmt.ordered, Bool.and_eq_true, Bool.not_eq_true', contains_eq_mem,
      decide_eq_false_iff_not] at hOrdered
    obtain ⟨hDead, _, _, -, ⟨rfl, hFixed, hLt, -, rfl⟩, rfl⟩ := hReserve
    obtain ⟨-, m, p, hFloor, hShape, rfl⟩ := hDeclared
    -- the variable's home is what is in the register that was reserved for it
    obtain ⟨k, hk, -, -, hHome⟩ : ∃ k : Nat, (s.high : Int) = k ∧ E.text.fixed k ∧ k < E.text.numRegs ∧
        E.setting.home v.id = E.entry k := by
      have hKnown := hKnows v.id hOrdered.1
      rwa [Knows, show lookup v.id _ = some (s.high : Int) from lookup_cons_self] at hKnown
    obtain rfl := Int.ofNat.inj hk
    refine (declared_does hShape ⟨hAt.pos, hAt.fits⟩ hFixed hLt hHome (vars_known hKnows hOrdered.2)).imp fun e f' _ h => ?_
    exact Finishes.after (s := { s with high := s.high + 1, slots := (v.id, s.high) :: s.slots }) h hFloor hDead rfl
  | @assign ts floor lhs rhs s s' hRuns =>
    refine ⟨hRuns.steady, fun hKnows _ w f _ _ hAt => ?_⟩
    obtain ⟨hDead, m, p, hFloor, hShape, rfl⟩ := hRuns
    simp only [Task.ordered, Stmt.ordered, Bool.and_eq_true, all_eq_true] at hOrdered
    have hLhs := fun x hx => vars_known hKnows (hOrdered.1 x hx)
    have hRhs := fun x hx => vars_known hKnows (hOrdered.2 x hx)
    exact (assigned_does hShape ⟨hAt.pos, hAt.fits⟩ hLhs hRhs).imp fun e f' _ h => h.after hFloor hDead rfl
  | compound hRuns =>
    refine ⟨hRuns.steady, fun hKnows _ w f _ _ hAt => ?_⟩
    obtain ⟨hDead, m, p, hFloor, hShape, rfl⟩ := hRuns
    simp only [Task.ordered, Stmt.ordered, Bool.and_eq_true, all_eq_true] at hOrdered
    have hLhs := fun x hx => vars_known hKnows (hOrdered.1 x hx)
    have hRhs := fun x hx => vars_known hKnows (hOrdered.2 x hx)
    exact (compound_does hShape ⟨hAt.pos, hAt.fits⟩ hLhs hRhs).imp fun e f' _ h => h.after hFloor hDead rfl
  | @cond ts floor test yes no otherwise s s1 s2 s' hTest _ hNo hEnd ih =>
    obtain ⟨⟨hYesR, -⟩, -⟩ := by simpa only [Task.regular, Stmt.regular, Bool.and_eq_true] using hRegular
    obtain ⟨⟨hTestO, hYesO⟩, -⟩ := by simpa only [Task.ordered, Stmt.ordered, Bool.and_eq_true] using hOrdered
    rw [Task.decls, Stmt.decls, Stmt.decls_of_isAbsent hNo, append_nil] at hOwes
    rw [Stmt.decls_of_isAbsent hNo, nil_append] at hTestO hYesO
    obtain ⟨hYes, hObeys⟩ : s1.Steady (Stmt.listDecls yes) s2 ∧ _ := ih hYesR hYesO (hTest.steady.owes hOwes)
    refine ⟨((hTest.steady.after hYes).andThen hEnd.steady).mono (subset_append_left _ _), fun hKnows => ?_⟩
    have hKnows2 := knows_before hKnows hEnd.steady
    have hVars := vars_known (knows_before (knows_before hKnows2 hYes) hTest.steady) hTestO
    exact .cond hTest hVars (hObeys hKnows2) hNo hEnd
  | @condElse ts floor test yes no otherwise exit s s1 s2 s3 s4 s5 s' hTest _ hNo hSkip hOther _ hEnd ihYes ihNo =>
    obtain ⟨⟨hYesR, hNotDefer⟩, hNoR⟩ := by
      simpa only [Task.regular, Stmt.regular, Bool.and_eq_true, Bool.not_eq_true'] using hRegular
    obtain ⟨⟨hTestO, hYesO⟩, hNoO⟩ := by simpa only [Task.ordered, Stmt.ordered, Bool.and_eq_true] using hOrdered
    rw [Task.decls, Stmt.decls, append_assoc] at hOwes
    obtain ⟨hYes, hObeysYes⟩ : s1.Steady (Stmt.listDecls yes) s2 ∧ _ := ihYes hYesR hYesO (hTest.steady.owes hOwes)
    have hBetween := hSkip.steady.after hOther.steady
    have hFirst := hTest.steady.after (hYes.andThen hBetween)
    obtain ⟨hSettles, hObeysNo⟩ := ihNo hNoR hNoO (hFirst.owes hOwes)
    have hElse := hSettles.steady hNotDefer
    have hEndSteady : s5.Steady [] s' := by
      split at hEnd
      · exact hEnd ▸ .refl
      · exact hEnd.steady
    refine ⟨(hFirst.trans hElse).andThen hEndSteady, fun hKnows => ?_⟩
    have hKnows5 := knows_before hKnows hEndSteady
    have hKnows2 := knows_before (knows_before hKnows5 hElse) hBetween
    have hVars := vars_known (knows_before (knows_before hKnows2 hYes) hTest.steady) hTestO
    exact .condElse hTest hVars (hObeysYes hKnows2) hSkip hOther hFirst.scopes (hObeysNo hKnows5) hNotDefer hEnd
  | @loop ts floor init test post body head next exit t s s1 s2 s3 s4 s5 s6 s7 s8 s' hDead hNoInit _ hHead hTest ht _
      hNoPost hNext _ hSkip hExit _ ihInit ihBody ihPost ihClose =>
    obtain ⟨⟨⟨⟨hInitDefer, hInitS⟩, hInitR⟩, ⟨⟨hPostDefer, hPostS⟩, hPostR⟩⟩, hBodyR⟩ := by
      simpa only [Task.regular, Stmt.regular, Bool.and_eq_true, Bool.not_eq_true'] using hRegular
    obtain ⟨⟨⟨hInitO, hTestO⟩, hBodyO⟩, hPostO⟩ := by simpa only [Task.ordered, Stmt.ordered, Bool.and_eq_true] using
      hOrdered
    rw [Task.decls, Stmt.decls, append_assoc, append_assoc] at hOwes
    -- the init has a scope around it, and like the post statement it may be absent
    have hInit : Site.Steady init.decls { s with linked := false, scopes := [] :: s.scopes } s1 := by
      cases hAbsent : init.isAbsent with
      | true => exact hNoInit hAbsent ▸ .refl
      | false => exact (ihInit hAbsent hInitR hInitO hOwes.push).1.steady hInitDefer
    have hTested : s2.Steady [] s3 := by
      split at hTest
      · exact hTest ▸ .refl
      · obtain ⟨otherwise, -, hCond⟩ := hTest
        exact hCond.steady
    have hBefore := (hInit.andThen hHead.steady).andThen hTested
    have hOwes3 := hBefore.owes hOwes.push
    obtain ⟨hBody, hObeysBody⟩ : s3.Steady (Stmt.listDecls body) s4 ∧ _ := ihBody hBodyR hBodyO hOwes3
    have hOwes4 := hBody.owes hOwes3
    have hPost : s4.Steady post.decls s6 := by
      cases hAbsent : post.isAbsent with
      | true => exact (hNoPost hAbsent).2 ▸ .refl
      | false =>
        have hNext := (hNext hAbsent).steady
        exact hNext.after ((ihPost hAbsent hPostR hPostO (hNext.owes hOwes4)).1.steady hPostDefer)
    have hExitSteady : s7.Steady [] s8 := by
      cases exit with
      | none => exact hExit ▸ .refl
      | some pos => exact Text.Region.steady hExit
    have hAfter := hSkip.steady.after hExitSteady
    have hRest := hPost.andThen hAfter
    have hWhole := (hBefore.trans hBody).trans hRest
    obtain ⟨⟨hScopes, hSlots⟩, hObeysClose⟩ : (s'.scopes = _ ∧ _) ∧ _ := ihClose trivial trivial (hRest.owes hOwes4)
    refine ⟨⟨by rw [hScopes, hWhole.scopes]; rfl, fun i hi => (hSlots i).trans (hWhole.slots i ?_)⟩, fun hKnows => ?_⟩
    · rwa [append_assoc]
    have hKnows8 : ∀ i ∉ later, E.Knows s8.slots i := fun i hi => (hKnows i hi).congr (hSlots i).symm
    have hKnows6 := knows_before hKnows8 hAfter
    have hKnows4 := knows_before hKnows6 hPost
    have hKnows2 := knows_before (knows_before hKnows4 hBody) hTested
    have hExits : ∀ pos, exit = some pos → E.text.Region s7 pos s8 := by
      rintro pos rfl
      exact hExit
    subst ht
    have hKnows1 := knows_before hKnows2 hHead.steady
    have hFirst := fun hAbsent => (ihInit hAbsent hInitR hInitO hOwes.push).2 hKnows1
    have hLast := fun hAbsent => (ihPost hAbsent hPostR hPostO ((hNext hAbsent).steady.owes hOwes4)).2 hKnows6
    exact .loop hn (fun f => Obeys.first_does hInitDefer hInitS hNoInit hFirst) hHead hTest
      (vars_known hKnows2 hTestO) hBefore.scopes (hObeysBody hKnows4)
      (fun f f' => Obeys.post_does hPostDefer hPostS hNoPost hNext hLast hSkip) hExits hWhole.scopes
      (hObeysClose hKnows)
  | @whileDo ts floor test body head exit s s1 s2 s3 s4 s' hDead hHead hTest _ hSkip hEnd ih =>
    obtain ⟨hTestO, hBodyO⟩ := Bool.and_eq_true_iff.mp hOrdered
    have hBefore := hHead.steady.after hTest.steady
    obtain ⟨hBody, hObeys⟩ : s2.Steady (Stmt.listDecls body) s3 ∧ _ := ih hRegular hBodyO (hBefore.owes hOwes)
    have hAfter := hSkip.steady.after hEnd.steady
    refine ⟨(hBefore.after hBody).andThen hAfter, fun hKnows => ?_⟩
    have hKnows3 := knows_before hKnows hAfter
    have hVars := vars_known (knows_before (knows_before hKnows3 hBody) hTest.steady) hTestO
    exact .whileDo hn hHead hTest hVars (hObeys hKnows3) hSkip hEnd
  | @doWhile ts floor test body head next exit s s1 s2 s3 s4 s5 s' hDead hHead _ hNext hTest hJump hEnd ih =>
    obtain ⟨hBodyO, hTestO⟩ := Bool.and_eq_true_iff.mp hOrdered
    obtain ⟨hBody, hObeys⟩ : s1.Steady (Stmt.listDecls body) s2 ∧ _ := ih hRegular hBodyO (hHead.steady.owes hOwes)
    have hAfter := (hTest.steady.after hJump.steady).after hEnd.steady
    refine ⟨(hHead.steady.after hBody).andThen (hNext.steady.after hAfter), fun hKnows => ?_⟩
    have hKnows3 := knows_before hKnows hAfter
    exact .doWhile hn hHead (hObeys (knows_before hKnows3 hNext.steady)) hNext hTest (vars_known hKnows3 hTestO) hJump hEnd
  | @switch ts floor tag cs r starts default exit s s1 s2 s' hTag hCode hLen hDefault _ hEnd ih =>
    obtain ⟨hTagO, hCasesO⟩ := Bool.and_eq_true_iff.mp hOrdered
    have hBefore : s.Steady [] { s1 with pos := s1.pos + 1, dead := true } := hTag.steady.after (.of_eq rfl rfl)
    obtain ⟨hCases, hObeys⟩ : Site.Steady (Stmt.caseDecls cs) _ s2 ∧ _ := ih hRegular hCasesO (hBefore.owes hOwes)
    refine ⟨(hBefore.after hCases).andThen hEnd.steady, fun hKnows => ?_⟩
    have hKnows2 := knows_before hKnows hEnd.steady
    have hVars := vars_known (knows_before (knows_before hKnows2 hCases) hBefore) hTagO
    exact .switch hTag hVars hCode hLen hDefault (hObeys hKnows2) hEnd
  | breakOut hDead ht hPos _ hJump ih | continueLoop hDead ht hPos _ hJump ih | fallthrough hDead ht hPos _ hJump ih =>
    obtain ⟨hLeave, hObeys⟩ : Site.Steady [] _ _ ∧ _ := ih trivial trivial hOwes
    refine ⟨hLeave.after ⟨hJump.steady.scopes, hJump.steady.slots⟩, fun hKnows _ w f hStays _ hAt => ?_⟩
    refine .pure fun _ => ⟨hStays, _, _, ht, hPos, hObeys ?_ _ f hAt fun f' h => ?_⟩
    · exact knows_before hKnows ⟨hJump.steady.scopes, hJump.steady.slots⟩
    · exact ⟨⟨_, h.here.pos, hJump.1⟩, h.keeps, h.here.fits⟩
  | @ret ts floor xs m p r s s1 s' hDead hFloor hReturned _ hRet ih =>
    obtain ⟨hLeave, hObeys⟩ : Site.Steady [] { s with pos := p.pos, high := p.high } s1 ∧ _ := ih trivial trivial hOwes
    have hLast : s1.Steady [] s' := by
      split at hRet
      · exact hRet ▸ .of_eq rfl rfl
      · exact hRet.2 ▸ .of_eq rfl rfl
    have hWhole : s.Steady [] s1 := ⟨hLeave.scopes, hLeave.slots⟩
    refine ⟨hWhole.after hLast, fun hKnows _ w f hStays _ hAt => ?_⟩
    have hKnows1 := knows_before hKnows hLast
    have hVars : ∀ x ∈ xs, ∀ i ∈ x.vars, E.Knows s.slots i := fun x hx =>
      vars_known (knows_before hKnows1 hWhole) (all_eq_true.mp hOrdered x hx)
    refine (returned_does hReturned ⟨hAt.pos, hAt.fits⟩ hDelivers hVars).imp ?_
    rintro _ f1 - ⟨v, rfl, hPassed, hHolds, hv⟩
    -- what is deferred runs once the results are in place, and leaves the register of the first one alone
    refine ⟨hStays, hObeys hKnows1 (E.Returns v) f1 ⟨hDead, hPassed.pos, hPassed.fits⟩ fun f2 h2 => ?_⟩
    rw [if_neg (by rw [h2.here.live]; exact Bool.false_ne_true)] at hRet
    refine ⟨_, r, h2.here.pos, hRet.1, hv.imp_right fun hv => ?_⟩
    rw [reg?_eq hHolds hPassed.fits h2.here.fits h2.keeps, hv]
  | @defer ts floor d ds outer s hDead hScopes =>
    -- nothing runs yet, the scope owes one more statement
    have hOwes' := (hOwes.move rfl (subset_append_right _ _)).cons hScopes
    refine ⟨⟨by rw [hScopes]; rfl, forall_mem_cons.mpr ⟨fun y hy => ?_, hOwes'.2⟩, fun _ _ => rfl⟩,
      fun _ hDefer => absurd hDefer.symm Bool.false_ne_true⟩
    rcases mem_append.mp hy with hy | hy
    · exact hOwes'.1 y hy
    · exact mem_singleton.mp hy ▸ ⟨hRegular, hOrdered⟩
  | nil =>
    exact ⟨Site.Steady.grows .refl hOwes, fun _ w ds outer f hScopes _ _ hAt =>
      .pure fun _ => ⟨ds, rfl, fun _ => hScopes, hAt, .refl⟩⟩
  | @cons ts floor x xs s s1 s' hFirstF hRestF ihFirst ihRest =>
    obtain ⟨hFirstR, hRestR⟩ := Bool.and_eq_true_iff.mp hRegular
    obtain ⟨hFirstO, hRestO⟩ := Bool.and_eq_true_iff.mp hOrdered
    rw [Task.decls, Stmt.listDecls, append_assoc] at hOwes
    obtain ⟨hSettles, hObeysFirst⟩ := ihFirst hFirstR hFirstO hOwes
    have hFirst := hSettles.grows hOwes
    obtain ⟨hRest, hObeysRest⟩ : s1.Grows (Stmt.listDecls xs) later s' ∧ _ := ihRest hRestR hRestO hFirst.owes
    refine ⟨⟨hRest.tail.trans hFirst.tail, hRest.owes, fun i hi => ?_⟩, fun hKnows w ds outer f hScopes hStays hPermits hAt => ?_⟩
    · exact (hRest.slots i fun hi' => hi (mem_append_right _ hi')).trans
        (hFirst.slots i fun hi' => hi (mem_append_left _ hi'))
    obtain ⟨hFirstS, hRestS⟩ := Bool.and_eq_true_iff.mp hStays
    cases hDefer : x.isDefer with
    | true =>
      obtain ⟨d, rfl⟩ := Stmt.eq_defer_of_isDefer hDefer
      cases hFirstF with
      | dead hDead => exact absurd (hAt.live.symm.trans hDead) Bool.false_ne_true
      | @defer _ _ _ ds' outer' _ hDead hScopes' =>
        obtain ⟨rfl, rfl⟩ := cons.inj (hScopes'.symm.trans hScopes)
        have hDue : Stmt.exec E.setting d :: E.due ds' = E.due (ds' ++ [d]) := by simp [due]
        rw [Stmt.execList, hDue]
        exact hObeysRest hKnows w (ds' ++ [d]) outer' f rfl hRestS hPermits ⟨hDead, hAt.pos, hAt.fits⟩
    | false =>
      have hKnows1 : ∀ i ∉ Stmt.listDecls xs ++ later, E.Knows s1.slots i := fun i hi => by
        rw [mem_append, not_or] at hi
        exact (hKnows i hi.2).congr (hRest.slots i hi.1).symm
      rw [Stmt.execList_cons hDefer]
      have hPermits' : w.Permits ts s.scopes.length := hPermits.mono (by rw [hScopes]; exact Nat.le_succ _)
      -- the others run if the first one is done, and else it is left as it was left
      refine (hObeysFirst hKnows1 hDefer w f hFirstS hPermits' hAt).bind fun e f1 _ hAfter => ?_
      rw [hScopes] at hAfter
      by_cases he : e = .done
      · subst he
        have hArrived : E.Arrived floor s1 f f1 := hAfter
        have hScopes1 := (hSettles.steady hDefer).scopes.trans hScopes
        refine (hObeysRest hKnows w ds outer f1 hScopes1 hRestS hPermits hArrived.here).imp ?_
        rintro r f2 - ⟨ds', hDue, hEnd, hAfter'⟩
        exact ⟨ds', hDue, hEnd, hAfter'.since hArrived.keeps⟩
      · cases e with
        | done => exact absurd rfl he
        | _ => exact .pure fun _ => ⟨ds, rfl, fun hDone => absurd hDone he, hAfter⟩
  | @scope ts floor xs s s1 s' _ _ ihBody ihClose =>
    obtain ⟨hBody, hObeysBody⟩ : Site.Grows (Stmt.listDecls xs) later _ s1 ∧ _ := ihBody hRegular hOrdered hOwes.push
    obtain ⟨⟨hScopes, hSlots⟩, hObeysClose⟩ : (s'.scopes = _ ∧ _) ∧ _ := ihClose trivial trivial hBody.owes
    refine ⟨⟨hScopes.trans hBody.tail, fun i hi => (hSlots i).trans (hBody.slots i hi)⟩, fun hKnows w f hStays hPermits hAt => ?_⟩
    have hKnows1 : ∀ i ∉ later, E.Knows s1.slots i := fun i hi => (hKnows i hi).congr (hSlots i).symm
    refine closing_does ?_ hPermits (hObeysClose hKnows)
    exact hObeysBody hKnows1 w [] s.scopes f rfl hStays hPermits { hAt with }
  | closeDead hDead =>
    exact ⟨⟨rfl, fun _ => rfl⟩, fun _ ds outer f _ hAt => absurd (hAt.live.symm.trans hDead) Bool.false_ne_true⟩
  | @close ts floor s s1 hDead _ ih =>
    obtain ⟨hLeave, hObeys⟩ : s.Steady [] s1 ∧ _ := ih trivial trivial hOwes
    refine ⟨⟨by rw [← hLeave.scopes], fun i => hLeave.slots i not_mem_nil⟩, fun hKnows ds outer f hScopes hAt => ?_⟩
    have hDeparts := hObeys hKnows (E.Arrived floor { s1 with linked := s.linked, scopes := s1.scopes.tail } f)
      f hAt fun f' h => ⟨{ h.here with }, h.keeps⟩
    rw [hScopes] at hDeparts
    exact (hDeparts.close le_rfl).imp fun _ f' _ h => h.arrived le_rfl
  | stay hLe => exact ⟨.refl, fun _ arrive f hAt hArrive => .of_arrived (hArrive f ⟨hAt, .refl⟩) hLe⟩
  | @leave ts floor depth ds outer s s1 s2 hScopes hDepth _ _ ihFirst ihRest =>
    have hCons := hOwes.cons hScopes
    have hOwes0 : Site.Owes later { s with linked := true, scopes := outer } := hCons.2
    obtain ⟨hSettles, hObeysFirst⟩ := ihFirst (fun d hd => (hCons.1 d (mem_reverse.mp hd)).1)
      (fun d hd => (hCons.1 d (mem_reverse.mp hd)).2) hOwes0
    have hFirst : Site.Steady [] { s with linked := true, scopes := outer } s1 := hSettles rfl
    obtain ⟨hRest, hObeysRest⟩ : s1.Steady [] s2 ∧ _ := ihRest trivial trivial (hFirst.owes hOwes0)
    refine ⟨⟨?_, fun i hi => (hRest.slots i hi).trans (hFirst.slots i hi)⟩, fun hKnows arrive f hAt hArrive => ?_⟩
    · rw [hRest.scopes, hFirst.scopes, hScopes]
    have hKnows2 : ∀ i ∉ later, E.Knows s2.slots i := hKnows
    -- what is deferred runs in the scopes around it, the innermost scope first
    rw [hScopes, Departs, if_pos hDepth]
    refine (hObeysFirst (knows_before hKnows2 hRest) rfl f { hAt with }).imp ?_
    intro _ f1 _ h1
    have hDeparts := hObeysRest hKnows2 arrive f1 h1.here fun f2 h2 =>
      hArrive f2 ⟨{ h2.here with }, h1.keeps.trans h2.keeps le_rfl⟩
    rwa [hFirst.scopes] at hDeparts
  | undeferred => exact ⟨fun hKept => .of_eq hKept.symm rfl, fun _ _ f hAt => .pure fun _ => ⟨{ hAt with }, .refl⟩⟩
  | @deferred ts floor d ds kept s s1 s' _ _ ihFirst ihRest =>
    obtain ⟨hd, hds⟩ := forall_mem_cons.mp hRegular
    obtain ⟨hdO, hdsO⟩ := forall_mem_cons.mp hOrdered
    obtain ⟨⟨⟨hDefer, hStays⟩, hDecls⟩, hdR⟩ := by
      simpa only [Stmt.regular, Bool.and_eq_true, Bool.not_eq_true', List.isEmpty_iff] using hd
    -- it declares nothing, so the slots are still those of the scope, however often it is lowered
    obtain ⟨hSettles, hObeysFirst⟩ := ihFirst hdR hdO (by rw [Task.decls, hDecls]; exact hOwes)
    have hFirst : s.Steady [] s1 := hDecls ▸ hSettles.steady hDefer
    obtain ⟨hRest, hObeysRest⟩ := ihRest hds hdsO (hFirst.owes hOwes)
    have hSame : s.scopes = kept → s1.scopes = if s1.linked = true then s1.scopes else kept := fun hKept => by
      split
      · rfl
      · exact hFirst.scopes.trans hKept
    refine ⟨fun hKept => hFirst.after (hRest (hSame hKept)), fun hKnows hKept f hAt => ?_⟩
    have hDo := hObeysFirst (knows_before hKnows (hRest (hSame hKept))) hDefer .none f hStays .none hAt
    rw [map_cons, Stmt.runAll, discard_bind]
    refine hDo.bind fun e f1 _ hAfter => ?_
    cases e with
    | done =>
      have hArrived : E.Arrived floor s1 f f1 := hAfter
      exact (hObeysRest hKnows (hSame hKept) f1 hArrived.here).imp fun _ f2 _ h2 => h2.since hArrived.keeps
    | _ => cases hAfter.1 -- no jump leads out of what is deferred
  | noCases => exact ⟨.refl, fun _ t outer w _ _ _ _ _ _ j start f hStart => by cases hStart⟩
  | @case t ts floor c cs start starts exit s s1 s2 s3 s' hStart _ hSkip hRestF ihBody ihRest =>
    obtain ⟨hBodyR, hRestR⟩ := Bool.and_eq_true_iff.mp hRegular
    obtain ⟨hBodyO, hRestO⟩ := Bool.and_eq_true_iff.mp hOrdered
    rw [Task.decls, Stmt.caseDecls, append_assoc] at hOwes
    obtain ⟨hBody, hObeysBody⟩ : s1.Steady (Stmt.listDecls c.body) s2 ∧ _ := ihBody hBodyR hBodyO (hStart.steady.owes hOwes)
    have hCase := hStart.steady.after (hBody.andThen hSkip.steady)
    obtain ⟨hRest, hObeysRest⟩ : s3.Steady (Stmt.caseDecls cs) s' ∧ _ := ihRest hRestR hRestO (hCase.owes hOwes)
    refine ⟨hCase.trans hRest, fun hKnows => ?_⟩
    have hKnows2 := knows_before (knows_before hKnows hRest) hSkip.steady
    refine .case hStart (hObeysBody hKnows2) hSkip hCase.scopes ?_ (hObeysRest hKnows)
    -- the last case has none to fall into
    rintro rfl
    cases hRestF
    rfl

end Scene

end Comptime
