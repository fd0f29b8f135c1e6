import Comptime.Proofs.Simulation.Statements

/-!
# Control structures do what they say

One lemma for each kind of statement that has others in it: if the code of those does what they say, so does its own. A loop
is the same round again and again, and whichever way its body is left, control comes to the head, or past the loop, or
leaves both.
-/

namespace Comptime

theorem Stmt.eq_absent_of_isAbsent {x : Stmt} (h : x.isAbsent = true) : x = .absent := by
  cases x with
  | absent => rfl
  | _ => cases h

namespace Scene

variable {E : Scene} {α : Type} {n m floor pos : Nat} {ts : List Target} {t : Target}
  {s s1 s2 s3 s4 s5 s6 s7 s8 s' : Site} {w : Ways}
  {scopes : List (List Stmt)} {f0 f f' : Frame} {e : Exit} {p : Point} {Q : α → Frame → Prop} {c : Eval α}
  {test : Expr} {body yes : List Stmt} {no : Stmt} {head next otherwise exit : Nat}

/-! ## Regions, jumps and conditions at sites -/

/-- Straight code ends at the next site. -/
theorem Finishes.after (h : E.Finishes ⟨s.pos, m, s.high⟩ p f e f') (hFloor : floor ≤ m) (hDead : s.dead = false)
    (hs' : s' = { s with pos := p.pos, high := p.high }) : E.After n ts w floor scopes s' f e f' := by
  obtain ⟨rfl, hPassed⟩ := h
  subst hs'
  exact ⟨⟨hDead, hPassed.pos, hPassed.fits⟩, fun k hk => hPassed.keeps k (hk.trans_le hFloor)⟩

theorem Region.arrived (h : E.text.Region s pos s') (hf : E.Reaches floor f0 pos f) : E.Arrived floor s' f0 f.next := by
  obtain ⟨rfl, hCode, rfl⟩ := h
  refine ⟨⟨rfl, ?_, hf.fits.next⟩, hf.keeps⟩
  rw [Frame.next, hf.pos]
  rfl

/-- A region that control comes to. -/
theorem Region.does (h : E.text.Region s pos s') (hf : E.Reaches floor f0 pos f)
    (hNext : E.Arrived floor s' f0 f.next → E.Does n f.next c Q) : E.Does n f c Q :=
  region_does hf.pos (h.1 ▸ h.2.1) (hNext (Region.arrived h hf))

/-- A statement that ends at a region. -/
theorem Region.ends (h : E.text.Region s pos s') (hf : E.Reaches floor f pos f') :
    E.Does n f' (pure .done) (E.After n ts w floor scopes s' f) :=
  Region.does h hf fun hArrived => .pure fun _ => hArrived

/-- A jump over some code, if the site can be reached. -/
theorem Skip.does (h : E.text.Skip s pos s') (hf : E.Arrived floor s f0 f)
    (hNext : E.Reaches floor f0 pos (f.goto pos) → E.Does n (f.goto pos) c Q) : E.Does n f c Q := by
  rcases h with ⟨hDead, -⟩ | ⟨-, hCode, -⟩
  · exact absurd (hDead.symm.trans hf.here.live) nofun
  · exact jump_does hf.here.pos hCode (hNext ⟨rfl, hf.keeps, hf.here.fits.goto⟩)

/-- A condition at a site. -/
theorem Runs.condition_does {c : Bool → Eval α} (h : E.text.Runs floor (Shape.condition test) s otherwise s')
    (hf : E.Arrived floor s f0 f) (hVars : ∀ i ∈ test.vars, E.Knows s.slots i)
    (hTrue : ∀ f', E.Arrived floor s' f0 f' → E.Does n f' (c true) Q)
    (hFalse : ∀ f', E.Reaches floor f0 otherwise f' → E.Does n f' (c false) Q) :
    E.Does n f (test.holds E.setting >>= c) Q := by
  obtain ⟨hDead, m, p, hFloor, hShape, rfl⟩ := h
  refine Scene.condition_does hShape ⟨hf.here.pos, hf.here.fits⟩ hVars fun b f' hKeeps hFits hPos => ?_
  have hKeeps' : f0.Keeps floor f' := hf.keeps.trans hKeeps hFloor
  cases b with
  | true => exact hTrue f' ⟨⟨hDead, hPos, hFits⟩, hKeeps'⟩
  | false => exact hFalse f' ⟨hPos, hKeeps', hFits⟩

/-- What a statement goes on with if it has come to an end. -/
theorem ending_does {x : Eval Exit} (hx : E.Does n f x (E.After n ts w floor scopes s1 f)) (hKeeps : f0.Keeps floor f)
    (hDone : ∀ f', E.Arrived floor s1 f0 f' → E.Does n f' (pure .done) (E.After n ts w floor scopes s' f0)) :
    E.Does n f x (E.After n ts w floor scopes s' f0) := by
  rw [← bind_pure x]
  refine hx.bind fun e f1 _ hAfter => ?_
  by_cases he : e = .done
  · subst he
    exact hDone f1 (hAfter.since hKeeps)
  · exact .pure fun _ => (hAfter.since hKeeps).early he

/-- A statement that has no way out but its end. -/
theorem staying_does {x : Eval Exit} (hx : E.Does n f x (E.After n ts .none floor scopes s' f)) :
    E.Does n f (discard x) fun _ f' => E.Arrived floor s' f f' := by
  refine hx.discard.imp fun _ f' _ ⟨e, hAfter⟩ => ?_
  cases e with
  | done => exact hAfter
  | _ => exact absurd hAfter.1 nofun

/-! ## Conditionals -/

namespace Obeys

theorem cond (hTest : E.text.Runs floor (Shape.condition test) s otherwise s1) (hVars : ∀ i ∈ test.vars, E.Knows s.slots i)
    (hYes : E.Obeys n ts floor s1 s2 (.scope yes)) (hNo : no.isAbsent = true) (hEnd : E.text.Region s2 otherwise s') :
    E.Obeys n ts floor s s' (.stmt (.cond test yes no)) := by
  intro _ w f hStays hPermits hAt
  have hScopes := hTest.steady.scopes
  obtain rfl := Stmt.eq_absent_of_isAbsent hNo
  obtain ⟨hYesS, -⟩ := by simpa only [Stmt.stays, Bool.and_eq_true] using hStays
  rw [Stmt.exec]
  refine Runs.condition_does hTest ⟨hAt, .refl⟩ hVars (fun f1 h1 => ?_) fun f1 h1 => Region.ends hEnd h1
  have hBody := hYes w f1 hYesS (hScopes ▸ hPermits) h1.here
  rw [hScopes] at hBody
  exact ending_does hBody h1.keeps fun f2 h2 => Region.ends hEnd (hEnd.1 ▸ h2.reaches)

theorem condElse (hTest : E.text.Runs floor (Shape.condition test) s otherwise s1)
    (hVars : ∀ i ∈ test.vars, E.Knows s.slots i)
    (hYes : E.Obeys n ts floor s1 s2 (.scope yes)) (hSkip : E.text.Skip s2 exit s3) (hOther : E.text.Region s3 otherwise s4)
    (hScopes4 : s4.scopes = s.scopes) (hNo : E.Obeys n ts floor s4 s5 (.stmt no)) (hNotDefer : no.isDefer = false)
    (hEnd : if s2.dead = true ∧ s5.dead = true then s' = s5 else E.text.Region s5 exit s') :
    E.Obeys n ts floor s s' (.stmt (.cond test yes no)) := by
  intro _ w f hStays hPermits hAt
  have hScopes := hTest.steady.scopes
  obtain ⟨hYesS, hNoS⟩ := by simpa only [Stmt.stays, Bool.and_eq_true] using hStays
  -- either branch that is left at its end makes the statement end at a region
  have hEnds : s2.dead = false ∨ s5.dead = false → E.text.Region s5 exit s' := fun hLive => by
    rwa [if_neg (by rintro ⟨h2, h5⟩; simp [h2, h5] at hLive)] at hEnd
  rw [Stmt.exec]
  refine Runs.condition_does hTest ⟨hAt, .refl⟩ hVars (fun f1 h1 => ?_) fun f1 h1 => Region.does hOther h1 fun h2 => ?_
  · have hBody := hYes w f1 hYesS (hScopes ▸ hPermits) h1.here
    rw [hScopes] at hBody
    exact ending_does hBody h1.keeps fun f2 h2 => Skip.does hSkip h2 fun h3 => Region.ends (hEnds (.inl h2.here.live)) h3
  · have hBody := hNo hNotDefer w f1.next hNoS (hScopes4 ▸ hPermits) h2.here
    rw [hScopes4] at hBody
    refine ending_does hBody h2.keeps fun f3 h3 => ?_
    have hRegion := hEnds (.inr h3.here.live)
    exact Region.ends hRegion (hRegion.1 ▸ h3.reaches)

/-! ## Loops -/

theorem whileDo (hRounds : E.setting.rounds = n) (hHead : E.text.Region s head s1)
    (hTest : E.text.Runs floor (Shape.condition test) s1 exit s2) (hVars : ∀ i ∈ test.vars, E.Knows s1.slots i)
    (hBody : E.Obeys n (⟨true, s.scopes.length, some exit, some head, none⟩ :: ts) floor s2 s3 (.scope body))
    (hSkip : E.text.Skip s3 head s4) (hEnd : E.text.Region s4 exit s') :
    E.Obeys n ts floor s s' (.stmt (.whileDo test body)) := by
  intro _ w f hStays hPermits hAt
  have hScopes : s2.scopes = s.scopes := (hHead.steady.after hTest.steady).scopes
  rw [Stmt.exec, hRounds]
  refine repeated_does (I := E.Reaches floor f head) (hHead.1 ▸ hHead.2.1) (fun _ h => h.pos) le_rfl (fun f1 h1 => ?_)
    ⟨hHead.1 ▸ hAt.pos, .refl, hAt.fits⟩
  have hLeft : ∀ f2, E.Reaches floor f exit f2 →
      E.Does n f2 (pure (some .done)) (Round (E.After n ts w floor s.scopes s' f) (E.Reaches floor f head)) :=
    fun f2 h2 => Region.does hEnd h2 fun h3 => .pure fun _ => h3
  refine Runs.condition_does hTest (Region.arrived hHead h1) hVars (fun f2 h2 => ?_) hLeft
  refine round_does (c := pure) (hBody w.inLoop f2 hStays (.inLoop rfl (by rw [hScopes])) h2.here) rfl rfl (by rw [hScopes])
    (fun f3 h3 => ?_) (fun f3 pos hPos h3 => ?_) (fun f3 pos hPos h3 => ?_) fun f3 v hRet hDeparts => ?_
  · exact Skip.does hSkip (h3.since h2.keeps) fun h4 => .pure fun _ => h4
  · cases hPos
    exact .pure fun _ => h3.since h2.keeps
  · cases hPos
    exact hLeft f3 (h3.since h2.keeps)
  · rw [hScopes] at hDeparts
    exact .pure fun _ => ⟨hRet, hDeparts⟩

theorem doWhile (hRounds : E.setting.rounds = n) (hHead : E.text.Region s head s1)
    (hBody : E.Obeys n (⟨true, s.scopes.length, some exit, some next, none⟩ :: ts) floor s1 s2 (.scope body))
    (hNext : E.text.Region s2 next s3) (hTest : E.text.Runs floor (Shape.condition test) s3 exit s4)
    (hVars : ∀ i ∈ test.vars, E.Knows s3.slots i) (hJump : E.text.Jump s4 head s5) (hEnd : E.text.Region s5 exit s') :
    E.Obeys n ts floor s s' (.stmt (.doWhile test body)) := by
  intro _ w f hStays hPermits hAt
  have hScopes : s1.scopes = s.scopes := hHead.steady.scopes
  rw [Stmt.exec, hRounds]
  refine repeated_does (I := E.Reaches floor f head) (hHead.1 ▸ hHead.2.1) (fun _ h => h.pos) le_rfl (fun f1 h1 => ?_)
    ⟨hHead.1 ▸ hAt.pos, .refl, hAt.fits⟩
  have hLeft : ∀ f2, E.Reaches floor f exit f2 →
      E.Does n f2 (pure (some .done)) (Round (E.After n ts w floor s.scopes s' f) (E.Reaches floor f head)) :=
    fun f2 h2 => Region.does hEnd h2 fun h3 => .pure fun _ => h3
  have hAgain : ∀ f2, E.Reaches floor f next f2 → E.Does n f2
    (do return if ← test.holds E.setting then none else some .done)
      (Round (E.After n ts w floor s.scopes s' f) (E.Reaches floor f head)) := fun f2 h2 => by
    refine Region.does hNext h2 fun h3 => Runs.condition_does hTest h3 hVars (fun f4 h4 => ?_) hLeft
    exact jump_does h4.here.pos hJump.1 (.pure fun _ => ⟨rfl, h4.keeps, h4.here.fits.goto⟩)
  have hInside := Region.arrived hHead h1
  refine round_does (c := ofRound do return if ← test.holds E.setting then none else some .done)
    (hBody w.inLoop f1.next hStays (.inLoop rfl (by rw [hScopes])) hInside.here) rfl rfl (by rw [hScopes])
    (fun f3 h3 => ?_) (fun f3 pos hPos h3 => ?_) (fun f3 pos hPos h3 => ?_) fun f3 v hRet hDeparts => ?_
  · exact hAgain f3 (hNext.1 ▸ (h3.since hInside.keeps).reaches)
  · cases hPos
    exact hAgain f3 (h3.since hInside.keeps)
  · cases hPos
    exact hLeft f3 (h3.since hInside.keeps)
  · rw [hScopes] at hDeparts
    exact .pure fun _ => ⟨hRet, hDeparts⟩

section

variable {x : Stmt} (hDefer : x.isDefer = false) (hStays : x.stays .none = true)

include hDefer hStays

/-- What a loop starts with, if there is anything. -/
theorem first_does (hNo : x.isAbsent = true → s' = s) (hFirst : x.isAbsent = false → E.Obeys n ts floor s s' (.stmt x))
    (hAt : E.At s f) : E.Does n f (discard (x.exec E.setting)) fun _ f' => E.Arrived floor s' f f' := by
  cases hAbsent : x.isAbsent with
  | true =>
    rw [Stmt.eq_absent_of_isAbsent hAbsent, hNo hAbsent]
    exact .pure fun _ => ⟨hAt, .refl⟩
  | false => exact staying_does (hFirst hAbsent hDefer .none f hStays .none hAt)

/-- What a loop does after its body, if anything, on the way back to its head. -/
theorem post_does (hNo : x.isAbsent = true → next = head ∧ s6 = s4) (hNext : x.isAbsent = false → E.text.Region s4 next s5)
    (hPost : x.isAbsent = false → E.Obeys n ts floor s5 s6 (.stmt x)) (hSkip : E.text.Skip s6 head s7)
    (hf : E.Reaches floor f next f' ∨ E.Arrived floor s4 f f') :
    E.Does n f' (discard (x.exec E.setting)) fun _ f'' => E.Reaches floor f head f'' := by
  cases hAbsent : x.isAbsent with
  | true =>
    obtain ⟨rfl, rfl⟩ := hNo hAbsent
    rw [Stmt.eq_absent_of_isAbsent hAbsent]
    rcases hf with hf | hf
    · exact .pure fun _ => hf
    · exact Skip.does hSkip hf fun h => .pure fun _ => h
  | false =>
    have hNext := hNext hAbsent
    have hf' : E.Reaches floor f next f' := hf.elim id fun hf => hNext.1 ▸ hf.reaches
    refine Region.does hNext hf' fun h5 => ?_
    rw [← bind_pure (discard _)]
    refine (staying_does (hPost hAbsent hDefer .none f'.next hStays .none h5.here)).bind ?_
    exact fun _ f6 _ h6 => Skip.does hSkip (h6.since h5.keeps) fun h7 => .pure fun _ => h7

end

/-- A loop with a scope of its own, which has nothing deferred in it. -/
theorem loop {init post : Stmt} {exit : Option Nat} (hRounds : E.setting.rounds = n)
    (hInit : ∀ f, E.At { s with linked := false, scopes := [] :: s.scopes } f →
      E.Does n f (discard (init.exec E.setting)) fun _ f' => E.Arrived floor s1 f f')
    (hHead : E.text.Region s1 head s2)
    (hTest : if test.isAbsent then s3 = s2
      else ∃ otherwise, exit = some otherwise ∧ E.text.Runs floor (Shape.condition test) s2 otherwise s3)
    (hVars : ∀ i ∈ test.vars, E.Knows s2.slots i) (hScopes3 : s3.scopes = [] :: s.scopes)
    (hBody : E.Obeys n (⟨true, s.scopes.length + 1, exit, some next, none⟩ :: ts) floor s3 s4 (.scope body))
    (hPost : ∀ f f', E.Reaches floor f next f' ∨ E.Arrived floor s4 f f' →
      E.Does n f' (discard (post.exec E.setting)) fun _ f'' => E.Reaches floor f head f'')
    (hExit : ∀ pos, exit = some pos → E.text.Region s7 pos s8) (hScopes8 : s8.scopes = [] :: s.scopes)
    (hClose : E.Obeys n ts floor s8 s' .close) : E.Obeys n ts floor s s' (.stmt (.loop init test post body)) := by
  intro _ w f hStays hPermits hAt
  rw [Stmt.exec, hRounds]
  refine (hInit f { hAt with }).bind fun _ f1 _ h1 => ?_
  refine repeated_does (I := E.Reaches floor f head) (hHead.1 ▸ hHead.2.1) (fun _ h => h.pos) le_rfl (fun f1 h1 => ?_)
    (hHead.1 ▸ h1.reaches)
  -- the way out closes the scope of the loop
  have hLeft : ∀ f2 pos, exit = some pos → E.Reaches floor f pos f2 →
      E.Does n f2 (pure (some .done)) (Round (E.After n ts w floor s.scopes s' f) (E.Reaches floor f head)) :=
    fun f2 pos hPos h2 => Region.does (hExit pos hPos) h2 fun h3 =>
      (hClose [] s.scopes f2.next hScopes8 h3.here).bind fun _ f4 _ h4 => .pure fun _ => h4.since h3.keeps
  -- the body is done or continued, and the post statement follows, or it is left for good
  have hRound : ∀ f2, E.Arrived floor s3 f f2 → E.Does n f2 (do
      ofRound (do discard (post.exec E.setting); return none) (← Stmt.closing (Stmt.execList E.setting body [])).ofLoop)
        (Round (E.After n ts w floor s.scopes s' f) (E.Reaches floor f head)) := fun f2 h2 => by
    refine round_does (c := ofRound do discard (post.exec E.setting); return none)
      (hBody w.inLoop f2 hStays (.inLoop rfl (by rw [hScopes3, List.length_cons])) h2.here) rfl rfl
      (by rw [hScopes3, List.length_cons]) (fun f3 h3 => ?_) (fun f3 pos hPos h3 => ?_) (fun f3 pos hPos h3 => ?_)
      fun f3 v hRet hDeparts => ?_
    · exact (hPost f f3 (.inr (h3.since h2.keeps))).bind fun _ f4 _ h4 => .pure fun _ => h4
    · cases hPos
      exact (hPost f f3 (.inl (h3.since h2.keeps))).bind fun _ f4 _ h4 => .pure fun _ => h4
    · exact hLeft f3 pos hPos (h3.since h2.keeps)
    · rw [hScopes3] at hDeparts
      exact (hDeparts.close (Nat.zero_le _)).bind fun _ f4 _ h4 => .pure fun _ => ⟨hRet, h4⟩
  have hInside := Region.arrived hHead h1
  split at hTest
  · next hAbsent =>
    rw [Expr.holds, if_pos hAbsent, pure_bind, if_pos rfl]
    exact hRound f1.next (hTest ▸ hInside)
  · obtain ⟨otherwise, hOtherwise, hCond⟩ := hTest
    exact Runs.condition_does hCond hInside hVars hRound fun f2 h2 => hLeft f2 otherwise hOtherwise h2

/-! ## Switches -/

variable {tag : Expr} {cs : List (Case Stmt)} {d : Case Stmt} {starts : List Nat} {r : Reg} {default start : Nat}

theorem switch (hTag : E.text.Runs floor (do Shape.value (← Shape.expr tag)) s r s1)
    (hVars : ∀ i ∈ tag.vars, E.Knows s.slots i)
    (hCode : E.text.code[s1.pos]? = some (.branch r (Case.arms cs starts) (default : Nat)))
    (hLen : starts.length = cs.length)
    (hDefault : match Build.defaultCase? cs with | none => default = exit | some i => starts[i]? = some default)
    (hCases : E.Obeys n (⟨false, s.scopes.length, some exit, none, some exit⟩ :: ts) floor
      { s1 with pos := s1.pos + 1, dead := true } s2 (.cases cs starts exit))
    (hEnd : E.text.Region s2 exit s') : E.Obeys n ts floor s s' (.stmt (.switch tag cs)) := by
  intro _ w f hStays hPermits hAt
  have hScopes : s1.scopes = s.scopes := hTag.steady.scopes
  obtain ⟨hDead, m, p, hFloor, ⟨_, _, ⟨res, _, hResults, rfl, rfl⟩, hValue⟩, rfl⟩ := hTag
  rw [Stmt.exec, Expr.value, bind_assoc]
  refine (results_does tag hResults ⟨hAt.pos, hAt.fits⟩ hVars).bind fun o f1 _ hLands => ?_
  refine value_does hValue hLands fun y f2 hr => dispatch_does hr.pos hCode hLen hDefault hr.reg fun o start hStart => ?_
  have hKeeps : f.Keeps floor (f2.goto start) := fun k hk => hr.keeps k (hk.trans_le hFloor)
  cases o with
  | none => exact Region.ends hEnd ⟨congrArg _ hStart, hKeeps, hr.fits.goto⟩
  | some j =>
    refine (hCases _ ts w rfl rfl rfl rfl hStays hPermits j start _ hStart rfl hr.fits.goto).bind fun e f3 _ hAfter => ?_
    have hAfter' := hAfter.since hKeeps
    rw [AfterCases] at hAfter'
    split at hAfter'
    · next he =>
      rw [he]
      exact Region.ends hEnd hAfter'
    · cases e with
      | continued | returned v => exact .pure fun _ => hAfter' s'
      | _ => contradiction

/-- Control falls from a case to where the next one starts, or past all cases. -/
theorem case (hStart : E.text.Region s start s1)
    (hBody : E.Obeys n ({ t with onFall := some (starts.headD exit) } :: ts) floor s1 s2 (.scope d.body))
    (hSkip : E.text.Skip s2 exit s3) (hScopes : s3.scopes = s.scopes) (hNil : starts = [] → cs = [])
    (hRest : E.Obeys n (t :: ts) floor s3 s' (.cases cs starts exit)) :
    E.Obeys n (t :: ts) floor s s' (.cases (d :: cs) (start :: starts) exit) := by
  rintro _ _ w ⟨⟩ hLoop hBreak hDepth hStays hPermits j pos f hPos hf hFits
  obtain ⟨hBodyS, hRestS⟩ := Bool.and_eq_true_iff.mp hStays
  have hNext := hRest t ts w rfl hLoop hBreak (hScopes ▸ hDepth) hRestS (hScopes ▸ hPermits)
  rw [hScopes] at hNext
  rw [Stmt.execCases]
  cases j with
  | succ j => exact hNext j pos f hPos hf hFits
  | zero =>
    obtain rfl := Option.some.inj hPos
    have hScopes1 := hStart.steady.scopes
    have hHere : E.Reaches floor f start f := ⟨hf, .refl, hFits⟩
    refine Region.does hStart hHere fun h1 => ?_
    have hDepth1 : s1.scopes.length ≤ t.depth := by rw [hScopes1, hDepth]
    have hPermits1 : w.inSwitch.Permits ({ t with onFall := some (starts.headD exit) } :: ts) s1.scopes.length :=
      (hScopes1 ▸ hPermits).inSwitch hLoop (by rw [hScopes1, ← hDepth])
    refine (hBody w.inSwitch f.next hBodyS hPermits1 h1.here).bind fun e f2 _ hAfter => ?_
    cases e with
    | done => exact Skip.does hSkip (Arrived.since hAfter h1.keeps) fun h3 => .pure fun _ => h3
    | broke =>
      obtain ⟨-, _, pos, ht, hPos, hDeparts⟩ := hAfter
      obtain rfl := Option.some.inj ht
      obtain rfl := Option.some.inj (hBreak.symm.trans hPos)
      exact (hDeparts.arrived hDepth1).does fun h3 => .pure fun _ => h3.since h1.keeps
    | continued =>
      obtain ⟨hw, t', pos, ht, hPos, hDeparts⟩ := hAfter
      rw [List.find?_cons_of_neg (by simp [hLoop])] at ht
      rw [hScopes1] at hDeparts
      exact .pure fun _ _ => ⟨hw, t', pos, ht, hPos, hDeparts.imp fun _ h => h.since h1.keeps⟩
    | fell =>
      obtain ⟨-, _, pos, ht, hPos, hDeparts⟩ := hAfter
      obtain rfl := Option.some.inj ht
      obtain rfl := Option.some.inj hPos
      refine (hDeparts.arrived hDepth1).does fun h3 => ?_
      -- behind the last case there is the end
      cases starts with
      | nil =>
        rw [hNil rfl]
        exact .pure fun _ => h3.since h1.keeps
      | cons next starts =>
        exact (hNext 0 next _ rfl h3.pos h3.fits).imp fun e f4 _ h4 => h4.since (h1.keeps.trans h3.keeps le_rfl)
    | returned v =>
      rw [hScopes1] at hAfter
      exact .pure fun _ _ => hAfter

end Obeys

end Scene

end Comptime
