import Comptime.Proofs.Shape.Expressions

/-!
# Getting through a statement

`Crosses` says of the sites around the code of a statement that every instruction between them is as it should be, and that
the first one is safe to be at if the second one is, and if so are the labels that jumps out of the statement lead to. A
label has to be safe for fewer steps only, which is what makes loops go through: how far one looks ahead gets shorter with
every jump.

Main statement: `Flow.crosses`, by induction on the flow.
-/

namespace Comptime

open List Shape Option Stmt

/-- What is known at a site: its locals have addresses, and what is deferred passes the test. -/
structure Site.Fine {code : Array Instr} (Z : Zone code) (P : Ty → Bool) (s : Site) : Prop where
  slots : ∀ x ∈ s.slots, x.2 ∈ Z.base
  scopes : ∀ ds ∈ s.scopes, listTypes P ds = true

/-- The positions that jumps out of loops and switches lead to. -/
def labels (ts : List Target) : Set Nat :=
  {pos | ∃ t ∈ ts, t.onBreak = some pos ∨ t.onContinue = some pos ∨ t.onFall = some pos}

namespace Task

/-- Every type in the task passes the test. -/
def Typed (P : Ty → Bool) : Task → Prop
  | stmt x => x.allTypes P = true
  | stmts xs | scope xs => listTypes P xs = true
  | close | leave _ => True
  | deferred ds kept => listTypes P ds = true ∧ ∀ l ∈ kept, listTypes P l = true
  | cases cs _ _ => caseTypes P cs = true

/-- Where the cases of a switch start. -/
def starts : Task → List Nat
  | cases _ starts _ => starts
  | _ => []

/-- Where control goes on after the last case of a switch. -/
def exits : Task → Set Nat
  | cases _ _ exit => {exit}
  | _ => ∅

end Task

section

variable {code : Array Instr} (Z : Zone code) (P : Ty → Bool)

/-- The labels are regions that are safe to jump to. -/
structure Ahead (K : Set Nat) (n : Nat) (W : Set Reg) : Prop where
  known : Z.base ⊆ W
  next : ∀ k ∈ K, code[k]? = some .region ∧ SafeNext code n W k

/-- The instruction in front of a position does not lead on to it. -/
def Ended (code : Array Instr) (pos : Nat) : Prop := ∃ i x, pos = i + 1 ∧ code[i]? = some x ∧ x.fallsThrough = false

/-- Control gets from one site to the other, or to a label. -/
structure Crosses (K : Set Nat) (s s' : Site) : Prop where
  fine : s'.Fine Z P
  ends : (s.dead = true → Ended code s.pos) → s'.dead = true → Ended code s'.pos
  fits : (∀ k ∈ K, code[k]? = some .region) → ∀ i, s.pos ≤ i → i < s'.pos → Z.FitsAt i
  safe : ∀ {n W}, Ahead Z K n W → (s'.dead = false → Safe code n W s'.pos) → s.dead = false → Safe code n W s.pos

/-- Control that comes to a region gets from there to the labels. -/
structure Opens (K : Set Nat) (start : Nat) : Prop where
  region : code[start]? = some .region
  safe : ∀ {n W}, Ahead Z K n W → Safe code n W start

end

variable {code : Array Instr} {Z : Zone code} {P : Ty → Bool} {K K' : Set Nat} {n m : Nat} {W : Set Reg}
  {s s1 s' : Site}

theorem Ahead.le (h : Ahead Z K n W) (hm : m ≤ n) : Ahead Z K m W :=
  ⟨h.known, fun k hk => (h.next k hk).imp_right fun h => h.le hm⟩

theorem Ahead.mono {W' : Set Reg} (h : Ahead Z K n W) (hW : W ⊆ W') : Ahead Z K n W' :=
  ⟨h.known.trans hW, fun k hk => (h.next k hk).imp_right fun h => h.mono hW⟩

namespace Crosses

theorem trans (h : Crosses Z P K s s1) (h' : Crosses Z P K s1 s') :
    Crosses Z P K s s' where
  fine := h'.fine
  ends hs := h'.ends (h.ends hs)
  fits hK i hLe hLt := by
    rcases Nat.lt_or_ge i s1.pos with hi | hi
    · exact h.fits hK i hLe hi
    · exact h'.fits hK i hi hLt
  safe hAhead hEnd := h.safe hAhead (h'.safe hAhead hEnd)

theorem refl (hs : s.Fine Z P) : Crosses Z P K s s :=
  ⟨hs, id, fun _ _ hLe hLt => absurd hLe (Nat.not_le.mpr hLt), fun _ hEnd => hEnd⟩

/-- Labels that are known to be safe whenever others are. -/
theorem discharge (h : Crosses Z P K' s s') (hRegions : ∀ k ∈ K', k ∈ K ∨ code[k]? = some .region)
    (hNext : ∀ {n W}, Ahead Z K n W → ∀ k ∈ K', SafeNext code n W k) : Crosses Z P K s s' := by
  have hAll : (∀ k ∈ K, code[k]? = some .region) → ∀ k ∈ K', code[k]? = some .region := fun hK k hk =>
    (hRegions k hk).elim (hK k) id
  exact ⟨h.fine, h.ends, fun hK => h.fits (hAll hK), fun hAhead hEnd =>
    h.safe ⟨hAhead.known, fun k hk => ⟨hAll (fun j hj => (hAhead.next j hj).1) k hk, hNext hAhead k hk⟩⟩ hEnd⟩

/-- More may be known of the labels. -/
theorem mono (h : Crosses Z P K s s') (hK : K ⊆ K') : Crosses Z P K' s s' :=
  h.discharge (fun _ hk => .inl (hK hk)) fun hAhead k hk => (hAhead.next k (hK hk)).2

/-- What is known at the end is known of another site at that position. -/
theorem relabel (h : Crosses Z P K s s1) (hs : s'.Fine Z P) (hPos : s'.pos = s1.pos)
    (hDead : s'.dead = s1.dead) : Crosses Z P K s s' :=
  ⟨hs, hPos ▸ hDead ▸ h.ends, hPos ▸ h.fits, fun hAhead hEnd => h.safe hAhead (hPos ▸ hDead ▸ hEnd)⟩

theorem of_passes {C : Z.Written} (h : Passes Z.start s.pos s'.pos C) (hs : s'.Fine Z P) (hDead : s'.dead = false) :
    Crosses Z P K s s' :=
  ⟨hs, fun _ hc => absurd (hDead.symm.trans hc) nofun, fun _ => h.fits, fun hAhead hEnd _ =>
    h.safe hAhead.known ((hEnd hDead).mono Set.subset_union_left)⟩

end Crosses

/-! ## Code at a site -/

variable {T : Text} {Z : Zone T.code} {floor pos : Nat} {α : Type} {x : Shape α} {a : α}

theorem Text.Ground.withSlots (hG : T.Ground Z P) (hs : s.Fine Z P) :
    Text.Ground { T with slots := s.slots } Z P :=
  { hG with slots := hs.slots }

namespace Text

theorem Runs.keeps (h : T.Runs floor x s a s') (hs : s.Fine Z P) : s'.Fine Z P ∧ s.dead = false ∧ s'.dead = false := by
  obtain ⟨hDead, k, p, -, -, rfl⟩ := h
  exact ⟨⟨hs.slots, hs.scopes⟩, hDead, hDead⟩

theorem Runs.crosses (h : T.Runs floor x s a s') (hs : s.Fine Z P) (hx : ∀ {p p'},
    x { T with slots := s.slots } p a p' → Gets Z.start p.pos p'.pos fun _ => True) : Crosses Z P K s s' := by
  obtain ⟨hDead, k, p, -, hShape, rfl⟩ := h
  obtain ⟨C, hC, -⟩ := hx hShape
  exact .of_passes hC ⟨hs.slots, hs.scopes⟩ hDead

theorem Region.fine (h : T.Region s pos s') (hs : s.Fine Z P) : s'.Fine Z P := by
  obtain ⟨-, -, rfl⟩ := h
  exact ⟨hs.slots, hs.scopes⟩

theorem Region.crosses (h : T.Region s pos s') (hs : s.Fine Z P) : Crosses Z P K s s' := by
  obtain ⟨rfl, hCode, rfl⟩ := h
  refine ⟨⟨hs.slots, hs.scopes⟩, fun _ => nofun, fun _ i hLe hLt => ?_, fun _ hEnd _ => .region hCode (hEnd rfl)⟩
  obtain rfl : i = s.pos := by
    simp only at hLt
    omega
  exact Zone.fitsAt_region hCode

/-- A region is safe to be at if what follows is. -/
theorem Region.opens (h : T.Region s pos s') : T.code[pos]? = some .region ∧ s'.dead = false ∧
    ∀ {n W}, Safe T.code n W s'.pos → Safe T.code n W pos := by
  obtain ⟨rfl, hCode, rfl⟩ := h
  exact ⟨hCode, rfl, fun h => .region hCode h⟩

theorem Jump.crosses (h : T.Jump s pos s') (hs : s.Fine Z P) (hPos : pos ∈ K) : Crosses Z P K s s' := by
  obtain ⟨hCode, rfl⟩ := h
  refine ⟨⟨hs.slots, hs.scopes⟩, fun _ _ => ⟨_, _, rfl, hCode, rfl⟩, fun hK i hLe hLt => ?_, fun hAhead _ _ =>
    .jump hCode (hAhead.next pos hPos).2⟩
  obtain rfl : i = s.pos := by
    simp only at hLt
    omega
  exact Zone.fitsAt_jump hCode (hK pos hPos)

theorem Skip.crosses (h : T.Skip s pos s') (hs : s.Fine Z P) (hPos : pos ∈ K) : Crosses Z P K s s' := by
  rcases h with ⟨-, rfl⟩ | ⟨-, hJump⟩
  · exact .refl hs
  · exact hJump.crosses hs hPos

theorem Skip.dead (h : T.Skip s pos s') : s'.dead = true := by
  rcases h with ⟨hDead, rfl⟩ | ⟨-, -, rfl⟩
  · exact hDead
  · rfl

end Text

namespace Crosses

/-- A label is where the code before it ends. -/
theorem landing (h : Crosses Z P (insert pos K) s s1) (hRegion : T.Region s1 pos s') :
    Crosses Z P K s s' := by
  have hLast : Crosses Z P (insert pos K) s1 s' := hRegion.crosses h.fine
  obtain ⟨hCode, hDead, hOpens⟩ := hRegion.opens
  refine ⟨hLast.fine, (h.trans hLast).ends, fun hK => (h.trans hLast).fits (Set.forall_mem_insert.mpr ⟨hCode, hK⟩),
    fun hAhead hEnd hAlive => ?_⟩
  have hPos := hOpens (hEnd hDead)
  exact h.safe ⟨hAhead.known, Set.forall_mem_insert.mpr ⟨⟨hCode, hPos.next⟩, hAhead.next⟩⟩
    (fun _ => hRegion.1 ▸ hPos) hAlive

/-- A jump out of what is around, once the scopes in between are left. -/
theorem jumpOut {b : Bool} (h : Crosses Z P K s s1) (hJump : T.Jump { s1 with linked := b } pos s') (hPos : pos ∈ K) :
    Crosses Z P K s s' := by
  have hFine : Site.Fine Z P { s1 with linked := b } := ⟨h.fine.slots, h.fine.scopes⟩
  exact (h.relabel hFine rfl rfl).trans (hJump.crosses hFine hPos)

/-- A label is where a loop starts. -/
theorem loop (hRegion : T.Region s pos s1) (hs : s.Fine Z P) (h : Crosses Z P (insert pos K) s1 s') :
    Crosses Z P K s s' := by
  have hFirst : Crosses Z P (insert pos K) s s1 := hRegion.crosses hs
  obtain ⟨hCode, hDead, hOpens⟩ := hRegion.opens
  refine ⟨h.fine, (hFirst.trans h).ends, fun hK => (hFirst.trans h).fits (Set.forall_mem_insert.mpr ⟨hCode, hK⟩),
    fun {n W} hAhead hEnd hAlive => ?_⟩
  -- the start is safe for `m` steps if it is safe for fewer
  have hStart : ∀ m ≤ n, Safe T.code m W pos := by
    intro m
    induction m using Nat.strong_induction_on with
    | _ m ih =>
      intro hm
      refine hOpens (h.safe ⟨hAhead.known, Set.forall_mem_insert.mpr ⟨⟨hCode, ?_⟩, (hAhead.le hm).next⟩⟩
        (fun hc => (hEnd hc).le hm) hDead)
      exact fun j hj => ih j hj (hj.le.trans hm)
  exact hRegion.1 ▸ hStart n le_rfl

end Crosses

/-! ## Statements -/

theorem labels_cons_subset {t : Target} {ts : List Target} (hTs : labels ts ⊆ K)
    (ht : ∀ k, t.onBreak = some k ∨ t.onContinue = some k ∨ t.onFall = some k → k ∈ K) : labels (t :: ts) ⊆ K := by
  rintro k ⟨u, hu, hk⟩
  rcases mem_cons.mp hu with rfl | hu
  · exact ht k hk
  · exact hTs ⟨u, hu, hk⟩

theorem subset_labels_cons {t : Target} {ts : List Target} : labels ts ⊆ labels (t :: ts) :=
  fun _ ⟨u, hu, hk⟩ => ⟨u, mem_cons_of_mem t hu, hk⟩

/-- The labels of a loop with a place to go on to after it. -/
theorem labels_loop_subset {ts : List Target} {exit next depth : Nat} {b : Bool} :
    labels (⟨b, depth, some exit, some next, none⟩ :: ts) ⊆ insert exit (insert next (labels ts)) := by
  refine labels_cons_subset (fun k hk => .inr (.inr hk)) ?_
  rintro k (hk | hk | hk)
  · exact .inl (some.inj hk).symm
  · exact .inr (.inl (some.inj hk).symm)
  · cases hk

/-- A condition leads on or to a label. -/
theorem Text.Ground.condition_crosses (hG : T.Ground Z P) {x : Expr}
    (h : T.Runs floor (condition x) s pos s') (hs : s.Fine Z P) (hx : x.allTypes P = true) (hPos : pos ∈ K) :
    Crosses Z P K s s' := by
  have ⟨hFine, hAlive, hAlive'⟩ := h.keeps hs
  obtain ⟨-, k, p, -, hShape, rfl⟩ := h
  have hForks := fun hCode => condition_forks (hG.withSlots hs) Z.start hShape hCode hx
  refine ⟨hFine, fun _ hc => absurd (hAlive'.symm.trans hc) nofun, fun hK i hLe hLt =>
    (hForks (hK pos hPos)).fits i hLe hLt id, fun hAhead hEnd _ => ?_⟩
  obtain ⟨hCode, hNext⟩ := hAhead.next pos hPos
  exact (hForks hCode).safe hAhead.known (hEnd hAlive').next hNext

theorem mem_starts_of_mem_arms {cs : List (Case Stmt)} {starts : List Nat} {u : Arm} (h : u ∈ Case.arms cs starts) :
    ∃ start ∈ starts, u.target = start := by
  induction cs generalizing starts with
  | nil => cases h
  | cons c cs ih =>
    cases starts with
    | nil => cases h
    | cons start starts =>
      rcases mem_append.mp h with h | h
      · obtain ⟨x, -, rfl⟩ := mem_map.mp h
        exact ⟨start, mem_cons_self, rfl⟩
      · obtain ⟨t, ht, hEq⟩ := ih h
        exact ⟨t, mem_cons_of_mem _ ht, hEq⟩

/-- The dispatch of a switch leads to one of its cases, or past them. -/
theorem Text.Ground.switch_crosses (hG : T.Ground Z P) {x : Expr} {r : Reg}
    {cs : List (Case Stmt)} {starts : List Nat} {default : Nat}
    (h : T.Runs floor (do value (← expr x)) s r s1) (hs : s.Fine Z P) (hx : x.allTypes P = true)
    (hCode : T.code[s1.pos]? = some (.branch r (Case.arms cs starts) default))
    (hStarts : ∀ start ∈ default :: starts, start ∈ K) :
    Crosses Z P K s { s1 with pos := s1.pos + 1, dead := true } := by
  have hFine := (h.keeps hs).1
  -- up to the branch there is the code of the tag
  have ⟨C, hC, hr⟩ : Gets Z.start s.pos s1.pos (r ∈ ·) := by
    obtain ⟨-, k, p, -, ⟨v, q, hv, hValue⟩, rfl⟩ := h
    have hGround := hG.withSlots hs
    exact (value_gets hGround hValue (expr_yields hGround Z.start hv hx) :)
  refine ⟨⟨hFine.slots, hFine.scopes⟩, fun _ _ => ⟨_, _, rfl, hCode, rfl⟩, fun hK i hLe hLt => ?_, fun {n W} hAhead _ _ => ?_⟩
  · rcases Nat.lt_or_ge i s1.pos with hi | hi
    · exact hC.fits i hLe hi
    · obtain rfl : i = s1.pos := by
        simp only at hLt
        omega
      refine ⟨_, hCode, nofun, nofun, nofun, fun u hu => ?_, fun u hu => ?_⟩
      · simp only [Instr.reads] at hu
        split at hu
        · cases hu
        · exact mem_singleton.mp hu ▸ C.within hr
      · rcases mem_append.mp hu with hu | hu
        · obtain ⟨arm, hArm, rfl⟩ := mem_map.mp hu
          obtain ⟨start, hMem, hEq⟩ := mem_starts_of_mem_arms hArm
          exact ⟨start, hEq, hK start (hStarts start (mem_cons_of_mem _ hMem))⟩
        · exact ⟨default, mem_singleton.mp hu, hK default (hStarts default mem_cons_self)⟩
  · have hSafe : ∀ start ∈ default :: starts, SafeNext T.code n (W ∪ C.regs) start := fun start hMem =>
      (hAhead.next start (hStarts start hMem)).2.mono Set.subset_union_left
    refine hC.safe hAhead.known (.branch hCode (fun _ => .inr hr) (fun _ => .inr (.inr hr)) (fun u hu j hj => ?_) fun j hj => ?_)
    · obtain ⟨start, hMem, hEq⟩ := mem_starts_of_mem_arms hu
      obtain rfl : start = j := by exact_mod_cast (show (start : Int) = j from hEq ▸ hj)
      exact hSafe _ (mem_cons_of_mem _ hMem)
    · obtain rfl : default = j := by exact_mod_cast hj
      exact hSafe _ mem_cons_self

namespace Text.Ground

variable {ts : List Target} {s2 s3 s4 s5 s6 s7 s8 : Site}

/-- A condition with two branches: what is not left early goes on at the region behind both. -/
theorem condElse_crosses {test : Expr} {otherwise exit : Nat} (hG : T.Ground Z P)
    (hCond : T.Runs floor (condition test) s otherwise s1)
    (hs : s.Fine Z P) (hTest : test.allTypes P = true) (hYes : Crosses Z P K s1 s2) (hSkip : T.Skip s2 exit s3)
    (hOther : T.Region s3 otherwise s4) (hNo : s4.Fine Z P → Crosses Z P K s4 s5)
    (hEnd : if s2.dead = true ∧ s5.dead = true then s' = s5 else T.Region s5 exit s') : Crosses Z P K s s' := by
  -- the second branch starts at a label for the first one, and both may know of further labels
  have hThrough : ∀ {K'}, K ⊆ K' → Crosses Z P (insert otherwise K') s2 s3 → Crosses Z P K' s s5 := by
    intro K' hK hSkip
    have hTo := (hG.condition_crosses hCond hs hTest (Set.mem_insert _ _)).trans
      ((hYes.mono (hK.trans (Set.subset_insert otherwise K'))).trans hSkip)
    have hLanded := hTo.landing hOther
    exact hLanded.trans ((hNo hLanded.fine).mono hK)
  split at hEnd
  · next hDead =>
    -- neither branch gets to its end, so there is no jump over the second one
    subst hEnd
    rcases hSkip with ⟨-, rfl⟩ | ⟨hAlive, -⟩
    · exact hThrough subset_rfl (.refl hYes.fine)
    · exact absurd (hAlive.symm.trans hDead.1) nofun
  · exact (hThrough (Set.subset_insert _ _) (hSkip.crosses hYes.fine
      (Set.mem_insert_of_mem _ (Set.mem_insert _ _)))).landing hEnd

/-- A loop, from its head to where control goes on after it, if it has a way out. -/
theorem loop_crosses {test : Expr} {post : Stmt} {head next depth : Nat} {exit : Option Nat} (hG : T.Ground Z P)
    (hExit : match exit with | none => s8 = s7 | some pos => T.Region s7 pos s8) (hs : s1.Fine Z P)
    (hHead : T.Region s1 head s2)
    (hTest : if test.isAbsent then s3 = s2 else ∃ otherwise, exit = some otherwise ∧
      T.Runs floor (condition test) s2 otherwise s3)
    (hTypes : test.allTypes P = true)
    (hBody : s3.Fine Z P → Crosses Z P (labels (⟨true, depth, exit, some next, none⟩ :: ts)) s3 s4)
    (hNoPost : post.isAbsent = true → next = head ∧ s6 = s4) (hNext : post.isAbsent = false → T.Region s4 next s5)
    (hPost : post.isAbsent = false → s5.Fine Z P → Crosses Z P (labels ts) s5 s6) (hSkip : T.Skip s6 head s7) :
    Crosses Z P (labels ts) s1 s8 := by
  have hs2 := hHead.fine hs
  -- once around, from the head to the jump back
  have hAround : ∀ {K}, insert head (labels ts) ⊆ K → (∀ k, exit = some k → k ∈ K) → Crosses Z P K s2 s7 := by
    intro K hK hOut
    have hTested : Crosses Z P (insert next K) s2 s3 := by
      split at hTest
      · rw [hTest]
        exact .refl hs2
      · obtain ⟨otherwise, rfl, hCond⟩ := hTest
        exact hG.condition_crosses hCond hs2 hTypes (.inr (hOut _ rfl))
    have hSub : labels (⟨true, depth, exit, some next, none⟩ :: ts) ⊆ insert next K := by
      refine labels_cons_subset ((Set.subset_insert _ _).trans (hK.trans (Set.subset_insert _ _))) ?_
      rintro k (hk | hk | hk)
      · exact .inr (hOut k hk)
      · exact .inl (some.inj hk).symm
      · cases hk
    have hInside := hTested.trans ((hBody hTested.fine).mono hSub)
    have hEnd : Crosses Z P K s2 s6 := by
      cases hAbsent : post.isAbsent with
      | true =>
        obtain ⟨rfl, rfl⟩ := hNoPost hAbsent
        have hSame : insert next K = K := Set.insert_eq_of_mem (hK (Set.mem_insert _ _))
        exact hSame ▸ hInside
      | false =>
        have hLanded := hInside.landing (hNext hAbsent)
        exact hLanded.trans ((hPost hAbsent hLanded.fine).mono ((Set.subset_insert _ _).trans hK))
    exact hEnd.trans (hSkip.crosses hEnd.fine (hK (Set.mem_insert _ _)))
  refine .loop hHead hs ?_
  cases exit with
  | none =>
    obtain rfl := hExit
    exact hAround subset_rfl nofun
  | some out => exact .landing (hAround (Set.subset_insert _ _) fun k hk => .inl (some.inj hk).symm) hExit

/-- A switch, whose cases open for the dispatch and fall through to one another. -/
theorem cases_cross {tag : Expr} {cs : List (Case Stmt)} {r : Reg} {starts : List Nat} {default exit depth : Nat}
    (hG : T.Ground Z P)
    (hRuns : T.Runs floor (do value (← expr tag)) s r s1) (hs : s.Fine Z P) (hTag : tag.allTypes P = true)
    (hCode : T.code[s1.pos]? = some (.branch r (Case.arms cs starts) default)) (hDefault : default ∈ exit :: starts)
    (hInside : Crosses Z P (labels (⟨false, depth, some exit, none, some exit⟩ :: ts))
      { s1 with pos := s1.pos + 1, dead := true } s2)
    (hOpens : ∀ start ∈ starts, Opens Z (labels (⟨false, depth, some exit, none, some exit⟩ :: ts)) start)
    (hExit : T.Region s2 exit s') : Crosses Z P (labels ts) s s' := by
  have hSub : labels (⟨false, depth, some exit, none, some exit⟩ :: ts) ⊆ insert exit (labels ts) := by
    refine labels_cons_subset (Set.subset_insert _ _) ?_
    rintro k (hk | hk | hk)
    · exact .inl (some.inj hk).symm
    · cases hk
    · exact .inl (some.inj hk).symm
  have hLabel : exit ∈ labels (⟨false, depth, some exit, none, some exit⟩ :: ts) := ⟨_, mem_cons_self, .inl rfl⟩
  have hDispatch : Crosses Z P {k | k ∈ exit :: starts} s { s1 with pos := s1.pos + 1, dead := true } :=
    hG.switch_crosses hRuns hs hTag hCode fun start hMem => by
      rcases mem_cons.mp hMem with rfl | hMem
      · exact hDefault
      · exact mem_cons_of_mem _ hMem
  have hThrough := Crosses.trans (hDispatch.discharge
    (forall_mem_cons.mpr ⟨.inl hLabel, fun start hMem => .inr (hOpens start hMem).region⟩) fun hAhead =>
    forall_mem_cons.mpr ⟨(hAhead.next exit hLabel).2, fun start hMem => ((hOpens start hMem).safe hAhead).next⟩) hInside
  exact .landing (hThrough.mono hSub) hExit

end Text.Ground

/-- **Control gets through.** Between the sites of a flow there are only instructions as they should be, and a site is safe
to be at if the site after it is and if so are the labels around. -/
theorem Flow.crosses (hG : T.Ground Z P) {ts : List Target} {task : Task}
    (h : Flow T ts floor task s s') (hs : s.Fine Z P) (hTask : task.Typed P)
    (hExits : task.exits ⊆ labels ts) : Crosses Z P (labels ts) s s' ∧
    ∀ start ∈ task.starts, Opens Z (labels ts) start := by
  induction h with
  | dead hDead => exact ⟨.refl hs, nofun⟩
  | block hDead hScope ih => exact ⟨(ih hs hTask nofun).1, nofun⟩
  | expr hRuns =>
    refine ⟨hRuns.crosses hs fun {p p'} ⟨v, q, hv, hDrop⟩ => ?_, nofun⟩
    have hYields := expr_yields (hG.withSlots hs) Z.start hv hTask
    exact hYields.use (drop_uses hDrop hYields.marked :)
  | @decl ts floor v init e slot s s1 s' hExtent hReserve hDeclared =>
    obtain ⟨hType, hInit⟩ := Bool.and_eq_true_iff.mp hTask
    have ⟨hSlot, hPos⟩ : slot ∈ Z.base ∧ s1.pos = s.pos := by
      obtain ⟨-, k, p, -, hShape, rfl⟩ := hReserve
      obtain ⟨hPos, hSlot⟩ := reserve_spec (hG.withSlots hs) hShape
      exact ⟨hSlot Z.start, hPos⟩
    have ⟨hFine, _, _⟩ := hReserve.keeps hs
    have hFine' : Site.Fine Z P { s1 with slots := (v.id, slot) :: s1.slots } :=
      ⟨forall_mem_cons.mpr ⟨hSlot, hFine.slots⟩, hFine.scopes⟩
    -- the memory is taken in the setup: the position stays, and only the slot is new
    have hRest : Crosses Z P (labels ts) { s1 with slots := (v.id, slot) :: s1.slots } s' :=
      hDeclared.crosses hFine' fun hShape =>
        (declared_gets (hG.withSlots hFine') Z.start hShape hInit hSlot :)
    refine ⟨⟨hRest.fine, fun _ => hRest.ends fun hc => ?_, hPos ▸ hRest.fits, fun hAhead hEnd _ =>
      hPos ▸ hRest.safe hAhead hEnd hDeclared.1⟩, nofun⟩
    exact absurd (hDeclared.1.symm.trans hc) nofun
  | assign hRuns =>
    obtain ⟨hl, hr⟩ := Bool.and_eq_true_iff.mp hTask
    exact ⟨hRuns.crosses hs fun hShape =>
      (assign_gets (hG.withSlots hs) hShape hl hr :), nofun⟩
  | compound hRuns =>
    obtain ⟨hl, hr⟩ := Bool.and_eq_true_iff.mp hTask
    exact ⟨hRuns.crosses hs fun hShape =>
      (compound_gets (hG.withSlots hs) hShape hl hr :), nofun⟩
  | cond hCond _ hNo hRegion ih =>
    obtain ⟨⟨hTest, hBody⟩, -⟩ := by simpa only [Task.Typed, allTypes, Bool.and_eq_true] using hTask
    refine ⟨.landing (.trans (hG.condition_crosses hCond hs hTest (Set.mem_insert _ _)) ?_) hRegion,
      nofun⟩
    exact (ih (hCond.keeps hs).1 hBody nofun).1.mono (Set.subset_insert _ _)
  | @condElse ts floor test yes no otherwise exit s s1 s2 s3 s4 s5 s' hCond _ hNo hSkip hOther _ hEnd ihYes ihNo =>
    obtain ⟨⟨hTest, hBody⟩, hElse⟩ := by simpa only [Task.Typed, allTypes, Bool.and_eq_true] using hTask
    have hYes := (ihYes (hCond.keeps hs).1 hBody nofun).1
    exact ⟨hG.condElse_crosses hCond hs hTest hYes hSkip hOther (fun hs4 => (ihNo hs4 hElse nofun).1) hEnd, nofun⟩
  | @loop ts floor init test post body head next exit t s s1 s2 s3 s4 s5 s6 s7 s8 s' hDead hNoInit _ hHead hTest ht _
      hNoPost
      hNext _ hSkip hExit _ ihInit ihBody ihPost ihClose =>
    obtain ⟨⟨⟨hInitT, hTestT⟩, hPostT⟩, hBodyT⟩ := by
      simpa only [Task.Typed, allTypes, Bool.and_eq_true] using hTask
    have hOpened : Site.Fine Z P { s with linked := false, scopes := [] :: s.scopes } :=
      ⟨hs.slots, forall_mem_cons.mpr ⟨rfl, hs.scopes⟩⟩
    have hInit : Crosses Z P (labels ts) s s1 := by
      cases hAbsent : init.isAbsent with
      | true =>
        obtain rfl := hNoInit hAbsent
        exact .relabel (.refl hs) hOpened rfl rfl
      | false =>
        have hInit := (ihInit hAbsent hOpened hInitT nofun).1
        exact { hInit with }
    subst ht
    -- all parts are crossed inside the scope of the head, which is closed last
    have hLoop : Crosses Z P (labels ts) s1 s8 := hG.loop_crosses hExit hInit.fine hHead hTest hTestT
      (fun hs3 => (ihBody hs3 hBodyT nofun).1) hNoPost hNext (fun hAbsent hs5 => (ihPost hAbsent hs5 hPostT nofun).1) hSkip
    have hWhole := hInit.trans hLoop
    exact ⟨hWhole.trans (ihClose hWhole.fine trivial nofun).1, nofun⟩
  | @whileDo ts floor test body head exit s s1 s2 s3 s4 s' hDead hHead hCond _ hSkip hExit ih =>
    obtain ⟨hTest, hBody⟩ := by simpa only [Task.Typed, allTypes, Bool.and_eq_true] using hTask
    have hs1 := hHead.fine hs
    -- the body may jump to the labels around it, and to the head and the exit of the loop
    have hInside := (ih (hCond.keeps hs1).1 hBody nofun).1.mono labels_loop_subset
    have hBody := (hG.condition_crosses hCond hs1 hTest (Set.mem_insert _ _)).trans
      (hInside.trans (hSkip.crosses hInside.fine (.inr (.inl rfl))))
    exact ⟨.loop hHead hs (.landing hBody hExit), nofun⟩
  | @doWhile ts floor test body head next exit s s1 s2 s3 s4 s5 s' hDead hHead _ hNext hCond hJump hExit ih =>
    obtain ⟨hTest, hBody⟩ := by simpa only [Task.Typed, allTypes, Bool.and_eq_true] using hTask
    have hInside := (ih (hHead.fine hs) hBody nofun).1
    have hSub : insert exit (insert next (labels ts)) ⊆ insert next (insert exit (insert head (labels ts))) := by
      rintro k (rfl | rfl | hk)
      · exact .inr (.inl rfl)
      · exact .inl rfl
      · exact .inr (.inr (.inr hk))
    have hLanded := (hInside.mono (labels_loop_subset.trans hSub)).landing hNext
    have hTested := hLanded.trans
      (hG.condition_crosses hCond hLanded.fine hTest (Set.mem_insert _ _))
    have hBack := hTested.trans (hJump.crosses hTested.fine (.inr (.inl rfl)))
    exact ⟨.loop hHead hs (.landing hBack hExit), nofun⟩
  | @switch ts floor tag cs r starts default exit s s1 s2 s' hRuns hCode hLen hDefault hCases hExit ih =>
    obtain ⟨hTag, hCasesT⟩ := by simpa only [Task.Typed, allTypes, Bool.and_eq_true] using hTask
    have hFine := (hRuns.keeps hs).1
    obtain ⟨hInside, hOpens⟩ := ih ⟨hFine.slots, hFine.scopes⟩ hCasesT fun k hk =>
      Set.mem_singleton_iff.mp hk ▸ ⟨_, mem_cons_self, .inl rfl⟩
    -- the default is one of the cases, or the exit if there is none
    have hDefault : default ∈ exit :: starts := by
      split at hDefault
      · exact hDefault ▸ mem_cons_self
      · exact mem_cons_of_mem _ (mem_of_getElem? hDefault)
    exact ⟨hG.cases_cross hRuns hs hTag hCode hDefault hInside hOpens hExit, nofun⟩
  | breakOut hDead ht hPos _ hJump ih =>
    exact ⟨.jumpOut (ih hs trivial nofun).1 hJump ⟨_, mem_of_mem_head? ht, .inl hPos⟩, nofun⟩
  | continueLoop hDead ht hPos _ hJump ih =>
    exact ⟨.jumpOut (ih hs trivial nofun).1 hJump ⟨_, mem_of_find?_eq_some ht, .inr (.inl hPos)⟩, nofun⟩
  | fallthrough hDead ht hPos _ hJump ih =>
    exact ⟨.jumpOut (ih hs trivial nofun).1 hJump ⟨_, mem_of_mem_head? ht, .inr (.inr hPos)⟩, nofun⟩
  | @ret ts floor xs n p r s s1 s' hDead hn hReturned _ hRet ih =>
    obtain ⟨C, hC, hReads⟩ : Gets Z.start s.pos p.pos fun C => ∀ r' ∈ (Instr.ret T.sig.retReg r).reads, r' ∈ C :=
      (returned_gets (hG.withSlots hs) Z.start hReturned hTask :)
    have hLeave := (ih ⟨hs.slots, hs.scopes⟩ trivial nofun).1
    have hFits : (∀ k ∈ labels ts, T.code[k]? = some .region) → ∀ i, s.pos ≤ i → i < s1.pos → Z.FitsAt i := by
      intro hK i hLe hLt
      rcases Nat.lt_or_ge i p.pos with hi | hi
      · exact hC.fits i hLe hi
      · exact hLeave.fits hK i hi hLt
    -- the result stays where it is while the scopes are left
    have hSafe : ∀ {n W}, Ahead Z (labels ts) n W →
        (s1.dead = false → Safe T.code n (W ∪ C.regs) s1.pos) → Safe T.code n W s.pos := fun hAhead hEnd =>
      hC.safe hAhead.known (hLeave.safe (hAhead.mono Set.subset_union_left) hEnd hDead)
    refine ⟨?_, nofun⟩
    split at hRet
    · next hDead1 =>
      subst hRet
      refine ⟨⟨hLeave.fine.slots, hLeave.fine.scopes⟩, fun _ => hLeave.ends fun hc => ?_, hFits, fun hAhead _ _ =>
        hSafe hAhead fun hAlive => absurd (hAlive.symm.trans hDead1) nofun⟩
      exact absurd (hDead.symm.trans hc) nofun
    · obtain ⟨hCode, rfl⟩ := hRet
      refine ⟨⟨hLeave.fine.slots, hLeave.fine.scopes⟩, fun _ _ => ⟨_, _, rfl, hCode, rfl⟩, fun hK i hLe hLt => ?_,
        fun hAhead _ _ => hSafe hAhead fun _ => .ret hCode fun r' hr' => .inr (hReads r' hr')⟩
      rcases Nat.lt_or_ge i s1.pos with hi | hi
      · exact hFits hK i hLe hi
      · obtain rfl : i = s1.pos := by
          simp only at hLt
          omega
        exact Zone.fitsAt_ret hCode fun r' hr' => C.within (hReads r' hr')
  | @defer ts floor d ds outer s hDead hScopes =>
    have hTypes := forall_mem_cons.mp (hScopes ▸ hs.scopes)
    refine ⟨.relabel (.refl hs) ⟨hs.slots, forall_mem_cons.mpr ⟨?_, hTypes.2⟩⟩ rfl rfl, nofun⟩
    rw [listTypes_iff] at hTypes ⊢
    intro x hx
    rcases mem_append.mp hx with hx | hx
    · exact hTypes.1 x hx
    · exact mem_singleton.mp hx ▸ hTask
  | nil | stay hLe | noCases => exact ⟨.refl hs, nofun⟩
  | cons _ _ ihFirst ihRest =>
    obtain ⟨hFirst, hRest⟩ := Bool.and_eq_true_iff.mp hTask
    have hThrough := (ihFirst hs hFirst nofun).1
    exact ⟨hThrough.trans (ihRest hThrough.fine hRest nofun).1, nofun⟩
  | scope _ _ ihBody ihClose =>
    have hBody := (ihBody ⟨hs.slots, forall_mem_cons.mpr ⟨rfl, hs.scopes⟩⟩ hTask nofun).1
    have hWhole := hBody.trans (ihClose hBody.fine trivial nofun).1
    exact ⟨{ hWhole with }, nofun⟩
  | closeDead hDead =>
    exact ⟨.relabel (.refl hs) ⟨hs.slots, fun ds hds => hs.scopes ds (mem_of_mem_tail hds)⟩ rfl rfl, nofun⟩
  | close hDead _ ih =>
    have hLeave := (ih hs trivial nofun).1
    exact ⟨hLeave.relabel ⟨hLeave.fine.slots, fun ds hds => hLeave.fine.scopes ds (mem_of_mem_tail hds)⟩ rfl rfl, nofun⟩
  | @leave ts floor depth ds outer s s1 s2 hScopes hDepth _ _ ihFirst ihRest =>
    have hTypes := forall_mem_cons.mp (hScopes ▸ hs.scopes)
    -- what was deferred last comes first, and the scope stays for other ways out
    have hReversed : listTypes P ds.reverse = true := by
      rw [listTypes_iff] at hTypes ⊢
      exact fun x hx => hTypes.1 x (mem_reverse.mp hx)
    have hFirst := (ihFirst ⟨hs.slots, hTypes.2⟩ ⟨hReversed, hTypes.2⟩ nofun).1
    have hRest := (ihRest hFirst.fine trivial nofun).1
    have hFine : Site.Fine Z P { s2 with scopes := ds :: s2.scopes } :=
      ⟨hRest.fine.slots, forall_mem_cons.mpr ⟨hTypes.1, hRest.fine.scopes⟩⟩
    have hWhole := hFirst.trans (hRest.relabel hFine rfl rfl)
    exact ⟨{ hWhole with }, nofun⟩
  | undeferred => exact ⟨.relabel (.refl hs) ⟨hs.slots, hTask.2⟩ rfl rfl, nofun⟩
  | deferred _ _ ihFirst ihRest =>
    obtain ⟨hTypes, hKept⟩ := hTask
    obtain ⟨hFirst, hRest⟩ := Bool.and_eq_true_iff.mp hTypes
    have hThrough := (ihFirst hs hFirst nofun).1
    refine ⟨hThrough.trans (ihRest hThrough.fine ⟨hRest, ?_⟩ nofun).1, nofun⟩
    split
    · exact hThrough.fine.scopes
    · exact hKept
  | @case t ts floor c cs start starts exit s s1 s2 s3 s' hRegion _ hSkip hRest ihBody ihRest =>
    obtain ⟨hBodyT, hCasesT⟩ := Bool.and_eq_true_iff.mp hTask
    have hLabel : exit ∈ labels (t :: ts) := hExits rfl
    have hSub : labels ({ t with onFall := some (starts.headD exit) } :: ts) ⊆
        insert (starts.headD exit) (labels (t :: ts)) := by
      refine labels_cons_subset (subset_labels_cons.trans (Set.subset_insert _ _)) ?_
      rintro k (hk | hk | hk)
      · exact .inr ⟨t, mem_cons_self, .inl hk⟩
      · exact .inr ⟨t, mem_cons_self, .inr (.inl hk)⟩
      · exact .inl (some.inj hk).symm
    have hBody := (ihBody (hRegion.fine hs) hBodyT nofun).1.mono hSub
    have hToEnd := hBody.trans (hSkip.crosses hBody.fine (.inr hLabel))
    obtain ⟨hCases, hOpens⟩ := ihRest hToEnd.fine hCasesT hExits
    -- control that falls through goes to the next case, or past the last one
    have hCase : Crosses Z P (labels (t :: ts)) s1 s3 := by
      refine hToEnd.discharge ?_ fun hAhead => ?_ <;> refine Set.forall_mem_insert.mpr ⟨?_, ?_⟩
      · cases starts with
        | nil => exact .inl hLabel
        | cons next starts => exact .inr (hOpens next mem_cons_self).region
      · exact fun k => .inl
      · cases starts with
        | nil => exact (hAhead.next exit hLabel).2
        | cons next starts => exact ((hOpens next mem_cons_self).safe hAhead).next
      · exact fun k hk => (hAhead.next k hk).2
    have hOpen : Opens Z (labels (t :: ts)) start := by
      obtain ⟨hCode, hAlive, hStart⟩ := hRegion.opens
      exact ⟨hCode, fun hAhead =>
        hStart (hCase.safe hAhead (fun hc => absurd (hc.symm.trans hSkip.dead) nofun) hAlive)⟩
    exact ⟨(hRegion.crosses hs).trans (hCase.trans hCases), forall_mem_cons.mpr ⟨hOpen, hOpens⟩⟩

end Comptime
