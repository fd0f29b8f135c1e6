import Comptime.Proofs.Simulation.Assignments
import Comptime.Proofs.Simulation.Structure

/-!
# Statements do what they say

The code of a statement does the deeds that its execution does (`Scene.Obeys`), and control gets to where the statement
ends, or, if the statement is left before that, to the code that runs what the scopes around it have deferred
(`Scene.Departs`). There the jump out of the scopes, or the return, comes last.

A loop goes through its head once in every round, so a run that follows it for some rounds takes at least as many steps.
-/

namespace Comptime

open List Stmt

namespace Case

variable {γ : Type} {cs : List (Case γ)} {starts : List Nat}

theorem default?_eq (cs : List (Case γ)) : default? cs = Build.defaultCase? cs := by
  induction cs using reverseRecOn with
  | nil => rfl
  | append_singleton cs c ih =>
    rw [default?, Build.defaultCase?] at ih ⊢
    rw [reverse_append, mapIdx_append, reverse_append]
    simp only [reverse_singleton, singleton_append, findIdx?_cons, mapIdx_cons, mapIdx_nil,
      lookup_cons, length_append, length_singleton, Nat.add_sub_cancel]
    cases hEmpty : c.values.isEmpty with
    | true => simp
    | false =>
      simp only [Bool.false_eq_true, if_false, Option.map_map]
      rw [← ih]
      cases cs.reverse.findIdx? fun c => c.values.isEmpty with
      | none => rfl
      | some i => simp; omega

theorem arms_isEmpty (h : starts.length = cs.length) : (arms cs starts).isEmpty = cs.all (·.values.isEmpty) := by
  induction cs generalizing starts with
  | nil => cases starts <;> rfl
  | cons c cs ih =>
    cases starts with
    | nil => cases h
    | cons start starts =>
      have hRest := ih (Nat.succ.inj h)
      rw [arms, all_cons, ← hRest]
      cases c.values <;> simp

theorem find?_map_arm {vs : List Int64} {k : Int64} {t : Handle} (h : k ∈ vs) :
    (vs.map fun v => (⟨v, t⟩ : Arm)).find? (·.value == k) = some ⟨k, t⟩ := by
  induction vs with
  | nil => cases h
  | cons v vs ih =>
    rw [map_cons, find?_cons]
    by_cases hv : v = k
    · simp [hv]
    · simp only [beq_eq_false_iff_ne.mpr hv]
      exact ih ((mem_cons.mp h).resolve_left fun hEq => hv hEq.symm)

/-- The arm of a value leads to the first case that lists it. -/
theorem find?_arms (h : starts.length = cs.length) (k : Int64) :
    ((arms cs starts).find? (·.value == k)).map (·.target) =
      ((cs.findIdx? fun c => k ∈ c.values).bind (starts[·]?)).map (fun t : Nat => (t : Int)) := by
  induction cs generalizing starts with
  | nil => cases starts <;> rfl
  | cons c cs ih =>
    cases starts with
    | nil => cases h
    | cons start starts =>
      have hRest := ih (Nat.succ.inj h)
      rw [arms, find?_append, findIdx?_cons]
      by_cases hMem : k ∈ c.values
      · rw [find?_map_arm hMem]
        simp [hMem]
      · have hNone : (c.values.map fun v => (⟨v, start⟩ : Arm)).find? (·.value == k) = none := by
          simp only [find?_eq_none, mem_map, beq_iff_eq]
          rintro _ ⟨v, hv, rfl⟩ rfl
          exact hMem hv
        rw [hNone, Option.none_or, hRest, if_neg (by simpa using hMem)]
        cases cs.findIdx? fun c => k ∈ c.values <;> rfl

end Case

namespace Scene

variable {E : Scene} {α β : Type} {n : Nat} {f0 f f' : Frame} {Q : α → Frame → Prop} {l : List (Nat × Reg)}
  {p p' : Point} {r : Reg} {x : Eval α}

/-! ## Rounds -/

/-- What holds after a round of a loop, which is over or goes on. -/
def Round (Q : α → Frame → Prop) (I : Frame → Prop) : Option α → Frame → Prop
  | some a => Q a
  | none => I

/-- Rounds of a loop, each of which starts at a region. -/
theorem repeated_does {c head : Nat} {x : Eval (Option α)} {I : Frame → Prop} (hHead : E.text.code[head]? = some .region)
    (hI : ∀ f, I f → f.pos = head) (hc : c ≤ n)
    (hRound : ∀ f, I f → E.Does n f.next x (Round Q I)) (hf : I f) :
    E.Does c f (Eval.repeated c x) Q := by
  induction c generalizing f with
  | zero => exact fun w m hw => ⟨0, le_rfl, rfl, m, f, [], hw.run⟩
  | succ c ih =>
    refine .advance (hI f hf) hHead rfl (fun _ _ => rfl) (fun hFits => hFits.next) ?_
    refine ((hRound f hf).mono (by omega)).bind fun o f' _ ho => ?_
    cases o with
    | none => exact ih (by omega) ho
    | some a => exact .pure fun _ => ho

/-- A condition leads on if it holds, and to its other place if not. -/
theorem condition_does {x : Expr} {no : Nat} {c : Bool → Eval α} (h : Shape.condition x (E.seen l) p no p')
    (hf : E.Rests p f) (hVars : ∀ i ∈ x.vars, E.Knows l i)
    (hNext : ∀ (b : Bool) f', f.Keeps p.next f' → E.Fits f' → f'.pos = ((if b then p'.pos else no : Nat) : Int) →
      E.Does n f' (c b) Q) : E.Does n f (x.holds E.setting >>= c) Q := by
  obtain ⟨v, s, ⟨res, _, hResults, rfl, rfl⟩, h⟩ := h
  have hPresent : x.isAbsent = false := by
    cases x with
    | absent => exact hResults.elim
    | _ => rfl
  rw [Expr.holds, hPresent]
  simp only [Bool.false_eq_true, if_false, Expr.value, bind_assoc, pure_bind]
  refine (results_does x hResults hf hVars).bind fun o f1 _ hLands => ?_
  -- a value is compared with zero, while a pending one has its two paths already
  have hBranch : ∀ {r s'}, Shape.value res.1 (E.seen l) s r s' → (do return (← Shape.branchFalse r).2) (E.seen l) s' no p' →
      E.Does n f1 (do
        let y ← o.value E.setting
        let y ← Eval.demand y
        c (y != 0)) Q := by
    rintro r s' hValue ⟨⟨yes, no⟩, _, hBranch, rfl, rfl⟩
    obtain ⟨hCode, hRegion, rfl, rfl⟩ := Shape.branchFalse_iff.mp hBranch
    refine value_does hValue hLands fun y f2 hr => branch_does hr.pos hCode hr.reg fun y _ => ?_
    by_cases hZero : y = 0
    · have hFalse : (y != 0) = false := by simp [hZero]
      rw [if_pos hZero, hFalse]
      exact hNext false _ hr.keeps hr.fits.goto rfl
    · have hTrue : (y != 0) = true := by simp [hZero]
      rw [if_neg hZero, hTrue]
      exact region_does rfl hRegion (hNext true _ hr.keeps hr.fits.goto.next rfl)
  generalize res.1 = v at h hLands hBranch
  cases v with
  | pending t q =>
    obtain ⟨b, rfl, hForked⟩ := hLands
    obtain ⟨_, _, rfl, _, _, hSettle, rfl, rfl⟩ := h
    obtain ⟨-, -, rfl⟩ := Shape.settle_iff.mp hSettle
    change E.Does n f1 (c (Word.flag b != 0)) Q
    rw [flag_ne_zero]
    refine settle_does hSettle hForked fun f2 hSpares hFits hPos2 => ?_
    cases b with
    | false => exact hNext false f2 hSpares.keeps hFits hPos2
    | true =>
      refine region_does hPos2 hForked.marked.merge (hNext true _ hSpares.keeps hFits.next ?_)
      rw [Frame.next, hPos2, if_pos rfl, hForked.merge]
      rfl
  | _ =>
    obtain ⟨r, s', hValue, hRest⟩ := h
    exact hBranch hValue hRest

/-! ## Leaving -/

variable {floor depth pos : Nat} {s s' : Site} {ts : List Target} {w : Ways} {ds : List Stmt}
  {scopes outer : List (List Stmt)}
  {arrive arrive' : Frame → Prop} {e : Exit} {v : UInt64}

/-- What a scope runs when it is left. -/
def due (E : Scene) (ds : List Stmt) : List (Eval Exit) := ds.reverse.map (exec E.setting)

/-- Control is at a site that can be reached. -/
structure At (E : Scene) (s : Site) (f : Frame) : Prop where
  live : s.dead = false
  pos : f.pos = s.pos
  fits : E.Fits f

/-- Control has got there from a frame, leaving registers below `floor` alone. -/
structure Arrived (E : Scene) (floor : Nat) (s : Site) (f f' : Frame) : Prop where
  here : E.At s f'
  keeps : f.Keeps floor f'

/-- Control has got to a position from a frame, leaving registers below `floor` alone. -/
structure Reaches (E : Scene) (floor : Nat) (f : Frame) (pos : Nat) (f' : Frame) : Prop where
  pos : f'.pos = pos
  keeps : f.Keeps floor f'
  fits : E.Fits f'

/-- Control is at a jump. -/
structure JumpsTo (E : Scene) (floor : Nat) (f : Frame) (pos : Nat) (f' : Frame) : Prop where
  code : ∃ i : Nat, f'.pos = i ∧ E.text.code[i]? = some (.branch noReg [] pos)
  keeps : f.Keeps floor f'
  fits : E.Fits f'

/-- Control is at a return. -/
def Returns (E : Scene) (v : UInt64) (f' : Frame) : Prop :=
  ∃ (i : Nat) (r : Reg), f'.pos = i ∧ E.text.code[i]? = some (.ret E.text.sig.retReg r) ∧
    (r = noReg ∧ v = 0 ∨ f'.reg? r = some v)

/-- Control is where the scopes deeper than `depth` run what they have deferred, one after the other. -/
def Departs (E : Scene) (n : Nat) (arrive : Frame → Prop) (depth : Nat) : List (List Stmt) → Frame → Prop
  | [], f => arrive f
  | ds :: outer, f =>
    if depth ≤ outer.length then E.Does n f (runAll (E.due ds)) fun _ f' => E.Departs n arrive depth outer f'
    else arrive f

/-- Where control is after a statement, by the way it has left it. -/
def After (E : Scene) (n : Nat) (ts : List Target) (w : Ways) (floor : Nat) (scopes : List (List Stmt)) (s' : Site)
    (f : Frame) :
    Exit → Frame → Prop
  | .done, f' => E.Arrived floor s' f f'
  | .broke, f' => w.brk = true ∧ ∃ t pos, ts.head? = some t ∧ t.onBreak = some pos ∧
    E.Departs n (E.JumpsTo floor f pos) t.depth scopes f'
  | .continued, f' => w.cont = true ∧ ∃ t pos, ts.find? (·.isLoop) = some t ∧ t.onContinue = some pos ∧
    E.Departs n (E.JumpsTo floor f pos) t.depth scopes f'
  | .fell, f' => w.fall = true ∧ ∃ t pos, ts.head? = some t ∧ t.onFall = some pos ∧
    E.Departs n (E.JumpsTo floor f pos) t.depth scopes f'
  | .returned v, f' => w.ret = true ∧ E.Departs n (E.Returns v) 0 scopes f'

namespace Departs

theorem imp (h : E.Departs n arrive depth scopes f) (hImp : ∀ f, arrive f → arrive' f) :
    E.Departs n arrive' depth scopes f := by
  induction scopes generalizing f with
  | nil => exact hImp f h
  | cons ds outer ih =>
    rw [Departs] at h ⊢
    split
    · next hDepth =>
      rw [if_pos hDepth] at h
      exact Does.imp h fun _ f' _ h' => ih h'
    · next hDepth =>
      rw [if_neg hDepth] at h
      exact hImp f h

theorem arrived (h : E.Departs n arrive depth scopes f) (hDepth : scopes.length ≤ depth) : arrive f := by
  cases scopes with
  | nil => exact h
  | cons ds outer =>
    rw [Departs, if_neg (by rw [length_cons] at hDepth; omega)] at h
    exact h

theorem of_arrived (h : arrive f) (hDepth : scopes.length ≤ depth) : E.Departs n arrive depth scopes f := by
  cases scopes with
  | nil => exact h
  | cons ds outer =>
    rw [Departs, if_neg (by rw [length_cons] at hDepth; omega)]
    exact h

theorem close (h : E.Departs n arrive depth (ds :: outer) f) (hDepth : depth ≤ outer.length) :
    E.Does n f (runAll (E.due ds)) fun _ f' => E.Departs n arrive depth outer f' := by
  rwa [Departs, if_pos hDepth] at h

end Departs

theorem JumpsTo.does (h : E.JumpsTo floor f0 pos f)
    (hNext : E.Reaches floor f0 pos (f.goto pos) → E.Does n (f.goto pos) x Q) : E.Does n f x Q := by
  obtain ⟨⟨i, hPos, hCode⟩, hKeeps, hFits⟩ := h
  exact jump_does hPos hCode (hNext ⟨rfl, hKeeps, hFits.goto⟩)

theorem JumpsTo.since (h : E.JumpsTo floor f pos f') (hKeeps : f0.Keeps floor f) : E.JumpsTo floor f0 pos f' :=
  ⟨h.code, hKeeps.trans h.keeps le_rfl, h.fits⟩

theorem Arrived.since (h : E.Arrived floor s f f') (hKeeps : f0.Keeps floor f) : E.Arrived floor s f0 f' :=
  ⟨h.here, hKeeps.trans h.keeps le_rfl⟩

theorem Arrived.reaches (h : E.Arrived floor s f f') : E.Reaches floor f s.pos f' := ⟨h.here.pos, h.keeps, h.here.fits⟩

theorem Reaches.since (h : E.Reaches floor f pos f') (hKeeps : f0.Keeps floor f) : E.Reaches floor f0 pos f' :=
  ⟨h.pos, hKeeps.trans h.keeps le_rfl, h.fits⟩

namespace After

theorem since (h : E.After n ts w floor scopes s' f e f') (hKeeps : f0.Keeps floor f) :
    E.After n ts w floor scopes s' f0 e f' := by
  cases e with
  | done => exact Arrived.since h hKeeps
  | broke | continued | fell =>
    obtain ⟨hw, t, pos, ht, hPos, hDeparts⟩ := h
    exact ⟨hw, t, pos, ht, hPos, hDeparts.imp fun _ hJump => hJump.since hKeeps⟩
  | returned v => exact h

/-- It does not matter where the statement ends that was left before. -/
theorem early {s1 : Site} (h : E.After n ts w floor scopes s1 f e f') (he : e ≠ .done) :
    E.After n ts w floor scopes s' f e f' := by
  cases e with
  | done => exact absurd rfl he
  | _ => exact h

/-- The innermost scope runs what it has deferred. -/
theorem close (h : E.After n ts w floor (ds :: outer) s' f e f') (he : e ≠ .done) (hPermits : w.Permits ts outer.length) :
    E.Does n f' (runAll (E.due ds)) fun _ f'' => E.After n ts w floor outer s' f e f'' := by
  cases e with
  | done => exact absurd rfl he
  | broke =>
    obtain ⟨hw, t, pos, ht, hPos, hDeparts⟩ := h
    exact (hDeparts.close (hPermits.first (.inl hw) t ht)).imp fun _ f'' _ h'' => ⟨hw, t, pos, ht, hPos, h''⟩
  | continued =>
    obtain ⟨hw, t, pos, ht, hPos, hDeparts⟩ := h
    exact (hDeparts.close (hPermits.loop hw t ht)).imp fun _ f'' _ h'' => ⟨hw, t, pos, ht, hPos, h''⟩
  | fell =>
    obtain ⟨hw, t, pos, ht, hPos, hDeparts⟩ := h
    exact (hDeparts.close (hPermits.first (.inr hw) t ht)).imp fun _ f'' _ h'' => ⟨hw, t, pos, ht, hPos, h''⟩
  | returned v =>
    obtain ⟨hw, hDeparts⟩ := h
    exact (hDeparts.close (Nat.zero_le _)).imp fun _ f'' _ h'' => ⟨hw, h''⟩

end After

/-- The dispatch of a switch leads to the case that is selected, or past all cases. -/
theorem dispatch_does {cs : List (Case Stmt)} {starts : List Nat} {i default exit : Nat} {y : Option UInt64}
    {c : Option Nat → Eval α} (hPos : f.pos = i)
    (hx : E.text.code[i]? = some (.branch r (Case.arms cs starts) (default : Nat))) (hLen : starts.length = cs.length)
    (hDefault : match Build.defaultCase? cs with | none => default = exit | some j => starts[j]? = some default)
    (hy : f.reg? r = y)
    (hNext : ∀ o t, (match o with | none => t = exit | some j => starts[j]? = some t) → E.Does n (f.goto t) (c o) Q) :
    E.Does n f (Case.select cs y >>= c) Q := by
  have hEmpty := Case.arms_isEmpty hLen
  have hStep : ∀ {o : Option Nat} {t : Nat}, f.target? r (Case.arms cs starts) default = some (t : Int) →
      (match o with | none => t = exit | some j => starts[j]? = some t) → E.Does n f (c o) Q := by
    intro o t hTarget ht
    refine .step hPos hx rfl (fun m _ => ?_) (fun hFits => hFits.goto) (hNext o t ht)
    simp only [Machine.exec, hTarget]
    rfl
  rw [← Case.default?_eq] at hDefault
  rw [Case.select, ← hEmpty]
  cases hArms : (Case.arms cs starts).isEmpty with
  | true =>
    -- a branch without arms does not read its register
    simp only [if_true, pure_bind]
    refine hStep ?_ hDefault
    rw [Frame.target?, hArms]
    rfl
  | false =>
    simp only [Bool.false_eq_true, if_false, bind_assoc, pure_bind]
    refine .demand (fun v hv => ?_) fun hNone => ?_
    · have hFind := Case.find?_arms hLen v.toInt64
      cases hIdx : cs.findIdx? fun c => v.toInt64 ∈ c.values with
      | some j =>
        obtain ⟨hLt, -⟩ := findIdx?_eq_some_iff_getElem.mp hIdx
        obtain ⟨start, hStart⟩ : ∃ start, starts[j]? = some start := ⟨_, getElem?_eq_getElem (hLen ▸ hLt)⟩
        rw [hIdx, Option.bind_some, hStart, Option.map_some] at hFind
        obtain ⟨a, ha, hTarget⟩ := Option.map_eq_some_iff.mp hFind
        refine hStep ?_ hStart
        simp only [Frame.target?, hArms, hy, hv, Option.map_some, ha, hTarget, Bool.false_eq_true, if_false]
      | none =>
        rw [hIdx, Option.bind_none, Option.map_none, Option.map_eq_none_iff] at hFind
        refine hStep ?_ hDefault
        simp only [Frame.target?, hArms, hy, hv, Option.map_some, hFind, Bool.false_eq_true, if_false]
    · refine .halts hPos hx rfl fun m _ => ?_
      simp only [Machine.exec, Frame.target?, hArms, hy, hNone]
      exact exists_halted

/-! ## Flows -/

variable {cs : List (Case Stmt)} {t : Target}

/-- Where control is after the cases of a switch: past them, unless it has left the switch. -/
def AfterCases (E : Scene) (n : Nat) (ts : List Target) (w : Ways) (floor : Nat) (scopes : List (List Stmt)) (exit : Nat)
    (f : Frame) (e : Exit) (f' : Frame) : Prop :=
  if e.ofSwitch = .done then E.Reaches floor f exit f' else ∀ s', E.After n ts w floor scopes s' f e f'

theorem AfterCases.since (h : E.AfterCases n ts w floor scopes pos f e f') (hKeeps : f0.Keeps floor f) :
    E.AfterCases n ts w floor scopes pos f0 e f' := by
  rw [AfterCases] at h ⊢
  split
  · next he =>
    rw [if_pos he] at h
    exact h.since hKeeps
  · next he =>
    rw [if_neg he] at h
    exact fun s' => (h s').since hKeeps

/-- The code between two sites does what the task says. -/
def Obeys (E : Scene) (n : Nat) (ts : List Target) (floor : Nat) (s s' : Site) : Task → Prop
  | .stmt x => x.isDefer = false → ∀ w f, x.stays w = true → w.Permits ts s.scopes.length → E.At s f →
    E.Does n f (x.exec E.setting) (E.After n ts w floor s.scopes s' f)
  | .stmts xs => ∀ w ds outer f, s.scopes = ds :: outer → listStays w xs = true → w.Permits ts outer.length → E.At s f →
    E.Does n f (execList E.setting xs (E.due ds)) fun r f' => ∃ ds', r.2 = E.due ds' ∧
      (r.1 = .done → s'.scopes = ds' :: outer) ∧ E.After n ts w floor (ds' :: outer) s' f r.1 f'
  | .scope xs => ∀ w f, listStays w xs = true → w.Permits ts s.scopes.length → E.At s f →
    E.Does n f (closing (execList E.setting xs [])) (E.After n ts w floor s.scopes s' f)
  | .close => ∀ ds outer f, s.scopes = ds :: outer → E.At s f →
    E.Does n f (runAll (E.due ds)) fun _ f' => E.Arrived floor s' f f'
  | .leave depth => ∀ (arrive : Frame → Prop) f, E.At s f → (∀ f', E.Arrived floor s' f f' → arrive f') →
    E.Departs n arrive depth s.scopes f
  | .deferred ds kept => s.scopes = kept → ∀ f, E.At s f →
    E.Does n f (runAll (ds.map (exec E.setting))) fun _ f' => E.Arrived floor s' f f'
  | .cases cs starts exit => ∀ t outer w, ts = t :: outer → t.isLoop = false → t.onBreak = some exit →
    t.depth = s.scopes.length → casesStay w.inSwitch cs = true → w.Permits outer s.scopes.length →
    ∀ (j start : Nat) (f : Frame), starts[j]? = some start → f.pos = start → E.Fits f →
    E.Does n f (fallFrom ((execCases E.setting cs).drop j)) (E.AfterCases n outer w floor s.scopes exit f)

/-- What is left of a round when its body has been left: `more`, if the loop goes on. -/
def ofRound (more : Eval (Option Exit)) : Option Exit → Eval (Option Exit)
  | none => more
  | some e => return some e

/-- The body of a loop has been left: the loop goes on, or ends, or control leaves both. -/
theorem round_does {x : Eval Exit} {c : Option Exit → Eval α}
    (hBody : E.Does n f x (E.After n (t :: ts) w.inLoop floor scopes s' f))
    (hLoop : t.isLoop = true) (hFall : t.onFall = none) (hDepth : scopes.length ≤ t.depth)
    (hDone : ∀ f', E.Arrived floor s' f f' → E.Does n f' (c none) Q)
    (hContinue : ∀ f' pos, t.onContinue = some pos → E.Reaches floor f pos f' → E.Does n f' (c none) Q)
    (hBreak : ∀ f' pos, t.onBreak = some pos → E.Reaches floor f pos f' → E.Does n f' (c (some .done)) Q)
    (hReturn : ∀ f' v, w.ret = true → E.Departs n (E.Returns v) 0 scopes f' → E.Does n f' (c (some (.returned v))) Q) :
    E.Does n f (x >>= fun e => c e.ofLoop) Q := by
  refine hBody.bind fun e f1 _ hAfter => ?_
  cases e with
  | done => exact hDone f1 hAfter
  | broke =>
    obtain ⟨-, _, pos, ht, hPos, hDeparts⟩ := hAfter
    obtain rfl := Option.some.inj ht
    exact (hDeparts.arrived hDepth).does (hBreak _ pos hPos)
  | continued =>
    obtain ⟨-, _, pos, ht, hPos, hDeparts⟩ := hAfter
    rw [find?_cons_of_pos hLoop] at ht
    obtain rfl := Option.some.inj ht
    exact (hDeparts.arrived hDepth).does (hContinue _ pos hPos)
  | fell =>
    obtain ⟨-, _, pos, ht, hPos, -⟩ := hAfter
    obtain rfl := Option.some.inj ht
    cases hFall.symm.trans hPos
  | returned v => exact hReturn f1 v hAfter.1 hAfter.2

/-- Control that has left the statements of a scope runs what the scope has deferred. -/
theorem closing_does {x : Eval (Exit × List (Eval Exit))} {s1 : Site}
    (hBody : E.Does n f x fun r f' => ∃ ds', r.2 = E.due ds' ∧ (r.1 = .done → s1.scopes = ds' :: outer) ∧
      E.After n ts w floor (ds' :: outer) s1 f r.1 f')
    (hPermits : w.Permits ts outer.length)
    (hClose : ∀ ds outer f, s1.scopes = ds :: outer → E.At s1 f →
      E.Does n f (runAll (E.due ds)) fun _ f' => E.Arrived floor s' f f') :
    E.Does n f (closing x) (E.After n ts w floor outer s' f) := by
  refine hBody.bind fun r f1 _ ⟨ds', hDue, hScopes, hAfter⟩ => ?_
  obtain ⟨e, dyn⟩ := r
  simp only at hDue hScopes hAfter ⊢
  subst hDue
  by_cases he : e = .done
  · subst he
    have hArrived : E.Arrived floor s1 f f1 := hAfter
    refine (hClose ds' outer f1 (hScopes rfl) hArrived.here).bind fun _ f2 _ h2 => ?_
    exact .pure fun _ => h2.since hArrived.keeps
  · exact (hAfter.close he hPermits).bind fun _ f2 _ h2 => .pure fun _ => h2.early he

end Scene

end Comptime
