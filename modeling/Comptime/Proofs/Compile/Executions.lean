import Comptime.Proofs.Compile.Effects

/-!
# Executions at compile time

Along a compilation the machine has the code of every declaration that was built, provided that no two declarations have
code of the same name. Code is executed only when it is ready, and once (`Consistent`).
-/

namespace Comptime

open List Option Phase

namespace Compile

open Scheduler

variable {decls : List Decl} {options : Options} {d : Decl} {b : Built}
variable {i : Nat} {d' : Decl}

/-- The state of a compilation, and the calls of its handler. -/
abbrev Recorded := State × List (Call Nat State)

/-- Everything that the code of a declaration may reach is there when the call executes it. -/
structure Supplied (c : Call Nat State) (d : Decl) (b : Built) : Prop where
  /-- The machine has the code. -/
  own : c.world.own.machine.proc? b.proc.name = some b.proc
  /-- It has the code of all procedures that can be reached. -/
  callees : ∀ b', Relation.ReflTransGen (CallsCode c.world.own) b b' → ∀ p ∈ b'.callees,
    ∃ b'', c.world.own.built.lookup p.id = some b'' ∧ c.world.own.machine.proc? b''.proc.name = some b''.proc
  /-- The globals they use have run. -/
  globals : ∀ b', Relation.ReflTransGen (CallsCode c.world.own) b b' → ∀ g ∈ b'.globals, g.id ≠ d.id →
    Arrived c.world (g.id, .run)

/-- The code is that of a declaration that has been built, and the machine has it. -/
def Placed (decls : List Decl) (st : State) (phase : Nat → Phase) (k : Nat) (b : Built) : Prop :=
  ∃ (i : Nat) (d : Decl), decls[i]? = some d ∧ d.id = k ∧ .bytecodeBuilt ≤ phase i ∧ codeName? decls d = some b.proc.name ∧
    st.machine.proc? b.proc.name = some b.proc

/-- The values are those of the directives that have run, one for each. -/
structure RunsOf (decls : List Decl) (phase : Nat → Phase) (runs : List RunResult) : Prop where
  nodup : (runs.map (·.name)).Nodup
  mem : ∀ name, name ∈ runs.map (·.name) ↔
    ∃ (i id : Nat) (x : Expr), decls[i]? = some (.run id x) ∧ phase i = .run ∧ name = runName decls id

/-- The state and the calls that have been made fit the phases that declarations have reached. -/
structure Accounts (decls : List Decl) (st : State) (calls : List (Call Nat State)) (phase : Nat → Phase) : Prop where
  known : ∀ k b, (k, b) ∈ st.built → Placed decls st phase k b
  code : ∀ {i : Nat} {d}, decls[i]? = some d → (codeName? decls d).isSome → .bytecodeBuilt ≤ phase i →
    (st.built.lookup d.id).isSome
  range : ∀ c ∈ calls, c.id < c.world.pool.size
  supplied : ∀ c ∈ calls, ∀ d b, Executes decls c d b → Supplied c d b
  once : calls.Pairwise fun c c' => ∀ d b d' b', Executes decls c d b → Executes decls c' d' b' → d.id ≠ d'.id
  done : ∀ {i : Nat} {d}, decls[i]? = some d → isExecuted d = true → (codeName? decls d).isSome → phase i = .run →
    ∃ c ∈ calls, ∃ b, Executes decls c d b
  runs : RunsOf decls phase st.runs

/-- What holds along a compilation. -/
structure Consistent (decls : List Decl) (w : World Nat Recorded) : Prop
    extends Accounts decls w.own.1 w.own.2 fun i => (w.pool.entity i).phase where
  handled : ∀ {q}, Queues.Attempts q → q ∈ w.scheduler.handled
  pending : ∀ {i : Nat} {d}, decls[i]? = some d → (w.pool.entity i).phase < .run → (w.pool.entity i).failed = false →
    ∀ c ∈ w.own.2, ∀ d' b, Executes decls c d' b → d'.id ≠ d.id

theorem Consistent.unmoved {w w' : World Nat Recorded} (h : Consistent decls w) (hSame : Unmoved w w') :
    Consistent decls w' := by
  refine ⟨?_, ?_, fun hd hLow hLive => ?_⟩
  · simp only [hSame.own, hSame.phase]
    exact h.toAccounts
  · rw [hSame.handled]
    exact h.handled
  · rw [hSame.own]
    exact h.pending hd (hSame.phase _ ▸ hLow) (hSame.failed _ hLive)

/-! ## One attempt -/

theorem eq_of_id (hIds : (decls.map (·.id)).Nodup) {j : Nat} (hd : decls[i]? = some d) (hd' : decls[j]? = some d')
    (hEq : d.id = d'.id) : i = j := by
  have hi : (decls.map (·.id))[i]? = some d.id := by rw [List.getElem?_map, hd]; rfl
  have hj : (decls.map (·.id))[j]? = some d.id := by rw [List.getElem?_map, hd', hEq]; rfl
  exact (List.getElem?_inj (List.getElem?_eq_some_iff.mp hi).1 hIds).mp (hi.trans hj.symm)

/-- No two declarations have code of the same name. -/
def DistinctCode (decls : List Decl) : Prop := ∀ {i j : Nat} {d d' : Decl} {name : String}, decls[i]? = some d →
  decls[j]? = some d' → codeName? decls d = some name → codeName? decls d' = some name → i = j

/-- A declaration attempts the phase after the one it has reached. -/
structure Trial (options : Options) (decls : List Decl) (p : Phase) (me : Nat) (d : Decl) (w w' : World Nat Recorded)
    (r : Except Failure Unit) (st : State) : Prop extends Attempts (handler options decls) p me w w' r st where
  checker : options.Reachable
  decl : decls[me]? = some d
  stands : declared decls (w.settled me).unlisted me = some d
  size : me < (w.settled me).unlisted.pool.size
  succ : p = (w.pool.entity me).phase.succ
  attempts : Queues.Attempts p

namespace Trial

variable {p : Phase} {me : Nat} {w w' : World Nat Recorded} {r : Except Failure Unit} {st : State}
  (h : Trial options decls p me d w w' r st)

include h

theorem effect : Effect decls p d w.own.1 st r := by
  rcases h.answer with ⟨v, hRun, hOwn⟩ | ⟨⟨s, rfl⟩, rfl⟩
  · subst hOwn
    exact handler_effect h.checker h.size h.stands hRun
  · -- an attempt that is aborted has done nothing
    exact .same nofun nofun rfl (fun _ => rfl) rfl

theorem phase_of_ne (hi : i ≠ me) : (w'.pool.entity i).phase = (w.pool.entity i).phase := by
  rw [h.phase, if_neg fun hc => hi hc.1]

theorem phase_of_ok (hr : r = .ok ()) : (w'.pool.entity me).phase = p := by
  rw [h.phase, if_pos ⟨rfl, hr ▸ rfl⟩]

theorem phase_of_error (hr : r ≠ .ok ()) (i : Nat) : (w'.pool.entity i).phase = (w.pool.entity i).phase := by
  rw [h.phase, if_neg]
  rintro ⟨-, hOk⟩
  rcases r with f | ⟨⟩
  · cases hOk
  · exact hr rfl

/-- A declaration whose phase is another one now is the one that has made the attempt. -/
theorem of_phase_ne (hd' : decls[i]? = some d') (hNe : (w'.pool.entity i).phase ≠ (w.pool.entity i).phase) :
    i = me ∧ d' = d ∧ r = .ok () := by
  have hMe : i = me := by
    by_contra hi
    exact hNe (h.phase_of_ne hi)
  subst hMe
  refine ⟨rfl, some.inj (hd'.symm.trans h.decl), ?_⟩
  by_contra hr
  exact hNe (h.phase_of_error hr i)

theorem phase_lt : (w.pool.entity me).phase < p := by
  rw [h.succ, Phase.succ]
  exact Int.lt_succ _

theorem phase_ne_run : (w.pool.entity me).phase ≠ .run := by
  intro hRun
  have hLt := h.phase_lt
  have hMost : p.rank ≤ 5 := h.attempts.2
  rw [hRun, lt_iff] at hLt
  exact absurd hLt (Int.not_lt.mpr hMost)

theorem phase_le (i : Nat) : (w.pool.entity i).phase ≤ (w'.pool.entity i).phase := by
  by_cases hr : r = .ok ()
  · by_cases hi : i = me
    · subst hi
      rw [h.phase_of_ok hr]
      exact Int.le_of_lt h.phase_lt
    · rw [h.phase_of_ne hi, le_iff]
  · rw [h.phase_of_error hr, le_iff]

/-- The call executes the code of the declaration that attempts the phase, and of no other. -/
theorem eq_of_executes (hExec : Executes decls ⟨p, me, (w.settled me).unlisted⟩ d' b) :
    d' = d ∧ p = .run :=
  ⟨some.inj (hExec.decl.symm.trans h.stands), hExec.phase⟩

/-! ## What one attempt keeps -/

variable (hJ : Consistent decls w)

include hJ

theorem known (hDistinct : DistinctCode decls) (k : Nat) (b : Built) (hb : (k, b) ∈ st.built) :
    Placed decls st (fun i => (w'.pool.entity i).phase) k b := by
  -- what was built before, if the machine still has it
  have hOld (hb : (k, b) ∈ w.own.1.built) (hMachine : (∃ i d, decls[i]? = some d ∧ .bytecodeBuilt ≤ (w.pool.entity i).phase ∧
      codeName? decls d = some b.proc.name) → st.machine.proc? b.proc.name = w.own.1.machine.proc? b.proc.name) :
      Placed decls st (fun i => (w'.pool.entity i).phase) k b := by
    obtain ⟨i, d', hd', hId, hPhase, hName, hProc⟩ := hJ.known k b hb
    exact ⟨i, d', hd', hId, Int.le_trans hPhase (h.phase_le i), hName, (hMachine ⟨i, d', hd', hPhase, hName⟩).trans hProc⟩
  cases h.effect with
  | same _ _ hBuilt hMachine _ => exact hOld (hBuilt ▸ hb) fun _ => hMachine _
  | ran _ _ _ _ hBuilt hMachine _ => exact hOld (hBuilt ▸ hb) fun _ => hMachine _
  | built b0 hp hr hName hBuilt hMachine _ =>
    rw [hBuilt] at hb
    rcases mem_cons.mp hb with hEq | hb
    · cases hEq
      refine ⟨me, d, h.decl, rfl, ?_, hName, (hMachine _).trans (if_pos rfl)⟩
      show _ ≤ (w'.pool.entity me).phase
      rw [h.phase_of_ok hr, hp, le_iff]
    · refine hOld hb ?_
      rintro ⟨i, d', hd', hPhase, hName'⟩
      rw [hMachine, if_neg]
      intro hEq
      -- the declaration has not been built before
      obtain rfl := hDistinct hd' h.decl (hEq ▸ hName') hName
      have hBefore := h.phase_lt
      rw [hp] at hBefore
      exact absurd hPhase (Int.not_le.mpr hBefore)

theorem code (hd' : decls[i]? = some d') (hCode : (codeName? decls d').isSome)
    (hPhase : .bytecodeBuilt ≤ (w'.pool.entity i).phase) : (st.built.lookup d'.id).isSome := by
  -- code stays
  have hOld (hBuilt : (w.own.1.built.lookup d'.id).isSome) : (st.built.lookup d'.id).isSome := by
    cases h.effect with
    | same _ _ hSame _ _ => rwa [hSame]
    | ran _ _ _ _ hSame _ _ => rwa [hSame]
    | built b0 _ _ _ hNew _ _ =>
      rw [hNew, lookup_cons]
      split
      · rfl
      · exact hBuilt
  by_cases hPast : .bytecodeBuilt ≤ (w.pool.entity i).phase
  · exact hOld (hJ.code hd' hCode hPast)
  · -- the declaration has just been built
    obtain ⟨rfl, rfl, hr⟩ := h.of_phase_ne hd' fun hEq => hPast (hEq ▸ hPhase)
    have hp : p = .bytecodeBuilt := by
      rw [h.phase_of_ok hr] at hPhase
      refine Phase.ext_rank ?_
      have hSucc := congrArg Phase.rank h.succ
      simp only [Phase.le_iff, Phase.succ] at hPast hPhase hSucc
      omega
    cases h.effect with
    | same hNone _ _ _ _ =>
      rw [hNone hp hr] at hCode
      cases hCode
    | built b0 _ _ _ hNew _ _ => simp [hNew]
    | ran _ hLast _ _ _ _ _ => cases hp.symm.trans hLast

theorem supplied (hExec : Executes decls ⟨p, me, (w.settled me).unlisted⟩ d' b) :
    Supplied ⟨p, me, (w.settled me).unlisted⟩ d' b := by
  have hKnown {k : Nat} {b : Built} (hb : w.own.1.built.lookup k = some b) :
      w.own.1.machine.proc? b.proc.name = some b.proc := by
    obtain ⟨l, l', hSplit, -⟩ := lookup_eq_some_iff.mp hb
    obtain ⟨-, -, -, -, -, -, hProc⟩ := hJ.known k b (by rw [hSplit]; simp)
    exact hProc
  obtain ⟨u, hReady⟩ := hExec.ready
  obtain ⟨-, hAll⟩ := ready_spec h.size hReady
  refine ⟨hKnown hExec.built, fun b' hReach p hp => ?_, fun b' hReach g hg hOther => (hAll b' hReach).2 g hg hOther⟩
  obtain ⟨-, b'', hb''⟩ := (hAll b' hReach).1 p hp
  exact ⟨b'', hb'', hKnown hb''⟩

/-- Before a declaration has run its code was not executed. -/
theorem not_executed (hp : p = .run) {c : Call Nat State}
    (hc : c ∈ w.own.2) (hExec : Executes decls c d' b) : d'.id ≠ d.id :=
  hJ.pending h.decl (hp ▸ h.phase_lt) h.live c hc d' b hExec

theorem once :
    (w.own.2 ++ [(⟨p, me, (w.settled me).unlisted⟩ : Call Nat State)]).Pairwise fun c c' =>
      ∀ d b d' b', Executes decls c d b → Executes decls c' d' b' → d.id ≠ d'.id := by
  rw [pairwise_append]
  refine ⟨hJ.once, pairwise_singleton .., fun c hc c' hc' d1 b1 d2 b2 h1 h2 => ?_⟩
  obtain rfl := mem_singleton.mp hc'
  obtain ⟨rfl, hp⟩ := h.eq_of_executes h2
  exact h.not_executed hJ hp hc h1

theorem pending (hIds : (decls.map (·.id)).Nodup) {d1 : Decl}
    (hd1 : decls[i]? = some d1) (hLow : (w'.pool.entity i).phase < .run) (hLive : (w'.pool.entity i).failed = false)
    (c : Call Nat State) (hc : c ∈ w.own.2 ++ [⟨p, me, (w.settled me).unlisted⟩]) (d' : Decl) (b : Built)
    (hExec : Executes decls c d' b) : d'.id ≠ d1.id := by
  rcases mem_append.mp hc with hc | hc
  · exact hJ.pending hd1 (Int.lt_of_le_of_lt (h.phase_le i) hLow) (h.failed i hLive) c hc d' b hExec
  · obtain rfl := mem_singleton.mp hc
    obtain ⟨rfl, hp⟩ := h.eq_of_executes hExec
    intro hEq
    obtain rfl := eq_of_id hIds hd1 h.decl hEq.symm
    -- whatever the result is, the declaration does not try again
    rcases h.ends with hr | hYields | hFailed
    · rw [h.phase_of_ok hr, hp] at hLow
      exact absurd hLow (by decide)
    · rcases h.answer with ⟨v, hRun, -⟩ | ⟨⟨s, rfl⟩, -⟩
      · rw [hExec.not_yields h.checker h.size hRun] at hYields
        cases hYields
      · cases hYields
    · rw [hLive] at hFailed
      cases hFailed

theorem done {d1 : Decl} (hd1 : decls[i]? = some d1)
    (hExecuted : isExecuted d1 = true) (hCode : (codeName? decls d1).isSome) (hRun : (w'.pool.entity i).phase = .run) :
    ∃ c ∈ w.own.2 ++ [⟨p, me, (w.settled me).unlisted⟩], ∃ b, Executes decls c d1 b := by
  by_cases hOld : (w.pool.entity i).phase = .run
  · obtain ⟨c, hc, hExec⟩ := hJ.done hd1 hExecuted hCode hOld
    exact ⟨c, mem_append_left _ hc, hExec⟩
  · obtain ⟨rfl, rfl, hr⟩ := h.of_phase_ne hd1 fun hEq => hOld (hEq ▸ hRun)
    have hp : p = .run := (h.phase_of_ok hr).symm.trans hRun
    have hBefore : Phase.bytecodeBuilt ≤ (w.pool.entity i).phase := by
      have hSucc := congrArg Phase.rank (h.succ.symm.trans hp)
      simp only [Phase.succ, Phase.run, Phase.le_iff, Phase.bytecodeBuilt] at hSucc ⊢
      omega
    obtain ⟨b, hb⟩ := Option.isSome_iff_exists.mp (hJ.code hd1 hCode hBefore)
    subst hp hr
    rcases h.answer with ⟨v, hAnswer, -⟩ | ⟨⟨s, hc⟩, -⟩
    · exact ⟨_, mem_append_right _ (mem_singleton_self _), b, executes_of_ok h.checker h.size h.stands hExecuted hb hAnswer⟩
    · cases hc

/-- A directive that has just run has given its value, and nothing else has. -/
theorem runs (hDistinct : DistinctCode decls) : RunsOf decls (fun i => (w'.pool.entity i).phase) st.runs := by
  -- nothing is added unless a directive has run
  have hSame (hRuns : st.runs = w.own.1.runs) (hNot : p = .run → r = .ok () → ∀ id x, d ≠ .run id x) :
      RunsOf decls (fun i => (w'.pool.entity i).phase) st.runs := by
    rw [hRuns]
    refine ⟨hJ.runs.nodup, fun name => (hJ.runs.mem name).trans ?_⟩
    have hPhase {i id : Nat} {x : Expr} (hd : decls[i]? = some (.run id x)) :
        (w'.pool.entity i).phase = .run ↔ (w.pool.entity i).phase = .run := by
      by_cases hr : r = .ok ()
      · by_cases hi : i = me
        · subst hi
          obtain rfl : d = .run id x := some.inj (h.decl.symm.trans hd)
          have hp : p ≠ .run := fun hp => hNot hp hr id x rfl
          rw [h.phase_of_ok hr]
          exact ⟨fun hc => absurd hc hp, fun hc => absurd hc h.phase_ne_run⟩
        · rw [h.phase_of_ne hi]
      · rw [h.phase_of_error hr]
    constructor
    · rintro ⟨i, id, x, hd, hRun, hName⟩
      exact ⟨i, id, x, hd, (hPhase hd).mpr hRun, hName⟩
    · rintro ⟨i, id, x, hd, hRun, hName⟩
      exact ⟨i, id, x, hd, (hPhase hd).mp hRun, hName⟩
  cases h.effect with
  | built _ hp _ _ _ _ hRuns => exact hSame hRuns fun hc => absurd (hp.symm.trans hc) (by decide)
  | same _ hNot _ _ hRuns => exact hSame hRuns hNot
  | ran value hp hr hd _ _ hRuns =>
    obtain ⟨id, x, rfl⟩ := hd
    -- a declaration that has run before is another one
    have hOther {i j : Nat} {y : Expr} (hd : decls[i]? = some (.run j y)) (hRun : (w.pool.entity i).phase = .run) :
        i ≠ me := by
      rintro rfl
      exact h.phase_ne_run hRun
    rw [hRuns]
    constructor <;> rw [map_append, map_singleton]
    · refine nodup_append'.mpr ⟨hJ.runs.nodup, nodup_singleton _, fun name hOld hNew => ?_⟩
      obtain ⟨i, j, y, hd, hRun, hName⟩ := (hJ.runs.mem name).mp hOld
      refine hOther hd hRun (@hDistinct _ _ _ _ name hd h.decl (congrArg some hName.symm) ?_)
      exact congrArg some (mem_singleton.mp hNew).symm
    · intro name
      rw [mem_append, hJ.runs.mem, mem_singleton]
      constructor
      · rintro (⟨i, j, y, hd, hRun, hName⟩ | rfl)
        · exact ⟨i, j, y, hd, (h.phase_of_ne (hOther hd hRun)).trans hRun, hName⟩
        · exact ⟨me, id, x, h.decl, (h.phase_of_ok hr).trans hp, rfl⟩
      · rintro ⟨i, j, y, hd, hRun, hName⟩
        by_cases hi : i = me
        · subst hi
          cases some.inj (h.decl.symm.trans hd)
          exact .inr hName
        · exact .inl ⟨i, j, y, hd, (h.phase_of_ne hi).symm.trans hRun, hName⟩

end Trial

/-! ## A whole compilation -/

theorem Consistent.trial {p : Phase} {me : Nat} {w w' : World Nat Recorded} {r : Except Failure Unit} {st : State}
    (hJ : Consistent decls w) (hIds : (decls.map (·.id)).Nodup) (hDistinct : DistinctCode decls)
    (h : Trial options decls p me d w w' r st) : Consistent decls w' := by
  -- the calls are those before and the one that the attempt has made
  have hCalls {P : Call Nat State → Prop} (hOld : ∀ c ∈ w.own.2, P c) (hNew : P ⟨p, me, (w.settled me).unlisted⟩) :
      ∀ c ∈ w.own.2 ++ [⟨p, me, (w.settled me).unlisted⟩], P c :=
    forall_mem_append.mpr ⟨hOld, forall_mem_singleton.mpr hNew⟩
  refine ⟨?_, ?_, ?_⟩ <;> (try rw [h.own])
  · exact ⟨h.known hJ hDistinct, h.code hJ, hCalls hJ.range h.size, hCalls hJ.supplied fun _ _ => h.supplied hJ, h.once hJ,
      h.done hJ, h.runs hJ hDistinct⟩
  · rw [h.handled]
    exact hJ.handled
  · exact h.pending hJ hIds

theorem declared_eq (hIds : (decls.map (·.id)).Nodup) {w : World Nat State} (hPop : Populated (decls.map (·.id)) w)
    (hd : decls[i]? = some d) : declared decls w i = some d := by
  have hNode : (w.pool.entity i).node = some d.id := by
    rw [hPop.node, getElem?_map, hd]
    rfl
  rw [declared, hNode]
  show decls.find? (·.id == d.id) = some d
  obtain ⟨d', hFind⟩ := isSome_iff_exists.mp
    (find?_isSome (p := (·.id == d.id)).mpr ⟨d, mem_of_getElem? hd, beq_self_eq_true _⟩)
  obtain ⟨j, hj⟩ := mem_iff_getElem?.mp (mem_of_find?_eq_some hFind)
  obtain rfl := eq_of_id hIds hj hd (by simpa using find?_some hFind)
  rw [hFind, ← hj, hd]

/-- **Every turn and every search keep it.** -/
theorem keeps_consistent (hChecker : options.Reachable) (hIds : (decls.map (·.id)).Nodup) (hDistinct : DistinctCode decls)
    (hDisciplined : ∀ p id w, Populated (decls.map (·.id)) w → id < (decls.map (·.id)).length →
      Disciplined (handler options decls) p id w) :
    Scheduler.Keeps (carriedOn (handler options decls)) (decls.map (·.id)) (fun _ => True) (Consistent decls) where
  turn := by
    intro p pre me rest w stays moved w' hp hWell hJ hTurn
    have hJ' : Consistent decls w := hJ.unmoved ⟨rfl, fun _ => rfl, fun _ h => h, rfl⟩
    have hMe : me < (decls.map (·.id)).length := hWell.order.lt_held hp
    have hSettled := hWell.populated_settled me
    have hPop : Populated (decls.map (·.id)) (w.settled me).unlisted := ⟨hSettled.size, hSettled.byNode, hSettled.node⟩
    suffices hEnd : Consistent decls w' from hEnd.unmoved ⟨rfl, fun _ => rfl, fun _ h => h, rfl⟩
    rcases hTurn.attempts (fair_carriedOn hDisciplined) hp (hJ'.handled hp) hWell with hSame | ⟨r, st, hAttempts⟩
    · exact hJ'.unmoved hSame
    · obtain ⟨d, hd⟩ : ∃ d, decls[me]? = some d := ⟨_, getElem?_eq_getElem (by simpa using hMe)⟩
      refine hJ'.trial hIds hDistinct (d := d) ⟨hAttempts, hChecker, hd, declared_eq hIds hPop hd, hPop.size ▸ hMe, ?_, hp⟩
      exact hWell.order.phase_held hp hAttempts.live
  search := fun p hWell hJ => hJ.unmoved (hWell.unmoved_searched p)
  count := fun hJ => hJ.unmoved ⟨rfl, fun _ => rfl, fun _ h => h, rfl⟩

end Compile

end Comptime
