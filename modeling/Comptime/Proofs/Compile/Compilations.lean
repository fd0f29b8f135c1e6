import Comptime.Proofs.Compile.Executions
import Mathlib.Data.List.Basic

/-!
# Compilations execute ready code, once

A compilation executes the code of a declaration only when everything that it may reach is there, and no code twice
(`compile_executes`). Procedures made for initializers and directives are known to the machine by names, as others are. If
a declared procedure has such a name then one of them replaces the other (`compile_clash`).
-/

namespace Comptime

open List Option

namespace Compile

open Scheduler

variable {decls : List Decl} {options : Options}

/-! ## The names of code -/

/-- The name of the symbol that is declared. A directive declares none. -/
def symbolName? : Decl → Option String
  | .run _ _ => none
  | d => some d.name

theorem eq_of_nodup_filterMap {α β : Type} {f : α → Option β} {l : List α} (h : (l.filterMap f).Nodup) {i j : Nat}
    {a a' : α} {x : β} (hi : l[i]? = some a) (hj : l[j]? = some a') (ha : f a = some x) (ha' : f a' = some x) : i = j := by
  have hPairs := pairwise_iff_getElem.mp (pairwise_filterMap.mp h)
  obtain ⟨hLt, rfl⟩ := List.getElem?_eq_some_iff.mp hi
  obtain ⟨hLt', rfl⟩ := List.getElem?_eq_some_iff.mp hj
  rcases Nat.lt_trichotomy i j with hij | hij | hij
  · exact absurd rfl (hPairs i j hLt hLt' hij x ha x ha')
  · exact hij
  · exact absurd rfl (hPairs j i hLt' hLt hij x ha' x ha)

theorem toString_inj {m n : Nat} (h : toString m = toString n) : m = n := by
  have hDigits : Nat.toDigits 10 m = Nat.toDigits 10 n := by
    simpa only [Nat.toString_eq_ofList_toDigits, String.toList_ofList] using congrArg String.toList h
  rw [← Nat.ofDigitChars_ten_toDigits (n := m), hDigits, Nat.ofDigitChars_ten_toDigits]

theorem runName_inj {id j : Nat} {x : Expr} (h : .run id x ∈ decls) (hEq : runName decls id = runName decls j) :
    id = j := by
  refine (idxOf_inj ?_).mp (toString_inj ((String.append_right_inj _).mp hEq))
  exact mem_filterMap.mpr ⟨_, h, rfl⟩

/-- The name of a directive ends with a digit. -/
theorem runName_ne_init (decls : List Decl) (id : Nat) (name : String) : runName decls id ≠ name ++ ".init" := by
  unfold runName
  intro hEq
  have hLast := congrArg (fun s : String => s.toList.getLast?) hEq.symm
  simp only [String.toList_append] at hLast
  rw [getLast?_append_of_ne_nil _ (show ".init".toList ≠ [] by decide),
    show ".init".toList.getLast? = some 't' by decide, eq_comm] at hLast
  have hMem := mem_of_getLast? hLast
  rcases mem_append.mp hMem with hMem | hMem
  · exact absurd hMem (by decide)
  · rw [Nat.toString_eq_ofList_toDigits, String.toList_ofList] at hMem
    exact absurd (Nat.isDigit_of_mem_toDigits (by decide) (by decide) hMem) (by decide)

/-- If symbols have names of their own, and no procedure is named like the code of an initializer or of a directive, then
all code has names of its own. -/
theorem distinctCode (hIds : (decls.map (·.id)).Nodup) (hNames : (decls.filterMap symbolName?).Nodup)
    (hFree : ∀ p d, .proc p ∈ decls → d ∈ decls → isExecuted d = true → codeName? decls d ≠ some p.name) :
    DistinctCode decls := by
  intro i j d d' name hd hd' hName hName'
  have hMem := mem_of_getElem? hd
  have hMem' := mem_of_getElem? hd'
  -- by the kinds of the two declarations: a suffix tells initializers and directives apart
  have hInit {v : Variable} {init : Expr} (h : codeName? decls (.var v init) = some name) : name = v.name ++ ".init" := by
    rw [codeName?] at h
    split at h <;> cases h
    rfl
  cases d with
  | type => cases hName
  | proc p =>
    cases hName
    cases d' with
    | type => cases hName'
    | proc p' => exact eq_of_nodup_filterMap hNames hd hd' rfl (congrArg some (some.inj hName'))
    | var | run => exact absurd hName' (hFree p _ hMem hMem' rfl)
  | var v init =>
    cases d' with
    | type => cases hName'
    | proc p' =>
      cases hName'
      exact absurd hName (hFree p' _ hMem' hMem rfl)
    | var v' init' =>
      have hEq : v.name = v'.name := (String.append_left_inj _).mp ((hInit hName).symm.trans (hInit hName'))
      exact eq_of_nodup_filterMap hNames hd hd' rfl (congrArg some hEq.symm)
    | run id x => exact absurd ((some.inj hName').trans (hInit hName)) (runName_ne_init decls id v.name)
  | run id x =>
    cases d' with
    | type => cases hName'
    | proc p' =>
      cases hName'
      exact absurd hName (hFree p' _ hMem' hMem rfl)
    | var v' init' => exact absurd ((some.inj hName).trans (hInit hName')) (runName_ne_init decls id v'.name)
    | run id' x' =>
      exact eq_of_id hIds hd hd' (runName_inj hMem ((some.inj hName).trans (some.inj hName').symm))

/-! ## Compilations -/

/-- All phases have a handler. -/
theorem scheduler_eq (hIds : (decls.map (·.id)).Nodup) :
    scheduler decls = .ok { arrived (decls.map (·.id)) with handled := Phase.handled.reverse } := by
  have hNodes := ofNodes_of_nodup hIds
  rw [ofNodes, foldlM_map] at hNodes
  unfold scheduler
  rw [hNodes]
  rfl

/-- The world in which a compilation starts. -/
def start (options : Options) (s : Scheduler Nat) : World Nat State :=
  ⟨s, { machine := { limits := if options.maxSteps = 0 then {} else { maxSteps := options.maxSteps } } }⟩

/-- The run of a compilation, with a list of the calls of its handler. -/
def recorded (options : Options) (decls : List Decl) (s : Scheduler Nat) :
    EStateM.Result Abort (World Nat Recorded) (Except Failure Unit) :=
  run (listed (handler options decls)) ⟨(start options s).scheduler, (start options s).own, []⟩

theorem Consistent.start (decls : List Decl) (own : State) (hBuilt : own.built = []) (hRuns : own.runs = []) :
    Consistent decls ⟨{ arrived (decls.map (·.id)) with handled := Phase.handled.reverse }, own, []⟩ := by
  have hPhase {i : Nat} {d : Decl} (hd : decls[i]? = some d) :
      ((arrived (decls.map (·.id))).pool.entity i).phase = .parsed :=
    phase_arrived (by simpa using (List.getElem?_eq_some_iff.mp hd).1)
  refine ⟨⟨?_, fun hd _ hLow => ?_, nofun, nofun, .nil, fun hd _ _ hRun => ?_, ?_, fun name => ?_⟩, fun hq => ?_,
    fun _ _ _ => nofun⟩
  · intro k b hb
    rw [show own.built = [] from hBuilt] at hb
    cases hb
  · exact absurd (hPhase hd ▸ hLow) (by decide)
  · exact absurd ((hPhase hd).symm.trans hRun) (by decide)
  · simp [hRuns]
  · simp only [hRuns, List.map_nil, List.not_mem_nil, false_iff]
    rintro ⟨i, id, x, hd, hRun, -⟩
    exact absurd ((hPhase hd).symm.trans hRun) (by decide)
  · simpa using Queues.mem_handled_iff.mpr hq

/-- Calls of a handler that execute ready code, and none of it twice. -/
structure ReadyOnce (options : Options) (decls : List Decl) (calls : List (Call Nat State)) : Prop where
  /-- Where code is executed, everything that it may reach is there. -/
  executes : ∀ c ∈ calls, ∀ d b, Executes decls c d b →
    handler options decls c.phase c.id c.world = execution (runName decls d.id) b d c.world ∧ Supplied c d b
  /-- No other call executes anything. -/
  prepares : ∀ c ∈ calls, (∀ d b, ¬ Executes decls c d b) →
    c.world.own.machine.Prepared (reached (handler options decls c.phase c.id c.world)).own.machine
  once : calls.Pairwise fun c c' => ∀ d b d' b', Executes decls c d b → Executes decls c' d' b' → d.id ≠ d'.id

theorem Consistent.readyOnce {w : World Nat Recorded} {calls : List (Call Nat State)} (h : Consistent decls w)
    (hCalls : calls <+: w.own.2) (hChecker : options.Reachable) : ReadyOnce options decls calls where
  executes c hc d b hExec := by
    have hMem := hCalls.subset hc
    exact ⟨handler_executes hExec hChecker (h.range c hMem), h.supplied c hMem d b hExec⟩
  prepares c hc hNot := handler_prepares hChecker (h.range c (hCalls.subset hc)) hNot
  once := h.once.sublist hCalls.sublist

theorem compile_eq (options : Options) {s : Scheduler Nat} (hScheduler : scheduler decls = .ok s) :
    (∀ a w, run (handler options decls) (start options s) = .error a w → compile options decls = .error a) ∧
      ∀ result w, run (handler options decls) (start options s) = .ok result w →
        ∃ c, compile options decls = .ok c ∧ c.result = result ∧ c.runs = w.own.runs ∧ c.machine = w.own.machine ∧
          ∀ p b, .proc p ∈ decls → w.own.built.lookup p.id = some b → b ∈ c.procs := by
  have hStart : (⟨s, { machine := { limits := if options.maxSteps = 0 then {} else { maxSteps := options.maxSteps } } }⟩ :
    World Nat State) = start options s := rfl
  constructor
  · intro a w hRun
    simp only [compile, hScheduler, bind, Except.bind, EStateM.run, hStart, hRun]
    rfl
  · intro result w hRun
    simp only [compile, hScheduler, bind, Except.bind, EStateM.run, hStart, hRun]
    exact ⟨_, rfl, rfl, rfl, rfl, fun p b hp hb => mem_filterMap.mpr ⟨_, hp, hb⟩⟩

/-- **Compilations execute ready code, once.** Let declarations have symbols with names of their own, none of which is
that of a procedure made for an initializer or a directive, and let the plan of the checker be valid, if there is one.
Whenever a compilation executes the initializer of a global or a directive, the machine has the code of all procedures
that this may reach, and the other globals that they use have run. Nothing is executed twice, and what has run was
executed. The values computed are those of the directives that have run, one for each. -/
theorem compile_executes (options : Options) {decls : List Decl} (hIds : (decls.map (·.id)).Nodup)
    (hNames : (decls.filterMap symbolName?).Nodup)
    (hFree : ∀ p d, .proc p ∈ decls → d ∈ decls → isExecuted d = true → codeName? decls d ≠ some p.name)
    (hChecker : ∀ c, options.checker = some c → c.plan.validate = .ok ()) :
    ∃ s, scheduler decls = .ok s ∧ ReadyOnce options decls (reached (recorded options decls s)).own.2 ∧
      (∀ a, compile options decls = .error a → ∃ w, recorded options decls s = .error a w) ∧
      ∀ c, compile options decls = .ok c → ∃ w, recorded options decls s = .ok c.result w ∧
        c.runs = w.own.1.runs ∧ c.machine = w.own.1.machine ∧
        (∀ (i : Nat) (d : Decl), decls[i]? = some d → isExecuted d = true → (codeName? decls d).isSome →
          (w.pool.entity i).phase = .run → ∃ call ∈ w.own.2, ∃ b, Executes decls call d b) ∧
        (c.runs.map (·.name)).Nodup ∧
        ∀ name, name ∈ c.runs.map (·.name) ↔ ∃ (i id : Nat) (x : Expr), decls[i]? = some (.run id x) ∧
          (w.pool.entity i).phase = .run ∧ name = runName decls id := by
  have hReach : options.Reachable := fun c hc i hi n hn => ((Plan.valid_of_validate (hChecker c hc)).needs i hi n hn).phase.2
  have hDisciplined : ∀ p id w, Populated (decls.map (·.id)) w → id < (decls.map (·.id)).length →
      Disciplined (handler options decls) p id w := fun p id w hPop hId =>
        disciplined_handler decls hReach p (hPop.size ▸ hId)
  have hScheduler := scheduler_eq hIds
  have hKeeps := keeps_consistent hReach hIds (distinctCode hIds hNames hFree) hDisciplined
  -- the invariant is one of the state together with the calls that have led to it
  obtain ⟨r, hRun, v, hv, hEnd⟩ := exists_listed hDisciplined hKeeps (w := ⟨_, (start options _).own, []⟩)
    (.arrived Phase.handled.reverse trivial) (Consistent.start decls _ rfl rfl)
  obtain ⟨hError, hOk⟩ := compile_eq options hScheduler
  refine ⟨_, hScheduler, ?_⟩
  rw [show recorded options decls _ = r from hRun]
  rcases hEnd with ⟨x, rfl, hPlain⟩ | ⟨a, u, rfl, hPrefix, hPlain⟩
  · obtain ⟨c, hc, hResult, hRuns, hMachine, -⟩ := hOk x _ hPlain
    rw [hc]
    refine ⟨hv.readyOnce List.prefix_rfl hReach, nofun, ?_⟩
    rintro c' ⟨⟩
    refine ⟨v, by rw [hResult], hRuns, hMachine, fun i d hd => hv.done hd, ?_, ?_⟩ <;> rw [hRuns]
    · exact hv.runs.nodup
    · exact hv.runs.mem
  · rw [hError a _ hPlain]
    refine ⟨hv.readyOnce hPrefix hReach, ?_, nofun⟩
    rintro a' ⟨⟩
    exact ⟨u, rfl⟩

/-- Counts the calls of `next`. -/
def counter : Variable := ⟨⟨0, "n"⟩, .int 64 true, true⟩

def next : ProcDecl where
  id := 1
  name := "next"
  ins := []
  outs := [.int 64 true]
  params := []
  body := some [
    .assign (some .add) [.ident (.int 64 true) (.var counter)] [.int (.int 64 true) 1],
    .ret [.ident (.int 64 true) (.var counter)]]

def callOf (p : ProcDecl) : Expr := .call (.int 64 true) (.ident p.ty (.proc p.toProcRef)) []

/-- A global that is initialized by a call, and a directive. -/
def counting : List Decl :=
  [.var counter .absent, .proc next, .var ⟨⟨2, "g"⟩, .int 64 true, true⟩ (callOf next), .run 3 (callOf next)]

/-- The world after two rounds, if the second is the last one. -/
def twoRounds (handle : Handler Nat State) (w : World Nat State) : Option (World Nat State) :=
  match round handle w with
  | .ok none w' => match round handle w' with
    | .ok (some _) w'' => some w''
    | _ => none
  | _ => none

theorem run_of_twoRounds {handle : Handler Nat State} {w w' : World Nat State} (h : twoRounds handle w = some w') :
    ∃ x, run handle w = .ok x w' := by
  unfold twoRounds at h
  split at h
  · next w1 hFirst =>
    split at h
    · next x w2 hLast =>
      cases h
      refine ⟨x, ?_⟩
      simp only [run, repeatRounds_eq w, hFirst, repeatRounds_eq w1, hLast]
    · cases h
  · cases h

/-- The directive is executed. -/
theorem compile_executes_counting : (counting.map (·.id)).Nodup ∧ (counting.filterMap symbolName?).Nodup ∧
    ∃ s r w, scheduler counting = .ok s ∧ recorded {} counting s = .ok r w ∧ ReadyOnce {} counting w.own.2 ∧
      ∃ call ∈ w.own.2, ∃ id x b, Executes counting call (.run id x) b := by
  have hIds : (counting.map (·.id)).Nodup := by decide
  have hNames : (counting.filterMap symbolName?).Nodup := by decide
  have hFree : ∀ p d, .proc p ∈ counting → d ∈ counting → isExecuted d = true → codeName? counting d ≠ some p.name := by
    intro p d hp hd hExecuted
    simp only [counting, List.mem_cons, List.not_mem_nil, or_false, reduceCtorEq, false_or, Decl.proc.injEq] at hp hd
    subst hp
    rcases hd with rfl | rfl | rfl | rfl
    · decide
    · cases hExecuted
    · decide
    · decide
  have hEval : (twoRounds (handler {} counting) (start {} { arrived (counting.map (·.id)) with
      handled := Phase.handled.reverse })).map (·.own.runs.map (·.name)) = some ["#run.0"] := by decide +kernel
  obtain ⟨v, hRounds, hRun⟩ := Option.map_eq_some_iff.mp hEval
  obtain ⟨x, hPlain⟩ := run_of_twoRounds hRounds
  obtain ⟨c, hc, -, hRuns, -⟩ := (compile_eq {} (scheduler_eq hIds)).2 x v hPlain
  obtain ⟨s, hs, hOnce, -, hOk⟩ := compile_executes {} hIds hNames hFree nofun
  obtain ⟨w, hw, -, -, hDone, -, hMem⟩ := hOk c hc
  obtain ⟨i, id, x, hd, hPhase, -⟩ := (hMem "#run.0").mp (by rw [hRuns, hRun]; exact List.mem_singleton_self _)
  obtain ⟨call, hCall, b, hExec⟩ := hDone i (.run id x) hd rfl rfl hPhase
  rw [hw] at hOnce
  exact ⟨hIds, hNames, s, c.result, w, hs, hw, hOnce, call, hCall, id, x, b, hExec⟩

/-- A procedure named like the initializer of a global `g`. -/
def namesake : ProcDecl where
  id := 2
  name := "g.init"
  ins := []
  outs := [.int 64 true]
  params := []
  body := some [.ret [.int (.int 64 true) 7]]

/-- The global is initialized by a call of `next`, and the directive calls the procedure that is named like that. -/
def clashing : List Decl := [
  .var counter .absent,
  .proc next,
  .proc namesake,
  .var ⟨⟨3, "g"⟩, .int 64 true, true⟩ (callOf next),
  .run 4 (callOf namesake)]

/-- **Code of the same name is lost.** The names of symbols differ, but the procedure made for the initializer has
replaced the declared one when the directive calls that. The initializer is executed a second time, and the directive
has nothing for its value. -/
theorem compile_clash : (clashing.map (·.id)).Nodup ∧ (clashing.filterMap symbolName?).Nodup ∧
    ∃ c, compile {} clashing = .ok c ∧ (∃ b ∈ c.procs, c.machine.proc? b.proc.name ≠ some b.proc) ∧
      c.runs = [⟨"#run.0", [0, 0, 0, 0, 0, 0, 0, 0]⟩] ∧
      (c.machine.contents counter).2.toOption = some [2, 0, 0, 0, 0, 0, 0, 0] := by
  have hIds : (clashing.map (·.id)).Nodup := by decide
  obtain ⟨-, hOk⟩ := compile_eq {} (scheduler_eq hIds)
  have hEval : (twoRounds (handler {} clashing)
      (start {} { arrived (clashing.map (·.id)) with handled := Phase.handled.reverse })).map (fun w =>
        ((w.own.built.lookup namesake.id).map fun b => decide (w.own.machine.proc? b.proc.name = some b.proc),
          w.own.runs, (w.own.machine.contents counter).2.toOption)) =
      some (some false, [⟨"#run.0", [0, 0, 0, 0, 0, 0, 0, 0]⟩], some [2, 0, 0, 0, 0, 0, 0, 0]) := by
    decide +kernel
  obtain ⟨w, hRounds, hShows⟩ := Option.map_eq_some_iff.mp hEval
  simp only [Prod.mk.injEq] at hShows
  obtain ⟨hLost, hValues, hCount⟩ := hShows
  obtain ⟨b, hb, hNot⟩ := Option.map_eq_some_iff.mp hLost
  obtain ⟨x, hRun⟩ := run_of_twoRounds hRounds
  obtain ⟨c, hc, -, hRuns, hMachine, hProcs⟩ := hOk x w hRun
  refine ⟨hIds, by decide, c, hc, ⟨b, hProcs namesake b (by simp [clashing]) hb, ?_⟩, hRuns.trans hValues, ?_⟩
  · rw [hMachine]
    exact of_decide_eq_false hNot
  · rw [hMachine]
    exact hCount

end Compile

end Comptime
