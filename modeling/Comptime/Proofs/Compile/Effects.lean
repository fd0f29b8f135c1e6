import Comptime.Proofs.Compile.Walk
import Comptime.Proofs.Machine.Procs
import Comptime.Proofs.Schedule.Calls

/-!
# What an attempt does to the state of a compilation

Asking changes nothing but the scheduler. Building gives a declaration its code, which the machine learns, and executes
nothing. Running executes the code of a declaration if that is ready (`Executes`), and does nothing to the state otherwise
(`handler_effect`, `handler_executes`, `handler_prepares`).
-/

namespace Comptime

open Machine

/-- Between two machines globals were made and procedures were added, and nothing was executed. -/
inductive Machine.Prepared (m : Machine) : Machine → Prop where
  | refl : Prepared m m
  | global {m' : Machine} (name : String) (size align : Int64) : Prepared m m' → Prepared m (m'.global name size align).1
  | addProc {m' : Machine} (p : Proc) : Prepared m m' → Prepared m (m'.addProc p)

namespace Compile

open Scheduler

variable {α : Type} {me id : Nat} {w w' : World Nat State} {b : Built} {p : Phase} {d : Decl}
  {decls : List Decl} {options : Options}
variable {r : Except Failure Unit} {c : Call Nat State}

/-! ## Building -/

/-- The name of the code of a declaration. -/
def codeName? (decls : List Decl) : Decl → Option String
  | .proc p => some p.name
  | .var v init => if init.isAbsent then none else some (v.name ++ ".init")
  | .run id _ => some (runName decls id)
  | .type _ _ => none

theorem directive_name {name : String} {x : Expr} {q : ProcDecl} (h : directive id name x = some q) : q.name = name := by
  unfold directive at h
  obtain ⟨t, -, h⟩ := Option.bind_eq_some_iff.mp h
  obtain ⟨size, -, h⟩ := Option.bind_eq_some_iff.mp h
  cases h
  split <;> rfl

/-- What an attempt to build comes to: the machine learns the code, or nothing happens but that a global is made. -/
inductive Builds (decls : List Decl) (d : Decl) (st : State)
    (r : EStateM.Result Abort (World Nat State) (Except Failure Unit)) :
    Prop where
  | built (b : Built) (m : Machine) (w : World Nat State) : st.machine.Prepared m → m.procs = st.machine.procs →
      r = .ok (.ok ()) w → codeName? decls d = some b.proc.name →
      w.own = { st with built := (d.id, b) :: st.built, machine := m.addProc b.proc } → Builds decls d st r
  | same (m : Machine) : st.machine.Prepared m → m.procs = st.machine.procs →
      (∀ w, r = .ok (.ok ()) w → codeName? decls d = none) → (reached r).own = { st with machine := m } →
        Builds decls d st r

theorem global_cases (name : String) (ty : Ty) (w : World Nat State) :
    (∃ a, global name ty w = .error a w) ∨ ∃ size align x, global name ty w = .ok (.ok x)
      { w with own := { w.own with machine := (w.own.machine.global name size align).1 } } := by
  unfold global
  rw [attempt_bind_apply]
  cases ty.extent? with
  | none => exact .inl ⟨_, rfl⟩
  | some e => exact .inr ⟨e.size, e.align, _, rfl⟩

theorem build_builds {q : ProcDecl} {m : Machine} (hMe : me < w.pool.size) (hm : w.own.machine.Prepared m)
    (hProcs : m.procs = w.own.machine.procs) (hName : codeName? decls d = some q.name) :
    Builds decls d w.own (build options me d.id q { w with own := { w.own with machine := m } }) := by
  obtain ⟨w1, y, -, hOwn, ⟨b, hb, hBuild⟩ | ⟨f, hBuild, -⟩ | ⟨a, hBuild⟩⟩ :=
    build_cases (w := { w with own := { w.own with machine := m } }) options d.id q hMe
  · exact .built b m _ hm hProcs hBuild (hName.trans (congrArg some hb.symm)) rfl
  · rw [hBuild]
    exact .same m hm hProcs nofun hOwn
  · rw [hBuild]
    exact .same m hm hProcs nofun hOwn

/-- What becomes of the state when a declaration's code is built. -/
theorem buildBytecode_builds (options : Options) (decls : List Decl) (d : Decl) (hMe : me < w.pool.size) :
    Builds decls d w.own (buildBytecode options me (runName decls d.id) d w) := by
  cases d with
  | proc p => exact build_builds hMe .refl rfl rfl
  | type s ty => exact .same _ .refl rfl (fun _ _ => rfl) rfl
  | run id x =>
    rw [buildBytecode, attempt_bind_apply, show (Decl.run id x).id = id from rfl]
    cases hProc : directive id (runName decls id) x with
    | none => exact .same _ .refl rfl nofun rfl
    | some q => exact build_builds (d := .run id x) hMe .refl rfl (congrArg some (directive_name hProc).symm)
  | var v init =>
    rw [buildBytecode, attempt_bind_apply, discard_eq, attempt_bind_apply]
    rcases global_cases v.name v.ty w with ⟨a, hGlobal⟩ | ⟨size, align, x, hGlobal⟩ <;> rw [hGlobal]
    · exact .same _ .refl rfl nofun rfl
    · have hm : w.own.machine.Prepared (w.own.machine.global v.name size align).1 := .global _ _ _ .refl
      dsimp only [pure_apply]
      by_cases hInit : init.isAbsent = true
      · rw [if_pos hInit]
        exact .same _ hm global_procs (fun _ _ => if_pos hInit) rfl
      · rw [if_neg hInit]
        exact build_builds (d := .var v init) (q := initializer v init) hMe hm global_procs (if_neg hInit)

/-! ## Running -/

/-- Is the code of a declaration executed when it runs? -/
def isExecuted : Decl → Bool
  | .var _ _ | .run _ _ => true
  | .proc _ | .type _ _ => false

/-- Executing the code of a declaration. -/
def execution (runName : String) (b : Built) : Decl → Attempt Unit
  | .var v _ => discard (inContext ("init " ++ v.name) (call b.proc.name []))
  | .run _ _ => do
    let value ← inContext runName (execute b)
    modifyState fun st => { st with runs := st.runs ++ [{ name := runName, value }] }
  | .proc _ | .type _ _ => pure ()

theorem runCode_eq (me : Nat) (name : String) (hExecuted : isExecuted d = true)
    (hBuilt : w.own.built.lookup d.id = some b) :
    runCode me name d w = (do ready me d.id b; execution name b d : Attempt Unit) w := by
  cases d with
  | proc | type => cases hExecuted
  | var v init =>
    rw [runCode, attempt_bind_apply, show state w = .ok (.ok w.own) w from rfl]
    dsimp only
    rw [show w.own.built.lookup v.id = some b from hBuilt]
    rfl
  | run id x =>
    rw [runCode, attempt_bind_apply, show state w = .ok (.ok w.own) w from rfl]
    dsimp only
    rw [show w.own.built.lookup id = some b from hBuilt]
    rfl

/-- The code and the values computed. -/
def codeOf (w : World Nat State) : List (Nat × Built) × Array Proc × List RunResult :=
  (w.own.built, w.own.machine.procs, w.own.runs)

/-- The attempt leaves the code and the values computed as they are. -/
def KeepsCode (x : Attempt α) : Prop := Leaves codeOf (fun _ => True) x

theorem keepsCode_global (name : String) (ty : Ty) : KeepsCode (global name ty) := by
  intro w r w' hRun
  rcases global_cases name ty w with ⟨a, hGlobal⟩ | ⟨size, align, x, hGlobal⟩ <;> rw [hGlobal] at hRun <;> cases hRun
  exact ⟨by simp [codeOf, global_procs], nofun⟩

theorem keepsCode_call (name : String) (args : List UInt64) : KeepsCode (call name args) := by
  intro w r w' hRun
  refine ⟨?_, fun _ _ => trivial⟩
  unfold call at hRun
  rw [attempt_bind_apply, show state w = .ok (.ok w.own) w from rfl] at hRun
  dsimp only at hRun
  have hProcs := call_procs w.own.machine name args
  rcases hCall : w.own.machine.call name args with ⟨m, h | v⟩ <;> rw [hCall] at hRun hProcs
  · rw [attempt_bind_apply] at hRun
    dsimp only [modifyState] at hRun
    cases hStop : h.toStop with
    | failed f =>
      rw [hStop] at hRun
      cases hRun
      exact congrArg (w.own.built, ·, w.own.runs) hProcs
    | aborted a =>
      rw [hStop] at hRun
      cases hRun
  · cases hRun
    exact congrArg (w.own.built, ·, w.own.runs) hProcs

theorem keepsCode_inContext (context : String) {x : Attempt α} (hx : KeepsCode x) : KeepsCode (inContext context x) :=
  .inContext (fun _ _ _ => trivial) context hx

theorem KeepsCode.eq {x : Attempt α} {r : Except Failure α} (hx : KeepsCode x) (hRun : x w = .ok r w') :
    w'.own.built = w.own.built ∧ w'.own.machine.procs = w.own.machine.procs ∧ w'.own.runs = w.own.runs := by
  simpa [codeOf] using (hx w r w' hRun).1

/-- What executing the code of a declaration has done to the state, by its result. -/
theorem execution_effect {name : String} (hRun : execution name b d w = .ok r w') :
    w'.own.built = w.own.built ∧ w'.own.machine.procs = w.own.machine.procs ∧
      ((w'.own.runs = w.own.runs ∧ (r = .ok () → ∀ id x, d ≠ .run id x)) ∨
        ∃ value, r = .ok () ∧ (∃ id x, d = .run id x) ∧ w'.own.runs = w.own.runs ++ [⟨name, value⟩]) := by
  cases d with
  | proc | type =>
    cases hRun
    exact ⟨rfl, rfl, .inl ⟨rfl, fun _ _ _ => nofun⟩⟩
  | var v init =>
    have hKeeps : KeepsCode (execution name b (.var v init)) :=
      .bind (keepsCode_inContext _ (keepsCode_call _ _)) fun _ => .pure _
    obtain ⟨hBuilt, hProcs, hRuns⟩ := hKeeps.eq hRun
    exact ⟨hBuilt, hProcs, .inl ⟨hRuns, fun _ _ _ => nofun⟩⟩
  | run id x =>
    have hKeeps : KeepsCode (inContext name (execute b)) :=
      keepsCode_inContext name (.execute keepsCode_call keepsCode_global (fun _ => trivial) b)
    rw [execution, attempt_bind_apply] at hRun
    rcases hFirst : inContext name (execute b) w with ⟨e, w1⟩ | ⟨e, w1⟩ <;> rw [hFirst] at hRun
    · obtain ⟨hBuilt, hProcs, hRuns⟩ := hKeeps.eq hFirst
      rcases e with f | value <;> cases hRun
      · exact ⟨hBuilt, hProcs, .inl ⟨hRuns, nofun⟩⟩
      · exact ⟨hBuilt, hProcs, .inr ⟨value, rfl, ⟨id, x, rfl⟩, congrArg (· ++ _) hRuns⟩⟩
    · cases hRun

theorem quiet_execution (name : String) (b : Built) (d : Decl) : Quiet (execution name b d) := by
  cases d with
  | proc | type => exact .pure _
  | var v init => exact .bind (quiet_inContext _ (quiet_call _ _)) fun _ => .pure _
  | run id x => exact .bind (quiet_inContext _ (quiet_execute b)) fun _ => quiet_modifyState _

/-! ## The handler -/

/-- The call executes code of a declaration: it is at its last phase and the code is ready. -/
structure Executes (decls : List Decl) (c : Call Nat State) (d : Decl) (b : Built) : Prop where
  phase : c.phase = .run
  decl : declared decls c.world c.id = some d
  executed : isExecuted d = true
  built : c.world.own.built.lookup d.id = some b
  ready : ∃ w, Compile.ready c.id d.id b c.world = .ok (.ok ()) w

/-- What the handler comes to at a phase: the code of the declaration is built or executed, or nothing happens to the
state. -/
inductive Handles (decls : List Decl) (p : Phase) (me : Nat) (d : Decl) (w : World Nat State)
    (x : EStateM.Result Abort (World Nat State) (Except Failure Unit)) : Prop where
  | builds : p = .bytecodeBuilt → Builds decls d w.own x → Handles decls p me d w x
  | executes (b : Built) : Executes decls ⟨p, me, w⟩ d b → x = execution (runName decls d.id) b d w →
      Handles decls p me d w x
  | idles : p ≠ .bytecodeBuilt → (∀ b, ¬ Executes decls ⟨p, me, w⟩ d b) → (reached x).own = w.own →
      (∀ w', p = .run → x = .ok (.ok ()) w' → isExecuted d = true →
        w.own.built.lookup d.id = none ∧ ∀ id x, d ≠ .run id x) → Handles decls p me d w x

theorem runCode_handles (hMe : me < w.pool.size) (hDecl : declared decls w me = some d) :
    Handles decls .run me d w (runCode me (runName decls d.id) d w) := by
  by_cases hExecuted : isExecuted d = true
  · cases hBuilt : w.own.built.lookup d.id with
    | none =>
      -- without code there is nothing to execute
      have hNot (b : Built) (h : Executes decls ⟨.run, me, w⟩ d b) : False := by cases hBuilt.symm.trans h.built
      have hState : state w = .ok (.ok w.own) w := rfl
      cases d with
      | proc | type => cases hExecuted
      | var v init =>
        rw [runCode, attempt_bind_apply, hState]
        dsimp only
        rw [show w.own.built.lookup v.id = none from hBuilt]
        exact .idles (by decide) hNot rfl fun _ _ _ _ => ⟨hBuilt, nofun⟩
      | run id x =>
        rw [runCode, attempt_bind_apply, hState]
        dsimp only
        rw [show w.own.built.lookup id = none from hBuilt]
        exact .idles (by decide) hNot rfl nofun
    | some b =>
      have hOwn := (polite_ready d.id b w hMe).1 trivial
      have hReady {b' : Built} (h : Executes decls ⟨.run, me, w⟩ d b') : ∃ w', ready me d.id b w = .ok (.ok ()) w' := by
        cases hBuilt.symm.trans h.built
        exact h.ready
      rw [runCode_eq me _ hExecuted hBuilt, attempt_bind_apply]
      rcases hRun : ready me d.id b w with ⟨e | u, w1⟩ | ⟨a, w1⟩ <;> rw [hRun] at hOwn hReady
      · refine .idles (by decide) (fun b' h => ?_) hOwn nofun
        obtain ⟨_, ⟨⟩⟩ := hReady h
      · obtain ⟨rfl, -⟩ := ready_spec hMe hRun
        exact .executes b ⟨rfl, hDecl, hExecuted, hBuilt, _, hRun⟩ rfl
      · refine .idles (by decide) (fun b' h => ?_) hOwn nofun
        obtain ⟨_, ⟨⟩⟩ := hReady h
  · refine .idles (by decide) (fun b h => hExecuted h.executed) ?_ fun _ _ _ h => absurd h hExecuted
    cases d with
    | proc | type => rfl
    | var | run => exact absurd rfl hExecuted

/-- What an attempt at a phase has done to the state, by its result. -/
inductive Effect (decls : List Decl) (p : Phase) (d : Decl) (st st' : State) (r : Except Failure Unit) : Prop where
  | built (b : Built) : p = .bytecodeBuilt → r = .ok () → codeName? decls d = some b.proc.name →
      st'.built = (d.id, b) :: st.built →
      (∀ name, st'.machine.proc? name = if b.proc.name = name then some b.proc else st.machine.proc? name) →
      st'.runs = st.runs → Effect decls p d st st' r
  | ran (value : List UInt8) : p = .run → r = .ok () → (∃ id x, d = .run id x) → st'.built = st.built →
      (∀ name, st'.machine.proc? name = st.machine.proc? name) → st'.runs = st.runs ++ [⟨runName decls d.id, value⟩] →
      Effect decls p d st st' r
  | same : (p = .bytecodeBuilt → r = .ok () → codeName? decls d = none) → (p = .run → r = .ok () → ∀ id x, d ≠ .run id x) →
      st'.built = st.built → (∀ name, st'.machine.proc? name = st.machine.proc? name) → st'.runs = st.runs →
      Effect decls p d st st' r

section Handled

variable (hChecker : options.Reachable) (hMe : me < w.pool.size) (hDecl : declared decls w me = some d)

include hChecker hMe hDecl

theorem handler_handles (p : Phase) : Handles decls p me d w (handler options decls p me w) := by
  rw [handler_eq hDecl]
  by_cases hBuild : p = .bytecodeBuilt
  · rw [if_pos hBuild]
    exact .builds hBuild (buildBytecode_builds options decls d hMe)
  rw [if_neg hBuild]
  by_cases hRun : p = .run
  · subst hRun
    rw [if_pos rfl]
    exact runCode_handles hMe hDecl
  · rw [if_neg hRun]
    exact .idles hBuild (fun b h => hRun h.phase) ((polite_checked hChecker d p w hMe).1 trivial) fun _ h => absurd h hRun

theorem handler_effect (hRun : handler options decls p me w = .ok r w') : Effect decls p d w.own w'.own r := by
  cases hRun ▸ handler_handles hChecker hMe hDecl p with
  | builds hp hBuilds =>
    subst hp
    cases hBuilds with
    | built b m w1 _ hProcs hOk hName hOwn =>
      cases hOk
      refine .built b rfl rfl hName (by rw [hOwn]) (fun name => ?_) (by rw [hOwn])
      rw [hOwn, proc?_addProc, proc?_congr hProcs]
    | same m _ hProcs hNone hOwn =>
      change w'.own = _ at hOwn
      refine .same (fun _ hr => hNone w' (by rw [hr])) nofun (by rw [hOwn]) (fun name => ?_) (by rw [hOwn])
      rw [hOwn, proc?_congr hProcs]
  | executes b hExec hEq =>
    obtain rfl : p = .run := hExec.phase
    obtain ⟨hBuilt, hProcs, hRuns⟩ := execution_effect hEq.symm
    have hProc (name : String) : w'.own.machine.proc? name = w.own.machine.proc? name := proc?_congr hProcs
    rcases hRuns with ⟨hRuns, hNot⟩ | ⟨value, hr, hd, hRuns⟩
    · exact .same nofun (fun _ => hNot) hBuilt hProc hRuns
    · exact .ran value rfl hr hd hBuilt hProc hRuns
  | idles hBuild _ hOwn hNot =>
    change w'.own = w.own at hOwn
    rw [hOwn]
    refine .same (fun h => absurd h hBuild) (fun hp hr id x hd => ?_) rfl (fun _ => rfl) rfl
    exact (hNot w' hp (by rw [hr]) (hd ▸ rfl)).2 id x hd

/-- A declaration with code that has run has been executed. -/
theorem executes_of_ok (hExecuted : isExecuted d = true) (hBuilt : w.own.built.lookup d.id = some b)
    (hRun : handler options decls .run me w = .ok (.ok ()) w') : Executes decls ⟨.run, me, w⟩ d b := by
  cases handler_handles hChecker hMe hDecl .run with
  | builds hp => exact absurd hp (by decide)
  | executes b' hExec =>
    cases hBuilt.symm.trans hExec.built
    exact hExec
  | idles _ _ _ hNot => cases hBuilt.symm.trans (hNot w' rfl hRun hExecuted).1

end Handled

/-- A call that executes code does nothing else. -/
theorem handler_executes (h : Executes decls c d b) (hChecker : options.Reachable) (hMe : c.id < c.world.pool.size) :
    handler options decls c.phase c.id c.world = execution (runName decls d.id) b d c.world := by
  cases handler_handles hChecker hMe h.decl c.phase with
  | builds hp => exact absurd (hp.symm.trans h.phase) (by decide)
  | executes b' hExec hEq =>
    cases h.built.symm.trans hExec.built
    exact hEq
  | idles _ hNot => exact absurd h (hNot b)

theorem Executes.not_yields (h : Executes decls c d b) (hChecker : options.Reachable) (hMe : c.id < c.world.pool.size)
    (hRun : handler options decls c.phase c.id c.world = .ok r w') : Failure.yields r = false := by
  rw [handler_executes h hChecker hMe] at hRun
  rcases r with f | ⟨⟩
  · exact (quiet_execution _ b d _ _ w' hRun).2 f rfl
  · rfl

/-- A call that does not execute code of a declaration only prepares the machine. -/
theorem handler_prepares (hChecker : options.Reachable) (hMe : c.id < c.world.pool.size)
    (h : ∀ d b, ¬ Executes decls c d b) :
    c.world.own.machine.Prepared (reached (handler options decls c.phase c.id c.world)).own.machine := by
  cases hDecl : declared decls c.world c.id with
  | none =>
    rw [handler_of_none hDecl]
    exact .refl
  | some d =>
    cases handler_handles hChecker hMe hDecl c.phase with
    | builds _ hBuilds =>
      cases hBuilds with
      | built b m w1 hm _ hOk _ hOwn =>
        rw [hOk]
        show c.world.own.machine.Prepared w1.own.machine
        rw [hOwn]
        exact .addProc _ hm
      | same m hm _ _ hOwn =>
        rw [hOwn]
        exact hm
    | executes b hExec => exact absurd hExec (h d b)
    | idles _ _ hOwn =>
      rw [hOwn]
      exact .refl

end Compile

end Comptime
