import Comptime.Compile.Phases
import Comptime.Proofs.Lowering.Asking
import Comptime.Proofs.Lowering.Built
import Comptime.Proofs.Plan.Handler

/-!
# The handler of a compilation

The handler that takes declarations through the phases acts on the scheduler only by requiring, and yields only if a
requirement was to be waited for (`Compile.disciplined_handler`). Building code asks the pool as it was at the start
and requires afterwards what it has asked for; nothing a requirement does to the pool changes an answer. Running code
requires whatever the code may reach, and remembers the last requirement that is to be waited for.
-/

namespace Comptime

open Scheduler Pool

namespace Compile

variable {α β : Type} {me : Nat} {w w' w'' : World Nat State} {y y' : Bool}
variable {f : Failure} {x : Attempt α} {p : Phase} {keeps : Prop}

/-! ## What an attempt leaves behind -/

/-- Between two worlds the entity has made requirements, and nothing else has happened to the scheduler. -/
structure Required (me : Nat) (w w' : World Nat State) (y : Bool) : Prop where
  scheduler : w'.scheduler = { w.scheduler with pool := w'.pool }
  requires : Requires me w.pool y w'.pool

theorem Required.none (h : w'.scheduler = w.scheduler) : Required me w w' false := by
  have hPool : w'.pool = w.pool := congrArg pool h
  exact ⟨by rw [hPool, h]; rfl, hPool ▸ .none _⟩

theorem Required.trans (h : Required me w w' y) (h' : Required me w' w'' y') : Required me w w'' (y || y') :=
  ⟨by rw [h'.scheduler, h.scheduler], h.requires.trans h'.requires⟩

theorem Required.amends (h : Required me w w' y) : Amends me w.pool w'.pool := h.requires.asks.amends

/-- Does an outcome say that something is to be waited for? `told` tells it of a result. -/
def waits (told : α → Bool) : Except Failure α → Bool
  | .ok a => told a
  | .error f => f.isCause .yield

/-- An attempt acts on the scheduler by requirements only. If it `keeps` the state then that is left as it is, also if the
attempt is aborted. That something is to be waited for comes out of it only if it was so before (`said`) or a requirement
is. -/
def Polite (keeps : Prop) (me : Nat) (said : Bool) (told : α → Bool) (x : Attempt α) : Prop :=
  ∀ w, me < w.pool.size → (keeps → (reached (x w)).own = w.own) ∧ ∀ r w', x w = .ok r w' →
    ∃ y, Required me w w' y ∧ (waits told r = true → said = true ∨ y = true)

theorem attempt_bind_apply (x : Attempt α) (f : α → Attempt β) (w : World Nat State) :
    (x >>= f) w = match x w with
      | .ok (.ok a) w' => f a w'
      | .ok (.error e) w' => .ok (.error e) w'
      | .error a w' => .error a w' := by
  have hRun : (x >>= f) w = (x >>= ExceptT.bindCont f : Act (Except Failure β)) w := rfl
  rw [hRun, bind_apply]
  rcases x w with ⟨e | a, w'⟩ | ⟨a, w'⟩ <;> rfl

theorem attempt_bind_eq_ok {f : α → Attempt β} {b : β} (h : (x >>= f) w = .ok (.ok b) w') :
    ∃ a w1, x w = .ok (.ok a) w1 ∧ f a w1 = .ok (.ok b) w' := by
  rw [attempt_bind_apply] at h
  rcases hx : x w with ⟨e | a, w1⟩ | ⟨e, w1⟩ <;> rw [hx] at h
  · cases h
  · exact ⟨a, w1, rfl, h⟩
  · cases h

/-- What comes after an action, as part of an attempt. -/
theorem lift_bind (x : Act α) (f : α → Attempt β) : (x >>= f : Act (Except Failure β)) =
    (ExceptT.lift x >>= f : Attempt β) := by
  funext w
  show EStateM.bind x f w = EStateM.bind (EStateM.map Except.ok x) (ExceptT.bindCont f) w
  unfold EStateM.bind EStateM.map
  rcases x w with ⟨a, w'⟩ | ⟨a, w'⟩ <;> rfl

namespace Polite

variable {said : Bool} {told : α → Bool} {told' : β → Bool}

theorem pure {a : α} (h : told a = true → said = true) : Polite keeps me said told (Pure.pure a : Attempt α) := by
  refine fun w _ => ⟨fun _ => rfl, fun r w' hRun => ?_⟩
  cases hRun
  exact ⟨false, .none rfl, fun ht => .inl (h ht)⟩

theorem throw (h : f.isCause .yield = true → said = true) :
    Polite keeps me said told (MonadExcept.throw f : Attempt α) := by
  refine fun w _ => ⟨fun _ => rfl, fun r w' hRun => ?_⟩
  cases hRun
  exact ⟨false, .none rfl, fun ht => .inl (h ht)⟩

theorem state : Polite keeps me said (fun _ => false) state := by
  refine fun w _ => ⟨fun _ => rfl, fun r w' hRun => ?_⟩
  cases hRun
  exact ⟨false, .none rfl, nofun⟩

theorem orFault (o : Option α) : Polite keeps me said (fun _ => false) (orFault o) := by
  cases o with
  | none => exact fun w _ => ⟨fun _ => rfl, nofun⟩
  | some a => exact pure nofun

theorem bind {f : α → Attempt β} (hx : Polite keeps me said told x)
    (hf : ∀ a, Polite keeps me (said || told a) told' (f a)) : Polite keeps me said told' (x >>= f) := by
  intro w hMe
  obtain ⟨hOwn, hFirst⟩ := hx w hMe
  rw [attempt_bind_apply]
  rcases hRun : x w with ⟨e | a, w1⟩ | ⟨a, w1⟩ <;> rw [hRun] at hOwn
  · refine ⟨hOwn, fun r w' h => ?_⟩
    cases h
    exact hFirst _ _ hRun
  · obtain ⟨y, hReq, hSaid⟩ := hFirst _ _ hRun
    obtain ⟨hOwn', hThen⟩ := hf a w1 (hReq.amends.size ▸ hMe)
    refine ⟨fun hKeeps => (hOwn' hKeeps).trans (hOwn hKeeps), fun r w' h => ?_⟩
    obtain ⟨y', hReq', hSaid'⟩ := hThen r w' h
    refine ⟨y || y', hReq.trans hReq', fun ht => ?_⟩
    rcases hSaid' ht with hBefore | hNow
    · rcases Bool.or_eq_true _ _ ▸ hBefore with hs | ht
      · exact .inl hs
      · exact (hSaid ht).imp id fun hy => by simp [hy]
    · exact .inr (by simp [hNow])
  · exact ⟨hOwn, nofun⟩

theorem weaken {said' : Bool} (hx : Polite keeps me said told x) (h : said = true → said' = true) :
    Polite keeps me said' told x := by
  intro w hMe
  refine ⟨(hx w hMe).1, fun r w' hRun => ?_⟩
  obtain ⟨y, hReq, hSaid⟩ := (hx w hMe).2 r w' hRun
  exact ⟨y, hReq, fun ht => (hSaid ht).imp h id⟩

theorem foldlM {γ : Type} {f : α → γ → Attempt α} (hf : ∀ a c, Polite keeps me (told a) told (f a c)) :
    ∀ (l : List γ) (a : α), Polite keeps me (told a) told (l.foldlM f a)
  | [], _ => pure id
  | c :: l, a => by
    rw [List.foldlM_cons]
    exact bind (hf a c) fun a' => (foldlM hf l a').weaken fun ht => by simp [ht]

end Polite

/-! ## Asking -/

/-- Is the answer to a question that something is to be waited for? -/
def told (pool : Pool Nat) (me : Nat) (s : Symbol) (p : Phase) : Bool :=
  match answer pool me s p with
  | some f => f.isCause .yield
  | none => false

/-- The declaration has reached the phase. -/
def Arrived (w : World Nat State) (c : Nat × Phase) : Prop :=
  ∃ i, w.pool.lookup c.1 = some i ∧ c.2 ≤ (w.pool.entity i).phase

/-- Asking for a declaration is a requirement, unless there is no such declaration, and the answer is the one the pool
gives. Nothing has changed if the declaration is there. -/
structure Asked (me : Nat) (s : Symbol) (p : Phase) (w : World Nat State) (r : Except Failure Unit) (w' : World Nat State) :
    Prop where
  run : require me s p w = .ok r w'
  own : w'.own = w.own
  required : Required me w w' (Failure.yields r)
  yields : Failure.yields r = told w.pool me s p
  there : r = .ok () → w' = w ∧ Arrived w (s.id, p)

/-- A declaration whose entity is not there cannot be asked for. -/
theorem asked_cases (s : Symbol) (hp : p ≤ .run) (hMe : me < w.pool.size) :
    (∃ a, require me s p w = .error a w) ∨ ∃ r w', Asked me s p w r w' := by
  cases hLookup : w.pool.lookup s.id with
  | none =>
    refine .inr ⟨.error (undeclared s), w, ?_, rfl, .none rfl, ?_, nofun⟩
    · simp only [require, bind_apply, scheduler_apply, show w.scheduler.pool = w.pool from rfl, hLookup]
      rfl
    · rw [told, answer, hLookup]
      rfl
  | some target =>
    have hRequire : require me s p w = Act.require me target p w := by
      simp only [require, bind_apply, scheduler_apply, show w.scheduler.pool = w.pool from rfl, hLookup]
    by_cases hTarget : target < w.pool.size
    swap
    · obtain ⟨a, hRefused⟩ := require_of_size_le me p (Nat.not_lt.mp hTarget)
      exact .inl ⟨a, hRequire.trans (require_refused hRefused)⟩
    -- whatever the pool answers
    refine .inr ?_
    have hAnswer {pool : Pool Nat} {r : Except Failure Unit} (hReq : w.pool.require me target p = .ok (pool, r))
        (hThere : r = .ok () → w.setPool pool = w ∧ Arrived w (s.id, p)) : ∃ r w', Asked me s p w r w' := by
      refine ⟨r, w.setPool pool, ?_, rfl, ⟨rfl, .one hTarget hp hReq⟩, ?_, hThere⟩
      · exact hRequire.trans (require_apply hReq)
      · rw [told, answer, hLookup]
        dsimp only
        rw [hReq]
        rcases r with f | ⟨⟩ <;> rfl
    rcases require_cases p hMe hTarget with ⟨hSat, hReq⟩ | ⟨-, -, f, -, hReq⟩ | ⟨-, -, f, -, hReq⟩
    · exact hAnswer hReq fun _ => ⟨rfl, target, hLookup, satisfied_iff.mp hSat⟩
    · exact hAnswer hReq nofun
    · exact hAnswer hReq nofun

/-- Requirements do not change what other questions are answered. -/
theorem told_congr {pool pool' : Pool Nat} (h : Amends me pool pool') (hMe : me < pool.size) (s : Symbol)
    (p : Phase) : told pool' me s p = told pool me s p := by
  unfold told answer
  rw [lookup_congr h.books]
  cases hLookup : pool.lookup s.id with
  | none => rfl
  | some target =>
    by_cases hTarget : target < pool.size
    swap
    · obtain ⟨a, hRefused⟩ := require_of_size_le me p (Nat.not_lt.mp hTarget)
      obtain ⟨a', hRefused'⟩ := require_of_size_le (p := pool') me p (h.size ▸ Nat.not_lt.mp hTarget)
      dsimp only
      rw [hRefused, hRefused']
    have hSat : pool'.satisfied ⟨target, p⟩ = pool.satisfied ⟨target, p⟩ := satisfied_congr (h.phase target)
    dsimp only
    -- both pools answer by the phase and the error of the target
    rcases require_cases p hMe hTarget with ⟨hs, hReq⟩ | ⟨hs, hf, f, hCause, hReq⟩ | ⟨hs, hf, f, hCause, hReq⟩ <;>
    rcases require_cases (p := pool') p (h.size ▸ hMe) (h.size ▸ hTarget) with
      ⟨hs', hReq'⟩ | ⟨hs', hf', f', hCause', hReq'⟩ | ⟨hs', hf', f', hCause', hReq'⟩ <;>
    simp_all [Failure.isCause, h.failed target]

theorem ask_apply {s : Symbol} {r : Except Failure Unit} (h : require me s p w = .ok r w') :
    ask me s p w = .ok (.ok r) w' := by
  show (Except.ok <$> require me s p : Act (Except Failure (Except Failure Unit))) w = _
  rw [map_eq_pure_bind, bind_apply, h]
  rfl

theorem ask_refused {s : Symbol} {a : Abort} (h : require me s p w = .error a w') : ask me s p w = .error a w' := by
  show (Except.ok <$> require me s p : Act (Except Failure (Except Failure Unit))) w = _
  rw [map_eq_pure_bind, bind_apply, h]

theorem Polite.ask {said : Bool} (s : Symbol) (hp : p ≤ .run) : Polite keeps me said Failure.yields (ask me s p) := by
  intro w hMe
  rcases asked_cases s hp hMe with ⟨a, hRefused⟩ | ⟨a, w1, hAsked⟩
  · rw [ask_refused hRefused]
    exact ⟨fun _ => rfl, nofun⟩
  rw [ask_apply hAsked.run]
  refine ⟨fun _ => hAsked.own, fun r w' hRun => ?_⟩
  cases hRun
  exact ⟨_, hAsked.required, .inr⟩

/-! ## Attempts that leave the scheduler alone -/

/-- The attempt leaves what `look` sees as it is, and fails for reasons in `E` only. -/
def Leaves {γ : Type} (look : World Nat State → γ) (E : Failure → Prop) (x : Attempt α) : Prop :=
  ∀ w r w', x w = .ok r w' → look w' = look w ∧ ∀ f, r = .error f → E f

theorem inContext_apply (context : String) (x : Attempt α) (w : World Nat State) : inContext context x w = match x w with
    | .ok r w' => .ok (r.mapError (.within context)) w'
    | .error a w' => .error a w' := by
  show (x >>= fun r => Pure.pure (r.mapError (.within context)) : Act (Except Failure α)) w = _
  rw [bind_apply]
  cases x w <;> rfl

namespace Leaves

variable {γ : Type} {look : World Nat State → γ} {E : Failure → Prop}

theorem pure (a : α) : Leaves look E (Pure.pure a : Attempt α) := fun _ _ _ h => by
  cases h
  exact ⟨rfl, nofun⟩

theorem throw (h : E f) : Leaves look E (MonadExcept.throw f : Attempt α) := fun _ _ _ hRun => by
  cases hRun
  exact ⟨rfl, fun _ hf => Except.error.inj hf ▸ h⟩

theorem abort (a : Abort) : Leaves look E (Compile.abort a : Attempt α) := nofun

theorem state : Leaves look E state := fun _ _ _ h => by
  cases h
  exact ⟨rfl, nofun⟩

theorem orFault (o : Option α) : Leaves look E (orFault o) := by
  cases o with
  | none => exact abort _
  | some a => exact pure a

theorem bind {f : α → Attempt β} (hx : Leaves look E x) (hf : ∀ a, Leaves look E (f a)) : Leaves look E (x >>= f) := by
  intro w r w' hRun
  rw [attempt_bind_apply] at hRun
  rcases hFirst : x w with ⟨e | a, w1⟩ | ⟨a, w1⟩ <;> rw [hFirst] at hRun
  · cases hRun
    exact ⟨(hx w _ _ hFirst).1, fun f hf => (hx w _ _ hFirst).2 f (congrArg _ (Except.error.inj hf))⟩
  · obtain ⟨hLook, hFails⟩ := hf a w1 r w' hRun
    exact ⟨hLook.trans (hx w _ _ hFirst).1, hFails⟩
  · cases hRun

theorem inContext (hE : ∀ c f, E f → E (.within c f)) (context : String) (hx : Leaves look E x) :
    Leaves look E (inContext context x) := by
  intro w r w' h
  rw [inContext_apply] at h
  rcases hInner : x w with ⟨r', w1⟩ | ⟨a, w1⟩ <;> rw [hInner] at h <;> cases h
  refine ⟨(hx w _ _ hInner).1, fun f hf => ?_⟩
  rcases r' with g | a <;> cases hf
  exact hE _ _ ((hx w _ _ hInner).2 g rfl)

/-- Executing code calls it, and keeps its result in a global if that does not fit into a register. -/
theorem execute (hCall : ∀ name args, Leaves look E (call name args)) (hGlobal : ∀ name ty, Leaves look E (global name ty))
    (hE : ∀ e : BadAccess, E e.toFailure) (b : Built) : Leaves look E (execute b) := by
  unfold Compile.execute
  cases b.sig.results with
  | nil => exact .bind (.bind (hCall _ _) fun _ => .pure _) fun _ => .pure _
  | cons t ts =>
    dsimp only
    split
    · refine .bind (hCall _ _) fun v => .bind (.orFault _) fun size => ?_
      split
      · exact .bind (.abort _) fun _ => .pure _
      · exact .pure _
    · refine .bind (hGlobal _ _) fun out => .bind (.bind (hCall _ _) fun _ => .pure _) fun _ => ?_
      refine .bind .state fun st => .bind (.orFault _) fun size => ?_
      cases st.machine.memory.read out size with
      | ok bytes => exact .pure _
      | error e => exact .throw (hE e)

end Leaves

/-- The scheduler stays as it is, and a failure is not a yield. -/
def Quiet (x : Attempt α) : Prop := Leaves World.scheduler (·.isCause .yield = false) x

/-- An attempt that leaves the scheduler alone and does not yield. -/
theorem Quiet.polite {said : Bool} (h : Quiet x) : Polite False me said (fun _ => false) x := by
  refine fun w _ => ⟨False.elim, fun r w' hRun => ?_⟩
  obtain ⟨hScheduler, hFail⟩ := h w r w' hRun
  refine ⟨false, .none hScheduler, fun ht => ?_⟩
  rcases r with f | a
  · rw [waits, hFail f rfl] at ht
    cases ht
  · cases ht

theorem quiet_modifyState (f : State → State) : Quiet (modifyState f) := fun _ _ _ h => by
  cases h
  exact ⟨rfl, nofun⟩

theorem quiet_global (name : String) (ty : Ty) : Quiet (global name ty) :=
  .bind (.orFault _) fun _ => .bind .state fun _ => .bind (quiet_modifyState _) fun _ => .pure _

/-- Whatever halts the machine, it is no reason to yield. -/
theorem Halt.isCause_yield {h : Halt} (hStop : h.toStop = .failed f) : f.isCause .yield = false := by
  cases h <;> cases hStop <;> rfl

theorem quiet_call (name : String) (args : List UInt64) : Quiet (call name args) := by
  unfold call
  refine .bind .state fun st => ?_
  obtain ⟨m, h | v⟩ := st.machine.call name args
  · refine .bind (quiet_modifyState _) fun _ => ?_
    dsimp only
    cases hStop : h.toStop with
    | failed f => exact .throw (Halt.isCause_yield hStop)
    | aborted a => exact .abort a
  · exact .bind (quiet_modifyState _) fun _ => .pure v

theorem quiet_execute (b : Built) : Quiet (execute b) := .execute quiet_call quiet_global (fun e => by cases e <;> rfl) b

theorem quiet_inContext (context : String) (hx : Quiet x) : Quiet (inContext context x) :=
  .inContext (fun _ _ => id) context hx

/-! ## Running code -/

/-- Has the walk come to something that is to be waited for? -/
def Reach.lacks (r : Reach) : Bool := r.missing.isSome

theorem polite_visit {r : Reach} (s : Symbol) (hp : p ≤ .run) {next : Reach → Attempt Reach}
    (hNext : ∀ r', Polite keeps me r'.lacks Reach.lacks (next r')) :
    Polite keeps me r.lacks Reach.lacks (r.visit me s p next) := by
  unfold Reach.visit
  split
  · exact .pure id
  · refine .bind (.ask s hp) fun a => ?_
    rcases a with f | ⟨⟩
    · dsimp only
      split
      · rename_i hYield
        exact .pure fun _ => by simp [Failure.yields, hYield]
      · rename_i hYield
        exact .throw fun h => absurd h hYield
    · simpa [Failure.yields, Reach.lacks] using hNext { r with seen := (s.id, p) :: r.seen }

theorem polite_reach (fuel : Nat) (b : Built) (r : Reach) : Polite keeps me r.lacks Reach.lacks (reach me fuel b r) := by
  induction fuel generalizing b r with
  | zero => exact .pure id
  | succ fuel ih =>
    unfold reach
    refine .bind (.foldlM (fun r g => polite_visit _ (by decide) fun r' => .pure id) _ _) fun r1 => ?_
    refine (Polite.foldlM (fun r2 p => ?_) b.callees r1).weaken fun h => by simp [h]
    refine polite_visit _ (by decide) fun r' => ?_
    -- the code of a callee that is there is walked over with one step less
    refine .bind .state fun st => .bind (.orFault _) fun b' => ?_
    exact (ih b' r').weaken fun h => by simp [h]

theorem polite_ready (id : Nat) (b : Built) : Polite keeps me false (fun _ => false) (ready me id b) := by
  refine .bind .state fun st => .bind (polite_reach _ b _) fun r => ?_
  cases hMissing : r.missing with
  | some f => exact .throw fun _ => by simp [Reach.lacks, hMissing]
  | none => exact .pure fun h => by cases h

/-! ## Building code -/

theorem discard_eq (x : Attempt α) : Functor.discard x = x >>= fun _ => pure () := by
  unfold Functor.discard
  rw [map_const, Function.comp_apply, map_eq_pure_bind]

/-- Asks for declarations, one after the other. -/
def askAll (me : Nat) (qs : List (Symbol × Phase)) : Attempt PUnit :=
  forIn qs PUnit.unit fun q _ => do discard (ask me q.1 q.2); return .yield PUnit.unit

/-- Requiring everything that was asked for, unless some of it is not there. Where an answer was to wait, so is a
requirement. -/
theorem askAll_eq : ∀ (qs : List (Symbol × Phase)) (w : World Nat State), me < w.pool.size →
    (∀ q ∈ qs, q.2 ≤ .run) →
    ∃ w' y, w'.own = w.own ∧ Required me w w' y ∧ ((∃ a, askAll me qs w = .error a w') ∨
      askAll me qs w = .ok (.ok ()) w' ∧ ∀ q ∈ qs, told w.pool me q.1 q.2 = true → y = true)
  | [], w, _, _ => ⟨w, false, rfl, .none rfl, .inr ⟨rfl, fun _ h => by cases h⟩⟩
  | (s, p) :: qs, w, hMe, hRange => by
    simp only [askAll, List.forIn_cons, attempt_bind_apply, discard_eq]
    rcases asked_cases s (hRange _ (List.mem_cons_self ..)) hMe with ⟨a, hRefused⟩ | ⟨r, w1, hAsked⟩
    · exact ⟨w, false, rfl, .none rfl, .inl ⟨a, by rw [ask_refused hRefused]⟩⟩
    have hExt := hAsked.required.amends
    obtain ⟨w', y, hOwn', hRequired', hRest⟩ := askAll_eq qs w1 (hExt.size ▸ hMe) fun q hq =>
      hRange q (List.mem_cons_of_mem _ hq)
    rw [ask_apply hAsked.run]
    refine ⟨w', Failure.yields r || y, hOwn'.trans hAsked.own, hAsked.required.trans hRequired', ?_⟩
    refine hRest.imp id fun ⟨hRun, hTold⟩ => ⟨hRun, fun q hq ht => ?_⟩
    rcases List.mem_cons.mp hq with rfl | hq
    · rw [hAsked.yields, ht]
      rfl
    · rw [hTold q hq ((told_congr hExt hMe q.1 q.2).trans ht), Bool.or_true]

/-- Building requires what it has asked for. Then the machine learns the code, or nothing happens to the state. -/
theorem build_cases (options : Options) (id : Nat) (p : ProcDecl) (hMe : me < w.pool.size) :
    ∃ w1 y, Required me w w1 y ∧ w1.own = w.own ∧
      ((∃ b, b.proc.name = p.name ∧ build options me id p w = .ok (.ok ()) { w1 with
          own := { w.own with built := (id, b) :: w.own.built, machine := w.own.machine.addProc b.proc } }) ∨
        (∃ f, build options me id p w = .ok (.error f) w1 ∧ (f.isCause .yield = true → y = true)) ∨
        ∃ a, build options me id p w = .error a w1) := by
  unfold build
  rw [attempt_bind_apply, show (liftM Act.scheduler : Attempt (Scheduler Nat)) w = .ok (.ok w.scheduler) w
    from rfl]
  dsimp only
  rw [show w.scheduler.pool = w.pool from rfl]
  generalize hConfig : ({ direct := options.direct, ready := some (answer w.pool me) } : Config) = config
  have hReady : config.ready = some (answer w.pool me) := hConfig ▸ rfl
  obtain ⟨w1, y, hOwn, hRequired, hAsked⟩ := askAll_eq (p.build config).asked w hMe fun q hq => by
    rw [ProcDecl.build_asked hq]
    decide
  refine ⟨w1, y, hRequired, hOwn, ?_⟩
  rw [attempt_bind_apply]
  unfold askAll at hAsked
  -- whether or not building succeeds, what it asked for is required first
  rcases hAsked with ⟨a, hAbort⟩ | ⟨hAsked, hTold⟩
  · rw [hAbort]
    exact .inr (.inr ⟨a, rfl⟩)
  rw [hAsked, ← hOwn]
  dsimp only
  cases hBuilt : (p.build config).built with
  | ok b =>
    obtain ⟨-, -, -, -, -, -, -, -, -, -, hName⟩ := ProcDecl.build_eq_ok hBuilt
    exact .inl ⟨b, hName, rfl⟩
  | error e =>
    cases e with
    | aborted a => exact .inr (.inr ⟨a, rfl⟩)
    | failed f =>
      refine .inr (.inl ⟨f, rfl, fun hYield => ?_⟩)
      -- it yields only because of an answer, and then that question has yielded before
      obtain ⟨ready, hSome, s, q, g, hq, hAnswer, hg⟩ := ProcDecl.build_yields hBuilt hYield
      rw [hReady] at hSome
      cases hSome
      refine hTold (s, q) hq ?_
      rw [told, hAnswer]
      exact hg

theorem polite_build (options : Options) (id : Nat) (p : ProcDecl) :
    Polite False me false (fun _ => false) (build options me id p) := by
  refine fun w hMe => ⟨False.elim, fun r w' hRun => ?_⟩
  obtain ⟨w1, y, hRequired, -, ⟨b, -, hBuild⟩ | ⟨f, hBuild, hYields⟩ | ⟨a, hBuild⟩⟩ := build_cases options id p hMe <;>
    rw [hBuild] at hRun <;> cases hRun
  · exact ⟨y, ⟨hRequired.scheduler, hRequired.requires⟩, nofun⟩
  · exact ⟨y, hRequired, fun h => .inr (hYields h)⟩

theorem polite_buildBytecode (options : Options) (runName : String) (d : Decl) :
    Polite False me false (fun _ => false) (buildBytecode options me runName d) := by
  cases d with
  | proc p => exact polite_build options p.id p
  | var v init =>
    unfold buildBytecode
    refine .bind (Quiet.polite (.bind (quiet_global _ _) fun _ => .pure _)) fun _ => ?_
    split
    · exact .pure fun h => by cases h
    · exact polite_build options v.id _
  | type s ty => exact .pure fun h => by cases h
  | run id x => exact .bind (.orFault _) fun p => polite_build options id p

theorem polite_runCode (runName : String) (d : Decl) :
    Polite False me false (fun _ => false) (runCode me runName d) := by
  cases d with
  | proc p | type s ty => exact .pure fun h => by cases h
  | var v init =>
    refine .bind .state fun st => ?_
    cases st.built.lookup v.id with
    | none => exact .pure fun h => by cases h
    | some b =>
      refine .bind (polite_ready v.id b) fun _ => ?_
      exact Quiet.polite (.bind (quiet_inContext _ (quiet_call _ _)) fun _ => .pure _)
  | run id x =>
    refine .bind .state fun st => .bind (.orFault _) fun b => ?_
    refine .bind (polite_ready id b) fun _ => .bind (quiet_inContext _ (quiet_execute b)).polite fun value => ?_
    exact (quiet_modifyState _).polite

/-! ## The handler -/

/-- How a checker asks for what a name in its plan stands for. -/
def request (c : Checker) (i : Plan.Item) (me : Nat) (target : String) (needed : Phase) : Act (Except Failure Unit) :=
  match c.decls.lookup target with
  | none => return .error (.plain (i.name ++ ": no declaration for " ++ target))
  | some s => Compile.require me s needed

theorem check_of_item {c : Checker} {d : Decl} {i : Plan.Item} (h : c.plan.item? d.name = some i) (p : Phase) :
    c.check me d p = i.replay p (request c i me) := by
  unfold Checker.check
  rw [h]
  rfl

theorem polite_request {said : Bool} (c : Checker) (i : Plan.Item) (target : String) {needed : Phase}
    (hNeeded : needed ≤ .run) :
    Polite keeps me said Failure.yields (ExceptT.lift (request c i me target needed)) := by
  unfold request
  cases c.decls.lookup target with
  | none => exact .pure nofun
  | some s => exact .ask s hNeeded

/-- Raising needs is requiring, and yields only if a requirement does. -/
theorem polite_raise (c : Checker) (i : Plan.Item) : ∀ ns : List Plan.Need, (∀ n ∈ ns, n.phase ≤ .run) →
    Polite keeps me false (fun _ => false) (Plan.raise (request c i me) ns : Act (Except Failure Unit))
  | [], _ => .pure nofun
  | n :: ns, hRange => by
    have hRest := polite_raise c i ns fun m hm => hRange m (List.mem_cons_of_mem _ hm)
    rw [Plan.raise, lift_bind]
    refine .bind (polite_request c i n.target (hRange n (List.mem_cons_self ..))) fun r => ?_
    rcases r with f | ⟨⟩
    · dsimp only
      split
      · exact hRest.weaken nofun
      · exact .throw fun h => h
    · exact hRest.weaken nofun

theorem polite_check {c : Checker} (hPlan : ∀ i ∈ c.plan.items, ∀ n ∈ i.needs, n.phase ≤ .run) (d : Decl) (p : Phase) :
    Polite keeps me false (fun _ => false) (c.check me d p : Act (Except Failure Unit)) := by
  cases hItem : c.plan.item? d.name with
  | none =>
    unfold Checker.check
    rw [hItem]
    exact .pure fun h => by cases h
  | some i =>
    have hi : i ∈ c.plan.items := List.mem_of_find?_eq_some hItem
    have hReplay : i.replay p (request c i me) = (ExceptT.mk (Plan.raise (request c i me) (i.needs.filter (·.raised = p))) >>=
        fun _ => ExceptT.mk (pure (if i.fail = p then .error (.within s!"{i.name} at {p.name}" (.known .injected)) else .ok ())) :
        Attempt Unit) :=
      bind_congr fun r => by rcases r with f | ⟨⟩ <;> rfl
    rw [check_of_item hItem, hReplay]
    refine .bind (polite_raise c i _ fun n hn => hPlan i hi n (List.mem_of_mem_filter hn)) fun _ => ?_
    -- an injected failure is not a yield
    split
    · exact .throw nofun
    · exact .pure nofun

/-- A checker may only ask for phases that can be reached. -/
def Options.Reachable (options : Options) : Prop :=
  ∀ c, options.checker = some c → ∀ i ∈ c.plan.items, ∀ n ∈ i.needs, n.phase ≤ .run

theorem polite_checked {options : Options} (hChecker : options.Reachable) (d : Decl) (p : Phase) :
    Polite keeps me false (fun _ => false) (match options.checker with
      | none => return .ok ()
      | some c => c.check me d p : Act (Except Failure Unit)) := by
  cases hSome : options.checker with
  | none => exact .pure fun h => by cases h
  | some c => exact polite_check (hChecker c hSome) d p

/-- The declaration that an entity stands for. -/
def declared (decls : List Decl) (w : World Nat State) (me : Nat) : Option Decl :=
  (w.pool.entity me).node.bind fun id => decls.find? (·.id == id)

theorem handler_of_none {options : Options} {decls : List Decl} (h : declared decls w me = none) :
    handler options decls p me w = .ok (.ok ()) w := by
  unfold handler
  rw [bind_apply, scheduler_apply]
  dsimp only
  rewrite [show ((w.scheduler.pool.entity me).node.bind fun id => decls.find? (·.id == id)) = none from h]
  rfl

theorem handler_eq {options : Options} {decls : List Decl} {d : Decl} (h : declared decls w me = some d) :
    handler options decls p me w = (if p = .bytecodeBuilt then (buildBytecode options me (runName decls d.id) d).run
      else if p = .run then (runCode me (runName decls d.id) d).run
      else match options.checker with
        | none => return .ok ()
        | some c => c.check me d p : Act (Except Failure Unit)) w := by
  unfold handler
  rw [bind_apply, scheduler_apply]
  dsimp only
  rewrite [show ((w.scheduler.pool.entity me).node.bind fun id => decls.find? (·.id == id)) = some d from h]
  rfl

/-- **The handler of a compilation is disciplined.** -/
theorem disciplined_handler {options : Options} (decls : List Decl) (hChecker : options.Reachable) (p : Phase)
    (hMe : me < w.pool.size) : Disciplined (handler options decls) p me w := by
  intro r w' hRun
  obtain ⟨y, hRequired, hSaid⟩ : ∃ y, Required me w w' y ∧ (waits (fun _ => false) r = true → false = true ∨ y = true) := by
    cases hDecl : declared decls w me with
    | none =>
      rw [handler_of_none hDecl] at hRun
      cases hRun
      exact ⟨false, .none rfl, fun h => by cases h⟩
    | some d =>
      rw [handler_eq hDecl] at hRun
      split at hRun
      · exact (polite_buildBytecode options _ d w hMe).2 r w' hRun
      · split at hRun
        · exact (polite_runCode _ d w hMe).2 r w' hRun
        · exact (polite_checked hChecker d p w hMe : (False → _) ∧ _).2 r w' hRun
  refine ⟨w'.pool, y, hRequired.scheduler, hRequired.requires, fun h => ?_⟩
  rcases r with f | ⟨⟩
  · exact (hSaid h).resolve_left (by rintro ⟨⟩)
  · cases h

end Compile

end Comptime
