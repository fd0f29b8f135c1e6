import Comptime.Proofs.Schedule.Detection

/-!
# Turns, phases and rounds as steps between worlds

What the scheduler does, read off as a relation: `Turn` says everything one entity of a queue can come to when its turn
comes. The loops over a queue, over the phases and over the rounds are then equations (`turns_cons`, `runPhase_eq`,
`phases_cons`, `round_eq`), so that what a run keeps follows from what a turn keeps.
-/

namespace Comptime

variable {p : Phase} {id : Nat}

namespace Queues

/-- The phases that have a queue. -/
def Attempts (p : Phase) : Prop := 2 ≤ p.rank ∧ p.rank ≤ 5

instance (p : Phase) : Decidable (Attempts p) := inferInstanceAs (Decidable (_ ∧ _))

theorem mem_handled_iff : p ∈ Phase.handled ↔ Attempts p := by
  obtain ⟨r⟩ := p
  simp only [Attempts, Phase.handled, Phase.typeChecked, Phase.sizeComputed, Phase.bytecodeBuilt, Phase.run,
    List.mem_cons, Phase.mk.injEq, List.not_mem_nil, or_false]
  omega

theorem get_eq (q : Queues) (p : Phase) :
    q.get p = if p.rank = 2 then q.typeChecked else if p.rank = 3 then q.sizeComputed
      else if p.rank = 4 then q.bytecodeBuilt else if p.rank = 5 then q.run else [] := by
  unfold get
  split <;> simp_all

theorem set_eq (q : Queues) (p : Phase) (l : List Nat) :
    q.set p l = if p.rank = 2 then { q with typeChecked := l } else if p.rank = 3 then { q with sizeComputed := l }
      else if p.rank = 4 then { q with bytecodeBuilt := l } else if p.rank = 5 then { q with run := l } else q := by
  unfold set
  split <;> simp_all

theorem get_of_not_attempts (q : Queues) (h : ¬ Attempts p) : q.get p = [] := by
  rw [get_eq]
  unfold Attempts at h
  rw [if_neg (by omega), if_neg (by omega), if_neg (by omega), if_neg (by omega)]

theorem get_set (q : Queues) (p p' : Phase) (l : List Nat) :
    (q.set p l).get p' = if p = p' ∧ Attempts p then l else q.get p' := by
  have hEq : p = p' ↔ p.rank = p'.rank := ⟨fun h => h ▸ rfl, Phase.ext_rank⟩
  simp only [get_eq, set_eq, hEq, Attempts]
  grind

@[simp] theorem set_get (q : Queues) (p : Phase) : q.set p (q.get p) = q := by
  simp only [get_eq, set_eq]
  split_ifs <;> rfl

@[simp] theorem set_set (q : Queues) (p : Phase) (l l' : List Nat) : (q.set p l).set p l' = q.set p l' := by
  simp only [set_eq]
  split_ifs <;> rfl

theorem mem_all_iff {q : Queues} : id ∈ q.all ↔ ∃ p, id ∈ q.get p := by
  constructor
  · intro h
    simp only [all, List.mem_append] at h
    rcases h with ((h | h) | h) | h
    · exact ⟨.typeChecked, h⟩
    · exact ⟨.sizeComputed, h⟩
    · exact ⟨.bytecodeBuilt, h⟩
    · exact ⟨.run, h⟩
  · rintro ⟨p, h⟩
    unfold get at h
    simp only [all, List.mem_append]
    split at h <;> simp_all

end Queues

namespace Scheduler

variable {ν σ : Type} {handle : Handler ν σ}
variable {w : World ν σ}

namespace World

variable (w : World ν σ)

def pool : Pool ν := w.scheduler.pool

def queue (p : Phase) : List Nat := w.scheduler.queues.get p

def setPool (pool : Pool ν) : World ν σ := { w with scheduler := { w.scheduler with pool } }

def setQueue (p : Phase) (l : List Nat) : World ν σ :=
  { w with scheduler := { w.scheduler with queues := w.scheduler.queues.set p l } }

/-- The entity has dropped the edges it need not wait for. -/
def settled (id : Nat) : World ν σ := { w with scheduler := (w.scheduler.settle id).1 }

/-- The entity has reached the phase, and attempts the next one. -/
def advanced (p : Phase) (id : Nat) : World ν σ :=
  (w.setPool (w.pool.update id fun e => { e with phase := p, deps := [] })).setQueue p.succ (w.queue p.succ ++ [id])

/-- The entity has failed. -/
def failing (id : Nat) (f : Failure) : World ν σ :=
  w.setPool (w.pool.update id (·.setError (if f.isCause .dependency then .dependency else .semantic) f))

/-- The search for cycles from the queue of a phase has been made. -/
def searched (p : Phase) : World ν σ := w.setPool (w.pool.detectCycles (w.queue p)).pool

/-- One more round has begun. -/
def countRound : World ν σ :=
  { w with scheduler := { w.scheduler with rounds := w.scheduler.rounds + 1 } }

end World

open Act

/-! ## One turn -/

/-- The attempt at a phase, handled or not, ends with a result. -/
def Answers (handle : Handler ν σ) (p : Phase) (id : Nat) (w : World ν σ) (r : Except Failure Unit) (w' : World ν σ) :
    Prop :=
  if p ∈ w.scheduler.handled then handle p id w = .ok r w' else r = .ok () ∧ w' = w

/-- What can come of the turn of an entity: does it stay in the queue, and has anything moved? -/
inductive Turn (handle : Handler ν σ) (p : Phase) (id : Nat) (w : World ν σ) : Bool → Bool → World ν σ → Prop where
  | drop : (w.pool.entity id).failed = true → Turn handle p id w false true w
  | wait : (w.pool.entity id).failed = false → (w.scheduler.settle id).2 = true →
      Turn handle p id w true false (w.settled id)
  | advance {w' : World ν σ} : (w.pool.entity id).failed = false → (w.scheduler.settle id).2 = false →
      Answers handle p id (w.settled id) (.ok ()) w' → Turn handle p id w false true (w'.advanced p id)
  | yield {w' : World ν σ} {f : Failure} : (w.pool.entity id).failed = false → (w.scheduler.settle id).2 = false →
      Answers handle p id (w.settled id) (.error f) w' → f.isCause .yield = true →
      Turn handle p id w true (!(w'.pool.entity id).deps.isEmpty) w'
  | fail {w' : World ν σ} {f : Failure} : (w.pool.entity id).failed = false → (w.scheduler.settle id).2 = false →
      Answers handle p id (w.settled id) (.error f) w' → f.isCause .yield = false →
      Turn handle p id w false true (w'.failing id f)

theorem bind_apply {α β : Type} (x : Act ν σ α) (f : α → Act ν σ β) (w : World ν σ) :
    (x >>= f) w = match x w with
      | .ok a w' => f a w'
      | .error e w' => .error e w' := by
  show EStateM.bind x f w = _
  unfold EStateM.bind
  cases x w <;> rfl

theorem pure_apply {α : Type} (a : α) (w : World ν σ) : (pure a : Act ν σ α) w = .ok a w := rfl

theorem scheduler_apply (w : World ν σ) : scheduler w = .ok w.scheduler w := rfl

theorem modifyScheduler_apply (f : Scheduler ν → Scheduler ν) (w : World ν σ) :
    modifyScheduler f w = .ok () { w with scheduler := f w.scheduler } := rfl

/-- When the attempt gives an answer, the entity's turn comes to one thing. -/
theorem exists_turn
    (h : (w.pool.entity id).failed = false → (w.scheduler.settle id).2 = false →
      ∃ r w', Answers handle p id (w.settled id) r w') :
    ∃ stays moved w', Turn handle p id w stays moved w' := by
  cases hFailed : (w.pool.entity id).failed with
  | true => exact ⟨_, _, _, .drop hFailed⟩
  | false =>
    cases hWaits : (w.scheduler.settle id).2 with
    | true => exact ⟨_, _, _, .wait hFailed hWaits⟩
    | false =>
      obtain ⟨r, w', hAns⟩ := h hFailed hWaits
      rcases r with f | ⟨⟩
      · cases hYield : f.isCause .yield with
        | true => exact ⟨_, _, _, .yield hFailed hWaits hAns hYield⟩
        | false => exact ⟨_, _, _, .fail hFailed hWaits hAns hYield⟩
      · exact ⟨_, _, _, .advance hFailed hWaits hAns⟩

/-! ## The loops -/

/-- What an answer makes of an attempt. -/
def concluded (p : Phase) (id : Nat) (w : World ν σ) : Except Failure Unit → (Bool × Bool) × World ν σ
  | .ok () => ((false, true), w.advanced p id)
  | .error f =>
    if f.isCause .yield then ((true, !(w.pool.entity id).deps.isEmpty), w) else ((false, true), w.failing id f)

theorem attempt_of_answers {w' : World ν σ} {r : Except Failure Unit} (h : Answers handle p id w r w') :
    attempt handle p id w = .ok (concluded p id w' r).1 (concluded p id w' r).2 := by
  unfold attempt
  simp only [bind_apply, scheduler_apply]
  unfold Answers at h
  by_cases hHandled : p ∈ w.scheduler.handled
  · rw [if_pos hHandled] at h
    simp only [hHandled, if_true, bind_apply, h]
    rcases r with f | ⟨⟩
    · cases hYield : f.isCause .yield <;> simp only [concluded, hYield] <;> rfl
    · rfl
  · rw [if_neg hHandled] at h
    obtain ⟨rfl, rfl⟩ := h
    simp only [hHandled, if_false]
    rfl

theorem turns_cons {rest : List Nat} {w' : World ν σ} {stays moved : Bool} (h : Turn handle p id w stays moved w') :
    turns handle p (id :: rest) w = match turns handle p rest w' with
      | .ok (kept, more) w'' => .ok (if stays then id :: kept else kept, moved || more) w''
      | .error a w'' => .error a w'' := by
  rw [turns]
  simp only [bind_apply, scheduler_apply]
  -- the three turns that call the handler come to what the attempt comes to
  have hCalled {r : Except Failure Unit} {w1 : World ν σ} (hAns : Answers handle p id (w.settled id) r w1) :
      attempt handle p id { scheduler := (w.scheduler.settle id).1, own := w.own } =
        .ok (concluded p id w1 r).1 (concluded p id w1 r).2 := attempt_of_answers hAns
  cases h with
  | drop hFailed =>
    change (w.scheduler.pool.entity id).failed = true at hFailed
    simp only [hFailed, if_true, bind_apply, pure_apply]
    cases turns handle p rest w <;> rfl
  | wait hFailed hWaits =>
    change (w.scheduler.pool.entity id).failed = false at hFailed
    simp only [hFailed, hWaits, Bool.false_eq_true, if_false, if_true, bind_apply, pure_apply, modifyScheduler_apply]
    rw [show ({ scheduler := (w.scheduler.settle id).1, own := w.own } : World ν σ) = w.settled id from rfl]
    cases turns handle p rest (w.settled id) <;> rfl
  | advance hFailed hWaits hAns =>
    change (w.scheduler.pool.entity id).failed = false at hFailed
    simp only [hFailed, hWaits, Bool.false_eq_true, if_false, bind_apply, modifyScheduler_apply, hCalled hAns,
      concluded]
    cases turns handle p rest _ <;> rfl
  | yield hFailed hWaits hAns hYield =>
    change (w.scheduler.pool.entity id).failed = false at hFailed
    simp only [hFailed, hWaits, Bool.false_eq_true, if_false, bind_apply, modifyScheduler_apply, hCalled hAns,
      concluded, hYield, if_true]
    cases turns handle p rest _ <;> rfl
  | fail hFailed hWaits hAns hYield =>
    change (w.scheduler.pool.entity id).failed = false at hFailed
    simp only [hFailed, hWaits, Bool.false_eq_true, if_false, bind_apply, modifyScheduler_apply, hCalled hAns,
      concluded, hYield]
    cases turns handle p rest _ <;> rfl

theorem runPhase_eq (p : Phase) (w : World ν σ) :
    runPhase handle p w = match turns handle p (w.queue p) (w.setQueue p []) with
      | .ok (kept, moved) w' => .ok moved (w'.setQueue p (kept ++ w'.queue p))
      | .error a w' => .error a w' := by
  unfold runPhase
  simp only [bind_apply, pure_apply, scheduler_apply, modifyScheduler_apply]
  rw [show w.scheduler.queues.get p = w.queue p from rfl, show ({ w with scheduler :=
    { w.scheduler with queues := w.scheduler.queues.set p [] } } : World ν σ) = w.setQueue p [] from rfl]
  cases turns handle p (w.queue p) (w.setQueue p []) <;> rfl

theorem failCycles_eq (p : Phase) (w : World ν σ) :
    failCycles p w = .ok ((w.pool.detectCycles (w.queue p)).failed != 0) (w.searched p) := rfl

theorem phases_cons (p : Phase) (rest : List Phase) (w : World ν σ) :
    phases handle (p :: rest) w =
      if w.queue p = [] then phases handle rest w
      else match runPhase handle p (w.searched p) with
        | .ok moved w' => match phases handle rest w' with
          | .ok more w'' => .ok (((w.pool.detectCycles (w.queue p)).failed != 0 || moved) || more) w''
          | .error a w'' => .error a w''
        | .error a w' => .error a w' := by
  rw [phases]
  simp only [bind_apply, scheduler_apply]
  by_cases hEmpty : w.queue p = []
  · have hEmpty' : w.scheduler.queues.get p = [] := hEmpty
    simp only [hEmpty, hEmpty', List.isEmpty_nil, if_true, bind_apply, pure_apply, Bool.false_or]
    cases phases handle rest w <;> rfl
  · have hEmpty' : (w.scheduler.queues.get p).isEmpty = false := by
      simpa [World.queue] using hEmpty
    simp only [hEmpty, hEmpty', Bool.false_eq_true, if_false, bind_apply, pure_apply, failCycles_eq]
    rcases runPhase handle p (w.searched p) with ⟨_, w'⟩ | _
    · dsimp only
      cases phases handle rest w' <;> rfl
    · rfl

theorem round_eq (w : World ν σ) :
    round handle w = if w.scheduler.outstanding = 0 then .ok (some w.scheduler.verdict) w
      else match phases handle Phase.handled w.countRound with
        | .ok true w' => .ok none w'
        | .ok false w' => .ok (some (.error w'.scheduler.deadlock)) w'
        | .error a w' => .error a w' := by
  unfold round
  simp only [bind_apply, scheduler_apply]
  by_cases hDone : w.scheduler.outstanding = 0
  · simp only [hDone, if_true, pure_apply]
  · simp only [hDone, if_false, bind_apply, modifyScheduler_apply]
    rw [show ({ w with scheduler := { w.scheduler with rounds := w.scheduler.rounds + 1 } } : World ν σ) =
      w.countRound from rfl]
    rcases phases handle Phase.handled w.countRound with ⟨_ | _, _⟩ | _ <;> rfl

/-- A run goes on from where its first round ends. -/
theorem repeatRounds_eq (w : World ν σ) :
    repeatRounds handle w = match round handle w with
      | .ok none w' => repeatRounds handle w'
      | .ok (some r) w' => some (.ok r w')
      | .error a w' => some (.error a w') := repeatRounds._loop.eq_1 handle w

/-- Induction on the rounds of a run that ends. -/
theorem repeatRounds_induction {P : World ν σ → EStateM.Result Abort (World ν σ) (Except Failure Unit) → Prop}
    (hNext : ∀ {w w' r}, round handle w = .ok none w' → P w' r → P w r)
    (hLast : ∀ {w w' x}, round handle w = .ok (some x) w' → P w (.ok x w'))
    (hAbort : ∀ {w w' a}, round handle w = .error a w' → P w (.error a w'))
    {w : World ν σ} {r : EStateM.Result Abort (World ν σ) (Except Failure Unit)} (hRun : repeatRounds handle w = some r) :
    P w r := by
  refine repeatRounds._loop.partial_correctness handle P (fun again hAgain w r hRound => ?_) w r hRun
  simp only [EStateM.run] at hRound
  cases hEq : round handle w with
  | error a w' =>
    rw [hEq] at hRound
    cases hRound
    exact hAbort hEq
  | ok o w' =>
    rw [hEq] at hRound
    cases o with
    | none => exact hNext hEq (hAgain w' r hRound)
    | some x =>
      cases hRound
      exact hLast hEq

end Scheduler

end Comptime
