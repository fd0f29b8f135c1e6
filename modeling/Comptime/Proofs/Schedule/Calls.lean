import Comptime.Proofs.Schedule.Completion

/-!
# The calls of a run

`listed` makes a handler keep a list of its calls, with the world that each was made in. The run is the same but for the
list (`exists_listed`), also if it is aborted. What holds of every call is shown of `carriedOn`, which goes on where the
handler aborts: its runs end like those of any fair handler.
-/

namespace Comptime

namespace Scheduler

variable {ν σ τ α β : Type}

open Act

/-! ## Two runs side by side -/

def aborted? : EStateM.Result Abort (World ν τ) α → Option Abort
  | .ok _ _ => none
  | .error a _ => some a

/-- How two runs on the same scheduler belong together. -/
structure Bond (ν σ τ : Type) where
  /-- What they have of their own. -/
  same : σ → τ → Prop
  /-- The first one has been aborted. The second one may have been, or may have gone on. -/
  parted : Abort → World ν σ → Option Abort → World ν τ → Prop
  drifts : ∀ {e w v}, parted e w none v → ∀ s, parted e w none { v with scheduler := s }

namespace Bond

variable (B : Bond ν σ τ)

def Alike (w : World ν σ) (v : World ν τ) : Prop := w.scheduler = v.scheduler ∧ B.same w.own v.own

def Meets : EStateM.Result Abort (World ν σ) α → EStateM.Result Abort (World ν τ) α → Prop
  | .ok a w, .ok b v => a = b ∧ B.Alike w v
  | .error e w, r => B.parted e w (aborted? r) (reached r)
  | .ok _ _, .error _ _ => False

/-- Two computations that keep what belongs together. -/
structure Ties (x : Act ν σ α) (y : Act ν τ α) : Prop where
  meets : ∀ {w v}, B.Alike w v → B.Meets (x w) (y v)
  parted : ∀ {e w v}, B.parted e w none v → B.parted e w (aborted? (y v)) (reached (y v))

variable {B}

namespace Ties

theorem pure (a : α) : B.Ties (Pure.pure a) (Pure.pure a) := ⟨fun h => ⟨rfl, h⟩, id⟩

theorem bind {x : Act ν σ α} {y : Act ν τ α} {f : α → Act ν σ β} {g : α → Act ν τ β} (hx : B.Ties x y)
    (hf : ∀ a, B.Ties (f a) (g a)) : B.Ties (x >>= f) (y >>= g) := by
  constructor
  · intro w v hAlike
    have hMeets := hx.meets hAlike
    rw [bind_apply, bind_apply]
    cases hRun : x w with
    | ok a w' =>
      rw [hRun] at hMeets
      cases hRun' : y v with
      | ok b v' =>
        rw [hRun'] at hMeets
        obtain ⟨rfl, hAlike'⟩ := hMeets
        exact (hf a).meets hAlike'
      | error e v' =>
        rw [hRun'] at hMeets
        cases hMeets
    | error e w' =>
      rw [hRun] at hMeets
      cases hRun' : y v with
      | ok b v' =>
        rw [hRun'] at hMeets
        exact (hf b).parted hMeets
      | error e' v' =>
        rw [hRun'] at hMeets
        exact hMeets
  -- the one run is over and the other goes on alone
  · intro e w v hParted
    have hOn := hx.parted hParted
    rw [bind_apply]
    cases hRun : y v with
    | ok b v' =>
      rw [hRun] at hOn
      exact (hf b).parted hOn
    | error e' v' =>
      rw [hRun] at hOn
      exact hOn

theorem ite {c : Prop} [Decidable c] {x x' : Act ν σ α} {y y' : Act ν τ α} (h : B.Ties x y) (h' : B.Ties x' y') :
    B.Ties (if c then x else x') (if c then y else y') := by
  split
  · exact h
  · exact h'

/-- The scheduler that both see is the same. -/
theorem scheduler {f : Scheduler ν → Act ν σ β} {g : Scheduler ν → Act ν τ β} (hf : ∀ s, B.Ties (f s) (g s)) :
    B.Ties (scheduler >>= f) (Act.scheduler >>= g) := by
  constructor
  · intro w v hAlike
    rw [bind_apply, bind_apply, scheduler_apply, scheduler_apply, hAlike.1]
    exact (hf _).meets hAlike
  · intro e w v hParted
    rw [bind_apply, scheduler_apply]
    exact (hf _).parted hParted

theorem modifyScheduler (f : Scheduler ν → Scheduler ν) : B.Ties (modifyScheduler f) (modifyScheduler f) := by
  constructor
  · intro w v hAlike
    exact ⟨rfl, congrArg f hAlike.1, hAlike.2⟩
  · intro e w v hParted
    exact B.drifts hParted _

variable {handle : Handler ν σ} {handle' : Handler ν τ} (h : ∀ p id, B.Ties (handle p id) (handle' p id))

include h

theorem attempt (p : Phase) (id : Nat) : B.Ties (attempt handle p id) (attempt handle' p id) := by
  refine .scheduler fun s => .ite (.bind (h p id) fun r => ?_) (.bind (.pure _) fun r => ?_)
  all_goals
    rcases r with f | ⟨⟩
    · exact .ite (.scheduler fun _ => .pure _) (.bind (.modifyScheduler _) fun _ => .pure _)
    · exact .bind (.modifyScheduler _) fun _ => .bind (.modifyScheduler _) fun _ => .pure _

theorem turns (p : Phase) (l : List Nat) : B.Ties (turns handle p l) (turns handle' p l) := by
  induction l with
  | nil => exact .pure _
  | cons id rest ih =>
    rw [Scheduler.turns, Scheduler.turns]
    have hOn : ∀ x : Bool × Bool, B.Ties (do
          let next ← Scheduler.turns handle p rest
          return (if x.1 then id :: next.1 else next.1, x.2 || next.2)) (do
          let next ← Scheduler.turns handle' p rest
          return (if x.1 then id :: next.1 else next.1, x.2 || next.2)) := fun x => .bind ih fun _ => .pure _
    refine .scheduler fun s => .ite (.bind (.pure _) hOn) (.bind (.modifyScheduler _) fun _ => ?_)
    exact .ite (.bind (.pure _) hOn) (.bind (attempt h p id) hOn)

theorem runPhase (p : Phase) : B.Ties (runPhase handle p) (runPhase handle' p) := by
  refine .scheduler fun s => .bind (.modifyScheduler _) fun _ => .bind (turns h p _) fun _ =>
    .bind (.modifyScheduler _) fun _ => .pure _

theorem phases : ∀ ps, B.Ties (phases handle ps) (phases handle' ps)
  | [] => .pure _
  | p :: rest => by
    rw [Scheduler.phases, Scheduler.phases]
    have hOn : ∀ moved, B.Ties (do return moved || (← Scheduler.phases handle rest))
        (do return moved || (← Scheduler.phases handle' rest)) := fun moved => .bind (phases rest) fun _ => .pure _
    have hSearch : B.Ties (failCycles p) (failCycles p) :=
      .scheduler fun s => .bind (.modifyScheduler _) fun _ => .pure _
    refine .scheduler fun s => .ite (.bind (.pure _) hOn) (.bind hSearch fun _ => ?_)
    exact .bind (runPhase h p) fun _ => .bind (.pure _) hOn

theorem round : B.Ties (round handle) (round handle') := by
  refine .scheduler fun s => .ite (.pure _) (.bind (.modifyScheduler _) fun _ => .bind (phases h _) fun moved => ?_)
  exact .ite (.pure _) (.scheduler fun _ => .pure _)

/-- If the second run ends then so does the first, where it belongs. -/
theorem repeatRounds {v : World ν τ} {r : EStateM.Result Abort (World ν τ) (Except Failure Unit)}
    (hRun : repeatRounds handle' v = some r) {w : World ν σ} (hAlike : B.Alike w v) :
    ∃ q, repeatRounds handle w = some q ∧ B.Meets q r := by
  suffices hBoth : (∀ w, B.Alike w v → ∃ q, Scheduler.repeatRounds handle w = some q ∧ B.Meets q r) ∧
      ∀ e w, B.parted e w none v → B.parted e w (aborted? r) (reached r) from hBoth.1 w hAlike
  -- a round of the first goes with one of the second, until the first is aborted
  have hFirst {w v q} (hq : Scheduler.round handle' v = q) (hAlike : B.Alike w v) :
      ∃ o, Scheduler.round handle w = o ∧ B.Meets o q := ⟨_, rfl, hq ▸ (round h).meets hAlike⟩
  have hSecond {e w v q} (hq : Scheduler.round handle' v = q) (hParted : B.parted e w none v) :
      B.parted e w (aborted? q) (reached q) := hq ▸ (round h).parted hParted
  refine repeatRounds_induction (P := fun v r => (∀ w, B.Alike w v → ∃ q, Scheduler.repeatRounds handle w = some q ∧
    B.Meets q r) ∧ ∀ e w, B.parted e w none v → B.parted e w (aborted? r) (reached r)) ?_ ?_ ?_ hRun <;> clear hRun hAlike
  · intro v v' r hRound ih
    refine ⟨fun w hAlike => ?_, fun e w hParted => ih.2 e w (hSecond hRound hParted)⟩
    obtain ⟨o, ho, hMeets⟩ := hFirst hRound hAlike
    rw [repeatRounds_eq, ho]
    cases o with
    | ok o w' =>
      obtain ⟨rfl, hAlike'⟩ := hMeets
      exact ih.1 w' hAlike'
    | error e w' => exact ⟨_, rfl, ih.2 e w' hMeets⟩
  · intro v v' x hRound
    refine ⟨fun w hAlike => ?_, fun e w hParted => hSecond hRound hParted⟩
    obtain ⟨o, ho, hMeets⟩ := hFirst hRound hAlike
    rw [repeatRounds_eq, ho]
    cases o with
    | ok o w' =>
      obtain ⟨rfl, hAlike'⟩ := hMeets
      exact ⟨_, rfl, rfl, hAlike'⟩
    | error e w' => exact ⟨_, rfl, hMeets⟩
  · intro v v' a hRound
    refine ⟨fun w hAlike => ?_, fun e w hParted => hSecond hRound hParted⟩
    obtain ⟨o, ho, hMeets⟩ := hFirst hRound hAlike
    rw [repeatRounds_eq, ho]
    cases o with
    | ok o w' => cases hMeets
    | error e w' => exact ⟨_, rfl, hMeets⟩

end Ties

end Bond

/-! ## Listed calls -/

/-- A call of a handler, and the world it was made in. -/
structure Call (ν σ : Type) where
  phase : Phase
  id : Nat
  world : World ν σ

/-- The world without the list of calls. -/
def World.unlisted (w : World ν (σ × List (Call ν σ))) : World ν σ := ⟨w.scheduler, w.own.1⟩

/-- The handler, and a list of its calls. -/
def listed (handle : Handler ν σ) : Handler ν (σ × List (Call ν σ)) := fun p id w =>
  let calls := w.own.2 ++ [⟨p, id, w.unlisted⟩]
  match handle p id w.unlisted with
  | .ok r v => .ok r ⟨v.scheduler, v.own, calls⟩
  | .error a v => .error a ⟨v.scheduler, v.own, calls⟩

/-- Like `listed`, but an attempt that is aborted has done nothing and fails. -/
def carriedOn (handle : Handler ν σ) : Handler ν (σ × List (Call ν σ)) := fun p id w =>
  let calls := w.own.2 ++ [⟨p, id, w.unlisted⟩]
  match handle p id w.unlisted with
  | .ok r v => .ok r ⟨v.scheduler, v.own, calls⟩
  | .error _ _ => .ok (.error (.plain "aborted")) ⟨w.scheduler, w.own.1, calls⟩

/-- A run and the one that lists its calls. -/
def Bond.listing : Bond ν σ (σ × List (Call ν σ)) where
  same s t := s = t.1
  parted e w o v := o = some e ∧ v.unlisted = w
  drifts h := nomatch h.1

/-- A run and the one that goes on where it is aborted: the calls are the same so far. -/
def Bond.carrying : Bond ν (σ × List (Call ν σ)) (σ × List (Call ν σ)) where
  same s t := s = t
  parted _ w _ v := w.own.2 <+: v.own.2
  drifts h _ := h

variable {handle : Handler ν σ} {nodes : List ν} {J : World ν (σ × List (Call ν σ)) → Prop}

theorem ties_listed (p : Phase) (id : Nat) : Bond.listing.Ties (handle p id) (listed handle p id) := by
  constructor
  · rintro w v ⟨hScheduler, hOwn⟩
    have hSame : v.unlisted = w := by
      rw [World.unlisted, ← hScheduler, ← hOwn]
    rw [listed, hSame]
    cases handle p id w with
    | ok r w' => exact ⟨rfl, rfl, rfl⟩
    | error a w' => exact ⟨rfl, rfl⟩
  · rintro e w v ⟨hNone, -⟩
    cases hNone

theorem ties_carriedOn (p : Phase) (id : Nat) : Bond.carrying.Ties (listed handle p id) (carriedOn handle p id) := by
  constructor
  · rintro w v ⟨hScheduler, hOwn⟩
    obtain rfl : w = v := by
      cases w
      cases v
      cases hScheduler
      cases hOwn
      rfl
    rw [listed, carriedOn]
    cases handle p id w.unlisted with
    | ok r w' => exact ⟨rfl, rfl, rfl⟩
    | error a w' => exact List.prefix_rfl
  · intro e w v hParted
    rw [carriedOn]
    cases handle p id v.unlisted with
    | ok r v' | error a v' => exact hParted.trans (List.prefix_append _ _)

/-- A handler that is carried on is fair if it is disciplined. -/
theorem fair_carriedOn (h : ∀ p id w, Populated nodes w → id < nodes.length → Disciplined handle p id w) :
    Fair (carriedOn handle) nodes fun _ => True where
  returns p id w _ _ _ := by
    rw [carriedOn]
    cases handle p id w.unlisted with
    | ok r v | error a v => exact ⟨_, _, rfl, trivial⟩
  disciplined p id w hPop _ hId r w' hRun := by
    have hDisciplined := h p id w.unlisted ⟨hPop.size, hPop.byNode, hPop.node⟩ hId
    rw [carriedOn] at hRun
    cases hAttempt : handle p id w.unlisted with
    | ok r1 v =>
      rw [hAttempt] at hRun
      cases hRun
      exact hDisciplined r v hAttempt
    | error a v =>
      rw [hAttempt] at hRun
      cases hRun
      exact ⟨w.pool, false, rfl, .none _, nofun⟩

/-- What a turn comes to in which a phase is attempted with result `r`, which leaves `st` behind. -/
structure Attempts (handle : Handler ν σ) (p : Phase) (id : Nat) (w w' : World ν (σ × List (Call ν σ)))
    (r : Except Failure Unit) (st : σ) : Prop where
  live : (w.pool.entity id).failed = false
  answer : (∃ v, handle p id (w.settled id).unlisted = .ok r v ∧ v.own = st) ∨ (∃ s, r = .error (.plain s)) ∧ st = w.own.1
  own : w'.own = (st, w.own.2 ++ [⟨p, id, (w.settled id).unlisted⟩])
  phase : ∀ i, (w'.pool.entity i).phase = if i = id ∧ r.isOk then p else (w.pool.entity i).phase
  failed : ∀ i, (w'.pool.entity i).failed = false → (w.pool.entity i).failed = false
  ends : r = .ok () ∨ Failure.yields r = true ∨ (w'.pool.entity id).failed = true
  handled : w'.scheduler.handled = w.scheduler.handled

/-- Nothing has happened that matters for what has been reached and called. -/
structure Unmoved (w w' : World ν (σ × List (Call ν σ))) : Prop where
  own : w'.own = w.own
  phase : ∀ i, (w'.pool.entity i).phase = (w.pool.entity i).phase
  failed : ∀ i, (w'.pool.entity i).failed = false → (w.pool.entity i).failed = false
  handled : w'.scheduler.handled = w.scheduler.handled

theorem WellRun.unmoved_searched {w : World ν (σ × List (Call ν σ))} {ok : σ × List (Call ν σ) → Prop}
    (h : WellRun nodes ok w) (p : Phase) : Unmoved w (w.searched p) :=
  have hEases := h.order.eases_searched p
  ⟨rfl, hEases.phase, hEases.live, rfl⟩

theorem carriedOn_eq {p : Phase} {id : Nat} {w w' : World ν (σ × List (Call ν σ))} {r : Except Failure Unit}
    (h : carriedOn handle p id w = .ok r w') :
    w'.own.2 = w.own.2 ++ [⟨p, id, w.unlisted⟩] ∧ ((∃ v, handle p id w.unlisted = .ok r v ∧ v.own = w'.own.1) ∨
      (∃ s, r = .error (.plain s)) ∧ w'.own.1 = w.own.1) := by
  rw [carriedOn] at h
  cases hRun : handle p id w.unlisted with
  | ok r' v =>
    rw [hRun] at h
    cases h
    exact ⟨rfl, .inl ⟨v, rfl, rfl⟩⟩
  | error a v =>
    rw [hRun] at h
    cases h
    exact ⟨rfl, .inr ⟨⟨_, rfl⟩, rfl⟩⟩

/-- A turn attempts a phase, or it does not matter. -/
theorem Turn.attempts {p : Phase} {id : Nat} {pre rest : List Nat} {w w' : World ν (σ × List (Call ν σ))}
    {stays moved : Bool}
    (hFair : Fair (carriedOn handle) nodes fun _ => True) (hp : Queues.Attempts p) (hHandled : p ∈ w.scheduler.handled)
    (hWell : WellRun nodes (fun _ => True) (w.holding p (pre ++ id :: rest)))
    (hTurn : Turn (carriedOn handle) p id w stays moved w') :
    Unmoved w w' ∨ ∃ r st, Attempts handle p id w w' r st := by
  have hIdle := Idle.settled w id
  have hHandled' : p ∈ (w.settled id).scheduler.handled := hHandled
  -- what holds of the world that any answer leaves
  have hAnswer {r : Except Failure Unit} {w1 : World ν (σ × List (Call ν σ))}
      (hAns : Answers (carriedOn handle) p id (w.settled id) r w1) :
      carriedOn handle p id (w.settled id) = .ok r w1 ∧ Amended id (w.settled id) w1 ∧
        w1.scheduler.handled = w.scheduler.handled := by
    have hAmended := (hFair.attempted_held hp hWell hAns).toAmended
    have hSame := congrArg Scheduler.handled hAmended.scheduler
    rw [Answers, if_pos hHandled'] at hAns
    exact ⟨hAns, hAmended, hSame⟩
  have hId : id < (w.settled id).pool.size := Nat.lt_of_lt_of_eq (hWell.order.held hp).1 (Pool.size_update ..).symm
  cases hTurn with
  | drop _ => exact .inl ⟨rfl, fun _ => rfl, fun _ h => h, rfl⟩
  | wait _ _ => exact .inl ⟨rfl, hIdle.phase, fun i h => (hIdle.failed i).symm.trans h, rfl⟩
  | @advance w1 hLive _ hAns =>
    obtain ⟨hRun, hAmended, hSame⟩ := hAnswer hAns
    obtain ⟨hCalls, hOwn⟩ := carriedOn_eq hRun
    have hSelf := World.entity_advanced_self (hAmended.size ▸ hId) p
    refine .inr ⟨_, _, hLive, hOwn, Prod.ext rfl hCalls, fun i => ?_, fun i h => ?_, .inl rfl, hSame⟩ <;>
      by_cases hi : i = id
    · rw [hi, hSelf, if_pos ⟨rfl, rfl⟩]
    · rw [World.entity_advanced_ne hi, if_neg fun h => hi h.1]
      exact (hAmended.phase i).trans (hIdle.phase i)
    · exact hi ▸ hLive
    · rw [World.entity_advanced_ne hi, hAmended.failed, hIdle.failed] at h
      exact h
  | @yield _ f hLive _ hAns hYield =>
    obtain ⟨hRun, hAmended, hSame⟩ := hAnswer hAns
    obtain ⟨hCalls, hOwn⟩ := carriedOn_eq hRun
    refine .inr ⟨_, _, hLive, hOwn, Prod.ext rfl hCalls, fun i => ?_, fun i h => ?_, .inr (.inl hYield), hSame⟩
    · simp only [Except.isOk, Except.toBool, Bool.false_eq_true, and_false, if_false]
      exact (hAmended.phase i).trans (hIdle.phase i)
    · rw [hAmended.failed, hIdle.failed] at h
      exact h
  | @fail w1 f hLive _ hAns hYield =>
    obtain ⟨hRun, hAmended, hSame⟩ := hAnswer hAns
    obtain ⟨hCalls, hOwn⟩ := carriedOn_eq hRun
    have hLive1 : (w1.pool.entity id).failed = false := (hAmended.failed id).trans ((hIdle.failed id).trans hLive)
    have hFailing := Eases.failing w1 id f
    refine .inr ⟨_, _, hLive, hOwn, Prod.ext rfl hCalls, fun i => ?_, fun i h => ?_,
      .inr (.inr (World.failed_failing (hAmended.size ▸ hId) hLive1 f)), hSame⟩
    · simp only [Except.isOk, Except.toBool, Bool.false_eq_true, and_false, if_false]
      exact (hFailing.phase i).trans ((hAmended.phase i).trans (hIdle.phase i))
    · rw [← hIdle.failed, ← hAmended.failed]
      exact hFailing.live i h

/-- **The calls of a run.** Listing the calls does not change the run, and what turns and searches of the handler keep when
it is carried on holds of a world that has the calls of the run, and is its last one if it was not aborted. -/
theorem exists_listed (hDisciplined : ∀ p id w, Populated nodes w → id < nodes.length → Disciplined handle p id w)
    (hKeeps : Keeps (carriedOn handle) nodes (fun _ => True) J) {w : World ν (σ × List (Call ν σ))}
    (hWell : WellRun nodes (fun _ => True) w) (hJ : J w) :
    ∃ r, run (listed handle) w = r ∧ ∃ v, J v ∧
      ((∃ x, r = .ok x v ∧ run handle w.unlisted = .ok x v.unlisted) ∨
        ∃ a u, r = .error a u ∧ u.own.2 <+: v.own.2 ∧ run handle w.unlisted = .error a u.unlisted) := by
  -- only the run that is carried on is sure to end; the two others are tied to it in turn
  obtain ⟨v, hRun, -, hv, -⟩ := (fair_carriedOn hDisciplined).repeatRounds hKeeps effort
    (fun h _ => (fair_carriedOn hDisciplined).effort_lt h) _ w le_rfl hWell hJ
  obtain ⟨q, hListed, hMeets⟩ := Bond.Ties.repeatRounds ties_carriedOn hRun (w := w) ⟨rfl, rfl⟩
  obtain ⟨q', hPlain, hMeets'⟩ := Bond.Ties.repeatRounds ties_listed hListed (w := w.unlisted) ⟨rfl, rfl⟩
  refine ⟨q, by simp only [Scheduler.run, hListed], v, hv, ?_⟩
  simp only [Scheduler.run, hPlain]
  cases q with
  | ok x u =>
    obtain ⟨rfl, hScheduler, hOwn⟩ := hMeets
    obtain rfl : u = v := by
      cases u
      cases v
      cases hScheduler
      cases hOwn
      rfl
    refine .inl ⟨_, rfl, ?_⟩
    cases q' with
    | ok x' u' =>
      obtain ⟨rfl, hScheduler', hOwn'⟩ := hMeets'
      cases u'
      cases hScheduler'
      cases hOwn'
      rfl
    | error e u' => cases hMeets'.1
  | error a u =>
    refine .inr ⟨a, u, rfl, hMeets, ?_⟩
    cases q' with
    | ok x' u' => cases hMeets'
    | error e u' =>
      obtain ⟨hEq, rfl⟩ := hMeets'
      cases hEq
      rfl

end Scheduler

end Comptime
