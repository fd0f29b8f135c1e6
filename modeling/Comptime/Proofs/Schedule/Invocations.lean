import Comptime.Proofs.Schedule.Calls
import Mathlib

/-!
# When handlers are called

`traced` makes a handler record its calls: the pool before and after each of them, and what came of it. `Proper` says of
such a record that handlers were called only when they should be, and that nothing went back meanwhile.

Main statement: `run_proper`, the record of every run is proper, whatever the handlers do that act by requirements only.
-/

namespace Comptime

open List

namespace Pool

variable {ν : Type} {p p' p'' : Pool ν} {i : Nat} {q : Phase} {ds : List Dep}

/-! ## Nothing goes back -/

/-- Phases have not fallen, and what had failed is as it was. -/
structure Later (p p' : Pool ν) : Prop where
  phase : ∀ i, (p.entity i).phase ≤ (p'.entity i).phase
  failed : ∀ i, (p.entity i).failed = true → (p'.entity i).phase = (p.entity i).phase ∧
    (p'.entity i).err = (p.entity i).err ∧ (p'.entity i).cause = (p.entity i).cause

namespace Later

theorem refl (p : Pool ν) : Later p p := ⟨fun _ => Int.le_refl _, fun _ _ => ⟨rfl, rfl, rfl⟩⟩

theorem stays_failed (h : Later p p') (hi : (p.entity i).failed = true) : (p'.entity i).failed = true := by
  rw [Entity.failed_iff] at hi ⊢
  rw [(h.failed i (Entity.failed_iff.mpr hi)).2.1]
  exact hi

theorem was_live (h : Later p p') (hi : (p'.entity i).failed = false) : (p.entity i).failed = false := by
  rw [Bool.eq_false_iff]
  intro hc
  rw [h.stays_failed hc] at hi
  cases hi

theorem stays_satisfied (h : Later p p') {d : Dep} (hd : p.satisfied d = true) : p'.satisfied d = true := by
  rw [satisfied_iff] at hd ⊢
  exact Int.le_trans hd (h.phase d.target)

theorem trans (h : Later p p') (h' : Later p' p'') : Later p p'' where
  phase i := Int.le_trans (h.phase i) (h'.phase i)
  failed i hi := by
    obtain ⟨hPhase, hErr, hCause⟩ := h.failed i hi
    obtain ⟨hPhase', hErr', hCause'⟩ := h'.failed i (h.stays_failed hi)
    exact ⟨hPhase'.trans hPhase, hErr'.trans hErr, hCause'.trans hCause⟩

end Later

/-- Nothing has gone back, and an edge was dropped only if it need not be waited for or its entity has gone on. -/
structure Proceeds (p p' : Pool ν) : Prop extends Later p p' where
  edges : ∀ i, ∀ d ∈ (p.entity i).deps, d ∈ (p'.entity i).deps ∨ p'.satisfied d = true ∨
    (p'.entity d.target).failed = true ∨ (p.entity i).phase.succ ≤ (p'.entity i).phase

theorem Proceeds.refl (p : Pool ν) : Proceeds p p := ⟨.refl p, fun _ _ => .inl⟩

/-- Edges change, and only where there were none before. -/
theorem Amends.proceeds {me : Nat} (h : Amends me p p') (hDeps : (p.entity me).deps = []) : Proceeds p p' where
  phase i := by rw [h.phase i, Phase.le_iff]
  failed i _ := ⟨h.phase i, h.err i, h.cause i⟩
  edges i d hd := by
    by_cases hi : i = me
    · rw [hi, hDeps] at hd
      cases hd
    · exact .inl (h.other i hi ▸ hd)

/-- Of the edges that the entity recorded when it attempted the phase, those are gone that need not be waited for, until the
phase is reached. -/
structure Heeds (p : Pool ν) (i : Nat) (q : Phase) (ds : List Dep) : Prop where
  attempted : q ≤ (p.entity i).phase.succ
  edges : q ≤ (p.entity i).phase ∨
    ∀ d ∈ ds, d ∈ (p.entity i).deps ∨ p.satisfied d = true ∨ (p.entity d.target).failed = true

theorem Heeds.proceeds (h : Heeds p i q ds) (hOn : Proceeds p p') : Heeds p' i q ds := by
  have hPhase := hOn.phase i
  have hAttempted := h.attempted
  simp only [Phase.le_iff, Phase.succ] at hPhase hAttempted
  refine ⟨by simp only [Phase.le_iff, Phase.succ]; omega, ?_⟩
  rcases h.edges with hReached | hEdges
  · exact .inl (Int.le_trans hReached hPhase)
  · by_cases hGone : (p.entity i).phase.succ ≤ (p'.entity i).phase
    · exact .inl (Int.le_trans hAttempted hGone)
    · refine .inr fun d hd => ?_
      rcases hEdges d hd with hIn | hSat | hFailed
      · rcases hOn.edges i d hIn with hIn | hSat | hFailed | hc
        · exact .inl hIn
        · exact .inr (.inl hSat)
        · exact .inr (.inr hFailed)
        · exact absurd hc hGone
      · exact .inr (.inl (hOn.stays_satisfied hSat))
      · exact .inr (.inr (hOn.stays_failed hFailed))

/-- When the entity attempts the phase again and has no edges, there is nothing left to wait for. -/
theorem Heeds.nothing_left (h : Heeds p i q ds) (hPhase : q = (p.entity i).phase.succ) (hDeps : (p.entity i).deps = []) :
    ∀ d ∈ ds, p.satisfied d = true ∨ (p.entity d.target).failed = true := by
  intro d hd
  rcases h.edges with hReached | hEdges
  · rw [hPhase] at hReached
    simp only [Phase.le_iff, Phase.succ] at hReached
    omega
  · rcases hEdges d hd with hIn | hOver
    · rw [hDeps] at hIn
      cases hIn
    · exact hOver

end Pool

namespace Scheduler

variable {ν σ α : Type} {handle : Handler ν σ} {w w' : World ν σ} {p : Phase} {id : Nat}

/-! ## What the scheduler does between calls -/

theorem proceeds_settled (w : World ν σ) (id : Nat) : Pool.Proceeds w.pool (w.settled id).pool := by
  have hIdle := Idle.settled w id
  have hEntity (i : Nat) : ((w.settled id).pool.entity i).phase = (w.pool.entity i).phase ∧
      ((w.settled id).pool.entity i).err = (w.pool.entity i).err ∧
      ((w.settled id).pool.entity i).cause = (w.pool.entity i).cause := by
    rw [World.entity_settled]
    split <;> exact ⟨rfl, rfl, rfl⟩
  refine ⟨⟨fun i => by rw [(hEntity i).1, Phase.le_iff], fun i _ => hEntity i⟩, fun i d hd => ?_⟩
  cases hSat : w.pool.satisfied d with
  | true => exact .inr (.inl ((hIdle.satisfied d).trans hSat))
  | false =>
    cases hFailed : (w.pool.entity d.target).failed with
    | true => exact .inr (.inr (.inl ((hIdle.failed d.target).trans hFailed)))
    | false => exact .inl (hIdle.keeps i d hd hSat hFailed)

/-- An entity that succeeds goes on to the next phase. -/
theorem proceeds_advanced (hId : id < w.pool.size) (hLive : (w.pool.entity id).failed = false)
    (hPhase : p = (w.pool.entity id).phase.succ) : Pool.Proceeds w.pool (w.advanced p id).pool := by
  have hSelf := World.entity_advanced_self hId p
  have hOther {i : Nat} (hi : i ≠ id) := World.entity_advanced_ne (w := w) hi p
  refine ⟨⟨fun i => ?_, fun i hFailed => ?_⟩, fun i d hd => ?_⟩ <;> by_cases hi : i = id
  · rw [hi, hSelf, hPhase]
    simp only [Phase.le_iff, Phase.succ]
    omega
  · rw [hOther hi]
    exact Int.le_refl _
  · rw [hi, hLive] at hFailed
    cases hFailed
  · rw [hOther hi]
    exact ⟨rfl, rfl, rfl⟩
  · refine .inr (.inr (.inr ?_))
    rw [hi, hSelf, ← hPhase]
    exact Int.le_refl _
  · rw [hOther hi]
    exact .inl hd

/-- Only an entity without an error is given one. -/
theorem proceeds_failing (w : World ν σ) (id : Nat) (f : Failure) : Pool.Proceeds w.pool (w.failing id f).pool := by
  have hEntity := w.entity_failing id f
  refine ⟨⟨fun i => (congrArg Phase.rank ((Eases.failing w id f).phase i)).ge, fun i hFailed => ?_⟩, fun i d hd => .inl ?_⟩
  · rw [hEntity]
    split
    · rw [Entity.setError_of_failed hFailed]
      exact ⟨rfl, rfl, rfl⟩
    · exact ⟨rfl, rfl, rfl⟩
  · rw [hEntity]
    split
    · rw [Entity.setError_deps]
      exact hd
    · exact hd

theorem Tidy.proceeds_searched (h : Tidy w.scheduler) (p : Phase) : Pool.Proceeds w.pool (w.searched p).pool := by
  refine ⟨⟨fun i => (congrArg Phase.rank ((h.eases_searched p).phase i)).ge, fun i hFailed => ?_⟩, fun i d hd => .inl ?_⟩
  · rw [World.pool_searched, Pool.entity_detectCycles_of_failed (p := w.pool) (fun _ _ hd => h.edges hd) (w.queue p) hFailed]
    exact ⟨rfl, rfl, rfl⟩
  · rwa [h.deps_searched]

/-! ## Recorded calls -/

/-- A call of a handler: the pool before and after it, and what came of it unless it was broken off. -/
structure Event (ν : Type) where
  phase : Phase
  id : Nat
  before : Pool ν
  after : Pool ν
  result : Except Abort (Except Failure Unit)

namespace Event

def Succeeds (e : Event ν) : Prop := e.result = .ok (.ok ())

def Yields (e : Event ν) : Prop := ∃ f, e.result = .ok (.error f) ∧ f.isCause .yield = true

end Event

/-- The world without the record. -/
def World.untraced (w : World ν (σ × List (Event ν))) : World ν σ := ⟨w.scheduler, w.own.1⟩

/-- What a computation comes to, without the record. -/
def untraced : EStateM.Result Abort (World ν (σ × List (Event ν))) α → EStateM.Result Abort (World ν σ) α
  | .ok a w => .ok a w.untraced
  | .error a w => .error a w.untraced

/-- The handler, and a record of its calls. -/
def traced (handle : Handler ν σ) : Handler ν (σ × List (Event ν)) := fun p id w =>
  match handle p id w.untraced with
  | .ok r v => .ok r ⟨v.scheduler, v.own, w.own.2 ++ [⟨p, id, w.pool, v.pool, .ok r⟩]⟩
  | .error a v => .error a ⟨v.scheduler, v.own, w.own.2 ++ [⟨p, id, w.pool, v.pool, .error a⟩]⟩

/-- A run and the one that records its calls. -/
def Bond.tracing : Bond ν σ (σ × List (Event ν)) where
  same s t := s = t.1
  parted e w o v := o = some e ∧ v.untraced = w
  drifts h := nomatch h.1

theorem ties_traced (p : Phase) (id : Nat) : Bond.tracing.Ties (handle p id) (traced handle p id) := by
  constructor
  · rintro w v ⟨hScheduler, hOwn⟩
    have hSame : v.untraced = w := by rw [World.untraced, ← hScheduler, ← hOwn]
    rw [traced, hSame]
    cases handle p id w with
    | ok r w' => exact ⟨rfl, rfl, rfl⟩
    | error a w' => exact ⟨rfl, rfl⟩
  · rintro e w v ⟨hNone, -⟩
    cases hNone

/-- A run is the same without the record. -/
theorem run_eq_untraced {w : World ν (σ × List (Event ν))}
    {r : EStateM.Result Abort (World ν (σ × List (Event ν))) (Except Failure Unit)}
    (h : repeatRounds (traced handle) w = some r) : run handle w.untraced = untraced r := by
  obtain ⟨q, hRun, hMeets⟩ := Bond.Ties.repeatRounds ties_traced h (w := w.untraced) ⟨rfl, rfl⟩
  simp only [run, hRun]
  cases q with
  | ok x u =>
    cases r with
    | ok y v =>
      obtain ⟨rfl, hScheduler, hOwn⟩ := hMeets
      cases u
      cases hScheduler
      cases hOwn
      rfl
    | error e v => cases hMeets
  | error e u =>
    cases r with
    | ok y v => cases hMeets.1
    | error e' v =>
      obtain ⟨hEq, rfl⟩ := hMeets
      cases hEq
      rfl

theorem OnlyAsks.traced (h : OnlyAsks handle) : OnlyAsks (traced handle) := by
  intro p id w
  obtain ⟨pool, hScheduler, hAsks⟩ := h p id w.untraced
  refine ⟨pool, ?_, hAsks⟩
  rw [Scheduler.traced]
  cases hCall : handle p id w.untraced with
  | ok r v | error a v =>
    rw [hCall] at hScheduler
    exact hScheduler

/-! ## Proper records -/

/-- The pools that were seen, from the start to the last call. -/
def moments (start : Pool ν) (es : List (Event ν)) : List (Pool ν) := start :: es.flatMap fun e => [e.before, e.after]

/-- Handlers were called when they should be, from the start to the end of what is recorded. -/
structure Proper (start : Pool ν) (es : List (Event ν)) (final : Pool ν) : Prop where
  /-- A handler is called for an entity that has not failed and has reached the phase before. -/
  due : ∀ e ∈ es, (e.before.entity e.id).failed = false ∧ e.phase = (e.before.entity e.id).phase.succ
  /-- It is called again only when no edge is left to wait for that was recorded when it yielded before. -/
  settled : es.Pairwise fun e e' => e.id = e'.id → e.phase = e'.phase → e.Yields →
    ∀ d ∈ (e.after.entity e.id).deps, e'.before.satisfied d = true ∨ (e'.before.entity d.target).failed = true
  /-- The same of the edges that were there at the start. -/
  settled_start : ∀ e ∈ es, e.phase = (start.entity e.id).phase.succ →
    ∀ d ∈ (start.entity e.id).deps, e.before.satisfied d = true ∨ (e.before.entity d.target).failed = true
  /-- At most one call for an entity and a phase succeeds. -/
  once : es.Pairwise fun e e' => e.id = e'.id → e.phase = e'.phase → ¬ (e.Succeeds ∧ e'.Succeeds)
  /-- Phases never fall, and what has failed stays as it is. -/
  later : (moments start es ++ [final]).Pairwise Pool.Later
  /-- No handler is called for an entity that has failed before. -/
  spared : es.Pairwise fun e e' => (e.after.entity e'.id).failed = false
  spared_start : ∀ e ∈ es, (start.entity e.id).failed = false

namespace Proper

variable {start final final' : Pool ν} {es : List (Event ν)}

theorem nil (start : Pool ν) : Proper start [] start where
  due e he := nomatch he
  settled := .nil
  settled_start e he := nomatch he
  once := .nil
  later := by
    rw [show moments start ([] : List (Event ν)) ++ [start] = [start, start] from rfl]
    exact pairwise_pair.mpr (.refl start)
  spared := .nil
  spared_start e he := nomatch he

theorem later_final (h : Proper start es final) : ∀ m ∈ moments start es, Pool.Later m final := fun m hm =>
  (pairwise_append.mp h.later).2.2 m hm final (mem_singleton_self _)

/-- Time goes on. -/
theorem on (h : Proper start es final) (hOn : Pool.Later final final') : Proper start es final' where
  __ := h
  later := by
    refine pairwise_append.mpr ⟨(pairwise_append.mp h.later).1, pairwise_singleton .., fun m hm m' hm' => ?_⟩
    rw [mem_singleton.mp hm']
    exact (h.later_final m hm).trans hOn

/-- One more call is recorded. -/
theorem snoc {e : Event ν} (h : Proper start es e.before) (hLive : (e.before.entity e.id).failed = false)
    (hPhase : e.phase = (e.before.entity e.id).phase.succ)
    (hSettled : ∀ e' ∈ es, e'.id = e.id → e'.phase = e.phase → e'.Yields → ∀ d ∈ (e'.after.entity e'.id).deps,
      e.before.satisfied d = true ∨ (e.before.entity d.target).failed = true)
    (hStart : e.phase = (start.entity e.id).phase.succ → ∀ d ∈ (start.entity e.id).deps,
      e.before.satisfied d = true ∨ (e.before.entity d.target).failed = true)
    (hOnce : ∀ e' ∈ es, e'.id = e.id → e'.phase = e.phase → ¬ e'.Succeeds) (hCall : Pool.Later e.before e.after) :
    Proper start (es ++ [e]) e.after := by
  have hSnoc {R : Event ν → Event ν → Prop} (hOld : es.Pairwise R) (hNew : ∀ e' ∈ es, R e' e) :
      (es ++ [e]).Pairwise R :=
    pairwise_append.mpr ⟨hOld, pairwise_singleton .., fun e' he' x hx => mem_singleton.mp hx ▸ hNew e' he'⟩
  -- a call adds the pools before and after it to the moments of the run
  have hMoments : moments start (es ++ [e]) = moments start es ++ [e.before, e.after] := by
    simp [moments]
  refine ⟨fun e' he' => ?_, hSnoc h.settled hSettled, fun e' he' => ?_,
    hSnoc h.once fun e' he' hId hSame hBoth => hOnce e' he' hId hSame hBoth.1, ?_, hSnoc h.spared fun e' he' => ?_,
    fun e' he' => ?_⟩
  · rcases mem_append.mp he' with hOld | hNew
    · exact h.due e' hOld
    · rw [mem_singleton.mp hNew]
      exact ⟨hLive, hPhase⟩
  · rcases mem_append.mp he' with hOld | hNew
    · exact h.settled_start e' hOld
    · rw [mem_singleton.mp hNew]
      exact hStart
  · have hPast : (moments start es).Pairwise Pool.Later := (pairwise_append.mp h.later).1
    have hLast : [e.before, e.after, e.after].Pairwise Pool.Later :=
      .cons (by simpa using hCall) (pairwise_pair.mpr (.refl _))
    rw [hMoments, append_assoc]
    refine pairwise_append.mpr ⟨hPast, hLast, fun m hm m' hm' => ?_⟩
    have hNow := h.later_final m hm
    simp only [cons_append, nil_append, mem_cons, not_mem_nil, or_false] at hm'
    rcases hm' with rfl | rfl | rfl
    · exact hNow
    · exact hNow.trans hCall
    · exact hNow.trans hCall
  · refine (h.later_final e'.after ?_).was_live hLive
    exact mem_cons_of_mem _ (mem_flatMap.mpr ⟨e', he', by simp⟩)
  · rcases mem_append.mp he' with hOld | hNew
    · exact h.spared_start e' hOld
    · rw [mem_singleton.mp hNew]
      exact (h.later_final start (mem_cons_self ..)).was_live hLive

end Proper

/-! ## What every turn keeps -/

/-- The record is proper, and what it says about the future holds of the pool. -/
structure Observed (start : Pool ν) (es : List (Event ν)) (pool : Pool ν) : Prop where
  proper : Proper start es pool
  heeds : ∀ e ∈ es, e.Yields → pool.Heeds e.id e.phase (e.after.entity e.id).deps
  heeds_start : ∀ i, pool.Heeds i (start.entity i).phase.succ (start.entity i).deps
  reached : ∀ e ∈ es, e.Succeeds → e.phase ≤ (pool.entity e.id).phase

namespace Observed

variable {start pool pool' : Pool ν} {es : List (Event ν)}

theorem nil (start : Pool ν) : Observed start [] start where
  proper := .nil start
  heeds _ he := nomatch he
  heeds_start _ := ⟨Int.le_refl _, .inr fun _ => .inl⟩
  reached _ he := nomatch he

theorem proceeds (h : Observed start es pool) (hOn : Pool.Proceeds pool pool') : Observed start es pool' where
  proper := h.proper.on hOn.toLater
  heeds e he hYields := (h.heeds e he hYields).proceeds hOn
  heeds_start i := (h.heeds_start i).proceeds hOn
  reached e he hSucceeds := Int.le_trans (h.reached e he hSucceeds) (hOn.phase e.id)

/-- A call that is due: the entity has not failed, has reached the phase before, and has nothing to wait for. -/
structure Due (pool : Pool ν) (p : Phase) (id : Nat) : Prop where
  live : (pool.entity id).failed = false
  phase : p = (pool.entity id).phase.succ
  deps : (pool.entity id).deps = []

/-- A call that is due may be recorded. -/
theorem proper_snoc {e : Event ν} (h : Observed start es e.before) (hDue : Due e.before e.phase e.id)
    (hCall : Pool.Proceeds e.before e.after) : Proper start (es ++ [e]) e.after := by
  refine h.proper.snoc hDue.live hDue.phase (fun e' he' hId hSame hYields => ?_) (fun hSame => ?_)
    (fun e' he' hId hSame hSucceeds => ?_) hCall.toLater
  · have hHeeds := h.heeds e' he' hYields
    rw [hId, hSame] at hHeeds
    rw [hId]
    exact hHeeds.nothing_left hDue.phase hDue.deps
  · have hHeeds := h.heeds_start e.id
    rw [← hSame] at hHeeds
    exact hHeeds.nothing_left hDue.phase hDue.deps
  · have hReached := h.reached e' he' hSucceeds
    rw [hId, hSame, hDue.phase] at hReached
    simp only [Phase.le_iff, Phase.succ] at hReached
    omega

/-- After the call time goes on; if it succeeded then the phase has been reached. -/
theorem snoc {e : Event ν} (h : Observed start es e.before) (hDue : Due e.before e.phase e.id)
    (hCall : Pool.Proceeds e.before e.after) (hOn : Pool.Proceeds e.after pool)
    (hReached : e.Succeeds → e.phase ≤ (pool.entity e.id).phase) : Observed start (es ++ [e]) pool where
  proper := (h.proper_snoc hDue hCall).on hOn.toLater
  heeds e' he' hYields := by
    rcases mem_append.mp he' with hOld | hNew
    · exact ((h.heeds e' hOld hYields).proceeds hCall).proceeds hOn
    · rw [mem_singleton.mp hNew]
      refine Pool.Heeds.proceeds ⟨?_, .inr fun _ => .inl⟩ hOn
      have := hCall.phase e.id
      rw [hDue.phase]
      simp only [Phase.le_iff, Phase.succ] at this ⊢
      omega
  heeds_start i := ((h.heeds_start i).proceeds hCall).proceeds hOn
  reached e' he' hSucceeds := by
    rcases mem_append.mp he' with hOld | hNew
    · exact Int.le_trans (h.reached e' hOld hSucceeds) (Int.le_trans (hCall.phase e'.id) (hOn.phase e'.id))
    · rw [mem_singleton.mp hNew] at hSucceeds ⊢
      exact hReached hSucceeds

end Observed

/-- When its turn comes, the call of an entity is due. -/
theorem Tidy.due {pre rest : List Nat} (h : Tidy (w.holding p (pre ++ id :: rest)).scheduler) (hp : Queues.Attempts p)
    (hLive : (w.pool.entity id).failed = false) (hReady : (w.scheduler.settle id).2 = false) :
    Observed.Due (w.settled id).pool p id := by
  have hIdle := Idle.settled w id
  obtain ⟨hId, -, hPhase⟩ := h.held hp
  exact ⟨(hIdle.failed id).trans hLive, (hIdle.phase id).symm ▸ hPhase hLive, deps_settled hId hReady⟩

section Records

variable {v v' : World ν (σ × List (Event ν))} {start : Pool ν}

/-- A call that is answered is recorded. -/
theorem traced_eq_ok {r : Except Failure Unit} (h : traced handle p id v = .ok r v') :
    v'.own.2 = v.own.2 ++ [⟨p, id, v.pool, v'.pool, .ok r⟩] := by
  rw [traced] at h
  cases hCall : handle p id v.untraced with
  | ok r' u =>
    rw [hCall] at h
    cases h
    rfl
  | error a u =>
    rw [hCall] at h
    cases h

theorem traced_eq_error {a : Abort} (h : traced handle p id v = .error a v') :
    v'.own.2 = v.own.2 ++ [⟨p, id, v.pool, v'.pool, .error a⟩] := by
  rw [traced] at h
  cases hCall : handle p id v.untraced with
  | ok r' u =>
    rw [hCall] at h
    cases h
  | error b u =>
    rw [hCall] at h
    cases h
    rfl

/-- A turn leaves what has been observed in order, with the call that was made in it. -/
theorem Observed.turn {pre rest : List Nat} {stays moved : Bool} (hAsks : OnlyAsks handle) (hp : Queues.Attempts p)
    (hTidy : Tidy (v.holding p (pre ++ id :: rest)).scheduler) (h : Observed start v.own.2 v.pool)
    (hTurn : Turn (traced handle) p id v stays moved v') : Observed start v'.own.2 v'.pool := by
  have hSettled := h.proceeds (proceeds_settled v id)
  have hId : id < v.pool.size := (hTidy.held hp).1
  -- what an answer leaves is as observed, with the call if there is a handler
  have hAnswer {r : Except Failure Unit} {u : World ν (σ × List (Event ν))} {pool : Pool ν}
      (hLive : (v.pool.entity id).failed = false) (hReady : (v.scheduler.settle id).2 = false)
      (hAns : Answers (traced handle) p id (v.settled id) r u) (hOn : Pool.Proceeds u.pool pool)
      (hReached : r = .ok () → p ≤ (pool.entity id).phase) : Observed start u.own.2 pool := by
    have hDue := hTidy.due hp hLive hReady
    have hAmends := (hAsks.traced.asking _ _ _ _ _ hAns).toAmends
    unfold Answers at hAns
    split at hAns
    · rw [traced_eq_ok hAns]
      exact hSettled.snoc (e := ⟨p, id, (v.settled id).pool, u.pool, .ok r⟩) hDue (hAmends.proceeds hDue.deps) hOn
        fun hSucceeds => hReached (Except.ok.inj hSucceeds)
    · obtain ⟨-, rfl⟩ := hAns
      exact hSettled.proceeds hOn
  -- and the entity is where it was
  have hSame {r : Except Failure Unit} {u : World ν (σ × List (Event ν))}
      (hAns : Answers (traced handle) p id (v.settled id) r u) : id < u.pool.size ∧
        (u.pool.entity id).failed = (v.pool.entity id).failed ∧ (u.pool.entity id).phase = (v.pool.entity id).phase := by
    have hAmends := (hAsks.traced.asking _ _ _ _ _ hAns).toAmends
    have hIdle := Idle.settled v id
    refine ⟨?_, (hAmends.failed id).trans (hIdle.failed id), (hAmends.phase id).trans (hIdle.phase id)⟩
    rw [hAmends.size]
    exact Nat.lt_of_lt_of_eq hId (Pool.size_update ..).symm
  cases hTurn with
  | drop _ => exact h
  | wait _ _ => exact hSettled
  | @advance u hLive hReady hAns =>
    obtain ⟨hSize, hFailed, hPhase⟩ := hSame hAns
    have hNext : p = (u.pool.entity id).phase.succ := by
      rw [hPhase, ← (Idle.settled v id).phase]
      exact (hTidy.due hp hLive hReady).phase
    have hReached : p ≤ ((u.advanced p id).pool.entity id).phase := by
      rw [World.pool_advanced, Pool.entity_update_self hSize]
      exact Int.le_refl _
    have hObserved : Observed start u.own.2 (u.advanced p id).pool :=
      hAnswer hLive hReady hAns (proceeds_advanced hSize (hFailed.trans hLive) hNext) fun _ => hReached
    exact hObserved
  | yield hLive hReady hAns _ => exact hAnswer hLive hReady hAns (.refl _) nofun
  | @fail u f hLive hReady hAns _ =>
    have hObserved : Observed start u.own.2 (u.failing id f).pool :=
      hAnswer hLive hReady hAns (proceeds_failing u id f) nofun
    exact hObserved

theorem carries_observed (hAsks : OnlyAsks handle) (start : Pool ν) :
    Carries (traced handle) (fun _ v => Tidy v.scheduler ∧ Observed start v.own.2 v.pool)
      fun v => Proper start v.own.2 v.pool where
  turn {b p pre id rest v stays moved v'} hp h hTurn := by
    have hObserved : Observed start v'.own.2 v'.pool := h.2.turn hAsks hp h.1 hTurn
    exact ⟨h.1.turn hp (hAsks.traced.asking _ _ _) hTurn, hObserved⟩
  broken {b p pre id rest v a v'} hp h hBroken := by
    have hDue := h.1.due hp hBroken.live hBroken.ready
    have hAmends := (hAsks.traced.amended p id (v.settled id)).toAmends
    rw [hBroken.call] at hAmends
    rw [traced_eq_error hBroken.call]
    have hSettled : Observed start v.own.2 (v.settled id).pool := h.2.proceeds (proceeds_settled v id)
    exact hSettled.proper_snoc (e := ⟨p, id, (v.settled id).pool, v'.pool, .error a⟩) hDue (hAmends.proceeds hDue.deps)
  search p h := ⟨h.1.eases (h.1.eases_searched p), h.2.proceeds (h.1.proceeds_searched p)⟩
  count {b v} h := ⟨(carries_tidy hAsks.traced).count (b := b) h.1, h.2⟩

end Records

/--
**Handlers are called when they should be.** Take any scheduler on which entities were registered, marked, run and released
in any order, as long as nothing was released that was queued, and handlers that act by requirements only. A run of them
ends, and in its record a handler is called only for an entity that has not failed and has reached the phase before, and
only when every edge it recorded when it yielded before is out of date or leads to an entity that has failed. At most one
call succeeds for an entity and a phase. Phases never fall, and once an entity has failed no handler is called for it and
its phase, its error and the cause never change.
-/
theorem run_proper [BEq ν] [ToString ν] {s : Scheduler ν} (hHistory : History Unqueued s) (hAsks : OnlyAsks handle)
    (own : σ) :
    ∃ r, repeatRounds (traced handle) ⟨s, own, []⟩ = some r ∧ run handle ⟨s, own⟩ = untraced r ∧
      Proper s.pool (reached r).own.2 (reached r).pool := by
  have hTidy := hHistory.tidy
  obtain ⟨r, hRun⟩ := Tidy.exists_end (w := (⟨s, own, []⟩ : World ν (σ × List (Event ν)))) hAsks.traced hTidy
  refine ⟨r, hRun, run_eq_untraced hRun, ?_⟩
  have hEnd := (carries_observed hAsks s.pool).finally (fun h => h) hRun ⟨hTidy, .nil s.pool⟩
  cases r with
  | ok a v =>
    obtain ⟨-, -, hObserved⟩ := hEnd
    exact hObserved.proper
  | error a v => exact hEnd

/-- Requiring something is asking. -/
theorem asks_require (me : Nat) (target : Int) (q : Phase) (w : World ν σ) :
    ∃ pool, (reached (Act.require me target q w)).scheduler = { w.scheduler with pool } ∧ Pool.Asks me w.pool pool := by
  unfold Act.require Act.change
  simp only [bind_apply, scheduler_apply]
  cases hReq : w.pool.require me target q with
  | error a =>
    rw [show w.scheduler.pool.require me target q = .error a from hReq]
    exact ⟨w.pool, rfl, .none _⟩
  | ok x =>
    rw [show w.scheduler.pool.require me target q = .ok x from hReq]
    exact ⟨x.1, rfl, .more (.none _) hReq⟩

/-- The first entity takes no phase before the second one has. -/
def leaningHandler : Handler String Unit := fun p id => if id = 0 then Act.require 0 1 p else pure (.ok ())

theorem onlyAsks_leaningHandler : OnlyAsks leaningHandler := by
  intro p id w
  unfold leaningHandler
  by_cases hId : id = 0
  · rw [if_pos hId, hId]
    exact asks_require 0 1 p w
  · rw [if_neg hId]
    exact ⟨w.pool, rfl, .none _⟩

/-- Two entities are registered. -/
def pair : Scheduler String where
  pool := { entities := #[.fresh "first", .fresh "second"], byNode := [("second", 1), ("first", 0)] }
  queues := { typeChecked := [0, 1] }
  handled := [.typeChecked]

theorem run_proper_pair : History Unqueued pair ∧ OnlyAsks leaningHandler ∧
    ∃ r, repeatRounds (traced leaningHandler) ⟨pair, (), []⟩ = some r ∧
      Proper pair.pool (reached r).own.2 (reached r).pool := by
  have hRegister : ({ alone with handled := [.typeChecked] } : Scheduler String).register "second" = .ok (pair, 1) := by cbv
  have hHandler : alone.setHandler .typeChecked = .ok { alone with handled := [.typeChecked] } := rfl
  have hHistory : History Unqueued pair := .register (.setHandler (.register .start register_alone) hHandler) hRegister
  obtain ⟨r, hRun, -, hProper⟩ := run_proper hHistory onlyAsks_leaningHandler ()
  exact ⟨hHistory, onlyAsks_leaningHandler, r, hRun, hProper⟩

/-- An entity that is released while it is queued, so that its index is queued twice: the handler of a phase is called again
for the entity that has the index now, after it has reached the phase, and succeeds again. -/
theorem called_twice : ∃ s : Scheduler String, History (fun _ _ => True) s ∧ OnlyAsks idleHandler ∧
    ∃ r, repeatRounds (traced idleHandler) ⟨s, (), []⟩ = some r ∧ ¬ Proper s.pool (reached r).own.2 (reached r).pool := by
  let handled : List Phase := [.typeChecked]
  let wrong : Pool String :=
    { alone.pool with entities := #[{ Entity.fresh "first" with err := .semantic, cause := some (.plain "wrong") }] }
  let released : Scheduler String := { alone with pool := { entities := #[.vacant], free := [0] }, handled }
  let twice : Scheduler String :=
    { pool := recycled.pool, queues := { typeChecked := [0, 0] }, handled }
  let call (before : Pool String) : Event String := ⟨.typeChecked, 0, before, before, .ok (.ok ())⟩
  let ended : World String (Unit × List (Event String)) :=
    ⟨{ pool := recycled.pool.update 0 ({ · with phase := .run }), handled, rounds := 1 }, (),
      [call twice.pool, call (recycled.pool.update 0 ({ · with phase := .typeChecked }))]⟩
  have hHandler : alone.setHandler .typeChecked = .ok { alone with handled } := rfl
  have hMark : alone.pool.setError 0 .semantic (.plain "wrong") = .ok wrong := rfl
  have hRelease : wrong.release 0 = .ok released.pool := by cbv
  have hRegister : released.register "second" = .ok (twice, 0) := by cbv
  have hFailed : History (fun _ _ => True) { alone with pool := wrong, handled } :=
    .setError (.setHandler (.register .start register_alone) hHandler) hMark
  have hReleased : History (fun _ _ => True) released :=
    .release (s := { alone with pool := wrong, handled }) (i := 0) hFailed trivial hRelease
  have hRound : round (traced idleHandler) ⟨twice, (), []⟩ = .ok none ended := by cbv
  have hLast : round (traced idleHandler) ended = .ok (some (.ok ())) ended := by cbv
  refine ⟨twice, .register hReleased hRegister, onlyAsks_idleHandler, .ok (.ok ()) ended, ?_, fun hProper => ?_⟩
  · rw [repeatRounds_eq, hRound]
    dsimp only
    rw [repeatRounds_eq, hLast]
  · exact List.pairwise_pair.mp hProper.once rfl rfl ⟨rfl, rfl⟩

end Scheduler

end Comptime
