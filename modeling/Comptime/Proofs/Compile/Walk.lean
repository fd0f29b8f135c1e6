import Comptime.Proofs.Compile.Discipline

/-!
# Everything that code may reach

Before code is executed, a walk comes to all that the code may reach and asks for it. If nothing is missing then the world
is as it was, and every declaration that the walk has come to is there: procedures are built and globals have run
(`ready_spec`). The walk has fuel for a path through all the code there is, so that it leaves out nothing.
-/

namespace Comptime

open List

namespace Compile

open Scheduler

variable {me id fuel : Nat} {w w' : World Nat State} {b : Built} {r r' : Reach} {s : Symbol} {p : Phase}

/-- What code refers to directly, and the phase that is asked of it. -/
def references (b : Built) : List (Nat × Phase) :=
  b.globals.map (fun g => (g.id, .run)) ++ b.callees.map fun p => (p.id, .bytecodeBuilt)

/-- The pieces of code that the walk has not come to. -/
def unseen (st : State) (r : Reach) : Nat := st.built.countP fun x => !r.seen.contains (x.1, .bytecodeBuilt)

/-- Nothing but the edges of the pool has changed, and the walk has gone on. -/
structure GoesOn (w w' : World Nat State) (r r' : Reach) : Prop where
  own : w'.own = w.own
  size : w'.pool.size = w.pool.size
  seen : r.seen ⊆ r'.seen

/-- A part of the walk that has found nothing missing, from which `cs` can be reached directly. -/
structure Complete (w w' : World Nat State) (cs : List (Nat × Phase)) (r r' : Reach) : Prop where
  missing : r.missing = none
  world : w' = w
  here : ∀ c ∈ cs, c ∈ r'.seen
  arrived : ∀ c ∈ r'.seen, c ∉ r.seen → Arrived w c
  onward : ∀ id, (id, .bytecodeBuilt) ∈ r'.seen → (id, .bytecodeBuilt) ∉ r.seen →
    ∃ b, w.own.built.lookup id = some b ∧ ∀ c ∈ references b, c ∈ r'.seen

/-- What an attempt at a part of the walk comes to. -/
def Walks (w : World Nat State) (cs : List (Nat × Phase)) (r : Reach) (x : Attempt Reach) : Prop :=
  ∀ r' w', x w = .ok (.ok r') w' → GoesOn w w' r r' ∧ (r'.missing = none → Complete w w' cs r r')

theorem GoesOn.refl : GoesOn w w r r := ⟨rfl, rfl, List.Subset.refl _⟩

theorem GoesOn.trans {w'' : World Nat State} {r'' : Reach} (h : GoesOn w w' r r') (h' : GoesOn w' w'' r' r'') :
    GoesOn w w'' r r'' :=
  ⟨h'.own.trans h.own, h'.size.trans h.size, List.Subset.trans h.seen h'.seen⟩

theorem countP_unseen_le {s s' : List (Nat × Phase)} (hSub : s ⊆ s') (l : List (Nat × Built)) :
    (l.countP fun x => !s'.contains (x.1, .bytecodeBuilt)) ≤ l.countP fun x => !s.contains (x.1, .bytecodeBuilt) := by
  refine countP_mono_left fun x _ hx => ?_
  simp only [Bool.not_eq_true', contains_eq_mem, decide_eq_false_iff_not] at hx ⊢
  exact fun hc => hx (hSub hc)

theorem GoesOn.unseen_le (h : GoesOn w w' r r') : unseen w'.own r' ≤ unseen w.own r := by
  rw [unseen, unseen, h.own]
  exact countP_unseen_le h.seen _

/-- Coming to a piece of code leaves less to come to. -/
theorem unseen_lt {st : State} (hBuilt : st.built.lookup id = some b) (hNew : (id, .bytecodeBuilt) ∉ r.seen) :
    unseen st { r with seen := (id, .bytecodeBuilt) :: r.seen } < unseen st r := by
  obtain ⟨l, l', hSplit, -⟩ := lookup_eq_some_iff.mp hBuilt
  have hBefore := countP_unseen_le (subset_cons_self (id, .bytecodeBuilt) r.seen) l
  have hAfter := countP_unseen_le (subset_cons_self (id, .bytecodeBuilt) r.seen) l'
  simp only [unseen, hSplit, countP_append, countP_cons, contains_eq_mem, mem_cons_self, hNew, decide_true, decide_false,
    Bool.not_true, Bool.not_false, if_true, Bool.false_eq_true, if_false] at hBefore hAfter ⊢
  omega

theorem Complete.trans {w'' : World Nat State} {r'' : Reach} {cs cs' : List (Nat × Phase)} (h : Complete w w' cs r r')
    (h' : Complete w' w'' cs' r' r'') (hOn : r'.seen ⊆ r''.seen) : Complete w w'' (cs ++ cs') r r'' := by
  obtain rfl := h.world
  refine ⟨h.missing, h'.world, fun c hc => ?_, fun c hc hNew => ?_, fun id hId hNew => ?_⟩
  · rcases mem_append.mp hc with hc | hc
    · exact hOn (h.here c hc)
    · exact h'.here c hc
  · by_cases hMid : c ∈ r'.seen
    · exact h.arrived c hMid hNew
    · exact h'.arrived c hc hMid
  · by_cases hMid : (id, Phase.bytecodeBuilt) ∈ r'.seen
    · obtain ⟨b, hb, hRefs⟩ := h.onward id hMid hNew
      exact ⟨b, hb, fun c hc => hOn (hRefs c hc)⟩
    · exact h'.onward id hId hMid

theorem ask_spec (hMe : me < w.pool.size) (hp : p ≤ .run) {a : Except Failure Unit}
    (hRun : ask me s p w = .ok (.ok a) w') : Asked me s p w a w' := by
  rcases asked_cases s hp hMe with ⟨a, hRefused⟩ | ⟨a', w1, hAsked⟩
  · rw [ask_refused hRefused] at hRun
    cases hRun
  rw [ask_apply hAsked.run] at hRun
  cases hRun
  exact hAsked

theorem Walks.pure {cs : List (Nat × Phase)} (h : ∀ c ∈ cs, c ∈ r.seen) : Walks w cs r (Pure.pure r) := by
  intro r' w' hRun
  cases hRun
  exact ⟨.refl, fun hNone => ⟨hNone, rfl, h, fun c hc hNew => absurd hc hNew, fun id hId hNew => absurd hId hNew⟩⟩

theorem Walks.bind {cs cs' : List (Nat × Phase)} {x : Attempt Reach} {f : Reach → Attempt Reach} (hx : Walks w cs r x)
    (hf : ∀ r' w', GoesOn w w' r r' → Walks w' cs' r' (f r')) : Walks w (cs ++ cs') r (x >>= f) := by
  intro r2 w2 hRun
  obtain ⟨r1, w1, hFirst, hThen⟩ := attempt_bind_eq_ok hRun
  obtain ⟨hOn, hComplete⟩ := hx r1 w1 hFirst
  obtain ⟨hOn', hComplete'⟩ := hf r1 w1 hOn r2 w2 hThen
  refine ⟨hOn.trans hOn', fun hNone => ?_⟩
  have hRest := hComplete' hNone
  exact (hComplete hRest.missing).trans hRest hOn'.seen

theorem Walks.foldlM {γ : Type} {f : Reach → γ → Attempt Reach} {c : γ → Nat × Phase}
    (hf : ∀ r' w' x, GoesOn w w' r r' → Walks w' [c x] r' (f r' x)) :
    ∀ (l : List γ) (r' : Reach) (w' : World Nat State), GoesOn w w' r r' → Walks w' (l.map c) r' (l.foldlM f r')
  | [], _, _, _ => .pure nofun
  | x :: l, r', w', hOn => by
    rw [foldlM_cons, map_cons, ← singleton_append]
    exact (hf r' w' x hOn).bind fun r1 w1 hOn1 => Walks.foldlM hf l r1 w1 (hOn.trans hOn1)

/-- Visiting a declaration, where `next` goes on to what its code refers to. -/
theorem visit_walks {next : Reach → Attempt Reach} (hMe : me < w.pool.size) (hp : p ≤ .run)
    (hNext : (s.id, p) ∉ r.seen → ∀ r' w', next { r with seen := (s.id, p) :: r.seen } w = .ok (.ok r') w' →
      ∃ cs, Walks w cs { r with seen := (s.id, p) :: r.seen } (next { r with seen := (s.id, p) :: r.seen }) ∧
        (p = .bytecodeBuilt → ∃ b, w.own.built.lookup s.id = some b ∧ references b ⊆ cs)) :
    Walks w [(s.id, p)] r (r.visit me s p next) := by
  unfold Reach.visit
  by_cases hSeen : (s.id, p) ∈ r.seen
  · rw [if_pos hSeen]
    exact .pure fun c hc => mem_singleton.mp hc ▸ hSeen
  rw [if_neg hSeen]
  intro r' w' hRun
  obtain ⟨a, w1, hAsk, hThen⟩ := attempt_bind_eq_ok hRun
  have hAsked := ask_spec hMe hp hAsk
  have hSub : r.seen ⊆ (s.id, p) :: r.seen := subset_cons_self ..
  -- what is not there yet is noted; then nothing is claimed of what lies behind it
  rcases a with f | ⟨⟩
  · dsimp only at hThen
    split at hThen
    · cases hThen
      exact ⟨⟨hAsked.own, hAsked.required.amends.size, hSub⟩, nofun⟩
    · cases hThen
  · obtain ⟨rfl, hArrived⟩ := hAsked.there rfl
    obtain ⟨cs, hWalks, hCode⟩ := hNext hSeen r' w' hThen
    obtain ⟨hOn, hComplete⟩ := hWalks r' w' hThen
    refine ⟨⟨hOn.own, hOn.size, List.Subset.trans hSub hOn.seen⟩, fun hNone => ?_⟩
    have hRest := hComplete hNone
    refine ⟨hRest.missing, hRest.world, ?_, fun c hc hNew => ?_, fun id hId hNew => ?_⟩
    · simpa using hOn.seen (mem_cons_self ..)
    · by_cases hMe : c = (s.id, p)
      · exact hMe ▸ hArrived
      · exact hRest.arrived c hc (by simp [hMe, hNew])
    · by_cases hMe : (id, Phase.bytecodeBuilt) = (s.id, p)
      · cases hMe
        obtain ⟨b, hb, hRefs⟩ := hCode rfl
        exact ⟨b, hb, fun c hc => hRest.here c (hRefs hc)⟩
      · exact hRest.onward id hId (by simpa [hNew] using hMe)

/-- **The walk leaves out nothing.** With fuel for all the code it has not come to, it comes to everything that can be
reached. -/
theorem reach_walks (hMe : me < w.pool.size) (hFuel : unseen w.own r < fuel) :
    Walks w (references b) r (reach me fuel b r) := by
  induction fuel generalizing w b r with
  | zero => exact absurd hFuel (Nat.not_lt_zero _)
  | succ fuel ih =>
    have hStays {r' w'} (hOn : GoesOn w w' r r') : me < w'.pool.size ∧ unseen w'.own r' ≤ fuel :=
      ⟨hOn.size ▸ hMe, hOn.unseen_le.trans (Nat.le_of_lt_succ hFuel)⟩
    rw [reach, references]
    refine Walks.bind ?_ fun r1 w1 hOn1 => ?_
    · refine Walks.foldlM (fun r' w' g hOn => ?_) b.globals r w .refl
      exact visit_walks (hStays hOn).1 (by decide) fun _ r1 w1 _ => ⟨[], .pure nofun, nofun⟩
    · refine Walks.foldlM (fun r' w' p hOn => ?_) b.callees r1 w1 hOn1
      obtain ⟨hMe', hFuel'⟩ := hStays hOn
      refine visit_walks hMe' (by decide) fun hNew r2 w2 hRun => ?_
      -- the code of the callee is walked over with one step less, and there is one piece less to come to
      rw [attempt_bind_apply, show state w' = .ok (.ok w'.own) w' from rfl] at hRun
      cases hBuilt : w'.own.built.lookup p.id with
      | none =>
        simp only [hBuilt] at hRun
        cases hRun
      | some b' =>
        have hWalks := ih (b := b') hMe' (lt_of_lt_of_le (unseen_lt hBuilt hNew) hFuel')
        refine ⟨references b', fun r3 w3 hRun => hWalks r3 w3 ?_, fun _ => ⟨b', rfl, List.Subset.refl _⟩⟩
        rw [attempt_bind_apply, show state w' = .ok (.ok w'.own) w' from rfl] at hRun
        simp only [hBuilt] at hRun
        exact hRun

/-! ## Readiness -/

/-- Code refers to a procedure that has this code. -/
def CallsCode (st : State) (b b' : Built) : Prop := ∃ p ∈ b.callees, st.built.lookup p.id = some b'

/-- All code that can be reached from `b` is there, and the globals it uses have run, but for the one that is `id`. -/
def Ready (w : World Nat State) (id : Nat) (b : Built) : Prop :=
  ∀ b', Relation.ReflTransGen (CallsCode w.own) b b' →
    (∀ p ∈ b'.callees, Arrived w (p.id, .bytecodeBuilt) ∧ ∃ b'', w.own.built.lookup p.id = some b'') ∧
    ∀ g ∈ b'.globals, g.id ≠ id → Arrived w (g.id, .run)

/-- **Code that does not have to wait is ready**, and finding that out has changed nothing. -/
theorem ready_spec (hMe : me < w.pool.size) (hRun : ready me id b w = .ok (.ok ()) w') : w' = w ∧ Ready w id b := by
  rw [ready, attempt_bind_apply, show state w = .ok (.ok w.own) w from rfl] at hRun
  dsimp only at hRun
  have hFuel : unseen w.own { seen := [(id, .run)] } < w.own.built.length + 1 := Nat.lt_succ_of_le countP_le_length
  obtain ⟨r, w1, hReach, hThen⟩ := attempt_bind_eq_ok hRun
  obtain ⟨-, hComplete⟩ := reach_walks (b := b) hMe hFuel r w1 hReach
  cases hMissing : r.missing with
  | some f =>
    simp only [hMissing] at hThen
    cases hThen
  | none =>
    simp only [hMissing] at hThen
    cases hThen
    have hAll := hComplete hMissing
    refine ⟨hAll.world, fun b' hReached => ?_⟩
    have hCode (x : Nat) : (x, Phase.bytecodeBuilt) ∉ [(id, Phase.run)] := fun h =>
      absurd (Prod.mk.inj (mem_singleton.mp h)).2 (by decide)
    -- the walk has gone on from every procedure it has seen, so that it has seen all that are reached
    have hSeen : ∀ c ∈ references b', c ∈ r.seen := by
      induction hReached with
      | refl => exact hAll.here
      | tail _ hCalls ih =>
        obtain ⟨p, hp, hLookup⟩ := hCalls
        obtain ⟨b'', hb'', hRefs⟩ := hAll.onward p.id (ih _ (mem_append_right _ (mem_map_of_mem hp))) (hCode _)
        rw [hLookup] at hb''
        cases hb''
        exact hRefs
    refine ⟨fun p hp => ?_, fun g hg hOther => ?_⟩
    · have hp' := hSeen (p.id, .bytecodeBuilt) (mem_append_right _ (mem_map_of_mem hp))
      obtain ⟨b'', hb'', -⟩ := hAll.onward p.id hp' (hCode _)
      exact ⟨hAll.arrived _ hp' (hCode _), b'', hb''⟩
    · refine hAll.arrived _ (hSeen _ (mem_append_left _ (mem_map_of_mem hg))) ?_
      simpa using hOther

end Compile

end Comptime
