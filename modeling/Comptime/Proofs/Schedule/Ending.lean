import Comptime.Proofs.Schedule.Exclusive

/-!
# Runs of handlers that only ask end

Every move of such a run brings an entity nearer to its end, fails one, or makes one wait that did not: what waits is called
again only after another entity has moved. `effort` counts this. A turn or a search that moves something uses effort up
(`Turn.effort_le`, `Tidy.effort_searched`), so that every run ends (`Tidy.exists_end`), be it with all entities finished or
failed, in a deadlock, or broken off.
-/

namespace Comptime

namespace Pool

variable {ν : Type} {p p' : Pool ν}
variable {i : Nat} {l l' : List Nat}

/-- The entity has nothing to wait for. -/
def ready (p : Pool ν) (i : Nat) : Bool :=
  (p.entity i).deps.all fun d => p.satisfied d || (p.entity d.target).failed

/-- The entities that have not failed and have nothing to wait for. -/
def prompt (p : Pool ν) : Finset Nat := {i ∈ Finset.range p.size | (p.entity i).failed = false ∧ p.ready i = true}

/-- What a queued entity has to go: one step more for each phase that is left outweighs all that can become ready by it, and
one that has failed is only to be dropped. -/
def toll (p : Pool ν) (i : Nat) : Nat :=
  if (p.entity i).failed then 1 else (p.size + 1) * (5 - (p.entity i).phase.rank).toNat

/-- What is left to do, if these are queued. -/
def effort (p : Pool ν) (queued : List Nat) : Nat := (queued.map p.toll).sum + p.prompt.card

theorem mem_prompt : i ∈ p.prompt ↔ i < p.size ∧ (p.entity i).failed = false ∧ p.ready i = true := by
  rw [prompt, Finset.mem_filter, Finset.mem_range]

theorem card_prompt_le (p : Pool ν) : p.prompt.card ≤ p.size :=
  (Finset.card_filter_le _ _).trans (Finset.card_range _).le

/-- One that has failed is not prompt. -/
theorem card_prompt_lt (hi : i < p.size) (hFailed : (p.entity i).failed = true) : p.prompt.card < p.size := by
  refine (Finset.card_lt_card (t := Finset.range p.size) ?_).trans_eq (Finset.card_range _)
  refine (Finset.ssubset_iff_of_subset (Finset.filter_subset _ _)).mpr ⟨i, Finset.mem_range.mpr hi, fun hc => ?_⟩
  rw [(mem_prompt.mp hc).2.1] at hFailed
  cases hFailed

theorem effort_perm (h : l.Perm l') : p.effort l = p.effort l' := by
  rw [effort, effort, (h.map p.toll).sum_eq]

theorem toll_of_failed (h : (p.entity i).failed = true) : p.toll i = 1 := if_pos h

theorem toll_of_live (h : (p.entity i).failed = false) : p.toll i = (p.size + 1) * (5 - (p.entity i).phase.rank).toNat := by
  rw [toll, h, if_neg Bool.false_ne_true]

theorem toll_congr (hSize : p'.size = p.size) (hPhase : (p'.entity i).phase = (p.entity i).phase)
    (hFailed : (p'.entity i).failed = (p.entity i).failed) : p'.toll i = p.toll i := by
  rw [toll, toll, hSize, hPhase, hFailed]

theorem sum_toll_congr (h : ∀ i ∈ l, p'.toll i = p.toll i) : (l.map p'.toll).sum = (l.map p.toll).sum := by
  rw [List.map_congr_left h]

/-- One that attempts a phase has far to go. -/
theorem size_lt_toll {q : Phase} (hLive : (p.entity i).failed = false) (hPhase : q = (p.entity i).phase.succ)
    (hq : Queues.Attempts q) : p.size < p.toll i := by
  have hLast := hq.2
  rw [hPhase, Phase.succ] at hLast
  dsimp only at hLast
  rw [toll_of_live hLive]
  exact Nat.lt_of_lt_of_le (Nat.lt_succ_self _) (Nat.le_mul_of_pos_right _ (by omega))

/-- What is left to wait for depends on the edges that are to be waited for only. -/
theorem ready_congr (hSat : ∀ d, p'.satisfied d = p.satisfied d) (hFailed : ∀ t, (p'.entity t).failed = (p.entity t).failed)
    (hDeps : ∀ d, p.satisfied d = false → (p.entity d.target).failed = false → (d ∈ (p'.entity i).deps ↔ d ∈ (p.entity i).deps)) :
    p'.ready i = p.ready i := by
  rw [Bool.eq_iff_iff]
  simp only [ready, List.all_eq_true, Bool.or_eq_true, hSat, hFailed]
  constructor
  · intro h d hd
    by_contra hNot
    rw [not_or, Bool.not_eq_true, Bool.not_eq_true] at hNot
    exact not_or.mpr ⟨by simp [hNot.1], by simp [hNot.2]⟩ (h d ((hDeps d hNot.1 hNot.2).mpr hd))
  · intro h d hd
    by_contra hNot
    rw [not_or, Bool.not_eq_true, Bool.not_eq_true] at hNot
    exact not_or.mpr ⟨by simp [hNot.1], by simp [hNot.2]⟩ (h d ((hDeps d hNot.1 hNot.2).mp hd))

end Pool

namespace Scheduler

variable {ν σ : Type} {handle : Handler ν σ} {w w' : World ν σ} {p : Phase} {id : Nat}
variable {pre rest : List Nat}

/-- What is left to do. -/
def effort (w : World ν σ) : Nat := w.pool.effort w.scheduler.queues.all

theorem effort_holding (w : World ν σ) (hp : Queues.Attempts p) (hand : List Nat) :
    effort (w.holding p hand) = w.pool.effort (hand ++ w.scheduler.queues.all) := Pool.effort_perm (w.all_holding hp hand)

/-- The entity whose turn comes, apart from the others. -/
theorem effort_held (w : World ν σ) (hp : Queues.Attempts p) (pre rest : List Nat) :
    effort (w.holding p (pre ++ id :: rest)) =
      w.pool.toll id + w.pool.effort (pre ++ rest ++ w.scheduler.queues.all) := by
  have hPerm : (pre ++ id :: rest ++ w.scheduler.queues.all).Perm (id :: (pre ++ rest ++ w.scheduler.queues.all)) :=
    List.perm_middle.append_right _
  rw [effort_holding w hp, Pool.effort_perm hPerm, Pool.effort, Pool.effort, List.map_cons, List.sum_cons, Nat.add_assoc]

/-- Nothing is nearer to its end or failed after an idle step, and the same entities are ready. -/
theorem Idle.effort_eq (h : Idle w w') (hSize : w'.pool.size = w.pool.size)
    (hQueues : w'.scheduler.queues = w.scheduler.queues) :
    effort w' = effort w := by
  have hPrompt : w'.pool.prompt = w.pool.prompt := by
    ext i
    have hReady : w'.pool.ready i = w.pool.ready i := Pool.ready_congr h.satisfied h.failed fun d hUnsat hLive =>
      ⟨h.drops i d, fun hd => h.keeps i d hd hUnsat hLive⟩
    rw [Pool.mem_prompt, Pool.mem_prompt, hSize, h.failed, hReady]
  rw [effort, effort, Pool.effort, Pool.effort, hQueues, hPrompt,
    Pool.sum_toll_congr fun i _ => Pool.toll_congr hSize (h.phase i) (h.failed i)]

/-- An attempt of an entity that is ready makes it wait, or leaves things as they are. -/
theorem Amended.effort_le (h : Amended id w w') (hDeps : (w.pool.entity id).deps = []) (hId : id < w.pool.size)
    (hLive : (w.pool.entity id).failed = false) (l : List Nat) :
    w'.pool.effort l + (!(w'.pool.entity id).deps.isEmpty).toNat ≤ w.pool.effort l := by
  have hReady : w.pool.ready id = true := by simp [Pool.ready, hDeps]
  have hOther {i : Nat} (hi : i ≠ id) : w'.pool.ready i = w.pool.ready i :=
    Pool.ready_congr h.satisfied h.failed fun d _ _ => by rw [h.other i hi]
  have hPrompt : w'.pool.prompt ⊆ w.pool.prompt := by
    intro i hi
    rw [Pool.mem_prompt, h.size, h.failed] at hi
    rw [Pool.mem_prompt]
    by_cases hEq : i = id
    · exact ⟨hi.1, hi.2.1, hEq ▸ hReady⟩
    · exact ⟨hi.1, hi.2.1, hOther hEq ▸ hi.2.2⟩
  rw [Pool.effort, Pool.effort, Pool.sum_toll_congr fun i _ => Pool.toll_congr h.size (h.phase i) (h.failed i), Nat.add_assoc]
  refine Nat.add_le_add_left ?_ _
  cases hNew : (w'.pool.entity id).deps with
  | nil => exact Finset.card_le_card hPrompt
  | cons d rest =>
    -- the edges are new, so that they are to be waited for
    refine Nat.succ_le_of_lt (Finset.card_lt_card ((Finset.ssubset_iff_of_subset hPrompt).mpr ⟨id, ?_, ?_⟩))
    · exact Pool.mem_prompt.mpr ⟨hId, hLive, hReady⟩
    · have hIn : d ∈ (w'.pool.entity id).deps := hNew ▸ List.mem_cons_self ..
      have hOpen := (h.edge d hIn).resolve_left (by rw [hDeps]; exact List.not_mem_nil)
      intro hc
      have hAll := List.all_eq_true.mp (Pool.mem_prompt.mp hc).2.2 d hIn
      rw [h.satisfied, h.failed, hOpen.unsatisfied, hOpen.live] at hAll
      cases hAll

/-- A turn that moves something uses effort up, and no turn adds to it. -/
theorem Turn.effort_le {stays moved : Bool} (hp : Queues.Attempts p)
    (hTidy : Tidy (w.holding p (pre ++ id :: rest)).scheduler)
    (hAsks : Asking handle p id (w.settled id)) (hTurn : Turn handle p id w stays moved w') :
    effort (w'.holding p (pre ++ staying id stays ++ rest)) + moved.toNat ≤ effort (w.holding p (pre ++ id :: rest)) := by
  obtain ⟨hId, hNot, hPhase⟩ := hTidy.held hp
  have hIdle := Idle.settled w id
  have hSize : (w.settled id).pool.size = w.pool.size := Pool.size_update ..
  have hSettled : effort ((w.settled id).holding p (pre ++ id :: rest)) = effort (w.holding p (pre ++ id :: rest)) :=
    (hIdle.holding p _).effort_eq hSize rfl
  -- what holds of the world that an answer leaves behind
  have hAnswer {r : Except Failure Unit} {w1 : World ν σ} (hAns : Answers handle p id (w.settled id) r w1) :
      w1.pool.size = w.pool.size ∧ w1.scheduler.queues = w.scheduler.queues ∧
        (∀ i, (w1.pool.entity i).phase = (w.pool.entity i).phase) ∧
        ∀ i, (w1.pool.entity i).failed = (w.pool.entity i).failed := by
    have hAmended := hAsks _ _ hAns
    exact ⟨hAmended.size.trans hSize, by rw [hAmended.scheduler]; rfl, fun i => (hAmended.phase i).trans (hIdle.phase i),
      fun i => (hAmended.failed i).trans (hIdle.failed i)⟩
  -- where only this entity has changed since, the others have as far to go as before
  have hOthers {r : Except Failure Unit} {w1 w2 : World ν σ} (hAns : Answers handle p id (w.settled id) r w1)
      (hSize2 : w2.pool.size = w1.pool.size) (hEntity : ∀ {i}, i ≠ id → w2.pool.entity i = w1.pool.entity i) :
      ((pre ++ rest ++ w.scheduler.queues.all).map w2.pool.toll).sum =
        ((pre ++ rest ++ w.scheduler.queues.all).map w.pool.toll).sum := by
    obtain ⟨hSize1, -, hSamePhase, hSameFailed⟩ := hAnswer hAns
    refine Pool.sum_toll_congr fun i hi => ?_
    have hEq := hEntity fun hc => hNot (hc ▸ hi)
    exact Pool.toll_congr (hSize2.trans hSize1) (hEq ▸ hSamePhase i) (hEq ▸ hSameFailed i)
  -- and it is enough that this one is a step nearer to its end, which outweighs all that has become ready
  have hNearer {w2 : World ν σ} {l : List Nat} (hSize' : w2.pool.size = w.pool.size)
      (hSum : (l.map w2.pool.toll).sum + (w.pool.size + 1) ≤
        w.pool.toll id + ((pre ++ rest ++ w.scheduler.queues.all).map w.pool.toll).sum) :
      w2.pool.effort l + 1 ≤ effort (w.holding p (pre ++ id :: rest)) := by
    have hPrompt := Pool.card_prompt_le w2.pool
    rw [effort_held w hp, Pool.effort, Pool.effort]
    omega
  rw [append_staying]
  cases hTurn with
  | drop hFailed =>
    rw [if_neg Bool.false_ne_true, effort_holding w hp, effort_held w hp, Pool.toll_of_failed hFailed, Nat.add_comm]
    exact le_rfl
  | wait _ _ =>
    rw [if_pos rfl, hSettled]
    exact le_rfl
  | @advance w1 hLive hReady hAns =>
    obtain ⟨hSize1, hQueues, -, hSameFailed⟩ := hAnswer hAns
    have hSize2 : (w1.advanced p id).pool.size = w1.pool.size := Pool.size_update ..
    have hFar := Pool.size_lt_toll hLive (hPhase hLive) hp
    have hPerm := (w1.all_advanced p id).append_left (pre ++ rest)
    rw [hQueues] at hPerm
    rw [if_neg Bool.false_ne_true, effort_holding _ hp]
    refine hNearer (hSize2.trans hSize1) ?_
    rw [(hPerm.map _).sum_eq]
    split
    · have hSelf := World.entity_advanced_self (w := w1) (p := p) (hSize1 ▸ hId)
      have hStep : (w1.advanced p id).pool.toll id + (w.pool.size + 1) = w.pool.toll id := by
        rw [Pool.toll_of_live (by rw [hSelf]; exact (hSameFailed id).trans hLive), hSelf, hSize2, hSize1,
          Pool.toll_of_live hLive, ← Nat.mul_succ]
        have hRank := congrArg Phase.rank (hPhase hLive)
        have hLast := hp.2
        simp only [Phase.succ] at hRank ⊢
        congr 1
        omega
      rw [(List.perm_middle.map _).sum_eq, List.map_cons, List.sum_cons, hOthers hAns hSize2 (World.entity_advanced_ne · p)]
      omega
    · rw [hOthers hAns hSize2 (World.entity_advanced_ne · p)]
      omega
  | yield hLive hReady hAns _ =>
    rw [if_pos rfl, ← hSettled, effort_holding w' hp, effort_holding (w.settled id) hp, (hAnswer hAns).2.1]
    exact (hAsks _ _ hAns).effort_le (deps_settled hId hReady) (hSize ▸ hId) ((hIdle.failed id).trans hLive) _
  | @fail w1 f hLive hReady hAns _ =>
    obtain ⟨hSize1, hQueues, -⟩ := hAnswer hAns
    have hSize2 : (w1.failing id f).pool.size = w1.pool.size := Pool.size_update ..
    have hFar := Pool.size_lt_toll hLive (hPhase hLive) hp
    rw [if_neg Bool.false_ne_true, effort_holding _ hp]
    refine hNearer (hSize2.trans hSize1) ?_
    rw [show (w1.failing id f).scheduler.queues = _ from hQueues,
      hOthers hAns hSize2 fun hi => Pool.entity_update_ne (Ne.symm hi) _]
    omega

/-- A search that fails nothing changes nothing. -/
theorem Tidy.idle_searched (h : Tidy w.scheduler) (hNone : (w.pool.detectCycles (w.queue p)).failed = 0) :
    Idle w (w.searched p) :=
  ⟨fun _ => rfl, (h.eases_searched p).phase, Pool.failed_eq_of_search_none (fun _ _ hd => h.edges hd) _ hNone,
    fun i _ hd => h.deps_searched p i ▸ hd, fun i _ hd _ _ => (h.deps_searched p i).symm ▸ hd⟩

/-- A search that fails something uses effort up. -/
theorem Tidy.effort_searched (h : Tidy w.scheduler) (p : Phase) :
    effort (w.searched p) + ((w.pool.detectCycles (w.queue p)).failed != 0).toNat ≤ effort w := by
  have hEases := h.eases_searched p
  by_cases hNone : (w.pool.detectCycles (w.queue p)).failed = 0
  · rw [hNone, (h.idle_searched hNone).effort_eq hEases.size rfl]
    exact le_rfl
  · obtain ⟨v, hv, hLive, hFailed⟩ := Pool.exists_failed_of_search (fun i d hd => h.edges hd) _ hNone
    have hFailed' : ((w.searched p).pool.entity v).failed = true := hFailed
    have hQueued {i : Nat} (hi : i ∈ w.scheduler.queues.all) (hLive : (w.pool.entity i).failed = false) :
        w.pool.size < w.pool.toll i := by
      obtain ⟨q, hq⟩ := World.mem_all_iff.mp hi
      refine Pool.size_lt_toll hLive ((h.member hq).2.resolve_left (Bool.eq_false_iff.mp hLive)) ?_
      by_contra hNot
      rw [World.queue_eq_nil w hNot] at hq
      cases hq
    -- a failed entity costs nothing any more, and to the others the search does nothing
    have hLess {i : Nat} (hi : i ∈ w.scheduler.queues.all) : (w.searched p).pool.toll i ≤ w.pool.toll i := by
      cases hNew : ((w.searched p).pool.entity i).failed with
      | true =>
        rw [Pool.toll_of_failed hNew]
        cases hOld : (w.pool.entity i).failed with
        | true => exact (Pool.toll_of_failed hOld).ge
        | false => exact Nat.lt_of_le_of_lt (Nat.zero_le _) (hQueued hi hOld)
      | false => exact (Pool.toll_congr hEases.size (hEases.phase i) (hNew.trans (hEases.live i hNew).symm)).le
    have hIn : v ∈ w.scheduler.queues.all := World.mem_all_iff.mpr ⟨p, hv⟩
    have hRest : (((w.scheduler.queues.all).erase v).map (w.searched p).pool.toll).sum ≤
        (((w.scheduler.queues.all).erase v).map w.pool.toll).sum :=
      List.sum_le_sum fun i hi => hLess (List.mem_of_mem_erase hi)
    have hPrompt := Pool.card_prompt_lt (hEases.size.symm ▸ h.range hv) hFailed'
    have hFar := hQueued hIn hLive
    have hSize : (w.searched p).pool.size = w.pool.size := hEases.size
    have hPerm := List.perm_cons_erase hIn
    rw [bne_iff_ne.mpr hNone, effort, effort, Pool.effort_perm hPerm,
      show (w.searched p).scheduler.queues = w.scheduler.queues from rfl, Pool.effort_perm hPerm]
    simp only [Pool.effort, List.map_cons, List.sum_cons, Pool.toll_of_failed hFailed', Bool.toNat_true]
    omega

theorem carries_effort (hAsks : OnlyAsks handle) (n : Nat) :
    Carries handle (fun b w => Tidy w.scheduler ∧ effort w + b.toNat ≤ n) fun _ => True where
  turn {b p pre id rest w stays moved w'} hp := by
    rintro ⟨hTidy, hBound⟩ hTurn
    refine ⟨hTidy.turn hp (hAsks.asking _ _ _) hTurn, ?_⟩
    have hLe : effort (w'.holding p (pre ++ staying id stays ++ rest)) + moved.toNat ≤
      effort (w.holding p (pre ++ id :: rest)) := hTurn.effort_le hp hTidy (hAsks.asking _ _ _)
    cases b <;> cases moved <;>
      simp only [Bool.or_true, Bool.or_false, Bool.toNat_true, Bool.toNat_false] at hLe hBound ⊢ <;> omega
  broken _ _ _ := trivial
  search {b w} p := by
    rintro ⟨hTidy, hBound⟩
    refine ⟨hTidy.eases (hTidy.eases_searched p), ?_⟩
    have hLe := hTidy.effort_searched p
    cases b <;> cases hMoved : (w.pool.detectCycles (w.queue p)).failed != 0 <;> rw [hMoved] at hLe <;>
      simp only [Bool.or_true, Bool.or_false, Bool.toNat_true, Bool.toNat_false] at hLe hBound ⊢ <;> omega
  count {b w} := by
    rintro ⟨hTidy, hBound⟩
    exact ⟨(carries_tidy hAsks).count (b := b) hTidy, hBound⟩

/-- **Runs end.** Whatever handlers do that act by requirements only, a run from tidy queues ends. -/
theorem Tidy.exists_end (hAsks : OnlyAsks handle) (h : Tidy w.scheduler) : ∃ r, repeatRounds handle w = some r := by
  refine exists_repeatRounds (carries_effort hAsks) ?_ (effort w) w ⟨h, Nat.le_refl _⟩
  rintro n v ⟨hTidy, hBound⟩
  exact ⟨effort v, Nat.lt_of_succ_le hBound, hTidy, Nat.le_refl _⟩

end Scheduler

end Comptime
