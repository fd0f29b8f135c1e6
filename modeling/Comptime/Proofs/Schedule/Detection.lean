import Comptime.Proofs.Schedule.Scan

/-!
# The cycle detector meets its specification

The walk comes to exactly the entities that can be reached from those it sets out from, and each of them meets its fate
in the wait-for graph: `Pool.detectCycles_spec`. Nothing else about the pool changes.
-/

namespace Comptime.Pool

open Relation List Walk

variable {v : Nat}

namespace Walk

variable {ν : Type} {p : Pool ν} {w0 w : Walk ν}
variable {done : List Dep} {seen : Seen} {s : List Nat} {low x : Nat}

/-! ## All the edges of an entity -/

/-- `visit` does what is asked of it, as long as no more than `fuel` entities have not been come to. -/
def VisitsUpTo (p : Pool ν) (visit : Nat → Walk ν → Walk ν) (fuel : Nat) : Prop :=
  ∀ v w, Sound p w → v < p.size → ¬ w.Met v → (p.entity v).failed = false →
    (∀ y ∈ w.stack, p.Reaches y v) → unseen p w ≤ fuel → ∃ s low, Visited p w (visit v w) v s low

theorem Scanning.follow (h : Scanning p w0 w v done seen s low) {visit : Nat → Walk ν → Walk ν} {fuel : Nat}
    (hVisit : VisitsUpTo p visit fuel) (hFuel : unseen p w ≤ fuel) (hLive : (p.entity v).failed = false) {d : Dep}
    (hDep : d ∈ (p.entity v).deps) (hRange : d.target < p.size) :
    ∃ s' low', Scanning p w0 (follow visit v (w, seen) d).1 v (done ++ [d]) (follow visit v (w, seen) d).2 s' low' ∧
      ∀ i, w.Met i → (follow visit v (w, seen) d).1.Met i := by
  unfold Walk.follow
  simp only [h.sound.satisfied_eq]
  by_cases hSat : p.satisfied d = true
  · -- the edge is out of date
    rw [if_pos hSat]
    refine ⟨s, low, h.snoc d seen ?_ ?_ ?_ ?_, fun i => id⟩ <;> simp [hSat]
  rw [if_neg hSat]
  have hUnsat : p.satisfied d = false := by simpa using hSat
  by_cases hFailed : (w.pool.entity d.target).failed = true
  · -- the target has failed, before the walk or in its course
    rw [if_pos hFailed]
    have hNotStack : d.target ∉ w.stack := by
      intro hMem
      obtain ⟨hMet, hOpen⟩ := (h.sound.stack_iff _).mp hMem
      rw [h.sound.open_eq _ hOpen, h.sound.live _ hMet] at hFailed
      cases hFailed
    have hNotOwn : d.target ≠ v := fun heq => hNotStack (h.mem_stack_iff.mpr (.inl (heq ▸ h.own_mem)))
    refine ⟨s, low, h.snoc d _ ?_ ?_ ?_ ?_, fun i => id⟩
    · exact fun _ hMem => absurd (h.mem_stack_iff.mpr (.inr hMem)) hNotStack
    · intro _ hLiveTarget
      by_contra hNew
      rw [h.sound.open_eq _ (mt Closed.met hNew), hLiveTarget] at hFailed
      cases hFailed
    · simp [hNotOwn]
    · simp [hUnsat]
  · rw [if_neg hFailed]
    have hOpenLive : (p.entity d.target).failed = false := by
      by_cases hMet : w.Met d.target
      · exact h.sound.live _ hMet
      · rw [h.sound.open_eq _ (mt Closed.met hMet)] at hFailed
        simpa using hFailed
    have hEdge : p.Waits v d.target := ⟨hLive, hOpenLive, d, hDep, rfl, hUnsat⟩
    cases hMark : w.mark? d.target with
    | none =>
      -- the walk goes on to the target
      have hNew : ¬ w.Met d.target := not_met_iff.mpr hMark
      have hReach : ∀ y ∈ w.stack, p.Reaches y d.target := fun y hy => (h.stack_reaches hy).tail hEdge
      obtain ⟨s', low', hv⟩ := hVisit d.target w h.sound hRange hNew hOpenLive hReach hFuel
      obtain ⟨m, hm, rfl⟩ := hv.mark
      have hNotOwn : d.target ≠ v := fun heq => hNew (heq ▸ met_of_mark h.own)
      simp only [hm, Option.map_some, Option.getD_some]
      refine ⟨_, _, (h.merge hEdge hv).snoc d _ ?_ ?_ ?_ ?_, fun i hi => (met_lower ..).mpr (hv.kept.met hi)⟩
      · exact fun _ hMem => absurd (h.kept.met (h.met_before hMem)) hNew
      · exact fun _ _ => (met_lower ..).mpr (met_of_mark hm)
      · simp [hNotOwn]
      · simp [hUnsat]
    | some m =>
      have hNotCyclic : (w.pool.entity d.target).err.isCyclic = false := by
        by_contra hCyc
        exact hFailed (Entity.failed_of_isCyclic (by simpa using hCyc))
      have hMet := met_of_mark hMark
      have hComponent := component?_of_mark hMark
      cases hComp : m.component with
      | none =>
        -- the target is on the stack
        simp only [hComp, Option.isNone_none, if_true]
        have hMem := (h.sound.stack_iff _).mpr ⟨hMet, by simp [Closed, hComponent, hComp]⟩
        have hLow := h.lower (l := m.index) fun hlt => by
          have hBefore := h.mem_before_of_idx_lt hMem (by rwa [idx_of_mark hMark])
          refine ⟨d.target, hBefore, ?_, .single hEdge⟩
          rw [← h.idx_before hBefore, idx_of_mark hMark]
        refine ⟨s, _, hLow.snoc d _ ?_ ?_ ?_ ?_, fun i hi => (met_lower ..).mpr hi⟩
        · intro _ hBefore
          rw [← h.idx_before hBefore, idx_of_mark hMark]
          exact Nat.min_le_right ..
        · exact fun _ _ => (met_lower ..).mpr hMet
        · simp [hUnsat]
        · simp [hNotCyclic]
      | some c =>
        -- the component of the target is complete, and has been found to be able to go on
        simp only [hComp, Option.isNone_some, Bool.false_eq_true, if_false]
        have hClosed : w.Closed d.target := by simp [Closed, hComponent, hComp]
        refine ⟨s, low, h.snoc d _ ?_ ?_ ?_ ?_, fun i => id⟩
        · exact fun _ hMem => absurd hClosed ((h.sound.stack_iff _).mp (h.mem_stack_iff.mpr (.inr hMem))).2
        · exact fun _ _ => hMet
        · simp [hUnsat]
        · simp [hNotCyclic]

/-- The edges are followed in order, and whatever the walk has come to stays marked. -/
theorem Scanning.follow_all {visit : Nat → Walk ν → Walk ν} {fuel : Nat} (hVisit : VisitsUpTo p visit fuel)
    (hLive : (p.entity v).failed = false) : ∀ (ds done : List Dep) (w : Walk ν) (seen : Seen) (s : List Nat) (low : Nat),
      Scanning p w0 w v done seen s low → unseen p w ≤ fuel →
      (∀ d ∈ ds, d ∈ (p.entity v).deps ∧ d.target < p.size) →
      ∃ s' low', Scanning p w0 (ds.foldl (Walk.follow visit v) (w, seen)).1 v (done ++ ds)
        (ds.foldl (Walk.follow visit v) (w, seen)).2 s' low' := by
  intro ds
  induction ds with
  | nil =>
    intro done w seen s low h _ _
    refine ⟨s, low, ?_⟩
    rw [append_nil]
    exact h
  | cons d ds ih =>
    intro done w seen s low h hFuel hds
    obtain ⟨hDep, hRange⟩ := hds d (mem_cons_self ..)
    obtain ⟨s', low', h', hSeen⟩ := h.follow hVisit hFuel hLive hDep hRange
    have hFuel' : unseen p (Walk.follow visit v (w, seen) d).1 ≤ fuel := (unseen_le hSeen).trans hFuel
    obtain ⟨s'', low'', h''⟩ := ih (done ++ [d]) _ _ s' low' h' hFuel' fun x hx => hds x (mem_cons_of_mem _ hx)
    refine ⟨s'', low'', ?_⟩
    rw [append_assoc] at h''
    exact h''

/-! ## Closing a component -/

theorem members_append {rest : List Nat} (hv : v ∉ s) : members v (s ++ v :: rest) = s ++ [v] := by
  induction s with
  | nil => simp [members]
  | cons x s ih =>
    rw [mem_cons, not_or] at hv
    simp only [cons_append, members]
    rw [if_neg (Ne.symm hv.1), ih hv.2]

/-- The component of the given entities is noted. -/
def number (w : Walk ν) (ms : List Nat) : Walk ν :=
  ms.foldl (fun w x => match w.mark? x with
    | some m => w.setMark x { m with component := some w.components }
    | none => w) w

/-- Numbering changes the components of the given entities, and nothing else. -/
theorem number_spec (w : Walk ν) (ms : List Nat) : ∃ marks, w.number ms = { w with marks } ∧ marks.size = w.marks.size ∧
    ∀ j, mark? { w with marks } j =
      (w.mark? j).map fun m => if j ∈ ms then { m with component := some w.components } else m := by
  induction ms generalizing w with
  | nil => exact ⟨w.marks, rfl, rfl, by simp⟩
  | cons x ms ih =>
    cases hx : w.mark? x with
    | none =>
      obtain ⟨marks, hEq, hSize, hMark⟩ := ih w
      refine ⟨marks, by simpa [number, hx] using hEq, hSize, fun j => ?_⟩
      rw [hMark]
      by_cases hjx : j = x
      · subst hjx
        simp [hx]
      · simp [hjx]
    | some m =>
      obtain ⟨marks, hEq, hSize, hMark⟩ := ih (w.setMark x { m with component := some w.components })
      refine ⟨marks, ?_, by simpa [setMark] using hSize, fun j => (hMark j).trans ?_⟩
      · simp only [number, foldl_cons, hx]
        exact hEq
      rw [mark?_setMark]
      by_cases hxj : x = j
      · subst hxj
        simp [(met_of_mark hx).lt_size, hx, setMark]
      · simp [hxj, Ne.symm hxj, setMark]

/-- Failing entities that had not failed counts each of them, and changes nothing but their errors. -/
theorem fail_all_spec {kind : ErrorKind} (hKind : kind ≠ .ok) (cause : Failure) {ms : List Nat} {w : Walk ν}
    (hNodup : ms.Nodup) (hLive : ∀ x ∈ ms, x < w.pool.size ∧ (w.pool.entity x).failed = false) : ∃ pool,
      ms.foldl (fun w x => w.fail x kind cause) w = { w with pool, failed := w.failed + ms.length } ∧
      (∀ j, pool.entity j =
        if j ∈ ms then { w.pool.entity j with err := kind, cause := some cause } else w.pool.entity j) ∧
      pool.failedCount = w.pool.failedCount + ms.length ∧ pool.size = w.pool.size ∧ pool.books = w.pool.books := by
  induction ms generalizing w with
  | nil => exact ⟨w.pool, rfl, by simp, rfl, rfl, rfl⟩
  | cons x ms ih =>
    rw [nodup_cons] at hNodup
    obtain ⟨hxRange, hxLive⟩ := hLive x (mem_cons_self ..)
    -- the first error is kept, but these have none yet
    have hEntity : ∀ j, (w.fail x kind cause).pool.entity j =
        if x = j then { w.pool.entity j with err := kind, cause := some cause } else w.pool.entity j := by
      intro j
      show (w.pool.update x _).entity j = _
      by_cases hxj : x = j
      · subst hxj
        rw [entity_update_self hxRange, if_pos rfl, Entity.setError_of_not_failed hxLive]
      · rw [entity_update_ne hxj, if_neg hxj]
    have hCount : (w.fail x kind cause).pool.failedCount = w.pool.failedCount + 1 := by
      refine failedCount_update hxRange hxLive ?_
      rw [Entity.setError_of_not_failed hxLive, Entity.failed_iff]
      exact hKind
    obtain ⟨pool, hRun, hEnt, hFc, hSize, hFree⟩ := ih (w := w.fail x kind cause) hNodup.2 fun y hy => by
      have hxy : x ≠ y := fun heq => hNodup.1 (heq ▸ hy)
      rw [hEntity, if_neg hxy]
      simpa [fail] using hLive y (mem_cons_of_mem _ hy)
    refine ⟨pool, ?_, fun j => ?_, ?_, hSize.trans (size_update ..), hFree⟩
    · rw [foldl_cons, hRun, length_cons, Nat.add_comm _ 1, ← Nat.add_assoc]
      rfl
    · rw [hEnt, hEntity]
      by_cases hxj : x = j
      · subst hxj
        simp
      · simp [hxj, Ne.symm hxj]
    · rw [hFc, hCount, length_cons]
      omega

section

variable (h : Scanning p w0 w v (p.entity v).deps seen s low)

include h

/-- What is on the stack from `v` on was not come to before `v`. -/
theorem Scanning.not_met (hx : x ∈ s) : ¬ w0.Met x := by
  intro hMet
  have hOpen := ((h.sound.stack_iff x).mp (h.mem_stack_iff.mpr (.inl hx))).2
  rcases h.origin.stack_or_closed hMet with hBelow | hClosed
  · have hNodup := h.sound.nodup
    rw [h.stack_eq] at hNodup
    exact disjoint_of_nodup_append hNodup hx hBelow
  · exact hOpen ((h.kept.closed_iff hMet).mpr hClosed)

/-- Whatever `v`, or what was come to from it, waits for has been come to. -/
theorem Scanning.met_of_waits {i j : Nat} (hi : ¬ w0.Met i) (hMet : w.Met i) (hij : p.Waits i j) : w.Met j := by
  by_cases hiv : i = v
  · subst hiv
    obtain ⟨-, hLive, d, hd, rfl, hSat⟩ := hij
    exact h.met d hd hSat hLive
  · exact h.spread i hiv hi hMet j hij

/-- What waits for an entity below `v` on the stack. -/
theorem Scanning.low_le_of_waits {y : Nat} (hx : x ∈ s) (hy : y ∈ w0.stack) (hxy : p.Waits x y) : low ≤ w0.idx y := by
  by_cases hxv : x = v
  · subst hxv
    obtain ⟨-, -, d, hd, rfl, hSat⟩ := hxy
    exact h.cross_own d hd hSat hy
  · exact h.cross x hx hxv y hy hxy

/-- An entity that leads to one below it on the stack stays there. -/
theorem Scanning.visited_of_low_ne (hne : low ≠ w0.counter) : Visited p w0 w v s low := by
  obtain ⟨y, hy, hyl, hReach⟩ := h.low_mem
  have hyBelow : y ∈ w0.stack := by
    rcases mem_cons.mp hy with rfl | hyBelow
    · exact absurd (hyl.symm.trans h.idx_own) hne
    · exact hyBelow
  exact
    { sound := h.sound
      kept := h.kept
      mark := ⟨_, h.own, rfl⟩
      stack_eq := h.stack_eq
      linked := fun x hx => ⟨(h.linked x hx).1, y, hyBelow, (h.linked x hx).2.trans hReach⟩
      cross := fun x hx z hz => h.low_le_of_waits hx hz
      low_mem := fun _ => ⟨y, hyBelow, (h.idx_before hyBelow).symm.trans hyl, hReach⟩
      low_closed := fun hnil => absurd h.own_mem (hnil ▸ not_mem_nil)
      reached := h.reached
      spread := fun i hi hs j => h.met_of_waits hi hs }

end

/-- What closing a component does to the walk: its members `ms` leave the stack and meet their fate. -/
structure Closes (p : Pool ν) (w0 w w' : Walk ν) (ms : List Nat) : Prop where
  mark_eq : ∀ j, w'.mark? j = (w.mark? j).map fun m => if j ∈ ms then { m with component := some w.components } else m
  marks_size : w'.marks.size = w.marks.size
  stack_eq : w'.stack = w0.stack
  counter_eq : w'.counter = w.counter
  components_eq : w'.components = w.components + 1
  pool_size : w'.pool.size = w.pool.size
  books : w'.pool.books = w.pool.books
  rest : ∀ j, j ∉ ms → w'.pool.entity j = w.pool.entity j
  same : ∀ j, (w'.pool.entity j).node = (w.pool.entity j).node ∧ (w'.pool.entity j).phase = (w.pool.entity j).phase ∧
    (w'.pool.entity j).deps = (w.pool.entity j).deps
  err : ∀ j ∈ ms, (w'.pool.entity j).err = p.fate j
  count : w'.pool.failedCount + w.failed = w.pool.failedCount + w'.failed

/-- The walk once the members are off the stack, before anything has failed. -/
def drop (w : Walk ν) (ms : List Nat) : Walk ν :=
  { w.number ms with
    stack := (w.number ms).stack.drop ms.length
    components := (w.number ms).components + 1 }

/-- Some of the members fail, and the others are able to go on. -/
theorem closes_of_fail {kind : ErrorKind} (hKind : kind ≠ .ok) (cause : Failure) {ms : List Nat} (fs : List Nat)
    (hNodup : fs.Nodup)
    (hStack : w.stack.drop ms.length = w0.stack) (hLive : ∀ x ∈ fs, x < w.pool.size ∧ (w.pool.entity x).failed = false)
    (hFails : ∀ x ∈ fs, x ∈ ms ∧ p.fate x = kind) (hRest : ∀ x ∈ ms, x ∉ fs → (w.pool.entity x).err = p.fate x) :
    Closes p w0 w (fs.foldl (fun w x => w.fail x kind cause) (w.drop ms)) ms := by
  obtain ⟨marks, hNumber, hSize, hMark⟩ := number_spec w ms
  have hDrop : w.drop ms = { w with marks, stack := w0.stack, components := w.components + 1 } := by
    rw [Walk.drop, hNumber, ← hStack]
  obtain ⟨pool, hRun, hEnt, hCount, hPool, hFree⟩ := fail_all_spec (w := w.drop ms) hKind cause hNodup (by rwa [hDrop])
  rw [hDrop] at hRun hEnt hCount hPool hFree ⊢
  rw [hRun]
  refine
    { mark_eq := hMark
      marks_size := hSize
      stack_eq := rfl
      counter_eq := rfl
      components_eq := rfl
      pool_size := hPool
      books := hFree
      rest := fun j hj => by rw [hEnt, if_neg fun hIn => hj (hFails j hIn).1]
      same := fun j => ?_
      err := fun j hj => ?_
      count := by dsimp only at hCount ⊢; omega }
  · rw [hEnt]
    split <;> exact ⟨rfl, rfl, rfl⟩
  · rw [hEnt]
    split
    · next hIn => exact (hFails j hIn).2.symm
    · next hNot => exact hRest j hj hNot

section

variable (h : Scanning p w0 w v (p.entity v).deps seen s w0.counter) (hLive : (p.entity v).failed = false)

include h

/-- Nothing leads out of a component that is closed but to complete ones. -/
theorem Scanning.mem_or_closed {y : Nat} (hx : x ∈ s) (hxy : p.Waits x y) : y ∈ s ∨ w.Closed y := by
  have hMet := ((h.sound.stack_iff x).mp (h.mem_stack_iff.mpr (.inl hx))).1
  refine (h.sound.stack_or_closed (h.met_of_waits (h.not_met hx) hMet hxy)).imp_left fun hStack => ?_
  refine (h.mem_stack_iff.mp hStack).resolve_right fun hBelow => ?_
  -- nothing leads below `v`, or its `low` would tell
  have := h.low_le_of_waits hx hBelow hxy
  have := h.origin.idx_lt y (h.met_before hBelow)
  omega

include hLive

/-- The members of a component of several, or of one that waits for itself, lie on a cycle. -/
theorem Scanning.fate_cycle (hCyc : s.length > 1 ∨ seen.self = true) (hx : x ∈ s) : p.fate x = .cycle := by
  apply fate_of_onCycle
  rcases hCyc with hLen | hSelf
  · obtain ⟨y, hy, hne⟩ : ∃ y ∈ s, y ≠ x := by
      have hNodup := h.sound.nodup
      rw [h.stack_eq] at hNodup
      refine (((Nodup.of_append_left hNodup).ne_singleton_iff x).mp ?_).resolve_left (ne_nil_of_mem hx)
      rintro rfl
      exact absurd hLen (Nat.lt_irrefl 1)
    exact onCycle_of_mutual hne.symm ((h.linked x hx).2.trans (h.linked y hy).1)
      ((h.linked y hy).2.trans (h.linked x hx).1)
  · obtain ⟨d, hd, hSat, hdv⟩ := h.self_iff.mp hSelf
    have hLoop : p.Waits v v := ⟨hLive, hLive, d, hd, hdv, hSat⟩
    exact TransGen.trans_right (h.linked x hx).2 (TransGen.head' hLoop (h.linked x hx).1)

/-- An entity alone in its component does not lie on a cycle, and is doomed by its edges. -/
theorem Scanning.fate_single (hs : s = [v]) (hSelf : seen.self = false) :
    p.fate v = if seen.taint = true then .cycleDependent else .ok := by
  -- an edge of `v` leads to `v` itself or to a complete component, and there is no edge to itself
  have hClosed : ∀ y, p.Waits v y → w.Closed y := by
    intro y hvy
    refine (h.mem_or_closed h.own_mem hvy).resolve_left fun hOwn => ?_
    obtain ⟨-, -, d, hd, hdy, hSat⟩ := hvy
    rw [hs, mem_singleton] at hOwn
    exact absurd (h.self_iff.mpr ⟨d, hd, hSat, hdy.trans hOwn⟩) (by simp [hSelf])
  have hNoCycle : ¬ p.OnCycle v := by
    intro hCyc
    obtain ⟨y, hvy, hyv⟩ := TransGen.head'_iff.mp hCyc
    have hOpen := ((h.sound.stack_iff v).mp (h.mem_stack_iff.mpr (.inl h.own_mem))).2
    exact hOpen (h.sound.closed_of_reaches (hClosed y hvy) hyv)
  have hDoomed : p.Doomed v ↔ seen.taint = true := by
    rw [doomed_iff_of_not_onCycle hNoCycle, h.taint_iff]
    simp only [h.sound.isCyclic_iff]
    constructor
    · rintro (⟨d, hd, hSat, hCyc⟩ | ⟨t, hvt, hDoom⟩)
      · exact ⟨d, hd, hSat, Or.inl hCyc⟩
      · have hc := hClosed t hvt
        obtain ⟨-, -, d, hd, rfl, hSat⟩ := hvt
        exact ⟨d, hd, hSat, Or.inr ⟨hc, hDoom⟩⟩
    · rintro ⟨d, hd, hSat, hCyc | ⟨hc, hDoom⟩⟩
      · exact Or.inl ⟨d, hd, hSat, hCyc⟩
      · exact Or.inr ⟨d.target, ⟨hLive, h.sound.live _ hc.met, d, hd, rfl, hSat⟩, hDoom⟩
  split
  · next hTaint => exact fate_of_doomed hNoCycle (hDoomed.mpr hTaint)
  · next hTaint => exact fate_of_not_doomed (mt hDoomed.mp hTaint)

theorem Scanning.closes : Closes p w0 w (w.close v seen) s := by
  have hNodup := h.sound.nodup
  rw [h.stack_eq] at hNodup
  -- the component is what lies on the stack down to `v`
  have hMembers : members v w.stack = s := by
    obtain ⟨above, rfl⟩ := h.bottom
    rw [h.stack_eq, append_assoc]
    exact members_append fun hv => disjoint_of_nodup_append (Nodup.of_append_left hNodup) hv (mem_singleton_self v)
  have hDrop : w.stack.drop s.length = w0.stack := by
    rw [h.stack_eq]
    exact drop_left
  have hOpen : ∀ x ∈ s, x < w.pool.size ∧ (w.pool.entity x).failed = false := by
    intro x hx
    obtain ⟨hMet, hOpen⟩ := (h.sound.stack_iff x).mp (h.mem_stack_iff.mpr (.inl hx))
    rw [h.sound.open_eq x hOpen, h.sound.pool_size, ← h.sound.marks_size]
    exact ⟨hMet.lt_size, h.sound.live x hMet⟩
  have hClose : w.close v seen =
      if s.length > 1 || seen.self then
        s.foldl (fun w x => w.fail x .cycle
          (.within ("entities [" ++ " ".intercalate (s.map toString) ++ "]") (.known .cycle))) (w.drop s)
      else if seen.taint then
        (w.drop s).fail v .cycleDependent (.within s!"entity {v} waits on a cycle" (.known .cycle))
      else w.drop s := by
    unfold close
    rw [hMembers]
    rfl
  rw [hClose]
  -- several entities or one that needs itself are a cycle; a single one may still wait on a cycle
  by_cases hMany : s.length > 1 ∨ seen.self = true
  · rw [if_pos (by simpa using hMany)]
    exact closes_of_fail (by decide) _ s (Nodup.of_append_left hNodup) hDrop hOpen
      (fun x hx => ⟨hx, h.fate_cycle hLive hMany hx⟩) fun x hx hNot => absurd hx hNot
  · rw [if_neg (by simpa using hMany)]
    rw [not_or, Nat.not_lt, Bool.not_eq_true] at hMany
    obtain rfl : s = [v] := by
      obtain ⟨above, rfl⟩ := h.bottom
      have hNil : above = [] := by simpa using hMany.1
      rw [hNil, nil_append]
    have hFate := h.fate_single hLive rfl hMany.2
    by_cases hTaint : seen.taint = true
    · rw [if_pos hTaint] at hFate ⊢
      exact closes_of_fail (by decide) _ [v] (nodup_singleton v) hDrop hOpen
        (fun x hx => ⟨hx, mem_singleton.mp hx ▸ hFate⟩) fun x hx hNot => absurd hx hNot
    · rw [if_neg hTaint] at hFate ⊢
      refine closes_of_fail (show ErrorKind.cycle ≠ .ok by decide)
        (.known .cycle) [] .nil hDrop nofun nofun fun x hx _ => ?_
      rw [mem_singleton.mp hx, hFate]
      exact Entity.not_failed_iff.mp (hOpen v mem_cons_self).2

omit hLive

theorem Scanning.sound_of_closes {w' : Walk ν} (hc : Closes p w0 w w' s) : Sound p w' := by
  have hStack : ∀ x ∈ s, w.Met x ∧ ¬ w.Closed x := fun x hx => (h.sound.stack_iff x).mp (h.mem_stack_iff.mpr (.inl hx))
  have hMet : w'.Met = w.Met := funext fun j => propext (met_of_map (hc.mark_eq j))
  have hIdx : w'.idx = w.idx := funext fun j => idx_of_map (hc.mark_eq j) fun m => by split <;> rfl
  have hIn : ∀ j ∈ s, w'.component? j = some w.components := by
    intro j hj
    obtain ⟨m, hm⟩ := Option.isSome_iff_exists.mp (hStack j hj).1
    exact component?_of_mark (by rw [hc.mark_eq, hm, Option.map_some, if_pos hj])
  have hNotIn : ∀ j, j ∉ s → w'.component? j = w.component? j := by
    intro j hj
    rw [component?, component?, hc.mark_eq]
    simp [hj]
  have hClosed : ∀ j, w'.Closed j ↔ j ∈ s ∨ w.Closed j := by
    intro j
    by_cases hj : j ∈ s
    · exact iff_of_true (by rw [Closed, hIn j hj]; rfl) (Or.inl hj)
    · rw [Closed, hNotIn j hj, or_iff_right hj, Closed]
  -- a new component has a number of its own, and reaches only what was complete before it
  have hApart : ∀ i j, i ∈ s → j ∉ s → w'.Closed j → w'.component? i ≠ w'.component? j ∧ ¬ p.Reaches j i := by
    intro i j hi hj hjClosed
    have hjOld := ((hClosed j).mp hjClosed).resolve_left hj
    refine ⟨fun heq => ?_, fun hReach => (hStack i hi).2 (h.sound.closed_of_reaches hjOld hReach)⟩
    rw [hIn i hi, hNotIn j hj] at heq
    exact absurd (h.sound.comp_lt j _ heq.symm) (Nat.lt_irrefl _)
  refine
    { marks_size := hc.marks_size.trans h.sound.marks_size
      pool_size := hc.pool_size.trans h.sound.pool_size
      books := hc.books.trans h.sound.books
      same := fun i => ?_
      open_eq := fun i hi => ?_
      err_closed := fun i hi => ?_
      stack_iff := fun i => ?_
      sorted := ?_
      idx_lt := by rw [hMet, hIdx, hc.counter_eq]; exact h.sound.idx_lt
      live := hMet ▸ h.sound.live
      closed_succ := fun i j hi hij => ?_
      comp_lt := fun i c hi => ?_
      comp_iff := fun i j hi hj => ?_
      count := ?_ }
  · obtain ⟨hNode, hPhase, hDeps⟩ := h.sound.same i
    exact ⟨(hc.same i).1.trans hNode, (hc.same i).2.1.trans hPhase, (hc.same i).2.2.trans hDeps⟩
  · rw [hClosed, not_or] at hi
    rw [hc.rest i hi.1]
    exact h.sound.open_eq i hi.2
  · by_cases hMem : i ∈ s
    · exact hc.err i hMem
    · rw [hc.rest i hMem]
      exact h.sound.err_closed i (((hClosed i).mp hi).resolve_left hMem)
  · rw [hc.stack_eq, hMet, hClosed, not_or, and_left_comm, ← h.sound.stack_iff, h.mem_stack_iff]
    exact ⟨fun hi => ⟨fun hMem => h.not_met hMem (h.met_before hi), Or.inr hi⟩, fun hi => hi.2.resolve_left hi.1⟩
  · have hSorted := h.sound.sorted
    rw [h.stack_eq, pairwise_append] at hSorted
    rw [hc.stack_eq, hIdx]
    exact hSorted.2.1
  · rw [hClosed] at hi ⊢
    rcases hi with hMem | hi
    · exact h.mem_or_closed hMem hij
    · exact Or.inr (h.sound.closed_succ i j hi hij)
  · rw [hc.components_eq]
    by_cases hMem : i ∈ s
    · rw [hIn i hMem] at hi
      cases hi
      exact Nat.lt_succ_self _
    · rw [hNotIn i hMem] at hi
      exact (h.sound.comp_lt i c hi).trans (Nat.lt_succ_self _)
  · by_cases hiMem : i ∈ s <;> by_cases hjMem : j ∈ s
    · rw [hIn i hiMem, hIn j hjMem]
      exact iff_of_true rfl ⟨(h.linked i hiMem).2.trans (h.linked j hjMem).1, (h.linked j hjMem).2.trans (h.linked i hiMem).1⟩
    · obtain ⟨hne, hNot⟩ := hApart i j hiMem hjMem hj
      exact iff_of_false hne fun hMut => hNot hMut.2
    · obtain ⟨hne, hNot⟩ := hApart j i hjMem hiMem hi
      exact iff_of_false hne.symm fun hMut => hNot hMut.1
    · rw [hNotIn i hiMem, hNotIn j hjMem]
      exact h.sound.comp_iff i j (((hClosed i).mp hi).resolve_left hiMem) (((hClosed j).mp hj).resolve_left hjMem)
  · have hOld := h.sound.count
    have hNew := hc.count
    omega

theorem Scanning.visited_of_closes {w' : Walk ν} (hc : Closes p w0 w w' s) : Visited p w0 w' v [] w0.counter := by
  have hMet : w'.Met = w.Met := funext fun j => propext (met_of_map (hc.mark_eq j))
  exact
    { sound := h.sound_of_closes hc
      kept := fun i hi => by rw [hc.mark_eq, ← h.kept i hi]; simp [mt h.not_met (not_not_intro hi)]
      mark := ⟨_, by rw [hc.mark_eq, h.own, Option.map_some, if_pos h.own_mem], rfl⟩
      stack_eq := hc.stack_eq
      linked := by simp
      cross := by simp
      low_mem := fun hne => absurd rfl hne
      low_closed := fun _ => Nat.le_refl _
      reached := hMet ▸ h.reached
      spread := hMet ▸ fun i hi hs j => h.met_of_waits hi hs }

end

/-! ## Visiting -/

theorem unseen_enter_lt (hSound : Sound p w0) (hv : v < p.size) (hFresh : ¬ w0.Met v) :
    unseen p (w0.enter v) < unseen p w0 := by
  apply Finset.card_lt_card
  rw [Finset.ssubset_iff_of_subset]
  · exact ⟨v, mem_unseen.mpr ⟨hv, hFresh⟩, fun hIn => (mem_unseen.mp hIn).2 ((met_enter hSound hv).mpr (.inl rfl))⟩
  · intro i hi
    rw [mem_unseen] at hi ⊢
    exact ⟨hi.1, fun hMet => hi.2 ((met_enter hSound hv).mpr (.inr hMet))⟩

/-- The walk from an entity leaves it having done what is asked, if there is fuel for all that is unseen. -/
theorem visits_visit (hRange : ∀ i, ∀ d ∈ (p.entity i).deps, d.target < p.size) :
    ∀ fuel, VisitsUpTo p (visit fuel) fuel := by
  intro fuel
  induction fuel with
  | zero =>
    intro v w _ hv hFresh _ _ hFuel
    have hEmpty := Finset.card_eq_zero.mp (Nat.le_zero.mp hFuel)
    exact absurd (mem_unseen.mpr ⟨hv, hFresh⟩) (hEmpty ▸ Finset.notMem_empty v)
  | succ fuel ih =>
    intro v w hSound hv hFresh hLive hReach hFuel
    have hStart := scanning_enter hSound hv hFresh hLive hReach
    have hFuel' : unseen p (w.enter v) ≤ fuel := by
      have := unseen_enter_lt hSound hv hFresh
      omega
    obtain ⟨s, low, hEnd⟩ := hStart.follow_all ih hLive (p.entity v).deps [] _ _ _ _ hFuel'
      fun d hd => ⟨hd, hRange v d hd⟩
    rw [nil_append] at hEnd
    unfold visit
    rw [(hSound.same v).2.2]
    simp only [hEnd.own]
    by_cases hLow : low = w.counter
    · subst hLow
      rw [if_pos rfl]
      exact ⟨[], _, hEnd.visited_of_closes (hEnd.closes hLive)⟩
    · rw [if_neg hLow]
      exact ⟨_, _, hEnd.visited_of_low_ne hLow⟩

end Walk

/-! ## Detection -/

variable {ν : Type} {p : Pool ν}

/-- The search from a queue comes to the entity: it can be reached from a member that has not failed and has edges. -/
def Sought (p : Pool ν) (queue : List Nat) (i : Nat) : Prop :=
  ∃ v ∈ queue, (p.entity v).failed = false ∧ (p.entity v).deps ≠ [] ∧ p.Reaches v i

/-- What waits has not failed. -/
theorem not_failed_of_reaches {i : Nat} (hv : (p.entity v).failed = false) (h : p.Reaches v i) :
    (p.entity i).failed = false := by
  induction h with
  | refl => exact hv
  | tail _ hedge _ => exact hedge.2.1

theorem Walk.mark?_start (p : Pool ν) (i : Nat) : (start p).mark? i = none := by
  unfold start mark?
  simp only [Array.getD_eq_getD_getElem?, Array.getElem?_replicate]
  split <;> rfl

theorem Walk.sound_start (p : Pool ν) : Sound p (start p) := by
  have hNew : ∀ i, ¬ (start p).Met i := fun i => not_met_iff.mpr (mark?_start p i)
  have hOpen : ∀ i, ¬ (start p).Closed i := fun i => mt Closed.met (hNew i)
  exact
    { marks_size := by simp [start]
      pool_size := rfl
      books := rfl
      same := fun _ => ⟨rfl, rfl, rfl⟩
      open_eq := fun _ _ => rfl
      err_closed := fun i hi => absurd hi (hOpen i)
      stack_iff := fun i => iff_of_false not_mem_nil fun hi => hNew i hi.1
      sorted := Pairwise.nil
      idx_lt := fun i hi => absurd hi (hNew i)
      live := fun i hi => absurd hi (hNew i)
      closed_succ := fun i j hi => absurd hi (hOpen i)
      comp_lt := fun i c hi => absurd (by rw [Closed, hi]; rfl) (hOpen i)
      comp_iff := fun i j hi => absurd hi (hOpen i)
      count := rfl }

/-- Between two entities of the queue nothing is left on the stack, and what can be reached so far is closed. -/
theorem Walk.setOut_spec (hRange : ∀ i, ∀ d ∈ (p.entity i).deps, d.target < p.size) {w : Walk ν} {done : List Nat}
    (hSound : Walk.Sound p w) (hStack : w.stack = []) (hClosed : ∀ i, w.Closed i ↔ p.Sought done i) (v : Nat) :
    Walk.Sound p (w.setOut v) ∧ (w.setOut v).stack = [] ∧
      ∀ i, (w.setOut v).Closed i ↔ p.Sought (done ++ [v]) i := by
  have hSought : ∀ i, p.Sought (done ++ [v]) i ↔
      p.Sought done i ∨ (p.entity v).failed = false ∧ (p.entity v).deps ≠ [] ∧ p.Reaches v i := by
    intro i
    unfold Sought
    simp only [mem_append, mem_singleton, or_and_right, exists_or, exists_eq_left]
  unfold Walk.setOut
  simp only
  split
  · rename_i hSkip
    refine ⟨hSound, hStack, fun i => ?_⟩
    rw [hSought, hClosed]
    refine ⟨Or.inl, ?_⟩
    rintro (hDone | ⟨hLive, hDeps, hReach⟩)
    · exact hDone
    · -- the walk was at `v` already: otherwise there is nothing to skip it for
      have hMarked : w.Closed v := by
        by_contra hOpen
        rw [hSound.open_eq v hOpen, hLive] at hSkip
        simp only [Bool.false_or, Bool.or_eq_true, List.isEmpty_iff] at hSkip
        exact hSkip.elim (fun hMet => hOpen (hSound.closed_of_met hStack hMet)) hDeps
      exact (hClosed i).mp (hSound.closed_of_reaches hMarked hReach)
  · rename_i hGo
    simp only [Bool.or_eq_true, List.isEmpty_iff, not_or, Bool.not_eq_true] at hGo
    obtain ⟨⟨hLiveW, hNew⟩, hDepsW⟩ := hGo
    have hFresh : ¬ w.Met v := by simpa [Met] using hNew
    rw [hSound.open_eq v (mt Closed.met hFresh)] at hLiveW hDepsW
    have hv : v < p.size := by
      by_contra hge
      rw [entity_of_size_le (Nat.le_of_not_lt hge)] at hDepsW
      exact hDepsW rfl
    have hFuel : Walk.unseen p w ≤ w.pool.size := by
      rw [hSound.pool_size]
      exact (Finset.card_filter_le _ _).trans (Finset.card_range _).le
    obtain ⟨s, low, hVisit⟩ := Walk.visits_visit hRange w.pool.size v w hSound hv hFresh hLiveW
      (by simp [hStack]) hFuel
    -- there was nothing on the stack that `v` could stay for
    have hs : s = [] := by
      by_contra hne
      obtain ⟨y, hy, -⟩ := hVisit.low_mem hne
      rw [hStack] at hy
      cases hy
    have hStack' : (Walk.visit w.pool.size v w).stack = [] := by rw [hVisit.stack_eq, hs, hStack]; rfl
    refine ⟨hVisit.sound, hStack', fun i => ?_⟩
    rw [hSought, ← hClosed]
    constructor
    · intro hc
      by_cases hOld : w.Met i
      · exact Or.inl ((hVisit.kept.closed_iff hOld).mp hc)
      · exact Or.inr ⟨hLiveW, hDepsW, hVisit.reached i hOld hc.met⟩
    · rintro (hc | ⟨-, -, hReach⟩)
      · exact (hVisit.kept.closed_iff hc.met).mpr hc
      · obtain ⟨m, hm, -⟩ := hVisit.mark
        exact hVisit.sound.closed_of_reaches (hVisit.sound.closed_of_met hStack' (met_of_mark hm)) hReach

/-- The search ends with nothing open, and has closed exactly what it was to come to. -/
theorem detectCycles_sound (hRange : ∀ i, ∀ d ∈ (p.entity i).deps, d.target < p.size) (queue : List Nat) :
    Sound p (p.detectCycles queue) ∧ ∀ i, (p.detectCycles queue).Closed i ↔ p.Sought queue i := by
  have hRun : ∀ (rest done : List Nat) (w : Walk ν), Sound p w → w.stack = [] →
      (∀ i, w.Closed i ↔ p.Sought done i) →
      Sound p (rest.foldl setOut w) ∧ ∀ i, (rest.foldl setOut w).Closed i ↔ p.Sought (done ++ rest) i := by
    intro rest
    induction rest with
    | nil =>
      intro done w hSound _ hClosed
      rw [append_nil]
      exact ⟨hSound, hClosed⟩
    | cons v rest ih =>
      intro done w hSound hStack hClosed
      obtain ⟨hSound', hStack', hClosed'⟩ := setOut_spec hRange hSound hStack hClosed v
      have := ih (done ++ [v]) _ hSound' hStack' hClosed'
      rwa [append_assoc] at this
  refine hRun queue [] _ (sound_start p) rfl fun i => iff_of_false ?_ ?_
  · exact mt Closed.met (not_met_iff.mpr (mark?_start p i))
  · rintro ⟨v, hv, -⟩
    cases hv

/--
**What the detector does.** Every entity it comes to meets its fate in the wait-for graph; the others, and everything
but the errors, stay as they are; and it has counted the entities that failed.
-/
theorem detectCycles_spec (hRange : ∀ i, ∀ d ∈ (p.entity i).deps, d.target < p.size) (queue : List Nat) :
    (∀ i, p.Sought queue i → ((p.detectCycles queue).pool.entity i).err = p.fate i) ∧
    (∀ i, ¬ p.Sought queue i → (p.detectCycles queue).pool.entity i = p.entity i) ∧
    (∀ i, ((p.detectCycles queue).pool.entity i).node = (p.entity i).node ∧
      ((p.detectCycles queue).pool.entity i).phase = (p.entity i).phase ∧
      ((p.detectCycles queue).pool.entity i).deps = (p.entity i).deps) ∧
    (p.detectCycles queue).pool.size = p.size ∧
    (p.detectCycles queue).pool.failedCount = p.failedCount + (p.detectCycles queue).failed := by
  obtain ⟨hSound, hClosed⟩ := detectCycles_sound hRange queue
  refine ⟨fun i hi => hSound.err_closed i ((hClosed i).mpr hi), fun i hi => hSound.open_eq i fun hc => ?_,
    hSound.same, hSound.pool_size, hSound.count⟩
  exact hi ((hClosed i).mp hc)

end Comptime.Pool
