import Comptime.Proofs.Schedule.Walk

/-!
# Following the edges of one entity

The walk enters an entity, follows its edges one after the other, and leaves it. While that goes on, the entities above
it on the stack reach it and are reached from it, and its `low` is the least index that any of them leads to.
-/

namespace Comptime.Pool.Walk

open Relation List Option

variable {ν : Type} {p : Pool ν} {w0 w w' : Walk ν} {v x y : Nat}

/-- The entities the walk has not come to. -/
def unseen (p : Pool ν) (w : Walk ν) : Nat := ((Finset.range p.size).filter fun i => (w.mark? i).isNone).card

theorem mem_unseen {i : Nat} : i ∈ (Finset.range p.size).filter (fun i => (w.mark? i).isNone) ↔ i < p.size ∧ ¬ w.Met i := by
  rw [Finset.mem_filter, Finset.mem_range, not_met_iff, isNone_iff_eq_none]

theorem unseen_le (h : ∀ i, w.Met i → w'.Met i) : unseen p w' ≤ unseen p w := by
  apply Finset.card_le_card
  intro i hi
  rw [mem_unseen] at hi ⊢
  exact ⟨hi.1, mt (h i) hi.2⟩

/-- The walk has left `v`, having come to it from `w`. What it has put on the stack is `s`, and `low` is what it tells
the entity it came from. -/
structure Visited (p : Pool ν) (w w' : Walk ν) (v : Nat) (s : List Nat) (low : Nat) : Prop where
  sound : Sound p w'
  kept : Extends w w'
  mark : ∃ m, w'.mark? v = some m ∧ m.low = low
  stack_eq : w'.stack = s ++ w.stack
  linked : ∀ x ∈ s, p.Reaches v x ∧ ∃ y ∈ w.stack, p.Reaches x y
  cross : ∀ x ∈ s, ∀ y ∈ w.stack, p.Waits x y → low ≤ w.idx y
  low_mem : s ≠ [] → ∃ y ∈ w.stack, w.idx y = low ∧ p.Reaches v y
  low_closed : s = [] → w.counter ≤ low
  reached : ∀ i, ¬ w.Met i → w'.Met i → p.Reaches v i
  spread : ∀ i, ¬ w.Met i → w'.Met i → ∀ j, p.Waits i j → w'.Met j

/-- The walk has entered `v` from `w0` and followed the edges `done`. What it has put on the stack is `s`, with `v` at the
bottom. -/
structure Scanning (p : Pool ν) (w0 w : Walk ν) (v : Nat) (done : List Dep) (seen : Seen) (s : List Nat)
    (low : Nat) : Prop where
  origin : Sound p w0
  sound : Sound p w
  fresh : ¬ w0.Met v
  kept : Extends w0 w
  own : w.mark? v = some { index := w0.counter, low := low }
  stack_eq : w.stack = s ++ w0.stack
  bottom : ∃ above, s = above ++ [v]
  before : ∀ y ∈ w0.stack, p.Reaches y v
  linked : ∀ x ∈ s, p.Reaches v x ∧ p.Reaches x v
  low_mem : ∃ y ∈ v :: w0.stack, w.idx y = low ∧ p.Reaches v y
  cross : ∀ x ∈ s, x ≠ v → ∀ y ∈ w0.stack, p.Waits x y → low ≤ w0.idx y
  cross_own : ∀ d ∈ done, p.satisfied d = false → d.target ∈ w0.stack → low ≤ w0.idx d.target
  reached : ∀ i, ¬ w0.Met i → w.Met i → p.Reaches v i
  spread : ∀ i, i ≠ v → ¬ w0.Met i → w.Met i → ∀ j, p.Waits i j → w.Met j
  met : ∀ d ∈ done, p.satisfied d = false → (p.entity d.target).failed = false → w.Met d.target
  self_iff : seen.self = true ↔ ∃ d ∈ done, p.satisfied d = false ∧ d.target = v
  taint_iff : seen.taint = true ↔ ∃ d ∈ done, p.satisfied d = false ∧ (w.pool.entity d.target).err.isCyclic = true

namespace Scanning

variable {done : List Dep} {seen : Seen} {s : List Nat} {low : Nat} (h : Scanning p w0 w v done seen s low)

include h

theorem mem_stack_iff : x ∈ w.stack ↔ x ∈ s ∨ x ∈ w0.stack := by rw [h.stack_eq, mem_append]

theorem own_mem : v ∈ s := by
  obtain ⟨above, rfl⟩ := h.bottom
  exact mem_concat_self

theorem idx_own : w.idx v = w0.counter := idx_of_mark h.own

theorem met_before (hy : y ∈ w0.stack) : w0.Met y := ((h.origin.stack_iff y).mp hy).1

theorem idx_before (hy : y ∈ w0.stack) : w.idx y = w0.idx y := h.kept.idx_eq (h.met_before hy)

theorem low_le : low ≤ w0.counter := by
  obtain ⟨y, hy, hIdx, -⟩ := h.low_mem
  rcases mem_cons.mp hy with rfl | hy
  · rw [← hIdx, h.idx_own]
  · have := h.origin.idx_lt y (h.met_before hy)
    rw [h.idx_before hy] at hIdx
    omega

/-- What is on the stack from `v` on did not come before `v`. -/
theorem counter_le (hx : x ∈ s) : w0.counter ≤ w.idx x := by
  have hSorted := h.sound.sorted
  obtain ⟨above, rfl⟩ := h.bottom
  rcases mem_append.mp hx with hAbove | hOwn
  · rw [h.stack_eq, append_assoc, pairwise_append] at hSorted
    have := hSorted.2.2 x hAbove v mem_cons_self
    rw [h.idx_own] at this
    exact this.le
  · rw [mem_singleton.mp hOwn, h.idx_own]

/-- Every entity of the stack reaches `v`. -/
theorem stack_reaches (hx : x ∈ w.stack) : p.Reaches x v :=
  (h.mem_stack_iff.mp hx).elim (fun hx => (h.linked x hx).2) (h.before x)

/-- An entity of the stack that came before the `low` of `v` was there before `v`. -/
theorem mem_before_of_idx_lt (hy : y ∈ w.stack) (hlt : w.idx y < low) : y ∈ w0.stack :=
  (h.mem_stack_iff.mp hy).resolve_left fun hIn => by
    have := h.low_le
    have := h.counter_le hIn
    omega

end Scanning

/-! ## Entering -/

section Entering

variable (hSound : Sound p w0) (hv : v < p.size) (hFresh : ¬ w0.Met v) (hLive : (p.entity v).failed = false)

include hSound hv

theorem Sound.mark?_enter (i : Nat) : (w0.enter v).mark? i =
    if v = i then some { index := w0.counter, low := w0.counter } else w0.mark? i :=
  Walk.mark?_enter (hSound.marks_size ▸ hv) i

theorem mark?_enter_own : (w0.enter v).mark? v = some { index := w0.counter, low := w0.counter } := by
  rw [hSound.mark?_enter hv, if_pos rfl]

theorem met_enter {i : Nat} : (w0.enter v).Met i ↔ i = v ∨ w0.Met i := by
  rw [Met, hSound.mark?_enter hv]
  split
  · next hvi => simp [hvi]
  · next hvi => exact (or_iff_right (Ne.symm hvi)).symm

include hFresh

theorem extends_enter : Extends w0 (w0.enter v) := by
  intro i hi
  rw [hSound.mark?_enter hv, if_neg]
  rintro rfl
  exact hFresh hi

theorem component?_enter : (w0.enter v).component? = w0.component? := by
  funext i
  rw [component?, component?, hSound.mark?_enter hv]
  split
  · next hvi => rw [← hvi, not_met_iff.mp hFresh]; rfl
  · rfl

include hLive

theorem sound_enter : Sound p (w0.enter v) := by
  have hOwn := idx_of_mark (mark?_enter_own hSound hv)
  have hIdx : ∀ i, w0.Met i → (w0.enter v).idx i = w0.idx i := fun i => (extends_enter hSound hv hFresh).idx_eq
  have hMet : ∀ y ∈ w0.stack, w0.Met y := fun y hy => ((hSound.stack_iff y).mp hy).1
  have hComp := component?_enter hSound hv hFresh
  -- nothing is closed by entering, so that only stack, indexes and counter are to be looked at
  have hClosed : (w0.enter v).Closed = w0.Closed := by unfold Closed; rw [hComp]
  refine
    { hSound with
      marks_size := by simpa [enter, setMark] using hSound.marks_size
      open_eq := hClosed ▸ hSound.open_eq
      err_closed := hClosed ▸ hSound.err_closed
      stack_iff := fun i => ?_
      sorted := ?_
      idx_lt := fun i hi => ?_
      live := fun i hi => ?_
      closed_succ := hClosed ▸ hSound.closed_succ
      comp_lt := hComp ▸ hSound.comp_lt
      comp_iff := hClosed ▸ hComp ▸ hSound.comp_iff }
  · rw [hClosed, met_enter hSound hv, or_and_right, ← hSound.stack_iff]
    show i ∈ v :: w0.stack ↔ _
    rw [mem_cons]
    refine or_congr_left ⟨fun hi => ⟨hi, ?_⟩, And.left⟩
    rintro hc
    exact hFresh (hi ▸ hc.met)
  · show (v :: w0.stack).Pairwise _
    refine pairwise_cons.mpr ⟨fun y hy => ?_, hSound.sorted.imp_of_mem fun {a b} ha hb hab => ?_⟩
    · rw [hOwn, hIdx y (hMet y hy)]
      exact hSound.idx_lt y (hMet y hy)
    · rwa [hIdx a (hMet a ha), hIdx b (hMet b hb)]
  · show _ < w0.counter + 1
    rcases (met_enter hSound hv).mp hi with rfl | hi
    · rw [hOwn]
      exact Nat.lt_succ_self _
    · rw [hIdx i hi]
      exact (hSound.idx_lt i hi).trans (Nat.lt_succ_self _)
  · rcases (met_enter hSound hv).mp hi with rfl | hi
    · exact hLive
    · exact hSound.live i hi

theorem scanning_enter (hReach : ∀ y ∈ w0.stack, p.Reaches y v) : Scanning p w0 (w0.enter v) v [] {} [v] w0.counter := by
  have hOwn := mark?_enter_own hSound hv
  have hNew : ∀ i, ¬ w0.Met i → (w0.enter v).Met i → i = v := fun i hi hs => ((met_enter hSound hv).mp hs).resolve_right hi
  exact
    { origin := hSound
      sound := sound_enter hSound hv hFresh hLive
      fresh := hFresh
      kept := extends_enter hSound hv hFresh
      own := hOwn
      stack_eq := rfl
      bottom := ⟨[], rfl⟩
      before := hReach
      linked := fun x hx => by rw [mem_singleton.mp hx]; exact ⟨.refl, .refl⟩
      low_mem := ⟨v, mem_cons_self, idx_of_mark hOwn, .refl⟩
      cross := fun x hx hne => absurd (mem_singleton.mp hx) hne
      cross_own := by simp
      reached := fun i hi hs => by rw [hNew i hi hs]
      spread := fun i hne hi hs => absurd (hNew i hi hs) hne
      met := by simp
      self_iff := by simp
      taint_iff := by simp }

end Entering

/-! ## Following an edge -/

namespace Scanning

variable {done : List Dep} {seen : Seen} {s : List Nat} {low : Nat} (h : Scanning p w0 w v done seen s low)

include h

/-- One more edge has been followed, and the walk has not moved for it. -/
theorem snoc (d : Dep) (seen' : Seen)
    (hCross : p.satisfied d = false → d.target ∈ w0.stack → low ≤ w0.idx d.target)
    (hMet : p.satisfied d = false → (p.entity d.target).failed = false → w.Met d.target)
    (hSelf : seen'.self = true ↔ seen.self = true ∨ p.satisfied d = false ∧ d.target = v)
    (hTaint : seen'.taint = true ↔ seen.taint = true ∨ p.satisfied d = false ∧
      (w.pool.entity d.target).err.isCyclic = true) :
    Scanning p w0 w v (done ++ [d]) seen' s low := by
  refine
    { h with
      cross_own := forall_mem_append.mpr ⟨h.cross_own, fun x hx => ?_⟩
      met := forall_mem_append.mpr ⟨h.met, fun x hx => ?_⟩
      self_iff := ?_
      taint_iff := ?_ }
  · rw [mem_singleton.mp hx]
    exact hCross
  · rw [mem_singleton.mp hx]
    exact hMet
  · rw [hSelf, h.self_iff]
    simp only [mem_append, mem_singleton, or_and_right, exists_or, exists_eq_left]
  · rw [hTaint, h.taint_iff]
    simp only [mem_append, mem_singleton, or_and_right, exists_or, exists_eq_left]

theorem ne_own {i : Nat} (hi : w0.Met i) : i ≠ v := by
  rintro rfl
  exact h.fresh hi

theorem low_mem_min {l : Nat} (hl : l < low → ∃ y ∈ w0.stack, w0.idx y = l ∧ p.Reaches v y) :
    ∃ y ∈ v :: w0.stack, w.idx y = min low l ∧ p.Reaches v y := by
  by_cases hlt : l < low
  · obtain ⟨y, hy, hyl, hReach⟩ := hl hlt
    refine ⟨y, mem_cons_of_mem _ hy, ?_, hReach⟩
    rw [h.idx_before hy, hyl, Nat.min_eq_right hlt.le]
  · rw [Nat.min_eq_left (Nat.le_of_not_lt hlt)]
    exact h.low_mem

/-- `v` has been found to lead to an entity that was on the stack before it. -/
theorem lower {l : Nat}
    (hl : l < low → ∃ y ∈ w0.stack, w0.idx y = l ∧ p.Reaches v y) :
    Scanning p w0 (w.lower v l) v done seen s (min low l) := by
  refine
    { h with
      sound := h.sound.lower v l
      kept := fun i hi => ?_
      own := by rw [mark?_lower, h.own]; simp
      stack_eq := by rw [lower_stack, h.stack_eq]
      low_mem := ?_
      cross := fun x hx hne y hy hxy => (Nat.min_le_left ..).trans (h.cross x hx hne y hy hxy)
      cross_own := fun d hd hs ht => (Nat.min_le_left ..).trans (h.cross_own d hd hs ht)
      reached := by simpa only [met_lower] using h.reached
      spread := by simpa only [met_lower] using h.spread
      met := by simpa only [met_lower] using h.met
      taint_iff := by rw [lower_pool]; exact h.taint_iff }
  · rw [mark?_lower_of_ne w (h.ne_own hi)]
    exact h.kept i hi
  · simpa only [idx_lower] using h.low_mem_min hl

/-- The walk has come to `t` over an edge of `v`, and back. -/
theorem merge {t : Nat} (hEdge : p.Waits v t) {s' : List Nat} {low' : Nat} (hVisit : Visited p w w' t s' low') :
    Scanning p w0 (w'.lower v low') v done seen (s' ++ s) (min low low') := by
  have hKept := hVisit.kept
  have hOwn := met_of_mark h.own
  have hCounter := h.sound.idx_lt v hOwn
  rw [h.idx_own] at hCounter
  -- only an entity that stays on the stack can lower `v`
  have hLow : low' < low → ∃ y ∈ w0.stack, w0.idx y = low' ∧ p.Reaches v y := by
    intro hlt
    have hle := h.low_le
    have hne : s' ≠ [] := by
      intro hnil
      have := hVisit.low_closed hnil
      omega
    obtain ⟨y, hy, hyl, hReach⟩ := hVisit.low_mem hne
    have hyOld := h.mem_before_of_idx_lt hy (by omega)
    exact ⟨y, hyOld, (h.idx_before hyOld).symm.trans hyl, .head hEdge hReach⟩
  refine
    { h with
      sound := hVisit.sound.lower v low'
      kept := fun i hi => ?_
      own := by rw [mark?_lower, hKept v hOwn, h.own]; simp
      stack_eq := by rw [lower_stack, hVisit.stack_eq, h.stack_eq, append_assoc]
      bottom := ?_
      linked := forall_mem_append.mpr ⟨fun x hx => ?_, h.linked⟩
      low_mem := ?_
      cross := forall_mem_append.mpr ⟨fun x hx _ y hy hxy => ?_, fun x hx hne y hy hxy => ?_⟩
      cross_own := fun d hd hs ht => (Nat.min_le_left ..).trans (h.cross_own d hd hs ht)
      reached := fun i hi hs => ?_
      spread := fun i hne hi hs j hij => ?_
      met := fun d hd hs hf => (met_lower ..).mpr (hKept.met (h.met d hd hs hf))
      taint_iff := ?_ }
  · rw [mark?_lower_of_ne w' (h.ne_own hi), hKept i (h.kept.met hi)]
    exact h.kept i hi
  · obtain ⟨above, rfl⟩ := h.bottom
    exact ⟨s' ++ above, (append_assoc ..).symm⟩
  · obtain ⟨hTo, y, hy, hFrom⟩ := hVisit.linked x hx
    exact ⟨.head hEdge hTo, hFrom.trans (h.stack_reaches hy)⟩
  · obtain ⟨y, hy, hyl, hReach⟩ := h.low_mem_min hLow
    have hMet : w.Met y := (mem_cons.mp hy).elim (fun heq => heq ▸ hOwn) fun hy => h.kept.met (h.met_before hy)
    exact ⟨y, hy, by rw [idx_lower, hKept.idx_eq hMet, hyl], hReach⟩
  · have := hVisit.cross x hx y (h.mem_stack_iff.mpr (.inr hy)) hxy
    rw [h.idx_before hy] at this
    exact (Nat.min_le_right ..).trans this
  · exact (Nat.min_le_left ..).trans (h.cross x hx hne y hy hxy)
  · rw [met_lower] at hs
    by_cases hOld : w.Met i
    · exact h.reached i hi hOld
    · exact .head hEdge (hVisit.reached i hOld hs)
  · rw [met_lower] at hs ⊢
    by_cases hOld : w.Met i
    · exact hKept.met (h.spread i hne hi hOld j hij)
    · exact hVisit.spread i hOld hs j hij
  · rw [h.taint_iff, lower_pool]
    refine exists_congr fun d => and_congr_right fun hd => and_congr_right fun hSat => ?_
    rw [h.sound.isCyclic_iff, hVisit.sound.isCyclic_iff]
    -- an edge that was followed leads to an entity whose component cannot have been completed since
    refine or_congr_right (and_congr_left fun _ => ⟨fun hc => (hKept.closed_iff hc.met).mpr hc, fun hc => ?_⟩)
    exact (hKept.closed_iff (h.met d hd hSat (hVisit.sound.live _ hc.met))).mp hc

end Scanning

end Comptime.Pool.Walk
