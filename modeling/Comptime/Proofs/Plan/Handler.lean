import Comptime.Plan.Run
import Comptime.Proofs.Schedule.Completion
import Mathlib.Data.List.GetD
import Mathlib.Data.List.Nodup

/-!
# The handler of a plan

`Plan.Valid` says what `Plan.validate` accepts. For a valid plan the entities are the items in order, an item is found
under its name, and the handler is fair (`Plan.fair_handler`). An attempt comes to the first need that keeps the item
(`Plan.handler_attempt`).
-/

namespace Comptime

namespace Plan

open Scheduler

variable {n : Need} {name : String}

/-! ## Valid plans -/

/-- A need of a plan with these names makes sense. -/
structure Need.Valid (names : List String) (n : Need) : Prop where
  target : n.target ∈ names
  raised : attempted n.raised
  phase : .parsed ≤ n.phase ∧ n.phase ≤ .run

/-- The items have names of their own, and their phases can be attempted. -/
structure Valid (p : Plan) : Prop where
  nodup : p.names.Nodup
  fail : ∀ i ∈ p.items, i.fail = .uninitialized ∨ attempted i.fail
  needs : ∀ i ∈ p.items, ∀ n ∈ i.needs, n.Valid p.names

theorem nodup_of_checkNames : ∀ {names seen : List String}, checkNames seen names = .ok () →
    names.Nodup ∧ ∀ n ∈ names, n ∉ seen
  | [], _, _ => ⟨List.nodup_nil, by simp⟩
  | n :: rest, seen, h => by
    unfold checkNames at h
    split at h
    · cases h
    · split at h
      · cases h
      · rename_i hSeen
        obtain ⟨hNodup, hNew⟩ := nodup_of_checkNames h
        refine ⟨List.nodup_cons.mpr ⟨fun hIn => hNew n hIn (List.mem_cons_self ..), hNodup⟩, fun m hm => ?_⟩
        rcases List.mem_cons.mp hm with rfl | hm
        · exact hSeen
        · exact fun hIn => hNew m hm (List.mem_cons_of_mem _ hIn)

theorem Need.valid_of_check {names : List String} {i : Item} (h : checkNeed names i n = .ok ()) : n.Valid names := by
  unfold checkNeed at h
  by_cases hTarget : n.target ∈ names
  · by_cases hRaised : attempted n.raised
    · by_cases hPhase : .parsed ≤ n.phase ∧ n.phase ≤ .run
      · exact ⟨hTarget, hRaised, hPhase⟩
      · rw [if_neg (not_not.mpr hTarget), if_neg (not_not.mpr hRaised), if_pos hPhase] at h
        cases h
    · rw [if_neg (not_not.mpr hTarget), if_pos hRaised] at h
      cases h
  · rw [if_pos hTarget] at h
    cases h

/-- A check of every member passes if it passes for each. -/
theorem forM_ok {α ε : Type} {f : α → Except ε Unit} : ∀ {l : List α}, l.forM f = .ok () → ∀ a ∈ l, f a = .ok ()
  | [], _, _, h => by cases h
  | b :: l, h, a, ha => by
    rw [List.forM_eq_forM, List.forM_cons] at h
    cases hb : f b with
    | error e =>
      rw [hb] at h
      cases h
    | ok u =>
      rw [hb] at h
      rcases List.mem_cons.mp ha with rfl | ha
      · exact hb
      · exact forM_ok h a ha

theorem valid_of_validate {p : Plan} (h : p.validate = .ok ()) : p.Valid := by
  unfold validate at h
  cases hNames : checkNames [] p.names with
  | error e =>
    rw [hNames] at h
    cases h
  | ok u =>
    rw [hNames] at h
    have hItems : ∀ i ∈ p.items, checkItem p.names i = .ok () := forM_ok h
    have hChecked : ∀ i ∈ p.items, (i.fail = .uninitialized ∨ attempted i.fail) ∧
        i.needs.forM (checkNeed p.names i) = .ok () := by
      intro i hi
      have hItem := hItems i hi
      unfold checkItem at hItem
      split at hItem
      · cases hItem
      · rename_i hFail
        exact ⟨by tauto, hItem⟩
    exact ⟨(nodup_of_checkNames hNames).1, fun i hi => (hChecked i hi).1,
      fun i hi n hn => Need.valid_of_check (forM_ok (hChecked i hi).2 n hn)⟩

/-! ## Items and their entities -/

/-- The item that an entity stands for. -/
def itemAt (p : Plan) (i : Nat) : Item := p.items.getD i {}

/-- The entity that stands for the item of a name. -/
def index (p : Plan) (name : String) : Nat := p.names.idxOf name

variable {p : Plan} {w : World String (Array Nat)} {i : Nat}

theorem length_names (p : Plan) : p.names.length = p.items.length := List.length_map ..

theorem itemAt_mem (hi : i < p.names.length) : p.itemAt i ∈ p.items := by
  rw [length_names] at hi
  rw [itemAt, List.getD_eq_getElem _ _ hi]
  exact List.getElem_mem hi

theorem getElem?_names (hi : i < p.names.length) : p.names[i]? = some (p.itemAt i).name := by
  rw [length_names] at hi
  simp [names, itemAt, hi]

theorem index_itemAt (h : p.Valid) (hi : i < p.names.length) : p.index (p.itemAt i).name = i := by
  obtain ⟨hi', hName⟩ := List.getElem?_eq_some_iff.mp (getElem?_names hi)
  rw [index, ← hName]
  exact h.nodup.idxOf_getElem i hi'

theorem index_lt (h : name ∈ p.names) : p.index name < p.names.length := List.idxOf_lt_length_of_mem h

theorem name_itemAt_index (h : name ∈ p.names) : (p.itemAt (p.index name)).name = name := by
  have hName := getElem?_names (index_lt h)
  rw [List.getElem?_eq_getElem (index_lt h)] at hName
  have := List.getElem_idxOf (index_lt h)
  exact (Option.some.inj hName).symm.trans this

theorem itemAt_index (h : p.Valid) {it : Item} (hIt : it ∈ p.items) : p.itemAt (p.index it.name) = it := by
  obtain ⟨k, hk, rfl⟩ := List.getElem_of_mem hIt
  have hAt : p.itemAt k = p.items[k] := List.getD_eq_getElem _ _ hk
  rw [← hAt, index_itemAt h (length_names p ▸ hk)]

theorem item?_name (h : p.Valid) (hi : i < p.names.length) : p.item? (p.itemAt i).name = some (p.itemAt i) := by
  have hi' : i < p.items.length := length_names p ▸ hi
  have hItem : p.itemAt i = p.items[i] := List.getD_eq_getElem _ _ hi'
  rw [item?, hItem, List.find?_eq_some_iff_getElem]
  refine ⟨by simp, i, hi', rfl, fun j hj => ?_⟩
  have hNe : p.items[j].name ≠ p.items[i].name := by
    intro hEq
    have hPair := List.pairwise_iff_getElem.mp h.nodup j i (by rw [length_names]; omega) hi hj
    exact hPair (by simpa [names] using hEq)
  simpa using hNe

theorem lookup_eq (hValid : p.Valid) (h : Populated p.names w) (hName : name ∈ p.names) :
    (w.pool.lookup name).getD 0 = p.index name := by
  have hAt : p.names[p.index name]? = some name := by
    rw [List.getElem?_eq_getElem (index_lt hName)]
    exact congrArg some (List.getElem_idxOf (index_lt hName))
  rw [h.lookup hValid.nodup hAt, Option.getD_some]

/-! ## Raising needs -/

variable {id : Nat} {q : Phase}

/-- Is the need still to be met? -/
def unmet (p : Plan) (pool : Pool String) (n : Need) : Bool := !pool.satisfied ⟨p.index n.target, n.phase⟩

/-- Does the need keep its item? One that is not met does, unless its target has failed and that is tolerated. -/
def keeps (p : Plan) (pool : Pool String) (n : Need) : Bool :=
  p.unmet pool n && !(n.tolerate && (pool.entity (p.index n.target)).failed)

theorem unmet_of_keeps {pool : Pool String} (h : p.keeps pool n = true) : p.unmet pool n = true :=
  (Bool.and_eq_true_iff.mp h).1

/-- A need that nobody tolerates keeps its item as long as it is not met. -/
theorem keeps_of_not_tolerate {pool : Pool String} (h : n.tolerate = false) : p.keeps pool n = p.unmet pool n := by
  rw [keeps, h, Bool.false_and, Bool.not_false, Bool.and_true]

/-- The world in which an attempt has been counted. -/
def counted (w : World String (Array Nat)) (id : Nat) : World String (Array Nat) :=
  { w with own := w.own.modify id (· + 1) }

/-- The needs an item raises at a phase, in the order in which it lists them. -/
def wanted (p : Plan) (i : Nat) (q : Phase) : List Need := (p.itemAt i).needs.filter (·.raised = q)

theorem wanted_valid (h : p.Valid) (hi : i < p.names.length) (hn : n ∈ p.wanted i q) :
    n.Valid p.names := h.needs _ (itemAt_mem hi) n (List.mem_of_mem_filter hn)

/-- What an attempt comes to, by the first need that keeps the item. If there is none the item may still fail. -/
inductive Attempt (p : Plan) (pool : Pool String) (id : Nat) (fails : Prop) :
    Option Need → Except Failure Unit → Pool String → Prop where
  | pass : ¬ fails → Attempt p pool id fails none (.ok ()) pool
  | fault {f : Failure} : fails → f.cause? = some .injected → Attempt p pool id fails none (.error f) pool
  | depend {n : Need} {f : Failure} : (pool.entity (p.index n.target)).failed = true → f.cause? = some .dependency →
      Attempt p pool id fails (some n) (.error f) pool
  | yield {n : Need} {f : Failure} {pool' : Pool String} : (pool.entity (p.index n.target)).failed = false →
      f.cause? = some .yield → pool' = pool.update id (·.need ⟨p.index n.target, n.phase⟩) →
      pool.require id (p.index n.target) n.phase = .ok (pool', .error f) → Attempt p pool id fails (some n) (.error f) pool'

/-- Raising needs comes to the first that keeps the item. -/
theorem raise_attempt (id : Nat) (f : String → Nat) : ∀ (ns : List Need) (w : World String (Array Nat)), id < w.pool.size →
    (∀ n ∈ ns, f n.target = p.index n.target ∧ p.index n.target < w.pool.size) →
    ∃ r pool, raise (fun t q => Act.require id (f t) q) ns w = .ok r (w.setPool pool) ∧
      p.Attempt w.pool id False (ns.find? (p.keeps w.pool)) r pool
  | [], w, _, _ => ⟨_, w.pool, rfl, .pass not_false⟩
  | n :: ns, w, hId, hRange => by
    obtain ⟨hIndex, hTarget⟩ := hRange n (List.mem_cons_self ..)
    have ih := raise_attempt id f ns w hId fun m hm => hRange m (List.mem_cons_of_mem _ hm)
    unfold raise
    rcases Pool.require_cases n.phase hId hTarget with
      ⟨hSat, hReq⟩ | ⟨hUnsat, hFailed, g, hg, hReq⟩ | ⟨hUnsat, hLive, g, hg, hReq⟩
    · simp only [bind_apply, hIndex, require_apply hReq, List.find?_cons, keeps, unmet, hSat, Bool.not_true,
        Bool.false_and]
      exact ih
    · -- the target has failed, which is no obstacle if it is tolerated
      have hCause : g.isCause .dependency = true := by rw [Failure.isCause, hg, beq_self_eq_true]
      cases hTol : n.tolerate with
      | true =>
        simp only [bind_apply, hIndex, require_apply hReq, List.find?_cons, keeps, unmet, hUnsat, hFailed, hTol, hCause,
          Bool.not_false, Bool.and_true, Bool.not_true, if_true]
        exact ih
      | false =>
        simp only [bind_apply, hIndex, require_apply hReq, List.find?_cons, keeps, unmet, hUnsat, hTol, Bool.not_false,
          Bool.false_and, Bool.and_true, Bool.false_eq_true, if_false]
        exact ⟨_, _, rfl, .depend hFailed hg⟩
    · have hCause : g.isCause .dependency = false := by rw [Failure.isCause, hg]; rfl
      simp only [bind_apply, hIndex, require_apply hReq, List.find?_cons, keeps, unmet, hUnsat, hLive, hCause,
        Bool.not_false, Bool.and_false, Bool.and_true, Bool.false_eq_true, if_false]
      exact ⟨_, _, rfl, .yield hLive hg rfl hReq⟩

/-! ## Attempts -/

/-- An attempt replays the item of the entity. -/
theorem handler_apply (h : p.Valid) (hPop : Populated p.names w) (hId : id < p.names.length) :
    p.handler q id w = match raise (fun t q => Act.require id ((w.pool.lookup t).getD 0) q) (p.wanted id q)
        (counted w id) with
      | .ok (.error f) w' => .ok (.error f) w'
      | .ok (.ok ()) w' => .ok (if (p.itemAt id).fail = q then
          .error (.within s!"{(p.itemAt id).name} at {q.name}" (.known .injected)) else .ok ()) w'
      | .error a w' => .error a w' := by
  have hItem : (w.scheduler.pool.entity id).node.bind p.item? = some (p.itemAt id) := by
    rw [show (w.scheduler.pool.entity id).node = p.names[id]? from hPop.node id, getElem?_names hId]
    exact item?_name h hId
  unfold handler
  simp only [bind_apply, scheduler_apply, Act.modifyOwn, modify, modifyGet, MonadStateOf.modifyGet, EStateM.modifyGet,
    hItem, Item.replay]
  rw [show ({ scheduler := w.scheduler, own := w.own.modify id fun x => x + 1 } : World String (Array Nat)) =
    counted w id from rfl, show w.scheduler.pool = w.pool from rfl,
    show (p.itemAt id).needs.filter (fun n => decide (n.raised = q)) = p.wanted id q from rfl]
  rcases raise (fun t q => Act.require id ((w.pool.lookup t).getD 0) q) (p.wanted id q) (counted w id) with
    ⟨f | ⟨⟩, w'⟩ | ⟨a, w'⟩ <;> rfl

/-- An attempt comes to the first need that keeps the item; it fails by itself only if there is none. -/
theorem handler_attempt (h : p.Valid) (hPop : Populated p.names w) (hId : id < p.names.length) :
    ∃ r pool, p.handler q id w = .ok r ((counted w id).setPool pool) ∧
      p.Attempt w.pool id ((p.itemAt id).fail = q) ((p.wanted id q).find? (p.keeps w.pool)) r pool := by
  have hRange : ∀ n ∈ p.wanted id q, (w.pool.lookup n.target).getD 0 = p.index n.target ∧
      p.index n.target < (counted w id).pool.size := by
    intro n hn
    have hTarget := (wanted_valid h hId hn).target
    exact ⟨lookup_eq h hPop hTarget, hPop.size ▸ index_lt hTarget⟩
  obtain ⟨r, pool, hRaise, hAttempt⟩ := raise_attempt id (fun t => (w.pool.lookup t).getD 0) (p.wanted id q) (counted w id)
    (hPop.size ▸ hId) hRange
  rw [show (counted w id).pool = w.pool from rfl] at hAttempt
  rw [handler_apply h hPop hId, hRaise]
  generalize (p.wanted id q).find? (p.keeps w.pool) = first at hAttempt
  cases hAttempt with
  | fault hFails => exact hFails.elim
  | depend hFailed hf => exact ⟨_, _, rfl, .depend hFailed hf⟩
  | yield hLive hf hPool hReq => exact ⟨_, _, rfl, .yield hLive hf hPool hReq⟩
  | pass =>
    by_cases hFail : (p.itemAt id).fail = q
    · simp only [hFail, if_true]
      exact ⟨_, _, rfl, .fault trivial rfl⟩
    · simp only [hFail, if_false]
      exact ⟨_, _, rfl, .pass not_false⟩

/-- **The handler of a valid plan is fair.** -/
theorem fair_handler (h : p.Valid) : Fair p.handler p.names fun _ => True where
  returns q id w hPop _ hId := by
    obtain ⟨r, pool, hRun, -⟩ := handler_attempt (q := q) h hPop hId
    exact ⟨r, _, hRun, trivial⟩
  disciplined q id w hPop _ hId r w' hRun := by
    obtain ⟨r', pool, hRun', hAttempt⟩ := handler_attempt (q := q) h hPop hId
    cases hRun.symm.trans hRun'
    generalize hFirst : (p.wanted id q).find? (p.keeps w.pool) = first at hAttempt
    cases hAttempt with
    | pass => exact ⟨_, false, rfl, .none _, nofun⟩
    | fault _ hf | depend _ hf =>
      refine ⟨_, false, rfl, .none _, fun hYields => ?_⟩
      rw [Failure.yields, Failure.isCause, hf] at hYields
      cases hYields
    | yield _ _ _ hReq =>
      have hNeed := wanted_valid h hId (List.mem_of_find?_eq_some hFirst)
      exact ⟨_, _, rfl, .one (hPop.size ▸ index_lt hNeed.target) hNeed.phase.2 hReq, fun hYields => hYields⟩

end Plan

end Comptime
