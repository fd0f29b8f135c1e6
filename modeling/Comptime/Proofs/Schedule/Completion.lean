import Comptime.Proofs.Schedule.Termination

/-!
# A run takes every entity to its end

`run_of_fair`: whatever the nodes and whatever fair handlers do, a run ends within a number of rounds that depends on the
number of entities only, never in a deadlock, with every entity finished or failed, and its result tells which.
-/

namespace Comptime

open List Pool Entity

namespace Scheduler

variable {ν σ : Type} {handle : Handler ν σ} {nodes : List ν} {ok : σ → Prop} {w : World ν σ}
variable {i : Nat} {s : Scheduler ν}

/-! ## The start of a run -/

/-- The scheduler in which the nodes have been registered, in order, and nothing has happened yet. -/
def arrived (nodes : List ν) : Scheduler ν where
  pool := { entities := (nodes.map fresh).toArray, byNode := nodes.zipIdx.reverse }
  queues := { typeChecked := range nodes.length }

theorem size_arrived (nodes : List ν) : (arrived nodes).pool.size = nodes.length := by
  simp [arrived, size]

theorem entity_arrived (nodes : List ν) (i : Nat) :
    (arrived nodes).pool.entity i = if h : i < nodes.length then .fresh nodes[i] else .vacant := by
  by_cases hi : i < nodes.length <;> simp [arrived, entity, Array.getD_eq_getD_getElem?, hi]

theorem deps_arrived (nodes : List ν) (i : Nat) : ((arrived nodes).pool.entity i).deps = [] := by
  rw [entity_arrived]
  split <;> rfl

theorem phase_arrived (hi : i < nodes.length) : ((arrived nodes).pool.entity i).phase = .parsed := by
  rw [entity_arrived, dif_pos hi]
  rfl

theorem get_arrived (nodes : List ν) (q : Phase) :
    (arrived nodes).queues.get q = if q = .typeChecked then range nodes.length else [] := by
  have hIff : q = .typeChecked ↔ q.rank = 2 := ⟨fun h => h ▸ rfl, Phase.ext_rank⟩
  simp only [arrived, Queues.get_eq, hIff, ite_self]

theorem mem_get_arrived {q : Phase} : i ∈ (arrived nodes).queues.get q ↔ q = .typeChecked ∧ i < nodes.length := by
  rw [get_arrived]
  by_cases hq : q = .typeChecked <;> simp [hq]

theorem Tidy.arrived (nodes : List ν) : Tidy (arrived nodes) where
  once := by simpa [Scheduler.arrived, Queues.all] using List.nodup_range
  member {q i} hi := by
    obtain ⟨rfl, hLt⟩ := mem_get_arrived.mp hi
    refine ⟨?_, .inr (by rw [phase_arrived hLt]; rfl)⟩
    rw [entity_arrived, dif_pos hLt]
    rfl
  edges {i d} hd := by
    rw [deps_arrived] at hd
    cases hd
  free := by
    refine ⟨⟨by rintro ⟨⟩, ?_⟩, .nil⟩
    rintro ⟨hLt, hNone⟩
    rw [entity_arrived, dif_pos (size_arrived nodes ▸ hLt)] at hNone
    cases hNone

/-- At the start everything is in order. -/
theorem WellRun.arrived (handled : List Phase) {own : σ} (hOwn : ok own) :
    WellRun nodes ok ⟨{ arrived nodes with handled }, own⟩ where
  order := {
    toTidy := (Tidy.arrived nodes).eases (.of_eq rfl rfl)
    size := size_arrived nodes
    queued := by
      intro i hi _ _
      change i ∈ (Scheduler.arrived nodes).queues.get ((Scheduler.arrived nodes).pool.entity i).phase.succ
      rw [mem_get_arrived, phase_arrived hi]
      exact ⟨rfl, hi⟩
    phase := by
      intro i hi
      change 1 ≤ ((Scheduler.arrived nodes).pool.entity i).phase.rank ∧
        ((Scheduler.arrived nodes).pool.entity i).phase.rank ≤ 5
      rw [phase_arrived hi]
      decide
    late := by
      intro i d hd
      change d ∈ ((Scheduler.arrived nodes).pool.entity i).deps at hd
      rw [deps_arrived] at hd
      cases hd }
  populated := {
    size := size_arrived nodes
    byNode := rfl
    node := by
      intro i
      change ((Scheduler.arrived nodes).pool.entity i).node = nodes[i]?
      rw [entity_arrived]
      by_cases hi : i < nodes.length <;> simp [hi, Entity.fresh, Entity.vacant] }
  own := hOwn

/-- What there is to do at the start. -/
theorem effort_arrived (nodes : List ν) (handled : List Phase) (own : σ) :
    effort (⟨{ arrived nodes with handled }, own⟩ : World ν σ) ≤ 6 * nodes.length + 4 * nodes.length * nodes.length := by
  have hToll : ∀ i ∈ range nodes.length, (arrived nodes).pool.toll i = 4 * (nodes.length + 1) := by
    intro i hi
    have hi := mem_range.mp hi
    have hLive : ((arrived nodes).pool.entity i).failed = false := by
      rw [entity_arrived, dif_pos hi]
      rfl
    rw [toll_of_live hLive, phase_arrived hi, size_arrived, Nat.mul_comm]
    rfl
  have hPrompt := card_prompt_le (arrived nodes).pool
  have hQueued : (arrived nodes).queues.all = range nodes.length := by simp [arrived, Queues.all]
  rw [size_arrived] at hPrompt
  calc effort (⟨{ arrived nodes with handled }, own⟩ : World ν σ)
      = ((range nodes.length).map (arrived nodes).pool.toll).sum + (arrived nodes).pool.prompt.card := by
        rw [← hQueued]
        rfl
    _ = nodes.length * (4 * (nodes.length + 1)) + (arrived nodes).pool.prompt.card := by
        rw [map_congr_left hToll]
        simp
    _ ≤ nodes.length * (4 * (nodes.length + 1)) + nodes.length := Nat.add_le_add_left hPrompt _
    _ ≤ 6 * nodes.length + 4 * nodes.length * nodes.length := by
        have hSquare : nodes.length * (4 * (nodes.length + 1)) = 4 * nodes.length * nodes.length + 4 * nodes.length := by
          rw [Nat.mul_left_comm, Nat.mul_succ, Nat.mul_add, Nat.mul_assoc]
        omega

section Registering

variable [BEq ν] [ToString ν]

/-- A new scheduler in which the nodes are registered one after the other. -/
def ofNodes (nodes : List ν) : Except Abort (Scheduler ν) :=
  nodes.foldlM (fun (s : Scheduler ν) n => do return (← s.register n).1) {}

/-- One more node, at the end of a pool from which nothing was freed. -/
def withNode (s : Scheduler ν) (n : ν) : Scheduler ν :=
  { s with
    pool := { entities := s.pool.entities.push (.fresh n), byNode := (n, s.pool.size) :: s.pool.byNode }
    queues := { s.queues with typeChecked := s.queues.typeChecked ++ [s.pool.size] } }

theorem register_of_lookup {n : ν} (hFree : s.pool.free = []) (hNew : s.pool.lookup n = none) :
    s.register n = .ok (s.withNode n, s.pool.size) := by
  have hEntities : (s.pool.entities.push .vacant).modify s.pool.entities.size (fun _ => .fresh n) =
      s.pool.entities.push (.fresh n) := by
    refine Array.ext (by simp) fun i _ h' => ?_
    by_cases hi : i < s.pool.entities.size
    · simp [Array.getElem_modify, Array.getElem_push, hi, hi.ne']
    · rw [Array.size_push] at h'
      obtain rfl : i = s.pool.entities.size := by omega
      simp [Array.getElem_modify]
  rw [register, Pool.add, Edit.outcome, add_of_none hNew (takeIndex_of_nil hFree), withNode, ← hEntities, ← hFree]
  rfl

theorem eq_withNode_of_register {s : Scheduler ν} {n : ν} {x : Scheduler ν × Nat} (hFree : s.pool.free = [])
    (h : s.register n = .ok x) : x.1 = s.withNode n := by
  cases hLookup : s.pool.lookup n with
  | some j =>
    obtain ⟨a, hRefused⟩ := add_of_some hLookup
    rw [register, Pool.add, Edit.outcome, hRefused] at h
    cases h
  | none =>
    rw [register_of_lookup hFree hLookup] at h
    cases h
    rfl

theorem foldlM_register : ∀ (nodes : List ν) {s s' : Scheduler ν}, s.pool.free = [] →
    nodes.foldlM (fun (s : Scheduler ν) n => do return (← s.register n).1) s = .ok s' →
    s' = { s with
      pool := { entities := s.pool.entities ++ (nodes.map fresh).toArray
                byNode := (nodes.zipIdx s.pool.size).reverse ++ s.pool.byNode }
      queues := { s.queues with typeChecked := s.queues.typeChecked ++ range' s.pool.size nodes.length } }
  | [], s, s', hFree, h => by
    obtain ⟨⟨entities, byNode, free⟩, queues, handled, rounds⟩ := s
    obtain rfl : free = [] := hFree
    cases h
    simp
  | n :: nodes, s, s', hFree, h => by
    rw [foldlM_cons] at h
    cases hReg : s.register n with
    | error a =>
      rw [hReg] at h
      cases h
    | ok x =>
      rw [hReg] at h
      have hEq := eq_withNode_of_register hFree hReg
      have ih := foldlM_register nodes (s := x.1) (by rw [hEq]; rfl) h
      rw [ih, hEq]
      simp [withNode, size, range'_succ]

theorem eq_arrived_of_ofNodes (h : ofNodes nodes = .ok s) : s = arrived nodes := by
  rw [foldlM_register nodes rfl h, arrived, range_eq_range']
  simp [size]

/-- Nodes that differ from each other can all be registered. -/
theorem foldlM_register_ok [LawfulBEq ν] : ∀ (nodes : List ν) (s : Scheduler ν), s.pool.free = [] → nodes.Nodup →
    (∀ n ∈ nodes, s.pool.lookup n = none) →
    ∃ s', nodes.foldlM (fun (s : Scheduler ν) n => do return (← s.register n).1) s = .ok s'
  | [], s, _, _, _ => ⟨s, rfl⟩
  | n :: nodes, s, hFree, hNodup, hNew => by
    rw [List.nodup_cons] at hNodup
    have hNew' : ∀ m ∈ nodes, (s.withNode n).pool.lookup m = none := by
      intro m hm
      have hOld := hNew m (List.mem_cons_of_mem _ hm)
      have hNe : n ≠ m := fun hEq => hNodup.1 (hEq ▸ hm)
      have hOther : (m == n) = false := by simpa using Ne.symm hNe
      rw [Pool.lookup, withNode, lookup_cons, hOther]
      exact hOld
    obtain ⟨s', hs'⟩ := foldlM_register_ok nodes (s.withNode n) rfl hNodup.2 hNew'
    refine ⟨s', ?_⟩
    rw [List.foldlM_cons, register_of_lookup hFree (hNew n (List.mem_cons_self ..))]
    exact hs'

theorem ofNodes_of_nodup [LawfulBEq ν] (h : nodes.Nodup) : ofNodes nodes = .ok (arrived nodes) := by
  obtain ⟨s, hs⟩ := foldlM_register_ok nodes {} rfl h fun n _ => by simp [Pool.lookup]
  obtain rfl : s = arrived nodes := eq_arrived_of_ofNodes hs
  exact hs

end Registering

/-! ## The end of a run -/

/-- Where nothing is outstanding, what has not failed is finished. -/
theorem WellRun.phase_eq_run (h : WellRun nodes ok w) (hOut : w.scheduler.outstanding = 0) (hi : i < nodes.length)
    (hLive : (w.pool.entity i).failed = false) : (w.pool.entity i).phase = .run := by
  by_contra hNot
  obtain ⟨hLow, hHigh⟩ := h.order.phase hi
  have hBelow : (w.pool.entity i).phase.rank ≠ 5 := fun hEq => hNot (Phase.ext_rank hEq)
  have hQueued := (h.order.place hi hLive (w.pool.entity i).phase.succ).mpr
    ⟨rfl, by simp only [Phase.succ]; omega, by simp only [Phase.succ]; omega⟩
  have hNone := countP_eq_zero.mp hOut i (World.mem_all_iff.mpr ⟨_, hQueued⟩)
  rw [show (w.scheduler.pool.entity i).failed = false from hLive] at hNone
  exact hNone rfl

theorem verdict_eq_ok {s : Scheduler ν} (h : s.pool.failedCount = 0) : s.verdict = .ok () := by
  unfold verdict
  split
  · rfl
  · rename_i hc
    exact absurd h hc

theorem verdict_eq_error {s : Scheduler ν} (h : s.pool.failedCount ≠ 0) :
    ∃ f, s.verdict = .error f ∧ f.isCause .failed = true := by
  unfold verdict
  split
  · rename_i hc
    exact absurd hc h
  · exact ⟨_, rfl, rfl⟩

/--
**Runs end.** Whatever nodes are registered and whatever phases have a handler, if the handlers are fair then a run ends
within `6 * n + 4 * n * n` rounds for `n` nodes. It does not end in a deadlock: every entity is finished or has failed, and
the result tells whether any has.
-/
theorem run_of_fair [BEq ν] [ToString ν] (hNodes : ofNodes nodes = .ok s) (handled : List Phase)
    (hFair : Fair handle nodes ok)
    {own : σ} (hOwn : ok own) : ∃ r w, repeatRounds handle ⟨{ s with handled }, own⟩ = some (.ok r w) ∧
      (run handle).run ⟨{ s with handled }, own⟩ = .ok r w ∧
      w.scheduler.rounds ≤ 6 * nodes.length + 4 * nodes.length * nodes.length ∧
      (∀ f, r = .error f → f.isCause .deadlock = false) ∧
      (∀ i < nodes.length, (w.pool.entity i).failed = true ∨
        ((w.pool.entity i).failed = false ∧ (w.pool.entity i).phase = .run)) ∧
      ((∀ i < nodes.length, (w.pool.entity i).failed = false) → r = .ok ()) ∧
      ((∃ i < nodes.length, (w.pool.entity i).failed = true) → ∃ f, r = .error f ∧ f.isCause .failed = true) := by
  obtain rfl := eq_arrived_of_ofNodes hNodes
  have hStart : WellRun nodes ok ⟨{ arrived nodes with handled }, own⟩ := WellRun.arrived handled hOwn
  -- the effort bounds the rounds: each but the last makes it smaller
  obtain ⟨w, hRun, hWell, -, hOut, hRounds⟩ := hFair.repeatRounds Keeps.trivial effort (fun h _ => hFair.effort_lt h) _ _
    (effort_arrived nodes handled own) hStart trivial
  refine ⟨w.scheduler.verdict, w, hRun, ?_, ?_, ?_, ?_, ?_, ?_⟩
  · simp only [EStateM.run, run, hRun]
  · exact Nat.zero_add (6 * nodes.length + 4 * nodes.length * nodes.length) ▸ hRounds
  · intro f hf
    by_cases hCount : w.scheduler.pool.failedCount = 0
    · rw [verdict_eq_ok hCount] at hf
      cases hf
    · obtain ⟨g, hg, hCause⟩ := verdict_eq_error hCount
      rw [hg] at hf
      cases hf
      rw [Failure.isCause, beq_iff_eq] at hCause
      rw [Failure.isCause, hCause]
      rfl
  · intro i hi
    cases hLive : (w.pool.entity i).failed with
    | true => exact Or.inl rfl
    | false => exact Or.inr ⟨rfl, hWell.phase_eq_run hOut hi hLive⟩
  · intro hNone
    refine verdict_eq_ok (failedCount_eq_zero_iff.mpr fun i hi => hNone i ?_)
    exact hWell.order.size ▸ hi
  · rintro ⟨i, hi, hFailed⟩
    refine verdict_eq_error fun hCount => ?_
    rw [← hWell.order.size] at hi
    have hLive := failedCount_eq_zero_iff.mp hCount i hi
    rw [show (w.scheduler.pool.entity i).failed = true from hFailed] at hLive
    cases hLive

end Scheduler

end Comptime
