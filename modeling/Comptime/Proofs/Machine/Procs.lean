import Comptime.Proofs.Machine.Activation

/-!
# The procedures of a machine

A machine knows procedures by name. Adding one replaces the one of that name and no other (`proc?_addProc`). Nothing that
the machine executes changes what it knows (`call_procs`).
-/

namespace Comptime

namespace Machine

variable {m m' : Machine} {name : String} {p : Proc}

/-- The procedure of a name. -/
def proc? (m : Machine) (name : String) : Option Proc := m.procs.find? (·.name == name)

theorem proc?_congr (h : m'.procs = m.procs) : m'.proc? name = m.proc? name := by rw [proc?, proc?, h]

/-- Replacing the first procedure of a name. -/
theorem find?_set : ∀ {l : List Proc} {i : Nat}, l.findIdx? (·.name == p.name) = some i →
    (l.set i p).find? (·.name == name) = if p.name = name then some p else l.find? (·.name == name)
  | [], _, h => by cases h
  | q :: l, i, h => by
    rw [List.findIdx?_cons] at h
    by_cases hq : q.name = p.name
    · grind
    · rw [if_neg (by simpa using hq)] at h
      obtain ⟨j, hj, rfl⟩ := Option.map_eq_some_iff.mp h
      rw [List.set_cons_succ, List.find?_cons, List.find?_cons, find?_set hj]
      by_cases hName : p.name = name
      · have hq' : (q.name == name) = false := by simpa [← hName] using hq
        rw [if_pos hName, if_pos hName, hq']
      · rw [if_neg hName, if_neg hName]

theorem proc?_addProc : (m.addProc p).proc? name = if p.name = name then some p else m.proc? name := by
  rw [addProc, procIdx?]
  cases hIdx : m.procs.findIdx? (·.name == p.name) with
  | some i =>
    rw [show m.procs = m.procs.toList.toArray from Array.toArray_toList.symm, List.findIdx?_toArray] at hIdx
    simp only [proc?]
    rw [← Array.find?_toList, ← Array.find?_toList, Array.toList_setIfInBounds]
    exact find?_set hIdx
  | none =>
    have hNone : ∀ q ∈ m.procs, q.name ≠ p.name := by simpa using Array.findIdx?_eq_none_iff.mp hIdx
    simp only [proc?, Array.find?_push]
    by_cases hName : p.name = name
    · have hFind : m.procs.find? (·.name == name) = none := by simpa [hName] using hNone
      simp [hName, hFind]
    · simp [hName]

theorem global_procs {size align : Int64} : (m.global name size align).1.procs = m.procs := by
  rw [global]
  split <;> rfl

theorem withStack?_eq (h : m.withStack? = some m') :
    m'.limits = m.limits ∧ m'.procs = m.procs ∧ m'.depth = m.depth ∧ m'.memory.sp = m.memory.sp := by
  rw [withStack?] at h
  split at h
  · cases h
    exact ⟨rfl, rfl, rfl, rfl⟩
  · split at h <;> cases h
    exact ⟨rfl, rfl, rfl, rfl⟩

theorem enter_like (m : Machine) (p : Proc) (args : List UInt64) (s : List Waiting) :
    m.Like (m.enter p args s).machine := by
  rcases enter_cases (m := m) (p := p) (a := args) (s := s) with ⟨_, _, hLike, hEnter, -⟩ | ⟨_, _, hLike, -, hEnter, -⟩ <;>
  · rw [hEnter]
    exact hLike

/-- A call changes neither what the machine knows nor the size of its memory, but for making the stack. -/
theorem call_like (m : Machine) (name : String) (args : List UInt64) :
    ∃ m1, (m1 = m ∨ m.withStack? = some m1) ∧ m1.Like (m.call name args).1 := by
  rw [call]
  split
  · exact ⟨m, .inl rfl, .refl⟩
  next i _ =>
  split
  · exact ⟨m, .inl rfl, .refl⟩
  next m1 hStack =>
  refine ⟨m1, .inr hStack, ?_⟩
  have hStart : m1.Like { m1 with steps := 0 } := ⟨rfl, rfl, rfl, .refl⟩
  have hLike := (hStart.trans (enter_like _ (m1.procs.getD i default) args [])).trans
    (Run.runFor_like (Limits.fuel m1.limits) _)
  dsimp only
  generalize runFor (Limits.fuel m1.limits) _ = r at hLike
  cases r with
  | returned m2 | halted m2 => exact hLike
  | running m2 f ws =>
    obtain ⟨m3, hLike', hHalt⟩ := halt_eq_halted (m := m2) (f := f) (h := .endless) (s := ws)
    simp only [hHalt]
    exact hLike.trans hLike'

/-- Whatever is executed, the procedures stay. -/
theorem call_procs (m : Machine) (name : String) (args : List UInt64) : (m.call name args).1.procs = m.procs := by
  obtain ⟨m1, hm1, hLike⟩ := m.call_like name args
  rw [hLike.procs]
  rcases hm1 with rfl | hStack
  · rfl
  · exact (withStack?_eq hStack).2.1

end Machine

end Comptime
