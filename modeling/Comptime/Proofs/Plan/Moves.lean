import Comptime.Plan.Run
import Comptime.Proofs.Schedule.Pool
import Mathlib.Logic.Function.Basic
import Mathlib.Logic.Relation

/-!
# How far a plan can get

What a plan allows, said without any scheduler: an item moves to the next phase when it does not fail there and all its
needs there are met. The order of the moves does not matter: where no move is left, every item has come as far as it can
in any order (`greatest_of_stuck`). What keeps the others is the first of their needs that is not met, `blocker`.
-/

namespace Comptime

namespace Plan

open Relation

/-- How far the items have come, by name. -/
abbrev Progress := String → Phase

/-- All that the item needs at a phase is there. -/
def Item.Meets (i : Item) (q : Phase) (v : Progress) : Prop := ∀ n ∈ i.needs, n.raised = q → n.phase ≤ v n.target

/-- The item can go on to the next phase. -/
structure Item.MayMove (i : Item) (v : Progress) : Prop where
  unfinished : v i.name < .run
  fail : i.fail ≠ (v i.name).succ
  meets : i.Meets (v i.name).succ v

/-- One item goes on to the next phase. -/
inductive Move (p : Plan) (v : Progress) : Progress → Prop where
  | next {i : Item} : i ∈ p.items → i.MayMove v → Move p v (Function.update v i.name (v i.name).succ)

/-- What can be reached from the start, where every item is parsed. -/
def Reachable (p : Plan) (v : Progress) : Prop := ReflTransGen p.Move (fun _ => .parsed) v

/-- As far as the plan gets, in whatever order the items move. -/
structure Greatest (p : Plan) (v : Progress) : Prop where
  reachable : p.Reachable v
  le : ∀ {u}, p.Reachable u → ∀ name, u name ≤ v name

variable {p : Plan} {u v : Progress}

/-- An item that is behind another run of the plan, and stuck there, would be stuck in that run. -/
theorem Move.le (h : p.Move u v) {f : Progress} (hStuck : ∀ i ∈ p.items, ¬ i.MayMove f) (hLe : ∀ name, u name ≤ f name)
    (name : String) : v name ≤ f name := by
  obtain ⟨hi, hMay⟩ := h
  rename_i i
  by_cases hName : name = i.name
  · subst hName
    rw [Function.update_self]
    by_cases hEq : u i.name = f i.name
    · -- with the same phase the item could move there as well
      refine absurd ⟨?_, ?_, ?_⟩ (hStuck i hi)
      · exact hEq ▸ hMay.unfinished
      · exact hEq ▸ hMay.fail
      · intro n hn hRaised
        exact Int.le_trans (hMay.meets n hn (hEq ▸ hRaised)) (hLe n.target)
    · have hBelow := hLe i.name
      have hRank : (u i.name).rank ≠ (f i.name).rank := fun hc => hEq (Phase.ext_rank hc)
      simp only [Phase.le_iff, Phase.succ] at hBelow ⊢
      omega
  · rw [Function.update_of_ne hName]
    exact hLe name

/-- **Confluence.** What is reached where no move is left is the greatest of all that can be reached. -/
theorem greatest_of_stuck (hReach : p.Reachable v) (hStuck : ∀ i ∈ p.items, ¬ i.MayMove v) : p.Greatest v := by
  have hStart : ∀ {w : Progress}, p.Reachable w → ∀ name, Phase.parsed ≤ w name := by
    intro w hw
    induction hw with
    | refl => exact fun _ => Int.le_refl _
    | tail _ hMove ih =>
      obtain ⟨-, -⟩ := hMove
      rename_i u i
      intro name
      by_cases hName : name = i.name
      · subst hName
        rw [Function.update_self]
        have := ih i.name
        simp only [Phase.le_iff, Phase.succ] at this ⊢
        omega
      · rw [Function.update_of_ne hName]
        exact ih name
  refine ⟨hReach, fun hu => ?_⟩
  induction hu with
  | refl => exact hStart hReach
  | tail _ hMove ih => exact hMove.le hStuck ih

/-! ## What keeps an item -/

/-- The first need, in the order in which they are listed, that keeps the item from its next phase. -/
def Item.firstUnmet (i : Item) (v : Progress) : Option Need :=
  i.needs.find? fun n => n.raised = (v i.name).succ ∧ ¬ n.phase ≤ v n.target

/-- The item whose progress the item of that name waits for. -/
def blocker (p : Plan) (v : Progress) (name : String) : Option String := do
  let i ← p.item? name
  let n ← i.firstUnmet v
  return n.target

/-- From one item to the one that keeps it. -/
def Follows (p : Plan) (v : Progress) (a b : String) : Prop := p.blocker v a = some b

/-- The item fails at its next phase, and nothing else keeps it. -/
def Item.FailsNext (i : Item) (v : Progress) : Prop := i.fail = (v i.name).succ ∧ i.Meets (v i.name).succ v

end Plan

end Comptime
