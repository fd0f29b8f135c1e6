import Comptime.Proofs.Schedule.Pool
import Mathlib.Logic.Relation
import Mathlib.Data.Finset.Card
import Mathlib.Data.Fintype.Pigeonhole

/-!
# The wait-for graph

The graph on the unfailed entities whose edges are the recorded ones that are not out of date, stated without the walk
that searches it. `Pool.fate` is what the graph makes of an entity: one that lies on a cycle can never go on, nor can
one that gets to a cycle, or to an entity that was given up for a cycle before.

Main statement: `exists_circle_of_stuck`, a closed set of entities that all wait for one another contains a circle.
-/

namespace Comptime

open Relation

/--
Those who all wait for one of their own number cannot be finitely many without a circle among them: following one wait
after the other has to come back to where it was.
-/
theorem exists_circle_of_stuck {r : Nat → Nat → Prop} {S : Nat → Prop} {n : Nat} (hBound : ∀ v, S v → v < n)
    (hStep : ∀ v, S v → ∃ t, S t ∧ r v t) {v : Nat} (hv : S v) : ∃ u, ReflTransGen r v u ∧ TransGen r u u := by
  classical
  choose next hNextMem hNextWaits using hStep
  let step : {x // S x} → {x // S x} := fun x => ⟨next x.1 x.2, hNextMem x.1 x.2⟩
  let path : Nat → {x // S x} := fun k => step^[k] ⟨v, hv⟩
  have hEdge : ∀ k, r (path k).1 (path (k + 1)).1 := by
    intro k
    have hSucc : path (k + 1) = step (path k) := Function.iterate_succ_apply' step k _
    rw [hSucc]
    exact hNextWaits _ _
  have hAhead : ∀ i k, ReflTransGen r (path i).1 (path (i + k)).1 := by
    intro i k
    induction k with
    | zero => exact .refl
    | succ k ih => exact ih.tail (hEdge (i + k))
  have hFinite : Finite {x // S x} :=
    Finite.of_injective (fun x => (⟨x.1, hBound x.1 x.2⟩ : Fin n)) fun a b hab =>
      Subtype.ext (congrArg Fin.val hab)
  obtain ⟨i, j, hne, heq⟩ := Finite.exists_ne_map_eq_of_infinite path
  -- the earlier of the two visits closes the cycle
  wlog hlt : i < j generalizing i j
  · exact this j i (Ne.symm hne) heq.symm (by omega)
  have hStart : ReflTransGen r v (path i).1 := by
    have := hAhead 0 i
    rwa [Nat.zero_add] at this
  refine ⟨(path i).1, hStart, ?_⟩
  have hRound : ReflTransGen r (path (i + 1)).1 (path j).1 := by
    have := hAhead (i + 1) (j - (i + 1))
    rwa [show i + 1 + (j - (i + 1)) = j by omega] at this
  rw [← heq] at hRound
  exact TransGen.head' (hEdge i) hRound

end Comptime

namespace Comptime.Pool

open Relation

variable {ν : Type} {p : Pool ν}
variable {v : Nat}

/-- `v` waits for `t`: neither has failed, and an edge between them is not out of date. -/
def Waits (p : Pool ν) (v t : Nat) : Prop :=
  (p.entity v).failed = false ∧ (p.entity t).failed = false ∧
    ∃ d ∈ (p.entity v).deps, d.target = t ∧ p.satisfied d = false

def OnCycle (p : Pool ν) (v : Nat) : Prop := TransGen p.Waits v v

/-- `v` has an edge to an entity that was given up for a cycle. -/
def Touches (p : Pool ν) (v : Nat) : Prop :=
  ∃ d ∈ (p.entity v).deps, p.satisfied d = false ∧ (p.entity d.target).err.isCyclic = true

/-- From `v` the graph leads to a cycle, or to an entity that waits for one that was given up for a cycle. -/
def Doomed (p : Pool ν) (v : Nat) : Prop :=
  ∃ u, ReflTransGen p.Waits v u ∧ (p.OnCycle u ∨ p.Touches u)

open Classical in
/-- What the graph makes of an unfailed entity. -/
noncomputable def fate (p : Pool ν) (v : Nat) : ErrorKind :=
  if p.OnCycle v then .cycle else if p.Doomed v then .cycleDependent else .ok

theorem doomed_of_onCycle (h : p.OnCycle v) : p.Doomed v := ⟨v, .refl, Or.inl h⟩

theorem fate_of_onCycle (h : p.OnCycle v) : p.fate v = .cycle := by
  unfold fate
  rw [if_pos h]

theorem fate_of_doomed (hc : ¬ p.OnCycle v) (h : p.Doomed v) : p.fate v = .cycleDependent := by
  unfold fate
  rw [if_neg hc, if_pos h]

theorem fate_of_not_doomed (h : ¬ p.Doomed v) : p.fate v = .ok := by
  unfold fate
  rw [if_neg fun hc => h (doomed_of_onCycle hc), if_neg h]

theorem fate_spec (v : Nat) : (p.OnCycle v ∧ p.Doomed v ∧ p.fate v = .cycle) ∨
    (¬ p.OnCycle v ∧ p.Doomed v ∧ p.fate v = .cycleDependent) ∨ (¬ p.OnCycle v ∧ ¬ p.Doomed v ∧ p.fate v = .ok) := by
  by_cases hd : p.Doomed v
  · by_cases hc : p.OnCycle v
    · exact .inl ⟨hc, hd, fate_of_onCycle hc⟩
    · exact .inr (.inl ⟨hc, hd, fate_of_doomed hc hd⟩)
  · exact .inr (.inr ⟨mt doomed_of_onCycle hd, hd, fate_of_not_doomed hd⟩)

theorem fate_isCyclic_iff : (p.fate v).isCyclic = true ↔ p.Doomed v := by
  rcases p.fate_spec v with ⟨-, hd, h⟩ | ⟨-, hd, h⟩ | ⟨-, hd, h⟩ <;> simp [hd, h, ErrorKind.isCyclic]

theorem fate_ne_ok_iff : p.fate v ≠ .ok ↔ p.Doomed v := by
  rcases p.fate_spec v with ⟨-, hd, h⟩ | ⟨-, hd, h⟩ | ⟨-, hd, h⟩ <;> simp [hd, h]

theorem fate_eq_cycle_iff : p.fate v = .cycle ↔ p.OnCycle v := by
  rcases p.fate_spec v with ⟨hc, -, h⟩ | ⟨hc, -, h⟩ | ⟨hc, -, h⟩ <;> simp [hc, h]

theorem fate_eq_cycleDependent_iff : p.fate v = .cycleDependent ↔ ¬ p.OnCycle v ∧ p.Doomed v := by
  rcases p.fate_spec v with ⟨hc, hd, h⟩ | ⟨hc, hd, h⟩ | ⟨hc, hd, h⟩ <;> simp [hc, hd, h]

theorem fate_cases (v : Nat) : p.fate v = .ok ∨ p.fate v = .cycle ∨ p.fate v = .cycleDependent := by
  rcases p.fate_spec v with ⟨-, -, h⟩ | ⟨-, -, h⟩ | ⟨-, -, h⟩ <;> simp [h]

/-- Two different entities that reach each other lie on a cycle. -/
theorem onCycle_of_mutual {u : Nat} (hne : u ≠ v) (huv : ReflTransGen p.Waits u v) (hvu : ReflTransGen p.Waits v u) :
    p.OnCycle u := by
  rcases reflTransGen_iff_eq_or_transGen.mp huv with heq | hplus
  · exact absurd heq.symm hne
  · exact hplus.trans_left hvu

/-- An entity is doomed by an edge of its own, or because it waits for one that is doomed. -/
theorem doomed_iff_of_not_onCycle (hc : ¬ p.OnCycle v) : p.Doomed v ↔ p.Touches v ∨ ∃ t, p.Waits v t ∧ p.Doomed t := by
  constructor
  · rintro ⟨u, hReach, hu⟩
    rcases ReflTransGen.cases_head hReach with rfl | ⟨t, hvt, htu⟩
    · exact Or.inl (hu.resolve_left hc)
    · exact Or.inr ⟨t, hvt, u, htu, hu⟩
  · rintro (hTouch | ⟨t, hvt, u, htu, hu⟩)
    · exact ⟨v, .refl, Or.inr hTouch⟩
    · exact ⟨u, .head hvt htu, hu⟩

end Comptime.Pool
