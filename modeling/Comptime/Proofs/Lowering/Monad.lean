import Comptime.Lowering.Builder

/-!
# Computations of the builder, taken apart

What a successful or failed computation says about its parts.
-/

namespace Comptime.Build

variable {α β : Type} {x : Build α} {f : α → Build β} {b b' : Builder} {c : β} {e : Stop}

theorem bind_apply (x : Build α) (f : α → Build β) (b : Builder) :
    (x >>= f) b = match x b with
      | .ok a b' => f a b'
      | .error e b' => .error e b' := by
  show EStateM.bind x f b = _
  unfold EStateM.bind
  cases x b <;> rfl

theorem get_bind {f : Builder → Build β} : (get >>= f) b = f b b := bind_apply ..

theorem modify_bind {g : Builder → Builder} {f : Unit → Build β} : (modify g >>= f) b = f () (g b) := bind_apply ..

theorem bind_eq_ok : (x >>= f) b = .ok c b' ↔ ∃ a b1, x b = .ok a b1 ∧ f a b1 = .ok c b' := by
  rw [bind_apply]
  constructor
  · intro h
    cases hRun : x b with
    | ok a b1 => exact ⟨a, b1, rfl, by rwa [hRun] at h⟩
    | error e b1 => rw [hRun] at h; cases h
  · rintro ⟨a, b1, hRun, hRest⟩
    rw [hRun]
    exact hRest

theorem bind_eq_error :
    (x >>= f) b = .error e b' ↔ x b = .error e b' ∨ ∃ a b1, x b = .ok a b1 ∧ f a b1 = .error e b' := by
  rw [bind_apply]
  constructor
  · intro h
    cases hRun : x b with
    | ok a b1 => exact .inr ⟨a, b1, rfl, by rwa [hRun] at h⟩
    | error e1 b1 =>
      rw [hRun] at h
      cases h
      exact .inl rfl
  · rintro (hRun | ⟨a, b1, hRun, hRest⟩)
    · rw [hRun]
    · rw [hRun]
      exact hRest

/-- A step that is only taken if `p` holds. -/
theorem when_eq_ok {p : Prop} [Decidable p] {x : Build Unit} {f : Unit → Build β} :
    (if p then x >>= f else f ()) b = .ok c b' ↔ ∃ b1, (if p then x else pure ()) b = .ok () b1 ∧ f () b1 = .ok c b' := by
  by_cases hp : p
  · rw [if_pos hp, if_pos hp, bind_eq_ok]
    exact ⟨fun ⟨_, b1, h⟩ => ⟨b1, h⟩, fun ⟨b1, h⟩ => ⟨(), b1, h⟩⟩
  · rw [if_neg hp, if_neg hp]
    exact ⟨fun h => ⟨b, rfl, h⟩, fun ⟨b1, hPure, h⟩ => by cases hPure; exact h⟩

/-- One of two steps. -/
theorem ite_bind_eq_ok {p : Prop} [Decidable p] {y : Build α} :
    (if p then x >>= f else y >>= f) b = .ok c b' ↔ ∃ a b1, (if p then x else y) b = .ok a b1 ∧ f a b1 = .ok c b' := by
  by_cases hp : p
  · rw [if_pos hp, if_pos hp, bind_eq_ok]
  · rw [if_neg hp, if_neg hp, bind_eq_ok]

theorem discard_eq_ok {u : Unit} : Functor.discard x b = .ok u b' ↔ ∃ a, x b = .ok a b' := by
  have hBind : (Functor.discard x : Build Unit) = x >>= fun _ => pure () := rfl
  rw [hBind, bind_eq_ok]
  constructor
  · rintro ⟨a, b1, hRun, hPure⟩
    cases hPure
    exact ⟨a, hRun⟩
  · rintro ⟨a, hRun⟩
    exact ⟨a, b', hRun, rfl⟩

/-- A computation on the stream leaves the builder as it was. -/
theorem onStream_eq_ok {g : Stream → Except Stream.Misuse α} {a : α} :
    onStream g b = .ok a b' ↔ g b.stream = .ok a ∧ b = b' := by
  rw [onStream, get_bind]
  cases g b.stream with
  | ok a' =>
    constructor
    · rintro ⟨⟩
      exact ⟨rfl, rfl⟩
    · rintro ⟨⟨⟩, rfl⟩
      rfl
  | error e =>
    constructor
    · rintro ⟨⟩
    · rintro ⟨⟨⟩, -⟩

theorem orFault_eq_ok {o : Option α} {a : α} (hRun : orFault o b = .ok a b') : b' = b ∧ o = some a := by
  cases o with
  | none => cases hRun
  | some a' =>
    cases hRun
    exact ⟨rfl, rfl⟩

end Comptime.Build
