-- SUMMARY: Fallible computations that may run out of fuel.
import Mathlib.Tactic.Common

/-!
# Computations with fuel

A recursive computation is given fuel and is undefined where the fuel is used up;
otherwise it fails or has a result. It has enough fuel if it fails or has a result.
-/

namespace Fuel

abbrev Fuelled (ε : Type) := ExceptT ε Option

variable {ε α β : Type}

/-- The fuel is used up. -/
def exhausted : Fuelled ε α := ExceptT.mk none

/-- A computation that needs no fuel. -/
def lift (x : Except ε α) : Fuelled ε α := ExceptT.mk (some x)

/-- The computation has enough fuel. -/
def Enough (x : Fuelled ε α) : Prop := x.run ≠ none

theorem lift_ok (a : α) : lift (.ok a : Except ε α) = pure a := rfl

@[simp] theorem lift_eq_pure {x : Except ε α} {a : α} : lift x = pure a ↔ x = .ok a := by
  constructor
  · intro h
    exact Option.some.inj (congrArg ExceptT.run h)
  · rintro rfl
    rfl

@[simp] theorem pure_eq_pure {a b : α} : (pure a : Fuelled ε α) = pure b ↔ a = b := by
  rw [← lift_ok a, lift_eq_pure]
  exact Except.ok.injEq a b ▸ Iff.rfl

@[simp] theorem throw_ne_pure {e : ε} {a : α} : (throw e : Fuelled ε α) ≠ pure a := by
  intro h
  cases congrArg ExceptT.run h

/-- A sequence succeeds when both parts do. -/
theorem bind_eq_pure {x : Fuelled ε α} {f : α → Fuelled ε β} {b : β} :
    (x >>= f) = pure b ↔ ∃ a, x = pure a ∧ f a = pure b := by
  constructor
  · intro h
    match x with
    | none => cases congrArg ExceptT.run h
    | some (.error e) => cases congrArg ExceptT.run h
    | some (.ok a) => exact ⟨a, rfl, h⟩
  · rintro ⟨a, rfl, h⟩
    exact h

/-- The computation has enough fuel, and what it gives is as said. -/
structure Yields (x : Fuelled ε α) (P : α → Prop) : Prop where
  enough : Enough x
  result : ∀ a, x = pure a → P a

theorem Yields.pure {P : α → Prop} {a : α} (h : P a) : Yields (pure a : Fuelled ε α) P :=
  ⟨by rintro ⟨⟩, fun _ hb => pure_eq_pure.mp hb ▸ h⟩

theorem yields_throw {P : α → Prop} {e : ε} : Yields (throw e : Fuelled ε α) P :=
  ⟨by rintro ⟨⟩, fun _ h => absurd h throw_ne_pure⟩

theorem yields_lift {P : α → Prop} {x : Except ε α} (h : ∀ a, x = .ok a → P a) : Yields (lift x) P :=
  ⟨by rintro ⟨⟩, fun a ha => h a (lift_eq_pure.mp ha)⟩

theorem Yields.bind {P : α → Prop} {Q : β → Prop} {x : Fuelled ε α} {f : α → Fuelled ε β}
    (hx : Yields x P) (hf : ∀ a, P a → Yields (f a) Q) : Yields (x >>= f) Q := by
  match x with
  | none => exact absurd rfl hx.enough
  | some (.error e) => exact ⟨by rintro ⟨⟩, fun b h => by cases congrArg ExceptT.run h⟩
  | some (.ok a) => exact hf a (hx.result a rfl)

end Fuel
