import Mathlib.Data.Nat.Init

/-! Recursions with fuel: their outcomes, and that more fuel changes nothing but a lack of it. -/
namespace Blush.Fuel

/-- What a computation with fuel gives. -/
inductive Outcome (ε α : Type*)
  | ok (value : α)
  | error (e : ε)
  | outOfFuel
  deriving DecidableEq, Repr

namespace Outcome
variable {ε α β : Type*}

def bind (x : Outcome ε α) (f : α → Outcome ε β) : Outcome ε β :=
  match x with
  | ok a => f a
  | error e => error e
  | outOfFuel => outOfFuel

@[simp] theorem ok_bind (a : α) (f : α → Outcome ε β) : (ok a).bind f = f a := rfl
@[simp] theorem error_bind (e : ε) (f : α → Outcome ε β) : (error e).bind f = error e := rfl

theorem bind_eq_ok {x : Outcome ε α} {f : α → Outcome ε β} {b : β} :
    x.bind f = ok b ↔ ∃ a, x = ok a ∧ f a = ok b := by
  cases x <;> simp [bind]

/-- A step that finishes, and finishes with all it goes on with, finishes. -/
theorem bind_ne_outOfFuel {x : Outcome ε α} {f : α → Outcome ε β} (hx : x ≠ outOfFuel)
    (hf : ∀ a, x = ok a → f a ≠ outOfFuel) : x.bind f ≠ outOfFuel := by
  cases x with
  | ok a => exact hf a rfl
  | error => exact nofun
  | outOfFuel => exact absurd rfl hx

/-- With less fuel a computation gives the same, or lacks fuel. -/
def Below (x y : Outcome ε α) : Prop := x = outOfFuel ∨ x = y

theorem Below.refl (x : Outcome ε α) : Below x x := .inr rfl

theorem Below.trans {x y z : Outcome ε α} (h : Below x y) (h' : Below y z) : Below x z := by
  rcases h with h | rfl
  · exact .inl h
  · exact h'

theorem Below.bind {x y : Outcome ε α} {f g : α → Outcome ε β} (h : Below x y)
    (hf : ∀ a, Below (f a) (g a)) : Below (x.bind f) (y.bind g) := by
  rcases h with rfl | rfl
  · exact .inl rfl
  · cases x with
    | ok a => exact hf a
    | error | outOfFuel => exact .refl _

theorem Below.eq {x y : Outcome ε α} (h : Below x y) (hx : x ≠ outOfFuel) : x = y :=
  h.resolve_left hx

/-- One more unit of fuel at a time. -/
theorem below_of_le {f : ℕ → Outcome ε α} (h : ∀ n, Below (f n) (f (n+1))) {n m : ℕ}
    (hnm : n ≤ m) : Below (f n) (f m) := by
  induction hnm with
  | refl => exact .refl _
  | step _ ih => exact ih.trans (h _)

end Outcome
end Blush.Fuel
