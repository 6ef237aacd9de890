import Mathlib.Data.List.Basic
import Mathlib.Tactic.Common

/-! Lists with a bound on their length, which keeps what is appended from growing too long. -/
namespace Blush

@[ext] structure BoundedList (α : Type*) where
  list : List α
  bound : ℕ
  length_le : list.length ≤ bound

namespace BoundedList
variable {α : Type*} {b b' : BoundedList α} {l l' : List α} {bound : ℕ}

/-- A list within a bound, unless it is too long. -/
def ofList? (bound : ℕ) (l : List α) : Option (BoundedList α) :=
  if h : l.length ≤ bound then some ⟨l,bound,h⟩ else none

def empty (bound : ℕ) : BoundedList α := ⟨[],bound,Nat.zero_le _⟩

/-- The list whose bound is its length. -/
def exact (l : List α) : BoundedList α := ⟨l,l.length,Nat.le_refl _⟩

def clear (b : BoundedList α) : BoundedList α := empty b.bound

def appendAll (b : BoundedList α) (l : List α) : Option (BoundedList α) :=
  ofList? b.bound (b.list ++ l)

def append (b : BoundedList α) (v : α) : Option (BoundedList α) := b.appendAll [v]

theorem ofList?_eq_some : ofList? bound l = some b ↔ b.list = l ∧ b.bound = bound := by
  rw [ofList?]
  constructor
  · intro h
    obtain ⟨_,h⟩ := Option.dite_none_right_eq_some.mp h
    obtain rfl := Option.some.inj h
    exact ⟨rfl,rfl⟩
  · rintro ⟨rfl,rfl⟩
    exact dif_pos b.length_le

theorem ofList?_eq_none : ofList? bound l = none ↔ bound < l.length := by
  rw [ofList?]
  split <;> simp <;> omega

theorem ofList?_nil (bound : ℕ) : ofList? bound ([] : List α) = some (empty bound) :=
  dif_pos (Nat.zero_le _)

theorem appendAll_eq_some :
    b.appendAll l = some b' ↔ b'.list = b.list ++ l ∧ b'.bound = b.bound := ofList?_eq_some

theorem appendAll_nil : b.appendAll [] = some b := by simp [appendAll_eq_some]

/-- Appending fails exactly when the list is as long as its bound. -/
theorem append_eq_none (v : α) : b.append v = none ↔ b.list.length = b.bound := by
  have hle := b.length_le
  rw [append,appendAll,ofList?_eq_none]
  simp
  omega

/-- Appending in two portions. -/
theorem appendAll_append (h : b.appendAll l = some b') :
    b.appendAll (l ++ l') = b'.appendAll l' := by
  obtain ⟨hlist,hbound⟩ := appendAll_eq_some.mp h
  rw [appendAll,appendAll,hlist,hbound,List.append_assoc]

end BoundedList
end Blush
