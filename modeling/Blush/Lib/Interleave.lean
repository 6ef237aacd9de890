import Mathlib.Algebra.BigOperators.Group.Finset.Piecewise
import Mathlib.Data.Fintype.Basic

/-! Sequences put together from parts, and bags that are shared out among owners. -/
namespace Blush.Interleave
open Function
variable {ι α : Type*} [DecidableEq ι]

/-- The whole takes its elements one at a time from the parts, each part in its order. -/
inductive Interleaves : (ι → List α) → List α → Prop
  | nil : Interleaves (fun _ => []) []
  | concat {parts whole} (before : Interleaves parts whole) (i : ι) (x : α) :
      Interleaves (update parts i (parts i ++ [x])) (whole ++ [x])

/-- One owner gives up what it holds for something else. -/
theorem sum_update [Fintype ι] (shares : ι → Multiset α) (i : ι) (new : Multiset α)
    {bag kept : Multiset α} (hbag : shares i + kept = bag) (hsum : bag = ∑ j, shares j) :
    new + kept = ∑ j, update shares i new j := by
  rw [Finset.sum_update_of_mem (Finset.mem_univ i)]
  have hsplit := Finset.sum_eq_add_sum_sdiff_singleton_of_mem (Finset.mem_univ i) shares
  congr 1
  apply add_left_cancel (a:=shares i)
  rw [hbag,hsum]
  exact hsplit

end Blush.Interleave
