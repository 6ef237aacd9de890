import Mathlib.Data.Int.Notation
import Mathlib.Data.List.Basic

/-! Numbered entries: items are registered one after the other under a name each, every item gets
the number of items before it, and names can be cancelled. -/
namespace Blush.Ledger
variable {ι κ : Type*} {cancelled cancelled' : ι → Bool} {l : List (ι × κ)}

/-- The items not cancelled, with their numbers. -/
def entries (cancelled : ι → Bool) (l : List (ι × κ)) : List (ℤ × κ) :=
  (l.zipIdx.filter fun x => !cancelled x.1.1).map fun x => ((x.2 : ℤ),x.1.2)

theorem entries_map_snd (cancelled : ι → Bool) (l : List (ι × κ)) :
    (entries cancelled l).map Prod.snd = (l.filter fun x => !cancelled x.1).map Prod.snd := by
  rw [entries,List.map_map]
  have h : l.zipIdx.map Prod.fst = l := List.zipIdx_map_fst 0 l
  conv_rhs => rw [← h,List.filter_map,List.map_map]
  rfl

theorem entries_concat {x : ι × κ} (hx : cancelled x.1 = false) :
    entries cancelled (l ++ [x]) = entries cancelled l ++ [((l.length : ℤ),x.2)] := by
  simp [entries,List.zipIdx_append,hx]

/-- The numbers are below the number of items. -/
theorem lt_of_mem_entries {x : ℤ × κ} (hx : x ∈ entries cancelled l) : x.1 < l.length := by
  obtain ⟨y,hy,rfl⟩ := List.mem_map.mp hx
  have := List.snd_lt_of_mem_zipIdx (List.mem_filter.mp hy).1
  simpa using this

theorem entries_congr (h : ∀ x ∈ l, cancelled' x.1 = cancelled x.1) :
    entries cancelled' l = entries cancelled l := by
  rw [entries,entries]
  congr 1
  refine List.filter_congr fun x hx => ?_
  rw [h x.1 (List.fst_mem_of_mem_zipIdx hx)]

/-- To cancel one name is to erase its number. -/
theorem entries_cancel [DecidableEq ι] {n : ι} (id : ℤ)
    (hc : ∀ x ∈ l, cancelled' x.1 = (cancelled x.1 || n == x.1))
    (hid : ∀ (i : ℕ) (x : ι × κ), l[i]? = some x → (n = x.1 ↔ (i : ℤ) = id)) :
    entries cancelled' l = (entries cancelled l).filter fun x => x.1 ≠ id := by
  rw [entries,entries,List.filter_map,List.filter_filter]
  congr 1
  refine List.filter_congr fun x hx => ?_
  have hx' := hid x.2 x.1 (List.mk_mem_zipIdx_iff_getElem?.mp hx)
  rw [hc x.1 (List.fst_mem_of_mem_zipIdx hx)]
  by_cases hn : n = x.1.1
  · simp [hn,hx'.mp hn]
  · have hne : (x.2 : ℤ) ≠ id := fun he => hn (hx'.mpr he)
    simp [hn,hne]

end Blush.Ledger
