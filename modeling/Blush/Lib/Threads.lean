import Mathlib.Data.List.Basic

/-! A state that goes through a list: every element takes it over from the one before, changes it
and leaves a result. The elements can be lists again. -/
namespace Blush
variable {α β σ : Type*}

/-- The results of a list in its order, and the state after it. -/
inductive Threads (R : α → σ → β → σ → Prop) : List α → σ → List β → σ → Prop
  | nil {s} : Threads R [] s [] s
  | cons {a s b t as bs s'} (first : R a s b t) (rest : Threads R as t bs s') :
      Threads R (a::as) s (b::bs) s'

namespace Threads
variable {R : α → σ → β → σ → Prop} {as : List α} {bs : List β} {s s' : σ}

theorem length_eq (h : Threads R as s bs s') : bs.length = as.length := by
  induction h with
  | nil => rfl
  | cons _ _ ih => rw [List.length_cons,List.length_cons,ih]

/-- A preorder that every element follows relates the states before and after the list. -/
theorem rel {P : σ → σ → Prop} (hrefl : ∀ s, P s s) (htrans : ∀ s t u, P s t → P t u → P s u)
    (hR : ∀ a s b s', R a s b s' → P s s') (h : Threads R as s bs s') : P s s' := by
  induction h with
  | nil => exact hrefl _
  | cons first _ ih => exact htrans _ _ _ (hR _ _ _ _ first) ih

/-- The element at a place, with its result and the states before and after it. -/
theorem get {P : σ → σ → Prop} (hrefl : ∀ s, P s s) (htrans : ∀ s t u, P s t → P t u → P s u)
    (hR : ∀ a s b s', R a s b s' → P s s') (h : Threads R as s bs s') {i : ℕ} {a : α}
    (ha : as[i]? = some a) : ∃ b t t', bs[i]? = some b ∧ R a t b t' ∧ P s t ∧ P t' s' := by
  induction h generalizing i with
  | nil => simp at ha
  | @cons a' s b t as bs s' first rest ih =>
    cases i with
    | zero =>
      obtain rfl : a' = a := by simpa using ha
      exact ⟨b,s,t,rfl,first,hrefl s,rest.rel hrefl htrans hR⟩
    | succ i =>
      obtain ⟨b',u,u',hb,hu,hsu,hus⟩ := ih (by simpa using ha)
      exact ⟨b',u,u',hb,hu,htrans _ _ _ (hR _ _ _ _ first) hsu,hus⟩

/-- When the state is a list that every element appends to, the list appends what they do. -/
theorem appends {ε δ : Type*} {R : α → List ε → β → List ε → Prop} {s s' : List ε}
    {f : ε → Option δ} {g : α → β → List δ}
    (hR : ∀ a s b s', R a s b s' → ∃ l, s' = s ++ l ∧ l.filterMap f = g a b)
    (h : Threads R as s bs s') :
    ∃ l, s' = s ++ l ∧ l.filterMap f = (List.zipWith g as bs).flatten := by
  induction h with
  | nil => exact ⟨[],(List.append_nil _).symm,rfl⟩
  | cons first _ ih =>
    obtain ⟨l,rfl,hl⟩ := hR _ _ _ _ first
    obtain ⟨l',rfl,hl'⟩ := ih
    refine ⟨l ++ l',List.append_assoc .. ,?_⟩
    rw [List.filterMap_append,hl,hl',List.zipWith_cons_cons,List.flatten_cons]

end Threads
end Blush
