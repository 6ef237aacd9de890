import Mathlib.Algebra.Order.Group.Multiset
import Mathlib.Tactic.Abel

/-! Counting over a table of slots when one slot is overwritten. -/
namespace Blush.Slots
variable {α : Type*}

/-- Overwriting one slot exchanges its old contribution to a count for the new one. -/
theorem countP_set {p : α → Bool} {l : List α} {i : ℕ} {a b : α} (h : l[i]? = some a) :
    (l.set i b).countP p + (p a).toNat = l.countP p + (p b).toNat := by
  obtain ⟨hi,rfl⟩ := List.getElem?_eq_some_iff.mp h
  have hc := List.countP_set (p := p) (a := b) hi
  have hp : p l[i] = true → 0 < l.countP p := fun hp =>
    List.countP_pos_iff.mpr ⟨l[i],List.getElem_mem hi,hp⟩
  cases ha : p l[i] <;> cases hb : p b <;>
    simp only [ha,hb,Bool.toNat_true,Bool.toNat_false,if_true,Bool.false_eq_true,if_false,
      forall_const] at hc hp ⊢ <;> omega

/-- A map that does not change any slot's contribution does not change a count. -/
theorem countP_map_same {p : α → Bool} {f : α → α} (l : List α) (h : ∀ a, p (f a) = p a) :
    (l.map f).countP p = l.countP p := by
  rw [List.countP_map]
  exact List.countP_congr fun a _ => by simp [h]

theorem getElem?_set_self {l : List α} {i : ℕ} {a b : α} (h : l[i]? = some a) :
    (l.set i b)[i]? = some b := by
  obtain ⟨hi,-⟩ := List.getElem?_eq_some_iff.mp h
  simp [hi]

theorem mem_set_self {l : List α} {i : ℕ} {a b : α} (h : l[i]? = some a) : b ∈ l.set i b :=
  List.mem_of_getElem? (getElem?_set_self h)

/-- A value other than the overwritten one is still in some slot. -/
theorem mem_set_of_ne {l : List α} {i : ℕ} {a b c : α} (h : l[i]? = some a) (hc : c ∈ l)
    (hne : c ≠ a) : c ∈ l.set i b := by
  obtain ⟨j,hj⟩ := List.mem_iff_getElem?.mp hc
  have hij : i ≠ j := by
    rintro rfl
    exact hne (Option.some.inj (hj.symm.trans h))
  exact List.mem_of_getElem? ((List.getElem?_set_ne hij).trans hj)

/-- Some slot still has a property when the overwritten one did not have it. -/
theorem exists_set {P : α → Prop} {l : List α} {i : ℕ} {a b : α} (h : l[i]? = some a)
    (hP : ¬P a) (hl : ∃ c ∈ l, P c) : ∃ c ∈ l.set i b, P c := by
  obtain ⟨c,hc,hp⟩ := hl
  exact ⟨c,mem_set_of_ne h hc fun he => hP (he ▸ hp),hp⟩

theorem forall_set {P : α → Prop} {l : List α} {i : ℕ} {b : α} (hb : P b)
    (hl : ∀ c ∈ l, P c) : ∀ c ∈ l.set i b, P c := by
  intro c hc
  rcases List.mem_or_eq_of_mem_set hc with hc | rfl
  · exact hl c hc
  · exact hb

/-- Reading a slot after an update: the written value, or the old one elsewhere. -/
theorem getElem?_set_cases {l : List α} {i j : ℕ} {b c : α} (h : (l.set i b)[j]? = some c) :
    (j = i ∧ c = b) ∨ (j ≠ i ∧ l[j]? = some c) := by
  by_cases hj : j = i
  · subst j
    have hi : i < l.length := by
      have := (List.getElem?_eq_some_iff.mp h).1
      simpa using this
    left
    simpa [hi,eq_comm] using h
  · right
    exact ⟨hj,by simpa [List.getElem?_set_ne (Ne.symm hj)] using h⟩

/-- A slot keeps a property that the value written has if the overwritten one had it. -/
theorem exists_getElem?_set {P : α → Prop} {l : List α} {i j : ℕ} {a b : α} (h : l[i]? = some a)
    (hP : P a → P b) (hj : ∃ c, l[j]? = some c ∧ P c) : ∃ c, (l.set i b)[j]? = some c ∧ P c := by
  obtain ⟨c,hc,hp⟩ := hj
  by_cases hij : i = j
  · subst j
    obtain rfl := Option.some.inj (h.symm.trans hc)
    exact ⟨b,getElem?_set_self h,hP hp⟩
  · exact ⟨c,(List.getElem?_set_ne hij).trans hc,hp⟩

/-- Which slots have a property after one was overwritten. -/
theorem exists_set_iff {p : α → Bool} {l : List α} {i : ℕ} {a b : α} (h : l[i]? = some a) (j : ℕ) :
    (∃ c, (l.set i b)[j]? = some c ∧ p c = true) ↔
      (j = i ∧ p b = true) ∨ (j ≠ i ∧ ∃ c, l[j]? = some c ∧ p c = true) := by
  by_cases hj : j = i
  · subst j
    simp [getElem?_set_self h]
  · simp [List.getElem?_set_ne (Ne.symm hj),hj]

/-- The same slots have it when the written value has it like the overwritten one. -/
theorem exists_set_same {p : α → Bool} {l : List α} {i : ℕ} {a b : α} (h : l[i]? = some a)
    (hp : p b = p a) (j : ℕ) :
    (∃ c, (l.set i b)[j]? = some c ∧ p c = true) ↔ ∃ c, l[j]? = some c ∧ p c = true := by
  rw [exists_set_iff h]
  by_cases hj : j = i
  · subst j
    simp [h,hp]
  · simp [hj]

/-- Overwriting a slot by a value with the same image. -/
theorem map_set_of_eq {β : Type*} {f : α → β} {l : List α} {i : ℕ} {a b : α} (h : l[i]? = some a)
    (hf : f b = f a) : (l.set i b).map f = l.map f := by
  obtain ⟨hi,rfl⟩ := List.getElem?_eq_some_iff.mp h
  rw [List.map_set,hf]
  apply List.ext_getElem?
  intro j
  by_cases hj : i = j
  · subst j
    simp [hi]
  · rw [List.getElem?_set_ne hj]

/-- A slot of a table that grew by one. -/
theorem getElem?_concat_cases {l : List α} {i : ℕ} {a b : α} (h : (l ++ [a])[i]? = some b) :
    (i = l.length ∧ b = a) ∨ l[i]? = some b := by
  rcases Nat.lt_or_ge i l.length with hi | hi
  · rw [List.getElem?_append_left hi] at h
    exact .inr h
  · have hlt := (List.getElem?_eq_some_iff.mp h).1
    rw [List.length_append,List.length_singleton] at hlt
    obtain rfl : i = l.length := by omega
    rw [List.getElem?_concat_length] at h
    exact .inl ⟨rfl,(Option.some.inj h).symm⟩

theorem getElem?_concat_of_some {l : List α} {i : ℕ} {a b : α} (h : l[i]? = some b) :
    (l ++ [a])[i]? = some b := by
  rw [List.getElem?_append_left (List.getElem?_eq_some_iff.mp h).1]
  exact h

theorem filterMap_cons_toList {β : Type*} (f : α → Option β) (a : α) (l : List α) :
    (a::l).filterMap f = (f a).toList ++ l.filterMap f := by
  cases h : f a <;> simp [h]

/-- Overwriting one slot exchanges what it contributes to a collected multiset. -/
theorem filterMap_set {β : Type*} (f : α → Option β) {l : List α} {i : ℕ} {a b : α}
    (h : l[i]? = some a) :
    (((l.set i b).filterMap f : List β) : Multiset β) + (f a).toList =
      (l.filterMap f : List β) + (f b).toList := by
  induction l generalizing i with
  | nil => simp at h
  | cons c l ih =>
    cases i with
    | zero =>
      obtain rfl : c = a := by simpa using h
      rw [List.set_cons_zero,filterMap_cons_toList,filterMap_cons_toList]
      simp only [← Multiset.coe_add]
      abel
    | succ i =>
      have hi := ih (i:=i) (by simpa using h)
      rw [List.set_cons_succ,filterMap_cons_toList,filterMap_cons_toList]
      simp only [← Multiset.coe_add,add_assoc,hi]

/-! ## Overwriting and filtering -/

/-- An overwritten slot that stays selected is some slot of the selection. -/
theorem exists_filter_set {p : α → Bool} {l : List α} {i : ℕ} {a b : α} (h : l[i]? = some a)
    (ha : p a = true) (hb : p b = true) :
    ∃ j, (l.filter p)[j]? = some a ∧ (l.set i b).filter p = (l.filter p).set j b := by
  induction l generalizing i with
  | nil => simp at h
  | cons c l ih =>
    cases i with
    | zero =>
      obtain rfl : c = a := by simpa using h
      exact ⟨0,by simp [ha],by simp [ha,hb]⟩
    | succ i =>
      obtain ⟨j,hj,hs⟩ := ih (by simpa using h)
      rw [List.set_cons_succ]
      by_cases hc : p c = true
      · exact ⟨j+1,by simpa [hc] using hj,by simp [hc,hs]⟩
      · exact ⟨j,by simpa [hc] using hj,by simp [hc,hs]⟩

/-- A slot outside the selection may be overwritten by another such value. -/
theorem filter_set_of_not {p : α → Bool} {l : List α} {i : ℕ} {a b : α} (h : l[i]? = some a)
    (ha : p a = false) (hb : p b = false) : (l.set i b).filter p = l.filter p := by
  induction l generalizing i with
  | nil => simp at h
  | cons c l ih =>
    cases i with
    | zero =>
      obtain rfl : c = a := by simpa using h
      simp [ha,hb]
    | succ i =>
      rw [List.set_cons_succ,List.filter_cons,List.filter_cons,ih (by simpa using h)]

/-- When the slot leaves the selection, its key leaves the selected keys. -/
theorem map_filter_set {β : Type*} [DecidableEq β] {f : α → β} {p : α → Bool} {l : List α}
    {i : ℕ} {a b : α} (h : l[i]? = some a) (ha : p a = true) (hb : p b = false)
    (hn : ((l.filter p).map f).Nodup) :
    ((l.set i b).filter p).map f = ((l.filter p).map f).filter (· ≠ f a) := by
  induction l generalizing i with
  | nil => simp at h
  | cons c l ih =>
    cases i with
    | zero =>
      obtain rfl : c = a := by simpa using h
      rw [List.set_cons_zero,List.filter_cons_of_neg (by simp [hb]),List.filter_cons_of_pos ha,
        List.map_cons,List.filter_cons_of_neg (by simp)]
      rw [List.filter_cons_of_pos ha,List.map_cons,List.nodup_cons] at hn
      symm
      rw [List.filter_eq_self]
      intro x hx
      rw [decide_eq_true_eq]
      rintro rfl
      exact hn.1 hx
    | succ i =>
      have hi : l[i]? = some a := by simpa using h
      rw [List.set_cons_succ]
      by_cases hc : p c = true
      · rw [List.filter_cons_of_pos hc,List.map_cons,List.nodup_cons] at hn
        have hne : f c ≠ f a := by
          intro he
          apply hn.1
          rw [he]
          exact List.mem_map_of_mem (List.mem_filter.mpr ⟨List.mem_of_getElem? hi,ha⟩)
        rw [List.filter_cons_of_pos hc,List.filter_cons_of_pos hc,List.map_cons,List.map_cons,
          List.filter_cons_of_pos (by simpa using hne),ih hi hn.2]
      · rw [List.filter_cons_of_neg hc] at hn ⊢
        rw [List.filter_cons_of_neg hc]
        exact ih hi hn

/-! ## Tallies

A classification assigns to each slot the class it counts for, if any. -/

variable {κ : Type*} [DecidableEq κ]

/-- How many slots belong to the class `k`. -/
def tally (f : α → Option κ) (l : List α) (k : κ) : ℕ := l.countP fun a => decide (f a = some k)

/-- One slot leaves the class `x` for the class `y`, where `none` is outside all classes. -/
def Moves (m m' : κ → ℕ) (x y : Option κ) : Prop :=
  ∀ k, m' k + (if x = some k then 1 else 0) = m k + if y = some k then 1 else 0

theorem tally_set (f : α → Option κ) {l : List α} {i : ℕ} {a b : α} (h : l[i]? = some a) :
    Moves (tally f l) (tally f (l.set i b)) (f a) (f b) := fun k => by
  have hc := countP_set (p := fun a => decide (f a = some k)) (b := b) h
  by_cases ha : f a = some k <;> by_cases hb : f b = some k <;> simpa [tally,ha,hb] using hc

theorem tally_concat (f : α → Option κ) (l : List α) (a : α) :
    Moves (tally f l) (tally f (l ++ [a])) none (f a) := fun k => by
  by_cases h : f a = some k <;> simp [tally,List.countP_append,h]

theorem tally_tail (f : α → Option κ) (a : α) (l : List α) :
    Moves (tally f (a::l)) (tally f l) (f a) none := fun k => by
  by_cases h : f a = some k <;> simp [tally,h]

/-- Two classes together. -/
theorem tally_add (f : α → Option κ) (l : List α) {k k' : κ} (h : k ≠ k') :
    tally f l k + tally f l k' = l.countP fun a => decide (f a = some k ∨ f a = some k') := by
  induction l with
  | nil => rfl
  | cons a l ih =>
    simp only [tally,List.countP_cons] at ih ⊢
    rw [← ih]
    by_cases h1 : f a = some k
    · simp [h1,h]
      omega
    · by_cases h2 : f a = some k' <;> simp [h1,h2,h.symm]
      omega

theorem tally_eq_zero {f : α → Option κ} {l : List α} {k : κ} (h : ∀ a ∈ l, f a ≠ some k) :
    tally f l k = 0 := List.countP_eq_zero.mpr fun a ha => by simpa using h a ha

namespace Moves
variable {m m' n n' : κ → ℕ} {x y z : Option κ}

/-- A move inside one class changes no count. -/
theorem eq (h : Moves m m' x x) : m' = m := funext fun k => by have := h k; omega

theorem add_right (h : Moves m m' x y) (n : κ → ℕ) : Moves (m+n) (m'+n) x y := fun k => by
  have := h k
  simp only [Pi.add_apply]
  omega

theorem add_left (n : κ → ℕ) (h : Moves m m' x y) : Moves (n+m) (n+m') x y := by
  rw [add_comm n,add_comm n]
  exact h.add_right n

/-- Two tables side by side: what leaves one for the outside enters the other. -/
theorem add (h : Moves m m' x none) (h' : Moves n n' none y) : Moves (m+n) (m'+n') x y :=
  fun k => by
    have := h k
    have := h' k
    simp only [Pi.add_apply]
    simp only [reduceCtorEq,if_false] at *
    omega

end Moves
end Blush.Slots
