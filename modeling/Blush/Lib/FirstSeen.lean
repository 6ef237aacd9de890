import Mathlib.Data.List.Nodup

/-! Loops that go through a list and keep, for each key, the first item that has it. -/
namespace Blush.FirstSeen
variable {α κ : Type*}

/-- The items kept so far, and their keys. -/
structure Seen (key : α → κ) where
  items : List α
  keys : List κ
  keys_eq : keys = items.map key
  nodup : keys.Nodup

namespace Seen
variable {key : α → κ}

def empty (key : α → κ) : Seen key := ⟨[],[],rfl,.nil⟩

/-- Keep an item unless an earlier one has its key. -/
def add [DecidableEq κ] (s : Seen key) (x : α) : Seen key :=
  if h : key x ∈ s.keys then s
  else {
    items := s.items ++ [x]
    keys := s.keys ++ [key x]
    keys_eq := by rw [s.keys_eq,List.map_append,List.map_singleton]
    nodup := by
      refine s.nodup.append (List.nodup_singleton _) fun k hk hx => h ?_
      rwa [← List.mem_singleton.mp hx] }

@[simp] theorem empty_items (key : α → κ) : (empty key).items = [] := rfl
@[simp] theorem empty_keys (key : α → κ) : (empty key).keys = [] := rfl

/-- Different items of a finished loop have different keys. -/
theorem nodup_map (s : Seen key) : (s.items.map key).Nodup := s.keys_eq ▸ s.nodup

theorem exists_of_key_mem {s : Seen key} {k : κ} (h : k ∈ s.keys) : ∃ x ∈ s.items, key x = k := by
  rw [s.keys_eq] at h
  exact List.mem_map.mp h

theorem eq_of_key_eq {s : Seen key} {x y : α} (hx : x ∈ s.items) (hy : y ∈ s.items)
    (h : key x = key y) : x = y := List.inj_on_of_nodup_map s.nodup_map hx hy h

variable [DecidableEq κ]

theorem mem_keys_add {s : Seen key} {x : α} {k : κ} :
    k ∈ (s.add x).keys ↔ k ∈ s.keys ∨ k = key x := by
  rw [add]
  split
  · rename_i h
    exact ⟨.inl,fun hk => hk.elim id fun he => he ▸ h⟩
  · rw [List.mem_append,List.mem_singleton]

theorem mem_of_mem_add {s : Seen key} {x y : α} (h : y ∈ (s.add x).items) :
    y ∈ s.items ∨ y = x := by
  rw [add] at h
  split at h
  · exact .inl h
  · simpa using h

/-- The keys of a loop are those of all its items. -/
theorem mem_keys_foldl {l : List α} {s : Seen key} {k : κ} :
    k ∈ (l.foldl add s).keys ↔ k ∈ s.keys ∨ ∃ x ∈ l, key x = k := by
  induction l generalizing s with
  | nil => simp
  | cons x l ih =>
    rw [List.foldl_cons,ih,mem_keys_add,or_assoc,eq_comm (a:=k)]
    simp

theorem mem_of_mem_foldl {l : List α} {s : Seen key} {y : α} (h : y ∈ (l.foldl add s).items) :
    y ∈ s.items ∨ y ∈ l := by
  induction l generalizing s with
  | nil => exact .inl h
  | cons x l ih =>
    rw [List.foldl_cons] at h
    rcases ih h with h | h
    · rcases mem_of_mem_add h with h | rfl
      · exact .inl h
      · exact .inr List.mem_cons_self
    · exact .inr (List.mem_cons_of_mem _ h)

end Seen

variable [DecidableEq κ]

/-- The items that a loop over the whole list keeps. -/
def collect (key : α → κ) (l : List α) : List α := (l.foldl Seen.add (.empty key)).items

variable {key : α → κ} {l : List α}

theorem nodup_collect (key : α → κ) (l : List α) : ((collect key l).map key).Nodup :=
  Seen.nodup_map _

theorem mem_of_mem_collect {x : α} (h : x ∈ collect key l) : x ∈ l := by
  simpa using Seen.mem_of_mem_foldl h

theorem exists_mem_collect (key : α → κ) {x : α} (h : x ∈ l) :
    ∃ y ∈ collect key l, key y = key x :=
  Seen.exists_of_key_mem (Seen.mem_keys_foldl.mpr (.inr ⟨x,h,rfl⟩))

theorem collect_inj {x y : α} (hx : x ∈ collect key l) (hy : y ∈ collect key l)
    (h : key x = key y) : x = y := Seen.eq_of_key_eq hx hy h

end Blush.FirstSeen
