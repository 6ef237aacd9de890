import Mathlib.Data.List.Sort

/-! Binary min-heaps in a vector, for any implementation of the standard heap
algorithms. The contract fixes which elements are where only as far as the standard does:
the result is a permutation, it is heap ordered, and `popHeap` moves the front to the back. -/
namespace Blush.Heap
variable {α β : Type*} [LinearOrder β]

/-- No element is smaller than its parent at index `(i-1)/2`. -/
def IsHeap (key : α → β) (l : List α) : Prop :=
  ∀ i a b, 0 < i → l[(i-1)/2]? = some a → l[i]? = some b → key a ≤ key b

theorem isHeap_nil (key : α → β) : IsHeap key [] := by
  intro i a b _ _ hb
  simp at hb

/-- The front of a heap is minimal; induction climbs from an index to its parent. -/
theorem IsHeap.front_le {key : α → β} {x : α} {l : List α} (h : IsHeap key (x::l)) :
    ∀ y ∈ x::l, key x ≤ key y := by
  have hi : ∀ (i : ℕ) (y : α), (x::l)[i]? = some y → key x ≤ key y := by
    intro i
    induction i using Nat.strongRecOn with
    | ind i ih =>
      intro y hy
      rcases Nat.eq_zero_or_pos i with rfl | hpos
      · obtain rfl : x = y := by simpa using hy
        exact le_rfl
      · have hlt : (i-1)/2 < i := by omega
        have hlen := (List.getElem?_eq_some_iff.mp hy).1
        have hp : (x::l)[(i-1)/2]? = some (x::l)[(i-1)/2] :=
          List.getElem?_eq_getElem (hlt.trans hlen)
        exact (ih _ hlt _ hp).trans (h i _ y hpos hp hy)
  intro y hy
  obtain ⟨i,hlt,rfl⟩ := List.getElem_of_mem hy
  exact hi i _ (List.getElem?_eq_getElem hlt)

/-- A list sorted by key is a heap. -/
theorem isHeap_of_pairwise {key : α → β} {l : List α}
    (h : l.Pairwise fun a b => key a ≤ key b) : IsHeap key l := by
  intro i a b hpos ha hb
  obtain ⟨hi,rfl⟩ := List.getElem?_eq_some_iff.mp ha
  obtain ⟨hj,rfl⟩ := List.getElem?_eq_some_iff.mp hb
  exact List.pairwise_iff_getElem.mp h _ _ hi hj (by omega)

/-- The contract of `push_heap` and `pop_heap` on a vector. -/
structure Algorithms (key : α → β) where
  pushHeap : List α → List α
  popHeap : List α → List α
  push_perm : ∀ l x, IsHeap key l → (pushHeap (l ++ [x])).Perm (l ++ [x])
  push_isHeap : ∀ l x, IsHeap key l → IsHeap key (pushHeap (l ++ [x]))
  pop_spec : ∀ x l, IsHeap key (x::l) →
    ∃ rest, popHeap (x::l) = rest ++ [x] ∧ rest.Perm l ∧ IsHeap key rest

/-- A vector that is a heap. -/
structure MinHeap (key : α → β) where
  items : List α
  isHeap : IsHeap key items

namespace MinHeap
variable {key : α → β}

def empty (key : α → β) : MinHeap key := ⟨[],isHeap_nil key⟩

def front? (h : MinHeap key) : Option α := h.items.head?

/-- `push_back` followed by `push_heap`. -/
def push (H : Algorithms key) (h : MinHeap key) (x : α) : MinHeap key :=
  ⟨H.pushHeap (h.items ++ [x]),H.push_isHeap _ _ h.isHeap⟩

/-- `pop_heap`, then take the last element off the vector. -/
def pop (H : Algorithms key) (h : MinHeap key) : Option (α × MinHeap key) :=
  match hl : h.items with
  | [] => none
  | x::l => some ((H.popHeap (x::l)).getLastD x,⟨(H.popHeap (x::l)).dropLast,by
      obtain ⟨rest,hr,-,hh⟩ := H.pop_spec x l (hl ▸ h.isHeap)
      simpa [hr] using hh⟩)

@[simp] theorem empty_items (key : α → β) : (empty key).items = [] := rfl

theorem push_perm (H : Algorithms key) (h : MinHeap key) (x : α) :
    (h.push H x).items.Perm (x::h.items) :=
  (H.push_perm _ _ h.isHeap).trans (List.perm_append_singleton x h.items)

theorem countP_push (H : Algorithms key) (h : MinHeap key) (x : α) (p : α → Bool) :
    (h.push H x).items.countP p = h.items.countP p + (p x).toNat := by
  rw [(h.push_perm H x).countP_eq p,List.countP_cons]
  cases p x <;> rfl

/-- Popping takes the front and leaves a permutation of the rest. -/
theorem pop_spec (H : Algorithms key) {h h' : MinHeap key} {x : α} (hp : h.pop H = some (x,h')) :
    h.front? = some x ∧ h.items.Perm (x::h'.items) := by
  unfold pop at hp
  split at hp
  · cases hp
  · rename_i y l hl
    obtain ⟨rest,hr,hperm,-⟩ := H.pop_spec y l (hl ▸ h.isHeap)
    obtain ⟨rfl,rfl⟩ := Prod.mk.inj (Option.some.inj hp)
    refine ⟨by simp [front?,hl,hr],?_⟩
    simpa [hr] using hl ▸ List.Perm.cons y hperm.symm

theorem front?_of_pop_eq_none {H : Algorithms key} {h : MinHeap key} (hp : h.pop H = none) :
    h.front? = none := by
  unfold pop at hp
  split at hp
  · rename_i hl
    simp [front?,hl]
  · cases hp

theorem countP_pop (H : Algorithms key) {h h' : MinHeap key} {x : α}
    (hp : h.pop H = some (x,h')) (p : α → Bool) :
    h.items.countP p = h'.items.countP p + (p x).toNat := by
  rw [(pop_spec H hp).2.countP_eq p,List.countP_cons]
  cases p x <;> rfl

theorem front_le {h : MinHeap key} {x : α} (hx : h.front? = some x) :
    ∀ y ∈ h.items, key x ≤ key y := by
  cases hl : h.items with
  | nil => simp [front?,hl] at hx
  | cons z l =>
    obtain rfl : z = x := by simpa [front?,hl] using hx
    exact (hl ▸ h.isHeap : IsHeap key (z::l)).front_le

end MinHeap

/-- The contract can be met: keep the whole vector sorted. -/
def insertionAlgorithms (key : α → β) : Algorithms key where
  pushHeap l := l.insertionSort fun a b => key a ≤ key b
  popHeap
    | [] => []
    | x::l => (l.insertionSort fun a b => key a ≤ key b) ++ [x]
  push_perm l x _ := List.perm_insertionSort _ _
  push_isHeap l x _ := isHeap_of_pairwise (by
    have : Std.Total fun a b : α => key a ≤ key b := ⟨fun a b => le_total _ _⟩
    have : IsTrans α fun a b => key a ≤ key b := ⟨fun _ _ _ => le_trans⟩
    exact List.pairwise_insertionSort _ _)
  pop_spec x l _ := ⟨_,rfl,List.perm_insertionSort _ _,isHeap_of_pairwise (by
    have : Std.Total fun a b : α => key a ≤ key b := ⟨fun a b => le_total _ _⟩
    have : IsTrans α fun a b => key a ≤ key b := ⟨fun _ _ _ => le_trans⟩
    exact List.pairwise_insertionSort _ _)⟩

end Blush.Heap
