import Mathlib.Data.List.Induction

/-! A resource with users: it is opened for the first of them and closed after the last one. -/
namespace Blush.Lease

/-- The users at present, whether the resource is open, and the calls made on it: `true` opens
it and `false` closes it. -/
structure Ledger where
  users : ℕ
  isOpen : Bool
  calls : List Bool
  deriving DecidableEq, Repr

/-- A user comes, a user goes, or all that are left go at once. -/
inductive Op
  | acquire
  | release
  | shutdown
  deriving DecidableEq, Repr

/-- The calls alternate and the first one opens. -/
def Alternates (calls : List Bool) : Prop := ∀ i b, calls[i]? = some b → b = decide (i%2 = 0)

namespace Ledger

def empty : Ledger := ⟨0,false,[]⟩

def apply (l : Ledger) : Op → Ledger
  | .acquire =>
    if l.users = 0 then ⟨1,true,l.calls ++ [true]⟩ else { l with users := l.users+1 }
  | .release =>
    if l.users = 1 then ⟨0,false,l.calls ++ [false]⟩ else { l with users := l.users-1 }
  | .shutdown => if 0 < l.users then ⟨0,false,l.calls ++ [false]⟩ else l

/-- The resource is open exactly while it has users, and the calls say so. -/
structure Balanced (l : Ledger) : Prop where
  isOpen : l.isOpen = true ↔ 0 < l.users
  alternates : Alternates l.calls
  parity : l.calls.length%2 = l.isOpen.toNat

end Ledger

theorem Alternates.concat {calls : List Bool} {b : Bool} (h : Alternates calls)
    (hb : b = decide (calls.length%2 = 0)) : Alternates (calls ++ [b]) := by
  intro i x hx
  rcases Nat.lt_trichotomy i calls.length with hi | rfl | hi
  · rw [List.getElem?_append_left hi] at hx
    exact h i x hx
  · simp only [List.getElem?_concat_length,Option.some.injEq] at hx
    rw [← hx,hb]
  · rw [List.getElem?_eq_none (by simp; omega)] at hx
    simp at hx

/-- There is one more opening call than closing calls after an odd number of calls. -/
theorem Alternates.count {calls : List Bool} (h : Alternates calls) :
    calls.count true = calls.count false + calls.length%2 := by
  induction calls using List.reverseRecOn with
  | nil => rfl
  | append_singleton calls b ih =>
    have hpre : Alternates calls := by
      intro i x hx
      apply h i x
      rwa [List.getElem?_append_left (List.getElem?_eq_some_iff.mp hx).1]
    have hc := ih hpre
    have hb := h calls.length b (by simp)
    rw [List.count_append,List.count_append,List.length_append]
    by_cases hp : calls.length%2 = 0
    · rw [hp] at hc
      simp only [hp,decide_true] at hb
      subst hb
      simp only [List.count_singleton_self,List.length_singleton,
        List.count_singleton,beq_iff_eq,Bool.true_eq_false,if_false]
      omega
    · simp only [hp,decide_false] at hb
      subst hb
      simp only [List.count_singleton_self,List.length_singleton,
        List.count_singleton,beq_iff_eq,Bool.false_eq_true,if_false]
      omega

namespace Ledger.Balanced

theorem empty : Ledger.empty.Balanced := ⟨by simp [Ledger.empty],fun i b h => by
  simp [Ledger.empty] at h,rfl⟩

/-- An idle resource has seen an even number of calls, one in use an odd number. -/
theorem length_calls {l : Ledger} (h : l.Balanced) :
    l.calls.length%2 = if 0 < l.users then 1 else 0 := by
  rw [h.parity]
  by_cases hu : 0 < l.users
  · rw [if_pos hu,h.isOpen.mpr hu]
    rfl
  · have ho : l.isOpen = false := by simpa using mt h.isOpen.mp hu
    rw [if_neg hu,ho]
    rfl

/-- A call that opens an idle resource keeps the balance. -/
theorem opened {l : Ledger} (h : l.Balanced) (hu : l.users = 0) :
    Balanced ⟨1,true,l.calls ++ [true]⟩ := by
  have hp := h.length_calls
  rw [if_neg (by omega)] at hp
  refine ⟨by simp,h.alternates.concat (by simp [hp]),?_⟩
  rw [List.length_append,List.length_singleton,Bool.toNat_true]
  omega

/-- A call that closes a resource in use keeps the balance. -/
theorem closed {l : Ledger} (h : l.Balanced) (hu : 0 < l.users) :
    Balanced ⟨0,false,l.calls ++ [false]⟩ := by
  have hp := h.length_calls
  rw [if_pos hu] at hp
  refine ⟨by simp,h.alternates.concat (by simp [hp]),?_⟩
  rw [List.length_append,List.length_singleton,Bool.toNat_false]
  omega

theorem apply {l : Ledger} (h : l.Balanced) (op : Op) : (l.apply op).Balanced := by
  cases op with
  | acquire =>
    by_cases hu : l.users = 0
    · simpa [Ledger.apply,hu] using h.opened hu
    · have ho := h.isOpen.mpr (Nat.pos_of_ne_zero hu)
      rw [Ledger.apply,if_neg hu]
      exact ⟨by simp [ho],h.alternates,h.parity⟩
  | release =>
    by_cases hu : l.users = 1
    · simpa [Ledger.apply,hu] using h.closed (by omega)
    · rw [Ledger.apply,if_neg hu]
      refine ⟨?_,h.alternates,h.parity⟩
      rw [h.isOpen]
      show 0 < l.users ↔ 0 < l.users-1
      omega
  | shutdown =>
    by_cases hu : 0 < l.users
    · simpa [Ledger.apply,hu] using h.closed hu
    · simpa [Ledger.apply,hu] using h

end Ledger.Balanced
end Blush.Lease
