import Blush.Lib.Slots
import Blush.Lib.Transition
import Mathlib.Logic.Hydra

/-! What a system gets to whatever its scheduler does. Of its inner steps, which nobody outside asks
for, some are sure to be taken when they are the only ones left; others may come or not. -/
namespace Blush.Progress
open Transition
variable {σ α : Type*}

/-- The system gets to the goal by its inner steps, in whatever order they come: short of the goal
a sure one is enabled, and it still gets there after any of them. -/
inductive Settles (step : σ → α → Option σ) (sure inner : σ → α → Prop) (goal : σ → Prop) : σ → Prop
  | intro {s} (live : goal s ∨ ∃ a, sure s a ∧ (step s a).isSome = true)
      (next : ∀ a s', inner s a → step s a = some s' → Settles step sure inner goal s') :
      Settles step sure inner goal s

namespace Settles
variable {step : σ → α → Option σ} {sure inner : σ → α → Prop} {goal : σ → Prop} {s s' : σ}

/-- A system settles when an invariant keeps it live and every inner step goes down a
well-founded relation. -/
theorem of_measure {β : Type*} {r : β → β → Prop} (hr : WellFounded r) (measure : σ → β)
    {I : σ → Prop} (hstep : ∀ s a s', I s → inner s a → step s a = some s' →
      I s' ∧ r (measure s') (measure s))
    (hlive : ∀ s, I s → goal s ∨ ∃ a, sure s a ∧ (step s a).isSome = true) (hs : I s) :
    Settles step sure inner goal s := by
  generalize hm : measure s = m
  induction m using hr.induction generalizing s with
  | h m ih =>
    subst m
    refine .intro (hlive s hs) fun a s' ha h => ?_
    obtain ⟨hI,hlt⟩ := hstep s a s' hs ha h
    exact ih _ hlt hI rfl

end Settles

/-! ## Bags of things to do -/

open Relation
variable {r : α → α → Prop}

theorem set_add_singleton {l : List α} {i : ℕ} {a b : α} (h : l[i]? = some a) :
    (l.set i b : Multiset α) + {a} = (l : Multiset α) + {b} := by
  simpa using Slots.filterMap_set (b:=b) some h

/-- Overwriting one member exchanges what it adds to a sum. -/
theorem sum_map_set (f : α → ℕ) {l : List α} {i : ℕ} {a b : α} (h : l[i]? = some a) :
    ((l.set i b).map f).sum + f a = (l.map f).sum + f b := by
  have hs := congrArg (fun m => (Multiset.map f m).sum) (set_add_singleton (b:=b) h)
  simpa using hs

/-- Where one member goes down, so does the bag. -/
theorem cutExpand_set {l : List α} {i : ℕ} {a b : α} (h : l[i]? = some a) (hr : r b a) :
    CutExpand r (l.set i b : Multiset α) (l : Multiset α) :=
  ⟨{b},a,by simpa using hr,set_add_singleton h⟩

/-- One member makes way for smaller ones, and another one just goes. -/
theorem transGen_drop {m m' u : Multiset α} {a b : α} (hr : ∀ c ∈ u, r c a)
    (h : m' + {b} + {a} = m + u) : TransGen (CutExpand r) m' m :=
  .head ⟨0,b,by simp,(add_zero _).symm⟩ (.single ⟨u,a,hr,by simpa using h⟩)

/-- A bag whose members all stay or go down goes down, or stays. -/
theorem reflTransGen_map {β : Type*} {f g : β → α} {l : List β}
    (h : ∀ b ∈ l, f b = g b ∨ r (f b) (g b)) :
    ReflTransGen (CutExpand r) (l.map f : Multiset α) (l.map g : Multiset α) := by
  induction l with
  | nil => exact .refl
  | cons b l ih =>
    have hl := ih fun c hc => h c (List.mem_cons_of_mem _ hc)
    have hrest : ReflTransGen (CutExpand r) ({f b} + (l.map f : Multiset α))
        ({f b} + (l.map g : Multiset α)) :=
      hl.lift _ fun _ _ hc => (cutExpand_add_left _).mpr hc
    rw [List.map_cons,List.map_cons,← Multiset.cons_coe,← Multiset.cons_coe,
      ← Multiset.singleton_add,← Multiset.singleton_add]
    rcases h b List.mem_cons_self with he | ha
    · rw [he] at hrest ⊢
      exact hrest
    · exact hrest.tail (cutExpand_single_add ha _)

end Blush.Progress
