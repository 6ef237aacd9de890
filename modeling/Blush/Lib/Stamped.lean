import Mathlib.Order.Nat
import Blush.Lib.Transition

/-! Entries with the time they were written at. When a system writes an entry exactly if that
changes its value, the time says since when the entry has had its value. -/
namespace Blush.Stamped
open Transition
variable {σ α κ β : Type*}

/-- The value of an entry. -/
def value (entry : Option (β × ℕ)) : Option β := entry.map Prod.fst

/-- Every step takes one unit of time, leaves an entry alone if its value stays the same, and writes
it with the time before the step if not. -/
structure Writes (step : σ → α → Option σ) (clock : σ → ℕ) (entries : σ → κ → Option (β × ℕ)) :
    Prop where
  tick : ∀ {s a s'}, step s a = some s' → clock s' = clock s+1
  same : ∀ {s a s' k}, step s a = some s' → value (entries s' k) = value (entries s k) →
    entries s' k = entries s k
  changed : ∀ {s a s' k b t}, step s a = some s' → entries s' k = some (b,t) →
    value (entries s k) ≠ some b → t = clock s

/-- Since the time of an entry, and no longer, it has had its value. -/
structure Since (clock : σ → ℕ) (entries : σ → κ → Option (β × ℕ)) (visited : List σ) (k : κ)
    (b : β) (t : ℕ) : Prop where
  kept : ∀ v ∈ visited, t < clock v → entries v k = some (b,t)
  changed : ∀ v ∈ visited, clock v = t → value (entries v k) ≠ some b

theorem Since.concat {clock : σ → ℕ} {entries : σ → κ → Option (β × ℕ)} {visited : List σ} {k : κ}
    {b : β} {t : ℕ} {s : σ} (h : Since clock entries visited k b t)
    (hkept : t < clock s → entries s k = some (b,t))
    (hchanged : clock s = t → value (entries s k) ≠ some b) :
    Since clock entries (visited ++ [s]) k b t where
  kept v hv := by
    rcases List.mem_append.mp hv with hv | hv
    · exact h.kept v hv
    · exact List.mem_singleton.mp hv ▸ hkept
  changed v hv := by
    rcases List.mem_append.mp hv with hv | hv
    · exact h.changed v hv
    · exact List.mem_singleton.mp hv ▸ hchanged

namespace Writes
variable {step : σ → α → Option σ} {clock : σ → ℕ} {entries : σ → κ → Option (β × ℕ)}
  {start s : σ} {steps : List (σ × α)}

theorem clock_lt (h : Writes step clock entries) (hr : Run step start steps s) :
    ∀ v ∈ steps.map Prod.fst, clock v < clock s := by
  induction hr with
  | refl => simp
  | @next steps s a s' _ hs ih =>
    have htick := h.tick hs
    intro v hv
    rw [List.map_append] at hv
    rcases List.mem_append.mp hv with hv | hv
    · exact (ih v hv).trans (by omega)
    · obtain rfl : v = s := by simpa using hv
      omega

/-- Over every run from a start without entries. -/
theorem since (h : Writes step clock entries) (hr : Run step start steps s)
    (hstart : ∀ k, entries start k = none) {k : κ} {b : β} {t : ℕ}
    (he : entries s k = some (b,t)) :
    t < clock s ∧ Since clock entries (steps.map Prod.fst ++ [s]) k b t := by
  induction hr generalizing k b t with
  | refl => simp [hstart] at he
  | @next steps s a s' before hs ih =>
    have htick := h.tick hs
    rw [List.map_append]
    by_cases hb : value (entries s k) = some b
    · have hsame : entries s' k = entries s k := h.same hs (by rw [hb,he]; rfl)
      obtain ⟨hlt,hsince⟩ := ih (hsame.symm.trans he)
      exact ⟨by omega,hsince.concat (fun _ => he) (by omega)⟩
    · obtain rfl := h.changed hs he hb
      have hlt := h.clock_lt before
      have hbefore : Since clock entries (steps.map Prod.fst) k b (clock s) :=
        ⟨fun v hv htv => absurd htv (hlt v hv).le.not_gt,fun v hv htv => absurd htv (hlt v hv).ne⟩
      have hnow := hbefore.concat (s:=s) (fun hlt => absurd hlt (lt_irrefl _)) fun _ => hb
      exact ⟨by omega,hnow.concat (fun _ => he) (by omega)⟩

end Writes
end Blush.Stamped
