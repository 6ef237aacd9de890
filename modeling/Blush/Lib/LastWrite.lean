import Mathlib.Data.List.AList
import Blush.Lib.Transition

/-! A slot that some writes of a list, or some steps of a run, hit holds what the last of them
wrote. -/
namespace Blush.LastWrite
open Transition
variable {σ ω β : Type*} {apply : σ → ω → σ} {hit : ω → Option β}

theorem get_foldl (get : σ → Option β) (h : ∀ s w, get (apply s w) = (hit w).or (get s))
    (ws : List ω) (s : σ) :
    get (ws.foldl apply s) = ((ws.filterMap hit).getLast?).or (get s) := by
  induction ws generalizing s with
  | nil => rfl
  | cons w ws ih =>
    rw [List.foldl_cons,ih,h,← Option.or_assoc]
    congr 1
    cases hw : hit w with
    | none => simp [hw]
    | some x => cases hl : (ws.filterMap hit).getLast? <;> simp [hw,hl,List.getLast?_cons]

/-- The same for a slot that always holds a value. -/
theorem slot_foldl (get : σ → β) (h : ∀ s w, get (apply s w) = (hit w).getD (get s))
    (ws : List ω) (s : σ) :
    get (ws.foldl apply s) = ((ws.filterMap hit).getLast?).getD (get s) := by
  have hget := get_foldl (fun s => some (get s)) (fun s w => show _ = (hit w).or _ by
    rw [h]
    cases hit w <;> rfl) ws s
  cases hl : (ws.filterMap hit).getLast? <;> simpa [hl] using hget

/-- The same for the steps of a run. -/
theorem get_run {α : Type*} {step : σ → α → Option σ} (get : σ → Option β)
    (hit : σ × α → Option β)
    (h : ∀ s a s', step s a = some s' → get s' = (hit (s,a)).or (get s))
    {start final : σ} {steps : List (σ × α)} (hr : Run step start steps final) :
    get final = ((steps.filterMap hit).getLast?).or (get start) := by
  induction hr with
  | refl => rfl
  | @next steps s a s' _ hs ih =>
    rw [h s a s' hs,ih,← Option.or_assoc]
    congr 1
    cases hw : hit (s,a) with
    | none => simp [hw]
    | some x => simp [hw]

/-- A write to a map hits the slot of its key. -/
theorem lookup_insert {κ : Type*} [DecidableEq κ] (m : AList fun _ : κ => β) (k k' : κ) (b : β) :
    (m.insert k b).lookup k' = (if k = k' then some b else none).or (m.lookup k') := by
  by_cases h : k = k'
  · subst h
    simp
  · rw [AList.lookup_insert_ne (Ne.symm h),if_neg h]
    rfl

end Blush.LastWrite
