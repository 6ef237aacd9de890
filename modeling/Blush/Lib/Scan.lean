import Mathlib.Data.List.Basic
import Mathlib.Data.List.Infix
import Mathlib.Data.List.TakeWhile

/-! Scanning a text: what stands in front of the first delimiter, and the longest run of characters
of a kind. -/
namespace Blush.Scan
variable {α : Type*}

/-! ## Progress -/

/-- `rest` is what a step that reads something leaves of `s`. -/
def Behind (rest s : List α) : Prop := ∃ run, run ≠ [] ∧ run ++ rest = s

namespace Behind
variable {r s t : List α}

theorem suffix (h : Behind r s) : r <:+ s := let ⟨run,_,h⟩ := h; ⟨run,h⟩

theorem length_lt (h : Behind r s) : r.length < s.length := by
  obtain ⟨run,hne,rfl⟩ := h
  have := List.length_pos_iff.mpr hne
  rw [List.length_append]
  omega

theorem trans_suffix (h : Behind r s) (h' : s <:+ t) : Behind r t := by
  obtain ⟨run,hne,rfl⟩ := h
  obtain ⟨run',rfl⟩ := h'
  exact ⟨run' ++ run,by simp [hne],List.append_assoc _ _ _⟩

theorem trans (h : Behind r s) (h' : Behind s t) : Behind r t := h.trans_suffix h'.suffix

theorem cons (a : α) (s : List α) : Behind s (a::s) := ⟨[a],List.cons_ne_nil _ _,rfl⟩

end Behind

theorem behind_of_suffix {r s t : List α} (h : Behind s t) (hr : r <:+ s) : Behind r t := by
  obtain ⟨run,hne,rfl⟩ := h
  obtain ⟨run',rfl⟩ := hr
  exact ⟨run ++ run',by simp [hne],List.append_assoc _ _ _⟩

/-! ## Prefixes -/

section Prefixes
variable [BEq α] [LawfulBEq α]

@[simp] theorem dropPrefix?_append (d rest : List α) : (d ++ rest).dropPrefix? d = some rest :=
  List.dropPrefix?_append_of_beq rest (BEq.refl d)

theorem eq_of_dropPrefix? {s d rest : List α} (h : s.dropPrefix? d = some rest) : s = d ++ rest := by
  obtain ⟨d',hs,hd⟩ := List.dropPrefix?_eq_some_iff.mp h
  rw [hs,eq_of_beq hd]

theorem dropPrefix?_eq_none {s d : List α} (h : ¬ d <+: s) : s.dropPrefix? d = none := by
  rw [Option.eq_none_iff_forall_ne_some]
  intro rest hr
  exact h ⟨rest,(eq_of_dropPrefix? hr).symm⟩

/-- A delimiter that begins with another character than the text. -/
theorem dropPrefix?_cons_ne {a b : α} (h : a ≠ b) (s d : List α) :
    (a::s).dropPrefix? (b::d) = none :=
  dropPrefix?_eq_none fun hp => h (List.cons_prefix_cons.mp hp).1.symm

/-! ## Delimiters -/

/-- The delimiter `d` behind `c` is the first one, whatever follows. -/
def Closes (d c : List α) : Prop := ¬ d <:+: c ++ d.dropLast

instance [DecidableEq α] (d c : List α) : Decidable (Closes d c) :=
  inferInstanceAs (Decidable ¬ _)

theorem dropInfix?_append {d c : List α} (h : Closes d c) (rest : List α) :
    (c ++ d ++ rest).dropInfix? d = some (c,rest) := by
  refine List.dropInfix?_eq_some_iff.mpr ⟨⟨d,rfl,BEq.refl d⟩,fun p d' s hs hd => ?_⟩
  obtain rfl := eq_of_beq hd
  refine Nat.le_of_not_lt fun hlt => h ?_
  have hpre : p ++ d' <+: c ++ d' ++ rest := ⟨s,hs.symm⟩
  have hcut : c ++ d'.dropLast <+: c ++ d' ++ rest := by
    rw [List.append_assoc]
    exact (List.prefix_append_right_inj c).mpr ((List.dropLast_prefix d').trans ⟨rest,rfl⟩)
  have hlen : (p ++ d').length ≤ (c ++ d'.dropLast).length := by
    simp only [List.length_append,List.length_dropLast]
    omega
  exact (List.suffix_append p d').isInfix.trans
    (List.prefix_of_prefix_length_le hpre hcut hlen).isInfix

theorem eq_of_dropInfix? {d s c rest : List α} (h : s.dropInfix? d = some (c,rest)) :
    s = c ++ d ++ rest := by
  obtain ⟨⟨d',hs,hd⟩,-⟩ := List.dropInfix?_eq_some_iff.mp h
  rw [hs,eq_of_beq hd]

theorem closes_of_dropInfix? {d s c rest : List α} (hd : d ≠ [])
    (h : s.dropInfix? d = some (c,rest)) : Closes d c := by
  rintro ⟨p,q,hpq⟩
  have hs := eq_of_dropInfix? h
  have hlen := congrArg List.length hpq
  have hpos := List.length_pos_iff.mpr hd
  simp only [List.length_append,List.length_dropLast] at hlen
  have hcut : s = p ++ d ++ (q ++ ([d.getLast hd] ++ rest)) :=
    calc s = c ++ (d.dropLast ++ [d.getLast hd]) ++ rest := by
          rw [List.dropLast_append_getLast hd,hs]
      _ = p ++ d ++ q ++ [d.getLast hd] ++ rest := by
          rw [hpq]
          simp only [List.append_assoc]
      _ = p ++ d ++ (q ++ ([d.getLast hd] ++ rest)) := by simp only [List.append_assoc]
  have hfirst := (List.dropInfix?_eq_some_iff.mp h).2 p d _ hcut (BEq.refl d)
  omega

theorem behind_of_dropInfix? {d s c rest : List α} (hd : d ≠ [])
    (h : s.dropInfix? d = some (c,rest)) : Behind rest s :=
  ⟨c ++ d,by simp [hd],(eq_of_dropInfix? h).symm⟩

end Prefixes

/-- A delimiter of one character. -/
theorem closes_singleton {a : α} {c : List α} : Closes [a] c ↔ a ∉ c := by
  rw [Closes,List.dropLast_singleton,List.append_nil,List.singleton_infix_iff]

/-! ## Runs -/

section Runs
variable {p : α → Bool} {run rest : List α}

theorem dropWhile_append (hrun : ∀ a ∈ run, p a) (hrest : ∀ a ∈ rest.head?, ¬ p a) :
    (run ++ rest).dropWhile p = rest := by
  rw [List.dropWhile_append_of_pos hrun]
  cases rest with
  | nil => rfl
  | cons a rest => exact List.dropWhile_cons_of_neg (hrest a rfl)

theorem takeWhile_append (hrun : ∀ a ∈ run, p a) (hrest : ∀ a ∈ rest.head?, ¬ p a) :
    (run ++ rest).takeWhile p = run := by
  rw [List.takeWhile_append_of_pos hrun]
  cases rest with
  | nil => rw [List.takeWhile_nil,List.append_nil]
  | cons a rest => rw [List.takeWhile_cons_of_neg (hrest a rfl),List.append_nil]

theorem length_takeWhile_lt {s : List α} {a : α} (h : a ∈ s) (ha : ¬ p a) :
    (s.takeWhile p).length < s.length := by
  refine Nat.lt_of_le_of_ne (List.takeWhile_prefix p).length_le fun he => ha ?_
  exact List.takeWhile_eq_self_iff.mp ((List.takeWhile_prefix p).eq_of_length he) a h

end Runs

end Blush.Scan
