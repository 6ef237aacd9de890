import Mathlib.Data.List.Forall2
import Mathlib.Data.Nat.Basic

/-! Passes that rewrite a buffer in place, with a pointer that reads and one that writes. As long as
no round writes more than it reads, the pass gives what it would give with a buffer of its own. -/
namespace Blush.InPlace
variable {α : Type*}

/-- One round sees what is left to read, and what the write pointer points at; it gives what it
writes and how far the read pointer goes. -/
abbrev Round (α : Type*) := (rest unwritten : List α) → List α × ℕ

/-- A round reads something, not past the end, and writes no more than it reads. -/
def Shrinks (round : Round α) : Prop :=
  ∀ rest unwritten, rest ≠ [] → (round rest unwritten).1.length ≤ (round rest unwritten).2 ∧
    0 < (round rest unwritten).2 ∧ (round rest unwritten).2 ≤ rest.length

/-- The pass over `buf`, with the pointers as indices. It gives the buffer and the write pointer. -/
def inPlace (round : Round α) : ℕ → List α → ℕ → ℕ → List α × ℕ
  | 0,buf,_,q => (buf,q)
  | fuel+1,buf,p,q =>
    if p < buf.length then
      let r := round (buf.drop p) (buf.drop q)
      inPlace round fuel (buf.take q ++ r.1 ++ buf.drop (q+r.1.length)) (p+r.2) (q+r.1.length)
    else (buf,q)

/-- The pass from `orig` to a buffer of its own: `skip` characters of the rest are read already. -/
def rewrite (round : Round α) (orig : List α) : ℕ → List α → List α → List α
  | _,[],out => out
  | skip+1,_::rest,out => rewrite round orig skip rest out
  | 0,a::rest,out =>
    let r := round (a::rest) (orig.drop out.length)
    rewrite round orig (r.2-1) rest (out ++ r.1)

/-- The whole text of a pass out of place. -/
def rewriteAll (round : Round α) (orig : List α) : List α := rewrite round orig 0 orig []

variable {round : Round α} {orig : List α}

theorem rewrite_skip (skip : ℕ) (rest out : List α) :
    rewrite round orig skip rest out = rewrite round orig 0 (rest.drop skip) out := by
  induction rest generalizing skip with
  | nil => rw [List.drop_nil,rewrite,rewrite]
  | cons a rest ih =>
    cases skip with
    | zero => rfl
    | succ skip => rw [rewrite,ih,List.drop_succ_cons]

/-- One round out of place. -/
theorem rewrite_round (h : Shrinks round) {rest : List α} (hr : rest ≠ []) (out : List α) :
    rewrite round orig 0 rest out =
      rewrite round orig 0 (rest.drop (round rest (orig.drop out.length)).2)
        (out ++ (round rest (orig.drop out.length)).1) := by
  obtain ⟨a,rest,rfl⟩ := List.exists_cons_of_ne_nil hr
  have hpos := (h (a::rest) (orig.drop out.length) hr).2.1
  rw [rewrite,rewrite_skip]
  congr 1
  rw [← Nat.succ_pred_eq_of_pos hpos,List.drop_succ_cons]
  rfl

/-- What a round leaves of the buffer behind the write pointer. -/
theorem drop_written {buf w : List α} {q : ℕ} (hq : q ≤ buf.length) {n : ℕ}
    (hn : q+w.length ≤ n) :
    (buf.take q ++ w ++ buf.drop (q+w.length)).drop n = buf.drop n := by
  have hlen : (buf.take q ++ w).length = q+w.length := by
    rw [List.length_append,List.length_take,Nat.min_eq_left hq]
  rw [List.drop_append,hlen,List.drop_eq_nil_of_le (by omega),List.nil_append,List.drop_drop]
  congr 1
  omega

theorem take_written {buf w : List α} {q : ℕ} (hq : q ≤ buf.length) :
    (buf.take q ++ w ++ buf.drop (q+w.length)).take (q+w.length) = buf.take q ++ w := by
  have hl : (buf.take q ++ w).length = q+w.length := by
    rw [List.length_append,List.length_take,Nat.min_eq_left hq]
  rw [List.take_append_of_le_length (Nat.le_of_eq hl.symm),
    List.take_of_length_le (Nat.le_of_eq hl)]

theorem length_written {buf w : List α} {q : ℕ} (hq : q+w.length ≤ buf.length) :
    (buf.take q ++ w ++ buf.drop (q+w.length)).length = buf.length := by
  simp only [List.length_append,List.length_take,List.length_drop]
  omega

/-- The pointers of a pass in place: the text is unwritten from the write pointer on, which is not
ahead of the read pointer. -/
structure Behind (orig buf : List α) (p q : ℕ) : Prop where
  q_le : q ≤ p
  p_le : p ≤ buf.length
  unwritten : buf.drop q = orig.drop q

theorem Behind.unread {buf : List α} {p q : ℕ} (h : Behind orig buf p q) :
    buf.drop p = orig.drop p := by
  obtain ⟨d,rfl⟩ := Nat.exists_eq_add_of_le h.q_le
  rw [← List.drop_drop,h.unwritten,List.drop_drop]

theorem Behind.next (hs : Shrinks round) {buf : List α} {p q : ℕ} (h : Behind orig buf p q)
    (hp : p < buf.length) :
    let r := round (buf.drop p) (buf.drop q)
    Behind orig (buf.take q ++ r.1 ++ buf.drop (q+r.1.length)) (p+r.2) (q+r.1.length) ∧
      (buf.take q ++ r.1 ++ buf.drop (q+r.1.length)).length = buf.length := by
  intro r
  have hne : buf.drop p ≠ [] := by simpa using hp
  obtain ⟨hw,-,hr⟩ : r.1.length ≤ r.2 ∧ 0 < r.2 ∧ r.2 ≤ (buf.drop p).length :=
    hs (buf.drop p) (buf.drop q) hne
  have hq := h.q_le
  rw [List.length_drop] at hr
  have hlen : (buf.take q ++ r.1 ++ buf.drop (q+r.1.length)).length = buf.length :=
    length_written (by omega)
  refine ⟨⟨by omega,by omega,?_⟩,hlen⟩
  rw [drop_written (by omega) le_rfl,← List.drop_drop,h.unwritten,List.drop_drop]

/-- From any point of the pass on, in place and out of place write the same. -/
theorem take_inPlace_from (hs : Shrinks round) (fuel : ℕ) {buf : List α} {p q : ℕ}
    (h : Behind orig buf p q) (hf : buf.length ≤ p+fuel) :
    (inPlace round fuel buf p q).1.take (inPlace round fuel buf p q).2 =
      rewrite round orig 0 (orig.drop p) (buf.take q) := by
  induction fuel generalizing buf p q with
  | zero =>
    rw [inPlace,← h.unread,List.drop_eq_nil_of_le (by omega),rewrite]
  | succ fuel ih =>
    rw [inPlace]
    split
    · rename_i hp
      have hne : buf.drop p ≠ [] := by simpa using hp
      obtain ⟨hb,hlen⟩ := h.next hs hp
      have hpos := (hs (buf.drop p) (buf.drop q) hne).2.1
      have hq : q ≤ buf.length := Nat.le_trans h.q_le h.p_le
      dsimp only at hb hlen ⊢
      rw [ih hb (by omega),take_written hq,← h.unread,rewrite_round hs hne,List.length_take,
        Nat.min_eq_left hq,← h.unwritten,h.unread,List.drop_drop]
    · rename_i hp
      rw [← h.unread,List.drop_eq_nil_of_le (by omega),rewrite]

/-- A whole pass in place writes what the pass out of place does. -/
theorem take_inPlace (hs : Shrinks round) (orig : List α) :
    (inPlace round orig.length orig 0 0).1.take (inPlace round orig.length orig 0 0).2 =
      rewriteAll round orig := by
  rw [take_inPlace_from hs _ ⟨le_rfl,Nat.zero_le _,rfl⟩ (by omega)]
  rfl

/-! ## Rounds that do not look at what the write pointer points at -/

/-- What a pass writes from `rest` on, where the buffer does not matter. -/
def rewritten (round : Round α) (rest : List α) : List α := rewrite round [] 0 rest []

/-- The rounds from `rest` on do not depend on what is unwritten. -/
def Blind (round : Round α) : Prop := ∀ rest u u', round rest u = round rest u'

/-- Induction over the rounds of a pass. -/
theorem round_induction (hs : Shrinks round) {motive : List α → Prop} (nil : motive [])
    (next : ∀ rest, rest ≠ [] → motive (rest.drop (round rest []).2) → motive rest)
    (rest : List α) : motive rest := by
  suffices ∀ n, ∀ rest : List α, rest.length ≤ n → motive rest from this _ rest (Nat.le_refl _)
  intro n
  induction n with
  | zero =>
    intro rest hn
    obtain rfl : rest = [] := List.eq_nil_of_length_eq_zero (by omega)
    exact nil
  | succ n ih =>
    intro rest hn
    by_cases hr : rest = []
    · rwa [hr]
    · have hpos := (hs rest [] hr).2.1
      refine next rest hr (ih _ ?_)
      rw [List.length_drop]
      omega

theorem rewrite_eq_rewritten (hs : Shrinks round) (hb : Blind round) (rest out : List α) :
    rewrite round orig 0 rest out = out ++ rewritten round rest := by
  induction rest using round_induction hs generalizing orig out with
  | nil => rw [rewritten,rewrite,rewrite,List.append_nil]
  | next rest hr ih =>
    rw [rewritten,rewrite_round hs hr,rewrite_round hs hr,hb rest _ [],hb rest (List.drop _ []) [],
      ih,ih,List.nil_append,List.append_assoc]

theorem rewriteAll_eq_rewritten (hs : Shrinks round) (hb : Blind round) (orig : List α) :
    rewriteAll round orig = rewritten round orig := rewrite_eq_rewritten hs hb orig []

@[simp] theorem rewritten_nil (round : Round α) : rewritten round [] = [] := rfl

theorem rewritten_round (hs : Shrinks round) (hb : Blind round) {rest : List α} (hr : rest ≠ []) :
    rewritten round rest =
      (round rest []).1 ++ rewritten round (rest.drop (round rest []).2) := by
  rw [rewritten,rewrite_round hs hr,List.drop_nil,List.nil_append]
  exact rewrite_eq_rewritten hs hb _ _

/-! ## Passes that differ in what they write -/

/-- The rounds from a point of the pass on: what is left to read, and what is written. -/
inductive Reached (round : Round α) (orig : List α) :
    (start : List α × List α) → List α × List α → Prop
  | refl (start : List α × List α) : Reached round orig start start
  | next {rest out : List α} {point : List α × List α} (hr : rest ≠ [])
      (h : Reached round orig (rest.drop (round rest (orig.drop out.length)).2,
        out ++ (round rest (orig.drop out.length)).1) point) :
      Reached round orig (rest,out) point

/-- Rounds that read and write as much as each other. -/
def SameLengths (f g : Round α) : Prop :=
  ∀ rest u, rest ≠ [] → rest.length ≤ u.length →
    (f rest u).2 = (g rest u).2 ∧ (f rest u).1.length = (g rest u).1.length

/-- Texts in two parts that are as long as each other, up to where they end. -/
theorem takeWhile_append_eq_iff {p : α → Bool} {a a' b b' : List α} (h : a.length = a'.length) :
    (a ++ b).takeWhile p = (a' ++ b').takeWhile p ↔ a.takeWhile p = a'.takeWhile p ∧
      ((∀ x ∈ a, p x) → b.takeWhile p = b'.takeWhile p) := by
  induction a generalizing a' with
  | nil =>
    obtain rfl := List.eq_nil_of_length_eq_zero h.symm
    simp
  | cons x a ih =>
    obtain ⟨y,a',rfl⟩ := List.exists_cons_of_length_eq_add_one h.symm
    rw [List.cons_append,List.cons_append,List.takeWhile_cons,List.takeWhile_cons,
      List.takeWhile_cons,List.takeWhile_cons]
    have ih := ih (Nat.succ.inj h)
    cases hx : p x with
    | false => cases hy : p y <;> simp [hx]
    | true =>
      cases hy : p y with
      | false => simp
      | true => simp [ih,hx,and_assoc]

/-- Two such passes write the same from a point on, up to where the texts end, if they do so in
every round in front of the end. -/
theorem takeWhile_rewrite_eq_iff {p : α → Bool} {f g : Round α} (hf : Shrinks f) (hg : Shrinks g)
    (h : SameLengths f g) (n : ℕ) {rest out out' : List α} (hn : rest.length ≤ n)
    (hout : out.length = out'.length) (hq : out.length+rest.length ≤ orig.length) :
    (rewrite f orig 0 rest out).takeWhile p = (rewrite g orig 0 rest out').takeWhile p ↔
      out.takeWhile p = out'.takeWhile p ∧ ∀ point, Reached f orig (rest,out) point →
        (∀ x ∈ point.2, p x) → point.1 ≠ [] →
        (f point.1 (orig.drop point.2.length)).1.takeWhile p =
          (g point.1 (orig.drop point.2.length)).1.takeWhile p := by
  induction n generalizing rest out out' with
  | zero =>
    obtain rfl : rest = [] := List.eq_nil_of_length_eq_zero (by omega)
    rw [rewrite,rewrite]
    refine ⟨fun he => ⟨he,fun point hp _ hne => ?_⟩,fun he => he.1⟩
    cases hp with
    | refl => exact absurd rfl hne
    | next hr => exact absurd rfl hr
  | succ n ih =>
    by_cases hr : rest = []
    · subst hr
      exact ih (Nat.zero_le _) hout hq
    · obtain ⟨hw,hpos,hle⟩ := hf rest (orig.drop out.length) hr
      obtain ⟨hread,hlen⟩ := h rest (orig.drop out.length) hr (by rw [List.length_drop]; omega)
      rw [rewrite_round hf hr,rewrite_round hg hr,← hout,← hread,
        ih (by rw [List.length_drop]; omega) (by simp only [List.length_append]; omega)
          (by rw [List.length_append,List.length_drop]; omega),
        takeWhile_append_eq_iff hout]
      constructor
      · rintro ⟨⟨he,hround⟩,hp⟩
        refine ⟨he,fun point hpoint hall hne => ?_⟩
        cases hpoint with
        | refl => exact hround hall
        | next _ hpoint => exact hp point hpoint hall hne
      · rintro ⟨he,hp⟩
        exact ⟨⟨he,fun hall => hp _ (.refl _) hall hr⟩,fun point hpoint hall hne =>
          hp point (.next hr hpoint) hall hne⟩

theorem takeWhile_rewriteAll_eq_iff {p : α → Bool} {f g : Round α} (hf : Shrinks f)
    (hg : Shrinks g) (h : SameLengths f g) (orig : List α) :
    (rewriteAll f orig).takeWhile p = (rewriteAll g orig).takeWhile p ↔
      ∀ point, Reached f orig (orig,[]) point → (∀ x ∈ point.2, p x) → point.1 ≠ [] →
        (f point.1 (orig.drop point.2.length)).1.takeWhile p =
          (g point.1 (orig.drop point.2.length)).1.takeWhile p :=
  (takeWhile_rewrite_eq_iff hf hg h orig.length (Nat.le_refl _) rfl (by simp)).trans (by simp)

/-- What two such passes write is related place by place if it is so in every round. -/
theorem forall₂_rewrite {R : α → α → Prop} {f g : Round α} (hf : Shrinks f) (hg : Shrinks g)
    (h : SameLengths f g) (hR : ∀ rest u, rest ≠ [] → rest.length ≤ u.length →
      List.Forall₂ R (f rest u).1 (g rest u).1) (n : ℕ) {rest out out' : List α}
    (hn : rest.length ≤ n) (hout : List.Forall₂ R out out')
    (hq : out.length+rest.length ≤ orig.length) :
    List.Forall₂ R (rewrite f orig 0 rest out) (rewrite g orig 0 rest out') := by
  induction n generalizing rest out out' with
  | zero =>
    obtain rfl : rest = [] := List.eq_nil_of_length_eq_zero (by omega)
    rw [rewrite,rewrite]
    exact hout
  | succ n ih =>
    by_cases hr : rest = []
    · subst hr
      exact ih (Nat.zero_le _) hout hq
    · have hu : rest.length ≤ (orig.drop out.length).length := by
        rw [List.length_drop]
        omega
      obtain ⟨hw,hpos,hle⟩ := hf rest (orig.drop out.length) hr
      rw [rewrite_round hf hr,rewrite_round hg hr,← hout.length_eq,← (h rest _ hr hu).1]
      refine ih (by rw [List.length_drop]; omega) ?_ ?_
      · exact List.rel_append hout (hR rest _ hr hu)
      · rw [List.length_append,List.length_drop]
        omega

/-! ## Texts that are put together from pieces that are read in one round each -/

/-- A pass over pieces, each of which is read in one round in front of the ones behind it, writes
what the rounds write. -/
theorem rewrite_flatMap {β : Type*} (hs : Shrinks round) {enc dec : β → List α} {l : List β}
    (hne : ∀ b, enc b ≠ [])
    (h : ∀ b l', b::l' <:+ l → ∀ u, round (enc b ++ l'.flatMap enc) u = (dec b,(enc b).length))
    (out : List α) :
    rewrite round orig 0 (l.flatMap enc) out = out ++ l.flatMap dec := by
  induction l generalizing out with
  | nil => rw [List.flatMap_nil,List.flatMap_nil,rewrite,List.append_nil]
  | cons b l ih =>
    have hb := h b l List.suffix_rfl
    rw [List.flatMap_cons,List.flatMap_cons,rewrite_round hs (by simp [hne b]),hb,List.drop_left,
      ih fun b' l' hl => h b' l' (hl.trans (List.suffix_cons b l)),List.append_assoc]

theorem rewriteAll_flatMap {β : Type*} (hs : Shrinks round) (enc dec : β → List α) (l : List β)
    (hne : ∀ b, enc b ≠ [])
    (h : ∀ b l', b::l' <:+ l → ∀ u, round (enc b ++ l'.flatMap enc) u = (dec b,(enc b).length)) :
    rewriteAll round (l.flatMap enc) = l.flatMap dec := rewrite_flatMap hs hne h []

end Blush.InPlace
