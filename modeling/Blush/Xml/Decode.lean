import Blush.Xml.StrPair

/-! `GetStr` works in place: it never overwrites what it has not read, but an '&' that begins no
reference leaves whatever the write pointer points at. What is written behind a NUL does not count. -/
namespace Blush.Xml
open InPlace

/-- An '&' that begins neither a character reference nor a reference to an entity. -/
def isStray (flags : Flags) (rest : List UInt8) : Bool :=
  flags.needsEntityProcessing && rest.head? = some ampersand &&
    rest.tail.head? ≠ some numberSign && (entity? rest.tail).isNone

/-- A round of a decoder that keeps such an '&'. -/
def decodeRound (flags : Flags) : Round UInt8 := fun rest unwritten =>
  if isStray flags rest then ([ampersand],1) else getStrRound flags rest unwritten

theorem getStrRound_stray {flags : Flags} {rest : List UInt8} (h : isStray flags rest)
    (unwritten : List UInt8) : getStrRound flags rest unwritten = (unwritten.take 1,1) := by
  cases rest with
  | nil => simp [isStray] at h
  | cons c p =>
    simp only [isStray,Bool.and_eq_true,decide_eq_true_eq,List.head?_cons,Option.some.injEq,
      List.tail_cons,Option.isNone_iff_eq_none] at h
    obtain ⟨⟨⟨hflag,rfl⟩,hnum⟩,hent⟩ := h
    have hcr : ampersand ≠ cr := by decide
    have hlf : ampersand ≠ lf := by decide
    simp [getStrRound,hflag,hcr,hlf,of_decide_eq_true hnum,hent]

theorem decodeRound_shrinks (flags : Flags) : Shrinks (decodeRound flags) := by
  intro rest unwritten hne
  rw [decodeRound]
  split
  · exact ⟨Nat.le_refl 1,Nat.one_pos,List.length_pos_iff.mpr hne⟩
  · exact getStrRound_shrinks flags rest unwritten hne

theorem sameLengths_decodeRound (flags : Flags) :
    SameLengths (getStrRound flags) (decodeRound flags) := by
  intro rest unwritten hne hle
  have hpos := List.length_pos_iff.mpr hne
  rw [decodeRound]
  split
  · rename_i h
    rw [getStrRound_stray h]
    refine ⟨rfl,?_⟩
    rw [List.length_take]
    simp only [List.length_cons,List.length_nil]
    omega
  · exact ⟨rfl,rfl⟩

/-- The value that keeps every such '&'. -/
def decode (flags : Flags) (piece : List UInt8) : List UInt8 :=
  valueOf flags (decodeRound flags) piece

/-! ## Whitespace -/

theorem count_skipWhiteSpace (p : List UInt8) :
    (skipWhiteSpace p).count ampersand = p.count ampersand := by
  have hwhite : (p.takeWhile isWhiteSpace).count ampersand = 0 :=
    List.count_eq_zero.mpr fun h => absurd (List.mem_takeWhile_imp h) (by decide)
  have hsplit := congrArg (List.count ampersand)
    (List.takeWhile_append_dropWhile (p:=isWhiteSpace) (l:=p))
  rwa [List.count_append,hwhite,Nat.zero_add] at hsplit

/-- A round keeps each '&'. -/
theorem count_collapseRound {rest : List UInt8} (hne : rest ≠ []) :
    (collapseRound rest []).1.count ampersand +
      (rest.drop (collapseRound rest []).2).count ampersand = rest.count ampersand := by
  obtain ⟨c,p,rfl⟩ := List.exists_cons_of_ne_nil hne
  rw [collapseRound]
  split
  · rename_i hc
    have hne : c ≠ ampersand := by
      rintro rfl
      exact absurd hc (by decide)
    rw [List.count_cons_of_ne hne,← count_skipWhiteSpace p]
    split
    · rename_i h
      simp [h]
    · rename_i d rest h
      have hsplit := List.takeWhile_append_dropWhile (p:=isWhiteSpace) (l:=p)
      have h' : p.dropWhile isWhiteSpace = d::rest := h
      have hdrop : (c::p).drop ((p.takeWhile isWhiteSpace).length+2) = rest := by
        rw [List.drop_succ_cons,← List.drop_drop]
        nth_rewrite 2 [← hsplit]
        rw [List.drop_left,h',List.drop_one,List.tail_cons]
      rw [hdrop,h,List.count_cons_of_ne (by decide : space ≠ ampersand),List.count_cons,
        List.count_cons,List.count_nil]
      omega
  · simp [List.count_cons,Nat.add_comm]

theorem count_collapse (value : List UInt8) :
    (collapse value).count ampersand = value.count ampersand := by
  have hblind : Blind collapseRound := fun rest u u' => by cases rest <;> rfl
  rw [collapse,rewriteAll_eq_rewritten collapseRound_shrinks hblind,← count_skipWhiteSpace value]
  induction skipWhiteSpace value using round_induction collapseRound_shrinks with
  | nil => rfl
  | next rest hr ih =>
    rw [rewritten_round collapseRound_shrinks hblind hr,List.count_append,ih]
    exact count_collapseRound hr

/-! ## The values -/

/-- Of two texts that differ only where the second has an '&', the second C string has more of
them, unless they are the same. -/
theorem cStr_eq_of_count {a b : List UInt8}
    (h : List.Forall₂ (fun x y => x = y ∨ y = ampersand) a b) :
    (cStr a).count ampersand ≤ (cStr b).count ampersand ∧
      ((cStr a).count ampersand = (cStr b).count ampersand → cStr a = cStr b) := by
  have hcons (x : UInt8) (l : List UInt8) : cStr (x::l) = if x = 0 then [] else x::cStr l := by
    rw [cStr,List.takeWhile_cons]
    by_cases hx : x = 0 <;> simp [hx,cStr]
  induction h with
  | nil => simp
  | @cons x y a b hxy _ ih =>
    rw [hcons,hcons]
    by_cases he : x = y
    · subst y
      by_cases hx : x = 0
      · simp [hx]
      · simpa [hx,List.count_cons] using ih
    · obtain rfl := hxy.resolve_left he
      rw [if_neg (by decide : ampersand ≠ 0),List.count_cons_self]
      by_cases hx : x = 0
      · simp [hx]
      · rw [if_neg hx,List.count_cons_of_ne he]
        omega

theorem forall₂_getStrRound (flags : Flags) (rest u : List UInt8) (hne : rest ≠ [])
    (hu : rest.length ≤ u.length) : List.Forall₂ (fun x y => x = y ∨ y = ampersand)
      (getStrRound flags rest u).1 (decodeRound flags rest u).1 := by
  rw [decodeRound]
  split
  · rename_i h
    rw [getStrRound_stray h]
    cases u with
    | nil => exact absurd (List.eq_nil_of_length_eq_zero (Nat.le_zero.mp hu)) hne
    | cons b u => exact .cons (.inr rfl) .nil
  · exact List.forall₂_same.mpr fun _ _ => .inl rfl

/-- The C strings are the same exactly when the write pointer points at an '&' at each stray '&' in
front of the first NUL. -/
theorem cStr_eq_iff (flags : Flags) (piece : List UInt8) :
    cStr (rewriteAll (getStrRound flags) piece) = cStr (rewriteAll (decodeRound flags) piece) ↔
      ∀ point, Reached (getStrRound flags) piece (piece,[]) point → 0 ∉ point.2 →
        isStray flags point.1 → (piece.drop point.2.length).head? = some ampersand := by
  rw [cStr,cStr,takeWhile_rewriteAll_eq_iff (getStrRound_shrinks flags) (decodeRound_shrinks flags)
    (sameLengths_decodeRound flags)]
  refine forall₂_congr fun point _ => imp_congr ?_ ?_
  · simp only [decide_not,Bool.not_eq_eq_eq_not,Bool.not_true,decide_eq_false_iff_not]
    exact ⟨fun h h₀ => h 0 h₀ rfl,fun h x hx he => h (he ▸ hx)⟩
  · by_cases h : isStray flags point.1
    · have hne : point.1 ≠ [] := fun he => by simp [isStray,he] at h
      have hamp : ampersand ≠ 0 := by decide
      have hlast : [ampersand].takeWhile (fun c => decide (c ≠ 0)) = [ampersand] := rfl
      rw [getStrRound_stray h,decodeRound,if_pos h,hlast]
      cases piece.drop point.2.length with
      | nil => simp [hne,h]
      | cons b u =>
        by_cases hb : b = 0
        · simp [hne,h,hb,hamp.symm]
        · simp [hne,h,hb]
    · simp [decodeRound,h]

/-- In the buffer of the parser `GetStr` gives what it would give with a buffer of its own, and this
is the text with its references decoded exactly when the write pointer points at an '&' at each
stray '&' in front of the first NUL. -/
theorem getStr_decodes_iff (flags : Flags) (piece : List UInt8) :
    getStrInPlace flags piece = getStr flags piece ∧
      (getStr flags piece = decode flags piece ↔
        ∀ point, Reached (getStrRound flags) piece (piece,[]) point → 0 ∉ point.2 →
          isStray flags point.1 → (piece.drop point.2.length).head? = some ampersand) := by
  refine ⟨getStrInPlace_eq flags piece,?_⟩
  rw [← cStr_eq_iff]
  refine ⟨fun h => ?_,fun h => by rw [getStr,decode,valueOf,valueOf,h]⟩
  cases hc : flags.needsWhitespaceCollapsing with
  | false => simpa [getStr,decode,valueOf,hc] using h
  | true =>
    have hrel : List.Forall₂ (fun x y => x = y ∨ y = ampersand)
        (rewriteAll (getStrRound flags) piece) (rewriteAll (decodeRound flags) piece) :=
      forall₂_rewrite (getStrRound_shrinks flags) (decodeRound_shrinks flags)
        (sameLengths_decodeRound flags) (forall₂_getStrRound flags) piece.length le_rfl .nil
        (by simp)
    have hcollapse : collapse (cStr (rewriteAll (getStrRound flags) piece)) =
        collapse (cStr (rewriteAll (decodeRound flags) piece)) := by
      simpa [getStr,decode,valueOf,hc] using h
    have hcount := congrArg (List.count ampersand) hcollapse
    rw [count_collapse,count_collapse] at hcount
    exact (cStr_eq_of_count hrel).2 hcount

/-- "&amp;&x;" is read as "&ax;". -/
example : getStr .textElement [38,97,109,112,59,38,120,59] = [38,97,120,59] := by decide

end Blush.Xml
