import Mathlib.Data.Nat.Bitwise
import Blush.Lib.InPlace
import Blush.Lib.Scan

/-! `XMLUtil` and `StrPair`: characters, references, and the value that `GetStr` makes of a piece of
the text. Texts are the bytes in front of the NUL. -/
namespace Blush.Xml
open InPlace

/-! ## Characters -/

abbrev lf : UInt8 := 10
abbrev cr : UInt8 := 13
abbrev space : UInt8 := 32
abbrev doubleQuote : UInt8 := 34
abbrev numberSign : UInt8 := 35
abbrev ampersand : UInt8 := 38
abbrev singleQuote : UInt8 := 39
abbrev slash : UInt8 := 47
abbrev semicolon : UInt8 := 59
abbrev lessThan : UInt8 := 60
abbrev equalsSign : UInt8 := 61
abbrev greaterThan : UInt8 := 62

/-- `XMLUtil::IsWhiteSpace`, with `isspace` of the C locale. -/
def isWhiteSpace (c : UInt8) : Bool := 9 ≤ c ∧ c ≤ 13 ∨ c = 32

/-- `isalpha` of the C locale. -/
def isAlpha (c : UInt8) : Bool := 65 ≤ c ∧ c ≤ 90 ∨ 97 ≤ c ∧ c ≤ 122

def isDigit (c : UInt8) : Bool := 48 ≤ c ∧ c ≤ 57

/-- `XMLUtil::IsNameStartChar`: a letter, ':' or '_', or a byte outside of ASCII. -/
def isNameStartChar (c : UInt8) : Bool := 128 ≤ c ∨ isAlpha c ∨ c = 58 ∨ c = 95

/-- `XMLUtil::IsNameChar`: also a digit, '.' or '-'. -/
def isNameChar (c : UInt8) : Bool := isNameStartChar c ∨ isDigit c ∨ c = 46 ∨ c = 45

/-- `XMLUtil::SkipWhiteSpace`. -/
def skipWhiteSpace (p : List UInt8) : List UInt8 := p.dropWhile isWhiteSpace

structure Entity where
  pattern : List UInt8
  value : UInt8
  deriving DecidableEq, Repr

/-- `quot`, `amp`, `apos`, `lt` and `gt`. -/
def entities : List Entity :=
  [⟨[113,117,111,116],doubleQuote⟩,⟨[97,109,112],ampersand⟩,⟨[97,112,111,115],singleQuote⟩,
    ⟨[108,116],lessThan⟩,⟨[103,116],greaterThan⟩]

/-! ## Character references -/

def maxCodePoint : ℕ := 0x10FFFF

/-- `XMLUtil::ConvertUTF32ToUTF8`. -/
def convertUTF32ToUTF8 (input : ℕ) : List UInt8 :=
  let continuation (n : ℕ) : UInt8 := ((n ||| 0x80) &&& 0xBF).toUInt8
  if input < 0x80 then [input.toUInt8]
  else if input < 0x800 then [(input >>> 6 ||| 0xC0).toUInt8,continuation input]
  else if input < 0x10000 then
    [(input >>> 12 ||| 0xE0).toUInt8,continuation (input >>> 6),continuation input]
  else if input < 0x200000 then
    [(input >>> 18 ||| 0xF0).toUInt8,continuation (input >>> 12),continuation (input >>> 6),
      continuation input]
  else []

def digit? (hex : Bool) (c : UInt8) : Option ℕ :=
  if isDigit c then some (c.toNat-48)
  else if hex && (97 ≤ c && c ≤ 102) then some (c.toNat-97+10)
  else if hex && (65 ≤ c && c ≤ 70) then some (c.toNat-65+10)
  else none

/-- The loop of `GetCharacterRef`, from the last digit to the first. -/
def codePoint (hex : Bool) : List UInt8 → (ucs mult : ℕ) → Option ℕ
  | [],ucs,_ => if ucs > maxCodePoint then none else some ucs
  | c::digits,ucs,mult =>
    match digit? hex c with
    | none => none
    | some digit =>
      let digitScaled := mult*digit
      if digitScaled > maxCodePoint ∨ ucs > maxCodePoint-digitScaled then none
      else codePoint hex digits (ucs+digitScaled) (min (mult*if hex then 16 else 10) maxCodePoint)

/-- The number that begins at `q`: what it stands for, and its length with the ';'. Its digits
begin behind the last 'x', or else the last '#', that there is in front of the ';'. -/
def getNumber (hex : Bool) (q : List UInt8) : Option (List UInt8 × ℕ) :=
  if semicolon ∉ q then none
  else
    let number := q.takeWhile (· ≠ semicolon)
    let terminator : UInt8 := if hex then 120 else numberSign
    match codePoint hex (number.reverse.takeWhile (· ≠ terminator)) 0 1 with
    | none => none
    | some ucs =>
      let value := convertUTF32ToUTF8 ucs
      if value = [] then none else some (value,number.length+1)

/-- `XMLUtil::GetCharacterRef` at an '&': what the reference stands for, and its length. An 'x'
in front of the number makes it hexadecimal. -/
def getCharacterRef : List UInt8 → Option (List UInt8 × ℕ)
  | _::35::c::rest =>
    if c = 120 then (getNumber true rest).map fun r => (r.1,3+r.2)
    else (getNumber false (c::rest)).map fun r => (r.1,2+r.2)
  | _ => some ([],1)

/-! ## `StrPair` -/

/-- The flags of a `StrPair` that its value depends on; the other two are about its memory. -/
structure Flags where
  needsEntityProcessing : Bool
  needsNewlineNormalization : Bool
  needsWhitespaceCollapsing : Bool

def Flags.name : Flags := ⟨false,false,false⟩
def Flags.textElement : Flags := ⟨true,true,false⟩
def Flags.attributeValue : Flags := .textElement
def Flags.newlines : Flags := ⟨false,true,false⟩
def Flags.comment : Flags := .newlines

/-- The entity that is named at the front of a text. -/
def entity? (p : List UInt8) : Option Entity :=
  entities.find? fun e => (e.pattern ++ [semicolon]).isPrefixOf p

/-- One round of the loop of `GetStr`. -/
def getStrRound (flags : Flags) : Round UInt8
  | [],_ => ([],1)
  | c::p,unwritten =>
    if flags.needsNewlineNormalization ∧ c = cr then ([lf],if p.head? = some lf then 2 else 1)
    else if flags.needsNewlineNormalization ∧ c = lf then ([lf],if p.head? = some cr then 2 else 1)
    else if flags.needsEntityProcessing ∧ c = ampersand then
      if p.head? = some numberSign then (getCharacterRef (c::p)).getD ([c],1)
      else
        match entity? p with
        | some e => ([e.value],e.pattern.length+2)
        -- both pointers go on, and the write pointer leaves what is there
        | none => (unwritten.take 1,1)
    else ([c],1)

/-- The C string at a pointer to `s`. -/
def cStr (s : List UInt8) : List UInt8 := s.takeWhile (· ≠ 0)

/-- One round of the loop of `CollapseWhitespace`. -/
def collapseRound : Round UInt8
  | [],_ => ([],1)
  | c::p,_ =>
    if isWhiteSpace c then
      match skipWhiteSpace p with
      -- nothing is written for whitespace at the end
      | [] => ([],p.length+1)
      | d::_ => ([space,d],(p.takeWhile isWhiteSpace).length+2)
    else ([c],1)

/-- `CollapseWhitespace` of a C string, in place. -/
def collapseInPlace (value : List UInt8) : List UInt8 :=
  let start := skipWhiteSpace value
  let (buffer,q) := inPlace collapseRound start.length start 0 0
  buffer.take q

/-- `CollapseWhitespace`, out of place. -/
def collapse (value : List UInt8) : List UInt8 := rewriteAll collapseRound (skipWhiteSpace value)

/-- `GetStr` of a piece of the text, in place, as the code does it. -/
def getStrInPlace (flags : Flags) (piece : List UInt8) : List UInt8 :=
  let (buffer,q) := inPlace (getStrRound flags) piece.length piece 0 0
  let value := cStr (buffer.take q)
  if flags.needsWhitespaceCollapsing then collapseInPlace value else value

/-- The value that a loop with these rounds makes, out of place. -/
def valueOf (flags : Flags) (round : Round UInt8) (piece : List UInt8) : List UInt8 :=
  let value := cStr (rewriteAll round piece)
  if flags.needsWhitespaceCollapsing then collapse value else value

/-- What `GetStr` gives, out of place. -/
def getStr (flags : Flags) (piece : List UInt8) : List UInt8 :=
  valueOf flags (getStrRound flags) piece

/-! ## Every round shrinks -/

theorem convertUTF32ToUTF8_length_le (n : ℕ) : (convertUTF32ToUTF8 n).length ≤ 4 := by
  rw [convertUTF32ToUTF8]
  split_ifs <;> simp

/-- A number without digits gives one byte, and other numbers give four at most. -/
theorem getNumber_shrinks {hex : Bool} {q value : List UInt8} {n : ℕ}
    (h : getNumber hex q = some (value,n)) : value.length ≤ 2+n ∧ 0 < n ∧ n ≤ q.length := by
  rw [getNumber] at h
  split at h
  · cases h
  · rename_i hsemi
    have hlt : (q.takeWhile (· ≠ semicolon)).length < q.length :=
      Scan.length_takeWhile_lt (not_not.mp hsemi) (by simp)
    generalize q.takeWhile (· ≠ semicolon) = number at h hlt
    dsimp only at h
    split at h
    · cases h
    · rename_i ucs hucs
      split at h
      · cases h
      · simp only [Option.some.injEq,Prod.mk.injEq] at h
        obtain ⟨rfl,rfl⟩ := h
        refine ⟨?_,Nat.succ_pos _,hlt⟩
        cases number with
        | nil =>
          obtain rfl : 0 = ucs := by simpa [codePoint,maxCodePoint] using hucs
          decide
        | cons c number =>
          have := convertUTF32ToUTF8_length_le ucs
          rw [List.length_cons]
          omega

theorem getCharacterRef_shrinks {p value : List UInt8} {n : ℕ} (hp : p ≠ [])
    (h : getCharacterRef p = some (value,n)) : value.length ≤ n ∧ 0 < n ∧ n ≤ p.length := by
  unfold getCharacterRef at h
  split at h
  · rename_i c rest
    split at h
    · obtain ⟨⟨v,m⟩,hm,hv⟩ := Option.map_eq_some_iff.mp h
      obtain ⟨rfl,rfl⟩ : v = value ∧ 3+m = n := by simpa using hv
      have := getNumber_shrinks hm
      simp only [List.length_cons]
      omega
    · obtain ⟨⟨v,m⟩,hm,hv⟩ := Option.map_eq_some_iff.mp h
      obtain ⟨rfl,rfl⟩ : v = value ∧ 2+m = n := by simpa using hv
      have := getNumber_shrinks hm
      simp only [List.length_cons] at this ⊢
      omega
  · obtain ⟨rfl,rfl⟩ : [] = value ∧ 1 = n := by simpa using h
    exact ⟨Nat.zero_le _,Nat.one_pos,List.length_pos_iff.mpr hp⟩

/-- An entity of the table at the front of a text. -/
theorem entity_length_le {p : List UInt8} {e : Entity}
    (h : entity? p = some e) :
    e.pattern.length+1 ≤ p.length := by
  have he := List.find?_some h
  simpa using (List.isPrefixOf_iff_prefix.mp he).length_le

theorem newline_shrinks (c d : UInt8) (p : List UInt8) :
    [lf].length ≤ (if p.head? = some d then 2 else 1) ∧
      0 < (if p.head? = some d then 2 else 1) ∧
      (if p.head? = some d then 2 else 1) ≤ (c::p).length := by
  cases p with
  | nil => simp
  | cons e p =>
    simp only [List.length_cons]
    split <;> simp

/-- A round of `GetStr` writes no more than it reads. -/
theorem getStrRound_shrinks (flags : Flags) : Shrinks (getStrRound flags) := by
  intro rest unwritten hne
  obtain ⟨c,p,rfl⟩ := List.exists_cons_of_ne_nil hne
  have hone : [c].length ≤ 1 ∧ 0 < 1 ∧ 1 ≤ (c::p).length := ⟨le_rfl,Nat.one_pos,by simp⟩
  rw [getStrRound]
  split
  · exact newline_shrinks c lf p
  split
  · exact newline_shrinks c cr p
  split
  · split
    · cases href : getCharacterRef (c::p) with
      | none => exact hone
      | some r => exact getCharacterRef_shrinks hne href
    · split
      · rename_i e he
        have := entity_length_le he
        simp only [List.length_cons,List.length_nil]
        omega
      · exact ⟨List.length_take_le _ _,hone.2⟩
  · exact hone

/-- A round of `CollapseWhitespace` writes no more than it reads. -/
theorem collapseRound_shrinks : Shrinks collapseRound := by
  intro rest unwritten hne
  obtain ⟨c,p,rfl⟩ := List.exists_cons_of_ne_nil hne
  rw [collapseRound]
  split
  · split
    · simp
    · rename_i d rest hd
      have hd : p.dropWhile isWhiteSpace = d::rest := hd
      have hlen := congrArg List.length (List.takeWhile_append_dropWhile (p:=isWhiteSpace) (l:=p))
      rw [hd,List.length_append,List.length_cons] at hlen
      simp only [List.length_cons,List.length_nil]
      omega
  · simp

/-- `GetStr` may work in place: what it reads it has not overwritten. -/
theorem getStrInPlace_eq (flags : Flags) (piece : List UInt8) :
    getStrInPlace flags piece = getStr flags piece := by
  have hcollapse (value : List UInt8) : collapseInPlace value = collapse value := by
    rw [collapseInPlace,collapse,← take_inPlace collapseRound_shrinks]
  simp only [getStrInPlace,getStr,valueOf,hcollapse,← take_inPlace (getStrRound_shrinks flags)]

/-- The value where whitespace is kept. -/
theorem getStr_eq {flags : Flags} (h : flags.needsWhitespaceCollapsing = false)
    (piece : List UInt8) : getStr flags piece = cStr (rewriteAll (getStrRound flags) piece) :=
  if_neg (by simp [h])

/-! ## Newlines -/

/-- One round without entities. -/
theorem newlines_round (c : UInt8) (p unwritten : List UInt8) :
    (c = cr ∨ c = lf) ∧ (getStrRound .newlines (c::p) unwritten).1 = [lf] ∨
      c ≠ cr ∧ c ≠ lf ∧ getStrRound .newlines (c::p) unwritten = ([c],1) := by
  by_cases hcr : c = cr
  · exact .inl ⟨.inl hcr,by simp [getStrRound,Flags.newlines,hcr]⟩
  · by_cases hlf : c = lf
    · refine .inl ⟨.inr hlf,?_⟩
      subst hlf
      simp [getStrRound,Flags.newlines,show lf ≠ cr by decide]
    · exact .inr ⟨hcr,hlf,by simp [getStrRound,Flags.newlines,hcr,hlf]⟩

theorem newlines_blind : Blind (getStrRound .newlines) := by
  intro rest u u'
  cases rest with
  | nil => rfl
  | cons c p => simp [getStrRound,Flags.newlines]

/-- A text with its line endings normalized. -/
def normalizeNewlines (s : List UInt8) : List UInt8 := rewritten (getStrRound .newlines) s

theorem getStr_newlines (piece : List UInt8) :
    getStr .newlines piece = cStr (normalizeNewlines piece) := by
  rw [getStr_eq rfl,rewriteAll_eq_rewritten (getStrRound_shrinks _) newlines_blind,normalizeNewlines]

/-- Induction over the characters and line endings of a text. -/
theorem newlines_induction {motive : List UInt8 → Prop} (nil : motive [])
    (newline : ∀ c p rest, rest <:+ p → normalizeNewlines (c::p) = lf::normalizeNewlines rest →
      motive rest → motive (c::p))
    (other : ∀ c p, c ≠ cr → c ≠ lf → normalizeNewlines (c::p) = c::normalizeNewlines p →
      motive p → motive (c::p)) (s : List UInt8) : motive s := by
  have hs := getStrRound_shrinks .newlines
  induction s using round_induction hs with
  | nil => exact nil
  | next s hne ih =>
    have hr := rewritten_round hs newlines_blind hne
    have hpos := (hs s [] hne).2.1
    obtain ⟨c,p,rfl⟩ := List.exists_cons_of_ne_nil hne
    rcases newlines_round c p [] with ⟨-,h⟩ | ⟨hcr,hlf,h⟩
    · refine newline c p _ ?_ (by rw [normalizeNewlines,hr,h]; rfl) ih
      rw [← Nat.succ_pred_eq_of_pos hpos,List.drop_succ_cons]
      exact List.drop_suffix _ p
    · rw [h] at ih hr
      exact other c p hcr hlf hr ih

theorem cr_notMem_normalizeNewlines (s : List UInt8) : cr ∉ normalizeNewlines s := by
  induction s using newlines_induction with
  | nil => exact List.not_mem_nil
  | newline c p rest _ h ih =>
    rw [h,List.mem_cons]
    exact fun hm => hm.elim (by decide) ih
  | other c p hcr _ h ih =>
    rw [h,List.mem_cons]
    exact fun hm => hm.elim (fun hc => hcr hc.symm) ih

theorem zero_notMem_normalizeNewlines {s : List UInt8} (hs : 0 ∉ s) : 0 ∉ normalizeNewlines s := by
  induction s using newlines_induction with
  | nil => exact List.not_mem_nil
  | newline c p rest hrest h ih =>
    rw [h,List.mem_cons]
    exact fun hm => hm.elim (by decide)
      (ih fun hm => hs (List.mem_cons_of_mem c (hrest.subset hm)))
  | other c p _ _ h ih =>
    rw [h,List.mem_cons]
    exact fun hm => hm.elim (fun hc => hs (hc ▸ List.mem_cons_self))
      (ih fun hm => hs (List.mem_cons_of_mem c hm))

/-- What a normalized text begins with stands at its front, line ends apart. -/
theorem prefix_of_normalizeNewlines {s e d : List UInt8} (hd : lf ∉ d)
    (h : d <+: normalizeNewlines s ++ e) : d <+: s ++ e := by
  induction s using newlines_induction generalizing d with
  | nil => exact h
  | newline c p rest _ hn _ =>
    rw [hn,List.cons_append] at h
    cases d with
    | nil => exact List.nil_prefix
    | cons a d => exact absurd (List.cons_prefix_cons.mp h).1 fun ha => hd (ha ▸ List.mem_cons_self)
  | other c p _ _ hn ih =>
    rw [hn,List.cons_append] at h
    cases d with
    | nil => exact List.nil_prefix
    | cons a d =>
      obtain ⟨ha,h⟩ := List.cons_prefix_cons.mp h
      exact List.cons_prefix_cons.mpr ⟨ha,ih (fun hm => hd (List.mem_cons_of_mem _ hm)) h⟩

theorem infix_of_normalizeNewlines {s e d : List UInt8} (hd : lf ∉ d)
    (h : d <:+: normalizeNewlines s ++ e) : d <:+: s ++ e := by
  induction s using newlines_induction with
  | nil => exact h
  | newline c p rest hrest hn ih =>
    rw [hn,List.cons_append,List.infix_cons_iff] at h
    rcases h with h | h
    · rw [← List.cons_append,← hn] at h
      exact (prefix_of_normalizeNewlines hd h).isInfix
    · obtain ⟨run,rfl⟩ := hrest
      refine (ih h).trans ?_
      rw [← List.cons_append,List.append_assoc]
      exact (List.suffix_append _ _).isInfix
  | other c p _ _ hn ih =>
    rw [hn,List.cons_append,List.infix_cons_iff] at h
    rcases h with h | h
    · rw [← List.cons_append,← hn] at h
      exact (prefix_of_normalizeNewlines hd h).isInfix
    · exact (ih h).trans (List.suffix_cons c _).isInfix

theorem cStr_eq_self {s : List UInt8} (h : 0 ∉ s) : cStr s = s :=
  List.takeWhile_eq_self_iff.mpr fun c hc => by
    simpa using fun he : c = 0 => h (he ▸ hc)

theorem zero_notMem_cStr (s : List UInt8) : 0 ∉ cStr s := fun h => by
  simpa using List.mem_takeWhile_imp h

end Blush.Xml
