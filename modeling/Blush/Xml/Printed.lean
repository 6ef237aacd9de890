import Blush.Xml.Printer
import Blush.Xml.WellFormed

/-! What the printer prints for values, tags and leaves, and that the parser reads it back. -/
namespace Blush.Xml
open Fuel Outcome Scan InPlace

/-! ## Values -/

/-- A value that the parser reads back from what the printer prints for it. -/
def IsValue (v : List UInt8) : Prop := 0 ∉ v ∧ cr ∉ v

/-- The entity of a character that is escaped. -/
theorem printChar_of_flag {restricted : Bool} {c : UInt8} (h : entityFlag restricted c) :
    ∃ e ∈ entities, e.value = c ∧ printChar restricted c = ampersand::e.pattern ++ [semicolon] := by
  have hc : ∃ e ∈ entities, decide (e.value = c) = true := by
    cases restricted with
    | false => simpa [entityFlag] using h
    | true =>
      have h' : c = ampersand ∨ c = lessThan ∨ c = greaterThan := by simpa [entityFlag] using h
      rcases h' with rfl | rfl | rfl <;> decide
  obtain ⟨e,he⟩ := Option.isSome_iff_exists.mp (List.find?_isSome.mpr hc)
  refine ⟨e,List.mem_of_find?_eq_some he,by simpa using List.find?_some he,?_⟩
  rw [printChar,if_pos h,he]

theorem printChar_of_not_flag {restricted : Bool} {c : UInt8} (h : ¬ entityFlag restricted c) :
    printChar restricted c = [c] := if_neg h

theorem printChar_ne_nil (restricted : Bool) (c : UInt8) : printChar restricted c ≠ [] := by
  by_cases h : entityFlag restricted c
  · obtain ⟨e,-,-,he⟩ := printChar_of_flag h
    simp [he]
  · simp [printChar_of_not_flag h]

/-- The characters that `PrintString` never prints as they are, in either mode. -/
theorem entityFlag_of_mem {restricted : Bool} {c : UInt8}
    (h : c = ampersand ∨ c = lessThan ∨ c = greaterThan) : entityFlag restricted c := by
  cases restricted <;> rcases h with rfl | rfl | rfl <;> decide

/-- `GetStr` reads the reference to an entity in one round. -/
theorem getStrRound_entity {e : Entity} (he : e ∈ entities) (rest u : List UInt8) :
    getStrRound .textElement (ampersand::e.pattern ++ [semicolon] ++ rest) u =
      ([e.value],e.pattern.length+2) := by
  simp only [entities,List.mem_cons,List.not_mem_nil,or_false] at he
  rcases he with rfl | rfl | rfl | rfl | rfl <;> rfl

/-- What is printed for a character begins with it or with '&'. -/
theorem head?_printChar (restricted : Bool) (c : UInt8) (rest : List UInt8) :
    (printChar restricted c ++ rest).head? = some c ∨
      (printChar restricted c ++ rest).head? = some ampersand := by
  by_cases h : entityFlag restricted c
  · obtain ⟨e,-,-,he⟩ := printChar_of_flag h
    exact .inr (by rw [he]; rfl)
  · exact .inl (by rw [printChar_of_not_flag h]; rfl)

theorem getStr_printString {restricted : Bool} {v : List UInt8} (h : IsValue v) :
    getStr .textElement (printString restricted v) = v := by
  rw [getStr_eq rfl,printString,rewriteAll_flatMap (getStrRound_shrinks _) _ (fun c => [c]) v
    (printChar_ne_nil restricted),List.flatMap_singleton',cStr_eq_self h.1]
  intro c l hl u
  have hmem {d : UInt8} (hd : d ∈ c::l) : d ∈ v := hl.subset hd
  by_cases hf : entityFlag restricted c
  · obtain ⟨e,he,rfl,hp⟩ := printChar_of_flag hf
    rw [hp,getStrRound_entity he]
    simp
  · rw [printChar_of_not_flag hf,List.singleton_append,getStrRound]
    have hcr : c ≠ cr := fun hc => h.2 (hc ▸ hmem List.mem_cons_self)
    have hamp : c ≠ ampersand := fun hc => hf (entityFlag_of_mem (.inl hc))
    have hnext : (l.flatMap (printChar restricted)).head? ≠ some cr := by
      cases l with
      | nil => simp
      | cons d l =>
        have hd : d ≠ cr := fun hc => h.2 (hc ▸ hmem (by simp))
        rw [List.flatMap_cons]
        rcases head?_printChar restricted d (l.flatMap (printChar restricted)) with he | he <;>
          rw [he]
        · simpa using hd
        · decide
    by_cases hlf : c = lf
    · subst hlf
      simp [Flags.textElement,hcr,hnext]
    · simp [Flags.textElement,hcr,hamp,hlf]

/-- A character that is escaped does not occur in what is printed, apart from '&' and ';'. -/
theorem notMem_printString {restricted : Bool} {c : UInt8} (h : entityFlag restricted c)
    (hc : ∀ e ∈ entities, c ∉ ampersand::e.pattern ++ [semicolon]) (v : List UInt8) :
    c ∉ printString restricted v := by
  intro hm
  obtain ⟨d,-,hd⟩ := List.mem_flatMap.mp hm
  by_cases hf : entityFlag restricted d
  · obtain ⟨e,he,-,hp⟩ := printChar_of_flag hf
    exact hc e he (hp ▸ hd)
  · rw [printChar_of_not_flag hf,List.mem_singleton] at hd
    exact hf (hd ▸ h)

theorem parseText_printString {restricted : Bool} {c : UInt8} {v : List UInt8} (hv : IsValue v)
    (h : entityFlag restricted c) (hc : ∀ e ∈ entities, c ∉ ampersand::e.pattern ++ [semicolon])
    (rest : List UInt8) :
    parseText (printString restricted v ++ c::rest) [c] .textElement = some (v,rest) := by
  have hcl : Closes [c] (printString restricted v) :=
    closes_singleton.mpr (notMem_printString h hc v)
  have := dropInfix?_append hcl rest
  rw [List.append_assoc,List.singleton_append] at this
  rw [parseText,this,Option.map_some,getStr_printString hv]

/-- Values without carriage returns have no line endings to normalize. -/
theorem getStr_newlines_eq_self {v : List UInt8} (h : IsValue v) : getStr .newlines v = v := by
  have hv : v.flatMap (fun c => [c]) = v := List.flatMap_singleton' v
  have hpass := rewriteAll_flatMap (getStrRound_shrinks .newlines) (fun c => [c])
    (fun c => [c]) v (fun _ => List.cons_ne_nil _ _) fun c l hl u => by
      have hcr : c ≠ cr := fun hc => h.2 (hc ▸ hl.subset List.mem_cons_self)
      have hnext : l.head? ≠ some cr := fun hc =>
        h.2 (hl.subset (List.mem_cons_of_mem c (List.mem_of_mem_head? hc)))
      rw [List.flatMap_singleton',List.singleton_append,getStrRound]
      by_cases hlf : c = lf
      · subst hlf
        simp [Flags.newlines,hcr,hnext]
      · simp [Flags.newlines,hcr,hlf]
  rw [hv] at hpass
  rw [getStr_eq rfl,hpass,cStr_eq_self h.1]

/-! ## Names and tags -/

theorem isName_iff {name : List UInt8} :
    isName name ↔ ∃ c p, name = c::p ∧ isNameStartChar c ∧ ∀ d ∈ p, isNameChar d := by
  cases name with
  | nil => simp [isName]
  | cons c p => simp [isName]

theorem parseName_append {name rest : List UInt8} (h : isName name)
    (hrest : ∀ c ∈ rest.head?, ¬ isNameChar c) : parseName (name ++ rest) = some (name,rest) := by
  obtain ⟨c,p,rfl,hc,hp⟩ := isName_iff.mp h
  rw [List.cons_append,parseName,if_pos hc,takeWhile_append hp hrest,dropWhile_append hp hrest]

theorem not_isWhiteSpace_of_isNameStartChar {c : UInt8} (h : isNameStartChar c) :
    ¬ isWhiteSpace c := by
  simp only [isNameStartChar,isAlpha,isWhiteSpace,decide_eq_true_eq,UInt8.le_iff_toNat_le,
    ← UInt8.toNat_inj,UInt8.reduceToNat] at h ⊢
  omega

theorem skipWhiteSpace_of_head {p : List UInt8} (h : ∀ c ∈ p.head?, ¬ isWhiteSpace c) :
    skipWhiteSpace p = p := by
  cases p with
  | nil => rfl
  | cons c p => exact List.dropWhile_cons_of_neg (h c rfl)

/-- A name does not begin with whitespace. -/
theorem skipWhiteSpace_name {name : List UInt8} (h : isName name) (rest : List UInt8) :
    skipWhiteSpace (name ++ rest) = name ++ rest := by
  obtain ⟨c,p,rfl,hc,-⟩ := isName_iff.mp h
  refine skipWhiteSpace_of_head fun d hd => ?_
  obtain rfl : c = d := by simpa using hd
  exact not_isWhiteSpace_of_isNameStartChar hc

theorem skipWhiteSpace_space (p : List UInt8) : skipWhiteSpace (32::p) = skipWhiteSpace p := rfl

/-- What the printer prints for an attribute. -/
def attributeText (a : XMLAttribute) : List UInt8 :=
  32::a.name ++ [equalsSign,doubleQuote] ++ printString false a.value ++ [doubleQuote]

theorem attributeParseDeep_append {a : XMLAttribute} (hn : isName a.name) (hv : IsValue a.value)
    (rest : List UInt8) :
    attributeParseDeep (a.name ++ [equalsSign,doubleQuote] ++ printString false a.value ++
      doubleQuote::rest) = some (a,rest) := by
  have hname : parseName (a.name ++ equalsSign::doubleQuote::(printString false a.value ++
      doubleQuote::rest)) = some (a.name,_) := parseName_append hn (by simp; decide)
  have hskip (p : List UInt8) : skipWhiteSpace (equalsSign::p) = equalsSign::p := rfl
  have hskip' (p : List UInt8) : skipWhiteSpace (doubleQuote::p) = doubleQuote::p := rfl
  rw [attributeParseDeep]
  simp only [List.append_assoc,List.cons_append,List.nil_append,hname,hskip,hskip']
  rw [if_neg (not_not_intro rfl),if_pos (.inl trivial),Flags.attributeValue,
    parseText_printString hv (by decide) (by decide),Option.map_some]

/-- What the printer prints for the attributes of an element. -/
def attributesText (attributes : List XMLAttribute) : List UInt8 :=
  attributes.flatMap attributeText

/-- The ends of a tag: ">" and "/>". -/
def tagEnd (closed : Bool) : List UInt8 := if closed then [slash,greaterThan] else [greaterThan]

/-- One round of the loop over the attributes. -/
theorem parseAttributes_attribute {fuel : ℕ} {before : List XMLAttribute} {p q rest : List UInt8}
    {c : UInt8} {a : XMLAttribute} (hp : skipWhiteSpace p = c::q) (hc : isNameStartChar c)
    (ha : attributeParseDeep (c::q) = some (a,rest)) (hnew : a.name ∉ before.map XMLAttribute.name) :
    parseAttributes (fuel+1) before p = parseAttributes fuel (before ++ [a]) rest := by
  rw [parseAttributes,hp]
  dsimp only
  rw [if_pos hc,ha]
  exact if_neg hnew

theorem parseAttributes_append {attributes : List XMLAttribute} (closed : Bool)
    (rest : List UInt8) (fuel : ℕ) (before : List XMLAttribute)
    (hattr : ∀ a ∈ attributes, isName a.name ∧ IsValue a.value)
    (hdistinct : ((before ++ attributes).map XMLAttribute.name).Nodup)
    (hf : attributes.length < fuel) :
    parseAttributes fuel before (attributesText attributes ++ (tagEnd closed ++ rest)) =
      .ok ⟨before ++ attributes,closed,rest⟩ := by
  induction attributes generalizing before fuel with
  | nil =>
    obtain ⟨fuel,rfl⟩ := Nat.exists_eq_add_one_of_ne_zero (Nat.ne_of_gt hf)
    rw [List.append_nil,attributesText,List.flatMap_nil,List.nil_append,parseAttributes]
    cases closed <;> rfl
  | cons a attributes ih =>
    obtain ⟨fuel,rfl⟩ := Nat.exists_eq_add_one_of_ne_zero (Nat.ne_of_gt (Nat.zero_lt_of_lt hf))
    obtain ⟨hn,hv⟩ := hattr a List.mem_cons_self
    set after := attributesText attributes ++ (tagEnd closed ++ rest) with hafter
    have htext : attributesText (a::attributes) ++ (tagEnd closed ++ rest) =
        32::(a.name ++ [equalsSign,doubleQuote] ++ printString false a.value ++
          doubleQuote::after) := by
      simp [attributesText,attributeText,hafter]
    have hread := attributeParseDeep_append hn hv after
    have hskip := skipWhiteSpace_name hn
      ([equalsSign,doubleQuote] ++ printString false a.value ++ doubleQuote::after)
    obtain ⟨c,p,hcp,hc,-⟩ := isName_iff.mp hn
    simp only [hcp,List.append_assoc,List.cons_append,List.nil_append] at htext hread hskip
    have hnew : a.name ∉ before.map XMLAttribute.name := by
      rw [List.map_append,List.map_cons] at hdistinct
      exact fun hm => (List.nodup_append.mp hdistinct).2.2 _ hm _ List.mem_cons_self rfl
    rw [htext,parseAttributes_attribute ((skipWhiteSpace_space _).trans hskip) hc hread hnew,
      ih fuel (before ++ [a]) (fun b hb => hattr b (List.mem_cons_of_mem a hb))
        (by rwa [List.append_assoc]) (Nat.lt_of_succ_lt_succ hf),List.append_assoc]
    rfl

theorem length_le_attributesText (attributes : List XMLAttribute) :
    attributes.length ≤ (attributesText attributes).length := by
  induction attributes with
  | nil => exact Nat.zero_le _
  | cons a attributes ih =>
    simp only [attributesText,attributeText,List.flatMap_cons,List.length_append,List.length_cons]
      at ih ⊢
    omega

/-- A name ends where the attributes or the end of the tag begin. -/
theorem not_isNameChar_attributesText (attributes : List XMLAttribute) (closed : Bool)
    (rest : List UInt8) :
    ∀ c ∈ (attributesText attributes ++ (tagEnd closed ++ rest)).head?, ¬ isNameChar c := by
  intro c hc
  cases attributes with
  | nil =>
    cases closed with
    | false =>
      obtain rfl : greaterThan = c := by simpa [attributesText,tagEnd] using hc
      decide
    | true =>
      obtain rfl : slash = c := by simpa [attributesText,tagEnd] using hc
      decide
  | cons a attributes =>
    obtain rfl : 32 = c := by simpa [attributesText,attributeText] using hc
    decide

/-- The parser reads a tag of an element as it is printed. -/
theorem parseTag_open {name : List UInt8} {attributes : List XMLAttribute} (hn : isName name)
    (hattr : ∀ a ∈ attributes, isName a.name ∧ IsValue a.value)
    (hdistinct : (attributes.map XMLAttribute.name).Nodup) (closed : Bool) (rest : List UInt8) :
    parseTag (name ++ (attributesText attributes ++ (tagEnd closed ++ rest))) =
      .ok ⟨name,attributes,if closed then .closed else .open,rest⟩ := by
  have hslash : (name ++ (attributesText attributes ++ (tagEnd closed ++ rest))).head? ≠
      some slash := by
    obtain ⟨c,p,rfl,hc,-⟩ := isName_iff.mp hn
    rw [List.cons_append,List.head?_cons,Ne,Option.some.injEq]
    rintro rfl
    exact absurd hc (by decide)
  have hattrs := parseAttributes_append closed rest
    ((attributesText attributes ++ (tagEnd closed ++ rest)).length+1) [] hattr hdistinct (by
      have := length_le_attributesText attributes
      rw [List.length_append]
      omega)
  rw [parseTag,skipWhiteSpace_name hn]
  simp only [hslash,if_false,
    parseName_append hn (not_isNameChar_attributesText attributes closed rest),hattrs,ok_bind,
    List.nil_append]

/-- The parser reads an end tag. -/
theorem parseTag_closing {name : List UInt8} (hn : isName name) (rest : List UInt8) :
    parseTag (slash::(name ++ greaterThan::rest)) = .ok ⟨name,[],.closing,rest⟩ := by
  have hname : parseName (name ++ greaterThan::rest) = some (name,greaterThan::rest) :=
    parseName_append hn (by simp; decide)
  have hskip : skipWhiteSpace (slash::(name ++ greaterThan::rest)) =
      slash::(name ++ greaterThan::rest) := rfl
  rw [parseTag,hskip]
  simp only [List.head?_cons,if_true,List.tail_cons,hname]
  rfl

/-! ## Headers and leaves -/

theorem dropPrefix?_header {p header : List UInt8} {kind : Kind} (hm : (header,kind) ∈ headers)
    (h : ∀ c ∈ p.head?, c ≠ lessThan) : p.dropPrefix? header = none := by
  have hhead : ∀ x ∈ headers, x.1.head? = some lessThan := by decide
  refine dropPrefix?_eq_none fun hp => ?_
  obtain ⟨q,rfl⟩ := hp
  cases header with
  | nil => exact absurd (hhead _ hm) nofun
  | cons c header => exact h c rfl (Option.some.inj (hhead _ hm))

/-- A text that does not begin with '<' has no header. -/
theorem header?_eq_none_of_head {p : List UInt8} (h : ∀ c ∈ p.head?, c ≠ lessThan) :
    header? p = none := by
  refine List.findSome?_eq_none_iff.mpr fun ⟨header,kind⟩ hx => ?_
  rw [dropPrefix?_header hx h,Option.map_none]

theorem header?_declaration (rest : List UInt8) :
    header? (xmlHeader ++ rest) = some (.leaf .declaration,rest) := by
  simp [header?,headers]

theorem header?_comment (rest : List UInt8) :
    header? (commentHeader ++ rest) = some (.leaf .comment,rest) := by
  have : (commentHeader ++ rest).dropPrefix? xmlHeader = none := rfl
  simp [header?,headers,this]

theorem header?_cData (rest : List UInt8) :
    header? (cdataHeader ++ rest) = some (.leaf .cData,rest) := by
  have h₁ : (cdataHeader ++ rest).dropPrefix? xmlHeader = none := rfl
  have h₂ : (cdataHeader ++ rest).dropPrefix? commentHeader = none := rfl
  simp [header?,headers,h₁,h₂]

theorem header?_unknown {rest : List UInt8} (hcomment : ¬ commentHeader <+: dtdHeader ++ rest)
    (hcData : ¬ cdataHeader <+: dtdHeader ++ rest) :
    header? (dtdHeader ++ rest) = some (.leaf .unknown,rest) := by
  have : (dtdHeader ++ rest).dropPrefix? xmlHeader = none := rfl
  simp [header?,headers,this,dropPrefix?_eq_none hcomment,dropPrefix?_eq_none hcData]

/-- The header of an element, in front of its name or of the '/' of an end tag. -/
theorem header?_element {c : UInt8} (h : isNameStartChar c ∨ c = slash) (rest : List UInt8) :
    header? (lessThan::c::rest) = some (.element,c::rest) := by
  have hq : ¬ c = 63 := by rintro rfl; revert h; decide
  have hb : ¬ c = 33 := by rintro rfl; revert h; decide
  simp [header?,headers,xmlHeader,commentHeader,cdataHeader,dtdHeader,elementHeader,
    List.dropPrefix?,hq,hb]

theorem skipWhiteSpace_append {ws : List UInt8} (hws : ∀ c ∈ ws, isWhiteSpace c)
    (p : List UInt8) : skipWhiteSpace (ws ++ p) = skipWhiteSpace p :=
  List.dropWhile_append_of_pos hws

theorem identify_header {ws p rest : List UInt8} {kind : Kind} (hws : ∀ c ∈ ws, isWhiteSpace c)
    (hp : p.head? = some lessThan) (h : header? p = some (kind,rest)) :
    identify (ws ++ p) = some (kind,rest) := by
  have hskip : skipWhiteSpace p = p := skipWhiteSpace_of_head fun c hc => by
    obtain rfl : lessThan = c := by simpa [hp] using hc
    decide
  rw [identify,skipWhiteSpace_append hws,hskip,if_neg (by rintro rfl; cases hp),h,Option.getD_some]

end Blush.Xml
