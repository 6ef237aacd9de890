import Blush.Xml.Parser

/-! The parser goes on through the text, so that it ends on every text: the fuel it is given is
enough, and more fuel changes nothing. -/
namespace Blush.Xml
open Fuel Outcome Scan

/-! ## Parts that go on -/

theorem skipWhiteSpace_suffix (p : List UInt8) : skipWhiteSpace p <:+ p := List.dropWhile_suffix _

@[simp] theorem skipWhiteSpace_lessThan (p : List UInt8) :
    skipWhiteSpace (lessThan::p) = lessThan::p := rfl

theorem behind_of_skipWhiteSpace {p q : List UInt8} {c : UInt8} (h : skipWhiteSpace p = c::q) :
    Behind q p := (Behind.cons c q).trans_suffix (h ▸ skipWhiteSpace_suffix p)

theorem header?_eq_some {p rest : List UInt8} {kind : Kind} (h : header? p = some (kind,rest)) :
    ∃ header, (header,kind) ∈ headers ∧ p = header ++ rest := by
  obtain ⟨⟨header,k⟩,hm,hr⟩ := List.exists_of_findSome?_eq_some h
  obtain ⟨rest',hd,he⟩ := Option.map_eq_some_iff.mp hr
  obtain ⟨rfl,rfl⟩ : k = kind ∧ rest' = rest := by simpa using he
  exact ⟨header,hm,Scan.eq_of_dropPrefix? hd⟩

theorem header?_eq_none {p : List UInt8} (h : header? p = none) : ∀ c ∈ p.head?, c ≠ lessThan := by
  rintro c hc rfl
  cases p with
  | nil => simp at hc
  | cons d p =>
    obtain rfl : d = lessThan := by simpa using hc
    have := List.findSome?_eq_none_iff.mp h (elementHeader,.element) (by simp [headers])
    simp [elementHeader,List.dropPrefix?] at this

/-- What `Identify` finds: a header behind whitespace, or a text that begins in front of it. -/
theorem identify_cases {p rest : List UInt8} {kind : Kind} (h : identify p = some (kind,rest)) :
    header? (skipWhiteSpace p) = some (kind,rest) ∨
      kind = .leaf .text ∧ rest = p ∧ ∃ c q, skipWhiteSpace p = c::q ∧ c ≠ lessThan := by
  rw [identify] at h
  split at h
  · cases h
  · rename_i hne
    cases hh : header? (skipWhiteSpace p) with
    | some r => exact .inl (by simpa [hh] using h)
    | none =>
      obtain ⟨rfl,rfl⟩ : .leaf .text = kind ∧ p = rest := by simpa [hh] using h
      obtain ⟨c,q,hq⟩ := List.exists_cons_of_ne_nil hne
      exact .inr ⟨rfl,rfl,c,q,hq,header?_eq_none hh c (by simp [hq])⟩

theorem identify_eq_some {p rest : List UInt8} {kind : Kind} (h : identify p = some (kind,rest)) :
    (∃ header, (header,kind) ∈ headers ∧ skipWhiteSpace p = header ++ rest) ∨
      kind = .leaf .text ∧ rest = p ∧ ∃ c q, skipWhiteSpace p = c::q ∧ c ≠ lessThan :=
  (identify_cases h).imp_left header?_eq_some

theorem behind_of_header {p rest header : List UInt8} {kind : Kind} (hm : (header,kind) ∈ headers)
    (h : skipWhiteSpace p = header ++ rest) : Behind rest p := by
  have hne : ∀ x ∈ headers, x.1 ≠ [] := by decide
  exact Behind.trans_suffix ⟨header,hne _ hm,rfl⟩ (h ▸ skipWhiteSpace_suffix p)

theorem parseName_eq_some {p name rest : List UInt8} (h : parseName p = some (name,rest)) :
    ∃ c q, p = c::q ∧ isNameStartChar c ∧ name = c::q.takeWhile isNameChar ∧
      rest = q.dropWhile isNameChar := by
  cases p with
  | nil => cases h
  | cons c q =>
    rw [parseName] at h
    split at h
    · rename_i hc
      obtain ⟨rfl,rfl⟩ : _ = name ∧ _ = rest := by simpa using h
      exact ⟨c,q,rfl,hc,rfl,rfl⟩
    · cases h

theorem behind_of_parseName {p name rest : List UInt8} (h : parseName p = some (name,rest)) :
    Behind rest p := by
  obtain ⟨c,q,rfl,-,-,rfl⟩ := parseName_eq_some h
  exact behind_of_suffix (.cons c q) (List.dropWhile_suffix _)

theorem parseText_eq_some {p endTag value rest : List UInt8} {flags : Flags}
    (h : parseText p endTag flags = some (value,rest)) :
    ∃ piece, p.dropInfix? endTag = some (piece,rest) ∧ value = getStr flags piece := by
  obtain ⟨⟨piece,r⟩,hr,he⟩ := Option.map_eq_some_iff.mp h
  obtain ⟨rfl,rfl⟩ : getStr flags piece = value ∧ r = rest := by simpa using he
  exact ⟨piece,hr,rfl⟩

theorem behind_of_parseText {p endTag value rest : List UInt8} {flags : Flags} (hne : endTag ≠ [])
    (h : parseText p endTag flags = some (value,rest)) : Behind rest p := by
  obtain ⟨piece,hp,-⟩ := parseText_eq_some h
  exact Scan.behind_of_dropInfix? hne hp

/-- The parts of an attribute. -/
theorem attributeParseDeep_eq_some {p rest : List UInt8} {a : XMLAttribute}
    (h : attributeParseDeep p = some (a,rest)) :
    ∃ p₁ p₂ p₃ quote, parseName p = some (a.name,p₁) ∧ skipWhiteSpace p₁ = equalsSign::p₂ ∧
      skipWhiteSpace p₂ = quote::p₃ ∧ (quote = doubleQuote ∨ quote = singleQuote) ∧
      parseText p₃ [quote] .attributeValue = some (a.value,rest) := by
  rw [attributeParseDeep] at h
  split at h
  · cases h
  · rename_i name p₁ hname
    split at h
    · cases h
    · rename_i c p₂ hc
      split at h
      · cases h
      · rename_i heq
        split at h
        · cases h
        · rename_i quote p₃ hquote
          split at h
          · rename_i hq
            obtain ⟨⟨value,r⟩,hv,he⟩ := Option.map_eq_some_iff.mp h
            obtain ⟨rfl,rfl⟩ : ⟨name,value⟩ = a ∧ r = rest := by simpa using he
            exact ⟨p₁,p₂,p₃,quote,hname,by rw [hc,not_not.mp heq],hquote,hq,hv⟩
          · cases h

theorem behind_of_attributeParseDeep {p rest : List UInt8} {a : XMLAttribute}
    (h : attributeParseDeep p = some (a,rest)) : Behind rest p := by
  obtain ⟨p₁,p₂,p₃,quote,hname,heq,hquote,-,hv⟩ := attributeParseDeep_eq_some h
  exact (behind_of_parseText (List.cons_ne_nil _ _) hv).trans (behind_of_skipWhiteSpace hquote)
    |>.trans (behind_of_skipWhiteSpace heq) |>.trans (behind_of_parseName hname)

/-! ## Tags -/

theorem parseAttributes_ne_outOfFuel {fuel : ℕ} (attributes : List XMLAttribute) {p : List UInt8}
    (h : p.length < fuel) : parseAttributes fuel attributes p ≠ .outOfFuel := by
  induction fuel generalizing attributes p with
  | zero => omega
  | succ fuel ih =>
    rw [parseAttributes]
    split
    · exact nofun
    · rename_i c q hq
      split
      · split
        · exact nofun
        · rename_i attrib rest ha
          split
          · exact nofun
          · have := ((behind_of_attributeParseDeep ha).trans_suffix
              (hq ▸ skipWhiteSpace_suffix p)).length_lt
            exact ih _ (by omega)
      · split_ifs <;> exact nofun

theorem behind_of_parseAttributes {fuel : ℕ} {attributes : List XMLAttribute} {p : List UInt8}
    {e : TagEnd} (h : parseAttributes fuel attributes p = .ok e) : Behind e.rest p := by
  induction fuel generalizing attributes p with
  | zero => cases h
  | succ fuel ih =>
    rw [parseAttributes] at h
    split at h
    · cases h
    · rename_i c q hq
      have hlt := behind_of_skipWhiteSpace hq
      split at h
      · split at h
        · cases h
        · rename_i attrib rest ha
          split at h
          · cases h
          · exact (ih h).trans ((behind_of_attributeParseDeep ha).trans_suffix
              (hq ▸ skipWhiteSpace_suffix p))
      · split_ifs at h
        · cases h
          exact hlt
        · cases h
          exact behind_of_suffix hlt (List.tail_suffix q)

theorem parseTag_ne_outOfFuel (p : List UInt8) : parseTag p ≠ .outOfFuel := by
  rw [parseTag]
  split
  · exact nofun
  · exact bind_ne_outOfFuel (parseAttributes_ne_outOfFuel [] (Nat.lt_succ_self _)) fun _ _ => nofun

/-- The parts of a tag. -/
theorem parseTag_eq_ok {p : List UInt8} {tag : Tag} (h : parseTag p = .ok tag) :
    ∃ q p₁ e, (skipWhiteSpace p = q ∨ skipWhiteSpace p = slash::q) ∧
      parseName q = some (tag.name,p₁) ∧ parseAttributes (p₁.length+1) [] p₁ = .ok e ∧
      tag.attributes = e.attributes ∧ tag.rest = e.rest := by
  rw [parseTag] at h
  split at h
  · cases h
  · rename_i name p₁ hname
    obtain ⟨e,he,htag⟩ := bind_eq_ok.mp h
    cases htag
    refine ⟨_,p₁,e,?_,hname,he,rfl,rfl⟩
    split
    · rename_i hs
      refine .inr ?_
      cases hq : skipWhiteSpace p with
      | nil => simp [hq] at hs
      | cons c q =>
        obtain rfl : c = slash := by simpa [hq] using hs
        rfl
    · exact .inl rfl

theorem behind_of_parseTag {p : List UInt8} {tag : Tag} (h : parseTag p = .ok tag) :
    Behind tag.rest p := by
  obtain ⟨q,p₁,e,hq,hname,he,-,hrest⟩ := parseTag_eq_ok h
  have hlt := (behind_of_parseAttributes he).trans (behind_of_parseName hname)
  rw [hrest]
  rcases hq with rfl | hq
  · exact hlt.trans_suffix (skipWhiteSpace_suffix p)
  · exact hlt.trans (behind_of_skipWhiteSpace hq)

/-! ## Nodes -/

theorem parseValue_ne_outOfFuel {p endTag : List UInt8} {flags : Flags} {error : XMLError}
    {node : List UInt8 → XMLNode} : parseValue p endTag flags error node ≠ .outOfFuel := by
  rw [parseValue]
  split <;> exact nofun

theorem parseValue_eq_ok {p endTag rest : List UInt8} {flags : Flags} {error : XMLError}
    {f : List UInt8 → XMLNode} {node : XMLNode}
    (h : parseValue p endTag flags error f = .ok (node,rest)) :
    ∃ piece, p.dropInfix? endTag = some (piece,rest) ∧ node = f (getStr flags piece) := by
  rw [parseValue] at h
  split at h
  · cases h
  · rename_i value after hv
    cases h
    obtain ⟨piece,hp,rfl⟩ := parseText_eq_some hv
    exact ⟨piece,hp,rfl⟩

theorem leafParseDeep_ne_outOfFuel (kind : Leaf) (p : List UInt8) :
    leafParseDeep kind p ≠ .outOfFuel := by
  cases kind with
  | text =>
    refine bind_ne_outOfFuel parseValue_ne_outOfFuel fun _ _ => ?_
    split <;> exact nofun
  | declaration | comment | cData | unknown => exact parseValue_ne_outOfFuel

/-- A text is not empty, and leaves the '<' behind it. -/
theorem textParseDeep_eq_ok {p rest : List UInt8} {node : XMLNode}
    (h : leafParseDeep .text p = .ok (node,rest)) :
    ∃ piece after, p.dropInfix? Leaf.text.endTag = some (piece,after) ∧ after ≠ [] ∧
      rest = lessThan::after ∧ node = .text (getStr .textElement piece) false := by
  obtain ⟨⟨n,after⟩,hn,hr⟩ := bind_eq_ok.mp h
  obtain ⟨piece,hp,rfl⟩ := parseValue_eq_ok hn
  dsimp only at hr
  split at hr
  · cases hr
  · rename_i hne
    cases hr
    exact ⟨piece,after,hp,hne,rfl,rfl⟩

/-- A leaf leaves less than there was in front of it. -/
theorem behind_of_leafParseDeep {p₀ p rest : List UInt8} {kind : Leaf} {node : XMLNode}
    (hi : identify p₀ = some (.leaf kind,p)) (h : leafParseDeep kind p = .ok (node,rest)) :
    Behind rest p₀ := by
  have hp : p <:+ p₀ := by
    rcases identify_eq_some hi with ⟨header,hm,hs⟩ | ⟨-,rfl,-⟩
    · exact (behind_of_header hm hs).suffix
    · exact List.suffix_rfl
  cases kind with
  | text =>
    obtain ⟨piece,after,hd,-,rfl,-⟩ := textParseDeep_eq_ok h
    have hp₀ := Scan.eq_of_dropInfix? hd
    refine Behind.trans_suffix ⟨piece,?_,by rw [hp₀,List.append_assoc]; rfl⟩ hp
    rintro rfl
    rcases identify_eq_some hi with ⟨header,hm,hs⟩ | ⟨-,rfl,c,q,hs,hc⟩
    · simp [headers] at hm
    · rw [hp₀] at hs
      exact hc (List.cons.inj hs).1.symm
  | declaration | comment | cData | unknown =>
    obtain ⟨piece,hd,-⟩ := parseValue_eq_ok h
    exact (Scan.behind_of_dropInfix? (by decide) hd).trans_suffix hp

theorem nodeParseDeep_below (fuel depth : ℕ) (children : List XMLNode) (p : List UInt8) :
    Below (nodeParseDeep fuel depth children p) (nodeParseDeep (fuel+1) depth children p) := by
  induction fuel generalizing depth children p with
  | zero => exact .inl rfl
  | succ fuel ih =>
    rw [nodeParseDeep,nodeParseDeep]
    split
    · exact .refl _
    · refine (Below.refl _).bind fun tag => ?_
      split
      · exact .refl _
      · exact ih _ _ _
      · split_ifs
        · exact .refl _
        · exact .refl _
        · refine (ih _ _ _).bind fun inner => ?_
          split
          · exact .refl _
          · split_ifs
            · exact .refl _
            · exact ih _ _ _
    · refine (Below.refl _).bind fun r => ?_
      split_ifs
      · exact .refl _
      · exact ih _ _ _

theorem nodeParseDeep_mono {fuel fuel' depth : ℕ} {children : List XMLNode} {p : List UInt8}
    {inner : Children} (hf : fuel ≤ fuel') (h : nodeParseDeep fuel depth children p = .ok inner) :
    nodeParseDeep fuel' depth children p = .ok inner := by
  have hb := below_of_le (f:=fun n => nodeParseDeep n depth children p)
    (fun n => nodeParseDeep_below n depth children p) hf
  exact (hb.eq (h ▸ nofun)).symm.trans h

/-- A node that one round of the loop reads at `p`, and what is behind it. -/
inductive NodeRead (fuel depth : ℕ) (children : List XMLNode) (p : List UInt8) :
    XMLNode → List UInt8 → Prop
  | leaf {kind : Leaf} {q rest : List UInt8} {node : XMLNode}
      (hi : identify p = some (.leaf kind,q)) (hl : leafParseDeep kind q = .ok (node,rest))
      (hd : node.isDeclaration → depth = 1 ∧ wellLocated children) : NodeRead _ _ _ _ node rest
  | closed {q : List UInt8} {tag : Tag} (hi : identify p = some (.element,q))
      (ht : parseTag q = .ok tag) (hc : tag.closingType = .closed) :
      NodeRead _ _ _ _ (.element tag.name tag.attributes []) tag.rest
  | open {q rest : List UInt8} {tag : Tag} {nodes : List XMLNode}
      (hi : identify p = some (.element,q)) (ht : parseTag q = .ok tag)
      (hc : tag.closingType = .open) (hne : tag.rest ≠ []) (hdepth : depth+1 ≠ maxElementDepth)
      (hin : nodeParseDeep fuel (depth+1) [] tag.rest = .ok ⟨nodes,some (tag.name,rest)⟩) :
      NodeRead _ _ _ _ (.element tag.name tag.attributes nodes) rest

/-- One round of the loop: the text ends, an end tag is read, or a node is. -/
theorem nodeParseDeep_succ_eq_ok {fuel depth : ℕ} {children : List XMLNode} {p : List UInt8}
    {inner : Children} :
    nodeParseDeep (fuel+1) depth children p = .ok inner ↔
      (identify p = none ∧ inner = ⟨children,none⟩) ∨
      (∃ q tag, identify p = some (.element,q) ∧ parseTag q = .ok tag ∧
        tag.closingType = .closing ∧ inner = ⟨children,some (tag.name,tag.rest)⟩) ∨
      ∃ node rest, NodeRead fuel depth children p node rest ∧
        nodeParseDeep fuel depth (children ++ [node]) rest = .ok inner := by
  rw [nodeParseDeep]
  constructor
  · intro h
    split at h
    · rename_i hi
      cases h
      exact .inl ⟨hi,rfl⟩
    · rename_i q hi
      obtain ⟨tag,ht,h⟩ := bind_eq_ok.mp h
      split at h
      · rename_i hc
        cases h
        exact .inr (.inl ⟨q,tag,hi,ht,hc,rfl⟩)
      · rename_i hc
        exact .inr (.inr ⟨_,_,.closed hi ht hc,h⟩)
      · rename_i hc
        split_ifs at h with hne hdepth
        obtain ⟨⟨nodes,endTag⟩,hin,h⟩ := bind_eq_ok.mp h
        dsimp only at h
        split at h
        · cases h
        · rename_i name rest
          split_ifs at h with hname
          obtain rfl := not_not.mp hname
          exact .inr (.inr ⟨_,_,.open hi ht hc hne hdepth hin,h⟩)
    · rename_i kind q hi
      obtain ⟨⟨node,rest⟩,hl,h⟩ := bind_eq_ok.mp h
      split_ifs at h with hd
      exact .inr (.inr ⟨_,_,.leaf hi hl fun hdecl => not_not.mp fun hn => hd ⟨hdecl,hn⟩,h⟩)
  · rintro (⟨hi,rfl⟩ | ⟨q,tag,hi,ht,hc,rfl⟩ | ⟨node,rest,hr,h⟩)
    · rw [hi]
    · simp [hi,ht,hc]
    · cases hr with
      | leaf hi hl hd =>
        simp only [hi,hl,ok_bind]
        rwa [if_neg fun hn => hn.2 (hd hn.1)]
      | closed hi ht hc => simpa [hi,ht,hc] using h
      | «open» hi ht hc hne hdepth hin => simpa [hi,ht,hc,hne,hdepth,hin] using h

theorem behind_of_tag {p q : List UInt8} {tag : Tag} (hi : identify p = some (.element,q))
    (ht : parseTag q = .ok tag) : Behind tag.rest p := by
  rcases identify_eq_some hi with ⟨header,hm,hs⟩ | ⟨hk,-⟩
  · exact (behind_of_parseTag ht).trans (behind_of_header hm hs)
  · cases hk

/-- An end tag that the loop over the children reads is part of the text. -/
theorem behind_of_endTag {fuel depth : ℕ} {children : List XMLNode} {p endTag rest : List UInt8}
    {nodes : List XMLNode}
    (h : nodeParseDeep fuel depth children p = .ok ⟨nodes,some (endTag,rest)⟩) :
    Behind rest p := by
  induction fuel generalizing depth children p endTag rest nodes with
  | zero => cases h
  | succ fuel ih =>
    rcases nodeParseDeep_succ_eq_ok.mp h with ⟨-,he⟩ | ⟨q,tag,hi,ht,-,he⟩ | ⟨node,rest',hr,h⟩
    · cases he
    · cases he
      exact behind_of_tag hi ht
    · refine (ih h).trans ?_
      cases hr with
      | leaf hi hl => exact behind_of_leafParseDeep hi hl
      | closed hi ht => exact behind_of_tag hi ht
      | «open» hi ht _ _ _ hin => exact (ih hin).trans (behind_of_tag hi ht)

theorem NodeRead.behind {fuel depth : ℕ} {children : List XMLNode} {p rest : List UInt8}
    {node : XMLNode} (h : NodeRead fuel depth children p node rest) : Behind rest p := by
  cases h with
  | leaf hi hl => exact behind_of_leafParseDeep hi hl
  | closed hi ht => exact behind_of_tag hi ht
  | «open» hi ht _ _ _ hin => exact (behind_of_endTag hin).trans (behind_of_tag hi ht)

theorem nodeParseDeep_ne_outOfFuel {fuel : ℕ} (depth : ℕ) (children : List XMLNode) {p : List UInt8}
    (h : p.length < fuel) : nodeParseDeep fuel depth children p ≠ .outOfFuel := by
  induction fuel generalizing depth children p with
  | zero => omega
  | succ fuel ih =>
    rw [nodeParseDeep]
    split
    · exact nofun
    · rename_i q hi
      refine bind_ne_outOfFuel (parseTag_ne_outOfFuel q) fun tag ht => ?_
      have := (behind_of_tag hi ht).length_lt
      split
      · exact nofun
      · exact ih _ _ (by omega)
      · split_ifs
        · exact nofun
        · exact nofun
        · refine bind_ne_outOfFuel (ih _ _ (by omega)) fun inner hin => ?_
          split
          · exact nofun
          · rename_i endTag rest he
            split_ifs
            · exact nofun
            · obtain ⟨nodes,e⟩ := inner
              obtain rfl : e = _ := he
              have := (behind_of_endTag hin).length_lt
              exact ih _ _ (by omega)
    · rename_i kind q hi
      refine bind_ne_outOfFuel (leafParseDeep_ne_outOfFuel kind q) fun r hl => ?_
      split_ifs
      · exact nofun
      · have := (behind_of_leafParseDeep hi hl).length_lt
        exact ih _ _ (by omega)

/-! ## Documents -/

/-- The loop at `p` leaves `inner`. -/
def Parses (depth : ℕ) (children : List XMLNode) (p : List UInt8) (inner : Children) : Prop :=
  ∃ fuel, nodeParseDeep fuel depth children p = .ok inner

/-- `Parse` gives its loop enough fuel. -/
theorem parses_iff {depth : ℕ} {children : List XMLNode} {p : List UInt8} {inner : Children} :
    Parses depth children p inner ↔ nodeParseDeep (p.length+1) depth children p = .ok inner := by
  refine ⟨fun ⟨fuel,h⟩ => ?_,fun h => ⟨_,h⟩⟩
  have hb := below_of_le (f:=fun n => nodeParseDeep n depth children p)
    (fun n => nodeParseDeep_below n depth children p) (Nat.le_max_left (p.length+1) fuel)
  rw [hb.eq (nodeParseDeep_ne_outOfFuel depth children (Nat.lt_succ_self _))]
  exact nodeParseDeep_mono (Nat.le_max_right _ _) h

/-- `Parse` ends on every text. -/
theorem documentParse_ne_outOfFuel (xml : List UInt8) : documentParse xml ≠ .outOfFuel := by
  rw [documentParse]
  split
  · exact nofun
  · exact bind_ne_outOfFuel (nodeParseDeep_ne_outOfFuel _ _ (Nat.lt_succ_self _)) fun _ _ => nofun

theorem documentParse_eq_ok {xml : List UInt8} {doc : XMLDocument} :
    documentParse xml = .ok doc ↔
      (readBOM (skipWhiteSpace xml)).2 ≠ [] ∧ (readBOM (skipWhiteSpace xml)).1 = doc.writeBOM ∧
        ∃ endTag, Parses 1 [] (readBOM (skipWhiteSpace xml)).2 ⟨doc.children,endTag⟩ := by
  rw [documentParse]
  split
  · rename_i h
    simp [h]
  · rename_i h
    simp only [bind_eq_ok,← parses_iff]
    constructor
    · rintro ⟨⟨nodes,endTag⟩,hp,hd⟩
      cases hd
      exact ⟨h,rfl,endTag,hp⟩
    · rintro ⟨-,hb,endTag,hp⟩
      exact ⟨_,hp,by rw [hb]⟩

end Blush.Xml
