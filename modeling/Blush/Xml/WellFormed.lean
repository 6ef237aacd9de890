import Mathlib.Data.List.Chain
import Mathlib.Data.List.Nodup
import Blush.Xml.Progress

/-! What the parser accepts is well formed: names are names, the attributes of an element differ,
declarations stand in front of everything else, and the nesting is bounded. -/
namespace Blush.Xml
open Fuel Outcome Scan

def isName : List UInt8 → Bool
  | [] => false
  | c::p => isNameStartChar c && p.all isNameChar

/-- A text that is not CDATA. -/
def XMLNode.isText : XMLNode → Bool
  | text _ cData => !cData
  | _ => false

/-- A value that reads as it is up to its end tag. -/
structure Closed (kind : Leaf) (value : List UInt8) : Prop where
  closes : Closes kind.endTag value
  noCr : cr ∉ value
  noNul : 0 ∉ value

/-- Texts that stand side by side would be one. -/
def Separate (a b : XMLNode) : Prop := ¬ (a.isText ∧ b.isText)

/-- A node among the children of a node at a depth of the parser. -/
inductive WellFormed : ℕ → XMLNode → Prop
  | element {depth : ℕ} {name : List UInt8} {attributes : List XMLAttribute}
      {children : List XMLNode} (hname : isName name)
      (hattr : ∀ a ∈ attributes, isName a.name ∧ 0 ∉ a.value)
      (hdistinct : (attributes.map XMLAttribute.name).Nodup)
      (hdepth : children ≠ [] → depth+1 < maxElementDepth)
      (hchildren : ∀ c ∈ children, WellFormed (depth+1) c)
      (hdecl : ∀ c ∈ children, ¬ c.isDeclaration) (hsep : children.IsChain Separate) :
      WellFormed depth (.element name attributes children)
  | text {depth : ℕ} {value : List UInt8} (h : 0 ∉ value) : WellFormed depth (.text value false)
  | cData {depth : ℕ} {value : List UInt8} (h : Closed .cData value) :
      WellFormed depth (.text value true)
  | comment {depth : ℕ} {value : List UInt8} (h : Closed .comment value) :
      WellFormed depth (.comment value)
  | declaration {depth : ℕ} {value : List UInt8} (h : Closed .declaration value) :
      WellFormed depth (.declaration value)
  -- a value that would begin a comment or CDATA is none of an unknown node
  | unknown {depth : ℕ} {value : List UInt8} (h : Closed .unknown value)
      (hcomment : ¬ commentHeader <+: dtdHeader ++ value)
      (hcData : ¬ cdataHeader <+: dtdHeader ++ value) : WellFormed depth (.unknown value)

/-- The children of a node at a depth of the parser. -/
structure WellFormedChildren (depth : ℕ) (children : List XMLNode) : Prop where
  wellFormed : ∀ c ∈ children, WellFormed depth c
  declarations : ∀ c ∈ children, c.isDeclaration → depth = 1
  first : children.Pairwise fun a b => b.isDeclaration → a.isDeclaration
  separate : children.IsChain Separate

/-! ## Names and attributes -/

theorem isName_of_parseName {p name rest : List UInt8} (h : parseName p = some (name,rest)) :
    isName name := by
  obtain ⟨c,q,-,hc,rfl,-⟩ := parseName_eq_some h
  simp only [isName,hc,Bool.true_and,List.all_eq_true]
  exact fun d hd => List.mem_takeWhile_imp hd

theorem parseAttributes_wellFormed {fuel : ℕ} {attributes : List XMLAttribute} {p : List UInt8}
    {e : TagEnd} (h : parseAttributes fuel attributes p = .ok e)
    (hname : ∀ a ∈ attributes, isName a.name ∧ 0 ∉ a.value)
    (hdistinct : (attributes.map XMLAttribute.name).Nodup) :
    (∀ a ∈ e.attributes, isName a.name ∧ 0 ∉ a.value) ∧ (e.attributes.map XMLAttribute.name).Nodup := by
  induction fuel generalizing attributes p with
  | zero => cases h
  | succ fuel ih =>
    rw [parseAttributes] at h
    split at h
    · cases h
    · rename_i c q hq
      split at h
      · split at h
        · cases h
        · rename_i a rest ha
          obtain ⟨p₁,p₂,p₃,quote,hn,-,-,-,hv⟩ := attributeParseDeep_eq_some ha
          obtain ⟨piece,-,hvalue⟩ := parseText_eq_some hv
          split_ifs at h with hnew
          refine ih h (fun b hb => ?_) ?_
          · rcases List.mem_append.mp hb with hb | hb
            · exact hname b hb
            · obtain rfl := List.mem_singleton.mp hb
              exact ⟨isName_of_parseName hn,hvalue ▸ zero_notMem_cStr _⟩
          · rw [List.map_append,List.map_singleton]
            exact hdistinct.append (List.nodup_singleton _) (by simpa using hnew)
      · split_ifs at h
        · cases h
          exact ⟨hname,hdistinct⟩
        · cases h
          exact ⟨hname,hdistinct⟩

theorem Tag.wellFormed {p : List UInt8} {tag : Tag} (h : parseTag p = .ok tag) :
    isName tag.name ∧ (∀ a ∈ tag.attributes, isName a.name ∧ 0 ∉ a.value) ∧
      (tag.attributes.map XMLAttribute.name).Nodup := by
  obtain ⟨q,p₁,e,-,hname,he,hattr,-⟩ := parseTag_eq_ok h
  rw [hattr]
  exact ⟨isName_of_parseName hname,parseAttributes_wellFormed he (by simp) List.nodup_nil⟩

/-! ## Leaves -/

theorem closed_of_dropInfix? {kind : Leaf} {p piece rest : List UInt8} (h₀ : 0 ∉ p)
    (h : p.dropInfix? kind.endTag = some (piece,rest)) : Closed kind (getStr .newlines piece) := by
  have hne : kind.endTag ≠ [] := by cases kind <;> decide
  have hlf : lf ∉ kind.endTag := by cases kind <;> decide
  have hp : 0 ∉ piece := fun hm => h₀ (by
    rw [eq_of_dropInfix? h]
    simp [hm])
  rw [getStr_newlines,cStr_eq_self (zero_notMem_normalizeNewlines hp)]
  exact ⟨fun hi => closes_of_dropInfix? hne h (infix_of_normalizeNewlines hlf hi),
    cr_notMem_normalizeNewlines piece,zero_notMem_normalizeNewlines hp⟩

/-- The headers in front of the one of an unknown node do not match. -/
theorem not_prefix_of_header? {p rest : List UInt8}
    (h : header? p = some (.leaf .unknown,rest)) :
    p = dtdHeader ++ rest ∧ ¬ commentHeader <+: p ∧ ¬ cdataHeader <+: p := by
  simp only [header?,headers,List.findSome?_cons] at h
  have hnone {header : List UInt8} (hd : p.dropPrefix? header = none) : ¬ header <+: p := by
    rintro ⟨q,rfl⟩
    simp at hd
  cases h₁ : p.dropPrefix? xmlHeader with
  | some q => simp [h₁] at h
  | none =>
    cases h₂ : p.dropPrefix? commentHeader with
    | some q => simp [h₁,h₂] at h
    | none =>
      cases h₃ : p.dropPrefix? cdataHeader with
      | some q => simp [h₁,h₂,h₃] at h
      | none =>
        cases h₄ : p.dropPrefix? dtdHeader with
        | some q =>
          obtain rfl : q = rest := by simpa [h₁,h₂,h₃,h₄] using h
          exact ⟨eq_of_dropPrefix? h₄,hnone h₂,hnone h₃⟩
        | none => cases h₅ : p.dropPrefix? elementHeader <;> simp [h₁,h₂,h₃,h₄,h₅] at h

/-- A leaf is well formed; one that is a text leaves the '<' behind it, and there was none in
front of it. -/
theorem leaf_wellFormed {p q rest : List UInt8} {kind : Leaf} {node : XMLNode} (depth : ℕ)
    (h₀ : 0 ∉ p) (hi : identify p = some (.leaf kind,q))
    (hl : leafParseDeep kind q = .ok (node,rest)) :
    WellFormed depth node ∧
      (node.isText → rest.head? = some lessThan ∧ p.head? ≠ some lessThan) := by
  have hq : 0 ∉ q := by
    rcases identify_eq_some hi with ⟨header,hm,hs⟩ | ⟨-,rfl,-⟩
    · exact fun hm' => h₀ ((behind_of_header hm hs).suffix.subset hm')
    · exact h₀
  cases kind with
  | declaration =>
    obtain ⟨piece,hp,rfl⟩ := parseValue_eq_ok hl
    exact ⟨.declaration (closed_of_dropInfix? hq hp),nofun⟩
  | comment =>
    obtain ⟨piece,hp,rfl⟩ := parseValue_eq_ok hl
    exact ⟨.comment (closed_of_dropInfix? hq hp),nofun⟩
  | cData =>
    obtain ⟨piece,hp,rfl⟩ := parseValue_eq_ok hl
    exact ⟨.cData (closed_of_dropInfix? hq hp),nofun⟩
  | unknown =>
    obtain ⟨piece,hp,rfl⟩ := parseValue_eq_ok hl
    have hv := closed_of_dropInfix? hq hp
    have hpiece : 0 ∉ piece := fun hm => hq (by
      rw [eq_of_dropInfix? hp]
      simp [hm])
    rcases identify_cases hi with hh | ⟨hk,-⟩
    · obtain ⟨hs,hcomment,hcData⟩ := not_prefix_of_header? hh
      rw [eq_of_dropInfix? hp,List.append_assoc,← List.append_assoc dtdHeader] at hs
      rw [getStr_newlines,cStr_eq_self (zero_notMem_normalizeNewlines hpiece)] at hv ⊢
      have hpre {t : List UInt8} (hlf : lf ∉ t) (h : dtdHeader ++ t <+: skipWhiteSpace p → False) :
          ¬ dtdHeader ++ t <+: dtdHeader ++ normalizeNewlines piece := fun ht => h (by
        rw [hs]
        have := prefix_of_normalizeNewlines (e:=[]) hlf
          (by simpa using (List.prefix_append_right_inj _).mp ht)
        rw [List.append_nil] at this
        exact ((List.prefix_append_right_inj _).mpr this).trans (List.prefix_append _ _))
      exact ⟨.unknown hv (hpre (t:=[45,45]) (by decide) hcomment)
        (hpre (t:=[91,67,68,65,84,65,91]) (by decide) hcData),nofun⟩
    · cases hk
  | text =>
    obtain ⟨piece,after,hd,-,rfl,rfl⟩ := textParseDeep_eq_ok hl
    refine ⟨.text (zero_notMem_cStr _),fun _ => ⟨rfl,fun hhead => ?_⟩⟩
    rcases identify_eq_some hi with ⟨header,hm,-⟩ | ⟨-,rfl,c,t,hs,hc⟩
    · simp [headers] at hm
    · cases q with
      | nil => cases hhead
      | cons d q =>
        obtain rfl : d = lessThan := by simpa using hhead
        exact hc (List.cons.inj hs).1.symm

/-! ## Nodes -/

theorem WellFormedChildren.append {depth : ℕ} {children : List XMLNode} {node : XMLNode}
    (h : WellFormedChildren depth children) (hw : WellFormed depth node)
    (hd : node.isDeclaration → depth = 1 ∧ wellLocated children)
    (hs : ∀ c ∈ children.getLast?, Separate c node) :
    WellFormedChildren depth (children ++ [node]) where
  wellFormed c hc := by
    rcases List.mem_append.mp hc with hc | hc
    · exact h.wellFormed c hc
    · rwa [List.mem_singleton.mp hc]
  declarations c hc := by
    rcases List.mem_append.mp hc with hc | hc
    · exact h.declarations c hc
    · rw [List.mem_singleton.mp hc]
      exact fun hdecl => (hd hdecl).1
  first := by
    refine List.pairwise_append.mpr ⟨h.first,List.pairwise_singleton _ _,fun a ha b hb hdecl => ?_⟩
    rw [List.mem_singleton.mp hb] at hdecl
    rcases children.eq_nil_or_concat' with rfl | ⟨init,last,rfl⟩
    · cases ha
    · have hlast : last.isDeclaration := by
        have hl := (hd hdecl).2
        rw [wellLocated,List.getLast?_concat] at hl
        split at hl
        · rename_i hl'
          cases hl'
          exact (Bool.and_eq_true_iff.mp hl).2
        · simp_all
      rcases List.mem_append.mp ha with hi | hi
      · exact (List.pairwise_append.mp h.first).2.2 a hi last (by simp) hlast
      · rwa [List.mem_singleton.mp hi]
  separate := by
    refine List.isChain_append.mpr ⟨h.separate,List.isChain_singleton _,fun a ha b hb => ?_⟩
    obtain rfl : node = b := by simpa using hb
    exact hs a ha

theorem WellFormedChildren.nil (depth : ℕ) : WellFormedChildren depth [] :=
  ⟨by simp,by simp,.nil,.nil⟩

/-- Every node the loop adds is well formed. -/
theorem nodeParseDeep_wellFormed {fuel depth : ℕ} {children : List XMLNode} {p : List UInt8}
    {inner : Children} (h₀ : 0 ∉ p) (hdepth : depth < maxElementDepth) (hpos : 0 < depth)
    (h : nodeParseDeep fuel depth children p = .ok inner) (hc : WellFormedChildren depth children)
    (hlast : ∀ c ∈ children.getLast?, c.isText → p.head? = some lessThan) :
    WellFormedChildren depth inner.nodes := by
  induction fuel generalizing depth children p inner with
  | zero => cases h
  | succ fuel ih =>
    rcases nodeParseDeep_succ_eq_ok.mp h with ⟨-,rfl⟩ | ⟨q,tag,-,-,-,rfl⟩ | ⟨node,rest,hr,h⟩
    · exact hc
    · exact hc
    · have hrest : 0 ∉ rest := fun hm => h₀ (hr.behind.suffix.subset hm)
      have hnode : WellFormed depth node ∧
          (node.isText → rest.head? = some lessThan ∧ p.head? ≠ some lessThan) := by
        cases hr with
        | leaf hi hl => exact leaf_wellFormed depth h₀ hi hl
        | closed _ ht =>
          obtain ⟨hname,hattr,hdistinct⟩ := Tag.wellFormed ht
          exact ⟨.element hname hattr hdistinct (absurd rfl) (by simp) (by simp) .nil,nofun⟩
        | «open» hi ht _ _ hd hin =>
          obtain ⟨hname,hattr,hdistinct⟩ := Tag.wellFormed ht
          have hin := ih (fun hm => h₀ ((behind_of_tag hi ht).suffix.subset hm))
            (by omega) (Nat.succ_pos depth) hin (.nil _) (by simp)
          refine ⟨.element hname hattr hdistinct (fun _ => by omega) hin.wellFormed
            (fun c hc hdecl => ?_) hin.separate,nofun⟩
          have := hin.declarations c hc hdecl
          omega
      have hdecl : node.isDeclaration → depth = 1 ∧ wellLocated children := by
        cases hr with
        | leaf _ _ hd => exact hd
        | closed => exact nofun
        | «open» => exact nofun
      refine ih hrest hdepth hpos h (hc.append hnode.1 hdecl fun c hm hs => ?_) fun c hm hs => ?_
      · exact (hnode.2 hs.2).2 (hlast c hm hs.1)
      · obtain rfl : node = c := by simpa using hm
        exact (hnode.2 hs).1

theorem readBOM_suffix (p : List UInt8) : (readBOM p).2 <:+ p := by
  rw [readBOM]
  split
  · rename_i rest h
    exact ⟨bom,(eq_of_dropPrefix? h).symm⟩
  · exact List.suffix_rfl

/-- A document, as the parser accepts it. -/
abbrev XMLDocument.WellFormed (doc : XMLDocument) : Prop := WellFormedChildren 1 doc.children

theorem documentParse_wellFormed {xml : List UInt8} (h₀ : 0 ∉ xml) {doc : XMLDocument}
    (h : documentParse xml = .ok doc) : doc.WellFormed := by
  obtain ⟨-,-,endTag,fuel,h⟩ := documentParse_eq_ok.mp h
  have hp : (readBOM (skipWhiteSpace xml)).2 <:+ xml := (readBOM_suffix _).trans
    (skipWhiteSpace_suffix xml)
  exact nodeParseDeep_wellFormed (fun hm => h₀ (hp.subset hm)) (by decide) Nat.one_pos h (.nil 1)
    (by simp)

end Blush.Xml
