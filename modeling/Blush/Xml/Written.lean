import Blush.Xml.Printed

/-! Texts in which nodes are written with whitespace in front of them, and that the parser reads the
nodes where they are written. -/
namespace Blush.Xml
open Fuel Outcome Scan

/-- What the parser reads back: values without carriage returns, which it would normalize, and
texts that are not whitespace alone, which it would drop. -/
inductive Printable : XMLNode → Prop
  | element {name : List UInt8} {attributes : List XMLAttribute} {children : List XMLNode}
      (hattr : ∀ a ∈ attributes, cr ∉ a.value) (hchildren : ∀ c ∈ children, Printable c) :
      Printable (.element name attributes children)
  | text {value : List UInt8} (hcr : cr ∉ value) (h : ∃ c ∈ value, ¬ isWhiteSpace c) :
      Printable (.text value false)
  | cData (value : List UInt8) : Printable (.text value true)
  | comment (value : List UInt8) : Printable (.comment value)
  | declaration (value : List UInt8) : Printable (.declaration value)
  | unknown (value : List UInt8) : Printable (.unknown value)

/-- What the printer prints for a node without children. -/
def XMLNode.leafText : XMLNode → Option (List UInt8)
  | element .. => none
  | text value true => some (cdataHeader ++ value ++ Leaf.cData.endTag)
  | text value false => some (printString true value)
  | comment value => some (commentHeader ++ value ++ Leaf.comment.endTag)
  | declaration value => some (xmlHeader ++ value ++ Leaf.declaration.endTag)
  | unknown value => some (dtdHeader ++ value ++ Leaf.unknown.endTag)

/-- A text at which a node can end that is a text: a '<' with something behind it. -/
def StartsTag (t : List UInt8) : Prop := ∃ c q, t = lessThan::c::q

def endTagText (name : List UInt8) : List UInt8 := [lessThan,slash] ++ name ++ [greaterThan]

/-- The nodes are written at the front of `t`, in front of `rest`. -/
inductive Written : List XMLNode → (t rest : List UInt8) → Prop
  | nil {ws rest : List UInt8} (hws : ∀ c ∈ ws, isWhiteSpace c) : Written [] (ws ++ rest) rest
  | leaf {ws w t rest : List UInt8} {node : XMLNode} {nodes : List XMLNode}
      (hws : ∀ c ∈ ws, isWhiteSpace c) (hleaf : node.leafText = some w)
      (htext : node.isText → ws = [] ∧ StartsTag t) (h : Written nodes t rest) :
      Written (node::nodes) (ws ++ (w ++ t)) rest
  | closed {ws name t rest : List UInt8} {attributes : List XMLAttribute} {nodes : List XMLNode}
      (hws : ∀ c ∈ ws, isWhiteSpace c) (h : Written nodes t rest) :
      Written (.element name attributes []::nodes)
        (ws ++ lessThan::(name ++ (attributesText attributes ++ (tagEnd true ++ t)))) rest
  | open {ws name t t' rest : List UInt8} {attributes : List XMLAttribute}
      {children nodes : List XMLNode} (hws : ∀ c ∈ ws, isWhiteSpace c) (hne : children ≠ [])
      (hin : Written children t' (endTagText name ++ t)) (h : Written nodes t rest) :
      Written (.element name attributes children::nodes)
        (ws ++ lessThan::(name ++ (attributesText attributes ++ (tagEnd false ++ t')))) rest

/-! ## The parser reads what is written -/

theorem parseValue_closed {kind : Leaf} {value : List UInt8} (h : Closed kind value)
    (error : XMLError) (f : List UInt8 → XMLNode) (t : List UInt8) :
    parseValue (value ++ kind.endTag ++ t) kind.endTag .newlines error f = .ok (f value,t) := by
  rw [parseValue,parseText,dropInfix?_append h.closes,Option.map_some,
    getStr_newlines_eq_self ⟨h.noNul,h.noCr⟩]

/-- A prefix of a text is a prefix of what stands in front of a character it does not have. -/
theorem prefix_of_append_cons {h a b : List UInt8} {c : UInt8} (hp : h <+: a ++ c::b)
    (hc : c ∉ h) : h <+: a := by
  have ha : a ++ [c] <+: a ++ c::b := ⟨b,by simp⟩
  rcases List.prefix_or_prefix_of_prefix hp ha with h' | h'
  · rcases List.prefix_concat_iff.mp h' with rfl | h'
    · simp at hc
    · exact h'
  · exact absurd (h'.subset (by simp)) hc

/-- What is printed for a text is not whitespace alone, and does not begin a tag. -/
theorem identify_printString {v t : List UInt8} (h : ∃ c ∈ v, ¬ isWhiteSpace c) :
    identify (printString true v ++ t) = some (.leaf .text,printString true v ++ t) := by
  obtain ⟨c,hc,hws⟩ := h
  have hne : ∃ d ∈ printString true v, ¬ isWhiteSpace d := by
    by_cases hf : entityFlag true c
    · obtain ⟨e,-,-,he⟩ := printChar_of_flag hf
      exact ⟨ampersand,List.mem_flatMap.mpr ⟨c,hc,by simp [he]⟩,by decide⟩
    · exact ⟨c,List.mem_flatMap.mpr ⟨c,hc,by simp [printChar_of_not_flag hf]⟩,hws⟩
  have hlt : lessThan ∉ printString true v := notMem_printString (by decide) (by decide) v
  cases hd : (printString true v).dropWhile isWhiteSpace with
  | nil =>
    obtain ⟨d,hd',hws'⟩ := hne
    exact absurd (List.dropWhile_eq_nil_iff.mp hd d hd') hws'
  | cons d q =>
    have hskip : skipWhiteSpace (printString true v ++ t) = d::(q ++ t) := by
      rw [skipWhiteSpace,List.dropWhile_append,hd]
      rfl
    have hdlt : d ≠ lessThan := by
      rintro rfl
      exact hlt ((List.dropWhile_suffix isWhiteSpace).subset (hd ▸ List.mem_cons_self))
    rw [identify,hskip,if_neg (List.cons_ne_nil _ _),
      header?_eq_none_of_head (by simpa using hdlt),Option.getD_none]

/-- The parser reads a leaf where it is written. -/
theorem leaf_read {depth : ℕ} {node : XMLNode} {ws w t : List UInt8}
    (hws : ∀ c ∈ ws, isWhiteSpace c) (hleaf : node.leafText = some w)
    (htext : node.isText → ws = [] ∧ StartsTag t) (hw : WellFormed depth node)
    (hp : Printable node) :
    ∃ kind q, identify (ws ++ (w ++ t)) = some (.leaf kind,q) ∧
      leafParseDeep kind q = .ok (node,t) := by
  cases hw with
  | element => cases hleaf
  | text h₀ =>
    cases hleaf
    obtain ⟨rfl,c,q,rfl⟩ := htext rfl
    cases hp with
    | text hcr hne =>
      refine ⟨.text,_,identify_printString hne,?_⟩
      rw [leafParseDeep,parseValue,Leaf.endTag,
        parseText_printString ⟨h₀,hcr⟩ (by decide) (by decide)]
      rfl
  | cData h =>
    cases hleaf
    refine ⟨.cData,_,identify_header hws rfl ?_,parseValue_closed h _ _ t⟩
    rw [List.append_assoc,List.append_assoc,header?_cData,← List.append_assoc]
  | comment h =>
    cases hleaf
    refine ⟨.comment,_,identify_header hws rfl ?_,parseValue_closed h _ _ t⟩
    rw [List.append_assoc,List.append_assoc,header?_comment,← List.append_assoc]
  | declaration h =>
    cases hleaf
    refine ⟨.declaration,_,identify_header hws rfl ?_,parseValue_closed h _ _ t⟩
    rw [List.append_assoc,List.append_assoc,header?_declaration,← List.append_assoc]
  | @unknown _ value h hcomment hcData =>
    cases hleaf
    refine ⟨.unknown,_,identify_header hws rfl ?_,parseValue_closed h _ _ t⟩
    have hpre {p : List UInt8} (hn : ¬ p <+: dtdHeader ++ value) (hg : greaterThan ∉ p) :
        ¬ p <+: dtdHeader ++ (value ++ Leaf.unknown.endTag ++ t) := fun hpp => hn
      (prefix_of_append_cons (b:=t) (by simpa [Leaf.endTag] using hpp) hg)
    rw [List.append_assoc,List.append_assoc,← List.append_assoc value,
      header?_unknown (hpre hcomment (by decide)) (hpre hcData (by decide))]

theorem NodeRead.mono {fuel fuel' depth : ℕ} {before : List XMLNode} {p rest : List UInt8}
    {node : XMLNode} (hf : fuel ≤ fuel') (h : NodeRead fuel depth before p node rest) :
    NodeRead fuel' depth before p node rest := by
  cases h with
  | leaf hi hl hd => exact .leaf hi hl hd
  | closed hi ht hc => exact .closed hi ht hc
  | «open» hi ht hc hne hdepth hin => exact .open hi ht hc hne hdepth (nodeParseDeep_mono hf hin)

theorem Parses.next {depth : ℕ} {before : List XMLNode} {p rest : List UInt8} {node : XMLNode}
    {inner : Children} (fuel : ℕ) (hr : NodeRead fuel depth before p node rest)
    (h : Parses depth (before ++ [node]) rest inner) : Parses depth before p inner := by
  obtain ⟨fuel',h⟩ := h
  exact ⟨max fuel fuel'+1,nodeParseDeep_succ_eq_ok.mpr (.inr (.inr ⟨node,rest,
    hr.mono (Nat.le_max_left _ _),nodeParseDeep_mono (Nat.le_max_right _ _) h⟩))⟩

theorem Parses.congr {depth : ℕ} {before : List XMLNode} {p q : List UInt8} {inner : Children}
    (hi : identify p = identify q) (h : Parses depth before p inner) :
    Parses depth before q inner := by
  obtain ⟨fuel,h⟩ := h
  refine ⟨fuel,?_⟩
  cases fuel with
  | zero => cases h
  | succ fuel =>
    rw [nodeParseDeep] at h ⊢
    rwa [← hi]

/-- Whitespace in front of a tag, or at the end, is skipped. -/
theorem identify_append {ws rest : List UInt8} (hws : ∀ c ∈ ws, isWhiteSpace c)
    (hrest : ∀ c ∈ rest.head?, c = lessThan) : identify (ws ++ rest) = identify rest := by
  rw [identify,identify,skipWhiteSpace_append hws]
  cases rest with
  | nil => rfl
  | cons c q =>
    obtain rfl : c = lessThan := hrest c rfl
    rw [skipWhiteSpace_lessThan]
    cases hh : header? (lessThan::q) with
    | none => exact absurd rfl (header?_eq_none hh lessThan rfl)
    | some r => rfl

theorem wellLocated_of_forall {children : List XMLNode} (h : ∀ c ∈ children, c.isDeclaration) :
    wellLocated children := by
  rw [wellLocated]
  split
  · rename_i first last hf hl
    rw [h first (List.mem_of_mem_head? hf),h last (List.mem_of_mem_getLast? hl)]
    rfl
  · rfl

/-- The children of an element. -/
theorem WellFormed.children {depth : ℕ} {name : List UInt8} {attributes : List XMLAttribute}
    {children : List XMLNode} (h : WellFormed depth (.element name attributes children)) :
    WellFormedChildren (depth+1) children := by
  cases h with
  | element _ _ _ _ hchildren hdecl hsep =>
    exact ⟨hchildren,fun c hc hd => absurd hd (hdecl c hc),
      List.pairwise_of_forall_mem_list fun a _ b hb hd => absurd hd (hdecl b hb),hsep⟩

/-- The parser reads a tag where it is written. -/
theorem tag_read {depth : ℕ} {ws name : List UInt8} {attributes : List XMLAttribute}
    {children : List XMLNode} (hws : ∀ c ∈ ws, isWhiteSpace c)
    (hw : WellFormed depth (.element name attributes children))
    (hp : Printable (.element name attributes children)) (closed : Bool) (t : List UInt8) :
    ∃ q, identify (ws ++ lessThan::(name ++ (attributesText attributes ++ (tagEnd closed ++ t)))) =
        some (.element,q) ∧
      parseTag q = .ok ⟨name,attributes,if closed then .closed else .open,t⟩ := by
  cases hw with
  | element hname hattr hdistinct =>
    cases hp with
    | element hcr =>
      refine ⟨_,identify_header hws rfl ?_,parseTag_open hname
        (fun a ha => ⟨(hattr a ha).1,(hattr a ha).2,hcr a ha⟩) hdistinct closed t⟩
      obtain ⟨c,p,rfl,hc,-⟩ := isName_iff.mp hname
      exact header?_element (.inl hc) _

theorem parses_endTag {depth : ℕ} {children : List XMLNode} {name t : List UInt8}
    (hname : isName name) : Parses depth children (endTagText name ++ t) ⟨children,some (name,t)⟩ := by
  have ht : endTagText name ++ t = [] ++ lessThan::slash::(name ++ greaterThan::t) := by
    simp [endTagText]
  rw [ht]
  exact ⟨1,nodeParseDeep_succ_eq_ok.mpr (.inr (.inl ⟨_,_,identify_header (by simp) rfl
    (header?_element (.inr rfl) _),parseTag_closing hname t,rfl,rfl⟩))⟩

theorem suffix_tag (ws name t : List UInt8) (attributes : List XMLAttribute) (closed : Bool) :
    t <:+ ws ++ lessThan::(name ++ (attributesText attributes ++ (tagEnd closed ++ t))) :=
  ⟨ws ++ lessThan::(name ++ (attributesText attributes ++ tagEnd closed)),by simp⟩

theorem Written.suffix {nodes : List XMLNode} {t rest : List UInt8} (h : Written nodes t rest) :
    rest <:+ t := by
  induction h with
  | nil => exact List.suffix_append _ _
  | leaf _ _ _ _ ih => exact (ih.trans (List.suffix_append _ _)).trans (List.suffix_append _ _)
  | closed _ _ ih => exact ih.trans (suffix_tag _ _ _ _ _)
  | «open» _ _ _ _ ihin ih =>
    exact (ih.trans (List.suffix_append _ _)).trans (ihin.trans (suffix_tag _ _ _ _ _))

/-- The parser reads the nodes where they are written, and goes on behind them. -/
theorem parses_of_written {nodes : List XMLNode} {t rest : List UInt8}
    (h : Written nodes t rest) {depth : ℕ} {before : List XMLNode} {inner : Children}
    (hrest : ∀ c ∈ rest.head?, c = lessThan) (hw : WellFormedChildren depth (before ++ nodes))
    (hp : ∀ n ∈ nodes, Printable n) (hparse : Parses depth (before ++ nodes) rest inner) :
    Parses depth before t inner := by
  induction h generalizing depth before inner with
  | nil hws =>
    rw [List.append_nil] at hparse
    exact hparse.congr (identify_append hws hrest).symm
  | @leaf ws w t rest node nodes hws hleaf htext _ ih =>
    have hnode := hw.wellFormed node (by simp)
    obtain ⟨kind,q,hi,hl⟩ := leaf_read hws hleaf htext hnode (hp node List.mem_cons_self)
    refine Parses.next 0 (.leaf hi hl fun hd => ?_) (ih hrest (by simpa using hw)
      (fun n hn => hp n (List.mem_cons_of_mem _ hn)) (by simpa using hparse))
    refine ⟨hw.declarations node (by simp) hd,wellLocated_of_forall fun c hc => ?_⟩
    exact (List.pairwise_append.mp hw.first).2.2 c hc node List.mem_cons_self hd
  | @closed ws name t rest attributes nodes hws _ ih =>
    obtain ⟨q,hi,ht⟩ := tag_read hws (hw.wellFormed _ (by simp)) (hp _ List.mem_cons_self) true t
    exact Parses.next 0 (.closed hi ht rfl) (ih hrest (by simpa using hw)
      (fun n hn => hp n (List.mem_cons_of_mem _ hn)) (by simpa using hparse))
  | @«open» ws name t t' rest attributes children nodes hws hne hin _ ihin ih =>
    have hnode := hw.wellFormed (.element name attributes children) (by simp)
    obtain ⟨q,hi,ht⟩ := tag_read hws hnode (hp _ List.mem_cons_self) false t'
    cases hnode with
    | element hname _ _ hdepth =>
      have hpc := hp (.element name attributes children) List.mem_cons_self
      have hchildren := (hw.wellFormed (.element name attributes children) (by simp)).children
      cases hpc with
      | element _ hpc =>
        obtain ⟨fuel,hparse'⟩ := ihin (by simp [endTagText])
          (show WellFormedChildren (depth+1) ([] ++ children) from hchildren) hpc (parses_endTag hname)
        refine Parses.next fuel (.open hi ht rfl ?_ ?_ hparse') (ih hrest (by simpa using hw)
          (fun n hn => hp n (List.mem_cons_of_mem _ hn)) (by simpa using hparse))
        · intro ht'
          have := hin.suffix
          simp [show t' = [] from ht',endTagText] at this
        · exact Nat.ne_of_lt (hdepth hne)

end Blush.Xml
