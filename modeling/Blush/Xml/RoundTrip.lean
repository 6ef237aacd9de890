import Blush.Face.Common
import Blush.Xml.Writing

/-! A document that is printed and parsed again is the same document: the printer writes the nodes,
and the parser reads what is written. -/
namespace Blush.Xml
open Fuel Outcome Scan

theorem startsTag_leafText {node : XMLNode} {w : List UInt8} (h : node.leafText = some w)
    (ht : ¬ node.isText) : StartsTag w := by
  cases node with
  | element => cases h
  | text value cData =>
    cases cData with
    | true => cases h; exact ⟨33,_,rfl⟩
    | false => exact absurd rfl ht
  | comment | unknown => cases h; exact ⟨33,_,rfl⟩
  | declaration => cases h; exact ⟨63,_,rfl⟩

/-- Whitespace apart, a node that is no text begins with a tag. -/
theorem Written.startsTag {nodes : List XMLNode} {t rest : List UInt8} (h : Written nodes t rest)
    (hne : nodes ≠ []) (hn : ∀ n ∈ nodes.head?, ¬ n.isText) :
    ∃ ws t', (∀ c ∈ ws, isWhiteSpace c) ∧ t = ws ++ t' ∧ StartsTag t' := by
  cases h with
  | nil => exact absurd rfl hne
  | leaf hws hleaf => exact ⟨_,_,hws,rfl,(startsTag_leafText hleaf (hn _ rfl)).append _⟩
  | closed hws => exact ⟨_,_,hws,rfl,startsTag_tag _ _ _ _⟩
  | «open» hws => exact ⟨_,_,hws,rfl,startsTag_tag _ _ _ _⟩

/-- What the printer can write so that the parser reads it back. -/
structure XMLDocument.Printable (doc : XMLDocument) : Prop where
  wellFormed : doc.WellFormed
  nonempty : doc.children ≠ []
  printable : ∀ c ∈ doc.children, Xml.Printable c
  noText : ∀ c ∈ doc.children, ¬ c.isText

/-- The texts of a printed document: its byte order mark, and its nodes. -/
theorem XMLDocument.Printable.written {doc : XMLDocument} (h : doc.Printable) (compact : Bool) :
    ∃ w, doc.print compact = (if doc.writeBOM then bom else []) ++ w ∧
      Written doc.children w [] := by
  obtain ⟨w,hw⟩ := acceptAll_printed doc.children h.nonempty h.wellFormed
    ((XMLPrinter.create compact).pushHeader doc.writeBOM)
    (by cases doc.writeBOM <;> exact Int.le_refl 0) (by cases doc.writeBOM <;> nofun)
    (fun _ => h.noText)
  refine ⟨w,?_,?_⟩
  · rw [XMLDocument.print,hw.buffer]
    cases doc.writeBOM <;> rfl
  · simpa using hw.written [] [] (by simp)
      fun n hn ht => absurd ht (h.noText n (List.mem_of_mem_getLast? hn))

theorem zero_notMem_name {name : List UInt8} (h : isName name) : 0 ∉ name := by
  obtain ⟨c,p,rfl,hc,hp⟩ := isName_iff.mp h
  intro hm
  rcases List.mem_cons.mp hm with rfl | hm
  · exact absurd hc (by decide)
  · exact absurd (hp 0 hm) (by decide)

theorem zero_notMem_printString (restricted : Bool) {v : List UInt8} (h : 0 ∉ v) :
    0 ∉ printString restricted v := by
  intro hm
  obtain ⟨c,hc,h₀⟩ := List.mem_flatMap.mp hm
  by_cases hf : entityFlag restricted c
  · obtain ⟨e,he,-,hp⟩ := printChar_of_flag hf
    have hent : ∀ e ∈ entities, 0 ∉ ampersand::e.pattern ++ [semicolon] := by decide
    exact hent e he (hp ▸ h₀)
  · rw [printChar_of_not_flag hf,List.mem_singleton] at h₀
    exact h (h₀ ▸ hc)

theorem WellFormed.isName {depth : ℕ} {name : List UInt8} {attributes : List XMLAttribute}
    {children : List XMLNode} (h : WellFormed depth (.element name attributes children)) :
    Xml.isName name := by
  cases h with
  | element hname => exact hname

theorem zero_notMem_tag {depth : ℕ} {name t : List UInt8} {attributes : List XMLAttribute}
    {children : List XMLNode} (hw : WellFormed depth (.element name attributes children))
    (closed : Bool) (ht : 0 ∉ t) :
    0 ∉ lessThan::(name ++ (attributesText attributes ++ (tagEnd closed ++ t))) := by
  have hlt : (0 : UInt8) ≠ lessThan := by decide
  have hend : 0 ∉ tagEnd closed := by cases closed <;> decide
  cases hw with
  | element hname hattr =>
    have hattrs : 0 ∉ attributesText attributes := by
      intro hm
      obtain ⟨a,ha,hm⟩ := List.mem_flatMap.mp hm
      have hn := zero_notMem_name (hattr a ha).1
      have hv := zero_notMem_printString false (hattr a ha).2
      have heq : (0 : UInt8) ≠ equalsSign ∧ (0 : UInt8) ≠ doubleQuote := by decide
      simp [attributeText,hn,hv,heq.1,heq.2] at hm
    simp [zero_notMem_name hname,hattrs,hend,hlt,ht]

theorem zero_notMem_leafText {depth : ℕ} {node : XMLNode} {w : List UInt8}
    (h : node.leafText = some w) (hw : WellFormed depth node) : 0 ∉ w := by
  cases hw with
  | element => cases h
  | text h₀ => cases h; exact zero_notMem_printString true h₀
  | cData hc => cases h; simp [cdataHeader,Leaf.endTag,hc.noNul]
  | comment hc => cases h; simp [commentHeader,Leaf.endTag,hc.noNul]
  | declaration hc => cases h; simp [xmlHeader,Leaf.endTag,hc.noNul]
  | unknown hc => cases h; simp [dtdHeader,Leaf.endTag,hc.noNul]

theorem zero_notMem_whiteSpace {ws : List UInt8} (h : ∀ c ∈ ws, isWhiteSpace c) : 0 ∉ ws :=
  fun h₀ => absurd (h 0 h₀) (by decide)

/-- There is no NUL where well-formed nodes are written. -/
theorem Written.zero_notMem {nodes : List XMLNode} {t rest : List UInt8} (h : Written nodes t rest)
    {depth : ℕ} (hw : ∀ n ∈ nodes, WellFormed depth n) (h₀ : 0 ∉ rest) : 0 ∉ t := by
  induction h generalizing depth with
  | nil hws => simp [zero_notMem_whiteSpace hws,h₀]
  | leaf hws hleaf _ _ ih =>
    have ht := ih (fun n hn => hw n (List.mem_cons_of_mem _ hn)) h₀
    simp [zero_notMem_whiteSpace hws,zero_notMem_leafText hleaf (hw _ List.mem_cons_self),ht]
  | closed hws _ ih =>
    have ht := ih (fun n hn => hw n (List.mem_cons_of_mem _ hn)) h₀
    rw [List.mem_append]
    exact fun hm => hm.elim (zero_notMem_whiteSpace hws)
      (zero_notMem_tag (hw _ List.mem_cons_self) true ht)
  | «open» hws _ _ _ ihin ih =>
    have hnode := hw _ List.mem_cons_self
    have ht := ih (fun n hn => hw n (List.mem_cons_of_mem _ hn)) h₀
    have hlt : (0 : UInt8) ≠ lessThan ∧ (0 : UInt8) ≠ slash ∧ (0 : UInt8) ≠ greaterThan := by decide
    have ht' := ihin hnode.children.wellFormed
      (by simp [endTagText,zero_notMem_name hnode.isName,ht,hlt.1,hlt.2.1,hlt.2.2])
    rw [List.mem_append]
    exact fun hm => hm.elim (zero_notMem_whiteSpace hws) (zero_notMem_tag hnode false ht')

theorem zero_notMem_print {doc : XMLDocument} (h : doc.Printable) (compact : Bool) :
    0 ∉ doc.print compact := by
  obtain ⟨w,hprint,hw⟩ := h.written compact
  have h₀ := hw.zero_notMem h.wellFormed.wellFormed List.not_mem_nil
  have hbom : 0 ∉ if doc.writeBOM then bom else [] := by cases doc.writeBOM <;> decide
  rw [hprint,List.mem_append]
  exact fun hm => hm.elim hbom h₀

/-- A document that is printed, in pretty or in compact mode, and parsed again is the same. -/
theorem documentParse_print {doc : XMLDocument} (h : doc.Printable) (compact : Bool) :
    documentParse (doc.print compact) = .ok doc := by
  obtain ⟨w,hprint,hw⟩ := h.written compact
  obtain ⟨ws,t,hws,rfl,ht⟩ := hw.startsTag h.nonempty fun n hn =>
    h.noText n (List.mem_of_mem_head? hn)
  have hparse : Parses 1 [] (ws ++ t) ⟨doc.children,none⟩ :=
    parses_of_written hw (by simp) h.wellFormed h.printable
      ⟨1,nodeParseDeep_succ_eq_ok.mpr (.inl ⟨rfl,rfl⟩)⟩
  have hhead : ∀ c ∈ t.head?, c = lessThan := by
    obtain ⟨c,q,rfl⟩ := ht
    simp
  rw [hprint]
  cases hbom : doc.writeBOM with
  | true =>
    have hread : readBOM (skipWhiteSpace (bom ++ (ws ++ t))) = (true,ws ++ t) := by
      rw [readBOM,show skipWhiteSpace (bom ++ (ws ++ t)) = bom ++ (ws ++ t) from rfl,
        dropPrefix?_append]
    refine documentParse_eq_ok.mpr ?_
    rw [if_pos rfl,hread]
    obtain ⟨c,q,rfl⟩ := ht
    exact ⟨by simp,hbom.symm,none,hparse⟩
  | false =>
    have hread : readBOM (skipWhiteSpace (ws ++ t)) = (false,t) := by
      obtain ⟨c,q,rfl⟩ := ht
      rw [skipWhiteSpace_append hws,skipWhiteSpace_lessThan,readBOM,bom,
        dropPrefix?_cons_ne (by decide)]
    refine documentParse_eq_ok.mpr ?_
    rw [if_neg Bool.false_ne_true,List.nil_append,hread]
    obtain ⟨c,q,rfl⟩ := ht
    exact ⟨List.cons_ne_nil _ _,hbom.symm,none,hparse.congr (identify_append hws hhead)⟩

/-- `<?x?>`, `<!--- -->` and `<a b="&amp;"> c<a/></a>`, behind a byte order mark. -/
def sampleDocument : XMLDocument where
  writeBOM := true
  children := [.declaration [120],.comment [45,32],
    .element [97] [⟨[98],[38]⟩] [.text [32,99] false,.element [97] [] []]]

theorem sampleDocument_printable : sampleDocument.Printable where
  wellFormed := by
    have hd : Closed .declaration [120] := ⟨by decide,by decide,by decide⟩
    have hc : Closed .comment [45,32] := ⟨by decide,by decide,by decide⟩
    have hin : WellFormed 2 (.element [97] [] []) :=
      .element rfl (by simp) .nil (by simp) (by simp) (by simp) .nil
    have ht : WellFormed 2 (.text [32,99] false) := .text (by decide)
    have he : WellFormed 1 (.element [97] [⟨[98],[38]⟩] [.text [32,99] false,.element [97] [] []]) :=
      .element rfl (by simp [isName]; decide) (List.nodup_singleton _) (fun _ => by decide)
        (by simp [hin,ht]) (by simp [XMLNode.isDeclaration]) (by simp [Separate,XMLNode.isText])
    exact ⟨by simp [sampleDocument,WellFormed.declaration hd,WellFormed.comment hc,he],
      fun _ _ _ => rfl,by simp [sampleDocument,XMLNode.isDeclaration],
      by simp [sampleDocument,Separate,XMLNode.isText]⟩
  nonempty := List.cons_ne_nil _ _
  printable := by
    have ht : Printable (.text [32,99] false) := .text (by decide) ⟨99,by simp,by decide⟩
    have hin : Printable (.element [97] [] []) := .element (by simp) (by simp)
    have he : Printable (.element [97] [⟨[98],[38]⟩] [.text [32,99] false,.element [97] [] []]) :=
      .element (by simp; decide) (by simp [ht,hin])
    simp [sampleDocument,Printable.declaration,Printable.comment,he]
  noText := by simp [sampleDocument,XMLNode.isText]

/-- A printed document is a C string, it reads back as the same document, and no other document is
printed like it, in either mode. -/
theorem print_read_back {doc : XMLDocument} (h : doc.Printable) (compact : Bool) :
    0 ∉ doc.print compact ∧ documentParse (doc.print compact) = .ok doc ∧
      ∀ (doc' : XMLDocument) (compact' : Bool), doc'.Printable →
        doc'.print compact' = doc.print compact → doc' = doc := by
  have hread := documentParse_print h compact
  refine ⟨zero_notMem_print h compact,hread,fun doc' compact' h' he => ?_⟩
  have hread' := documentParse_print h' compact'
  rw [he,hread] at hread'
  exact (Outcome.ok.inj hread').symm

theorem print_read_back_sample : 0 ∉ sampleDocument.print false ∧
    documentParse (sampleDocument.print false) = .ok sampleDocument ∧
    ∀ (doc' : XMLDocument) (compact' : Bool), doc'.Printable →
      doc'.print compact' = sampleDocument.print false → doc' = sampleDocument :=
  print_read_back sampleDocument_printable false

/-- The parser ends on every text. What it accepts is well formed, and printing it and parsing it
again gives the same document as long as no value needs a reference that the printer does not
write. -/
theorem documentParse_accepts (xml : Face.CString) :
    (∃ e, documentParse xml.chars = .error e) ∨
      ∃ doc, documentParse xml.chars = .ok doc ∧ doc.WellFormed ∧
        (doc.children ≠ [] → (∀ c ∈ doc.children, Printable c ∧ ¬ c.isText) →
          ∀ compact, documentParse (doc.print compact) = .ok doc) := by
  cases h : documentParse xml.chars with
  | outOfFuel => exact absurd h (documentParse_ne_outOfFuel _)
  | error e => exact .inl ⟨e,rfl⟩
  | ok doc =>
    have hw := documentParse_wellFormed (fun h₀ => xml.noNul 0 h₀ rfl) h
    exact .inr ⟨doc,rfl,hw,fun hne hp compact =>
      documentParse_print ⟨hw,hne,fun c hc => (hp c hc).1,fun c hc => (hp c hc).2⟩ compact⟩

/-- "</a>" is accepted, as a document without nodes. -/
example : documentParse [60,47,97,62] = .ok ⟨false,[]⟩ := rfl

end Blush.Xml
