import Blush.Xml.Written

/-! The printer writes every node so that it can be read: whitespace goes to where it is skipped. -/
namespace Blush.Xml
open Fuel Outcome Scan

theorem Written.append {nodes : List XMLNode} {t rest ws : List UInt8} (h : Written nodes t rest)
    (hws : ∀ c ∈ ws, isWhiteSpace c) (hn : ∀ n ∈ nodes.head?, ¬ n.isText) :
    Written nodes (ws ++ t) rest := by
  have hjoin {ws' : List UInt8} (hws' : ∀ c ∈ ws', isWhiteSpace c) :
      ∀ c ∈ ws ++ ws', isWhiteSpace c := fun c hc =>
    (List.mem_append.mp hc).elim (hws c) (hws' c)
  cases h with
  | nil hws' => rw [← List.append_assoc]; exact .nil (hjoin hws')
  | leaf hws' hleaf _ h =>
    rw [← List.append_assoc]
    exact .leaf (hjoin hws') hleaf (fun ht => absurd ht (hn _ rfl)) h
  | closed hws' h => rw [← List.append_assoc]; exact .closed (hjoin hws') h
  | «open» hws' hne hin h => rw [← List.append_assoc]; exact .open (hjoin hws') hne hin h

/-- The '>' that the printer owes. -/
def XMLPrinter.sealText (s : XMLPrinter) : List UInt8 :=
  if s.elementJustOpened then [greaterThan] else []

/-- Whitespace that the printer does not put where it would become part of a text. -/
def XMLPrinter.Tight (s : XMLPrinter) : Prop :=
  0 ≤ s.textDepth ∧ (s.compactMode ∨ s.firstElement = false)

theorem isWhiteSpace_replicate (n : ℕ) : ∀ c ∈ List.replicate n 32, isWhiteSpace c := by
  intro c hc
  rw [List.eq_of_mem_replicate hc]
  decide

theorem sealElementIfJustOpened_eq (s : XMLPrinter) :
    s.sealElementIfJustOpened =
      { s with elementJustOpened := false, buffer := s.buffer ++ s.sealText } := by
  obtain ⟨compact,opened,stack,first,depth,textDepth,buffer⟩ := s
  cases opened <;> simp [XMLPrinter.sealElementIfJustOpened,XMLPrinter.sealText,XMLPrinter.write]

theorem prepareForNewNode_eq (s : XMLPrinter) :
    ∃ ws, (∀ c ∈ ws, isWhiteSpace c) ∧ (s.Tight → ws = []) ∧
      s.prepareForNewNode = { s with
        elementJustOpened := false
        firstElement := s.compactMode && s.firstElement
        buffer := s.buffer ++ (s.sealText ++ ws) } := by
  rw [XMLPrinter.prepareForNewNode,sealElementIfJustOpened_eq]
  cases hc : s.compactMode with
  | true => exact ⟨[],by simp,fun _ => rfl,by simp⟩
  | false =>
    cases hf : s.firstElement with
    | true =>
      refine ⟨_,isWhiteSpace_replicate (4*s.depth.toNat),fun ht => ?_,?_⟩
      · rcases ht.2 with h | h <;> simp_all
      · simp [XMLPrinter.printSpace,XMLPrinter.write]
    | false =>
      by_cases htd : s.textDepth < 0
      · refine ⟨lf::List.replicate (4*s.depth.toNat) 32,fun c hc => ?_,fun ht => ?_,?_⟩
        · rcases List.mem_cons.mp hc with rfl | hc
          · decide
          · exact isWhiteSpace_replicate _ c hc
        · have := ht.1
          omega
        · simp [htd,XMLPrinter.printSpace,XMLPrinter.write]
      · exact ⟨[],by simp,fun _ => rfl,by simp [htd]⟩

/-- A node leaves the state of the printer as it was, apart from the text depth. -/
structure After (s s' : XMLPrinter) : Prop where
  compactMode : s'.compactMode = s.compactMode
  elementJustOpened : s'.elementJustOpened = false
  stack : s'.stack = s.stack
  depth : s'.depth = s.depth
  firstElement : s.compactMode ∨ s.firstElement = false → s'.compactMode ∨ s'.firstElement = false

theorem foldl_pushAttribute (attributes : List XMLAttribute) (s : XMLPrinter) :
    attributes.foldl XMLPrinter.pushAttribute s =
      { s with buffer := s.buffer ++ attributesText attributes } := by
  induction attributes generalizing s with
  | nil => simp [attributesText]
  | cons a attributes ih =>
    rw [List.foldl_cons,ih]
    simp [XMLPrinter.pushAttribute,XMLPrinter.write,attributesText,attributeText]

/-- The end of an element. -/
theorem closeElement_eq (s : XMLPrinter) :
    ∃ ws ws' textDepth, (∀ c ∈ ws, isWhiteSpace c) ∧ (∀ c ∈ ws', isWhiteSpace c) ∧
      (0 ≤ s.textDepth → ws = []) ∧ (s.depth ≠ 1 → ws' = []) ∧
      s.closeElement = { s with
        elementJustOpened := false
        stack := s.stack.tail
        depth := s.depth-1
        textDepth := textDepth
        buffer := s.buffer ++ ((if s.elementJustOpened then tagEnd true
          else ws ++ endTagText (s.stack.headD [])) ++ ws') } := by
  obtain ⟨compact,opened,stack,first,depth,textDepth,buffer⟩ := s
  refine ⟨if textDepth < 0 ∧ !compact then lf::List.replicate (4*(depth-1).toNat) 32 else [],
    if depth-1 = 0 ∧ !compact then [lf] else [],if textDepth = depth-1 then -1 else textDepth,
    fun c hc => ?_,fun c hc => ?_,fun ht => ?_,fun hd => ?_,?_⟩
  · split_ifs at hc
    · rcases List.mem_cons.mp hc with rfl | hc
      · decide
      · exact isWhiteSpace_replicate _ c hc
    · cases hc
  · split_ifs at hc
    · rw [List.mem_singleton.mp hc]
      decide
    · cases hc
  · exact if_neg fun h => by
      have := h.1
      dsimp only at ht
      omega
  · exact if_neg fun h => hd (by
      have := h.1
      dsimp only
      omega)
  · cases opened <;> cases compact <;>
      simp only [XMLPrinter.closeElement,XMLPrinter.write,XMLPrinter.printSpace,endTagText,tagEnd] <;>
      split_ifs <;> simp_all

/-- The printer writes `w` for a node, in front of whatever is written behind it. -/
structure NodePrinted (node : XMLNode) (s s' : XMLPrinter) (w : List UInt8) : Prop where
  buffer : s'.buffer = s.buffer ++ (s.sealText ++ w)
  after : After s s'
  text : node.isText → 0 < s.depth → 0 ≤ s'.textDepth
  starts : ¬ node.isText → s.Tight → StartsTag w
  written : ∀ {nodes : List XMLNode} {t rest : List UInt8}, Written nodes t rest →
    (node.isText → StartsTag t) → (s.depth = 0 → ∀ n ∈ nodes.head?, ¬ n.isText) →
    Written (node::nodes) (w ++ t) rest

/-- The printer writes `w` for the nodes, in front of whitespace and whatever is behind it. -/
structure NodesPrinted (nodes : List XMLNode) (s s' : XMLPrinter) (w : List UInt8) : Prop where
  buffer : s'.buffer = s.buffer ++ (s.sealText ++ w)
  after : After s s'
  text : ∀ n ∈ nodes.getLast?, n.isText → 0 < s.depth → 0 ≤ s'.textDepth
  starts : ∀ n ∈ nodes.head?, ¬ n.isText → s.Tight → StartsTag w
  written : ∀ ws rest : List UInt8, (∀ c ∈ ws, isWhiteSpace c) →
    (∀ n ∈ nodes.getLast?, n.isText → ws = [] ∧ StartsTag rest) →
    Written nodes (w ++ (ws ++ rest)) rest

/-- A leaf that is written on a line of its own. -/
theorem leaf_printed {node : XMLNode} {s : XMLPrinter} {w : List UInt8}
    (hleaf : node.leafText = some w) (hw : StartsTag w) (ht : ¬ node.isText) :
    ∃ w', NodePrinted node s (s.prepareForNewNode.write w) w' := by
  obtain ⟨ws,hws,htight,hs⟩ := prepareForNewNode_eq s
  rw [hs,XMLPrinter.write]
  refine ⟨ws ++ w,⟨by simp,⟨rfl,rfl,rfl,rfl,fun h => ?_⟩,fun h => absurd h ht,fun _ h => ?_,
    fun h _ _ => ?_⟩⟩
  · rcases h with h | h
    · exact .inl h
    · exact .inr (by simp [h])
  · rwa [htight h]
  · rw [List.append_assoc]
    exact .leaf hws hleaf (fun h => absurd h ht) h

/-- A text, or CDATA, is written where the printer is. -/
theorem text_printed (value : List UInt8) (cData : Bool) (s : XMLPrinter) :
    ∃ w, NodePrinted (.text value cData) s (s.pushText value cData) w := by
  rw [XMLPrinter.pushText,sealElementIfJustOpened_eq,XMLPrinter.write]
  cases cData with
  | true =>
    refine ⟨cdataHeader ++ value ++ Leaf.cData.endTag,⟨by simp [XMLPrinter.sealText],
      ⟨rfl,rfl,rfl,rfl,id⟩,by simp [XMLNode.isText],
      fun _ _ => ⟨33,_,rfl⟩,fun h _ _ => ?_⟩⟩
    rw [← List.nil_append (_ ++ _)]
    exact .leaf (by simp) rfl (by simp [XMLNode.isText]) h
  | false =>
    refine ⟨printString true value,⟨by simp [XMLPrinter.sealText],⟨rfl,rfl,rfl,rfl,id⟩,
      fun _ hd => ?_,fun h => absurd rfl h,fun h ht _ => ?_⟩⟩
    · dsimp only
      omega
    · rw [← List.nil_append (_ ++ _)]
      exact .leaf (by simp) rfl (fun _ => ⟨rfl,ht rfl⟩) h

theorem After.trans {s s' s'' : XMLPrinter} (h : After s s') (h' : After s' s'') : After s s'' where
  compactMode := h'.compactMode.trans h.compactMode
  elementJustOpened := h'.elementJustOpened
  stack := h'.stack.trans h.stack
  depth := h'.depth.trans h.depth
  firstElement hs := h'.firstElement (h.firstElement hs)

theorem StartsTag.append {t : List UInt8} (h : StartsTag t) (t' : List UInt8) :
    StartsTag (t ++ t') := by
  obtain ⟨c,q,rfl⟩ := h
  exact ⟨c,q ++ t',rfl⟩

theorem NodesPrinted.single {node : XMLNode} {s s' : XMLPrinter} {w : List UInt8}
    (h : NodePrinted node s s' w) : NodesPrinted [node] s s' w where
  buffer := h.buffer
  after := h.after
  text n hn := by
    obtain rfl : node = n := by simpa using hn
    exact h.text
  starts n hn := by
    obtain rfl : node = n := by simpa using hn
    exact h.starts
  written ws rest hws hlast := by
    refine h.written (.nil hws) (fun ht => ?_) (by simp)
    obtain ⟨rfl,hrest⟩ := hlast node rfl ht
    exact hrest

/-- A node and the ones behind it. No whitespace is written behind a text. -/
theorem NodesPrinted.cons {node : XMLNode} {nodes : List XMLNode} {s s' s'' : XMLPrinter}
    {w w' : List UInt8} (h : NodePrinted node s s' w) (h' : NodesPrinted nodes s' s'' w')
    (hne : nodes ≠ []) (hsep : ∀ n ∈ nodes.head?, Separate node n) (hdepth : 0 ≤ s.depth)
    (hin : 0 < s.depth → s.compactMode ∨ s.firstElement = false)
    (htop : s.depth = 0 → ∀ n ∈ node::nodes, ¬ n.isText) :
    NodesPrinted (node::nodes) s s'' (w ++ w') where
  buffer := by
    rw [h'.buffer,h.buffer,XMLPrinter.sealText.eq_def s',h.after.elementJustOpened]
    simp
  after := h.after.trans h'.after
  text n hn ht hd := by
    rw [List.getLast?_cons_of_ne_nil hne] at hn
    exact h'.text n hn ht (h.after.depth ▸ hd)
  starts n hn ht htight := by
    obtain rfl : node = n := by simpa using hn
    exact (h.starts ht htight).append w'
  written ws rest hws hlast := by
    obtain ⟨n,nodes,rfl⟩ := List.exists_cons_of_ne_nil hne
    rw [List.append_assoc]
    refine h.written (h'.written ws rest hws fun m hm => hlast m (by rwa [List.getLast?_cons_of_ne_nil hne]))
      (fun ht => StartsTag.append ?_ _) fun hd m hm => ?_
    · have hd : 0 < s.depth := by
        by_contra hn
        exact htop (by omega) node List.mem_cons_self ht
      exact h'.starts n rfl (fun hn => hsep n rfl ⟨ht,hn⟩)
        ⟨h.text ht hd,h.after.firstElement (hin hd)⟩
    · exact htop hd m (List.mem_cons_of_mem _ (List.mem_of_mem_head? hm))

theorem WellFormedChildren.tail {depth : ℕ} {node : XMLNode} {nodes : List XMLNode}
    (h : WellFormedChildren depth (node::nodes)) : WellFormedChildren depth nodes where
  wellFormed c hc := h.wellFormed c (List.mem_cons_of_mem _ hc)
  declarations c hc := h.declarations c (List.mem_cons_of_mem _ hc)
  first := (List.pairwise_cons.mp h.first).2
  separate := h.separate.tail

theorem WellFormedChildren.head {depth : ℕ} {node : XMLNode} {nodes : List XMLNode}
    (h : WellFormedChildren depth (node::nodes)) : ∀ n ∈ nodes.head?, Separate node n :=
  (List.isChain_cons.mp h.separate).1

/-- The state in which the children of an element are visited. -/
theorem openElement_eq (s : XMLPrinter) (name : List UInt8) (attributes : List XMLAttribute) :
    ∃ ws, (∀ c ∈ ws, isWhiteSpace c) ∧ (s.Tight → ws = []) ∧
      attributes.foldl XMLPrinter.pushAttribute (s.openElement name) = { s with
        elementJustOpened := true
        stack := name::s.stack
        firstElement := s.compactMode && s.firstElement
        depth := s.depth+1
        buffer := s.buffer ++ (s.sealText ++
          (ws ++ lessThan::(name ++ attributesText attributes))) } := by
  obtain ⟨ws,hws,htight,hs⟩ := prepareForNewNode_eq s
  refine ⟨ws,hws,htight,?_⟩
  rw [foldl_pushAttribute,XMLPrinter.openElement,hs]
  simp [XMLPrinter.write]

theorem startsTag_tag (name t : List UInt8) (attributes : List XMLAttribute) (closed : Bool) :
    StartsTag (lessThan::(name ++ (attributesText attributes ++ (tagEnd closed ++ t)))) := by
  have hne : name ++ (attributesText attributes ++ (tagEnd closed ++ t)) ≠ [] := by
    cases closed <;> simp [tagEnd]
  obtain ⟨c,q,hq⟩ := List.exists_cons_of_ne_nil hne
  exact ⟨c,q,by rw [hq]⟩

/-- Line ends behind an element, which the printer only writes in the document. -/
theorem Written.append_newline {nodes : List XMLNode} {t rest ws : List UInt8}
    (h : Written nodes t rest) (depth : ℤ) (hws : ∀ c ∈ ws, isWhiteSpace c) (hnil : depth ≠ 0 → ws = [])
    (hn : depth = 0 → ∀ n ∈ nodes.head?, ¬ n.isText) : Written nodes (ws ++ t) rest := by
  by_cases hd : depth = 0
  · exact h.append hws (hn hd)
  · rw [hnil hd]
    exact h

/-- An element without children. -/
theorem closed_printed (name : List UInt8) (attributes : List XMLAttribute) (s : XMLPrinter) :
    ∃ w, NodePrinted (.element name attributes []) s
      (attributes.foldl XMLPrinter.pushAttribute (s.openElement name)).closeElement w := by
  obtain ⟨ws,hws,htight,hopen⟩ := openElement_eq s name attributes
  rw [hopen]
  obtain ⟨_,ws',textDepth,_,hws',_,htop,hclose⟩ := closeElement_eq { s with
    elementJustOpened := true
    stack := name::s.stack
    firstElement := s.compactMode && s.firstElement
    depth := s.depth+1
    buffer := s.buffer ++ (s.sealText ++ (ws ++ lessThan::(name ++ attributesText attributes))) }
  rw [hclose]
  refine ⟨ws ++ lessThan::(name ++ (attributesText attributes ++ (tagEnd true ++ ws'))),
    ⟨by simp,⟨rfl,rfl,rfl,by simp,fun h => ?_⟩,nofun,fun _ ht => ?_,fun h _ hd => ?_⟩⟩
  · rcases h with h | h
    · exact .inl h
    · exact .inr (by simp [h])
  · rw [htight ht]
    exact startsTag_tag _ _ _ _
  · have := h.append_newline s.depth hws' (fun hd => htop (by dsimp only; omega)) hd
    simpa using (Written.closed hws this : Written (.element name attributes []::_) _ _)

/-- An element, given that its children are printed. -/
theorem open_printed {name : List UInt8} {attributes : List XMLAttribute}
    {children : List XMLNode} {s s₁ : XMLPrinter} {w : List UInt8} (hne : children ≠ [])
    (hs : s₁ = attributes.foldl XMLPrinter.pushAttribute (s.openElement name))
    (hw : NodesPrinted children s₁ (acceptAll children s₁) w) (hdepth : 0 ≤ s.depth) :
    ∃ w, NodePrinted (.element name attributes children) s (acceptAll children s₁).closeElement w := by
  obtain ⟨ws,hws,htight,hopen⟩ := openElement_eq s name attributes
  obtain ⟨ws₂,ws',textDepth,hws₂,hws',hnone,htop,hclose⟩ := closeElement_eq (acceptAll children s₁)
  rw [hopen] at hs
  have ha := hw.after
  have hstack : (acceptAll children s₁).stack = name::s.stack := by rw [ha.stack,hs]
  have hd₁ : (acceptAll children s₁).depth = s.depth+1 := by rw [ha.depth,hs]
  rw [hclose]
  refine ⟨ws ++ lessThan::(name ++ (attributesText attributes ++ (tagEnd false ++ (w ++ (ws₂ ++
    (endTagText name ++ ws')))))),⟨?_,⟨?_,rfl,?_,?_,fun h => ?_⟩,nofun,fun _ ht => ?_,
    fun {nodes t rest} h _ hd => ?_⟩⟩
  · rw [hw.buffer,hstack,ha.elementJustOpened,hs]
    simp [XMLPrinter.sealText,tagEnd]
  · exact ha.compactMode.trans (by rw [hs])
  · rw [hstack]
    rfl
  · rw [hd₁]
    dsimp only
    omega
  · exact ha.firstElement (by
      rw [hs]
      rcases h with h | h
      · exact .inl h
      · exact .inr (by simp [h]))
  · rw [htight ht]
    exact startsTag_tag _ _ _ _
  · have happ := h.append_newline s.depth hws' (fun hd => htop (by omega)) hd
    have hin := hw.written ws₂ (endTagText name ++ (ws' ++ t)) hws₂ fun n hn ht =>
      ⟨hnone (hw.text n hn ht (by rw [hs]; dsimp only; omega)),⟨slash,_,rfl⟩⟩
    simpa using (Written.open hws hne hin happ : Written (.element name attributes _::_) _ _)

theorem openElement_in (s : XMLPrinter) (name : List UInt8) (attributes : List XMLAttribute) :
    let s₁ := attributes.foldl XMLPrinter.pushAttribute (s.openElement name)
    s₁.depth = s.depth+1 ∧ (s₁.compactMode ∨ s₁.firstElement = false) := by
  obtain ⟨ws,-,-,hopen⟩ := openElement_eq s name attributes
  rw [hopen]
  refine ⟨rfl,?_⟩
  cases s.compactMode <;> simp

mutual

/-- Every node is printed so that it can be read. -/
theorem accept_printed {depth : ℕ} : (node : XMLNode) → WellFormed depth node → (s : XMLPrinter) →
    0 ≤ s.depth → ∃ w, NodePrinted node s (node.accept s) w
  | .element name attributes [],_,s,_ => by
    rw [XMLNode.accept,acceptAll]
    exact closed_printed name attributes s
  | .element name attributes (child::children),hw,s,hdepth => by
    obtain ⟨hd,hin⟩ := openElement_in s name attributes
    obtain ⟨w,h⟩ := acceptAll_printed (child::children) (List.cons_ne_nil _ _) hw.children
      (attributes.foldl XMLPrinter.pushAttribute (s.openElement name)) (by omega) (fun _ => hin)
      (by omega)
    rw [XMLNode.accept]
    exact open_printed (List.cons_ne_nil _ _) rfl h hdepth
  | .text value cData,_,s,_ => by
    rw [XMLNode.accept]
    exact text_printed value cData s
  | .comment value,_,s,_ => by
    rw [XMLNode.accept]
    exact leaf_printed rfl ⟨33,_,rfl⟩ nofun
  | .declaration value,_,s,_ => by
    rw [XMLNode.accept]
    exact leaf_printed rfl ⟨63,_,rfl⟩ nofun
  | .unknown value,_,s,_ => by
    rw [XMLNode.accept]
    exact leaf_printed rfl ⟨33,_,rfl⟩ nofun

theorem acceptAll_printed {depth : ℕ} : (nodes : List XMLNode) → nodes ≠ [] →
    WellFormedChildren depth nodes → (s : XMLPrinter) → 0 ≤ s.depth →
    (0 < s.depth → s.compactMode ∨ s.firstElement = false) →
    (s.depth = 0 → ∀ n ∈ nodes, ¬ n.isText) → ∃ w, NodesPrinted nodes s (acceptAll nodes s) w
  | [],hne,_,_,_,_,_ => absurd rfl hne
  | [node],_,hw,s,hdepth,_,_ => by
    obtain ⟨w,hn⟩ := accept_printed node (hw.wellFormed node List.mem_cons_self) s hdepth
    rw [acceptAll,acceptAll]
    exact ⟨w,.single hn⟩
  | node::next::nodes,_,hw,s,hdepth,hin,htop => by
    obtain ⟨w,hn⟩ := accept_printed node (hw.wellFormed node List.mem_cons_self) s hdepth
    have hd := hn.after.depth
    obtain ⟨w',hns⟩ := acceptAll_printed (next::nodes) (List.cons_ne_nil _ _) hw.tail
      (node.accept s) (by omega) (fun h => hn.after.firstElement (hin (by omega)))
      (fun h n hm => htop (by omega) n (List.mem_cons_of_mem _ hm))
    rw [acceptAll]
    exact ⟨w ++ w',.cons hn hns (List.cons_ne_nil _ _) (fun m hm => hw.head m hm) hdepth hin htop⟩

end

end Blush.Xml
