import Blush.Resolver.Names
import Blush.Uop.Model
import Blush.Xml.RoundTrip

/-! A configuration as a text: `Initialize` parses it with the parser of `XMLDocument`, and resolves
every connection to the names that were written for it. -/
namespace Blush.Uop
open Face Resolver Xml

/-! ## Documents as elements -/

/-- A name, byte by byte. -/
def nameOf (bytes : List UInt8) : String := String.ofList (bytes.map fun c => Char.ofNat c.toNat)

/-- An attribute, as `XMLElement::Attribute` compares and gives it. -/
def toAttribute (a : XMLAttribute) : String × CString := (nameOf a.name,cString a.value)

mutual

/-- A node as `ToElement` gives it. -/
def toElement : XMLNode → Option Element
  | .element name attributes children =>
    some (.mk (nameOf name) (attributes.map toAttribute) (toElements children))
  | _ => none

/-- The elements among the children of a node. -/
def toElements : List XMLNode → List Element
  | [] => []
  | node::nodes => (toElement node).toList ++ toElements nodes

end

/-- `doc.Parse`, as `Initialize` calls it: the elements of the document, unless there is an error. -/
def parseXml (xml : CString) : Option (List Element) :=
  match documentParse xml.chars with
  | .ok doc => some (toElements doc.children)
  | .error _ | .outOfFuel => none

/-! ## Configurations -/

/-- A value of an attribute that is read as it is written. -/
structure ConfigValue where
  chars : List UInt8
  isValue : IsValue chars

/-- `<connection name= base= typed_ts= typed_ts_response=/>`. -/
structure ConnectionEntry where
  name : ConfigValue
  base : Option ConfigValue
  typedTs : Option ConfigValue
  typedTsResponse : Option ConfigValue

/-- The two forms of a connection table. -/
inductive TableForm
  | allConnections (base typedTs : Option ConfigValue)
  | connectionList (entries : List ConnectionEntry)

structure ConnectionTable where
  uopName : ConfigValue
  form : TableForm

def attr (name : String) (value : ConfigValue) : XMLAttribute := ⟨ascii name,value.chars⟩

def attr? (name : String) (value : Option ConfigValue) : List XMLAttribute :=
  (value.map (attr name)).toList

def ConnectionEntry.node (e : ConnectionEntry) : XMLNode :=
  .element (ascii "connection")
    (attr "name" e.name::(attr? "base" e.base ++ attr? "typed_ts" e.typedTs ++
      attr? "typed_ts_response" e.typedTsResponse)) []

def TableForm.node : TableForm → XMLNode
  | allConnections base typedTs =>
    .element (ascii "all-connections") (attr? "base" base ++ attr? "typed_ts" typedTs) []
  | connectionList entries =>
    .element (ascii "connection_list") [] (entries.map ConnectionEntry.node)

def ConnectionTable.node (t : ConnectionTable) : XMLNode :=
  .element (ascii "connection-table") [attr "uop_name" t.uopName] [t.form.node]

/-- A configuration, as a document. -/
def configDocument (tables : List ConnectionTable) : XMLDocument where
  writeBOM := false
  children := [.element (ascii "uop-connection-config") [] (tables.map ConnectionTable.node)]

/-! ## The text of a configuration can be read -/

/-- An element that can be printed, without anything but such elements in it. -/
structure Readable (depth : ℕ) (node : XMLNode) : Prop where
  wellFormed : WellFormed depth node
  printable : Printable node
  element : ¬ node.isDeclaration ∧ ¬ node.isText

theorem Readable.mk' {depth : ℕ} {name : List UInt8} {attributes : List XMLAttribute}
    {children : List XMLNode} (hname : isName name)
    (hattr : ∀ a ∈ attributes, isName a.name ∧ IsValue a.value)
    (hdistinct : (attributes.map XMLAttribute.name).Nodup) (hdepth : depth+1 < maxElementDepth)
    (hchildren : ∀ c ∈ children, Readable (depth+1) c) :
    Readable depth (.element name attributes children) := by
  have hsep : children.Pairwise Separate :=
    List.pairwise_of_forall_mem_list fun a ha _ _ h => (hchildren a ha).element.2 h.1
  exact ⟨.element hname (fun a ha => ⟨(hattr a ha).1,(hattr a ha).2.1⟩) hdistinct
      (fun _ => hdepth) (fun c hc => (hchildren c hc).wellFormed)
      (fun c hc => (hchildren c hc).element.1) hsep.isChain,
    .element (fun a ha => (hattr a ha).2.2) fun c hc => (hchildren c hc).printable,nofun,nofun⟩

theorem attr?_valid {name : String} (hn : isName (ascii name)) {value : Option ConfigValue}
    {a : XMLAttribute} (ha : a ∈ attr? name value) : isName a.name ∧ IsValue a.value := by
  cases value with
  | none => cases ha
  | some v =>
    obtain rfl := List.mem_singleton.mp ha
    exact ⟨hn,v.isValue⟩

theorem attr?_names (name : String) (value : Option ConfigValue) :
    ((attr? name value).map XMLAttribute.name).Sublist [ascii name] := by
  cases value with
  | none => exact List.nil_sublist _
  | some v => exact List.Sublist.refl _

theorem connectionEntry_readable (e : ConnectionEntry) : Readable 4 e.node := by
  refine .mk' (by decide) (fun a ha => ?_) ?_ (by decide) (by simp)
  · rcases List.mem_cons.mp ha with rfl | ha
    · exact ⟨show isName (ascii "name") by decide,e.name.isValue⟩
    · rcases List.mem_append.mp ha with ha | ha
      · rcases List.mem_append.mp ha with ha | ha
        · exact attr?_valid (by decide) ha
        · exact attr?_valid (by decide) ha
      · exact attr?_valid (by decide) ha
  · rw [List.map_cons,List.map_append,List.map_append]
    have hsub := ((attr?_names "base" e.base).append (attr?_names "typed_ts" e.typedTs)).append
      (attr?_names "typed_ts_response" e.typedTsResponse)
    exact (hsub.cons_cons (ascii "name")).nodup (by decide)

theorem tableForm_readable (f : TableForm) : Readable 3 f.node := by
  cases f with
  | allConnections base typedTs =>
    refine .mk' (by decide) (fun a ha => ?_) ?_ (by decide) (by simp)
    · rcases List.mem_append.mp ha with ha | ha
      · exact attr?_valid (by decide) ha
      · exact attr?_valid (by decide) ha
    · rw [List.map_append]
      exact ((attr?_names "base" base).append (attr?_names "typed_ts" typedTs)).nodup (by decide)
  | connectionList entries =>
    refine .mk' (by decide) (by simp) .nil (by decide) fun c hc => ?_
    obtain ⟨e,-,rfl⟩ := List.mem_map.mp hc
    exact connectionEntry_readable e

theorem connectionTable_readable (t : ConnectionTable) : Readable 2 t.node := by
  refine .mk' (by decide) (fun a ha => ?_) (List.nodup_singleton _) (by decide) fun c hc => ?_
  · obtain rfl := List.mem_singleton.mp ha
    exact ⟨show isName (ascii "uop_name") by decide,t.uopName.isValue⟩
  · rw [List.mem_singleton.mp hc]
    exact tableForm_readable t.form

theorem configDocument_printable (tables : List ConnectionTable) :
    (configDocument tables).Printable := by
  have h : Readable 1 (.element (ascii "uop-connection-config") []
      (tables.map ConnectionTable.node)) := by
    refine .mk' (by decide) (by simp) .nil (by decide) fun c hc => ?_
    obtain ⟨t,-,rfl⟩ := List.mem_map.mp hc
    exact connectionTable_readable t
  exact ⟨⟨by simpa [configDocument] using h.wellFormed,fun _ _ _ => rfl,
      List.pairwise_singleton _ _,List.isChain_singleton _⟩,List.cons_ne_nil _ _,
    by simpa [configDocument] using h.printable,by simpa [configDocument] using h.element.2⟩

/-- The text of a configuration, in either mode of the printer. -/
def configText (compact : Bool) (tables : List ConnectionTable) : CString where
  chars := (configDocument tables).print compact
  noNul _ hc hz := zero_notMem_print (configDocument_printable tables) compact (hz ▸ hc)

theorem parseXml_configText (compact : Bool) (tables : List ConnectionTable) :
    parseXml (configText compact tables) = some (toElements (configDocument tables).children) := by
  rw [parseXml,configText,documentParse_print (configDocument_printable tables)]

/-! ## What a configuration assigns -/

theorem cString_chars (v : ConfigValue) : (cString v.chars).chars = v.chars := cStr_eq_self v.isValue.1

/-- The element of an entry. -/
def ConnectionEntry.element (e : ConnectionEntry) : Element :=
  .mk "connection"
    (("name",cString e.name.chars)::((e.base.map fun v => ("base",cString v.chars)).toList ++
      (e.typedTs.map fun v => ("typed_ts",cString v.chars)).toList ++
      (e.typedTsResponse.map fun v => ("typed_ts_response",cString v.chars)).toList)) []

theorem toElement_entry (e : ConnectionEntry) : toElement e.node = some e.element := by
  obtain ⟨name,base,typedTs,typedTsResponse⟩ := e
  rw [ConnectionEntry.node,toElement]
  cases base <;> cases typedTs <;> cases typedTsResponse <;> rfl

/-- What an entry assigns. -/
def ConnectionEntry.assignments (e : ConnectionEntry) : List Assignment :=
  (e.base.map fun v => .base e.name.chars v.chars).toList ++
    (e.typedTs.map fun v => .typedTs e.name.chars v.chars).toList ++
    (e.typedTsResponse.map fun v => .typedTsResponse e.name.chars v.chars).toList

theorem connectionAssignments_entry (e : ConnectionEntry) :
    e.element.connectionAssignments = e.assignments := by
  obtain ⟨name,base,typedTs,typedTsResponse⟩ := e
  cases base <;> cases typedTs <;> cases typedTsResponse <;>
    simp [Element.connectionAssignments,ConnectionEntry.element,ConnectionEntry.assignments,
      Element.attributeOf,cString_chars]

theorem toElements_map {α : Type} {f : α → XMLNode} {g : α → Element}
    (h : ∀ x, toElement (f x) = some (g x)) (l : List α) : toElements (l.map f) = l.map g := by
  induction l with
  | nil => rfl
  | cons x l ih =>
    rw [List.map_cons,toElements,h,ih]
    rfl

def TableForm.element : TableForm → Element
  | allConnections base typedTs =>
    .mk "all-connections" ((base.map fun v => ("base",cString v.chars)).toList ++
      (typedTs.map fun v => ("typed_ts",cString v.chars)).toList) []
  | connectionList entries => .mk "connection_list" [] (entries.map ConnectionEntry.element)

theorem toElement_form (f : TableForm) : toElement f.node = some f.element := by
  cases f with
  | allConnections base typedTs =>
    rw [TableForm.node,toElement]
    cases base <;> cases typedTs <;> rfl
  | connectionList entries =>
    rw [TableForm.node,toElement,toElements_map toElement_entry]
    rfl

def ConnectionTable.element (t : ConnectionTable) : Element :=
  .mk "connection-table" [("uop_name",cString t.uopName.chars)] [t.form.element]

theorem toElement_table (t : ConnectionTable) : toElement t.node = some t.element := by
  rw [ConnectionTable.node,toElement,toElements,toElement_form]
  rfl

/-- What a table assigns. -/
def TableForm.assignments : TableForm → List Assignment
  | allConnections base typedTs =>
    (base.map fun v => .uniformBase v.chars).toList ++
      (typedTs.map fun v => .uniformTypedTs v.chars).toList
  | connectionList entries => entries.flatMap ConnectionEntry.assignments

theorem childElements_map {α : Type} {f : α → Element} {name : String} (l : List α)
    (h : ∀ x, (f x).name = name) {parent : String} {attributes : List (String × CString)} :
    (Element.mk parent attributes (l.map f)).childElements name = l.map f :=
  List.filter_eq_self.mpr fun e he => by
    obtain ⟨x,-,rfl⟩ := List.mem_map.mp he
    simpa using h x

theorem tableAssignments_table (t : ConnectionTable) :
    t.element.tableAssignments = t.form.assignments := by
  obtain ⟨uopName,form⟩ := t
  cases form with
  | allConnections base typedTs =>
    cases base <;> cases typedTs <;>
      simp [Element.tableAssignments,ConnectionTable.element,TableForm.element,
        TableForm.assignments,Element.childElements,Element.children,Element.name,
        Element.uniformAssignments,Element.attributeOf,cString_chars]
  | connectionList entries =>
    have hall : (ConnectionTable.element ⟨uopName,.connectionList entries⟩).childElements
        "all-connections" = [] := rfl
    have hlist : (ConnectionTable.element ⟨uopName,.connectionList entries⟩).childElements
        "connection_list" = [(TableForm.connectionList entries).element] := rfl
    have hentries : (TableForm.connectionList entries).element.childElements "connection" =
        entries.map ConnectionEntry.element :=
      childElements_map (f:=ConnectionEntry.element) entries fun _ => rfl
    rw [Element.tableAssignments,hall,hlist]
    change ((TableForm.connectionList entries).element.childElements "connection").flatMap _ = _
    rw [hentries,List.flatMap_map]
    exact List.flatMap_congr fun e _ => connectionAssignments_entry e

/-- The table of a configuration for a UoP: the first one with its name. -/
def tableFor? (tables : List ConnectionTable) (uopName : CString) : Option ConnectionTable :=
  tables.find? fun t => t.uopName.chars = uopName.chars

theorem assignments_configText (compact : Bool) (tables : List ConnectionTable)
    (uopName : CString) :
    (Call.initializeFrom (some (configText compact tables)) (some uopName)).assignments parseXml =
      ((tableFor? tables uopName).map fun t => t.form.assignments).getD [] := by
  have hroot : toElements (configDocument tables).children =
      [.mk "uop-connection-config" [] (tables.map ConnectionTable.element)] := by
    rw [configDocument,toElements,toElement,toElements_map toElement_table]
    rfl
  have hname : ((fun table : Element => decide (table.attributeOf "uop_name" = some uopName)) ∘
      ConnectionTable.element) = fun t => decide (t.uopName.chars = uopName.chars) := by
    funext t
    have hattr : t.element.attributeOf "uop_name" = some (cString t.uopName.chars) := rfl
    refine decide_eq_decide.mpr ?_
    rw [hattr,Option.some.injEq]
    refine ⟨fun h => ?_,fun h => ?_⟩
    · rw [← h,cString_chars]
    · obtain ⟨chars,hchars⟩ := uopName
      rw [CString.mk.injEq,cString_chars,h]
  rw [Call.assignments,Option.bind_some,Option.bind_some,parseXml_configText,Option.bind_some,hroot,
    table?,List.find?_cons_of_pos (by rfl),Option.bind_some,
    childElements_map (f:=ConnectionTable.element) tables fun _ => rfl,List.find?_map,hname,
    ← tableFor?]
  cases tableFor? tables uopName with
  | none => rfl
  | some t => exact tableAssignments_table t

/-! ## The names a configuration resolves to -/

/-- The last value that an entry for the connection gives. -/
def entryName (field : ConnectionEntry → Option ConfigValue) (entries : List ConnectionEntry)
    (c : CString) : List UInt8 :=
  (((entries.filter fun e => e.name.chars = c.chars).filterMap field).getLast?.map
    ConfigValue.chars).getD []

namespace TableForm

def baseName (c : CString) : TableForm → List UInt8
  | allConnections base _ => (base.map ConfigValue.chars).getD []
  | connectionList entries => entryName ConnectionEntry.base entries c

def typedTsName (c : CString) : TableForm → List UInt8
  | allConnections _ typedTs => (typedTs.map ConfigValue.chars).getD []
  | connectionList entries => entryName ConnectionEntry.typedTs entries c

/-- There is no response name for all connections. -/
def typedTsResponseName (c : CString) : TableForm → List UInt8
  | allConnections .. => []
  | connectionList entries => entryName ConnectionEntry.typedTsResponse entries c

end TableForm

/-- The assignments to a connection are the values of its entries, in order. -/
theorem filterMap_entries (hit : Assignment → Option (List UInt8))
    (field : ConnectionEntry → Option ConfigValue) (c : CString)
    (h : ∀ e : ConnectionEntry, e.assignments.filterMap hit =
      if e.name.chars = c.chars then ((field e).map ConfigValue.chars).toList else [])
    (entries : List ConnectionEntry) :
    (entries.flatMap ConnectionEntry.assignments).filterMap hit =
      ((entries.filter fun e => e.name.chars = c.chars).filterMap field).map ConfigValue.chars := by
  induction entries with
  | nil => rfl
  | cons e entries ih =>
    rw [List.flatMap_cons,List.filterMap_append,ih,h]
    by_cases hc : e.name.chars = c.chars
    · rw [if_pos hc,List.filter_cons_of_pos (by simpa using hc)]
      cases hf : field e <;> simp [hf]
    · rw [if_neg hc,List.filter_cons_of_neg (by simpa using hc),List.nil_append]

theorem filterMap_base (e : ConnectionEntry) (c : CString) :
    e.assignments.filterMap (Assignment.base? c.chars) =
      if e.name.chars = c.chars then (e.base.map ConfigValue.chars).toList else [] := by
  obtain ⟨name,base,typedTs,typedTsResponse⟩ := e
  by_cases h : name.chars = c.chars <;> cases base <;> cases typedTs <;> cases typedTsResponse <;>
    simp [ConnectionEntry.assignments,Assignment.base?,List.filterMap_cons,h]

theorem filterMap_typedTs (e : ConnectionEntry) (c : CString) :
    e.assignments.filterMap (Assignment.typedTs? c.chars) =
      if e.name.chars = c.chars then (e.typedTs.map ConfigValue.chars).toList else [] := by
  obtain ⟨name,base,typedTs,typedTsResponse⟩ := e
  by_cases h : name.chars = c.chars <;> cases base <;> cases typedTs <;> cases typedTsResponse <;>
    simp [ConnectionEntry.assignments,Assignment.typedTs?,List.filterMap_cons,h]

theorem filterMap_typedTsResponse (e : ConnectionEntry) (c : CString) :
    e.assignments.filterMap (Assignment.typedTsResponse? c.chars) =
      if e.name.chars = c.chars then (e.typedTsResponse.map ConfigValue.chars).toList else [] := by
  obtain ⟨name,base,typedTs,typedTsResponse⟩ := e
  by_cases h : name.chars = c.chars <;> cases base <;> cases typedTs <;> cases typedTsResponse <;>
    simp [ConnectionEntry.assignments,Assignment.typedTsResponse?,List.filterMap_cons,h]

/-- Entries assign nothing to all connections. -/
theorem filterMap_uniform (entries : List ConnectionEntry) :
    (entries.flatMap ConnectionEntry.assignments).filterMap Assignment.uniformBase? = [] ∧
      (entries.flatMap ConnectionEntry.assignments).filterMap Assignment.uniformTypedTs? = [] := by
  constructor <;> rw [List.filterMap_flatMap,List.flatMap_eq_nil_iff] <;>
    rintro ⟨name,base,typedTs,typedTsResponse⟩ - <;>
    cases base <;> cases typedTs <;> cases typedTsResponse <;> rfl

/-- The names after the assignments of entries. -/
theorem entries_resolve (entries : List ConnectionEntry) (uopBase : ℕ) (c : CString) :
    let r := (entries.flatMap ConnectionEntry.assignments).foldl ConnectionResolver.assign
      (.create uopBase)
    r.resolveBaseName c = entryName ConnectionEntry.base entries c ∧
      r.resolveTypedTsName c = entryName ConnectionEntry.typedTs entries c ∧
      r.resolveTypedTsResponseName c = entryName ConnectionEntry.typedTsResponse entries c := by
  intro r
  obtain ⟨hub,hut⟩ := filterMap_uniform entries
  have hbase := filterMap_entries _ _ c (fun e => filterMap_base e c) entries
  have htypedTs := filterMap_entries _ _ c (fun e => filterMap_typedTs e c) entries
  have hresponse := filterMap_entries _ _ c (fun e => filterMap_typedTsResponse e c) entries
  refine ⟨?_,?_,?_⟩
  · rw [ConnectionResolver.resolveBaseName,ConnectionResolver.perConnectionBase_foldl,
      ConnectionResolver.uniformBaseName_foldl,hub,hbase,List.getLast?_map,entryName]
    cases ((entries.filter _).filterMap ConnectionEntry.base).getLast? <;> rfl
  · rw [ConnectionResolver.resolveTypedTsName,ConnectionResolver.perConnectionNames_foldl,
      ConnectionResolver.uniformTypedTsName_foldl,hut,htypedTs,List.getLast?_map,entryName]
    cases ((entries.filter _).filterMap ConnectionEntry.typedTs).getLast? <;> rfl
  · rw [ConnectionResolver.resolveTypedTsResponseName,
      ConnectionResolver.perConnectionResponseNames_foldl,hresponse,List.getLast?_map,entryName]
    cases ((entries.filter _).filterMap ConnectionEntry.typedTsResponse).getLast? <;> rfl

/-- A resolver that has read the text of a configuration. -/
def configured (compact : Bool) (tables : List ConnectionTable) (uopBase : ℕ)
    (uopName : CString) : ConnectionResolver :=
  (ConnectionResolver.create uopBase).initializeFrom parseXml
    (some (configText compact tables)) (some uopName)

theorem configured_eq (compact : Bool) (tables : List ConnectionTable) (uopBase : ℕ)
    (uopName : CString) :
    configured compact tables uopBase uopName =
      (((tableFor? tables uopName).map fun t => t.form.assignments).getD []).foldl
        ConnectionResolver.assign (.create uopBase) :=
  (ConnectionResolver.initializeFrom_eq _ _).trans (by rw [assignments_configText])

/-- A name that the first table for a UoP has; without a table it is empty. -/
def nameIn (tables : List ConnectionTable) (uopName : CString) (name : TableForm → List UInt8) :
    List UInt8 :=
  (((tableFor? tables uopName).map ConnectionTable.form).map name).getD []

theorem configured_names (compact : Bool) (tables : List ConnectionTable) (uopBase : ℕ)
    (uopName c : CString) :
    (configured compact tables uopBase uopName).resolveBaseName c =
        nameIn tables uopName (TableForm.baseName c) ∧
      (configured compact tables uopBase uopName).resolveTypedTsName c =
        nameIn tables uopName (TableForm.typedTsName c) ∧
      (configured compact tables uopBase uopName).resolveTypedTsResponseName c =
        nameIn tables uopName (TableForm.typedTsResponseName c) := by
  rw [configured_eq]
  unfold nameIn
  cases tableFor? tables uopName with
  | none => exact ⟨rfl,rfl,rfl⟩
  | some t =>
    obtain ⟨uopName,form⟩ := t
    cases form with
    | allConnections base typedTs => cases base <;> cases typedTs <;> exact ⟨rfl,rfl,rfl⟩
    | connectionList entries => exact entries_resolve entries uopBase c

/-- A configuration that is written as a text and read by a resolver gives every connection the
names that the first table for the UoP has for it. -/
theorem configText_resolves (compact : Bool) (tables : List ConnectionTable) (uopBase : ℕ)
    (uopName c : CString) :
    let r := configured compact tables uopBase uopName
    let form := (tableFor? tables uopName).map ConnectionTable.form
    r.resolveBaseName c = (form.map (TableForm.baseName c)).getD [] ∧
      r.resolveTypedTsName c = (form.map (TableForm.typedTsName c)).getD [] ∧
      r.resolveTypedTsResponseName c = (form.map (TableForm.typedTsResponseName c)).getD [] :=
  configured_names compact tables uopBase uopName c

end Blush.Uop
