import Mathlib.Data.List.AList
import Blush.Face.Common

/-! `ConnectionResolver`: its configuration, from XML text and from the setters, and the names it
resolves for a connection. `parse` stands for `XMLDocument::Parse`; it gives the elements at the top
of the document, or nothing when the text does not parse. -/
namespace Blush.Resolver
open Face

/-- An element with its attributes and its child elements. -/
inductive Element
  | mk (name : String) (attributes : List (String × CString)) (children : List Element)

namespace Element

def name : Element → String
  | mk name _ _ => name

/-- `XMLElement::Attribute`. -/
def attributeOf (e : Element) (name : String) : Option CString :=
  match e with
  | mk _ attributes _ => (attributes.find? fun a => a.1 = name).map Prod.snd

def children : Element → List Element
  | mk _ _ children => children

/-- `FirstChildElement`, and the elements `NextSiblingElement` goes on to. -/
def childElements (e : Element) (name : String) : List Element :=
  e.children.filter fun child => child.name = name

end Element

/-- `std::map<std::string, std::string>`. -/
abbrev Names := AList fun _ : List UInt8 => List UInt8

/-- The members of a `ConnectionResolver`; `uopBase` is an address. -/
structure ConnectionResolver where
  uopBase : ℕ
  uniformBaseName : List UInt8
  uniformTypedTsName : List UInt8
  perConnectionBase : Names
  perConnectionNames : Names
  perConnectionResponseNames : Names

namespace ConnectionResolver

def create (uopBase : ℕ) : ConnectionResolver := ⟨uopBase,[],[],∅,∅,∅⟩

variable (r : ConnectionResolver)

/-! ## Setters -/

def setUniformBaseName (name : List UInt8) : ConnectionResolver :=
  { r with uniformBaseName := name }

def setConnectionBaseName (connectionName baseName : List UInt8) : ConnectionResolver :=
  { r with perConnectionBase := r.perConnectionBase.insert connectionName baseName }

def setUniformTypedTsName (name : List UInt8) : ConnectionResolver :=
  { r with uniformTypedTsName := name }

def setConnectionTypedTsName (connectionName typedTsName : List UInt8) : ConnectionResolver :=
  { r with perConnectionNames := r.perConnectionNames.insert connectionName typedTsName }

def setConnectionTypedTsResponseName (connectionName typedTsName : List UInt8) :
    ConnectionResolver :=
  { r with
    perConnectionResponseNames := r.perConnectionResponseNames.insert connectionName typedTsName }

/-! ## `Initialize` -/

/-- The uniform mode. -/
def initializeUniform (allConn : Element) : ConnectionResolver :=
  let base := allConn.attributeOf "base"
  let typedTs := allConn.attributeOf "typed_ts"
  { r with
    uniformBaseName := base.elim r.uniformBaseName CString.chars
    uniformTypedTsName := typedTs.elim r.uniformTypedTsName CString.chars }

/-- One entry of the per-connection mode. -/
def initializeConnection (conn : Element) : ConnectionResolver :=
  match conn.attributeOf "name" with
  | none => r
  | some connName =>
    let set (names : Names) (attr : Option CString) : Names :=
      attr.elim names fun value => names.insert connName.chars value.chars
    { r with
      perConnectionBase := set r.perConnectionBase (conn.attributeOf "base")
      perConnectionNames := set r.perConnectionNames (conn.attributeOf "typed_ts")
      perConnectionResponseNames :=
        set r.perConnectionResponseNames (conn.attributeOf "typed_ts_response") }

/-- The first table with the name, in one of the two modes. -/
def initializeTable (table : Element) : ConnectionResolver :=
  match table.childElements "all-connections" with
  | allConn::_ => r.initializeUniform allConn
  | [] =>
    match table.childElements "connection_list" with
    | connList::_ => (connList.childElements "connection").foldl initializeConnection r
    | [] => r

/-- The loop over the connection tables. -/
def initializeTables (uopName : CString) : List Element → ConnectionResolver
  | [] => r
  | table::tables =>
    match table.attributeOf "uop_name" with
    | none => initializeTables uopName tables
    | some attr =>
      if attr ≠ uopName then initializeTables uopName tables else r.initializeTable table

/-- `Initialize`. -/
def initializeFrom (parse : CString → Option (List Element)) (configXml uopName : Option CString) :
    ConnectionResolver :=
  match configXml,uopName with
  | some xml,some name =>
    match parse xml with
    | none => r
    | some doc =>
      match doc.filter fun e => e.name = "uop-connection-config" with
      | [] => r
      | root::_ => r.initializeTables name (root.childElements "connection-table")
  | _,_ => r

/-! ## Name resolution -/

def resolveBaseName (connectionName : CString) : List UInt8 :=
  match r.perConnectionBase.lookup connectionName.chars with
  | some name => name
  | none => r.uniformBaseName

def resolveTypedTsName (connectionName : CString) : List UInt8 :=
  match r.perConnectionNames.lookup connectionName.chars with
  | some name => name
  | none => r.uniformTypedTsName

def resolveTypedTsResponseName (connectionName : CString) : List UInt8 :=
  match r.perConnectionResponseNames.lookup connectionName.chars with
  | some name => name
  | none => []

end ConnectionResolver

/-- The configuration calls. -/
inductive Call
  | initializeFrom (configXml uopName : Option CString)
  | setUniformBaseName (name : List UInt8)
  | setConnectionBaseName (connectionName baseName : List UInt8)
  | setUniformTypedTsName (name : List UInt8)
  | setConnectionTypedTsName (connectionName typedTsName : List UInt8)
  | setConnectionTypedTsResponseName (connectionName typedTsName : List UInt8)

def Call.run (parse : CString → Option (List Element)) (r : ConnectionResolver) :
    Call → ConnectionResolver
  | initializeFrom configXml uopName => r.initializeFrom parse configXml uopName
  | setUniformBaseName name => r.setUniformBaseName name
  | setConnectionBaseName connectionName baseName => r.setConnectionBaseName connectionName baseName
  | setUniformTypedTsName name => r.setUniformTypedTsName name
  | setConnectionTypedTsName connectionName typedTsName =>
    r.setConnectionTypedTsName connectionName typedTsName
  | setConnectionTypedTsResponseName connectionName typedTsName =>
    r.setConnectionTypedTsResponseName connectionName typedTsName

end Blush.Resolver
