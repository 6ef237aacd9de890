import Blush.Lib.Fuel
import Blush.Xml.StrPair

/-! The parser of `XMLDocument`, with entities processed and whitespace preserved. A text is what is
left of the buffer; line numbers, which only error messages show, are left out. -/
namespace Blush.Xml
open Fuel

/-- The errors of `XMLError` that `Parse` sets. -/
inductive XMLError
  | errorParsingElement
  | errorParsingAttribute
  | errorParsingText
  | errorParsingCData
  | errorParsingComment
  | errorParsingDeclaration
  | errorParsingUnknown
  | errorEmptyDocument
  | errorMismatchedElement
  | errorParsing
  | elementDepthExceeded
  deriving DecidableEq, Repr

structure XMLAttribute where
  name : List UInt8
  value : List UInt8
  deriving DecidableEq, Repr

/-- `XMLNode`, with the children in order. -/
inductive XMLNode
  | element (name : List UInt8) (attributes : List XMLAttribute) (children : List XMLNode)
  | text (value : List UInt8) (cData : Bool)
  | comment (value : List UInt8)
  | declaration (value : List UInt8)
  | unknown (value : List UInt8)

def XMLNode.isDeclaration : XMLNode → Bool
  | declaration _ => true
  | _ => false

/-! ## `Identify` -/

/-- The nodes without children. -/
inductive Leaf
  | declaration
  | comment
  | cData
  | unknown
  | text
  deriving DecidableEq, Repr

/-- What `Identify` finds. -/
inductive Kind
  | element
  | leaf (kind : Leaf)
  deriving DecidableEq, Repr

/-- "<?". -/
def xmlHeader : List UInt8 := [60,63]
/-- "<!--". -/
def commentHeader : List UInt8 := [60,33,45,45]
/-- "<![CDATA[". -/
def cdataHeader : List UInt8 := [60,33,91,67,68,65,84,65,91]
/-- "<!". -/
def dtdHeader : List UInt8 := [60,33]
/-- "<". -/
def elementHeader : List UInt8 := [60]

/-- The headers, in the order in which they are tried. -/
def headers : List (List UInt8 × Kind) :=
  [(xmlHeader,.leaf .declaration),(commentHeader,.leaf .comment),(cdataHeader,.leaf .cData),
    (dtdHeader,.leaf .unknown),(elementHeader,.element)]

/-- The header at the front of a text, and what is behind it. -/
def header? (p : List UInt8) : Option (Kind × List UInt8) :=
  headers.findSome? fun h => (p.dropPrefix? h.1).map fun rest => (h.2,rest)

/-- `XMLDocument::Identify`: nothing at the end of the text; whitespace in front of a text node
counts as text. -/
def identify (p : List UInt8) : Option (Kind × List UInt8) :=
  let q := skipWhiteSpace p
  if q = [] then none else some ((header? q).getD (.leaf .text,p))

/-! ## Names, texts and attributes -/

/-- `StrPair::ParseText`: the value in front of the end tag, and what is behind it. -/
def parseText (p endTag : List UInt8) (flags : Flags) : Option (List UInt8 × List UInt8) :=
  (p.dropInfix? endTag).map fun r => (getStr flags r.1,r.2)

/-- `StrPair::ParseName`. -/
def parseName : List UInt8 → Option (List UInt8 × List UInt8)
  | [] => none
  | c::p =>
    if isNameStartChar c then some (c::p.takeWhile isNameChar,p.dropWhile isNameChar) else none

/-- `XMLAttribute::ParseDeep`. -/
def attributeParseDeep (p : List UInt8) : Option (XMLAttribute × List UInt8) :=
  match parseName p with
  | none => none
  | some (name,p) =>
    match skipWhiteSpace p with
    | [] => none
    | c::p =>
      if c ≠ equalsSign then none
      else
        match skipWhiteSpace p with
        | [] => none
        | quote::p =>
          if quote = doubleQuote ∨ quote = singleQuote then
            (parseText p [quote] .attributeValue).map fun r => (⟨name,r.1⟩,r.2)
          else none

/-- The end of a tag: its attributes, whether it is sealed by "/>", and what is behind it. -/
structure TagEnd where
  attributes : List XMLAttribute
  closed : Bool
  rest : List UInt8

/-- `XMLElement::ParseAttributes`. -/
def parseAttributes : ℕ → List XMLAttribute → List UInt8 → Outcome XMLError TagEnd
  | 0,_,_ => .outOfFuel
  | fuel+1,attributes,p =>
    match skipWhiteSpace p with
    | [] => .error .errorParsingElement
    | c::p =>
      if isNameStartChar c then
        match attributeParseDeep (c::p) with
        | none => .error .errorParsingAttribute
        | some (attrib,p) =>
          if attrib.name ∈ attributes.map XMLAttribute.name then .error .errorParsingAttribute
          else parseAttributes fuel (attributes ++ [attrib]) p
      else if c = greaterThan then .ok ⟨attributes,false,p⟩
      else if c = slash ∧ p.head? = some greaterThan then .ok ⟨attributes,true,p.tail⟩
      else .error .errorParsingElement

/-! ## Nodes -/

/-- `XMLElement::ElementClosingType`. -/
inductive ElementClosingType
  | open
  | closed
  | closing
  deriving DecidableEq, Repr

/-- What `XMLElement::ParseDeep` reads of an element before its children. -/
structure Tag where
  name : List UInt8
  attributes : List XMLAttribute
  closingType : ElementClosingType
  rest : List UInt8

/-- The first part of `XMLElement::ParseDeep`. An element without a name gives no error of its own,
so that its parent reports one. -/
def parseTag (p : List UInt8) : Outcome XMLError Tag :=
  let p := skipWhiteSpace p
  let closing := p.head? = some slash
  match parseName (if closing then p.tail else p) with
  | none => .error .errorParsing
  | some (name,p) =>
    (parseAttributes (p.length+1) [] p).bind fun e =>
      .ok ⟨name,e.attributes,if e.closed then .closed else if closing then .closing else .open,
        e.rest⟩

/-- A node that is all its text up to an end tag. -/
def parseValue (p endTag : List UInt8) (flags : Flags) (error : XMLError)
    (node : List UInt8 → XMLNode) : Outcome XMLError (XMLNode × List UInt8) :=
  match parseText p endTag flags with
  | none => .error error
  | some (value,rest) => .ok (node value,rest)

/-- "?>", "-->", "]]>", ">" and "<". -/
def Leaf.endTag : Leaf → List UInt8
  | declaration => [63,62]
  | comment => [45,45,62]
  | cData => [93,93,62]
  | unknown => [62]
  | text => [60]

/-- `ParseDeep` of the nodes without children. -/
def leafParseDeep : Leaf → List UInt8 → Outcome XMLError (XMLNode × List UInt8)
  | .declaration,p =>
    parseValue p Leaf.declaration.endTag .newlines .errorParsingDeclaration .declaration
  | .comment,p => parseValue p Leaf.comment.endTag .comment .errorParsingComment .comment
  | .cData,p =>
    parseValue p Leaf.cData.endTag .newlines .errorParsingCData fun value => .text value true
  | .unknown,p => parseValue p Leaf.unknown.endTag .newlines .errorParsingUnknown .unknown
  | .text,p =>
    (parseValue p Leaf.text.endTag .textElement .errorParsingText fun value =>
      .text value false).bind fun r =>
      -- the '<' is left for the next node; without anything behind it the parent reports an error
      if r.2 = [] then .error .errorParsing else .ok (r.1,lessThan::r.2)

/-- `TINYXML2_MAX_ELEMENT_DEPTH`. -/
def maxElementDepth : ℕ := 500

/-- Only declarations have been added so far, as far as the first and the last child show. -/
def wellLocated (children : List XMLNode) : Bool :=
  match children.head?,children.getLast? with
  | some first,some last => first.isDeclaration && last.isDeclaration
  | _,_ => true

/-- What the loop over the children of a node leaves: the children, and the name of the end tag
it read with what is behind it, or nothing at the end of the text. -/
structure Children where
  nodes : List XMLNode
  endTag : Option (List UInt8 × List UInt8)

/-- The loop of `XMLNode::ParseDeep`, with the second part of `XMLElement::ParseDeep`. The document
has depth 1. -/
def nodeParseDeep : ℕ → ℕ → List XMLNode → List UInt8 → Outcome XMLError Children
  | 0,_,_,_ => .outOfFuel
  | fuel+1,depth,children,p =>
    match identify p with
    | none => .ok ⟨children,none⟩
    | some (.element,p) =>
      (parseTag p).bind fun tag =>
        match tag.closingType with
        | .closing => .ok ⟨children,some (tag.name,tag.rest)⟩
        | .closed =>
          nodeParseDeep fuel depth (children ++ [.element tag.name tag.attributes []]) tag.rest
        | .open =>
          if tag.rest = [] then .error .errorMismatchedElement
          else if depth+1 = maxElementDepth then .error .elementDepthExceeded
          else (nodeParseDeep fuel (depth+1) [] tag.rest).bind fun inner =>
            match inner.endTag with
            | none => .error .errorParsing
            | some (endTag,p) =>
              if endTag ≠ tag.name then .error .errorMismatchedElement
              else
                nodeParseDeep fuel depth
                  (children ++ [.element tag.name tag.attributes inner.nodes]) p
    | some (.leaf kind,p) =>
      (leafParseDeep kind p).bind fun r =>
        if r.1.isDeclaration ∧ ¬ (depth = 1 ∧ wellLocated children) then
          .error .errorParsingDeclaration
        else nodeParseDeep fuel depth (children ++ [r.1]) r.2

/-! ## Documents -/

structure XMLDocument where
  writeBOM : Bool
  children : List XMLNode

/-- The byte order mark of UTF-8. -/
def bom : List UInt8 := [0xEF,0xBB,0xBF]

/-- `XMLUtil::ReadBOM`. -/
def readBOM (p : List UInt8) : Bool × List UInt8 :=
  match p.dropPrefix? bom with
  | some rest => (true,rest)
  | none => (false,p)

/-- `XMLDocument::Parse`. What stands behind an end tag of no element is not read. -/
def documentParse (xml : List UInt8) : Outcome XMLError XMLDocument :=
  let r := readBOM (skipWhiteSpace xml)
  if r.2 = [] then .error .errorEmptyDocument
  else (nodeParseDeep (r.2.length+1) 1 [] r.2).bind fun inner => .ok ⟨r.1,inner.nodes⟩

end Blush.Xml
