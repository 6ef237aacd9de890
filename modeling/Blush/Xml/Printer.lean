import Mathlib.Data.Int.Notation
import Blush.Xml.Parser

/-! `XMLPrinter`, as a visitor that writes a document to memory, in pretty or in compact mode. -/
namespace Blush.Xml

/-- The members of `XMLPrinter`; entities are processed, and apostrophes escaped in attributes. -/
structure XMLPrinter where
  compactMode : Bool
  elementJustOpened : Bool
  stack : List (List UInt8)
  firstElement : Bool
  depth : ℤ
  textDepth : ℤ
  buffer : List UInt8

/-- Whether `PrintString` escapes a character, in restricted mode or not. -/
def entityFlag (restricted : Bool) (c : UInt8) : Bool :=
  if restricted then c = ampersand ∨ c = lessThan ∨ c = greaterThan
  else c ∈ entities.map Entity.value

/-- What `PrintString` prints for a character. -/
def printChar (restricted : Bool) (c : UInt8) : List UInt8 :=
  if entityFlag restricted c then
    match entities.find? fun e => e.value = c with
    | some e => ampersand::e.pattern ++ [semicolon]
    | none => []
  else [c]

/-- What `PrintString` prints. -/
def printString (restricted : Bool) (s : List UInt8) : List UInt8 :=
  s.flatMap (printChar restricted)

namespace XMLPrinter

def create (compactMode : Bool) : XMLPrinter := ⟨compactMode,false,[],true,0,-1,[]⟩

variable (s : XMLPrinter)

def write (data : List UInt8) : XMLPrinter := { s with buffer := s.buffer ++ data }

/-- `PrintSpace`: four spaces for each level. -/
def printSpace (depth : ℤ) : XMLPrinter := s.write (List.replicate (4*depth.toNat) 32)

def sealElementIfJustOpened : XMLPrinter :=
  if s.elementJustOpened then { s.write [greaterThan] with elementJustOpened := false } else s

def prepareForNewNode : XMLPrinter :=
  let s := s.sealElementIfJustOpened
  if s.compactMode then s
  else
    let s :=
      if s.firstElement then s.printSpace s.depth
      else if s.textDepth < 0 then (s.write [lf]).printSpace s.depth
      else s
    { s with firstElement := false }

def openElement (name : List UInt8) : XMLPrinter :=
  let s := s.prepareForNewNode
  let s := { s with stack := name::s.stack }
  { s.write (lessThan::name) with elementJustOpened := true, depth := s.depth+1 }

def pushAttribute (a : XMLAttribute) : XMLPrinter :=
  s.write (32::a.name ++ [equalsSign,doubleQuote] ++ printString false a.value ++ [doubleQuote])

def closeElement : XMLPrinter :=
  let s := { s with depth := s.depth-1 }
  let name := s.stack.headD []
  let s := { s with stack := s.stack.tail }
  let s :=
    if s.elementJustOpened then s.write [slash,greaterThan]
    else
      let s := if s.textDepth < 0 ∧ !s.compactMode then (s.write [lf]).printSpace s.depth else s
      s.write ([lessThan,slash] ++ name ++ [greaterThan])
  let s := if s.textDepth = s.depth then { s with textDepth := -1 } else s
  let s := if s.depth = 0 ∧ !s.compactMode then s.write [lf] else s
  { s with elementJustOpened := false }

def pushText (text : List UInt8) (cData : Bool) : XMLPrinter :=
  let s := { s with textDepth := s.depth-1 }
  s.sealElementIfJustOpened.write
    (if cData then cdataHeader ++ text ++ Leaf.cData.endTag else printString true text)

def pushComment (comment : List UInt8) : XMLPrinter :=
  s.prepareForNewNode.write (commentHeader ++ comment ++ Leaf.comment.endTag)

def pushDeclaration (value : List UInt8) : XMLPrinter :=
  s.prepareForNewNode.write (xmlHeader ++ value ++ Leaf.declaration.endTag)

def pushUnknown (value : List UInt8) : XMLPrinter :=
  s.prepareForNewNode.write (dtdHeader ++ value ++ Leaf.unknown.endTag)

/-- `PushHeader` with the byte order mark alone. -/
def pushHeader (writeBOM : Bool) : XMLPrinter := if writeBOM then s.write bom else s

end XMLPrinter

/-! ## Visits -/

mutual

/-- `Accept` of a node. -/
def XMLNode.accept : XMLNode → XMLPrinter → XMLPrinter
  | .element name attributes children,s =>
    (acceptAll children (attributes.foldl XMLPrinter.pushAttribute (s.openElement name))).closeElement
  | .text value cData,s => s.pushText value cData
  | .comment value,s => s.pushComment value
  | .declaration value,s => s.pushDeclaration value
  | .unknown value,s => s.pushUnknown value

/-- `Accept` of the children of a node, in order. -/
def acceptAll : List XMLNode → XMLPrinter → XMLPrinter
  | [],s => s
  | node::nodes,s => acceptAll nodes (node.accept s)

end

/-- What `XMLDocument::Print` prints. -/
def XMLDocument.print (compact : Bool) (doc : XMLDocument) : List UInt8 :=
  (acceptAll doc.children ((XMLPrinter.create compact).pushHeader doc.writeBOM)).buffer

end Blush.Xml
