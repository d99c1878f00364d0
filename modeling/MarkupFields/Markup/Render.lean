import MarkupFields.Markup.Scan
import MarkupFields.Tree.Document

/-
  Writing markup. Text and attribute values are escaped so that reading them gives them back; all
  else is written as it is. Indentation puts the nodes of element-only content on lines of their own
  and leaves out blank text there; content with character data in it is written as it is.
-/

namespace MarkupFields

open Text

/-- How markup is laid out. -/
structure WriteOptions where
  declaration : Bool := true
  indent : Bool := false
  indentation : String := "  "
  deriving DecidableEq, Repr, Inhabited

namespace Render

/-! ## Escaping -/

/-- A character of text as markup writes it. -/
def escapedInText (c : Char) : List Char :=
  match c with
  | '<' => "&lt;".toList
  | '>' => "&gt;".toList
  | '&' => "&amp;".toList
  | '\r' => "&#13;".toList
  | c => [c]

/-- A character of an attribute value as markup writes it between double quotes. -/
def escapedInValue (c : Char) : List Char :=
  match c with
  | '<' => "&lt;".toList
  | '>' => "&gt;".toList
  | '&' => "&amp;".toList
  | '"' => "&quot;".toList
  | '\n' => "&#10;".toList
  | '\r' => "&#13;".toList
  | '\t' => "&#9;".toList
  | c => [c]

/-- Text as markup writes it. -/
def text (cs : List Char) : List Char :=
  cs.flatMap escapedInText

/-- An attribute value as markup writes it between double quotes. -/
def value (cs : List Char) : List Char :=
  cs.flatMap escapedInValue

/-! ## Nodes -/

/-- An attribute with the blank before it. -/
def attributePair (a : Attribute) : List Char :=
  ' ' :: (a.name.written.toList ++ '=' :: '"' :: (value a.value.toList ++ ['"']))

/-- The start tag of an element without its closing bracket. -/
def startTag (e : Element) : List Char :=
  '<' :: (e.name.written.toList ++ e.attributes.flatMap attributePair)

/-- The end tag of an element. -/
def endTag (e : Element) : List Char :=
  '<' :: '/' :: (e.name.written.toList ++ ['>'])

/-- A node without anything below it, apart from elements. The document node is not written. -/
def leaf : Content → List Char
  | .text s => text s.toList
  | .cdata s => Scan.cdataOpen ++ s.toList ++ Scan.cdataClose
  | .comment s => Scan.commentOpen ++ s.toList ++ Scan.commentClose
  | .instruction target data =>
    Scan.instructionOpen ++ target.toList
      ++ (match data with
        | some d => ' ' :: d.toList
        | none => [])
      ++ Scan.instructionClose
  | .element _ => []
  | .document => []

/-- The node is text of blanks only. -/
def isBlankText : Content → Bool
  | .text s => allBlank s.toList
  | _ => false

/-- There are elements and no character data other than blank text. -/
def isElementOnly (level : List Content) : Bool :=
  level.any Content.isElement && level.all fun c => !c.isCharacterData || isBlankText c

/-- Where nodes are written: in running content, on lines of their own inside an element, or on lines
of their own outside of all elements, where nothing is left out. -/
inductive Place where
  | running
  | lines
  | outermost
  deriving DecidableEq, Repr

namespace Place

/-- Nodes other than character data stand on lines of their own. -/
def ownLines : Place → Bool
  | running => false
  | lines => true
  | outermost => true

/-- A node that is not written at the place. -/
def leavesOut : Place → Content → Bool
  | lines, c => isBlankText c
  | _, _ => false

/-- Where the children of an element are written. -/
def inside (o : WriteOptions) (level : List Content) : Place :=
  if o.indent && isElementOnly level then lines else running

end Place

/-- The indentation of a depth. -/
def padding (o : WriteOptions) (depth : Nat) : List Char :=
  (List.replicate depth o.indentation.toList).flatten

/-- A node on its own line, if nodes stand so at the place; character data never does. -/
def line (o : WriteOptions) (place : Place) (depth : Nat) (c : Content) (written : List Char) :
    List Char :=
  if place.ownLines && !c.isCharacterData && c != .document then
    padding o depth ++ written ++ ['\n']
  else written

/-- The inside of an element with its end tag, given what its children are written as. -/
def body (o : WriteOptions) (depth : Nat) (e : Element) (place : Place) (inner : List Char) :
    List Char :=
  if place.ownLines then '>' :: '\n' :: (inner ++ padding o depth ++ endTag e)
  else '>' :: (inner ++ endTag e)

/-- The trees of a forest, one after the other. -/
def forest (o : WriteOptions) (place : Place) (depth : Nat) : Forest Content → List Char
  | .nil => []
  | .cons (.element e) below beside =>
    let inside := Place.inside o below.roots
    let written :=
      startTag e ++
        (match below with
          | .nil => ['/', '>']
          | _ => body o depth e inside (forest o inside (depth + 1) below))
    line o place depth (.element e) written ++ forest o place depth beside
  | .cons c _ beside =>
    (if place.leavesOut c then [] else line o place depth c (leaf c)) ++ forest o place depth beside

/-! ## Documents -/

/-- The XML declaration: the version that was read, and always UTF-8. -/
def declaration (d : Declaration) : List Char :=
  "<?xml version=\"".toList ++ (d.version.getD "1.0").toList ++ "\" encoding=\"UTF-8\"".toList
    ++ (match d.standalone with
      | some true => " standalone=\"yes\"".toList
      | some false => " standalone=\"no\"".toList
      | none => [])
    ++ "?>\n".toList

/-- A whole document. -/
def document (o : WriteOptions) (m : Markup) : List Char :=
  (if o.declaration then declaration m.declaration else [])
    ++ forest o (if o.indent then .outermost else .running) 0 m.top

end Render

/-- The markup as text. -/
def Markup.render (o : WriteOptions) (m : Markup) : String :=
  String.ofList (Render.document o m)

/-- A document as text. -/
def Document.render (o : WriteOptions) (d : Document) : String :=
  d.markup.render o

end MarkupFields
