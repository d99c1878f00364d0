import MarkupFields.Name
import MarkupFields.Tree.Forest

/-
  What a node of a document is: the document itself, an element with its attributes, character data,
  a CDATA section, a comment or a processing instruction. Namespace declarations are kept among the
  attributes of their element, so that they are written back where they were read; the two kinds of
  attribute never stand for each other.
-/

namespace MarkupFields

/-! ## Attributes -/

/-- An attribute of an element, with the namespace that its prefix stood for. -/
structure Attribute where
  name : QName
  namespaceUri : Option String
  value : String
  deriving DecidableEq, Repr

namespace Attribute

/-- The prefix that the attribute declares, empty for the default namespace; none if the attribute is
not a declaration. -/
def declares (a : Attribute) : Option String :=
  match a.name.nsPrefix with
  | some p => if p = "xmlns" then some a.name.localName else none
  | none => if a.name.localName = "xmlns" then some "" else none

/-- The attribute is a namespace declaration. -/
def isDeclaration (a : Attribute) : Bool :=
  a.declares.isSome

/-- The declaration of a prefix; an empty prefix stands for the default namespace. -/
def declaration (nsPrefix uri : String) : Attribute :=
  if nsPrefix = "" then ⟨⟨none, "xmlns"⟩, none, uri⟩
  else ⟨⟨some "xmlns", nsPrefix⟩, none, uri⟩

@[simp] theorem declares_declaration (p uri : String) : (declaration p uri).declares = some p := by
  by_cases h : p = "" <;> simp [declaration, declares, h]

/-- Sets a regular attribute: one with the same local name and namespace takes the new value and
prefix where it stands, otherwise the new one comes last. -/
def set (a : Attribute) : List Attribute → List Attribute
  | [] => [a]
  | b :: bs =>
    if !b.isDeclaration && b.name.localName == a.name.localName
        && b.namespaceUri == a.namespaceUri then
      { b with name := { b.name with nsPrefix := a.name.nsPrefix }, value := a.value } :: bs
    else b :: set a bs

/-- Inserts a declaration directly after the last one, or first of all. -/
def insertDeclaration (d : Attribute) : List Attribute → List Attribute
  | [] => [d]
  | b :: bs =>
    if (b :: bs).any isDeclaration then b :: insertDeclaration d bs else d :: b :: bs

/-- The prefixes declared among the attributes, with their namespaces, in order. -/
def declarations (as : List Attribute) : List (String × String) :=
  as.filterMap fun a => a.declares.map fun p => (p, a.value)

/-- Adds the declaration of a prefix that is not declared yet; none if it is. -/
def declare? (nsPrefix uri : String) (as : List Attribute) : Option (List Attribute) :=
  if as.any fun a => a.declares == some nsPrefix then none
  else some (insertDeclaration (declaration nsPrefix uri) as)

/-- The value of the first attribute without a prefix that has the name. -/
def valueOf? (name : String) (as : List Attribute) : Option String :=
  (as.find? fun a => a.name == QName.plain name).map value

/-- The default namespace that the attributes themselves declare: some text, empty if they take it
back, or none if they say nothing about it. -/
def defaultDeclared? (as : List Attribute) : Option String :=
  ((declarations as).find? fun d => d.1 == "").map Prod.snd

end Attribute

/-! ## Elements and the other nodes -/

/-- An element without what is below it. -/
structure Element where
  name : QName
  namespaceUri : Option String
  attributes : List Attribute
  deriving DecidableEq, Repr

/-- What a node is. -/
inductive Content where
  | document
  | element (e : Element)
  | text (s : String)
  | cdata (s : String)
  | comment (s : String)
  | instruction (target : String) (data : Option String)
  deriving DecidableEq, Repr

namespace Content

/-- The element that the node is, if it is one. -/
def element? : Content → Option Element
  | element e => some e
  | _ => none

def isElement (c : Content) : Bool :=
  c.element?.isSome

/-- The characters of text and CDATA; other nodes have none of their own. -/
def characters : Content → String
  | text s => s
  | cdata s => s
  | _ => ""

/-- The node is text or CDATA. -/
def isCharacterData : Content → Bool
  | text _ => true
  | cdata _ => true
  | _ => false

/-- The local name of an element or the target of a processing instruction. -/
def name? : Content → Option String
  | element e => some e.name.localName
  | instruction target _ => some target
  | _ => none

/-- The attributes of an element; other nodes have none. -/
def attributes : Content → List Attribute
  | element e => e.attributes
  | _ => []

end Content

/-- The characters of all text and CDATA of a forest in document order. -/
def Forest.textContent (f : Forest Content) : String :=
  String.join (f.preorder.map Content.characters)

end MarkupFields
