import MarkupFields.Markup.Fault
import MarkupFields.Tree.Node

/-
  Namespaces in scope while markup is read. A scope lists what is declared, the innermost first; the
  empty prefix stands for the default namespace, and an empty namespace takes it back. An element
  extends the scope by its own declarations and then reads its own names in it.
-/

namespace MarkupFields

/-- What the prefixes stand for at a place, the innermost declaration first. -/
abbrev Scope := List (String × String)

namespace Scope

/-- The scope outside the root element. -/
def outermost : Scope :=
  [("xml", xmlNamespace)]

/-- The namespace that a prefix stands for, the empty prefix being the default. -/
def resolve? (s : Scope) (p : String) : Option String :=
  (s.lookup p).filter (· != "")

/-- Declares a prefix. The two reserved prefixes and their namespaces belong to each other. -/
def bind (s : Scope) (p uri : String) : Except Fault Scope :=
  if p = "" then
    if uri = xmlNamespace ∨ uri = xmlnsNamespace then .error .reservedDefaultNamespace
    else .ok ((p, uri) :: s)
  else if !isNCName p then .error (.badDeclaredPrefix p)
  else if uri = "" then .error (.undeclaredPrefix p)
  else if p = "xmlns" ∨ uri = xmlnsNamespace then .error .xmlnsDeclared
  else if (p = "xml") ≠ (uri = xmlNamespace) then .error .xmlMisbound
  else .ok ((p, uri) :: s)

/-- Declares what the declarations among the attributes say, in order. -/
def bindAll (s : Scope) : List (String × String) → Except Fault Scope
  | [] => .ok s
  | d :: ds => do bindAll (← s.bind d.1 d.2) ds

/-- The namespace of a prefix that has to stand for one. -/
def require (s : Scope) (p : String) : Except Fault String :=
  match s.resolve? p with
  | some uri => .ok uri
  | none => .error (.unboundPrefix p)

/-- The attributes with the namespaces of their prefixes. Declarations and attributes without a
prefix are in none. -/
def resolveAttributes (s : Scope) : List Attribute → Except Fault (List Attribute)
  | [] => .ok []
  | a :: as => do
    let uri ←
      match a.name.nsPrefix with
      | none => .ok none
      | some p => if p = "xmlns" then .ok none else (s.require p).map some
    let as ← s.resolveAttributes as
    .ok ({ a with namespaceUri := uri } :: as)

/-- The first attribute that has its namespace and local name in common with an earlier one. -/
def repeated? (earlier : List Attribute) : List Attribute → Option Attribute
  | [] => none
  | a :: as =>
    if a.namespaceUri.isSome && earlier.any fun b =>
        b.namespaceUri == a.namespaceUri && b.name.localName == a.name.localName then some a
    else repeated? (earlier ++ [a]) as

/-- The namespace of an element name: that of its prefix, or the default. -/
def elementNamespace (s : Scope) (q : QName) : Except Fault (Option String) :=
  match q.nsPrefix with
  | some p => (s.require p).map some
  | none => .ok (s.resolve? "")

/-- Reads the names of an element in the scope that its own declarations make. With that scope. -/
def enter (s : Scope) (e : Element) : Except Fault (Scope × Element) := do
  let s ← s.bindAll (Attribute.declarations e.attributes)
  if !e.name.isQualified then .error (.badElementName e.name.shown)
  else if e.name.nsPrefix = some "xmlns" then .error .xmlnsElement
  else
    let as ← s.resolveAttributes e.attributes
    match repeated? [] as with
    | some a => .error (.duplicateExpandedName a.name.shown)
    | none =>
      let uri ← s.elementNamespace e.name
      .ok (s, { e with namespaceUri := uri, attributes := as })

end Scope

end MarkupFields
