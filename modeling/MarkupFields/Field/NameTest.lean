import MarkupFields.Tree.Document

/-
  Name tests. A step of a path is matched by local name and, where namespaces count, by namespace: any,
  one in particular (or none), the default that holds at the candidate, or nothing at all. The position
  of a step counts the siblings that pass its test.
-/

namespace MarkupFields

/-- What a name test asks of the namespace. -/
inductive NamespaceTest where
  | any
  | exactly (uri : Option String)
  | defaultInScope
  | never
  deriving DecidableEq, Repr

/-- A test for names. -/
structure NameTest where
  localName : String
  namespaceTest : NamespaceTest
  deriving DecidableEq, Repr

/-- The default namespace inside a node, given the one outside it. -/
def Content.defaultInside (c : Content) (outside : Option String) : Option String :=
  match Attribute.defaultDeclared? c.attributes with
  | some uri => if uri = "" then none else some uri
  | none => outside

namespace NameTest

/-- The namespace passes, given the default in scope. -/
def acceptsNamespace (t : NameTest) (inScope uri : Option String) : Bool :=
  match t.namespaceTest with
  | .any => true
  | .exactly wanted => wanted == uri
  | .defaultInScope => inScope == uri
  | .never => false

/-- The node is an element that passes, given the default namespace outside it. -/
def acceptsNode (t : NameTest) (outside : Option String) (c : Content) : Bool :=
  match c with
  | .element e =>
    e.name.localName == t.localName
      && t.acceptsNamespace (c.defaultInside outside) e.namespaceUri
  | _ => false

/-- The attribute passes. Declarations never do, and the default namespace is not for attributes. -/
def acceptsAttribute (t : NameTest) (a : Attribute) : Bool :=
  !a.isDeclaration && a.name.localName == t.localName && t.acceptsNamespace none a.namespaceUri

end NameTest

/-- A name test with the position to select among the siblings that pass, from one. -/
structure StepTest where
  test : NameTest
  position : Nat
  deriving DecidableEq, Repr

namespace Forest

/-- The tree at a position, from one, among those of the top level whose roots pass the test. -/
def nthRoot? {α : Type} (p : α → Bool) : Nat → Forest α → Option (α × Forest α)
  | _, .nil => none
  | n, .cons a below beside =>
    if p a then
      if n = 1 then some (a, below) else nthRoot? p (n - 1) beside
    else nthRoot? p n beside

/-- Goes down from a node step by step, given the default namespace inside it. -/
def descend? : List StepTest → Option String → Node × Forest Node → Option (Node × Forest Node)
  | [], _, here => some here
  | s :: steps, inScope, (_, below) => do
    let next ← below.nthRoot? (fun n => s.test.acceptsNode inScope n.content) s.position
    descend? steps (next.1.content.defaultInside inScope) next

end Forest

/-- The node that the steps lead to from the document node, with what is below it. -/
def Document.locate? (d : Document) (steps : List StepTest) : Option (Node × Forest Node) := do
  let start ← d.node? Document.root
  Forest.descend? steps none start

/-- The value of the first attribute that passes the test. -/
def Content.attribute? (c : Content) (t : NameTest) : Option String :=
  (c.attributes.find? t.acceptsAttribute).map Attribute.value

end MarkupFields
