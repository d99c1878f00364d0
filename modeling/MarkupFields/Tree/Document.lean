import MarkupFields.Tree.Node

/-
  Documents. A document is a forest whose labels carry handles: the document node, and beside it the
  nodes that hang nowhere. Handles are given out in the order of creation and never again, so a
  handle names the same node for good. Where a node stands (its parent, its siblings, what is below
  it) is read off the forest; nothing about it is stored twice.
-/

namespace MarkupFields

/-- What an XML declaration says, as far as it is there. -/
structure Declaration where
  version : Option String
  encoding : Option String
  standalone : Option Bool
  deriving DecidableEq, Repr, Inhabited

/-- The declaration of a document that has none. -/
def Declaration.absent : Declaration :=
  ⟨none, none, none⟩

/-- A document as markup holds it: its declaration and the nodes of its top level. -/
structure Markup where
  declaration : Declaration
  top : Forest Content
  deriving DecidableEq, Repr

/-- A node of a document: its content, and the handle by which it is known. -/
structure Node where
  handle : Nat
  content : Content
  deriving DecidableEq, Repr

/-- A document whose nodes have handles. The forest holds every node that hangs nowhere, the document
node among them; `allocated` handles have been given out. -/
structure Document where
  declaration : Declaration
  forest : Forest Node
  allocated : Nat
  deriving DecidableEq, Repr

namespace Document

/-- The handle of the document node. -/
def root : Nat := 0

/-- A document with nothing but its document node. -/
def empty : Document :=
  ⟨Declaration.absent, Forest.leaf ⟨root, .document⟩, 1⟩

/-! ## From markup and back -/

/-- Handles are given in document order, starting from the given one; with the next free one. -/
def number : Nat → Forest Content → Forest Node × Nat
  | next, .nil => (.nil, next)
  | next, .cons c below beside =>
    let (below, next') := number (next + 1) below
    let (beside, next'') := number next' beside
    (.cons ⟨next, c⟩ below beside, next'')

theorem map_content_number (next : Nat) (f : Forest Content) :
    (number next f).1.map Node.content = f := by
  induction f generalizing next with
  | nil => rfl
  | cons c below beside ihb ihs => simp [number, Forest.map, ihb, ihs]

theorem number_snd (next : Nat) (f : Forest Content) : (number next f).2 = next + f.size := by
  induction f generalizing next with
  | nil => rfl
  | cons c below beside ihb ihs => simp [number, Forest.size, ihb, ihs]; omega

/-- Handles follow document order without a gap. -/
theorem preorder_number (next : Nat) (f : Forest Content) :
    (number next f).1.preorder.map Node.handle = List.range' next f.size := by
  induction f generalizing next with
  | nil => rfl
  | cons c below beside ihb ihs =>
    have h : 1 + below.size + beside.size = (below.size + beside.size) + 1 := by omega
    simp only [number, Forest.preorder, List.map_cons, List.map_append, ihb, ihs, number_snd,
      Forest.size, h, List.range'_succ, ← List.range'_append_1]

/-- The document of a piece of markup: the document node, then its nodes in document order. -/
def ofMarkup (m : Markup) : Document :=
  let (top, next) := number (root + 1) m.top
  ⟨m.declaration, .cons ⟨root, .document⟩ top .nil, next⟩

/-- A node is known by its handle. -/
def hasHandle (h : Nat) (n : Node) : Bool :=
  n.handle == h

/-- The node with the handle and what is below it. -/
def node? (d : Document) (h : Nat) : Option (Node × Forest Node) :=
  d.forest.find? (hasHandle h)

/-- What is below the node with the handle; nothing if there is no such node. -/
def below (d : Document) (h : Nat) : Forest Node :=
  match d.node? h with
  | some (_, below) => below
  | none => .nil

/-- The document as markup. -/
def markup (d : Document) : Markup :=
  ⟨d.declaration, (d.below root).map Node.content⟩

@[simp] theorem markup_ofMarkup (m : Markup) : (ofMarkup m).markup = m := by
  simp [ofMarkup, markup, below, node?, Forest.find?, hasHandle, map_content_number]

/-! ## Where a node stands -/

/-- The content of the node with the handle. -/
def content? (d : Document) (h : Nat) : Option Content :=
  (d.node? h).map fun n => n.1.content

/-- The handles of the children, in order. -/
def children (d : Document) (h : Nat) : List Nat :=
  (d.below h).roots.map Node.handle

/-- The handles of the children that are elements. -/
def elementChildren (d : Document) (h : Nat) : List Nat :=
  ((d.below h).roots.filter fun n => n.content.isElement).map Node.handle

/-- The handles of all nodes below, in document order. -/
def descendants (d : Document) (h : Nat) : List Nat :=
  (d.below h).preorder.map Node.handle

/-- The single element of the top level, if there is one: the first. -/
def rootElement? (d : Document) : Option Nat :=
  (d.elementChildren root).head?

/-- The node above. -/
def parent? (d : Document) (h : Nat) : Option Nat :=
  (d.forest.family? (hasHandle h)).map fun f => f.1.handle

/-- The handles of the level on which the node stands, if it hangs somewhere. -/
def siblings (d : Document) (h : Nat) : List Nat :=
  match d.forest.family? (hasHandle h) with
  | some (_, level) => level.map Node.handle
  | none => []

/-- The next node of the same level. -/
def next? (d : Document) (h : Nat) : Option Nat :=
  ((d.siblings h).dropWhile (· != h)).tail.head?

/-- The previous node of the same level. -/
def previous? (d : Document) (h : Nat) : Option Nat :=
  ((d.siblings h).takeWhile (· != h)).getLast?

/-- The characters of all text and CDATA at the node and below it. -/
def textContent (d : Document) (h : Nat) : String :=
  match d.node? h with
  | some (n, below) => n.content.characters ++ (below.map Node.content).textContent
  | none => ""

/-- The attributes of the node; only elements have any. -/
def attributes (d : Document) (h : Nat) : List Attribute :=
  match d.content? h with
  | some c => c.attributes
  | none => []

/-- The default namespace that holds at the end of a line of ancestors, the nearest of which comes
first: the nearest that says anything about it decides. -/
def defaultAlong (line : List Content) : Option String :=
  match line.findSome? fun c => Attribute.defaultDeclared? c.attributes with
  | some uri => if uri = "" then none else some uri
  | none => none

/-- The default namespace that holds at the node. -/
def defaultNamespace? (d : Document) (h : Nat) : Option String :=
  match d.forest.lineage? (hasHandle h) with
  | some line => defaultAlong (line.map Node.content)
  | none => none

/-! ## Changes -/

/-- A new node that hangs nowhere; with its handle. -/
def create (d : Document) (c : Content) : Document × Nat :=
  ({ d with forest := d.forest ++ .leaf ⟨d.allocated, c⟩, allocated := d.allocated + 1 },
    d.allocated)

/-- Appends a node, with all below it, as the last child of another. A node that is not there or
that lies above the new place stays where it is. -/
def appendChild (d : Document) (parent child : Nat) : Document :=
  match d.node? child with
  | none => d
  | some (n, below) =>
    let others := d.forest.erase (hasHandle child)
    match others.find? (hasHandle parent) with
    | none => d
    | some _ =>
      { d with
        forest := others.modify (hasHandle parent) fun p kids => (p, kids ++ .cons n below .nil) }

/-- Appends a new element; with its handle. -/
def appendElement (d : Document) (parent : Nat) (name : QName) (uri : Option String) :
    Document × Nat :=
  let (d, h) := d.create (.element ⟨name, uri, []⟩)
  (d.appendChild parent h, h)

/-- Takes a node, with all below it, from its place. -/
def detach (d : Document) (h : Nat) : Document :=
  match d.node? h with
  | none => d
  | some (n, below) => { d with forest := d.forest.erase (hasHandle h) ++ .cons n below .nil }

/-- The text and CDATA children give way to one text, which comes last; an empty text leaves none.
With the handle of the new text. -/
def setText (d : Document) (h : Nat) (text : String) : Document × Option Nat :=
  let stale := (d.below h).filterRoots fun n => n.content.isCharacterData
  let cleared := d.forest.modify (hasHandle h) fun n kids =>
    (n, kids.filterRoots fun k => !k.content.isCharacterData)
  let d := { d with forest := cleared ++ stale }
  if text = "" then (d, none)
  else
    let (d, t) := d.create (.text text)
    (d.appendChild h t, some t)

/-- Changes the attributes of an element; any other node stays as it is. -/
def modifyAttributes (d : Document) (h : Nat) (f : List Attribute → List Attribute) : Document :=
  { d with
    forest := d.forest.modify (hasHandle h) fun n kids =>
      match n.content with
      | .element e => ({ n with content := .element { e with attributes := f e.attributes } }, kids)
      | _ => (n, kids) }

/-- Sets a regular attribute of an element. -/
def setAttribute (d : Document) (h : Nat) (a : Attribute) : Document :=
  d.modifyAttributes h a.set

/-- Declares a prefix on an element; whether it was not declared there before. -/
def declareNamespace (d : Document) (h : Nat) (nsPrefix uri : String) : Document × Bool :=
  match d.content? h with
  | some (.element e) =>
    match Attribute.declare? nsPrefix uri e.attributes with
    | some as => (d.modifyAttributes h fun _ => as, true)
    | none => (d, false)
  | _ => (d, false)

end Document

end MarkupFields
