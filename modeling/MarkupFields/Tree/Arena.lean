import MarkupFields.Tree.Document
import MarkupFields.Markup.Parse

/-
  Arenas. All nodes of a document lie in one table, and a handle is a place in it. Every entry has
  links: to the parent, to the first and the last child, and to the two siblings. Each change sets a
  few links one by one; that they fit together again afterwards is stated nowhere. An entry is never
  taken out, a node that was detached stays in the table. A walk over all that is below a node keeps
  no list of the way it came, it finds the way back up by the links to parents.
-/

namespace MarkupFields

/-- The links from a node to others. -/
inductive Link where
  | parent
  | first
  | last
  | next
  | previous
  deriving DecidableEq, Repr

/-- A node of an arena: its content, and where it is linked to. -/
structure Entry where
  content : Content
  parent : Option Nat
  first : Option Nat
  last : Option Nat
  next : Option Nat
  previous : Option Nat
  deriving DecidableEq, Repr

namespace Entry

/-- The entry of a node that hangs nowhere and has nothing below it. -/
def loose (c : Content) : Entry :=
  ⟨c, none, none, none, none, none⟩

/-- Where the entry is linked to. -/
def link (e : Entry) : Link → Option Nat
  | .parent => e.parent
  | .first => e.first
  | .last => e.last
  | .next => e.next
  | .previous => e.previous

/-- The entry with one link set. -/
def withLink (l : Link) (target : Option Nat) (e : Entry) : Entry :=
  match l with
  | .parent => { e with parent := target }
  | .first => { e with first := target }
  | .last => { e with last := target }
  | .next => { e with next := target }
  | .previous => { e with previous := target }

@[simp] theorem link_loose (c : Content) (l : Link) : (loose c).link l = none := by
  cases l <;> rfl

@[simp] theorem content_withLink (l : Link) (target : Option Nat) (e : Entry) :
    (e.withLink l target).content = e.content := by
  cases l <;> rfl

@[simp] theorem link_withLink (l l' : Link) (target : Option Nat) (e : Entry) :
    (e.withLink l target).link l' = if l' = l then target else e.link l' := by
  cases l <;> cases l' <;> rfl

end Entry

/-- The nodes of a document in one table, with what its XML declaration says. -/
structure Arena where
  declaration : Declaration
  entries : Array Entry
  deriving DecidableEq, Repr

namespace Arena

/-- An arena with nothing but the document node. -/
def empty : Arena :=
  ⟨Declaration.absent, #[Entry.loose .document]⟩

/-- How many nodes there are, those that hang nowhere among them. -/
def size (a : Arena) : Nat :=
  a.entries.size

/-- The content of the node with the handle. -/
def content? (a : Arena) (h : Nat) : Option Content :=
  a.entries[h]?.map Entry.content

/-- Where the node with the handle is linked to. -/
def link (a : Arena) (l : Link) (h : Nat) : Option Nat :=
  a.entries[h]?.bind fun e => e.link l

/-- Sets one link of the node with the handle. -/
def setLink (a : Arena) (l : Link) (h : Nat) (target : Option Nat) : Arena :=
  { a with entries := a.entries.modify h (Entry.withLink l target) }

/-- The handles from the given one on, each linked to the next, if there are no more than so many.
-/
def chainUpTo (a : Arena) (l : Link) : Nat → Option Nat → Option (List Nat)
  | _, none => some []
  | 0, some _ => none
  | bound + 1, some h => do
    let rest ← a.chainUpTo l bound (a.link l h)
    return h :: rest

/-- The handles from the given one on, each linked to the next; none if there is no end to them. A
chain that comes to an end holds at most one handle that names no node, its last. -/
def chain (a : Arena) (l : Link) (start : Option Nat) : Option (List Nat) :=
  a.chainUpTo l (a.size + 1) start

/-- The handles of the children, from the first on. -/
def children (a : Arena) (h : Nat) : Option (List Nat) :=
  a.chain .next (a.link .first h)

/-! ## Walks -/

/-- The next sibling of the first node, from the given one upwards, that has one. None if the top of
the walk comes first; nothing at all if more than so many nodes are passed. -/
def climbUpTo (a : Arena) (top : Nat) : Nat → Option Nat → Option (Option Nat)
  | _, none => some none
  | 0, some _ => none
  | bound + 1, some h =>
    if h = top then some none
    else
      match a.link .next h with
      | some sibling => some (some sibling)
      | none => a.climbUpTo top bound (a.link .parent h)

/-- What comes after a node in a walk below the top: its first child, or else what comes beside it
or beside a node above it. -/
def following (a : Arena) (top h : Nat) : Option (Option Nat) :=
  match a.link .first h with
  | some child => some (some child)
  | none => a.climbUpTo top (a.size + 1) (some h)

/-- The handles of a walk below the top from the given one on, if there are no more than so many. -/
def walkUpTo (a : Arena) (top : Nat) : Nat → Option Nat → Option (List Nat)
  | _, none => some []
  | 0, some _ => none
  | bound + 1, some h => do
    let next ← a.following top h
    let rest ← a.walkUpTo top bound next
    return h :: rest

/-- The handles of all nodes below, as they are come by; none if there is no end to them. -/
def descendants (a : Arena) (h : Nat) : Option (List Nat) :=
  a.walkUpTo h (a.size + 1) (a.link .first h)

/-- The characters of text and CDATA; other nodes have none of their own. -/
def characters (a : Arena) (h : Nat) : String :=
  match a.content? h with
  | some c => c.characters
  | none => ""

/-- The characters of all text and CDATA at the node and below it, put together as they are come
by. -/
def textContent (a : Arena) (h : Nat) : Option String := do
  let below ← a.descendants h
  return below.foldl (fun text k => text ++ a.characters k) (a.characters h)

/-! ## Changes -/

/-- A new node that hangs nowhere; with its handle. -/
def create (a : Arena) (c : Content) : Arena × Nat :=
  ({ a with entries := a.entries.push (Entry.loose c) }, a.size)

/-- Appends a node that hangs nowhere as the last child of another. -/
def appendChild (a : Arena) (parent child : Nat) : Arena :=
  let a := a.setLink .parent child (some parent)
  let a := match a.link .last parent with
    | some last => (a.setLink .next last (some child)).setLink .previous child (some last)
    | none => a.setLink .first parent (some child)
  a.setLink .last parent (some child)

/-- Appends a new element; with its handle. -/
def appendElement (a : Arena) (parent : Nat) (name : QName) (uri : Option String) : Arena × Nat :=
  let (a, h) := a.create (.element ⟨name, uri, []⟩)
  (a.appendChild parent h, h)

/-- Takes a node from its place. -/
def detach (a : Arena) (h : Nat) : Arena :=
  match a.link .parent h with
  | none => a
  | some parent =>
    let previous := a.link .previous h
    let next := a.link .next h
    let a := match previous with
      | some p => a.setLink .next p next
      | none => a.setLink .first parent next
    let a := match next with
      | some n => a.setLink .previous n previous
      | none => a.setLink .last parent previous
    ((a.setLink .parent h none).setLink .previous h none).setLink .next h none

/-- The node is text or CDATA. -/
def isCharacterData (a : Arena) (h : Nat) : Bool :=
  (a.content? h).any Content.isCharacterData

/-- The text and CDATA children give way to one text, which comes last; an empty text leaves none.
With the handle of the new text; none if there is no end to the children. -/
def setText (a : Arena) (h : Nat) (text : String) : Option (Arena × Option Nat) := do
  let children ← a.children h
  let a := (children.filter a.isCharacterData).foldl detach a
  if text = "" then return (a, none)
  let (a, t) := a.create (.text text)
  return (a.appendChild h t, some t)

/-- Changes the attributes of an element; any other node stays as it is. -/
def modifyAttributes (a : Arena) (h : Nat) (f : List Attribute → List Attribute) : Arena :=
  { a with
    entries := a.entries.modify h fun entry =>
      match entry.content with
      | .element e => { entry with content := .element { e with attributes := f e.attributes } }
      | _ => entry }

/-- Sets a regular attribute of an element. -/
def setAttribute (a : Arena) (h : Nat) (x : Attribute) : Arena :=
  a.modifyAttributes h x.set

/-- Declares a prefix on an element; whether it was not declared there before. -/
def declareNamespace (a : Arena) (h : Nat) (nsPrefix uri : String) : Arena × Bool :=
  match a.content? h with
  | some (.element e) =>
    match Attribute.declare? nsPrefix uri e.attributes with
    | some as => (a.modifyAttributes h fun _ => as, true)
    | none => (a, false)
  | _ => (a, false)

/-! ## From markup -/

/-- Appends a forest below a node: each node is created and appended before what is below it. -/
def graft (a : Arena) (parent : Nat) : Forest Content → Arena
  | .nil => a
  | .cons c below beside =>
    let (a, h) := a.create c
    let a := a.appendChild parent h
    (a.graft h below).graft parent beside

/-- The arena of a piece of markup, built in document order. -/
def ofMarkup (m : Markup) : Arena :=
  graft { empty with declaration := m.declaration } Document.root m.top

end Arena

/-! ## Runs -/

/-- A change to the nodes of a document. -/
inductive Change where
  | create (c : Content)
  | appendElement (parent : Nat) (name : QName) (uri : Option String)
  | appendChild (parent child : Nat)
  | detach (h : Nat)
  | setText (h : Nat) (text : String)
  deriving DecidableEq, Repr

/-- Makes the change to a document; with the handle of the node that is new, if one is. -/
def Document.apply (d : Document) : Change → Document × Option Nat
  | .create c => ((d.create c).1, some (d.create c).2)
  | .appendElement parent name uri =>
    ((d.appendElement parent name uri).1, some (d.appendElement parent name uri).2)
  | .appendChild parent child => (d.appendChild parent child, none)
  | .detach h => (d.detach h, none)
  | .setText h text => d.setText h text

/-- Makes the change to an arena; with the handle of the node that is new, if one is. -/
def Arena.apply (a : Arena) : Change → Option (Arena × Option Nat)
  | .create c => some ((a.create c).1, some (a.create c).2)
  | .appendElement parent name uri =>
    some ((a.appendElement parent name uri).1, some (a.appendElement parent name uri).2)
  | .appendChild parent child => some (a.appendChild parent child, none)
  | .detach h => some (a.detach h, none)
  | .setText h text => a.setText h text

end MarkupFields
