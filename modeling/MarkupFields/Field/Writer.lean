import MarkupFields.Field.Field
import MarkupFields.Field.NameTest
import MarkupFields.Markup.Production
import MarkupFields.Markup.Render
import MarkupFields.Namespaces
import MarkupFields.Path

/-
  Writing fields. A writer holds a document and what the prefixes of paths stand for. Writing a field
  goes down its path, adds the elements that are missing (empty siblings up to a position included),
  and replaces the text of the last element or sets the attribute. Everything that can be wrong is
  found out before anything is changed.
-/

namespace MarkupFields

open Text

/-- Why a writer refuses a request. -/
inductive WriteError where
  | missingField
  | unboundPrefix (nsPrefix : String)
  | rootMismatch (expected found : String)
  | rootIndex (n : Nat)
  | indexLimit (n : Nat)
  | path (e : PathError)
  | conflict (c : NamespaceConflict)
  | parse (e : ParseError)
  deriving DecidableEq, Repr

/-- The wording of each error. -/
def WriteError.message : WriteError → String
  | missingField => "session has no target field"
  | unboundPrefix p => "namespace prefix '" ++ p ++ "' is not bound"
  | rootMismatch expected found =>
    "document root is <" ++ found ++ ">, path starts at <" ++ expected ++ ">"
  | rootIndex n =>
    "a document has one root element; index " ++ toString n ++ " cannot be created"
  | indexLimit n => "occurrence index " ++ toString n ++ " exceeds the configured limit"
  | path e => e.message
  | conflict c => c.message
  | parse e => e.message

/-- A writer: the highest position it goes to, the document, and what the prefixes of paths stand
for. -/
structure FieldWriter where
  maxIndex : Nat
  document : Document
  namespaces : Namespaces
  deriving DecidableEq, Repr

/-! ## Places to write to -/

/-- A step of a path with its namespace. -/
structure Place where
  name : QName
  namespaceUri : Option String
  position : Nat
  deriving DecidableEq, Repr

namespace Place

/-- The test for elements that stand at the place: local name and namespace. -/
def test (p : Place) : NameTest :=
  ⟨p.name.localName, .exactly p.namespaceUri⟩

/-- The node is an element that stands at the place. -/
def accepts (p : Place) (n : Node) : Bool :=
  p.test.acceptsNode none n.content

/-- A new element for the place. -/
def element (p : Place) : Content :=
  .element ⟨p.name, p.namespaceUri, []⟩

/-- So many new elements for the place, with handles from the given one. -/
def elements (p : Place) (next : Nat) : Nat → Forest Node
  | 0 => .nil
  | n + 1 => .cons ⟨next, p.element⟩ .nil (p.elements (next + 1) n)

/-- The number of elements that are missing among the children for the position to exist. -/
def missing (p : Place) (children : Forest Node) : Nat :=
  p.position - (children.roots.filter p.accepts).length

end Place

/-- What is put at the end of a path: text of an element, or an attribute. -/
inductive Payload where
  | text (s : String)
  | attr (a : Attribute)
  deriving DecidableEq, Repr

/-- A tree of nodes: its root and what is below. -/
abbrev NodeTree := Node × Forest Node

namespace Node

/-- The node with its attributes changed; only elements have any. -/
def modifyAttributes (f : List Attribute → List Attribute) (n : Node) : Node :=
  match n.content with
  | .element e => { n with content := .element { e with attributes := f e.attributes } }
  | _ => n

end Node

namespace Payload

/-- Puts the payload into a tree. The second part counts handles: a text that is not empty takes
one. -/
def put : Payload → NodeTree → Nat → NodeTree × Nat
  | text s, (n, below), next =>
    let kept := below.filterRoots fun k => !k.content.isCharacterData
    if s = "" then ((n, kept), next) else ((n, kept ++ .leaf ⟨next, .text s⟩), next + 1)
  | attr a, (n, below), next => ((n.modifyAttributes a.set, below), next)

end Payload

namespace Forest

/-- Changes the tree at a position, from one, among those of the top level whose roots pass the test.
The second part counts handles. -/
def updateNth (p : Node → Bool) (change : NodeTree → Nat → NodeTree × Nat) :
    Nat → Forest Node → Nat → Forest Node × Nat
  | _, .nil, next => (.nil, next)
  | n, .cons a below beside, next =>
    if p a then
      if n = 1 then
        let ((a, below), next) := change (a, below) next
        (.cons a below beside, next)
      else
        let (beside, next) := updateNth p change (n - 1) beside next
        (.cons a below beside, next)
    else
      let (beside, next) := updateNth p change n beside next
      (.cons a below beside, next)

/-- Goes down from a node place by place, adding the elements that are missing, and puts the payload
at the end. -/
def writeBelow (payload : Payload) : List Place → NodeTree → Nat → NodeTree × Nat
  | [], here, next => payload.put here next
  | p :: places, (n, below), next =>
    let missing := p.missing below
    let (below, next) :=
      (below ++ p.elements next missing).updateNth p.accepts (writeBelow payload places)
        p.position (next + missing)
    ((n, below), next)

end Forest

/-- Everything that a write needs to know: the place of the root, the places below it, the prefixes
to declare on the root and the payload. -/
structure WritePlan where
  root : Place
  places : List Place
  declarations : List (String × String)
  payload : Payload
  deriving DecidableEq, Repr

namespace WritePlan

/-- Declares the prefixes of the plan on a node, unless they are declared there. -/
def declareOn (plan : WritePlan) (n : Node) : Node :=
  n.modifyAttributes fun as =>
    plan.declarations.foldl (fun as d => (Attribute.declare? d.1 d.2 as).getD as) as

/-- Carries out the plan on the root element. -/
def writeRoot (plan : WritePlan) (root : NodeTree) (next : Nat) : NodeTree × Nat :=
  Forest.writeBelow plan.payload plan.places (plan.declareOn root.1, root.2) next

/-- Carries out the plan on the top level of a document. The root element is the first element; it is
added if there is none. -/
def writeTop (plan : WritePlan) (top : Forest Node) (next : Nat) : Forest Node × Nat :=
  let isElement : Node → Bool := fun n => n.content.isElement
  if top.roots.any isElement then top.updateNth isElement plan.writeRoot 1 next
  else (top ++ .leaf ⟨next, plan.root.element⟩).updateNth isElement plan.writeRoot 1 (next + 1)

/-- Carries out the plan on a document. -/
def write (plan : WritePlan) (d : Document) : Document :=
  let (top, next) := plan.writeTop (d.below Document.root) d.allocated
  { d with
    forest := d.forest.modify (Document.hasHandle Document.root) fun n _ => (n, top)
    allocated := next }

end WritePlan

namespace FieldWriter

/-! ## Starting -/

/-- The writer of the given bindings for a document without content. -/
def blank (maxIndex : Nat) (n : Namespaces) : FieldWriter :=
  ⟨maxIndex, .empty, n⟩

/-- The writer of the given bindings for a seed. What the root of the seed declares is added to the
bindings. A blank seed is none. -/
def new (maxIndex : Nat) (n : Namespaces) (seed : Option String) : Except WriteError FieldWriter :=
  match seed with
  | none => .ok (blank maxIndex n)
  | some text =>
    if allBlank text.toList then .ok (blank maxIndex n)
    else
      match Markup.parse {} text with
      | .error e => .error (.parse e)
      | .ok m =>
        let rootDeclarations :=
          match (m.top.roots.filter Content.isElement).head? with
          | some c => Attribute.declarations c.attributes
          | none => []
        match n.declareAll rootDeclarations with
        | .error c => .error (.conflict c)
        | .ok n => .ok ⟨maxIndex, Document.ofMarkup m, n⟩

/-- Adds a binding for the prefixes of later paths. -/
def declareNamespace (w : FieldWriter) (p uri : String) : Except WriteError FieldWriter :=
  match w.namespaces.declare p uri with
  | .ok n => .ok { w with namespaces := n }
  | .error c => .error (.conflict c)

/-- The document as text, without a declaration. -/
def toXml (w : FieldWriter) : String :=
  w.document.render { declaration := false }

/-! ## What a write needs -/

/-- The path of a field. An attribute needs an element, and no position is above the limit. -/
def pathOf (w : FieldWriter) (f : Field) : Except WriteError Path :=
  match Path.parse f.path with
  | .error e => .error (.path e)
  | .ok p =>
    if p.steps.isEmpty then .error (.path ⟨.lonelyAttribute, 1⟩)
    else
      let positions := p.steps.map Step.position ++ p.attr.toList.map fun _ => 1
      match positions.find? fun n => n > w.maxIndex with
      | some n => .error (.indexLimit n)
      | none => .ok p

/-- The text to store for a field: the text of its value as one of the declared type. A value that
does not convert, or whose text holds a character that no document can, has none. -/
def textOf? (f : Field) : Option String :=
  match f.value with
  | none => some ""
  | some v =>
    let converted :=
      match f.declared with
      | none => some v
      | some t => (v.convert t).value?
    (converted.map Value.render).filter fun s => s.toList.all Scan.isXmlChar

/-- The record of a value that has no text to store. -/
def refusal (f : Field) : Audit :=
  .conversionFailure ((f.value.map Value.render).getD "") f.effectiveType (some f.path)

/-- The namespace of a name in a path; without a prefix it is the given one. -/
def resolve (w : FieldWriter) (unprefixed : Option String) (q : QName) :
    Except WriteError (Option String) :=
  match q.nsPrefix with
  | none => .ok unprefixed
  | some p =>
    match w.namespaces.uri? p with
    | some uri => .ok (some uri)
    | none => .error (.unboundPrefix p)

/-- The places of steps. -/
def resolveSteps (w : FieldWriter) : List Step → Except WriteError (List Place)
  | [] => .ok []
  | s :: ss => do
    let uri ← w.resolve w.namespaces.default? s.name
    let places ← w.resolveSteps ss
    .ok (⟨s.name, uri, s.position⟩ :: places)

/-- What is put at the end of a path. -/
def payloadOf (w : FieldWriter) (text : String) : Option QName → Except WriteError Payload
  | none => .ok (.text text)
  | some q => do
    let uri ← w.resolve none q
    .ok (.attr ⟨q, uri, text⟩)

/-- The prefix that a name needs declared on the root, with its namespace. -/
def needed? (q : QName) (uri : Option String) : Option (String × String) :=
  let p := q.nsPrefix.getD ""
  if p = "xml" then none else uri.map fun u => (p, u)

/-- The prefixes that places and a payload need declared on the root, in the order of use. -/
def neededFor (places : List Place) (payload : Payload) : List (String × String) :=
  places.filterMap (fun p => needed? p.name p.namespaceUri)
    ++ (match payload with
      | .text _ => []
      | .attr a => (needed? a.name a.namespaceUri).toList)

/-- The root element can be the first place: it is the only one of its kind, and if it is there it
has the name of the place. -/
def checkRoot (w : FieldWriter) (root : Place) : Except WriteError Unit :=
  if root.position > 1 then .error (.rootIndex root.position)
  else
    match ((w.document.below Document.root).roots.map Node.content).findSome? Content.element? with
    | none => .ok ()
    | some e =>
      if root.test.acceptsNode none (.element e) then .ok ()
      else .error (.rootMismatch root.name.shown e.name.shown)

/-- The plan for writing a text at a path. -/
def planFor (w : FieldWriter) (p : Path) (text : String) : Except WriteError WritePlan := do
  let places ← w.resolveSteps p.steps
  let payload ← w.payloadOf text p.attr
  match places with
  | [] => .error (.path ⟨.lonelyAttribute, 1⟩)
  | root :: below =>
    w.checkRoot root
    .ok ⟨root, below, neededFor places payload, payload⟩

/-! ## Writing -/

/-- Writes a field. A request that is refused changes nothing; a value that has no text to store
changes nothing but the records. -/
def writeField (w : FieldWriter) (f : Field) (log : List Audit) :
    Except WriteError Unit × FieldWriter × List Audit :=
  match w.pathOf f with
  | .error e => (.error e, w, log)
  | .ok p =>
    match textOf? f with
    | none => (.ok (), w, log ++ [refusal f])
    | some text =>
      match w.planFor p text with
      | .error e => (.error e, w, log)
      | .ok plan => (.ok (), { w with document := plan.write w.document }, log)

/-- Writes the target field of a session. -/
def write (w : FieldWriter) (s : Session) : Except WriteError Unit × FieldWriter × Session :=
  match s.target with
  | none => (.error .missingField, w, s)
  | some f =>
    let (result, w, log) := w.writeField f s.audits
    (result, w, { s with audits := log })

end FieldWriter

end MarkupFields
