import MarkupFields.Tree.Document

/-
  Namespace registries: what each prefix stands for, for one reader or writer. A prefix has at most
  one binding, and one that is bound stays so. The bindings keep the order in which they came. The
  prefix of the language attributes is bound from the start and is not listed.
-/

namespace MarkupFields

/-- The bindings of prefixes to namespaces, in the order in which they came; the empty prefix stands
for the default namespace. -/
structure Namespaces where
  bindings : List (String × String)
  deriving DecidableEq, Repr

/-- A prefix was to be bound to a namespace while it stood for another. -/
structure NamespaceConflict where
  nsPrefix : String
  existing : String
  requested : String
  deriving DecidableEq, Repr

/-- The wording of a conflict. -/
def NamespaceConflict.message (c : NamespaceConflict) : String :=
  "namespace prefix '" ++ c.nsPrefix ++ "' is bound to '" ++ c.existing
    ++ "' and cannot be rebound to '" ++ c.requested ++ "'"

namespace Namespaces

/-- The registry without bindings of its own. -/
def empty : Namespaces :=
  ⟨[]⟩

/-- There are no bindings of its own. -/
def isEmpty (r : Namespaces) : Bool :=
  r.bindings.isEmpty

/-- The namespace that a prefix stands for. -/
def uri? (r : Namespaces) (p : String) : Option String :=
  if p = "xml" then some xmlNamespace else r.bindings.lookup p

/-- The earliest prefix that stands for a namespace. -/
def prefixOf? (r : Namespaces) (uri : String) : Option String :=
  if uri = xmlNamespace then some "xml"
  else (r.bindings.find? fun b => b.2 == uri).map Prod.fst

/-- The default namespace. -/
def default? (r : Namespaces) : Option String :=
  r.uri? ""

/-- Binds a prefix. To bind it again to what it stands for changes nothing. -/
def declare (r : Namespaces) (p uri : String) : Except NamespaceConflict Namespaces :=
  match r.uri? p with
  | some existing => if existing = uri then .ok r else .error ⟨p, existing, uri⟩
  | none => .ok ⟨r.bindings ++ [(p, uri)]⟩

/-- Binds a prefix unless it stands for another namespace already. -/
def declareIfFree (r : Namespaces) (b : String × String) : Namespaces :=
  match r.declare b.1 b.2 with
  | .ok r => r
  | .error _ => r

/-- The registry of the given bindings; the first of a prefix counts. -/
def ofList (bs : List (String × String)) : Namespaces :=
  bs.foldl declareIfFree empty

/-- All declarations of a forest in document order. -/
def declarationsIn (f : Forest Content) : List (String × String) :=
  f.preorder.flatMap fun c => Attribute.declarations c.attributes

/-- The registry of all declarations of some markup; the first of a prefix counts, and one that takes
a namespace back counts for nothing. -/
def ofMarkup (m : Markup) : Namespaces :=
  ofList ((declarationsIn m.top).filter fun b => b.2 != "")

/-- Binds all of the given, in order; the first conflict ends it. -/
def declareAll (r : Namespaces) : List (String × String) → Except NamespaceConflict Namespaces
  | [] => .ok r
  | b :: bs => do declareAll (← r.declare b.1 b.2) bs

end Namespaces

end MarkupFields
