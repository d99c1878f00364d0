import MarkupFields.Encoding.Decode
import MarkupFields.Field.Field
import MarkupFields.Field.NameTest
import MarkupFields.Markup.Production
import MarkupFields.Namespaces
import MarkupFields.Path

/-
  Reading fields. A reader holds one document at most, and what the prefixes of paths stand for. Names
  are matched by namespace where the document carries namespaces, and by local name alone elsewhere.
  Reading a field finds its text, converts it and stores the value; a text that does not convert leaves
  the field without a value and adds one record.
-/

namespace MarkupFields

open Text

/-- Why a reader refuses a request. -/
inductive ReadError where
  | documentNotLoaded
  | missingField
  | path (e : PathError)
  | parse (e : ParseError)
  | encoding (e : EncodingError)
  deriving DecidableEq, Repr

/-- The wording of each error. -/
def ReadError.message : ReadError → String
  | documentNotLoaded => "no document has been loaded"
  | missingField => "session has no source field"
  | path e => e.message
  | parse e => e.message
  | encoding e => e.message

/-- A document that a reader has loaded, and whether its names are matched by namespace. -/
structure LoadedDocument where
  document : Document
  namespaceInfo : Bool
  deriving DecidableEq, Repr

/-- A reader: how it reads markup, what it has loaded, and what the prefixes of paths stand for. -/
structure FieldReader where
  options : ReadOptions
  loaded : Option LoadedDocument
  namespaces : Namespaces
  deriving DecidableEq, Repr

namespace FieldReader

/-- A reader that has loaded nothing. -/
def new (o : ReadOptions) : FieldReader :=
  ⟨o, none, .empty⟩

/-! ## Loading -/

/-- The reader without a document and without bindings. -/
def cleared (r : FieldReader) : FieldReader :=
  { r with loaded := none, namespaces := .empty }

/-- Loads a text. Blank text only lets go of what was loaded, and so does a text that is not well
formed. -/
def load (r : FieldReader) (text : String) (aware : Bool) : FieldReader × Except ReadError Unit :=
  if allBlank text.toList then (r.cleared, .ok ())
  else
    match Markup.parse { r.options with namespaceAware := aware } text with
    | .error e => (r.cleared, .error (.parse e))
    | .ok m =>
      let namespaces := Namespaces.ofMarkup m
      let loaded := ⟨Document.ofMarkup m, aware && !namespaces.isEmpty⟩
      ({ r with loaded := some loaded, namespaces := namespaces }, .ok ())

/-- Decodes bytes and loads the text. Bytes that cannot be decoded leave the bindings as they were. -/
def loadBytes (charsets : Charsets) (r : FieldReader) (bytes : List UInt8) (aware : Bool) :
    FieldReader × Except ReadError Unit :=
  match Encoding.decodeDocument charsets bytes with
  | .error e => ({ r with loaded := none }, .error (.encoding e))
  | .ok text => load { r with loaded := none } text aware

/-- The reader with other bindings for the prefixes of paths. -/
def withNamespaces (r : FieldReader) (n : Namespaces) : FieldReader :=
  { r with namespaces := n }

/-! ## Locating -/

/-- What a name of a path asks of the namespace. -/
def namespaceTest (r : FieldReader) (l : LoadedDocument) (q : QName)
    (unprefixed : NamespaceTest) : NamespaceTest :=
  if !l.namespaceInfo then .any
  else
    match q.nsPrefix with
    | some p =>
      match r.namespaces.uri? p with
      | some uri => .exactly (some uri)
      | none => .never
    | none => unprefixed

/-- The test of a step. Without a prefix, the default namespace at the candidate counts. -/
def stepTest (r : FieldReader) (l : LoadedDocument) (s : Step) : StepTest :=
  ⟨⟨s.name.localName, r.namespaceTest l s.name .defaultInScope⟩, s.position⟩

/-- The test of an attribute. Without a prefix, it is in no namespace. -/
def attributeTest (r : FieldReader) (l : LoadedDocument) (q : QName) : NameTest :=
  ⟨q.localName, r.namespaceTest l q (.exactly none)⟩

/-- The text at a path of a loaded document. -/
def locate? (r : FieldReader) (l : LoadedDocument) (p : Path) : Option String := do
  let (n, below) ← l.document.locate? (p.steps.map (r.stepTest l))
  match p.attr with
  | some q => n.content.attribute? (r.attributeTest l q)
  | none => some (n.content.characters ++ (below.map Node.content).textContent)

/-- The text at a path, if there is any, as it stands. -/
def extract (r : FieldReader) (p : Path) : Except ReadError (Option String) :=
  match r.loaded with
  | none => .error .documentNotLoaded
  | some l => .ok (r.locate? l p)

/-! ## Reading -/

/-- What reading a field at a path comes to: the field with its new value, and the records. -/
def fill (f : Field) (log : List Audit) : Option String → Field × List Audit
  | none => ({ f with value := none }, log)
  | some raw =>
    let c := Conversion.ofText raw f.effectiveType
    ({ f with value := c.value? },
      if c.isFailed then log ++ [.conversionFailure raw f.effectiveType (some f.path)] else log)

/-- Reads a field. A request that is refused changes neither the field nor the records. -/
def readField (r : FieldReader) (f : Field) (log : List Audit) :
    Except ReadError Unit × Field × List Audit :=
  match r.loaded with
  | none => (.error .documentNotLoaded, f, log)
  | some l =>
    match Path.parse f.path with
    | .error e => (.error (.path e), f, log)
    | .ok p => (.ok (), fill f log (r.locate? l p))

/-- Reads the source field of a session. -/
def read (r : FieldReader) (s : Session) : Except ReadError Unit × Session :=
  match s.source with
  | none => (.error .missingField, s)
  | some f =>
    let (result, f, log) := r.readField f s.audits
    (result, { s with source := some f, audits := log })

end FieldReader

end MarkupFields
