import MarkupFields.Audit
import MarkupFields.Field.Conversion

/-
  Fields and sessions. A field asks for one value: where it stands in a document, of which type it is,
  and, once read or to be written, the value. A session carries the field to read, the field to write
  and the records of what happened.
-/

namespace MarkupFields

/-- A request for one value at a path. -/
structure Field where
  path : String
  value : Option Value
  declared : Option FieldType
  isPrimitive : Bool
  deriving DecidableEq, Repr

/-- The type that the field is read as: the declared one, or a string. -/
def Field.effectiveType (f : Field) : FieldType :=
  f.declared.getD .string

/-- What one step of work is about. -/
structure Session where
  source : Option Field
  target : Option Field
  audits : List Audit
  deriving DecidableEq, Repr

namespace Session

/-- A session that reads a field. -/
def reading (f : Field) : Session :=
  ⟨some f, none, []⟩

/-- A session that writes a field. -/
def writing (f : Field) : Session :=
  ⟨none, some f, []⟩

end Session

end MarkupFields
