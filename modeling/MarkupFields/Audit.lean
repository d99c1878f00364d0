import MarkupFields.Field.Value

/-
  Audit records. A value that cannot be converted does not end the work: the field is left without a
  value and one record tells what happened. Records are only ever added, in the order in which things
  happened.
-/

namespace MarkupFields

/-- How grave a record is. -/
inductive AuditStatus where
  | error
  | warn
  | info
  | notFound
  deriving DecidableEq, Repr

namespace AuditStatus

/-- The name of a status. -/
def name : AuditStatus → String
  | error => "ERROR"
  | warn => "WARN"
  | info => "INFO"
  | notFound => "NOT_FOUND"

/-- The status with exactly the given name. -/
def ofName? (s : String) : Option AuditStatus :=
  [error, warn, info, notFound].find? fun a => a.name == s

theorem ofName?_name (a : AuditStatus) : ofName? a.name = some a := by
  cases a <;> rfl

end AuditStatus

/-- One record: what happened, to which text, where, and how grave it is. -/
structure Audit where
  message : String
  value : String
  path : Option String
  status : AuditStatus
  deriving DecidableEq, Repr

namespace Audit

/-- The record of a text that could not be converted to a type. -/
def conversionFailure (raw : String) (target : FieldType) (path : Option String) : Audit :=
  ⟨"Failed to convert field value '" ++ raw ++ "' into type '" ++ target.name ++ "'", raw, path,
    .error⟩

/-- A record on one line. -/
def render (a : Audit) : String :=
  "[" ++ a.status.name ++ "] " ++ a.message ++
    (match a.path with
      | some p => " (path " ++ p ++ ")"
      | none => "")

/-- One of the records is an error. -/
def anyError (log : List Audit) : Bool :=
  log.any fun a => a.status == .error

end Audit

end MarkupFields
