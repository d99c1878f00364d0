import MarkupFields.Field.Field
import MarkupFields.Json.Read

/-
  Fields and audit records as JSON. A record is an object with known members: each at most once, in
  any order, others beside them of no account. A value is an object of its type and its content. A name
  out of a fixed list is a string, or an object whose only member has that name and is null.
-/

namespace MarkupFields

namespace JsonValue

/-! ## Parts of objects -/

/-- The members of an object whose keys are texts. -/
def members : JsonValue → Option (List (String × JsonValue))
  | object ms => ms.mapM fun m => m.1.map fun k => (k, m.2)
  | _ => none

/-- The member with a key, if it is there; none if it is there more than once. -/
def member? (ms : List (String × JsonValue)) (key : String) : Option (Option JsonValue) :=
  match ms.filter fun m => m.1 == key with
  | [] => some none
  | [m] => some (some m.2)
  | _ => none

/-- The member with a key that has to be there once. -/
def required? (ms : List (String × JsonValue)) (key : String) : Option JsonValue :=
  (member? ms key).bind id

/-- The member with a key that may be missing or null; `read` reads any other. -/
def optional? {α : Type} (read : JsonValue → Option α) (ms : List (String × JsonValue))
    (key : String) : Option (Option α) :=
  match member? ms key with
  | none => none
  | some none => some none
  | some (some null) => some none
  | some (some v) => (read v).map some

/-- A string that is a text. -/
def asText? : JsonValue → Option String
  | string s => s
  | _ => none

/-- A truth value. -/
def asBool? : JsonValue → Option Bool
  | bool b => some b
  | _ => none

/-- An integer. -/
def asInt? : JsonValue → Option Int
  | number n =>
    match n.value? with
    | some (.integer i) => some i
    | _ => none
  | _ => none

/-- A number of a precision. -/
def asFloat? (p : Precision) : JsonValue → Option (BinaryFloat p)
  | number n => n.value?.map (JsonNumber.Denotation.toFloat p)
  | _ => none

/-- A name out of a fixed list. -/
def asName? : JsonValue → Option String
  | string s => s
  | object [(k, null)] => k
  | _ => none

/-- A text or null. -/
def ofText? : Option String → JsonValue
  | some s => string (some s)
  | none => null

/-- An object of known members. -/
def record (ms : List (String × JsonValue)) : JsonValue :=
  object (ms.map fun m => (some m.1, m.2))

end JsonValue

open JsonValue

/-! ## Values -/

/-- The content of a value of a type. -/
def Value.ofContent? (t : FieldType) (v : JsonValue) : Option Value :=
  match t with
  | .boolean => v.asBool?.map .boolean
  | .char =>
    match v.asText?.map String.toList with
    | some [c] => some (.char c)
    | _ => none
  | .whole w => (v.asInt?.bind (Whole.ofInt? w)).map (.whole w)
  | .floating p => (v.asFloat? p).map (.floating p)
  | .string => v.asText?.map .string

/-- A value as JSON gives it: its type and its content. -/
def Value.ofJson? (v : JsonValue) : Option Value := do
  let ms ← v.members
  let t ← (← required? ms "type").asName?
  Value.ofContent? (← FieldType.ofName? t) (← required? ms "value")

/-- A value as JSON; a floating point number has no such form here. -/
def Value.toJson? (v : Value) : Option JsonValue :=
  let content : Option JsonValue :=
    match v with
    | boolean b => some (.bool b)
    | char c => some (.string (some c.toString))
    | whole _ n => some (.number (.ofInt n.val))
    | floating _ _ => none
    | string s => some (.string (some s))
  content.map fun c => record [("type", .string (some v.type.name)), ("value", c)]

/-! ## Fields -/

/-- A field as JSON gives it. Only the path has to be there. -/
def Field.ofJson? (v : JsonValue) : Option Field := do
  let ms ← v.members
  let path ← (← required? ms "path").asText?
  let value ← optional? Value.ofJson? ms "value"
  let declared ← optional? (fun v => v.asName?.bind FieldType.ofName?) ms "field_type"
  let isPrimitive ←
    match ← member? ms "primitive" with
    | none => some false
    | some b => b.asBool?
  some ⟨path, value, declared, isPrimitive⟩

/-- A field as JSON with all its members, unless its value has no such form. -/
def Field.toJson? (f : Field) : Option JsonValue := do
  let value ←
    match f.value with
    | none => some .null
    | some v => v.toJson?
  some (record [("path", .string (some f.path)), ("value", value),
    ("field_type", ofText? (f.declared.map FieldType.name)), ("primitive", .bool f.isPrimitive)])

/-! ## Audit records -/

/-- An audit record as JSON gives it. Only the path may be missing. -/
def Audit.ofJson? (v : JsonValue) : Option Audit := do
  let ms ← v.members
  let message ← (← required? ms "message").asText?
  let value ← (← required? ms "value").asText?
  let path ← optional? asText? ms "path"
  let status ← AuditStatus.ofName? (← (← required? ms "status").asName?)
  some ⟨message, value, path, status⟩

/-- An audit record as JSON with all its members. -/
def Audit.toJson (a : Audit) : JsonValue :=
  record [("message", .string (some a.message)), ("value", .string (some a.value)),
    ("path", ofText? a.path), ("status", .string (some a.status.name))]

/-- A log of audit records as JSON gives it. -/
def Audit.logOfJson? : JsonValue → Option (List Audit)
  | .array items => items.mapM Audit.ofJson?
  | _ => none

/-- A log of audit records as JSON. -/
def Audit.logToJson (log : List Audit) : JsonValue :=
  .array (log.map Audit.toJson)

end MarkupFields
