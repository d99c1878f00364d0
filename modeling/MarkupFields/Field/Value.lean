import MarkupFields.Number.Shortest
import MarkupFields.Number.Whole
import MarkupFields.Text.Blank

/-
  Field types and values. A field holds a truth value, a character, a whole number of one of four
  widths, a floating point number of one of two precisions, or a string. Each value has one text, the
  one a document stores.
-/

namespace MarkupFields

open Text

/-- The type of a field. -/
inductive FieldType where
  | boolean
  | char
  | whole (w : Width)
  | floating (p : Precision)
  | string
  deriving DecidableEq, Repr

namespace FieldType

/-- The types in the order in which they are listed. -/
def all : List FieldType :=
  [boolean, whole .byte, char, whole .short, whole .integer, whole .long, floating .single,
    floating .double, string]

/-- The name of a type in messages. -/
def name : FieldType → String
  | boolean => "BOOLEAN"
  | char => "CHAR"
  | whole .byte => "BYTE"
  | whole .short => "SHORT"
  | whole .integer => "INTEGER"
  | whole .long => "LONG"
  | floating .single => "FLOAT"
  | floating .double => "DOUBLE"
  | string => "STRING"

/-- The type with exactly the given name. -/
def ofName? (s : String) : Option FieldType :=
  all.find? fun t => t.name == s

theorem ofName?_name (t : FieldType) : ofName? t.name = some t := by
  rcases t with _ | _ | (_ | _ | _ | _) | (_ | _) | _ <;> rfl

/-- The type that a text names, in any letter case and with blanks around it. There is one short
name. -/
def read? (s : String) : Option FieldType :=
  let word := String.ofList ((trim isBlank s.toList).map Char.toUpper)
  if word = "INT" then some (whole .integer) else ofName? word

/-- The wording for a text that names no type. -/
def unknownMessage (s : String) : String :=
  "unknown field type '" ++ s ++ "'"

def isWhole : FieldType → Bool
  | whole _ => true
  | _ => false

def isFloating : FieldType → Bool
  | floating _ => true
  | _ => false

end FieldType

/-- The value of a field. -/
inductive Value where
  | boolean (b : Bool)
  | char (c : Char)
  | whole (w : Width) (n : Whole w)
  | floating (p : Precision) (x : BinaryFloat p)
  | string (s : String)
  deriving DecidableEq, Repr

namespace Value

/-- The type of a value. -/
def type : Value → FieldType
  | boolean _ => .boolean
  | char _ => .char
  | whole w _ => .whole w
  | floating p _ => .floating p
  | string _ => .string

/-- The decimal numeral of a whole number, with a minus sign if it is negative. -/
def renderInt (n : Int) : List Char :=
  if n < 0 then '-' :: Nat.toDigits 10 n.natAbs else Nat.toDigits 10 n.natAbs

/-- The text of a value, as a document stores it. -/
def render : Value → String
  | boolean true => "true"
  | boolean false => "false"
  | char c => c.toString
  | whole _ n => String.ofList (renderInt n.val)
  | floating _ x => String.ofList x.render
  | string s => s

end Value

end MarkupFields
