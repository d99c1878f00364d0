import MarkupFields.Encoding.Decode
import MarkupFields.Json.Value
import MarkupFields.Text.Mark

/-
  Reading JSON. The whole text has to be one value, with space around it at most. Strings hold no
  control characters; an escape gives a unit of UTF-16, and units have to pair up where the string is
  to be a text.
-/

namespace MarkupFields

open Text

namespace JsonValue

/-- Space between the parts of JSON. -/
def skipSpace (cs : List Char) : List Char :=
  cs.dropWhile isMarkupSpace

/-! ## Strings -/

/-- The character that a letter after a backslash stands for. -/
def escape? (c : Char) : Option Char :=
  match c with
  | '"' => some '"'
  | '\\' => some '\\'
  | '/' => some '/'
  | 'b' => some '\x08'
  | 'f' => some '\x0c'
  | 'n' => some '\n'
  | 'r' => some '\r'
  | 't' => some '\t'
  | _ => none

/-- Reads the inside and the end of a string: units of UTF-16, and characters for themselves. -/
def units? : List Char → Option (List Nat × List Char)
  | [] => none
  | '"' :: rest => some ([], rest)
  | '\\' :: 'u' :: a :: b :: c :: d :: rest =>
    if [a, b, c, d].all isHexDigit then
      (units? rest).map fun p => (numeral 16 [a, b, c, d] :: p.1, p.2)
    else none
  | '\\' :: e :: rest =>
    match escape? e with
    | some c => (units? rest).map fun p => (c.toNat :: p.1, p.2)
    | none => none
  | c :: rest =>
    if c.toNat < 0x20 || c == '\\' then none
    else (units? rest).map fun p => (c.toNat :: p.1, p.2)

/-- Reads the inside and the end of a string. -/
def text? (cs : List Char) : Option (Option String × List Char) :=
  (units? cs).map fun p => ((Encoding.ofUnits? p.1).map String.ofList, p.2)

/-! ## Numbers -/

/-- Reads one digit or more. -/
def digits? (cs : List Char) : Option (List Char × List Char) :=
  let ds := cs.takeWhile Char.isDigit
  if ds.isEmpty then none else some (ds, cs.dropWhile Char.isDigit)

/-- Reads a point with digits, if there is a point. -/
def fraction? : List Char → Option (Option (List Char) × List Char)
  | '.' :: cs => (digits? cs).map fun p => (some p.1, p.2)
  | cs => some (none, cs)

/-- Reads an exponent, if there is one. -/
def exponent? : List Char → Option (Option (Bool × List Char) × List Char)
  | [] => some (none, [])
  | e :: cs =>
    if e = 'e' ∨ e = 'E' then
      let (minus, ds) := Literal.splitSign cs
      (digits? ds).map fun p => (some (minus, p.1), p.2)
    else some (none, e :: cs)

/-- Reads a number. A zero is not followed by digits. -/
def number? (cs : List Char) : Option (JsonNumber × List Char) := do
  let (negative, cs) := (match cs with
    | '-' :: cs => (true, cs)
    | cs => (false, cs))
  let (whole, cs) ← digits? cs
  if whole.head? = some '0' ∧ whole.length ≠ 1 then none
  else
    let (fraction, cs) ← fraction? cs
    let (exponent, cs) ← exponent? cs
    some (⟨negative, whole, fraction, exponent⟩, cs)

/-- Reads a value that is one word. -/
def word? (cs : List Char) : Option (JsonValue × List Char) :=
  match after? "null".toList cs with
  | some rest => some (null, rest)
  | none =>
    match after? "true".toList cs with
    | some rest => some (bool true, rest)
    | none => (after? "false".toList cs).map fun rest => (bool false, rest)

/-! ## Values -/

/-- Reads the key of a member with the colon after it. -/
def key? (cs : List Char) : Option (Option String × List Char) :=
  match skipSpace cs with
  | '"' :: cs =>
    match text? cs with
    | some (k, cs) =>
      match skipSpace cs with
      | ':' :: rest => some (k, rest)
      | _ => none
    | none => none
  | _ => none

mutual

/-- Reads a value. The bound is on the nesting and the number of parts; twice the length of the text
is enough. -/
def value? : Nat → List Char → Option (JsonValue × List Char)
  | 0, _ => none
  | bound + 1, cs =>
    match skipSpace cs with
    | '"' :: cs => (text? cs).map fun p => (string p.1, p.2)
    | '[' :: cs =>
      match skipSpace cs with
      | ']' :: rest => some (array [], rest)
      | cs => (items? bound cs).map fun p => (array p.1, p.2)
    | '{' :: cs =>
      match skipSpace cs with
      | '}' :: rest => some (object [], rest)
      | cs => (members? bound cs).map fun p => (object p.1, p.2)
    | cs => (word? cs).or ((number? cs).map fun p => (number p.1, p.2))

/-- Reads the items of an array, at least one, with its end. -/
def items? : Nat → List Char → Option (List JsonValue × List Char)
  | 0, _ => none
  | bound + 1, cs =>
    match value? bound cs with
    | none => none
    | some (v, cs) =>
      match skipSpace cs with
      | ',' :: cs => (items? bound cs).map fun p => (v :: p.1, p.2)
      | ']' :: rest => some ([v], rest)
      | _ => none

/-- Reads the members of an object, at least one, with its end. -/
def members? : Nat → List Char → Option (List (Option String × JsonValue) × List Char)
  | 0, _ => none
  | bound + 1, cs =>
    match key? cs with
    | none => none
    | some (k, cs) =>
      match value? bound cs with
      | none => none
      | some (v, cs) =>
        match skipSpace cs with
        | ',' :: cs => (members? bound cs).map fun p => ((k, v) :: p.1, p.2)
        | '}' :: rest => some ([(k, v)], rest)
        | _ => none

end

/-- Reads a text as one value. -/
def read? (s : String) : Option JsonValue :=
  match value? (2 * s.length + 2) s.toList with
  | some (v, rest) => if (skipSpace rest).isEmpty then some v else none
  | none => none

end JsonValue

end MarkupFields
