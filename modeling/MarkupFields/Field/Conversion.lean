import MarkupFields.Field.Value

/-
  Conversion between field types, from text and from values. A number that is out of range, that has
  a fractional part where none may be, or that is no character is refused with the reason; a value
  too small for a floating type becomes zero, which is told apart from a plain success. Text always
  converts to a truth value.
-/

namespace MarkupFields

open Text

/-! ## Outcomes -/

/-- Why there is no value. -/
inductive FailureReason where
  | format
  | overflow
  | fractional
  | invalidCodePoint
  deriving DecidableEq, Repr

/-- The wording of a reason. -/
def FailureReason.message : FailureReason → String
  | format => "format"
  | overflow => "overflow"
  | fractional => "fractional"
  | invalidCodePoint => "invalid code point"

/-- What came of a conversion: a value, a zero in place of a value too small, or a reason. -/
inductive Conversion where
  | ok (v : Value)
  | clamped (v : Value)
  | failed (r : FailureReason)
  deriving DecidableEq, Repr

namespace Conversion

/-- The value, unless the conversion failed. -/
def value? : Conversion → Option Value
  | ok v => some v
  | clamped v => some v
  | failed _ => none

def isFailed : Conversion → Bool
  | failed _ => true
  | _ => false

/-- The conversion that gives the value or else fails for the reason. -/
def ofOption (r : FailureReason) : Option Value → Conversion
  | some v => ok v
  | none => failed r

end Conversion

/-! ## Concerns -/

/-- Why a conversion between two types may lose something: not every value fits, or values are taken
for something else. -/
inductive Concern where
  | range
  | convention
  deriving DecidableEq, Repr

namespace FieldType

/-- Every number of the first numeric type is one of the second. -/
def widens : FieldType → FieldType → Bool
  | whole .byte, whole _ => true
  | whole .short, whole w => w != .byte
  | whole .integer, whole w => w == .integer || w == .long
  | whole .long, whole w => w == .long
  | whole .byte, floating _ => true
  | whole .short, floating _ => true
  | whole .integer, floating p => p == .double
  | floating .single, floating _ => true
  | floating .double, floating p => p == .double
  | _, _ => false

/-- The concerns of converting from one type to another. -/
def concerns (source target : FieldType) : List Concern :=
  if source = target ∨ target = string then []
  else if source = boolean ∨ target = boolean then [.convention]
  else if source = string then [.range]
  else if target = char then [.range, .convention]
  else if source = char then
    if target = whole .byte ∨ target = whole .short then [.range, .convention] else [.convention]
  else if widens source target then []
  else [.range]

end FieldType

namespace Conversion

/-! ## From text -/

/-- The text reads as a finite number of double precision. -/
def readsFinite (cs : List Char) : Bool :=
  ((Literal.read? cs).map (Literal.toFloat .double)).any BinaryFloat.isFinite

/-- Why a text that is no numeral is none: it may still be a number. -/
def malformedReason (cs : List Char) : FailureReason :=
  if readsFinite cs then .fractional else .format

/-- Reads a whole number between two bounds. -/
def wholeOfText (low high : Int) (cs : List Char) : Except FailureReason Int :=
  match readNumeral low high cs with
  | .value n => .ok n
  | .outOfRange => .error .overflow
  | .malformed => .error (malformedReason cs)

/-- The character with the code point, if there is one. -/
def charOfInt? (n : Int) : Option Char :=
  if n < 0 then none else charOfCode? n.toNat

/-- A truth value in words, digits or letters; a number is true unless it is zero, other text is
true. -/
def booleanOfText (raw cs : List Char) : Bool :=
  if raw.isEmpty then false
  else
    let lower := cs.map Char.toLower
    if lower = "1".toList ∨ lower = "t".toList ∨ lower = "true".toList then true
    else if lower = "0".toList ∨ lower = "f".toList ∨ lower = "false".toList then false
    else
      match Literal.read? lower with
      | some l => !(l.toFloat .double).isZero
      | none => true

/-- One character is itself; longer text is a code point. -/
def charOfText (raw cs : List Char) : Conversion :=
  match raw with
  | [c] => ok (.char c)
  | _ =>
    match wholeOfText Width.long.lowest Width.long.highest cs with
    | .ok n => ofOption .invalidCodePoint ((charOfInt? n).map .char)
    | .error r => failed r

/-- A floating point number: what is too large is refused unless it was spelled as infinite, what is
too small becomes zero. -/
def floatOfText (p : Precision) (cs : List Char) : Conversion :=
  match Literal.read? cs with
  | none => failed .format
  | some l =>
    let x := l.toFloat p
    if x.isInfinite && l.isDecimal then failed .overflow
    else if x.isZero && l.isNonzeroDecimal then clamped (.floating p .zero)
    else ok (.floating p x)

/-- Converts text to a type. Numbers may have ASCII spaces around them. -/
def ofText (raw : String) (target : FieldType) : Conversion :=
  let cs := trim isAsciiSpace raw.toList
  match target with
  | .string => ok (.string raw)
  | .boolean => ok (.boolean (booleanOfText raw.toList cs))
  | .char => charOfText raw.toList cs
  | .whole w =>
    match wholeOfText w.lowest w.highest cs with
    | .ok n => ofOption .overflow ((Whole.ofInt? w n).map (.whole w))
    | .error r => failed r
  | .floating p => floatOfText p cs

/-! ## From values -/

/-- Converts a whole number to a type. -/
def ofInt (n : Int) : FieldType → Conversion
  | .boolean => ok (.boolean (n != 0))
  | .char => ofOption .invalidCodePoint ((charOfInt? n).map .char)
  | .whole w => ofOption .overflow ((Whole.ofInt? w n).map (.whole w))
  | .floating p => ok (.floating p (BinaryFloat.ofInt p n))
  | .string => ok (.string (String.ofList (Value.renderInt n)))

/-- Converts a truth value to a type: one or zero, as a character the digit. -/
def ofBool (b : Bool) : FieldType → Conversion
  | .boolean => ok (.boolean b)
  | .char => ok (.char (if b then '1' else '0'))
  | .string => ok (.string (Value.render (.boolean b)))
  | target => ofInt (if b then 1 else 0) target

/-- Converts a floating point number to a floating type. What is finite stays so or is refused. -/
def narrow {p : Precision} (q : Precision) (x : BinaryFloat p) : Conversion :=
  let y := x.toPrecision q
  if x.isFinite && y.isInfinite then failed .overflow
  else if !x.isZero && y.isZero then clamped (.floating q y)
  else ok (.floating q y)

/-- Converts a floating point number to a type. -/
def ofFloat {p : Precision} (x : BinaryFloat p) : FieldType → Conversion
  | .boolean => ok (.boolean !x.isZero)
  | .floating q => narrow q x
  | .string => ok (.string (String.ofList x.render))
  | target =>
    match x.toLong with
    | .whole n => ofInt n target
    | .outOfRange => failed .overflow
    | .fractional => failed .fractional

end Conversion

/-- Converts a value to a type. A value of the type is kept. -/
def Value.convert (v : Value) (target : FieldType) : Conversion :=
  if v.type = target then .ok v
  else if target = .string then .ok (.string v.render)
  else
    match v with
    | string s => Conversion.ofText s target
    | boolean b => Conversion.ofBool b target
    | whole _ n => Conversion.ofInt n.val target
    | char c => Conversion.ofInt c.toNat target
    | floating _ x => Conversion.ofFloat x target

end MarkupFields
