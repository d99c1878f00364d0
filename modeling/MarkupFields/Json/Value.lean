import MarkupFields.Number.Literal

/-
  JSON values. A number is kept as it is written; what it denotes is computed when it is asked for. A
  string that holds half of a surrogate pair is no text, but it may stand where nobody looks at it.
-/

namespace MarkupFields

open Text Powers

/-- A number as it is written: its sign, the digits before and after the point, and the exponent. -/
structure JsonNumber where
  negative : Bool
  whole : List Char
  fraction : Option (List Char)
  exponent : Option (Bool × List Char)
  deriving DecidableEq, Repr

/-- A JSON value. A string that is no text is none. -/
inductive JsonValue where
  | null
  | bool (b : Bool)
  | number (n : JsonNumber)
  | string (s : Option String)
  | array (items : List JsonValue)
  | object (members : List (Option String × JsonValue))

namespace JsonNumber

/-- The number of an integer. -/
def ofInt (n : Int) : JsonNumber :=
  ⟨n < 0, Nat.toDigits 10 n.natAbs, none, none⟩

/-! ## What a number denotes -/

/-- What a number denotes: an integer that fits, or a number of double precision. -/
inductive Denotation where
  | integer (n : Int)
  | real (x : BinaryFloat .double)
  deriving DecidableEq, Repr

/-- Digits are taken as long as their number stays below this. -/
def digitBound : Nat := 2 ^ (64 : Nat)

/-- Goes on taking digits: the number they denote together, and the digits that do not fit. -/
def takeDigits (n : Nat) : List Char → Nat × List Char
  | [] => (n, [])
  | c :: cs =>
    if n * 10 + digitValue c < digitBound then takeDigits (n * 10 + digitValue c) cs
    else (n, c :: cs)

/-- The nearest number to a power of ten. -/
def powerOfTen (k : Nat) : BinaryFloat .double :=
  BinaryFloat.round .double false ⟨10 ^ k, 1⟩

/-- The highest power of ten that is finite. -/
def highestPower : Nat := 308

/-- Scales a number by a power of ten in steps of which each is rounded; none if it becomes
infinite. -/
def scale (x : BinaryFloat .double) (e : Int) : Option (BinaryFloat .double) :=
  if 0 ≤ e then
    if x.isZero then some x
    else if e ≤ highestPower then
      let y := x.times (powerOfTen e.toNat)
      if y.isInfinite then none else some y
    else none
  else if -e ≤ highestPower then some (x.dividedBy (powerOfTen (-e).toNat))
  else if x.isZero then some x
  else scale (x.dividedBy (powerOfTen highestPower)) (e + highestPower)
termination_by (-e).toNat
decreasing_by
  simp only [highestPower] at *
  omega

/-- Exponents go up to this number. -/
def exponentBound : Nat := 2 ^ (31 : Nat)

/-- The number of double precision that digits with a power of ten denote. An exponent past the bound
leaves nothing of the digits, or too much. -/
def realValue (n : JsonNumber) (digits : Nat) (e : Int) : Option (BinaryFloat .double) := do
  let start := BinaryFloat.round .double false ⟨digits, 1⟩
  let magnitude ←
    match n.exponent with
    | none => scale start e
    | some (minus, ds) =>
      let k := numeral 10 ds
      if k < exponentBound then scale start (if minus then e - k else e + k)
      else if digits ≠ 0 ∧ !minus then none
      else some .zero
  some (magnitude.withSign n.negative)

/-- What the number denotes; none if it is too large. Without a point and an exponent it is an
integer if it fits into 64 bits, unless it is a zero with a minus sign. -/
def value? (n : JsonNumber) : Option Denotation :=
  let (digits, unfit) := takeDigits 0 n.whole
  if n.fraction.isNone && n.exponent.isNone && unfit.isEmpty then
    if !n.negative then some (.integer digits)
    else if digits = 0 ∨ 2 ^ (63 : Nat) < digits then
      some (.real (BinaryFloat.round .double true ⟨digits, 1⟩))
    else some (.integer (-digits))
  else
    let fraction := n.fraction.getD []
    let (digits, dropped) := takeDigits digits fraction
    let e : Int := unfit.length - (fraction.length - dropped.length : Nat)
    (n.realValue digits e).map .real

/-- The floating point number that a denotation comes to. -/
def Denotation.toFloat (p : Precision) : Denotation → BinaryFloat p
  | integer n => BinaryFloat.ofInt p n
  | real x => x.toPrecision p

end JsonNumber

end MarkupFields
