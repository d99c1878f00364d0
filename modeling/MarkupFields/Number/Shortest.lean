import MarkupFields.Number.Literal

/-
  The shortest decimal text of a floating point number. Digits are tried from one upwards: of each
  count the two decimals next to the value are looked at, and the first that reads back as the same
  number wins, the nearer one if both do. Seventeen digits are enough; the exact value stands behind
  them, so that the text reads back whatever happens.
-/

namespace MarkupFields

open Powers

/-- A positive decimal: digits without the point, and the power of ten of the last digit. -/
structure Decimal where
  coefficient : Nat
  exponent : Int
  deriving DecidableEq, Repr

namespace Decimal

/-- The value of the decimal. -/
def ratio (d : Decimal) : Ratio :=
  Literal.tenfold d.coefficient d.exponent

/-- The number of decimal digits. -/
def digitCount (n : Nat) : Nat :=
  (Nat.toDigits 10 n).length

/-- The exponent of the highest power of ten that is not above the ratio. -/
def log10 (r : Ratio) : Int :=
  let k : Int := digitCount r.num - digitCount r.den
  if r.den * 10 ^ k.toNat ≤ r.num * 10 ^ (-k).toNat then k else k - 1

/-- The same decimal without zeros at the end; at most so many are taken away. -/
def trimmed : Nat → Decimal → Decimal
  | 0, d => d
  | n + 1, d =>
    if d.coefficient % 10 = 0 ∧ d.coefficient ≠ 0 then
      trimmed n ⟨d.coefficient / 10, d.exponent + 1⟩
    else d

/-- The decimal reads back as the magnitude of the rank. -/
def readsBack (p : Precision) (rank : Nat) (d : Decimal) : Bool :=
  p.nearestRank d.ratio == rank

/-- Of the decimals of so many digits that read back, the one nearest to the value; of two equally
near the higher. The first digit stands for the given power of ten. -/
def withDigits? (p : Precision) (rank : Nat) (k : Int) (count : Nat) : Option Decimal :=
  let r := p.magnitude rank
  let e := k - count + 1
  let num := r.num * 10 ^ (-e).toNat
  let den := r.den * 10 ^ e.toNat
  let low : Decimal := ⟨num / den, e⟩
  let high : Decimal := ⟨num / den + 1, e⟩
  match readsBack p rank low, readsBack p rank high with
  | true, true => some (if 2 * (num % den) < den then low else high)
  | true, false => some low
  | false, true => some high
  | false, false => none

/-- The exact decimal of a whole number times a power of two. -/
def exact (m : Nat) (q : Int) : Decimal :=
  if q < 0 then ⟨m * 5 ^ (-q).toNat, q⟩ else ⟨m * 2 ^ q.toNat, 0⟩

/-- The shortest decimal that reads back as the magnitude of the rank. -/
def shortest (p : Precision) (rank : Nat) : Decimal :=
  let k := log10 (p.magnitude rank)
  match (List.range' 1 17).findSome? (withDigits? p rank k) with
  | some d => trimmed 17 d
  | none => exact (p.parts rank).1 (p.parts rank).2

/-! ## Layout -/

/-- Numbers whose first digit stands for these powers of ten are written without an exponent. -/
def positional (k : Int) : Bool :=
  decide (-4 ≤ k) && decide (k < 16)

/-- The digits with a point among them and at least one digit on either side of it. -/
def layPlain (digits : List Char) (exponent : Int) : List Char :=
  if 0 ≤ exponent then digits ++ List.replicate exponent.toNat '0' ++ ['.', '0']
  else
    let places := (-exponent).toNat
    if places < digits.length then
      digits.take (digits.length - places) ++ '.' :: digits.drop (digits.length - places)
    else '0' :: '.' :: (List.replicate (places - digits.length) '0' ++ digits)

/-- The first digit, the others behind a point if there are any, and the exponent of the first. -/
def layScientific (digits : List Char) (k : Int) : List Char :=
  digits.take 1 ++ (if digits.length ≤ 1 then [] else '.' :: digits.drop 1)
    ++ 'e' :: (toString k).toList

/-- The text of a decimal. -/
def layout (d : Decimal) : List Char :=
  let digits := Nat.toDigits 10 d.coefficient
  let k := d.exponent + digits.length - 1
  if positional k then layPlain digits d.exponent else layScientific digits k

end Decimal

namespace BinaryFloat

/-- The text of a floating point number: the shortest that reads back. Zero is written with one place
and keeps its sign. -/
def render {p : Precision} : BinaryFloat p → List Char
  | nan => "NaN".toList
  | infinite false => "Infinity".toList
  | infinite true => "-Infinity".toList
  | finite s rank =>
    (if s then ['-'] else []) ++
      (if rank.val = 0 then "0.0".toList else (Decimal.shortest p rank).layout)

end BinaryFloat

end MarkupFields
