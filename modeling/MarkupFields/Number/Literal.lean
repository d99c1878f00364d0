import MarkupFields.Number.BinaryFloat
import MarkupFields.Text.Numeral

/-
  Number literals: a sign, digits with a point among or beside them, and a decimal exponent, or a
  word for what is infinite or no number. A literal denotes an exact value; how close a floating
  point number comes to it is a matter of rounding, not of reading.
-/

namespace MarkupFields

open Text Powers

/-- A number as text spells it. -/
inductive Literal where
  | decimal (negative : Bool) (coefficient : Nat) (exponent : Int)
  | infinity (negative : Bool)
  | nan
  deriving DecidableEq, Repr

namespace Literal

/-! ## Reading -/

/-- An exponent past this bound takes no further digits. -/
def exponentBound : Nat := 65536

/-- The number that the digits of an exponent denote, as far as the bound lets them. -/
def exponentNumeral (digits : List Char) : Nat :=
  digits.foldl (fun n c => if n < exponentBound then n * 10 + digitValue c else n) 0

/-- Splits off a sign: whether it is a minus, and what follows. -/
def splitSign : List Char → Bool × List Char
  | '-' :: cs => (true, cs)
  | '+' :: cs => (false, cs)
  | cs => (false, cs)

/-- Reads what may follow the digits: nothing, or an exponent. -/
def exponent? : List Char → Option Int
  | [] => some 0
  | e :: cs =>
    if e = 'e' ∨ e = 'E' then
      let (negative, digits) := splitSign cs
      if digits.isEmpty || !digits.all Char.isDigit then none
      else
        let n : Int := exponentNumeral digits
        some (if negative then -n else n)
    else none

/-- Splits off the digits after a point, if there is one. -/
def splitFraction : List Char → List Char × List Char
  | '.' :: cs => (cs.takeWhile Char.isDigit, cs.dropWhile Char.isDigit)
  | cs => ([], cs)

/-- Reads an unsigned decimal number: at least one digit before or after the point. -/
def decimal? (negative : Bool) (cs : List Char) : Option Literal :=
  let whole := cs.takeWhile Char.isDigit
  let (fraction, rest) := splitFraction (cs.dropWhile Char.isDigit)
  if whole.isEmpty && fraction.isEmpty then none
  else
    (exponent? rest).map fun e =>
      .decimal negative (numeral 10 (whole ++ fraction)) (e - fraction.length)

/-- Reads a word for a number that has no digits, in any letter case. -/
def word? (negative : Bool) (cs : List Char) : Option Literal :=
  let lower := cs.map Char.toLower
  if lower = "inf".toList ∨ lower = "infinity".toList then some (.infinity negative)
  else if lower = "nan".toList then some .nan
  else none

/-- Reads a whole text as a number. -/
def read? (cs : List Char) : Option Literal :=
  let (negative, unsigned) := splitSign cs
  (decimal? negative unsigned).or (word? negative unsigned)

/-! ## Values -/

/-- The natural number times a power of ten. -/
def tenfold (coefficient : Nat) (exponent : Int) : Ratio :=
  ⟨coefficient * 10 ^ exponent.toNat, 10 ^ (-exponent).toNat⟩

/-- The floating point number nearest to the literal. -/
def toFloat (p : Precision) : Literal → BinaryFloat p
  | decimal negative c e => BinaryFloat.round p negative (tenfold c e)
  | infinity negative => .infinite negative
  | nan => .nan

/-- The literal is a decimal number. -/
def isDecimal : Literal → Bool
  | decimal _ _ _ => true
  | _ => false

/-- The literal is a decimal number with a digit other than zero. -/
def isNonzeroDecimal : Literal → Bool
  | decimal _ c _ => c != 0
  | _ => false

end Literal

end MarkupFields
