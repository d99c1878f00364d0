import MarkupFields.Text.Numeral

/-
  Binary floating point numbers of two precisions. The finite magnitudes of a precision are numbered
  from zero upwards in the order of their size; the number of a magnitude is its rank. A ratio of
  natural numbers is rounded to the nearest magnitude, a tie to the even rank; past the highest
  magnitude it becomes infinite. There is one NaN.
-/

namespace MarkupFields

open Powers

/-- The precisions of floating point numbers. -/
inductive Precision where
  | single
  | double
  deriving DecidableEq, Repr

namespace Precision

/-- The bits of the fraction. -/
def fractionBits : Precision → Nat
  | single => 23
  | double => 52

/-- The bits of the exponent. -/
def exponentBits : Precision → Nat
  | single => 8
  | double => 11

/-- The number of ranks that share an exponent. -/
def span (p : Precision) : Nat :=
  2 ^ p.fractionBits

/-- The number of finite magnitudes: every rank below it is one. -/
def limit (p : Precision) : Nat :=
  (2 ^ p.exponentBits - 1) * p.span

/-- The power of two that the lowest magnitude above zero is. -/
def minExponent (p : Precision) : Int :=
  2 - 2 ^ (p.exponentBits - 1) - p.fractionBits

theorem span_pos (p : Precision) : 0 < p.span :=
  Nat.two_pow_pos _

theorem limit_pos (p : Precision) : 0 < p.limit := by
  cases p <;> decide

end Precision

/-- A floating point number: a sign and the rank of a magnitude, infinite, or no number. -/
inductive BinaryFloat (p : Precision) where
  | nan
  | infinite (negative : Bool)
  | finite (negative : Bool) (rank : Fin p.limit)
  deriving DecidableEq, Repr

/-! ## Magnitudes -/

/-- A nonnegative number as a ratio. -/
structure Ratio where
  num : Nat
  den : Nat
  deriving DecidableEq, Repr

namespace Ratio

/-- The natural number times a power of two. -/
def scaled (m : Nat) (q : Int) : Ratio :=
  ⟨m * 2 ^ q.toNat, 2 ^ (-q).toNat⟩

/-- The whole number nearest to the ratio; of two, the even one. -/
def nearestWhole (r : Ratio) : Nat :=
  let whole := r.num / r.den
  let part := r.num % r.den
  if 2 * part < r.den then whole
  else if r.den < 2 * part then whole + 1
  else whole + whole % 2

/-- The ratio divided by a power of two. -/
def shiftedDown (r : Ratio) (q : Int) : Ratio :=
  ⟨r.num * 2 ^ (-q).toNat, r.den * 2 ^ q.toNat⟩

/-- The exponent of the highest power of two that is not above the ratio. -/
def log2 (r : Ratio) : Int :=
  let k : Int := Nat.log2 r.num - Nat.log2 r.den
  if r.den * 2 ^ k.toNat ≤ r.num * 2 ^ (-k).toNat then k else k - 1

end Ratio

namespace Precision

/-- The whole number and the power of two whose product is the magnitude of a rank. -/
def parts (p : Precision) (rank : Nat) : Nat × Int :=
  if rank < p.span then (rank, p.minExponent)
  else (p.span + rank % p.span, p.minExponent + (rank / p.span - 1 : Nat))

/-- The magnitude of a rank. -/
def magnitude (p : Precision) (rank : Nat) : Ratio :=
  Ratio.scaled (p.parts rank).1 (p.parts rank).2

/-- The rank of the magnitude nearest to the ratio, as if exponents had no upper end. -/
def nearestRank (p : Precision) (r : Ratio) : Nat :=
  if r.num = 0 then 0
  else
    let q := max (r.log2 - p.fractionBits) p.minExponent
    (q - p.minExponent).toNat * p.span + (r.shiftedDown q).nearestWhole

end Precision

namespace BinaryFloat

variable {p : Precision}

/-! ## Rounding -/

/-- The number nearest to a ratio with a sign. -/
def round (p : Precision) (negative : Bool) (r : Ratio) : BinaryFloat p :=
  let rank := p.nearestRank r
  if h : rank < p.limit then .finite negative ⟨rank, h⟩ else .infinite negative

/-- The number nearest to a whole number. -/
def ofInt (p : Precision) (n : Int) : BinaryFloat p :=
  round p (n < 0) ⟨n.natAbs, 1⟩

/-- The number of the other precision that is nearest. -/
def toPrecision (q : Precision) : BinaryFloat p → BinaryFloat q
  | nan => nan
  | infinite s => infinite s
  | finite s rank => round q s (p.magnitude rank)

/-! ## Tests -/

/-- The number is zero, of either sign. -/
def isZero : BinaryFloat p → Bool
  | finite _ rank => rank.val == 0
  | _ => false

def isInfinite : BinaryFloat p → Bool
  | infinite _ => true
  | _ => false

def isFinite : BinaryFloat p → Bool
  | finite _ _ => true
  | _ => false

/-- Zero with the plain sign. -/
def zero : BinaryFloat p :=
  finite false ⟨0, p.limit_pos⟩

/-! ## Signs, products, quotients -/

/-- The number with the given sign. -/
def withSign (negative : Bool) : BinaryFloat p → BinaryFloat p
  | finite _ rank => finite negative rank
  | infinite _ => infinite negative
  | nan => nan

/-- The rounded product of two finite numbers. -/
def times : BinaryFloat p → BinaryFloat p → BinaryFloat p
  | finite s a, finite t b =>
    let x := p.magnitude a
    let y := p.magnitude b
    round p (s != t) ⟨x.num * y.num, x.den * y.den⟩
  | _, _ => nan

/-- The rounded quotient of two finite numbers. -/
def dividedBy : BinaryFloat p → BinaryFloat p → BinaryFloat p
  | finite s a, finite t b =>
    let x := p.magnitude a
    let y := p.magnitude b
    round p (s != t) ⟨x.num * y.den, x.den * y.num⟩
  | _, _ => nan

/-! ## Whole numbers -/

/-- What a floating point number is among the whole numbers of a width. -/
inductive WholeResult where
  | whole (n : Int)
  | outOfRange
  | fractional
  deriving DecidableEq, Repr

/-- The whole number that a ratio is, if it is one. -/
def wholeOf? (r : Ratio) : Option Nat :=
  if r.num % r.den = 0 then some (r.num / r.den) else none

/-- The whole number of 64 bits that the number is. What lies outside the span of these is told apart
from what lies between two of them. -/
def toLong : BinaryFloat p → WholeResult
  | finite s rank =>
    let r := p.magnitude rank
    let bound := 2 ^ (63 : Nat) * r.den
    if (if s then bound < r.num else bound ≤ r.num) then .outOfRange
    else
      match wholeOf? r with
      | some n => .whole (if s then -n else n)
      | none => .fractional
  | _ => .outOfRange

/-! ## Bits -/

/-- The number whose interchange bits are given. -/
def ofBits (p : Precision) (bits : Nat) : BinaryFloat p :=
  let signBit := 2 ^ (p.exponentBits + p.fractionBits)
  let negative := bits / signBit % 2 = 1
  let rank := bits % signBit
  if h : rank < p.limit then .finite negative ⟨rank, h⟩
  else if rank = p.limit then .infinite negative
  else .nan

/-- The interchange bits of the number; none for NaN, which has many. -/
def toBits? : BinaryFloat p → Option Nat
  | nan => none
  | infinite s => some (s.toNat * 2 ^ (p.exponentBits + p.fractionBits) + p.limit)
  | finite s rank => some (s.toNat * 2 ^ (p.exponentBits + p.fractionBits) + rank)

end BinaryFloat

end MarkupFields
