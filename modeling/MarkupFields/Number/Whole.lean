import MarkupFields.Text.Numeral

/-
  Whole numbers of a width. There are four widths; each holds the whole numbers from minus half of
  its span up to just below half of it. Numerals are read digit by digit, and reading ends at the
  first character that is no digit or takes the value out of range.
-/

namespace MarkupFields

open Text Powers

/-- The widths of whole numbers. -/
inductive Width where
  | byte
  | short
  | integer
  | long
  deriving DecidableEq, Repr

namespace Width

/-- The number of bits, the sign included. -/
def bits : Width → Nat
  | byte => 8
  | short => 16
  | integer => 32
  | long => 64

/-- The lowest number of the width. -/
def lowest (w : Width) : Int :=
  -2 ^ (w.bits - 1)

/-- The highest number of the width. -/
def highest (w : Width) : Int :=
  2 ^ (w.bits - 1) - 1

theorem lowest_neg (w : Width) : w.lowest < 0 := by
  cases w <;> decide

theorem highest_pos (w : Width) : 0 < w.highest := by
  cases w <;> decide

end Width

/-- A whole number within a width. -/
structure Whole (w : Width) where
  val : Int
  lowest_le : w.lowest ≤ val
  le_highest : val ≤ w.highest
  deriving DecidableEq, Repr

/-- The number as one of the width, if it is in range. -/
def Whole.ofInt? (w : Width) (n : Int) : Option (Whole w) :=
  if h : w.lowest ≤ n ∧ n ≤ w.highest then some ⟨n, h.1, h.2⟩ else none

theorem Whole.ofInt?_eq_some_iff {w : Width} {n : Int} {x : Whole w} :
    Whole.ofInt? w n = some x ↔ x.val = n := by
  unfold Whole.ofInt?
  constructor
  · split
    · intro h
      rw [← Option.some.inj h]
    · simp
  · rintro rfl
    rw [dif_pos ⟨x.lowest_le, x.le_highest⟩]

/-! ## Numerals -/

/-- What came of reading a numeral. -/
inductive NumeralResult where
  | value (n : Int)
  | outOfRange
  | malformed
  deriving DecidableEq, Repr

/-- Goes on reading digits, of a negative number if so marked, that must stay between two bounds. -/
def continueNumeral (low high : Int) (negative : Bool) (n : Int) : List Char → NumeralResult
  | [] => .value n
  | c :: cs =>
    if c.isDigit then
      let next := if negative then n * 10 - digitValue c else n * 10 + digitValue c
      if low ≤ next ∧ next ≤ high then continueNumeral low high negative next cs else .outOfRange
    else .malformed

/-- Reads a numeral between two bounds: one sign at most, then one digit or more. -/
def readNumeral (low high : Int) (cs : List Char) : NumeralResult :=
  let (negative, digits) :=
    match cs with
    | '-' :: digits => (true, digits)
    | '+' :: digits => (false, digits)
    | digits => (false, digits)
  if digits.isEmpty then .malformed else continueNumeral low high negative 0 digits

end MarkupFields
