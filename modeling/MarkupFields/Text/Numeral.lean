/-
  Numerals: the digits of a base and the number that a row of them denotes. Digits are ASCII; the
  value is computed from the left, so a longer numeral never denotes less than its beginning. Code
  points, which numerals often denote, are turned into characters here too.

  Powers of a base are those of the core library in every file that opens `Powers`, whatever other
  instances a later import brings.
-/

namespace MarkupFields.Powers

scoped instance (priority := 2000) natPower : Pow Nat Nat := instPowNat

scoped instance (priority := 2000) intPower : Pow Int Nat := instPowNat

end MarkupFields.Powers

namespace MarkupFields.Text

/-- An ASCII hexadecimal digit of either case. -/
def isHexDigit (c : Char) : Bool :=
  c.isDigit || decide ('a'.toNat ≤ c.toNat ∧ c.toNat ≤ 'f'.toNat)
    || decide ('A'.toNat ≤ c.toNat ∧ c.toNat ≤ 'F'.toNat)

/-- The value of a digit, letters counting from ten. -/
def digitValue (c : Char) : Nat :=
  if c.toNat ≤ '9'.toNat then c.toNat - '0'.toNat
  else if c.toNat ≤ 'F'.toNat then c.toNat - 'A'.toNat + 10
  else c.toNat - 'a'.toNat + 10

/-- The number that the digits denote, continuing from a value. -/
def numeralFrom (base start : Nat) (digits : List Char) : Nat :=
  digits.foldl (fun n c => n * base + digitValue c) start

/-- The number that the digits denote in the base. -/
def numeral (base : Nat) (digits : List Char) : Nat :=
  numeralFrom base 0 digits

@[simp] theorem numeral_nil (base : Nat) : numeral base [] = 0 := rfl

theorem numeralFrom_cons (base start : Nat) (c : Char) (cs : List Char) :
    numeralFrom base start (c :: cs) = numeralFrom base (start * base + digitValue c) cs := rfl

/-- Further digits never lower the value. -/
theorem le_numeralFrom {base start : Nat} (h : 0 < base) (cs : List Char) :
    start ≤ numeralFrom base start cs := by
  induction cs generalizing start with
  | nil => exact Nat.le_refl _
  | cons c cs ih =>
    rw [numeralFrom_cons]
    refine Nat.le_trans ?_ ih
    exact Nat.le_trans (Nat.le_mul_of_pos_right _ h) (Nat.le_add_right _ _)

/-! ## Code points -/

/-- The character with the code point, if there is one. -/
def charOfCode? (n : Nat) : Option Char :=
  if h : n.isValidChar then some (Char.ofNatAux n h) else none

theorem toNat_le (c : Char) : c.toNat ≤ 0x10FFFF := by
  rcases c.valid with h | ⟨-, h⟩
  · exact Nat.le_trans (Nat.le_of_lt h) (by decide)
  · exact Nat.le_of_lt_succ h

theorem charOfCode?_eq_some_iff {n : Nat} {c : Char} : charOfCode? n = some c ↔ c.toNat = n := by
  unfold charOfCode?
  by_cases h : n.isValidChar
  · have hval : (Char.ofNatAux n h).toNat = n := rfl
    rw [dif_pos h, Option.some.injEq, ← Char.toNat_inj, hval]
    exact eq_comm
  · rw [dif_neg h]
    refine iff_of_false (Option.some_ne_none c ∘ Eq.symm) ?_
    rintro rfl
    exact h c.valid

end MarkupFields.Text
