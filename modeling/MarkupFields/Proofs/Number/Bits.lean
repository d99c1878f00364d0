import MarkupFields.Proofs.Number.Rounding

/-
  What a floating point number is worth. Its exact value is a rational number, which its interchange
  bits say field by field: sign, exponent, fraction (`value?_ofBits`). Among the whole numbers of 64
  bits a number is told apart by its value alone: it is one of them, lies between two of them, or lies
  beyond them all, as what is not finite does (`toLong_tells`).
-/

namespace MarkupFields

/-! ## Values of ratios -/

namespace Ratio

variable {r : Ratio}

theorem value_nonneg (r : Ratio) : 0 ≤ r.value :=
  div_nonneg (Nat.cast_nonneg _) (Nat.cast_nonneg _)

theorem le_value_iff (hd : 0 < r.den) (n : Nat) : (n : ℚ) ≤ r.value ↔ n * r.den ≤ r.num := by
  unfold value
  rw [le_div_iff₀ (Nat.cast_pos.2 hd)]
  exact_mod_cast Iff.rfl

theorem value_le_iff (hd : 0 < r.den) (n : Nat) : r.value ≤ (n : ℚ) ↔ r.num ≤ n * r.den := by
  unfold value
  rw [div_le_iff₀ (Nat.cast_pos.2 hd)]
  exact_mod_cast Iff.rfl

theorem value_eq_iff (hd : 0 < r.den) (n : Nat) : r.value = n ↔ r.num = n * r.den := by
  rw [le_antisymm_iff, le_value_iff hd, value_le_iff hd, ← le_antisymm_iff]

end Ratio

/-! ## Bits -/

namespace Precision

/-- What is taken from the exponent that is stored. -/
def bias (p : Precision) : Int :=
  2 ^ (p.exponentBits - 1) - 1

/-- The magnitude that an exponent and a fraction stand for. The fraction comes behind a one, which is
left out at the lowest exponent. -/
def valueOfFields (p : Precision) (exponent fraction : Nat) : ℚ :=
  if exponent = 0 then fraction / 2 ^ p.fractionBits * 2 ^ (1 - p.bias)
  else (1 + fraction / 2 ^ p.fractionBits) * 2 ^ (exponent - p.bias)

/-- The value that interchange bits stand for: those of the fraction, above them those of the exponent
and one for the sign. At the highest exponent there is no value. -/
def valueOfBits? (p : Precision) (bits : Nat) : Option ℚ :=
  let fraction := bits % 2 ^ p.fractionBits
  let exponent := bits / 2 ^ p.fractionBits % 2 ^ p.exponentBits
  let negative := bits / 2 ^ (p.exponentBits + p.fractionBits) % 2 = 1
  if exponent = 2 ^ p.exponentBits - 1 then none
  else some ((if negative then -1 else 1) * p.valueOfFields exponent fraction)

/-- A rank is made of an exponent and a fraction. -/
theorem value_magnitude (p : Precision) (rank : Nat) :
    (p.magnitude rank).value =
      p.valueOfFields (rank / 2 ^ p.fractionBits) (rank % 2 ^ p.fractionBits) := by
  have hspan : p.span = 2 ^ p.fractionBits := rfl
  have hpos := p.span_pos
  have htwo : (2 : ℚ) ≠ 0 := by norm_num
  have hcast : ((2 ^ p.fractionBits : Nat) : ℚ) = 2 ^ p.fractionBits := by push_cast; rfl
  have hne : ((2 : ℚ) ^ p.fractionBits) ≠ 0 := pow_ne_zero _ htwo
  have hbits : 1 ≤ p.exponentBits := by cases p <;> decide
  have hmin : p.minExponent = 1 - p.bias - p.fractionBits := by
    unfold minExponent bias
    omega
  rw [show p.magnitude rank = Ratio.scaled (p.parts rank).1 (p.parts rank).2 from rfl,
    Ratio.value_scaled]
  unfold parts valueOfFields
  rw [hspan] at hpos ⊢
  by_cases h : rank < 2 ^ p.fractionBits
  · rw [if_pos h, if_pos (Nat.div_eq_of_lt h), Nat.mod_eq_of_lt h, hmin, zpow_sub₀ htwo,
      zpow_natCast]
    field_simp
  · have hdiv : 0 < rank / 2 ^ p.fractionBits := Nat.div_pos (Nat.le_of_not_lt h) hpos
    have hexp : p.minExponent + (rank / 2 ^ p.fractionBits - 1 : Nat) =
        (rank / 2 ^ p.fractionBits : Nat) - p.bias - p.fractionBits := by omega
    rw [if_neg h, if_neg hdiv.ne', hexp, zpow_sub₀ htwo, zpow_natCast, Nat.cast_add, hcast]
    field_simp

end Precision

namespace BinaryFloat

variable {p : Precision}

/-- The exact value of a number, if it is finite. -/
def value? : BinaryFloat p → Option ℚ
  | finite negative rank => some ((if negative then -1 else 1) * (p.magnitude rank).value)
  | _ => none

/-- The number with the bits has the value that they stand for. -/
theorem value?_ofBits (p : Precision) (bits : Nat) : (ofBits p bits).value? = p.valueOfBits? bits := by
  have hspan : p.span = 2 ^ p.fractionBits := rfl
  have hpow : 2 ^ (p.exponentBits + p.fractionBits) = 2 ^ p.fractionBits * 2 ^ p.exponentBits := by
    rw [Nat.add_comm, Nat.pow_add]
  have hfraction : bits % 2 ^ (p.exponentBits + p.fractionBits) % 2 ^ p.fractionBits =
      bits % 2 ^ p.fractionBits := by
    rw [hpow, Nat.mod_mul_right_mod]
  have hexponent : bits % 2 ^ (p.exponentBits + p.fractionBits) / 2 ^ p.fractionBits =
      bits / 2 ^ p.fractionBits % 2 ^ p.exponentBits := by
    rw [hpow, Nat.mod_mul_right_div_self]
  have hlt : bits / 2 ^ p.fractionBits % 2 ^ p.exponentBits < 2 ^ p.exponentBits :=
    Nat.mod_lt _ (Nat.two_pow_pos _)
  have hlimit : bits % 2 ^ (p.exponentBits + p.fractionBits) < p.limit ↔
      ¬ bits / 2 ^ p.fractionBits % 2 ^ p.exponentBits = 2 ^ p.exponentBits - 1 := by
    unfold Precision.limit
    rw [← Nat.div_lt_iff_lt_mul p.span_pos, hspan, hexponent]
    omega
  unfold ofBits Precision.valueOfBits?
  dsimp only
  by_cases h : bits % 2 ^ (p.exponentBits + p.fractionBits) < p.limit
  · rw [dif_pos h, if_neg (hlimit.1 h)]
    unfold value?
    dsimp only
    rw [p.value_magnitude, hexponent, hfraction]
    simp only [decide_eq_true_eq]
  · rw [dif_neg h, if_pos (not_not.1 (mt hlimit.2 h))]
    split
    · rfl
    · rfl

theorem value?_zero (negative : Bool) : (finite negative ⟨0, p.limit_pos⟩).value? = some 0 := by
  have hmagnitude : (p.magnitude 0).value = 0 := by
    rw [p.value_magnitude, Nat.zero_div, Nat.zero_mod]
    unfold Precision.valueOfFields
    rw [if_pos rfl, Nat.cast_zero, zero_div, zero_mul]
  unfold value?
  dsimp only
  rw [hmagnitude, mul_zero]

/-- The bit of the sign on its own is a zero. -/
theorem ofBits_signBit (p : Precision) :
    ofBits p (2 ^ (p.exponentBits + p.fractionBits)) = finite true ⟨0, p.limit_pos⟩ := by
  cases p <;> rfl

/-! ## Among the whole numbers -/

/-- What a value is among the whole numbers of 64 bits; without a value it is beyond them. -/
inductive Tells : Option ℚ → WholeResult → Prop
  | whole {q : ℚ} {n : Int} (low : -2 ^ 63 ≤ q) (high : q < 2 ^ 63) (h : q = n) :
    Tells (some q) (.whole n)
  | fractional {q : ℚ} (low : -2 ^ 63 ≤ q) (high : q < 2 ^ 63) (h : ∀ n : Int, q ≠ n) :
    Tells (some q) .fractional
  | beyond {q : ℚ} (h : q < -2 ^ 63 ∨ 2 ^ 63 ≤ q) : Tells (some q) .outOfRange
  | none : Tells none .outOfRange

theorem Tells.eq_some {v : Option ℚ} {n : Int} (h : Tells v (.whole n)) : v = some (n : ℚ) := by
  cases h with
  | whole _ _ hq => rw [hq]

theorem Tells.unique {v : Option ℚ} {a b : WholeResult} (ha : Tells v a) (hb : Tells v b) :
    a = b := by
  cases ha with
  | whole low high h =>
    cases hb with
    | whole _ _ h' => rw [Int.cast_injective (h.symm.trans h')]
    | fractional _ _ h' => exact absurd h (h' _)
    | beyond h' => exact absurd h' (not_or.2 ⟨not_lt.2 low, not_le.2 high⟩)
  | fractional low high h =>
    cases hb with
    | whole _ _ h' => exact absurd h' (h _)
    | fractional => rfl
    | beyond h' => exact absurd h' (not_or.2 ⟨not_lt.2 low, not_le.2 high⟩)
  | beyond h =>
    cases hb with
    | whole low high _ => exact absurd h (not_or.2 ⟨not_lt.2 low, not_le.2 high⟩)
    | fractional low high _ => exact absurd h (not_or.2 ⟨not_lt.2 low, not_le.2 high⟩)
    | beyond => rfl
  | none =>
    cases hb
    rfl

theorem wholeOf?_eq_some_iff {r : Ratio} (hd : 0 < r.den) {n : Nat} :
    wholeOf? r = some n ↔ r.value = n := by
  rw [Ratio.value_eq_iff hd]
  unfold wholeOf?
  constructor
  · intro h
    split at h
    · rename_i hmod
      rw [← Option.some.inj h]
      exact (Nat.div_mul_cancel (Nat.dvd_of_mod_eq_zero hmod)).symm
    · cases h
  · intro h
    rw [h, Nat.mul_mod_left, if_pos rfl, Nat.mul_div_cancel _ hd]

theorem wholeOf?_eq_none {r : Ratio} (hd : 0 < r.den) (h : wholeOf? r = none) (n : Int) :
    r.value ≠ n := by
  intro hn
  have hpos : 0 ≤ n := by
    have := hn ▸ r.value_nonneg
    exact_mod_cast this
  obtain ⟨k, rfl⟩ := Int.eq_ofNat_of_zero_le hpos
  rw [(wholeOf?_eq_some_iff hd).2 (by exact_mod_cast hn)] at h
  cases h

/-- A number is told apart by its value. -/
theorem toLong_tells (x : BinaryFloat p) : Tells x.value? x.toLong := by
  cases x with
  | nan => exact .none
  | infinite negative => exact .none
  | finite negative rank =>
    have hd := p.den_magnitude_pos rank
    have hnonneg := (p.magnitude rank).value_nonneg
    have hle : (2 : ℚ) ^ 63 ≤ (p.magnitude rank).value ↔
        2 ^ 63 * (p.magnitude rank).den ≤ (p.magnitude rank).num := by
      exact_mod_cast Ratio.le_value_iff hd (2 ^ 63)
    have hlt : (2 : ℚ) ^ 63 < (p.magnitude rank).value ↔
        2 ^ 63 * (p.magnitude rank).den < (p.magnitude rank).num := by
      rw [← not_le, ← Nat.not_le]
      exact_mod_cast not_congr (Ratio.value_le_iff hd (2 ^ 63))
    have hsome := @wholeOf?_eq_some_iff (p.magnitude rank) hd
    have hnone := @wholeOf?_eq_none (p.magnitude rank) hd
    unfold value? toLong
    dsimp only
    generalize (p.magnitude rank).value = q at *
    generalize wholeOf? (p.magnitude rank) = found at *
    cases negative with
    | false =>
      simp only [Bool.false_eq_true, if_false, one_mul]
      by_cases hout : 2 ^ 63 ≤ q
      · rw [if_pos (hle.1 hout)]
        exact .beyond (.inr hout)
      · rw [if_neg (mt hle.2 hout)]
        have hlow : -2 ^ 63 ≤ q := by linarith
        cases found with
        | some n => exact .whole hlow (not_le.1 hout) ((hsome.1 rfl).trans (Int.cast_natCast n).symm)
        | none => exact .fractional hlow (not_le.1 hout) (hnone rfl)
    | true =>
      -- the bound itself belongs to the numbers below zero
      simp only [if_true, neg_mul, one_mul]
      by_cases hout : 2 ^ 63 < q
      · rw [if_pos (hlt.1 hout)]
        exact .beyond (.inl (neg_lt_neg hout))
      · rw [if_neg (mt hlt.2 hout)]
        have hlow : -2 ^ 63 ≤ -q := neg_le_neg (not_lt.1 hout)
        have hhigh : -q < 2 ^ 63 := by linarith
        cases found with
        | some n =>
          refine .whole hlow hhigh ?_
          rw [hsome.1 rfl, Int.cast_neg, Int.cast_natCast]
        | none =>
          refine .fractional hlow hhigh fun n hn => hnone rfl (-n) ?_
          rw [Int.cast_neg, ← hn, neg_neg]

end BinaryFloat

end MarkupFields
