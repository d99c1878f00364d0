import MarkupFields.Proofs.Field.FromText
import MarkupFields.Proofs.Number.Bits

/-
  Whole numbers out of floating point numbers. Of the bits of a number only the exact value counts: the
  number converts to a whole number type exactly if the value is a number of the type, and to a
  character exactly if it is a code point (`convert_ofBits_iff`). Nothing is rounded on the way. What is
  beyond 64 bits is out of range whatever the type, and so is what has no value; a value between two
  whole numbers of 64 bits is told apart from that as fractional.

  The upper end of 64 bits is itself no number of them while the lower end is, and a precision has both.
-/

namespace MarkupFields

open BinaryFloat

namespace Conversion

/-! ## By way of 64 bits -/

/-- Takes a floating point number for a whole number of 64 bits and goes on to a value, if there is one
for the number. -/
def throughLong {p : Precision} (r : FailureReason) (f : Int → Option Value) (x : BinaryFloat p) :
    Conversion :=
  match x.toLong with
  | .whole n => ofOption r (f n)
  | .outOfRange => failed .overflow
  | .fractional => failed .fractional

section
variable {p : Precision} {r : FailureReason} {f : Int → Option Value} {x : BinaryFloat p}

/-- Where values are only for numbers of 64 bits, a number gives a value exactly if it is worth a whole
number with that value. -/
theorem throughLong_eq_ok_iff {v : Value} (hf : ∀ n v, f n = some v → -2 ^ 63 ≤ n ∧ n < 2 ^ 63) :
    throughLong r f x = .ok v ↔ ∃ n : Int, x.value? = some (n : ℚ) ∧ f n = some v := by
  have htells := toLong_tells x
  constructor
  · intro h
    unfold throughLong at h
    split at h
    · rename_i n hn
      rw [hn] at htells
      exact ⟨n, htells.eq_some, ofOption_eq_ok_iff.1 h⟩
    · cases h
    · cases h
  · rintro ⟨n, hn, hv⟩
    obtain ⟨hlow, hhigh⟩ := hf n v hv
    rw [hn] at htells
    have hwhole := htells.unique (.whole (by exact_mod_cast hlow) (by exact_mod_cast hhigh) rfl)
    unfold throughLong
    rw [hwhole]
    exact ofOption_eq_ok_iff.2 hv

/-- What is beyond 64 bits or has no value is out of range. -/
theorem throughLong_of_beyond (h : ∀ q, x.value? = some q → q < -2 ^ 63 ∨ 2 ^ 63 ≤ q) :
    throughLong r f x = failed .overflow := by
  have hout : Tells x.value? .outOfRange := by
    cases hv : x.value? with
    | none => exact .none
    | some q => exact .beyond (h q hv)
  unfold throughLong
  rw [(toLong_tells x).unique hout]

/-- What lies between two whole numbers of 64 bits is fractional. -/
theorem throughLong_of_between {q : ℚ} (hq : x.value? = some q) (hlow : -2 ^ 63 ≤ q)
    (hhigh : q < 2 ^ 63) (hbetween : ∀ n : Int, q ≠ n) : throughLong r f x = failed .fractional := by
  have hfractional : Tells x.value? .fractional := hq ▸ .fractional hlow hhigh hbetween
  unfold throughLong
  rw [(toLong_tells x).unique hfractional]

theorem ok_or_failed_throughLong (r : FailureReason) (f : Int → Option Value) (x : BinaryFloat p) :
    (∃ v, throughLong r f x = .ok v) ∨ ∃ e, throughLong r f x = failed e := by
  unfold throughLong
  split
  · exact ok_or_failed_ofOption r _
  · exact .inr ⟨_, rfl⟩
  · exact .inr ⟨_, rfl⟩

end

end Conversion

namespace Value

open Conversion

/-! ## What a number converts to -/

/-- Whole number types and characters are reached in the same way. -/
theorem exists_throughLong {t : FieldType} (ht : t.isWhole = true ∨ t = .char) :
    ∃ r f, ∀ {p : Precision} (x : BinaryFloat p), (floating p x).convert t = throughLong r f x := by
  rcases t with _ | _ | w | _ | _
  · exact absurd ht (by decide)
  · exact ⟨.invalidCodePoint, fun n => (charOfInt? n).map .char, fun _ => rfl⟩
  · exact ⟨.overflow, fun n => (Whole.ofInt? w n).map (.whole w), fun _ => rfl⟩
  · exact absurd ht (by rintro (h | h) <;> cases h)
  · exact absurd ht (by decide)

section
variable {p : Precision} {x : BinaryFloat p} {v : Value}

theorem convert_floating_whole_iff {w : Width} :
    (floating p x).convert (.whole w) = .ok v ↔
      ∃ n : Whole w, v = .whole w n ∧ x.value? = some (n.val : ℚ) := by
  have hlong : -2 ^ 63 ≤ w.lowest ∧ w.highest < 2 ^ 63 := by cases w <;> decide
  show throughLong .overflow (fun n => (Whole.ofInt? w n).map (.whole w)) x = _ ↔ _
  rw [throughLong_eq_ok_iff]
  · constructor
    · rintro ⟨_, hm, hv⟩
      obtain ⟨n, rfl, rfl⟩ := map_whole_eq_some_iff.1 hv
      exact ⟨n, rfl, hm⟩
    · rintro ⟨n, rfl, hn⟩
      exact ⟨n.val, hn, map_whole_eq_some_iff.2 ⟨n, rfl, rfl⟩⟩
  · intro _ _ hv
    obtain ⟨n, -, rfl⟩ := map_whole_eq_some_iff.1 hv
    exact ⟨hlong.1.trans n.lowest_le, n.le_highest.trans_lt hlong.2⟩

theorem convert_floating_char_iff :
    (floating p x).convert .char = .ok v ↔
      ∃ c : Char, v = .char c ∧ x.value? = some (c.toNat : ℚ) := by
  show throughLong .invalidCodePoint (fun n => (charOfInt? n).map .char) x = _ ↔ _
  rw [throughLong_eq_ok_iff]
  · constructor
    · rintro ⟨_, hm, hv⟩
      obtain ⟨c, rfl, rfl⟩ := map_char_eq_some_iff.1 hv
      exact ⟨c, rfl, by rw [hm, Int.cast_natCast]⟩
    · rintro ⟨c, rfl, hc⟩
      exact ⟨c.toNat, by rw [hc, Int.cast_natCast], map_char_eq_some_iff.2 ⟨c, rfl, rfl⟩⟩
  · intro _ _ hv
    obtain ⟨c, -, rfl⟩ := map_char_eq_some_iff.1 hv
    have hcode := Text.toNat_le c
    omega

end

/-- A floating point number, given by its bits, converts to a whole number exactly if its value is that
number, which is within the width, and to a character exactly if its value is the code point. Otherwise
the conversion fails: as out of range where there is no value among the numbers of 64 bits and those
between them, and as fractional where it lies between two. Minus zero is zero, and the lowest number of
64 bits converts. -/
theorem convert_ofBits_iff (p : Precision) (bits : Nat) :
    (∀ (w : Width) (v : Value), (floating p (ofBits p bits)).convert (.whole w) = .ok v ↔
      ∃ n : Whole w, v = .whole w n ∧ p.valueOfBits? bits = some (n.val : ℚ)) ∧
    (∀ v : Value, (floating p (ofBits p bits)).convert .char = .ok v ↔
      ∃ c : Char, v = .char c ∧ p.valueOfBits? bits = some (c.toNat : ℚ)) ∧
    (∀ t : FieldType, t.isWhole = true ∨ t = .char →
      ((∀ v, (floating p (ofBits p bits)).convert t ≠ .ok v) →
        ∃ r, (floating p (ofBits p bits)).convert t = .failed r) ∧
      ((∀ q, p.valueOfBits? bits = some q → q < -2 ^ 63 ∨ 2 ^ 63 ≤ q) →
        (floating p (ofBits p bits)).convert t = .failed .overflow) ∧
      ∀ q, p.valueOfBits? bits = some q → -2 ^ 63 ≤ q → q < 2 ^ 63 → (∀ n : Int, q ≠ n) →
        (floating p (ofBits p bits)).convert t = .failed .fractional) ∧
    (bits = 2 ^ (p.exponentBits + p.fractionBits) → ∀ w : Width, ∃ n : Whole w, n.val = 0 ∧
      (floating p (ofBits p bits)).convert (.whole w) = .ok (.whole w n)) ∧
    (p.valueOfBits? bits = some (-2 ^ 63) → ∃ n : Whole .long, n.val = -2 ^ 63 ∧
      (floating p (ofBits p bits)).convert (.whole .long) = .ok (.whole .long n)) := by
  rw [← value?_ofBits]
  refine ⟨fun _ _ => convert_floating_whole_iff, fun _ => convert_floating_char_iff,
    fun t ht => ?_, ?_, fun h => ?_⟩
  · obtain ⟨r, f, hthrough⟩ := exists_throughLong ht
    rw [hthrough]
    refine ⟨fun hno => ?_, throughLong_of_beyond,
      fun q hq hlow hhigh hbetween => throughLong_of_between hq hlow hhigh hbetween⟩
    rcases ok_or_failed_throughLong r f (ofBits p bits) with ⟨v, hv⟩ | he
    · exact absurd hv (hno v)
    · exact he
  · rintro rfl w
    refine ⟨⟨0, w.lowest_neg.le, w.highest_pos.le⟩, rfl, convert_floating_whole_iff.2 ⟨_, rfl, ?_⟩⟩
    rw [ofBits_signBit, value?_zero, Int.cast_zero]
  · refine ⟨⟨-2 ^ 63, by decide, by decide⟩, rfl, convert_floating_whole_iff.2 ⟨_, rfl, ?_⟩⟩
    rw [h]
    norm_num

/-- Two to the 63rd is out of range and its negative is not; a half is fractional, minus zero is zero
and what is no number is out of range. -/
theorem convert_ofBits_iff_limits :
    (floating .double (ofBits .double 0x43E0000000000000)).convert (.whole .long) =
        .failed .overflow ∧
      (∃ n : Whole .long, n.val = -2 ^ 63 ∧
        (floating .double (ofBits .double 0xC3E0000000000000)).convert (.whole .long) =
          .ok (.whole .long n)) ∧
      (floating .single (ofBits .single 0x3F000000)).convert .char = .failed .fractional ∧
      (∃ n : Whole .byte, n.val = 0 ∧
        (floating .single (ofBits .single 0x80000000)).convert (.whole .byte) =
          .ok (.whole .byte n)) ∧
      (floating .single (ofBits .single 0x7FC00000)).convert (.whole .byte) = .failed .overflow := by
  have hhigh : Precision.double.valueOfBits? 0x43E0000000000000 = some (2 ^ 63) := by
    norm_num [Precision.valueOfBits?, Precision.valueOfFields, Precision.bias,
      Precision.fractionBits, Precision.exponentBits]
  have hlow : Precision.double.valueOfBits? 0xC3E0000000000000 = some (-2 ^ 63) := by
    norm_num [Precision.valueOfBits?, Precision.valueOfFields, Precision.bias,
      Precision.fractionBits, Precision.exponentBits]
  have hhalf : Precision.single.valueOfBits? 0x3F000000 = some (1 / 2) := by
    norm_num [Precision.valueOfBits?, Precision.valueOfFields, Precision.bias,
      Precision.fractionBits, Precision.exponentBits]
  have hnan : Precision.single.valueOfBits? 0x7FC00000 = none := by decide
  have hbetween : ∀ n : Int, (1 / 2 : ℚ) ≠ n := by
    intro n hn
    have htwo : (1 : ℚ) = (2 * n : Int) := by
      rw [Int.cast_mul, ← hn]
      norm_num
    have hodd : (1 : Int) = 2 * n := by exact_mod_cast htwo
    omega
  obtain ⟨-, -, hdouble, -, -⟩ := convert_ofBits_iff .double 0x43E0000000000000
  obtain ⟨-, -, -, -, hlowest⟩ := convert_ofBits_iff .double 0xC3E0000000000000
  obtain ⟨-, -, hsingle, -, -⟩ := convert_ofBits_iff .single 0x3F000000
  obtain ⟨-, -, -, hzero, -⟩ := convert_ofBits_iff .single 0x80000000
  obtain ⟨-, -, hnone, -, -⟩ := convert_ofBits_iff .single 0x7FC00000
  refine ⟨(hdouble _ (.inl rfl)).2.1 fun q hq => ?_, hlowest hlow,
    (hsingle _ (.inr rfl)).2.2 _ hhalf (by norm_num) (by norm_num) hbetween, hzero rfl .byte,
    (hnone _ (.inl rfl)).2.1 fun q hq => ?_⟩
  · rw [hhigh] at hq
    exact .inr (Option.some.inj hq).le
  · rw [hnan] at hq
    cases hq

end Value

end MarkupFields
