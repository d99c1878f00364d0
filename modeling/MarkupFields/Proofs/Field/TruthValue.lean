import MarkupFields.Proofs.Field.FromText

/-
  Truth values out of text. Every text is one, and few are false: the empty text, two words in any letter
  case, and decimal numbers that are read as zero. A number is read as zero not only if it is zero, but
  also if it is so small that double precision rounds it to zero, which is from half of the lowest
  magnitude downwards (`ofText_boolean_iff`). Numbers that are too large to be finite are true.

  Not said: that what is read of a number is near it. A number with an exponent beyond what is read, and
  as many places behind the point, is large or small as text but may be read as zero.
-/

namespace MarkupFields

open Text Literal

/-! ## Rounding to zero -/

namespace BinaryFloat

theorem isZero_round_iff {p : Precision} {negative : Bool} {r : Ratio} :
    (round p negative r).isZero = true ↔ p.nearestRank r = 0 := by
  unfold round
  dsimp only
  split
  · exact beq_iff_eq
  · rename_i h
    have hlimit := p.limit_pos
    exact iff_of_false Bool.false_ne_true (by omega)

end BinaryFloat

/-- A decimal number is rounded to zero exactly if what is read of it is at most half of the lowest
magnitude above zero. -/
theorem Literal.Parts.isZero_iff {p : Precision} (x : Parts) :
    (x.literal.toFloat p).isZero = true ↔ 2 * x.readValue ≤ 2 ^ p.minExponent := by
  show (BinaryFloat.round p x.negative _).isZero = true ↔ _
  rw [BinaryFloat.isZero_round_iff, p.nearestRank_eq_zero_iff (den_tenfold_pos _ _), value_tenfold]
  rfl

namespace Conversion

/-! ## What is false -/

/-- The text is a decimal number that is read as zero. -/
def readsZero (cs : List Char) : Bool :=
  ((read? cs).map (toFloat .double)).any BinaryFloat.isZero

theorem readsZero_of_denotesDecimal {cs : List Char} {x : Parts} (hx : DenotesDecimal cs x) :
    readsZero cs = true ↔ x.readValue ≤ 2 ^ (-1075 : Int) := by
  have hread : read? cs = some x.literal := (read?_eq_decimal_iff.2 ⟨x, hx, rfl⟩).1
  have hhalf : (2 : ℚ) ^ Precision.double.minExponent = 2 * 2 ^ (-1075 : Int) := by
    have hmin : Precision.double.minExponent = 1 + -1075 := by decide
    rw [hmin, zpow_add₀ (by norm_num), zpow_one]
  unfold readsZero
  rw [hread, Option.map_some, Option.any_some, Parts.isZero_iff, hhalf,
    mul_le_mul_iff_right₀ (two_pos : (0 : ℚ) < 2)]

theorem readsZero_iff {cs : List Char} :
    readsZero cs = true ↔ ∃ x, DenotesDecimal cs x ∧ x.readValue ≤ 2 ^ (-1075 : Int) := by
  constructor
  · intro h
    obtain ⟨x, hx, -⟩ := (any_read?_iff (fun _ => rfl) rfl).1 h
    exact ⟨x, hx, (readsZero_of_denotesDecimal hx).1 h⟩
  · rintro ⟨x, hx, h⟩
    exact (readsZero_of_denotesDecimal hx).2 h

/-- Among the words that stand for truth values are two digits, which are read as numbers too. -/
theorem booleanOfText_eq_false_iff {raw cs : List Char} :
    booleanOfText raw cs = false ↔ raw = [] ∨ cs.map Char.toLower = "f".toList ∨
      cs.map Char.toLower = "false".toList ∨ readsZero (cs.map Char.toLower) = true := by
  generalize hlower : cs.map Char.toLower = lower
  unfold booleanOfText
  dsimp only
  rw [hlower]
  split_ifs with hempty htrue hfalse
  · exact iff_of_true rfl (.inl (List.isEmpty_iff.1 hempty))
  · refine iff_of_false nofun ?_
    rw [List.isEmpty_iff] at hempty
    rcases htrue with rfl | rfl | rfl
    · exact not_or.2 ⟨hempty, by decide⟩
    · exact not_or.2 ⟨hempty, by decide⟩
    · exact not_or.2 ⟨hempty, by decide⟩
  · refine iff_of_true rfl (.inr ?_)
    rcases hfalse with rfl | rfl | rfl
    · exact .inr (.inr (by decide))
    · exact .inl rfl
    · exact .inr (.inl rfl)
  · rw [List.isEmpty_iff] at hempty
    rw [not_or, not_or] at hfalse
    rw [or_iff_right hempty, or_iff_right hfalse.2.1, or_iff_right hfalse.2.2]
    unfold readsZero
    cases read? lower with
    | none => exact iff_of_false nofun nofun
    | some l =>
      show (!(l.toFloat .double).isZero) = false ↔ (l.toFloat .double).isZero = true
      rw [Bool.not_eq_false']

/-- A decimal number is none of the words that are false. -/
theorem booleanOfText_of_denotesDecimal {raw : List Char} {x : Parts}
    (hx : DenotesDecimal (trim isAsciiSpace raw) x) :
    booleanOfText raw (trim isAsciiSpace raw) = false ↔ x.readValue ≤ 2 ^ (-1075 : Int) := by
  have hlower := denotesDecimal_map_toLower_iff.2 hx
  have hempty : raw ≠ [] := by
    rintro rfl
    exact not_denotesDecimal (by decide) x hx
  have hletter : (trim isAsciiSpace raw).map Char.toLower ≠ "f".toList := by
    intro h
    rw [h] at hlower
    exact not_denotesDecimal (by decide) x hlower
  have hword : (trim isAsciiSpace raw).map Char.toLower ≠ "false".toList := by
    intro h
    rw [h] at hlower
    exact not_denotesDecimal (by decide) x hlower
  rw [booleanOfText_eq_false_iff, or_iff_right hempty, or_iff_right hletter, or_iff_right hword,
    readsZero_of_denotesDecimal hlower]

/-- Text always converts to a truth value. It is false exactly if it is empty or, without the blanks
around it, one of two words in any letter case or a decimal number that is read as zero, which it is if
it is at most half of the lowest magnitude above zero. What is read of a number is the number itself,
unless its exponent is beyond what is read. -/
theorem ofText_boolean_iff (raw : String) :
    ∃ b, ofText raw .boolean = .ok (.boolean b) ∧
      (b = false ↔ raw = "" ∨
        (trim isAsciiSpace raw.toList).map Char.toLower = "f".toList ∨
        (trim isAsciiSpace raw.toList).map Char.toLower = "false".toList ∨
        ∃ x, DenotesDecimal (trim isAsciiSpace raw.toList) x ∧
          x.readValue ≤ 2 ^ (-1075 : Int)) ∧
      ∀ x, DenotesDecimal (trim isAsciiSpace raw.toList) x → x.exponent.natAbs < 655360 →
        (b = false ↔ x.value ≤ 2 ^ (-1075 : Int)) := by
  refine ⟨_, ofText_boolean raw, ?_, fun x hx hsmall => ?_⟩
  · rw [booleanOfText_eq_false_iff, readsZero_iff, String.toList_eq_nil_iff]
    simp only [denotesDecimal_map_toLower_iff]
  · have hbound : 655360 = 10 * exponentBound := rfl
    rw [booleanOfText_of_denotesDecimal hx, Parts.readValue_of_lt (hbound ▸ hsmall)]

/-- Just above half of the lowest magnitude a number is true, just below it is false. -/
theorem ofText_boolean_iff_half :
    ofText "2e-324" .boolean = .ok (.boolean false) ∧
      ofText "-3.0E-324" .boolean = .ok (.boolean true) ∧
      ofText " FALSE\n" .boolean = .ok (.boolean false) := by
  have hlow : DenotesDecimal ([] ++ ("2".toList ++ "e-324".toList)) ⟨false, 2, 0, -324⟩ :=
    .mk .none (.whole (List.cons_ne_nil '2' []) (List.all_eq_true.1 rfl))
      (.lower (.minus (List.cons_ne_nil '3' ['2', '4']) (List.all_eq_true.1 rfl)))
  have hhigh : DenotesDecimal ("-".toList ++ (("3".toList ++ '.' :: "0".toList) ++ "E-324".toList))
      ⟨true, 30, 1, -324⟩ :=
    .mk .minus (.point (List.cons_ne_nil '3' ['0']) (List.all_eq_true.1 rfl)
      (List.all_eq_true.1 rfl))
      (.upper (.minus (List.cons_ne_nil '3' ['2', '4']) (List.all_eq_true.1 rfl)))
  obtain ⟨b, hb, -, hbelow⟩ := ofText_boolean_iff "2e-324"
  obtain ⟨b', hb', -, habove⟩ := ofText_boolean_iff "-3.0E-324"
  obtain ⟨b'', hb'', hword, -⟩ := ofText_boolean_iff " FALSE\n"
  refine ⟨?_, ?_, ?_⟩
  · rw [hb, (hbelow _ hlow (by decide)).2 ((Parts.value_le_iff _ 1075).2 (by decide +kernel))]
  · have htrue : b' ≠ false :=
      mt (habove _ hhigh (by decide)).1 (mt (Parts.value_le_iff _ 1075).1 (by decide +kernel))
    rw [hb', Bool.eq_true_of_not_eq_false htrue]
  · rw [hb'', hword.2 (.inr (.inr (.inl (by decide))))]

/-- A number other than zero is false. -/
theorem not_ofText_boolean_of_ne_zero :
    ∃ x, DenotesDecimal (trim isAsciiSpace "1e-400".toList) x ∧ x.value ≠ 0 ∧
      ofText "1e-400" .boolean = .ok (.boolean false) := by
  have hx : DenotesDecimal ([] ++ ("1".toList ++ "e-400".toList)) ⟨false, 1, 0, -400⟩ :=
    .mk .none (.whole (List.cons_ne_nil '1' []) (List.all_eq_true.1 rfl))
      (.lower (.minus (List.cons_ne_nil '4' ['0', '0']) (List.all_eq_true.1 rfl)))
  refine ⟨_, hx, by norm_num [Parts.value], by decide +kernel⟩

end Conversion

end MarkupFields
