import MarkupFields.Proofs.Field.FromText

/-
  Why a text gives no whole number. A numeral is refused as out of range exactly if its number is beyond
  the width. But reading ends where the bounds are left, so any text that begins with such a numeral is
  out of range as well, be it a number with a point or none at all (`ofText_whole_failed_iff`). Only of
  the others is it asked what they are: a decimal number that is finite in double precision is refused as
  fractional, everything else as malformed.
-/

namespace MarkupFields

open Text Literal

/-- The text begins with a numeral of a number beyond the bounds. -/
def BeginsBeyond (low high : Int) (cs : List Char) : Prop :=
  ∃ front n, front <+: cs ∧ Denotes front n ∧ ¬ (low ≤ n ∧ n ≤ high)

/-- A numeral is a decimal number without a point or an exponent. -/
theorem Denotes.denotesDecimal {cs : List Char} {n : Int} (h : Denotes cs n) :
    ∃ x, DenotesDecimal cs x := by
  obtain ⟨sign, ds, negative, rfl, hsign, hne, hd, -⟩ := h.exists_sign
  have hdecimal : DenotesDecimal (sign ++ (ds ++ [])) ⟨negative, numeral 10 ds, 0, 0⟩ :=
    .mk hsign (.whole hne hd) .none
  rw [List.append_nil] at hdecimal
  exact ⟨_, hdecimal⟩

namespace Conversion

/-! ## Reasons -/

theorem readsFinite_iff {cs : List Char} :
    readsFinite cs = true ↔
      ∃ x, DenotesDecimal cs x ∧ (x.literal.toFloat .double).isFinite = true :=
  any_read?_iff (fun _ => rfl) rfl

section
variable {low high : Int} {cs : List Char}

theorem wholeOfText_eq_overflow_iff (hlow : low ≤ 0) (hhigh : 0 ≤ high) :
    wholeOfText low high cs = .error .overflow ↔ BeginsBeyond low high cs := by
  unfold BeginsBeyond
  rw [← readNumeral_eq_outOfRange_iff hlow hhigh]
  unfold wholeOfText malformedReason
  cases readNumeral low high cs with
  | value n => exact ⟨nofun, nofun⟩
  | outOfRange => exact ⟨fun _ => rfl, fun _ => rfl⟩
  | malformed =>
    refine ⟨fun h => ?_, nofun⟩
    dsimp only at h
    split at h <;> cases h

/-- A text that neither is a numeral nor begins with one beyond the bounds is looked at as a whole. -/
theorem wholeOfText_of_not_denotes (hlow : low ≤ 0) (hhigh : 0 ≤ high)
    (hbeyond : ¬ BeginsBeyond low high cs) (hdenotes : ∀ n, ¬ Denotes cs n) :
    wholeOfText low high cs = .error (malformedReason cs) := by
  unfold wholeOfText
  cases hread : readNumeral low high cs with
  | value n => exact absurd ((readNumeral_eq_value_iff hlow hhigh).1 hread).1 (hdenotes n)
  | outOfRange => exact absurd ((readNumeral_eq_outOfRange_iff hlow hhigh).1 hread) hbeyond
  | malformed => rfl

/-- What is no number is malformed, unless a beginning of it is out of range. -/
theorem wholeOfText_eq_format_iff (hlow : low ≤ 0) (hhigh : 0 ≤ high)
    (hnone : ∀ x, ¬ DenotesDecimal cs x) :
    wholeOfText low high cs = .error .format ↔ ¬ BeginsBeyond low high cs := by
  have hbeyond := @wholeOfText_eq_overflow_iff low high cs hlow hhigh
  constructor
  · intro h hb
    rw [hbeyond.2 hb] at h
    cases h
  · intro hnot
    have hdenotes : ∀ n, ¬ Denotes cs n := by
      intro n hn
      obtain ⟨x, hx⟩ := hn.denotesDecimal
      exact hnone x hx
    have hfinite : ¬ readsFinite cs = true := by
      intro h
      obtain ⟨x, hx, -⟩ := readsFinite_iff.1 h
      exact hnone x hx
    rw [wholeOfText_of_not_denotes hlow hhigh hnot hdenotes]
    unfold malformedReason
    rw [if_neg hfinite]

/-- A decimal number that is no numeral is fractional, unless a beginning of it is out of range. -/
theorem wholeOfText_eq_fractional_iff (hlow : low ≤ 0) (hhigh : 0 ≤ high) :
    wholeOfText low high cs = .error .fractional ↔
      ¬ BeginsBeyond low high cs ∧ (∀ n, ¬ Denotes cs n) ∧
        ∃ x, DenotesDecimal cs x ∧ (x.literal.toFloat .double).isFinite = true := by
  rw [← readsFinite_iff]
  constructor
  · intro h
    have hnot : ¬ BeginsBeyond low high cs := by
      intro hb
      rw [(wholeOfText_eq_overflow_iff hlow hhigh).2 hb] at h
      cases h
    have hdenotes : ∀ n, ¬ Denotes cs n := by
      intro n hn
      by_cases hin : low ≤ n ∧ n ≤ high
      · rw [(wholeOfText_eq_ok_iff hlow hhigh).2 ⟨hn, hin⟩] at h
        cases h
      · exact hnot ⟨cs, n, List.prefix_rfl, hn, hin⟩
    refine ⟨hnot, hdenotes, ?_⟩
    rw [wholeOfText_of_not_denotes hlow hhigh hnot hdenotes] at h
    unfold malformedReason at h
    split at h
    · assumption
    · cases h
  · rintro ⟨hnot, hdenotes, hfinite⟩
    rw [wholeOfText_of_not_denotes hlow hhigh hnot hdenotes]
    unfold malformedReason
    rw [if_pos hfinite]

end

section
variable {raw : String} {w : Width}

theorem ofText_whole_eq_failed_iff {r : FailureReason} :
    ofText raw (.whole w) = failed r ↔
      wholeOfText w.lowest w.highest (trim isAsciiSpace raw.toList) = .error r := by
  rw [ofText_whole]
  unfold throughWhole
  constructor
  · intro h
    split at h
    · rename_i n hn
      obtain ⟨-, hin⟩ := (wholeOfText_eq_ok_iff w.lowest_neg.le w.highest_pos.le).1 hn
      have hwhole : Whole.ofInt? w n = some ⟨n, hin.1, hin.2⟩ := Whole.ofInt?_eq_some_iff.2 rfl
      dsimp only at h
      rw [hwhole] at h
      cases h
    · rename_i e he
      rw [he, Conversion.failed.inj h]
  · intro h
    rw [h]

/-- A numeral that is not refused is within the width. -/
theorem ofText_whole_of_denotes {n : Int} (h : Denotes (trim isAsciiSpace raw.toList) n) :
    ofText raw (.whole w) = failed .overflow ↔ ¬ (w.lowest ≤ n ∧ n ≤ w.highest) := by
  constructor
  · rintro hfailed hin
    have hok : ofText raw (.whole w) = .ok (.whole w ⟨n, hin.1, hin.2⟩) :=
      ofText_whole_eq_ok_iff.2 ⟨_, rfl, holdsNumeral_iff.2 h⟩
    rw [hok] at hfailed
    cases hfailed
  · intro hout
    exact throughWhole_of_out w.lowest_neg.le w.highest_pos.le h hout

end

/-- A text is out of range for a whole number type exactly if, without the blanks around it, it begins
with a numeral of a number beyond the width; a numeral itself exactly if its number is. A text that is no
number at all is malformed exactly if it does not begin so. -/
theorem ofText_whole_failed_iff (raw : String) (w : Width) :
    (ofText raw (.whole w) = failed .overflow ↔
      BeginsBeyond w.lowest w.highest (trim isAsciiSpace raw.toList)) ∧
    (∀ n, Denotes (trim isAsciiSpace raw.toList) n →
      (ofText raw (.whole w) = failed .overflow ↔ ¬ (w.lowest ≤ n ∧ n ≤ w.highest))) ∧
    ((∀ x, ¬ DenotesDecimal (trim isAsciiSpace raw.toList) x) →
      (ofText raw (.whole w) = failed .format ↔
        ¬ BeginsBeyond w.lowest w.highest (trim isAsciiSpace raw.toList))) ∧
    (ofText raw (.whole w) = failed .fractional ↔
      ¬ BeginsBeyond w.lowest w.highest (trim isAsciiSpace raw.toList) ∧
        (∀ n, ¬ Denotes (trim isAsciiSpace raw.toList) n) ∧
        ∃ x, DenotesDecimal (trim isAsciiSpace raw.toList) x ∧
          (x.literal.toFloat .double).isFinite = true) := by
  refine ⟨?_, fun n hn => ofText_whole_of_denotes hn, fun hnone => ?_, ?_⟩
  · rw [ofText_whole_eq_failed_iff]
    exact wholeOfText_eq_overflow_iff w.lowest_neg.le w.highest_pos.le
  · rw [ofText_whole_eq_failed_iff]
    exact wholeOfText_eq_format_iff w.lowest_neg.le w.highest_pos.le hnone
  · rw [ofText_whole_eq_failed_iff]
    exact wholeOfText_eq_fractional_iff w.lowest_neg.le w.highest_pos.le

/-- Of two texts that are no numbers the one with the larger numeral in front is out of range, the other
is malformed. -/
theorem ofText_whole_failed_iff_unended :
    ofText "128x" (.whole .byte) = failed .overflow ∧
      ofText "127x" (.whole .byte) = failed .format ∧
      ofText "-129" (.whole .byte) = failed .overflow := by
  have hfront : Denotes "128".toList 128 :=
    .plain (List.cons_ne_nil _ _) (List.all_eq_true.1 rfl)
  have hnegative : Denotes "-129".toList (-129) :=
    .minus (List.cons_ne_nil _ _) (List.all_eq_true.1 rfl)
  obtain ⟨hlarge, -, -, -⟩ := ofText_whole_failed_iff "128x" .byte
  obtain ⟨hsmall, -, hnone, -⟩ := ofText_whole_failed_iff "127x" .byte
  obtain ⟨-, hnumeral, -, -⟩ := ofText_whole_failed_iff "-129" .byte
  refine ⟨hlarge.2 ⟨"128".toList, 128, by decide, hfront, by decide⟩,
    (hnone (not_denotesDecimal (by decide))).2 ?_, (hnumeral _ hnegative).2 (by decide)⟩
  rw [← hsmall]
  decide

/-- A text that is no number, but begins with digits of a number beyond the width, is out of range. -/
theorem not_ofText_whole_malformed :
    (∀ x, ¬ DenotesDecimal (trim isAsciiSpace "128x".toList) x) ∧
      (∀ n, ¬ Denotes (trim isAsciiSpace "128x".toList) n) ∧
      ofText "128x" (.whole .byte) = failed .overflow := by
  have hnone : ∀ x, ¬ DenotesDecimal (trim isAsciiSpace "128x".toList) x :=
    not_denotesDecimal (by decide)
  refine ⟨hnone, fun n hn => ?_, by decide⟩
  obtain ⟨x, hx⟩ := hn.denotesDecimal
  exact hnone x hx

end Conversion

end MarkupFields
