import MarkupFields.Proofs.Field.Concerns

/-
  Whole numbers out of text. A text converts to a whole number type exactly if it holds a numeral of a
  number of the type, with ASCII spaces around it or without; to a character exactly if it is that
  character or, being longer, holds a numeral of its code point (`ofText_whole_char_iff`). So a whole
  number converts like its text does, within the limits of the type asked for and beyond them; the only
  numbers that do not are those whose text is one digit, on the way to a character
  (`convert_text_of_whole_iff`): the text is the character of the digit, the number is a code point.
-/

namespace MarkupFields

open Text BinaryFloat

namespace Conversion

/-! ## Numerals in text -/

theorem charOfInt?_eq_some_iff {n : Int} {c : Char} : charOfInt? n = some c ↔ n = c.toNat := by
  unfold charOfInt?
  split
  · exact iff_of_false (Option.some_ne_none c ∘ Eq.symm) (by omega)
  · rw [charOfCode?_eq_some_iff]
    omega

/-- The text is a numeral of the number with nothing but ASCII spaces around it. -/
def HoldsNumeral (cs : List Char) (n : Int) : Prop :=
  ∃ before numeral after, cs = before ++ numeral ++ after ∧
    (∀ c ∈ before, isAsciiSpace c = true) ∧ (∀ c ∈ after, isAsciiSpace c = true) ∧
    Denotes numeral n

/-- Trimming leaves the numeral that a text holds. -/
theorem holdsNumeral_iff {cs : List Char} {n : Int} :
    HoldsNumeral cs n ↔ Denotes (trim isAsciiSpace cs) n := by
  constructor
  · rintro ⟨before, numeral, after, rfl, hb, ha, h⟩
    rwa [trim_around hb (Literal.noSpace_of_denotes h) ha]
  · intro h
    obtain ⟨before, after, hcs, hb, ha⟩ := exists_around_trim isAsciiSpace cs
    exact ⟨before, _, after, hcs, hb, ha, h⟩

theorem ofOption_eq_ok_iff {r : FailureReason} {o : Option Value} {v : Value} :
    ofOption r o = .ok v ↔ o = some v := by
  cases o with
  | none => exact ⟨nofun, nofun⟩
  | some x =>
    exact ⟨fun h => congrArg some (Conversion.ok.inj h), fun h => congrArg ok (Option.some.inj h)⟩

theorem ok_or_failed_ofOption (r : FailureReason) (o : Option Value) :
    (∃ v, ofOption r o = .ok v) ∨ ∃ e, ofOption r o = failed e := by
  cases o with
  | none => exact .inr ⟨r, rfl⟩
  | some v => exact .inl ⟨v, rfl⟩

theorem map_whole_eq_some_iff {w : Width} {n : Int} {v : Value} :
    (Whole.ofInt? w n).map (.whole w) = some v ↔ ∃ m : Whole w, v = .whole w m ∧ m.val = n := by
  rw [Option.map_eq_some_iff]
  constructor
  · rintro ⟨m, hm, rfl⟩
    exact ⟨m, rfl, Whole.ofInt?_eq_some_iff.1 hm⟩
  · rintro ⟨m, rfl, hm⟩
    exact ⟨m, Whole.ofInt?_eq_some_iff.2 hm, rfl⟩

theorem map_char_eq_some_iff {n : Int} {v : Value} :
    (charOfInt? n).map .char = some v ↔ ∃ c : Char, v = .char c ∧ n = c.toNat := by
  rw [Option.map_eq_some_iff]
  constructor
  · rintro ⟨c, hc, rfl⟩
    exact ⟨c, rfl, charOfInt?_eq_some_iff.1 hc⟩
  · rintro ⟨c, rfl, hc⟩
    exact ⟨c, charOfInt?_eq_some_iff.2 hc, rfl⟩

/-- Reads a whole number between two bounds and goes on to a value, if there is one for the number. Both
whole numbers and code points come out of text in this way. -/
def throughWhole (low high : Int) (r : FailureReason) (f : Int → Option Value) (cs : List Char) :
    Conversion :=
  match wholeOfText low high cs with
  | .ok n => ofOption r (f n)
  | .error e => failed e

section
variable {low high : Int} {r : FailureReason} {f : Int → Option Value} {cs : List Char}

theorem throughWhole_of_denotes (hlow : low ≤ 0) (hhigh : 0 ≤ high) {n : Int} (h : Denotes cs n)
    (hin : low ≤ n ∧ n ≤ high) : throughWhole low high r f cs = ofOption r (f n) := by
  unfold throughWhole
  rw [(wholeOfText_eq_ok_iff hlow hhigh).2 ⟨h, hin⟩]

theorem throughWhole_of_out (hlow : low ≤ 0) (hhigh : 0 ≤ high) {n : Int} (h : Denotes cs n)
    (hout : ¬ (low ≤ n ∧ n ≤ high)) : throughWhole low high r f cs = failed .overflow := by
  unfold throughWhole wholeOfText
  rw [(readNumeral_eq_outOfRange_iff hlow hhigh).2 ⟨cs, n, List.prefix_rfl, h, hout⟩]

/-- Where values are only for numbers between the bounds, a text gives a value exactly if it is a
numeral of a number with that value. -/
theorem throughWhole_eq_ok_iff (hlow : low ≤ 0) (hhigh : 0 ≤ high) {v : Value}
    (hf : ∀ n v, f n = some v → low ≤ n ∧ n ≤ high) :
    throughWhole low high r f cs = .ok v ↔ ∃ n, Denotes cs n ∧ f n = some v := by
  constructor
  · intro h
    unfold throughWhole at h
    split at h
    · rename_i n hn
      exact ⟨n, ((wholeOfText_eq_ok_iff hlow hhigh).1 hn).1, ofOption_eq_ok_iff.1 h⟩
    · cases h
  · rintro ⟨n, hn, hv⟩
    rw [throughWhole_of_denotes hlow hhigh hn (hf n v hv)]
    exact ofOption_eq_ok_iff.2 hv

/-- There is a value or a reason, and never a zero in place of a value. -/
theorem ok_or_failed_throughWhole (low high : Int) (r : FailureReason) (f : Int → Option Value)
    (cs : List Char) :
    (∃ v, throughWhole low high r f cs = .ok v) ∨ ∃ e, throughWhole low high r f cs = failed e := by
  unfold throughWhole
  split
  · exact ok_or_failed_ofOption r _
  · exact .inr ⟨_, rfl⟩

end

/-! ## What text converts to -/

theorem ofText_whole (raw : String) (w : Width) :
    ofText raw (.whole w) = throughWhole w.lowest w.highest .overflow
      (fun n => (Whole.ofInt? w n).map (.whole w)) (trim isAsciiSpace raw.toList) := rfl

theorem ofText_boolean (raw : String) :
    ofText raw .boolean =
      ok (.boolean (booleanOfText raw.toList (trim isAsciiSpace raw.toList))) := rfl

theorem ofText_floating (raw : String) (p : Precision) :
    ofText raw (.floating p) = floatOfText p (trim isAsciiSpace raw.toList) := rfl

/-- A text of one character is the character. -/
theorem ofText_char_of_singleton {raw : String} {c : Char} (h : raw.toList = [c]) :
    ofText raw .char = .ok (.char c) := by
  show charOfText raw.toList _ = _
  rw [h]
  rfl

/-- Any other text is a code point, or none. -/
theorem ofText_char_of_length_ne {raw : String} (h : raw.toList.length ≠ 1) :
    ofText raw .char = throughWhole Width.long.lowest Width.long.highest .invalidCodePoint
      (fun n => (charOfInt? n).map .char) (trim isAsciiSpace raw.toList) := by
  show charOfText raw.toList _ = _
  unfold charOfText
  split
  · rename_i c hc
    exact absurd (hc ▸ rfl) h
  · rfl

section
variable {raw : String} {v : Value}

theorem ofText_whole_eq_ok_iff {w : Width} :
    ofText raw (.whole w) = .ok v ↔ ∃ n : Whole w, v = .whole w n ∧ HoldsNumeral raw.toList n.val := by
  rw [ofText_whole, throughWhole_eq_ok_iff w.lowest_neg.le w.highest_pos.le]
  · constructor
    · rintro ⟨_, hm, hv⟩
      obtain ⟨n, rfl, rfl⟩ := map_whole_eq_some_iff.1 hv
      exact ⟨n, rfl, holdsNumeral_iff.2 hm⟩
    · rintro ⟨n, rfl, hn⟩
      exact ⟨n.val, holdsNumeral_iff.1 hn, map_whole_eq_some_iff.2 ⟨n, rfl, rfl⟩⟩
  · intro _ _ hv
    obtain ⟨n, -, rfl⟩ := map_whole_eq_some_iff.1 hv
    exact ⟨n.lowest_le, n.le_highest⟩

theorem ofText_char_eq_ok_iff :
    ofText raw .char = .ok v ↔ ∃ c : Char, v = .char c ∧
      (raw.toList = [c] ∨ raw.toList.length ≠ 1 ∧ HoldsNumeral raw.toList c.toNat) := by
  by_cases hone : raw.toList.length = 1
  · obtain ⟨c, hc⟩ := List.length_eq_one_iff.1 hone
    rw [ofText_char_of_singleton hc, hc]
    constructor
    · intro h
      exact ⟨c, (Conversion.ok.inj h).symm, .inl rfl⟩
    · rintro ⟨d, rfl, hd | ⟨hne, -⟩⟩
      · rw [List.head_eq_of_cons_eq hd]
      · exact absurd rfl hne
  · rw [ofText_char_of_length_ne hone,
      throughWhole_eq_ok_iff Width.long.lowest_neg.le Width.long.highest_pos.le]
    · constructor
      · rintro ⟨_, hm, hv⟩
        obtain ⟨c, rfl, rfl⟩ := map_char_eq_some_iff.1 hv
        exact ⟨c, rfl, .inr ⟨hone, holdsNumeral_iff.2 hm⟩⟩
      · rintro ⟨c, rfl, hc | ⟨-, hc⟩⟩
        · exact absurd (hc ▸ rfl) hone
        · exact ⟨c.toNat, holdsNumeral_iff.1 hc, map_char_eq_some_iff.2 ⟨c, rfl, rfl⟩⟩
    · intro _ _ hv
      obtain ⟨c, -, rfl⟩ := map_char_eq_some_iff.1 hv
      have hcode := toNat_le c
      have hlow := Width.long.lowest_neg
      have hhigh : 0x10FFFF ≤ Width.long.highest := by decide
      omega

theorem ok_or_failed_ofText {t : FieldType} (ht : t.isWhole = true ∨ t = .char) :
    (∃ v, ofText raw t = .ok v) ∨ ∃ e, ofText raw t = failed e := by
  rcases t with _ | _ | w | p | _
  · exact absurd ht (by decide)
  · by_cases hone : raw.toList.length = 1
    · obtain ⟨c, hc⟩ := List.length_eq_one_iff.1 hone
      exact .inl ⟨_, ofText_char_of_singleton hc⟩
    · rw [ofText_char_of_length_ne hone]
      exact ok_or_failed_throughWhole _ _ _ _ _
  · exact ok_or_failed_throughWhole _ _ _ _ _
  · exact absurd ht (by rintro (h | h) <;> cases h)
  · exact absurd ht (by decide)

/-- Text converts to a whole number exactly if it holds a numeral of the number, which is within the
width; to a character exactly if it is just that character or, not being one character, holds a numeral
of its code point. Where it does neither there is no value. -/
theorem ofText_whole_char_iff (raw : String) :
    (∀ (w : Width) (v : Value), ofText raw (.whole w) = .ok v ↔
      ∃ n : Whole w, v = .whole w n ∧ HoldsNumeral raw.toList n.val) ∧
    (∀ v : Value, ofText raw .char = .ok v ↔ ∃ c : Char, v = .char c ∧
      (raw.toList = [c] ∨ raw.toList.length ≠ 1 ∧ HoldsNumeral raw.toList c.toNat)) ∧
    ∀ t : FieldType, t.isWhole = true ∨ t = .char → (∀ v, ofText raw t ≠ .ok v) →
      (ofText raw t).value? = none := by
  refine ⟨fun _ _ => ofText_whole_eq_ok_iff, fun _ => ofText_char_eq_ok_iff, fun t ht hno => ?_⟩
  rcases ok_or_failed_ofText ht with ⟨v, hv⟩ | ⟨e, he⟩
  · exact absurd hv (hno v)
  · rw [he]
    rfl

/-- With a plus sign, a zero in front and blanks around it a numeral is read; what is too large for the
type gives no value. -/
theorem ofText_whole_char_iff_padded :
    HoldsNumeral " +0128\n".toList 128 ∧
      ofText " +0128\n" (.whole .short) = .ok (.whole .short ⟨128, by decide, by decide⟩) ∧
      ofText " +0128\n" .char = .ok (.char '\x80') ∧
      (ofText " +0128\n" (.whole .byte)).value? = none := by
  have hdenotes : Denotes "+0128".toList 128 :=
    .plus (List.cons_ne_nil _ _) (List.all_eq_true.1 rfl)
  have hholds : HoldsNumeral " +0128\n".toList 128 :=
    ⟨[' '], _, ['\n'], rfl, List.all_eq_true.1 rfl, List.all_eq_true.1 rfl, hdenotes⟩
  obtain ⟨hwhole, hchar, hnone⟩ := ofText_whole_char_iff " +0128\n"
  refine ⟨hholds, (hwhole .short _).2 ⟨_, rfl, hholds⟩,
    (hchar _).2 ⟨_, rfl, .inr ⟨by decide, hholds⟩⟩, hnone (.whole .byte) (.inl rfl) ?_⟩
  intro v hv
  have hfailed : ofText " +0128\n" (.whole .byte) = failed .overflow := by decide
  rw [hfailed] at hv
  cases hv

end

/-! ## Whole numbers and their text -/

open Value

/-- A numeral is taken for a truth value as the number is: the digits that stand for truth values do so
as numbers, and no number but zero is rounded to zero. -/
theorem booleanOfText_renderInt {n : Int} (h : n.natAbs ≤ 2 ^ 63) :
    booleanOfText (renderInt n) (renderInt n) = (n != 0) := by
  have hletter : ∀ c cs, renderInt n = c :: cs → c.isDigit = true ∨ c = '+' ∨ c = '-' :=
    fun c cs hcs => Denotes.head (hcs ▸ denotes_renderInt n)
  unfold booleanOfText
  rw [map_toLower_renderInt]
  dsimp only
  -- of the words only the two digits are numerals
  split_ifs with hempty hone hzero
  · exact absurd (List.isEmpty_iff.1 hempty) (denotes_renderInt n).ne_nil
  · rcases hone with hone | hone | hone
    · rw [renderInt_inj (m := 1) hone]
      rfl
    · exact absurd (hletter 't' _ hone) (by decide)
    · exact absurd (hletter 't' _ hone) (by decide)
  · rcases hzero with hzero | hzero | hzero
    · rw [renderInt_inj (m := 0) hzero]
      rfl
    · exact absurd (hletter 'f' _ hzero) (by decide)
    · exact absurd (hletter 'f' _ hzero) (by decide)
  · rw [Literal.read?_renderInt]
    dsimp only
    rw [toFloat_numeral, isZero_ofInt h]
    rfl

/-- A numeral is taken for a floating point number as the number is. -/
theorem floatOfText_renderInt (p : Precision) {n : Int} (h : n.natAbs ≤ 2 ^ 63) :
    floatOfText p (renderInt n) = .ok (.floating p (BinaryFloat.ofInt p n)) := by
  have hzero : ((BinaryFloat.ofInt p n).isZero &&
      (Literal.decimal (n < 0) n.natAbs 0).isNonzeroDecimal) = false := by
    rw [isZero_ofInt h]
    show ((n == 0) && (n.natAbs != 0)) = false
    rw [Bool.and_eq_false_iff, beq_eq_false_iff_ne, bne_eq_false_iff_eq]
    omega
  unfold floatOfText
  rw [Literal.read?_renderInt]
  simp only [toFloat_numeral, isInfinite_ofInt h, hzero, Bool.false_and, Bool.false_eq_true, if_false]

/-- The text of a whole number converts as the number does, unless it is read as a character of its
own. -/
theorem ofText_renderInt {n : Int} (hlong : Width.long.lowest ≤ n ∧ n ≤ Width.long.highest)
    {t : FieldType} (ht : t = .char → (renderInt n).length ≠ 1) :
    ofText (String.ofList (renderInt n)) t = ofInt n t := by
  have habs : n.natAbs ≤ 2 ^ 63 := by
    have hlow : Width.long.lowest = -2 ^ 63 := rfl
    have hhigh : Width.long.highest = 2 ^ 63 - 1 := rfl
    omega
  have htrim : trim isAsciiSpace (renderInt n) = renderInt n :=
    trim_eq_self (Literal.noSpace_of_denotes (denotes_renderInt n))
  rcases t with _ | _ | w | p | _
  · rw [ofText_boolean, String.toList_ofList, htrim, booleanOfText_renderInt habs]
    rfl
  · rw [ofText_char_of_length_ne (by rw [String.toList_ofList]; exact ht rfl), String.toList_ofList,
      htrim, throughWhole_of_denotes Width.long.lowest_neg.le Width.long.highest_pos.le
        (denotes_renderInt n) hlong]
    rfl
  · rw [ofText_whole, String.toList_ofList, htrim]
    by_cases hin : w.lowest ≤ n ∧ n ≤ w.highest
    · rw [throughWhole_of_denotes w.lowest_neg.le w.highest_pos.le (denotes_renderInt n) hin]
      rfl
    · rw [throughWhole_of_out w.lowest_neg.le w.highest_pos.le (denotes_renderInt n) hin]
      unfold ofInt Whole.ofInt?
      dsimp only
      rw [dif_neg hin]
      rfl
  · rw [ofText_floating, String.toList_ofList, htrim, floatOfText_renderInt p habs]
    rfl
  · rfl

end Conversion

namespace Value

open Conversion

/-- A whole number and its text convert alike, to every type and within its limits or beyond them; a
number of one digit apart, whose text is a character other than the one it is the code point of. -/
theorem convert_text_of_whole_iff {w : Width} (n : Whole w) (t : FieldType) :
    (string (whole w n).render).convert t = (whole w n).convert t ↔
      ¬ (t = .char ∧ 0 ≤ n.val ∧ n.val ≤ 9) := by
  have hlong : Width.long.lowest ≤ n.val ∧ n.val ≤ Width.long.highest := by
    have hw : Width.long.lowest ≤ w.lowest ∧ w.highest ≤ Width.long.highest := by
      cases w <;> decide
    exact ⟨hw.1.trans n.lowest_le, n.le_highest.trans hw.2⟩
  rw [convert_string, convert_whole, ← length_renderInt_eq_one_iff]
  constructor
  · rintro hsame ⟨rfl, hone⟩
    obtain ⟨c, hc⟩ := List.length_eq_one_iff.1 hone
    have htext : ofText (whole w n).render .char = .ok (.char c) :=
      ofText_char_of_singleton (by rw [← hc]; exact String.toList_ofList)
    have hcode : (charOfInt? n.val).map Value.char = some (Value.char c) :=
      ofOption_eq_ok_iff.1 (hsame.symm.trans htext)
    obtain ⟨d, hd, hdc⟩ := Option.map_eq_some_iff.1 hcode
    have hval := charOfInt?_eq_some_iff.1 hd
    rw [Value.char.inj hdc] at hval
    -- the number would be the code point of a digit or a sign, but it has one digit itself
    have hsmall := (length_renderInt_eq_one_iff.1 hone).2
    have hlarge := Denotes.le_head (hc ▸ denotes_renderInt n.val)
    omega
  · intro h
    exact ofText_renderInt hlong fun ht hone => h ⟨ht, hone⟩

end Value

end MarkupFields
