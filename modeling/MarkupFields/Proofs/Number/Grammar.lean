import MarkupFields.Number.Literal
import MarkupFields.Proofs.Number.Numerals
import MarkupFields.Proofs.Number.Rounding
import Mathlib.Data.List.TakeWhile

/-
  The grammar of decimal numbers. A text that denotes one is made of a sign, which may be left out,
  digits with at most one point before, among or behind them, and an exponent, which may be left out
  too (`DenotesDecimal`). Reading follows the grammar, in both directions (`read?_eq_decimal_iff`): just
  such a text is read as a decimal, with the sign and the digits it says. The exponent is read as it
  stands as long as it is below ten times the bound on exponents; of a larger one only the first digits
  count (`readExponent`), so what is read is not always the number that the text denotes.
-/

namespace MarkupFields

open Text

namespace Literal

/-! ## Exponents -/

/-- What is read of an exponent: further digits than the bound asks for are left out. -/
def capped (n : Nat) : Nat :=
  if n < 10 * exponentBound then n else capped (n / 10)
termination_by n
decreasing_by
  have hbound : exponentBound = 65536 := rfl
  omega

theorem capped_of_lt {n : Nat} (h : n < 10 * exponentBound) : capped n = n := by
  rw [capped, if_pos h]

theorem capped_of_le {n : Nat} (h : 10 * exponentBound ≤ n) : capped n = capped (n / 10) := by
  rw [capped, if_neg (Nat.not_lt.2 h)]

theorem le_capped {n : Nat} (h : exponentBound ≤ n) : exponentBound ≤ capped n := by
  induction n using capped.induct with
  | case1 n hn => rwa [capped_of_lt hn]
  | case2 n hn ih =>
    rw [capped_of_le (Nat.le_of_not_lt hn)]
    exact ih (by omega)

theorem digitValue_le {c : Char} (h : c.isDigit = true) : digitValue c ≤ 9 := by
  have hnine : '9'.toNat = 57 := rfl
  have hzero : '0'.toNat = 48 := rfl
  have hle := (Char.isDigit_iff_toNat.1 h).2
  rw [digitValue_of_isDigit h]
  omega

/-- The digits of an exponent are read from the left, up to the bound. -/
theorem exponentNumeral_eq {ds : List Char} (hd : ∀ c ∈ ds, c.isDigit = true) :
    exponentNumeral ds = capped (numeral 10 ds) := by
  -- whether a digit is read depends on those in front of it, so the last one is taken off
  induction ds using List.reverseRecOn with
  | nil => rw [capped_of_lt (by decide)]; rfl
  | append_singleton ds c ih =>
    have hdigit := digitValue_le (hd c (List.mem_append_right ds List.mem_cons_self))
    have hnumeral : numeral 10 (ds ++ [c]) = numeral 10 ds * 10 + digitValue c := by
      rw [numeral_append]
      rfl
    have hread : exponentNumeral (ds ++ [c]) =
        if exponentNumeral ds < exponentBound then exponentNumeral ds * 10 + digitValue c
        else exponentNumeral ds := by
      unfold exponentNumeral
      rw [List.foldl_append]
      rfl
    rw [hread, hnumeral, ih fun x hx => hd x (List.mem_append_left [c] hx)]
    by_cases h : numeral 10 ds < exponentBound
    · rw [capped_of_lt (by omega), if_pos h, capped_of_lt (by omega)]
    · have hmore : 10 * exponentBound ≤ numeral 10 ds * 10 + digitValue c := by omega
      have hfirst : (numeral 10 ds * 10 + digitValue c) / 10 = numeral 10 ds := by omega
      rw [if_neg (Nat.not_lt.2 (le_capped (Nat.le_of_not_lt h))), capped_of_le hmore, hfirst]

/-- What is read of an exponent with a sign. -/
def readExponent (n : Int) : Int :=
  signed (n < 0) (capped n.natAbs)

theorem readExponent_signed (negative : Bool) (n : Nat) :
    readExponent (signed negative n) = signed negative (capped n) := by
  unfold readExponent signed
  cases negative with
  | false => simp
  | true =>
    by_cases h : n = 0
    · rw [h, capped_of_lt (by decide)]
      simp [capped_of_lt (n := 0) (by decide)]
    · simp [Nat.pos_of_ne_zero h]

theorem readExponent_of_lt {n : Int} (h : n.natAbs < 10 * exponentBound) : readExponent n = n := by
  unfold readExponent signed
  rw [capped_of_lt h]
  by_cases hn : n < 0
  · rw [if_pos (decide_eq_true hn)]
    omega
  · rw [if_neg (by rw [decide_eq_true_eq]; exact hn)]
    omega

theorem readExponent_zero : readExponent 0 = 0 :=
  readExponent_of_lt (by decide)

/-! ## What a decimal number says -/

/-- The parts of a decimal number: the sign, the digits without the point as a whole number, how many of
them are behind the point, and the exponent. -/
structure Parts where
  negative : Bool
  coefficient : Nat
  places : Nat
  exponent : Int

namespace Parts

/-- The magnitude of the number. -/
def value (x : Parts) : ℚ :=
  x.coefficient * 10 ^ (x.exponent - x.places)

/-- The magnitude that is read. -/
def readValue (x : Parts) : ℚ :=
  x.coefficient * 10 ^ (readExponent x.exponent - x.places)

/-- The literal that is read. -/
def literal (x : Parts) : Literal :=
  .decimal x.negative x.coefficient (readExponent x.exponent - x.places)

theorem readValue_of_lt {x : Parts} (h : x.exponent.natAbs < 10 * exponentBound) :
    x.readValue = x.value := by
  unfold readValue value
  rw [readExponent_of_lt h]

/-- How small a magnitude is, said with whole numbers. -/
theorem value_le_iff (x : Parts) (k : Nat) :
    x.value ≤ 2 ^ (-(k : Int)) ↔
      x.coefficient * 10 ^ (x.exponent - x.places).toNat * 2 ^ k ≤
        10 ^ (-(x.exponent - x.places)).toNat := by
  have hten : (0 : ℚ) < 10 ^ (-(x.exponent - x.places)).toNat := by positivity
  have htwo : (0 : ℚ) < 2 ^ k := by positivity
  unfold value
  rw [Ratio.zpow_eq_div (by norm_num : (10 : ℚ) ≠ 0), zpow_neg, zpow_natCast, ← mul_div_assoc,
    div_le_iff₀ hten, inv_mul_eq_div, le_div_iff₀ htwo]
  exact_mod_cast Iff.rfl

end Parts

/-! ## Texts -/

/-- Digits, at least one, with a point or without; what they denote without the point, and how many of
them are behind it. -/
inductive Mantissa : List Char → Nat → Nat → Prop where
  | whole {ds : List Char} (hne : ds ≠ []) (hd : ∀ c ∈ ds, c.isDigit = true) :
    Mantissa ds (numeral 10 ds) 0
  | point {ds fs : List Char} (hne : ds ++ fs ≠ []) (hd : ∀ c ∈ ds, c.isDigit = true)
    (hf : ∀ c ∈ fs, c.isDigit = true) :
    Mantissa (ds ++ '.' :: fs) (numeral 10 (ds ++ fs)) fs.length

/-- An exponent, or none. -/
inductive Suffix : List Char → Int → Prop where
  | none : Suffix [] 0
  | lower {cs : List Char} {n : Int} (h : Denotes cs n) : Suffix ('e' :: cs) n
  | upper {cs : List Char} {n : Int} (h : Denotes cs n) : Suffix ('E' :: cs) n

/-- The text denotes a decimal number. -/
inductive DenotesDecimal : List Char → Parts → Prop where
  | mk {sign digits suffix : List Char} {x : Parts} (hs : Sign sign x.negative)
    (hd : Mantissa digits x.coefficient x.places) (he : Suffix suffix x.exponent) :
    DenotesDecimal (sign ++ (digits ++ suffix)) x

/-- What is so of digits and of the point is so of all that a mantissa is made of. -/
theorem Mantissa.forall_mem {P : Char → Prop} {digits : List Char} {c k : Nat}
    (h : Mantissa digits c k) (hdigit : ∀ c : Char, c.isDigit = true → P c) (hpoint : P '.') :
    ∀ d ∈ digits, P d := by
  cases h with
  | whole hne hd => exact fun d hmem => hdigit d (hd d hmem)
  | point hne hd hf =>
    intro d hmem
    rcases List.mem_append.1 hmem with hmem | hmem
    · exact hdigit d (hd d hmem)
    · rcases List.mem_cons.1 hmem with rfl | hmem
      · exact hpoint
      · exact hdigit d (hf d hmem)

/-! ## Reading -/

theorem takeWhile_digits {ds rest : List Char} (hd : ∀ c ∈ ds, c.isDigit = true)
    (hr : ∀ c ∈ rest.head?, c.isDigit = false) : (ds ++ rest).takeWhile Char.isDigit = ds := by
  rw [List.takeWhile_append_of_pos hd]
  cases rest with
  | nil => rw [List.takeWhile_nil, List.append_nil]
  | cons c rest => rw [List.takeWhile_cons_of_neg (by simp [hr c rfl]), List.append_nil]

theorem dropWhile_digits {ds rest : List Char} (hd : ∀ c ∈ ds, c.isDigit = true)
    (hr : ∀ c ∈ rest.head?, c.isDigit = false) : (ds ++ rest).dropWhile Char.isDigit = rest := by
  rw [List.dropWhile_append_of_pos hd]
  cases rest with
  | nil => rfl
  | cons c rest => rw [List.dropWhile_cons_of_neg (by simp [hr c rfl])]

theorem suffix_cons_iff {e : Char} {cs : List Char} {n : Int} :
    Suffix (e :: cs) n ↔ (e = 'e' ∨ e = 'E') ∧ Denotes cs n := by
  constructor
  · intro h
    cases h with
    | lower h => exact ⟨.inl rfl, h⟩
    | upper h => exact ⟨.inr rfl, h⟩
  · rintro ⟨rfl | rfl, h⟩
    · exact .lower h
    · exact .upper h

theorem Suffix.head {cs : List Char} {n : Int} (h : Suffix cs n) :
    ∀ c ∈ cs.head?, c = 'e' ∨ c = 'E' := by
  intro c hc
  cases h with
  | none => cases hc
  | lower => exact .inl (Option.some.inj hc).symm
  | upper => exact .inr (Option.some.inj hc).symm

theorem Suffix.head_isDigit {cs : List Char} {n : Int} (h : Suffix cs n) :
    ∀ c ∈ cs.head?, c.isDigit = false := by
  intro c hc
  rcases h.head c hc with rfl | rfl
  · rfl
  · rfl

theorem exponent?_cons (e : Char) (cs : List Char) :
    exponent? (e :: cs) =
      if e = 'e' ∨ e = 'E' then
        if (splitSign cs).2.isEmpty || !(splitSign cs).2.all Char.isDigit then none
        else some (signed (splitSign cs).1 (exponentNumeral (splitSign cs).2))
      else none := rfl

/-- What follows the digits is read exactly if it is an exponent or nothing. -/
theorem exponent?_eq_some_iff {cs : List Char} {k : Int} :
    exponent? cs = some k ↔ ∃ n, Suffix cs n ∧ k = readExponent n := by
  cases cs with
  | nil =>
    constructor
    · intro h
      exact ⟨0, .none, (Option.some.inj h).symm.trans readExponent_zero.symm⟩
    · rintro ⟨n, hn, rfl⟩
      cases hn
      rw [readExponent_zero]
      rfl
  | cons e cs =>
    simp only [exponent?_cons, suffix_cons_iff, denotes_iff]
    generalize splitSign cs = split
    obtain ⟨negative, digits⟩ := split
    dsimp only
    have hgood : (digits.isEmpty || !digits.all Char.isDigit) = false ↔
        digits ≠ [] ∧ ∀ c ∈ digits, c.isDigit = true := by
      rw [Bool.or_eq_false_iff, Bool.not_eq_false', List.all_eq_true, List.isEmpty_eq_false_iff]
    constructor
    · intro h
      split_ifs at h with he hbad
      obtain ⟨hne, hd⟩ := hgood.1 (Bool.eq_false_iff.2 hbad)
      refine ⟨_, ⟨he, hne, hd, rfl⟩, ?_⟩
      rw [readExponent_signed, ← exponentNumeral_eq hd]
      exact (Option.some.inj h).symm
    · rintro ⟨n, ⟨he, hne, hd, rfl⟩, rfl⟩
      rw [if_pos he, hgood.2 ⟨hne, hd⟩, if_neg Bool.false_ne_true, readExponent_signed,
        exponentNumeral_eq hd]

theorem splitFraction_of_head {cs : List Char} (h : ∀ c ∈ cs.head?, c ≠ '.') :
    splitFraction cs = ([], cs) := by
  unfold splitFraction
  split
  · exact absurd rfl (h '.' rfl)
  · rfl

/-- Digits and what is split off behind a point are the digits of a number, unless there are none. -/
theorem exists_mantissa {ds : List Char} (hd : ∀ c ∈ ds, c.isDigit = true) (rest : List Char)
    (hne : ¬ (ds.isEmpty && (splitFraction rest).1.isEmpty) = true) :
    ∃ digits, ds ++ rest = digits ++ (splitFraction rest).2 ∧
      Mantissa digits (numeral 10 (ds ++ (splitFraction rest).1)) (splitFraction rest).1.length := by
  rw [Bool.and_eq_true, List.isEmpty_iff, List.isEmpty_iff, ← List.append_eq_nil_iff] at hne
  by_cases hpoint : ∃ behind, rest = '.' :: behind
  · obtain ⟨behind, rfl⟩ := hpoint
    refine ⟨ds ++ '.' :: behind.takeWhile Char.isDigit, ?_,
      .point hne hd fun c hc => List.mem_takeWhile_imp hc⟩
    rw [List.append_assoc, List.cons_append]
    exact congrArg _ (congrArg _ List.takeWhile_append_dropWhile.symm)
  · have hsplit : splitFraction rest = ([], rest) := by
      refine splitFraction_of_head fun c hc => ?_
      rintro rfl
      exact hpoint (List.head?_eq_some_iff.1 hc)
    rw [hsplit, List.append_nil] at hne
    rw [hsplit, List.append_nil]
    exact ⟨ds, rfl, .whole hne hd⟩

/-- An unsigned decimal is read exactly from digits and what may follow them. -/
theorem decimal?_eq_some_iff {negative : Bool} {cs : List Char} {l : Literal} :
    decimal? negative cs = some l ↔ ∃ digits suffix c k n, cs = digits ++ suffix ∧
      Mantissa digits c k ∧ Suffix suffix n ∧ l = .decimal negative c (readExponent n - k) := by
  constructor
  · intro h
    have hdigits : ∀ c ∈ cs.takeWhile Char.isDigit, c.isDigit = true :=
      fun c hc => List.mem_takeWhile_imp hc
    have hcs : cs.takeWhile Char.isDigit ++ cs.dropWhile Char.isDigit = cs :=
      List.takeWhile_append_dropWhile
    unfold decimal? at h
    dsimp only at h
    split at h
    · cases h
    · rename_i hne
      obtain ⟨k, hk, rfl⟩ := Option.map_eq_some_iff.1 h
      obtain ⟨n, hn, rfl⟩ := exponent?_eq_some_iff.1 hk
      obtain ⟨digits, hsplit, hm⟩ := exists_mantissa hdigits _ hne
      exact ⟨digits, _, _, _, n, hcs.symm.trans hsplit, hm, hn, rfl⟩
  · rintro ⟨digits, suffix, c, k, n, rfl, hm, hs, rfl⟩
    have hexponent : exponent? suffix = some (readExponent n) := exponent?_eq_some_iff.2 ⟨n, hs, rfl⟩
    unfold decimal?
    cases hm with
    | whole hne hd =>
      have hsplit : splitFraction suffix = ([], suffix) := by
        refine splitFraction_of_head fun c hc => ?_
        rcases hs.head c hc with rfl | rfl <;> decide
      simp only [takeWhile_digits hd hs.head_isDigit, dropWhile_digits hd hs.head_isDigit, hsplit,
        List.isEmpty_eq_false_iff.2 hne, Bool.false_and, Bool.false_eq_true, if_false, hexponent,
        Option.map_some, List.append_nil, List.length_nil]
    | @point ds fs hne hd hf =>
      have hpoint : ∀ c ∈ ('.' :: (fs ++ suffix)).head?, c.isDigit = false := by
        intro c hc
        rw [← Option.some.inj hc]
        rfl
      have hempty : (ds.isEmpty && fs.isEmpty) = false := by
        rw [Bool.eq_false_iff, Ne, Bool.and_eq_true, List.isEmpty_iff, List.isEmpty_iff,
          ← List.append_eq_nil_iff]
        exact hne
      rw [List.append_assoc, List.cons_append]
      simp only [takeWhile_digits hd hpoint, dropWhile_digits hd hpoint, splitFraction,
        takeWhile_digits hf hs.head_isDigit, dropWhile_digits hf hs.head_isDigit, hempty,
        Bool.false_eq_true, if_false, hexponent, Option.map_some]

theorem word?_ne_decimal {negative : Bool} {cs : List Char} {l : Literal}
    (h : word? negative cs = some l) : l.isDecimal = false := by
  unfold word? at h
  dsimp only at h
  split at h
  · rw [← Option.some.inj h]
    rfl
  · split at h
    · rw [← Option.some.inj h]
      rfl
    · cases h

theorem Mantissa.ne_nil {digits : List Char} {c k : Nat} (h : Mantissa digits c k) :
    digits ≠ [] := by
  cases h with
  | whole hne _ => exact hne
  | point => exact List.append_ne_nil_of_right_ne_nil _ (List.cons_ne_nil _ _)

theorem Mantissa.head {digits : List Char} {c k : Nat} (h : Mantissa digits c k)
    (rest : List Char) : ∀ d ∈ (digits ++ rest).head?, d.isDigit = true ∨ d = '.' := by
  obtain ⟨x, xs, rfl⟩ := List.exists_cons_of_ne_nil h.ne_nil
  intro d hd
  rw [← Option.some.inj hd]
  exact h.forall_mem (P := fun d => d.isDigit = true ∨ d = '.') (fun _ => .inl) (.inr rfl) x
    List.mem_cons_self

/-- A decimal is read exactly from a text that denotes one. -/
theorem read?_eq_decimal_iff {cs : List Char} {l : Literal} :
    read? cs = some l ∧ l.isDecimal = true ↔ ∃ x, DenotesDecimal cs x ∧ l = x.literal := by
  constructor
  · rintro ⟨h, hl⟩
    obtain ⟨sign, hcs, hsign⟩ := exists_sign cs
    unfold read? at h
    generalize splitSign cs = split at h hcs hsign
    obtain ⟨negative, unsigned⟩ := split
    dsimp only at h hcs hsign
    rcases Option.or_eq_some_iff.1 h with hdecimal | ⟨-, hword⟩
    · obtain ⟨digits, suffix, c, k, n, rfl, hm, hs, rfl⟩ := decimal?_eq_some_iff.1 hdecimal
      rw [hcs]
      exact ⟨⟨negative, c, k, n⟩, .mk hsign hm hs, rfl⟩
    · rw [word?_ne_decimal hword] at hl
      cases hl
  · rintro ⟨x, hx, rfl⟩
    refine ⟨?_, rfl⟩
    cases hx with
    | @mk sign digits suffix x hsign hm hs =>
      have hsplit : splitSign (sign ++ (digits ++ suffix)) = (x.negative, digits ++ suffix) := by
        refine splitSign_of_sign hsign fun c hc => ?_
        rcases hm.head suffix c hc with hc | rfl
        · exact ⟨fun h => absurd (h ▸ hc) (by decide), fun h => absurd (h ▸ hc) (by decide)⟩
        · decide
      have hdecimal : decimal? x.negative (digits ++ suffix) = some x.literal :=
        decimal?_eq_some_iff.2 ⟨digits, suffix, _, _, _, rfl, hm, hs, rfl⟩
      unfold read?
      rw [hsplit]
      dsimp only
      rw [hdecimal, Option.some_or]

theorem not_denotesDecimal {cs : List Char} (h : read? cs = none) (x : Parts) :
    ¬ DenotesDecimal cs x := by
  intro hx
  rw [(read?_eq_decimal_iff.2 ⟨x, hx, rfl⟩).1] at h
  cases h

/-- What is infinite or no number apart, the numbers that are read are decimals. -/
theorem any_read?_iff {p : Precision} {test : BinaryFloat p → Bool} {cs : List Char}
    (hinfinite : ∀ negative, test (.infinite negative) = false) (hnan : test .nan = false) :
    ((read? cs).map (toFloat p)).any test = true ↔
      ∃ x, DenotesDecimal cs x ∧ test (x.literal.toFloat p) = true := by
  rw [Option.any_map, Option.any_eq_true]
  constructor
  · rintro ⟨l, hread, htest⟩
    have hdecimal : l.isDecimal = true := by
      cases l with
      | decimal => rfl
      | infinity negative => exact absurd htest (Bool.eq_false_iff.1 (hinfinite negative))
      | nan => exact absurd htest (Bool.eq_false_iff.1 hnan)
    obtain ⟨x, hx, rfl⟩ := read?_eq_decimal_iff.1 ⟨hread, hdecimal⟩
    exact ⟨x, hx, htest⟩
  · rintro ⟨x, hx, htest⟩
    exact ⟨x.literal, (read?_eq_decimal_iff.2 ⟨x, hx, rfl⟩).1, htest⟩

/-! ## Letter case -/

theorem Mantissa.toNat_lt {digits : List Char} {c k : Nat} (h : Mantissa digits c k) :
    ∀ d ∈ digits, d.toNat < 65 :=
  h.forall_mem (fun _ => toNat_lt_of_isDigit) (by decide)

theorem Sign.toNat_lt {sign : List Char} {negative : Bool} (h : Sign sign negative) :
    ∀ c ∈ sign, c.toNat < 65 :=
  h.forall_mem (by decide) (by decide)

theorem toLower_eq_e_iff {c : Char} :
    c.toLower = 'e' ∨ c.toLower = 'E' ↔ c = 'e' ∨ c = 'E' := by
  have hsmall : 'e'.toNat = 101 := rfl
  have hlarge : 'E'.toNat = 69 := rfl
  simp only [← Char.toNat_inj, toNat_toLower]
  split <;> omega

/-- The letter of an exponent may be of either case. -/
theorem suffix_map_toLower_iff {cs : List Char} {n : Int} :
    Suffix (cs.map Char.toLower) n ↔ Suffix cs n := by
  have hdenotes : ∀ ds : List Char, Denotes (ds.map Char.toLower) n ↔ Denotes ds n := by
    intro ds
    constructor
    · intro h
      rwa [← (map_toLower_eq_iff h.toNat_lt).1 rfl] at h
    · intro h
      rwa [(map_toLower_eq_iff h.toNat_lt).2 rfl]
  cases cs with
  | nil => rfl
  | cons e cs => rw [List.map_cons, suffix_cons_iff, suffix_cons_iff, toLower_eq_e_iff, hdenotes]

/-- A decimal number denotes the same in any letter case. -/
theorem denotesDecimal_map_toLower_iff {cs : List Char} {x : Parts} :
    DenotesDecimal (cs.map Char.toLower) x ↔ DenotesDecimal cs x := by
  constructor
  · intro h
    generalize hlower : cs.map Char.toLower = lower at h
    cases h with
    | @mk sign digits suffix x hs hd he =>
      obtain ⟨sign', rest, rfl, hsign, hrest⟩ := List.map_eq_append_iff.1 hlower
      obtain ⟨digits', suffix', rfl, hdigits, rfl⟩ := List.map_eq_append_iff.1 hrest
      rw [(map_toLower_eq_iff hs.toNat_lt).1 hsign, (map_toLower_eq_iff hd.toNat_lt).1 hdigits]
      exact .mk hs hd (suffix_map_toLower_iff.1 he)
  · intro h
    cases h with
    | mk hs hd he =>
      rw [List.map_append, List.map_append, (map_toLower_eq_iff hs.toNat_lt).2 rfl,
        (map_toLower_eq_iff hd.toNat_lt).2 rfl]
      exact .mk hs hd (suffix_map_toLower_iff.2 he)

end Literal

end MarkupFields
