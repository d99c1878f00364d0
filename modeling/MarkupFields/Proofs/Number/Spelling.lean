import MarkupFields.Field.Conversion
import MarkupFields.Proofs.Number.Grammar

/-
  Decimals as text spells them. A text that spells a decimal is read as it, with a minus sign in front
  or without (`Spelled.read?`). The layout of a decimal, with a point among the digits or with an
  exponent, spells a decimal of the same value (`spelled_layout`), as long as its first digit stands
  for a power of ten whose exponent can be read.
-/

namespace MarkupFields

open Text

namespace Literal

/-! ## Values of decimals -/

theorem den_tenfold_pos (c : Nat) (e : Int) : 0 < (tenfold c e).den :=
  Nat.pow_pos (by decide)

theorem value_tenfold (c : Nat) (e : Int) : (tenfold c e).value = c * 10 ^ e :=
  Ratio.value_mul_pow (by decide) c e

/-- Zeros behind the digits make up for a lower exponent. -/
theorem tenfold_zeros (c k : Nat) (e : Int) :
    (tenfold (c * 10 ^ k) (e - k)).Same (tenfold c e) :=
  Ratio.same_shifted 10 c k e

/-! ## Decimals that a text spells -/

/-- The text spells an unsigned decimal: it begins with a digit, has no spaces and is read as the
decimal. -/
structure Spelled (cs : List Char) (c : Nat) (e : Int) : Prop where
  starts : ∃ d rest, cs = d :: rest ∧ d.isDigit = true
  noSpace : ∀ d ∈ cs, isAsciiSpace d = false
  reads : ∀ negative, decimal? negative cs = some (.decimal negative c e)

theorem noSpace_of_any {cs : List Char} (h : cs.any isAsciiSpace = false) :
    ∀ c ∈ cs, isAsciiSpace c = false := by
  intro c hc
  exact Bool.eq_false_iff.2 (List.any_eq_false.1 h c hc)

theorem isAsciiSpace_of_isDigit {c : Char} (h : c.isDigit = true) : isAsciiSpace c = false := by
  have hne : ∀ d : Char, d.isDigit = false → (c == d) = false := by
    intro d hd
    rw [beq_eq_false_iff_ne]
    rintro rfl
    rw [h] at hd
    cases hd
  simp [isAsciiSpace, hne ' ' rfl, hne '\t' rfl, hne '\n' rfl, hne '\x0c' rfl, hne '\r' rfl]

theorem noSpace_of_denotes {cs : List Char} {n : Int} (h : Denotes cs n) :
    ∀ c ∈ cs, isAsciiSpace c = false :=
  h.forall_mem (fun _ => isAsciiSpace_of_isDigit) rfl rfl

theorem Mantissa.noSpace {digits : List Char} {c k : Nat} (h : Mantissa digits c k) :
    ∀ d ∈ digits, isAsciiSpace d = false :=
  h.forall_mem (fun _ => isAsciiSpace_of_isDigit) rfl

theorem Suffix.noSpace {cs : List Char} {n : Int} (h : Suffix cs n) :
    ∀ c ∈ cs, isAsciiSpace c = false := by
  cases h with
  | none => exact fun c hc => (List.not_mem_nil hc).elim
  | lower h => exact List.forall_mem_cons.2 ⟨rfl, noSpace_of_denotes h⟩
  | upper h => exact List.forall_mem_cons.2 ⟨rfl, noSpace_of_denotes h⟩

theorem suffix_toString (k : Int) : Suffix ('e' :: (toString k).toList) k := by
  rw [toList_toString_int]
  exact .lower (denotes_renderInt k)

/-- Digits that begin with a digit, with what may follow them. -/
theorem spelled_of_mantissa {digits suffix : List Char} {c k : Nat} {n e : Int}
    (hstart : ∃ d rest, digits = d :: rest ∧ d.isDigit = true) (hm : Mantissa digits c k)
    (hs : Suffix suffix n) (he : readExponent n - k = e) : Spelled (digits ++ suffix) c e where
  starts := by
    obtain ⟨d, rest, rfl, hd⟩ := hstart
    exact ⟨d, rest ++ suffix, rfl, hd⟩
  noSpace := by
    intro d hd
    rcases List.mem_append.1 hd with hd | hd
    · exact hm.noSpace d hd
    · exact hs.noSpace d hd
  reads negative := by
    rw [decimal?_eq_some_iff, ← he]
    exact ⟨digits, suffix, c, k, n, rfl, hm, hs, rfl⟩

section
variable {whole fraction cs : List Char} {k n : Int}

theorem starts_digits (hw : ∀ c ∈ whole, c.isDigit = true) (hne : whole ≠ []) (rest : List Char) :
    ∃ d rest', whole ++ rest = d :: rest' ∧ d.isDigit = true := by
  cases whole with
  | nil => exact absurd rfl hne
  | cons d ds => exact ⟨d, ds ++ rest, rfl, hw d List.mem_cons_self⟩

/-- Digits, a point and digits, with what may follow. -/
theorem spelled_point (hw : ∀ c ∈ whole, c.isDigit = true) (hne : whole ≠ [])
    (hf : ∀ c ∈ fraction, c.isDigit = true) (hs : Suffix cs n) (hk : readExponent n = k) :
    Spelled (whole ++ '.' :: (fraction ++ cs)) (numeral 10 (whole ++ fraction))
      (k - fraction.length) := by
  have hspelled := spelled_of_mantissa (starts_digits hw hne ('.' :: fraction))
    (.point (List.append_ne_nil_of_left_ne_nil hne _) hw hf) hs (congrArg (· - _) hk)
  rwa [List.append_assoc, List.cons_append] at hspelled

/-- Digits with what may follow. -/
theorem spelled_whole (hw : ∀ c ∈ whole, c.isDigit = true) (hne : whole ≠ []) (hs : Suffix cs n)
    (hk : readExponent n = k) : Spelled (whole ++ cs) (numeral 10 whole) k := by
  have hstart := starts_digits hw hne []
  rw [List.append_nil] at hstart
  refine spelled_of_mantissa hstart (.whole hne hw) hs ?_
  rw [hk, Nat.cast_zero, Int.sub_zero]

end

/-- A text that spells a decimal is read as the decimal, with either sign. -/
theorem Spelled.read? {cs : List Char} {c : Nat} {e : Int} (h : Spelled cs c e)
    (negative : Bool) :
    read? ((if negative then ['-'] else []) ++ cs) = some (.decimal negative c e) := by
  obtain ⟨d, rest, rfl, hd⟩ := h.starts
  cases negative with
  | true =>
    have hsplit : splitSign (['-'] ++ d :: rest) = (true, d :: rest) := rfl
    unfold Literal.read?
    rw [if_pos rfl, hsplit]
    dsimp only
    rw [h.reads true, Option.some_or]
  | false =>
    have hsplit : splitSign (d :: rest) = (false, d :: rest) :=
      splitSign_of_isDigit .none fun c hc => (Option.some.inj hc) ▸ hd
    unfold Literal.read?
    rw [if_neg Bool.false_ne_true, List.nil_append, hsplit]
    dsimp only
    rw [h.reads false, Option.some_or]

/-- The numeral of a whole number is read as a decimal without a fraction or an exponent. -/
theorem read?_renderInt (n : Int) :
    read? (Value.renderInt n) = some (.decimal (n < 0) n.natAbs 0) := by
  have hspelled := spelled_whole (fun _ hc => isDigit_of_mem_toDigits hc)
    (Nat.toDigits_ne_nil (b := 10) (n := n.natAbs)) Suffix.none readExponent_zero
  have hread := hspelled.read? (n < 0)
  rw [List.append_nil, numeral_toDigits] at hread
  rw [← hread]
  unfold Value.renderInt
  by_cases hn : n < 0
  · rw [if_pos hn, if_pos (decide_eq_true hn)]
    rfl
  · rw [if_neg hn, if_neg (by rw [decide_eq_true_eq]; exact hn)]
    rfl

end Literal

/-! ## Layouts -/

namespace Decimal

open Literal

theorem den_ratio_pos (d : Decimal) : 0 < d.ratio.den :=
  den_tenfold_pos _ _

theorem isDigit_of_mem_zeros {n : Nat} {c : Char} (h : c ∈ List.replicate n '0') :
    c.isDigit = true := by
  rw [List.eq_of_mem_replicate h]
  rfl

section
variable {ds : List Char} {c : Nat} {e : Int}

/-- Digits and zeros in front of the point, and one zero behind it. -/
theorem spelled_plain_whole (hd : ∀ x ∈ ds, x.isDigit = true) (hne : ds ≠ [])
    (hc : numeral 10 ds = c) (he : 0 ≤ e) :
    ∃ c' e', Spelled (layPlain ds e) c' e' ∧ (tenfold c' e').Same (tenfold c e) := by
  have hlay : layPlain ds e =
      (ds ++ List.replicate e.toNat '0') ++ '.' :: (List.replicate 1 '0' ++ []) := by
    unfold layPlain
    rw [if_pos he, List.append_nil]
    rfl
  have hwhole : ∀ x ∈ ds ++ List.replicate e.toNat '0', x.isDigit = true := by
    intro x hx
    rcases List.mem_append.1 hx with hx | hx
    · exact hd x hx
    · exact isDigit_of_mem_zeros hx
  have hspelled := spelled_point hwhole (List.append_ne_nil_of_left_ne_nil hne _)
    (fun x hx => isDigit_of_mem_zeros (n := 1) hx) Suffix.none readExponent_zero
  have hnumeral : numeral 10 ((ds ++ List.replicate e.toNat '0') ++ List.replicate 1 '0') =
      c * 10 ^ (e.toNat + 1) := by
    rw [List.append_assoc, List.replicate_append_replicate, numeral_append, hc, numeralFrom_zeros]
  have hexp : (0 : Int) - (List.replicate 1 '0').length = e - (e.toNat + 1 : Nat) := by
    rw [List.length_replicate]
    omega
  rw [hnumeral, hexp] at hspelled
  exact ⟨_, _, hlay ▸ hspelled, tenfold_zeros c (e.toNat + 1) e⟩

/-- A point among the digits. -/
theorem spelled_plain_among (hd : ∀ x ∈ ds, x.isDigit = true) (hc : numeral 10 ds = c)
    (he : ¬ 0 ≤ e) (hp : (-e).toNat < ds.length) : Spelled (layPlain ds e) c e := by
  have hlay : layPlain ds e = ds.take (ds.length - (-e).toNat) ++
      '.' :: (ds.drop (ds.length - (-e).toNat) ++ []) := by
    simp only [layPlain, if_neg he, if_pos hp, List.append_nil]
  have hne : ds.take (ds.length - (-e).toNat) ≠ [] := by
    intro h
    have := congrArg List.length h
    rw [List.length_take, List.length_nil] at this
    omega
  have hfraction : ∀ x ∈ ds.drop (ds.length - (-e).toNat), x.isDigit = true :=
    fun x hx => hd x (List.mem_of_mem_drop hx)
  have hspelled := spelled_point (fun x hx => hd x (List.mem_of_mem_take hx)) hne hfraction
    Suffix.none readExponent_zero
  have hexp : (0 : Int) - (ds.drop (ds.length - (-e).toNat)).length = e := by
    rw [List.length_drop]
    omega
  rw [List.take_append_drop, hc, hexp] at hspelled
  exact hlay ▸ hspelled

/-- A point in front of zeros that stand in front of the digits. -/
theorem spelled_plain_before (hd : ∀ x ∈ ds, x.isDigit = true) (hc : numeral 10 ds = c)
    (he : ¬ 0 ≤ e) (hp : ¬ (-e).toNat < ds.length) : Spelled (layPlain ds e) c e := by
  have hlay : layPlain ds e = List.replicate 1 '0' ++ '.' ::
      ((List.replicate ((-e).toNat - ds.length) '0' ++ ds) ++ []) := by
    simp only [layPlain, if_neg he, if_neg hp, List.append_nil]
    rfl
  have hfraction : ∀ x ∈ List.replicate ((-e).toNat - ds.length) '0' ++ ds, x.isDigit = true := by
    intro x hx
    rcases List.mem_append.1 hx with hx | hx
    · exact isDigit_of_mem_zeros hx
    · exact hd x hx
  have hspelled := spelled_point (fun x hx => isDigit_of_mem_zeros (n := 1) hx)
    (List.cons_ne_nil _ _) hfraction Suffix.none readExponent_zero
  have hnumeral : numeral 10 (List.replicate 1 '0' ++
      (List.replicate ((-e).toNat - ds.length) '0' ++ ds)) = c := by
    have hzero := numeralFrom_zeros 0 (1 + ((-e).toNat - ds.length))
    rw [Nat.zero_mul] at hzero
    rw [← List.append_assoc, List.replicate_append_replicate, numeral_append]
    unfold numeral at hc ⊢
    rw [hzero, hc]
  have hexp : (0 : Int) - (List.replicate ((-e).toNat - ds.length) '0' ++ ds).length = e := by
    rw [List.length_append, List.length_replicate]
    omega
  rw [hnumeral, hexp] at hspelled
  exact hlay ▸ hspelled

end

/-- Digits with a point among them or beside them spell a decimal of the value. -/
theorem spelled_layPlain (d : Decimal) :
    ∃ c e, Spelled (layPlain (Nat.toDigits 10 d.coefficient) d.exponent) c e ∧
      (tenfold c e).Same d.ratio := by
  have hd : ∀ x ∈ Nat.toDigits 10 d.coefficient, x.isDigit = true :=
    fun _ hx => isDigit_of_mem_toDigits hx
  have hc := numeral_toDigits d.coefficient
  by_cases he : 0 ≤ d.exponent
  · exact spelled_plain_whole hd Nat.toDigits_ne_nil hc he
  · by_cases hp : (-d.exponent).toNat < (Nat.toDigits 10 d.coefficient).length
    · exact ⟨_, _, spelled_plain_among hd hc he hp, rfl⟩
    · exact ⟨_, _, spelled_plain_before hd hc he hp, rfl⟩

/-- Digits with an exponent spell the decimal. -/
theorem spelled_layScientific (d : Decimal) {k : Int} (hk : k.natAbs < 10 * exponentBound)
    (he : k = d.exponent + (Nat.toDigits 10 d.coefficient).length - 1) :
    Spelled (layScientific (Nat.toDigits 10 d.coefficient) k) d.coefficient d.exponent := by
  have hdigits : ∀ c ∈ Nat.toDigits 10 d.coefficient, c.isDigit = true :=
    fun _ hc => isDigit_of_mem_toDigits hc
  have hvalue := numeral_toDigits d.coefficient
  have hne : Nat.toDigits 10 d.coefficient ≠ [] := Nat.toDigits_ne_nil
  generalize Nat.toDigits 10 d.coefficient = ds at hdigits hvalue hne he ⊢
  obtain ⟨c, rest, rfl⟩ := List.exists_cons_of_ne_nil hne
  have hfirst : ∀ x ∈ [c], x.isDigit = true := by
    intro x hx
    exact hdigits x (List.mem_of_mem_head? (by rw [← List.mem_singleton.1 hx]; rfl))
  cases rest with
  | nil =>
    have hspelled := spelled_whole hfirst (List.cons_ne_nil _ _) (suffix_toString k)
      (readExponent_of_lt hk)
    rw [hvalue, show k = d.exponent by rw [he, List.length_singleton]; omega] at hspelled
    rw [show k = d.exponent by rw [he, List.length_singleton]; omega]
    exact hspelled
  | cons x rest =>
    have hspelled := spelled_point hfirst (List.cons_ne_nil _ _)
      (fun y hy => hdigits y (List.mem_cons_of_mem c hy)) (suffix_toString k)
      (readExponent_of_lt hk)
    have hexp : k - (x :: rest).length = d.exponent := by
      rw [he, List.length_cons, List.length_cons]
      omega
    rw [show [c] ++ x :: rest = c :: x :: rest from rfl, hvalue, hexp] at hspelled
    exact hspelled

/-- The layout of a decimal spells a decimal of its value. -/
theorem spelled_layout (d : Decimal)
    (hk : (d.exponent + digitCount d.coefficient - 1).natAbs < 10 * exponentBound) :
    ∃ c e, Spelled d.layout c e ∧ (tenfold c e).Same d.ratio := by
  simp only [layout]
  split
  · exact spelled_layPlain d
  · exact ⟨_, _, spelled_layScientific d hk rfl, rfl⟩

end Decimal

end MarkupFields
