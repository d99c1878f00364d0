import MarkupFields.Number.BinaryFloat
import Mathlib.Data.Int.Log
import Mathlib.Data.Rat.Floor
import Mathlib.Tactic.FieldSimp
import Mathlib.Tactic.Linarith
import Mathlib.Tactic.Positivity
import Mathlib.Tactic.Ring

/-
  Rounding to the nearest magnitude. What a ratio is rounded to depends on its value alone, not on
  the numerator and denominator that spell it (`nearestRank_congr`); and every magnitude is rounded
  to its own rank (`nearestRank_magnitude`).
-/

namespace MarkupFields

namespace Ratio

/-- The two ratios have the same value. -/
def Same (r s : Ratio) : Prop :=
  r.num * s.den = s.num * r.den

theorem Same.symm {r s : Ratio} (h : r.Same s) : s.Same r :=
  Eq.symm h

theorem Same.trans {r s t : Ratio} (hs : 0 < s.den) (h : r.Same s) (h' : s.Same t) :
    r.Same t := by
  unfold Same at h h' ⊢
  refine Nat.eq_of_mul_eq_mul_right hs ?_
  calc r.num * t.den * s.den = r.num * s.den * t.den := by ring
    _ = s.num * r.den * t.den := by rw [h]
    _ = s.num * t.den * r.den := by ring
    _ = t.num * s.den * r.den := by rw [h']
    _ = t.num * r.den * s.den := by ring

/-- The ratio spelled with a common factor. -/
def widened (r : Ratio) (c : Nat) : Ratio :=
  ⟨r.num * c, r.den * c⟩

/-- What does not change with a common factor depends on the value alone. -/
theorem eq_of_same {β : Type} {f : Ratio → β}
    (hf : ∀ (r : Ratio) (c : Nat), 0 < r.den → 0 < c → f (r.widened c) = f r) {r s : Ratio}
    (hr : 0 < r.den) (hs : 0 < s.den) (h : r.Same s) : f r = f s := by
  have hw : r.widened s.den = s.widened r.den := by
    unfold widened
    rw [show r.num * s.den = s.num * r.den from h, Nat.mul_comm r.den]
  rw [← hf r s.den hr hs, hw, hf s r.den hs hr]

/-- Factors of a base make up for a lower exponent of it. -/
theorem same_shifted (b c k : Nat) (e : Int) :
    Same ⟨c * b ^ k * b ^ (e - k).toNat, b ^ (-(e - k)).toNat⟩
      ⟨c * b ^ e.toNat, b ^ (-e).toNat⟩ := by
  have hexp : k + (e - k).toNat + (-e).toNat = e.toNat + (-(e - k)).toNat := by omega
  show c * b ^ k * b ^ (e - k).toNat * b ^ (-e).toNat = c * b ^ e.toNat * b ^ (-(e - k)).toNat
  rw [Nat.mul_assoc c, ← Nat.pow_add, Nat.mul_assoc c, ← Nat.pow_add, hexp, Nat.mul_assoc,
    ← Nat.pow_add]

/-! ## Whole numbers -/

theorem nearestWhole_widened (r : Ratio) (c : Nat) (hc : 0 < c) :
    (r.widened c).nearestWhole = r.nearestWhole := by
  have hdiv : r.num * c / (r.den * c) = r.num / r.den := Nat.mul_div_mul_right _ _ hc
  have hmod : r.num * c % (r.den * c) = r.num % r.den * c := Nat.mul_mod_mul_right _ _ _
  have hlow : 2 * (r.num % r.den * c) < r.den * c ↔ 2 * (r.num % r.den) < r.den := by
    rw [← Nat.mul_assoc, Nat.mul_lt_mul_right hc]
  have hhigh : r.den * c < 2 * (r.num % r.den * c) ↔ r.den < 2 * (r.num % r.den) := by
    rw [← Nat.mul_assoc, Nat.mul_lt_mul_right hc]
  simp only [nearestWhole, widened, hdiv, hmod, hlow, hhigh]

theorem nearestWhole_mul (m c : Nat) (hc : 0 < c) : nearestWhole ⟨m * c, c⟩ = m := by
  have hdiv : m * c / c = m := Nat.mul_div_cancel m hc
  have hmod : m * c % c = 0 := Nat.mul_mod_left m c
  simp only [nearestWhole, hdiv, hmod, Nat.mul_zero, if_pos hc]

theorem shiftedDown_widened (r : Ratio) (c : Nat) (q : Int) :
    (r.widened c).shiftedDown q = (r.shiftedDown q).widened c := by
  simp only [shiftedDown, widened, Nat.mul_right_comm]

/-! ## Exponents -/

/-- The value of the ratio. -/
def value (r : Ratio) : ℚ :=
  r.num / r.den

theorem value_widened (r : Ratio) (c : Nat) (hc : 0 < c) : (r.widened c).value = r.value := by
  have hc' : (c : ℚ) ≠ 0 := Nat.cast_ne_zero.2 (Nat.ne_of_gt hc)
  unfold value widened
  rw [Nat.cast_mul, Nat.cast_mul, mul_div_mul_right _ _ hc']

/-- A power of an integer exponent, with the parts of the exponent above and below zero apart. -/
theorem zpow_eq_div {b : ℚ} (hb : b ≠ 0) (k : Int) : b ^ k = b ^ k.toNat / b ^ (-k).toNat := by
  rw [eq_div_iff (pow_ne_zero _ hb), ← zpow_natCast, ← zpow_natCast, ← zpow_add₀ hb]
  congr 1
  omega

/-- A power of two is at most the value, said with whole numbers. -/
theorem two_zpow_le_value {r : Ratio} (hd : 0 < r.den) (k : Int) :
    (2 : ℚ) ^ k ≤ r.value ↔ r.den * 2 ^ k.toNat ≤ r.num * 2 ^ (-k).toNat := by
  have hd' : (0 : ℚ) < r.den := Nat.cast_pos.2 hd
  have hp : (0 : ℚ) < 2 ^ (-k).toNat := by positivity
  unfold value
  rw [zpow_eq_div (by norm_num), div_le_div_iff₀ hp hd', mul_comm]
  exact_mod_cast Iff.rfl

/-- The exponent found from the lengths of numerator and denominator is that of the value. -/
theorem log2_eq_log {r : Ratio} (hn : 0 < r.num) (hd : 0 < r.den) :
    r.log2 = Int.log 2 r.value := by
  have hn' : (0 : ℚ) < r.num := Nat.cast_pos.2 hn
  have hd' : (0 : ℚ) < r.den := Nat.cast_pos.2 hd
  have hv : 0 < r.value := div_pos hn' hd'
  let a : Int := Nat.log2 r.num
  let b : Int := Nat.log2 r.den
  have hnlow : (2 : ℚ) ^ a ≤ r.num := by
    rw [zpow_natCast]
    exact_mod_cast Nat.log2_self_le (Nat.ne_of_gt hn)
  have hnhigh : (r.num : ℚ) < 2 ^ (a + 1) := by
    rw [show a + 1 = ((Nat.log2 r.num + 1 : Nat) : Int) from rfl, zpow_natCast]
    exact_mod_cast Nat.lt_log2_self
  have hdlow : (2 : ℚ) ^ b ≤ r.den := by
    rw [zpow_natCast]
    exact_mod_cast Nat.log2_self_le (Nat.ne_of_gt hd)
  have hdhigh : (r.den : ℚ) < 2 ^ (b + 1) := by
    rw [show b + 1 = ((Nat.log2 r.den + 1 : Nat) : Int) from rfl, zpow_natCast]
    exact_mod_cast Nat.lt_log2_self
  have hlow : (2 : ℚ) ^ (a - b - 1) ≤ r.value := by
    rw [show a - b - 1 = a - (b + 1) by omega, zpow_sub₀ (by norm_num)]
    unfold value
    exact div_le_div₀ hn'.le hnlow hd' hdhigh.le
  have hhigh : r.value < 2 ^ (a - b + 1) := by
    rw [show a - b + 1 = a + 1 - b by omega, zpow_sub₀ (by norm_num)]
    unfold value
    have hb : (0 : ℚ) < 2 ^ b := zpow_pos (by norm_num) b
    exact div_lt_div₀ hnhigh hdlow (zpow_pos (by norm_num) (a + 1)).le hb
  have hge : a - b - 1 ≤ Int.log 2 r.value :=
    (Int.zpow_le_iff_le_log (by norm_num) hv).1 (by exact_mod_cast hlow)
  have hlt : Int.log 2 r.value < a - b + 1 :=
    (Int.lt_zpow_iff_log_lt (by norm_num) hv).1 (by exact_mod_cast hhigh)
  have hiff : r.den * 2 ^ (a - b).toNat ≤ r.num * 2 ^ (-(a - b)).toNat ↔
      a - b ≤ Int.log 2 r.value := by
    rw [← two_zpow_le_value hd, ← Int.zpow_le_iff_le_log (by norm_num) hv]
    exact_mod_cast Iff.rfl
  show (if r.den * 2 ^ (a - b).toNat ≤ r.num * 2 ^ (-(a - b)).toNat then a - b else a - b - 1) = _
  by_cases h : a - b ≤ Int.log 2 r.value
  · rw [if_pos (hiff.2 h)]
    omega
  · rw [if_neg (mt hiff.1 h)]
    omega

theorem log2_widened {r : Ratio} (hn : 0 < r.num) (hd : 0 < r.den) {c : Nat} (hc : 0 < c) :
    (r.widened c).log2 = r.log2 := by
  rw [log2_eq_log hn hd, log2_eq_log (Nat.mul_pos hn hc) (Nat.mul_pos hd hc), value_widened r c hc]

/-- The value of a whole number times a power of a base, spelled with whole numbers. -/
theorem value_mul_pow {b : Nat} (hb : b ≠ 0) (c : Nat) (e : Int) :
    value ⟨c * b ^ e.toNat, b ^ (-e).toNat⟩ = c * (b : ℚ) ^ e := by
  unfold value
  rw [zpow_eq_div (Nat.cast_ne_zero.2 hb) e]
  push_cast
  ring

theorem value_scaled (m : Nat) (q : Int) : (scaled m q).value = m * 2 ^ q :=
  value_mul_pow (by decide) m q

theorem value_shiftedDown (r : Ratio) (q : Int) : (r.shiftedDown q).value = r.value / 2 ^ q := by
  have htwo : (2 : ℚ) ≠ 0 := by norm_num
  unfold value shiftedDown
  rw [zpow_eq_div htwo q]
  push_cast
  field_simp

theorem nearestWhole_eq_zero_iff {r : Ratio} (hd : 0 < r.den) :
    r.nearestWhole = 0 ↔ 2 * r.value ≤ 1 := by
  have hvalue : 2 * r.value ≤ 1 ↔ 2 * r.num ≤ r.den := by
    unfold value
    rw [← mul_div_assoc, div_le_one (Nat.cast_pos.2 hd)]
    exact_mod_cast Iff.rfl
  rw [hvalue]
  unfold nearestWhole
  dsimp only
  by_cases h : 2 * r.num ≤ r.den
  · have hlt : r.num < r.den := by omega
    rw [Nat.div_eq_of_lt hlt, Nat.mod_eq_of_lt hlt, iff_true_right h]
    split_ifs
    · rfl
    · omega
    · rfl
  · have hmod : r.num / r.den = 0 → r.num % r.den = r.num :=
      fun hzero => Nat.mod_eq_of_lt ((Nat.div_eq_zero_iff_lt hd).1 hzero)
    refine iff_of_false (fun hzero => ?_) h
    split_ifs at hzero
    · have := hmod hzero
      omega
    · have := hmod (Nat.add_eq_zero_iff.1 hzero).1
      omega

/-- A whole number times a power of two lies between the powers between which the whole number
lies. -/
theorem log2_scaled {m k : Nat} (hlow : 2 ^ k ≤ m) (hhigh : m < 2 ^ (k + 1)) (q : Int) :
    (scaled m q).log2 = k + q := by
  have hm : 0 < m := Nat.lt_of_lt_of_le (Nat.two_pow_pos k) hlow
  have hnum : 0 < (scaled m q).num := Nat.mul_pos hm (Nat.two_pow_pos _)
  have hden : 0 < (scaled m q).den := Nat.two_pow_pos _
  have hvalue := value_scaled m q
  have hq : (0 : ℚ) < 2 ^ q := zpow_pos (by norm_num) q
  have hv : 0 < (scaled m q).value := by
    rw [hvalue]
    exact mul_pos (Nat.cast_pos.2 hm) hq
  have hge : (k : Int) + q ≤ Int.log 2 (scaled m q).value := by
    refine (Int.zpow_le_iff_le_log (by norm_num) hv).1 ?_
    rw [hvalue, Nat.cast_ofNat, zpow_add₀ (by norm_num), zpow_natCast]
    exact mul_le_mul_of_nonneg_right (by exact_mod_cast hlow) hq.le
  have hlt : Int.log 2 (scaled m q).value < (k : Int) + 1 + q := by
    refine (Int.lt_zpow_iff_log_lt (by norm_num) hv).1 ?_
    rw [hvalue, Nat.cast_ofNat, zpow_add₀ (by norm_num)]
    refine mul_lt_mul_of_pos_right ?_ hq
    rw [show (k : Int) + 1 = ((k + 1 : Nat) : Int) from rfl, zpow_natCast]
    exact_mod_cast hhigh
  rw [log2_eq_log hnum hden]
  omega

end Ratio

namespace Precision

/-! ## Ranks -/

theorem nearestRank_widened (p : Precision) (r : Ratio) (c : Nat) (hd : 0 < r.den) (hc : 0 < c) :
    p.nearestRank (r.widened c) = p.nearestRank r := by
  by_cases hn : r.num = 0
  · have hn' : (r.widened c).num = 0 := by
      show r.num * c = 0
      rw [hn, Nat.zero_mul]
    unfold nearestRank
    rw [if_pos hn, if_pos hn']
  · have hn' : (r.widened c).num ≠ 0 := Nat.mul_ne_zero hn (Nat.ne_of_gt hc)
    unfold nearestRank
    simp only [if_neg hn, if_neg hn']
    rw [Ratio.log2_widened (Nat.pos_of_ne_zero hn) hd hc, Ratio.shiftedDown_widened,
      Ratio.nearestWhole_widened _ _ hc]

/-- The rank that a ratio is rounded to depends on its value alone. -/
theorem nearestRank_congr (p : Precision) {r s : Ratio} (hr : 0 < r.den) (hs : 0 < s.den)
    (h : r.Same s) : p.nearestRank r = p.nearestRank s :=
  Ratio.eq_of_same (p.nearestRank_widened) hr hs h

/-- A ratio is rounded to zero exactly if it is at most half of the lowest magnitude above zero. -/
theorem nearestRank_eq_zero_iff (p : Precision) {r : Ratio} (hd : 0 < r.den) :
    p.nearestRank r = 0 ↔ 2 * r.value ≤ 2 ^ p.minExponent := by
  have htwo : ∀ k : Int, (0 : ℚ) < 2 ^ k := fun k => zpow_pos (by norm_num) k
  by_cases hn : r.num = 0
  · have hvalue : r.value = 0 := by
      unfold Ratio.value
      rw [hn, Nat.cast_zero, zero_div]
    unfold nearestRank
    rw [if_pos hn, hvalue, mul_zero]
    exact iff_of_true rfl (htwo _).le
  · have hshift : 0 < (r.shiftedDown p.minExponent).den := Nat.mul_pos hd (Nat.two_pow_pos _)
    unfold nearestRank
    rw [if_neg hn]
    dsimp only
    rw [Nat.add_eq_zero_iff, Nat.mul_eq_zero, or_iff_left p.span_pos.ne']
    by_cases hlog : p.minExponent < r.log2 - p.fractionBits
    · -- the ratio is a normal magnitude at least
      have hlow : (2 : ℚ) ^ p.minExponent < 2 * r.value := by
        have hle : (2 : ℚ) ^ r.log2 ≤ r.value := by
          have hpos : 0 < r.value :=
            div_pos (Nat.cast_pos.2 (Nat.pos_of_ne_zero hn)) (Nat.cast_pos.2 hd)
          rw [Ratio.log2_eq_log (Nat.pos_of_ne_zero hn) hd]
          exact_mod_cast Int.zpow_log_le_self (by norm_num) hpos
        have hlt : (2 : ℚ) ^ p.minExponent < 2 ^ r.log2 :=
          zpow_lt_zpow_right₀ (by norm_num) (by omega)
        linarith [htwo p.minExponent]
      refine iff_of_false (fun h => ?_) (not_le.2 hlow)
      omega
    · rw [max_eq_right (Int.not_lt.1 hlog), Int.sub_self, Int.toNat_zero, eq_self_iff_true, true_and,
        Ratio.nearestWhole_eq_zero_iff hshift, Ratio.value_shiftedDown, ← mul_div_assoc,
        div_le_one (htwo _)]

/-- A whole number times a power of two that is no lower than the lowest, and high enough to have no
fraction at its exponent, has the rank that its parts say. -/
theorem nearestRank_scaled (p : Precision) {m : Nat} {q : Int} (hm : m < 2 * p.span)
    (hq : p.minExponent ≤ q) (hhigh : q = p.minExponent ∨ p.span ≤ m) :
    p.nearestRank (Ratio.scaled m q) = (q - p.minExponent).toNat * p.span + m := by
  have hspan : p.span = 2 ^ p.fractionBits := rfl
  have htwo : 2 * p.span = 2 ^ (p.fractionBits + 1) := by
    rw [hspan, Nat.pow_succ, Nat.mul_comm]
  by_cases hzero : m = 0
  · have hq' : q = p.minExponent := by
      rcases hhigh with h | h
      · exact h
      · have := p.span_pos
        omega
    have hnum : (Ratio.scaled m q).num = 0 := by
      show m * 2 ^ q.toNat = 0
      rw [hzero, Nat.zero_mul]
    unfold nearestRank
    rw [if_pos hnum, hq', hzero, Int.sub_self, Int.toNat_zero, Nat.zero_mul]
  · have hnum : (Ratio.scaled m q).num ≠ 0 :=
      Nat.mul_ne_zero hzero (Nat.ne_of_gt (Nat.two_pow_pos _))
    have hlog : (Ratio.scaled m q).log2 = Nat.log2 m + q :=
      Ratio.log2_scaled (Nat.log2_self_le hzero) Nat.lt_log2_self q
    have hle : Nat.log2 m ≤ p.fractionBits := by
      have : Nat.log2 m < p.fractionBits + 1 := (Nat.log2_lt hzero).2 (htwo ▸ hm)
      omega
    have hmax : max ((Ratio.scaled m q).log2 - p.fractionBits) p.minExponent = q := by
      rw [hlog]
      rcases hhigh with h | h
      · omega
      · have : p.fractionBits ≤ Nat.log2 m := (Nat.le_log2 hzero).2 (hspan ▸ h)
        omega
    have hwhole : ((Ratio.scaled m q).shiftedDown q).nearestWhole = m := by
      have hshift : (Ratio.scaled m q).shiftedDown q =
          ⟨m * (2 ^ q.toNat * 2 ^ (-q).toNat), 2 ^ q.toNat * 2 ^ (-q).toNat⟩ := by
        unfold Ratio.shiftedDown Ratio.scaled
        rw [Nat.mul_assoc, Nat.mul_comm (2 ^ (-q).toNat)]
      rw [hshift]
      exact Ratio.nearestWhole_mul _ _ (Nat.mul_pos (Nat.two_pow_pos _) (Nat.two_pow_pos _))
    unfold nearestRank
    rw [if_neg hnum]
    simp only [hmax, hwhole]

/-- A magnitude is rounded to its rank. -/
theorem nearestRank_magnitude (p : Precision) (rank : Nat) :
    p.nearestRank (p.magnitude rank) = rank := by
  unfold magnitude parts
  by_cases h : rank < p.span
  · rw [if_pos h, nearestRank_scaled p (by omega) (Int.le_refl _) (.inl rfl), Int.sub_self]
    simp
  · have hmod := Nat.mod_lt rank p.span_pos
    have hdiv := Nat.div_add_mod rank p.span
    have hone : 1 ≤ rank / p.span := Nat.div_pos (Nat.le_of_not_lt h) p.span_pos
    rw [if_neg h]
    dsimp only
    rw [nearestRank_scaled p (by omega) (by omega) (.inr (by omega))]
    have hexp : (p.minExponent + (rank / p.span - 1 : Nat) - p.minExponent).toNat =
        rank / p.span - 1 := by omega
    obtain ⟨k, hk⟩ : ∃ k, rank / p.span = k + 1 := ⟨rank / p.span - 1, by omega⟩
    rw [hexp, hk, Nat.add_sub_cancel]
    rw [hk, Nat.mul_comm, Nat.add_mul, Nat.one_mul] at hdiv
    omega

/-- The whole number and the power of two of a magnitude are within the bits of the precision. -/
theorem parts_bounds (p : Precision) {rank : Nat} (h : rank < p.limit) :
    (p.parts rank).1 < 2 * p.span ∧ p.minExponent ≤ (p.parts rank).2 ∧
      (p.parts rank).2 + 3 ≤ p.minExponent + (2 ^ p.exponentBits : Nat) := by
  have hdiv : rank / p.span < 2 ^ p.exponentBits - 1 :=
    (Nat.div_lt_iff_lt_mul p.span_pos).2 h
  have hmod := Nat.mod_lt rank p.span_pos
  have hbits : 8 ≤ 2 ^ p.exponentBits := by cases p <;> decide
  unfold parts
  split
  · exact ⟨by omega, by omega, by omega⟩
  · exact ⟨by omega, by omega, by omega⟩

theorem den_magnitude_pos (p : Precision) (rank : Nat) : 0 < (p.magnitude rank).den :=
  Nat.two_pow_pos _

end Precision

end MarkupFields
