import MarkupFields.Field.Conversion
import MarkupFields.Proofs.Number.Rounding
import MarkupFields.Proofs.Number.Spelling

/-
  Floating point numbers written and read back. The shortest decimal of a magnitude is rounded to the
  magnitude: each decimal that is tried was checked to do so, and the exact value behind them is the
  magnitude itself; zeros taken away at the end do not change the value (`nearestRank_shortest`). Its
  layout spells a decimal of the same value, and rounding depends on the value alone, so every number
  is read back from its text (`toFloat_of_read?_render`).
-/

namespace MarkupFields

open Text Literal

namespace Decimal

/-! ## The shortest decimal -/

/-- Zeros taken away at the end do not change the value. -/
theorem same_trimmed (n : Nat) (d : Decimal) : (trimmed n d).ratio.Same d.ratio := by
  induction n generalizing d with
  | zero => rfl
  | succ n ih =>
    unfold trimmed
    split
    · rename_i h
      have hc : d.coefficient / 10 * 10 ^ 1 = d.coefficient := by omega
      have he : d.exponent + 1 - (1 : Nat) = d.exponent := by omega
      have hstep := tenfold_zeros (d.coefficient / 10) 1 (d.exponent + 1)
      rw [hc, he] at hstep
      exact (ih ⟨d.coefficient / 10, d.exponent + 1⟩).trans (den_ratio_pos _) hstep.symm
    · rfl

/-- The exact decimal has the value of the whole number times the power of two. -/
theorem same_exact (m : Nat) (q : Int) : (exact m q).ratio.Same (Ratio.scaled m q) := by
  unfold exact
  split
  · rename_i hq
    have htwo : q.toNat = 0 := by omega
    show m * 5 ^ (-q).toNat * 10 ^ q.toNat * 2 ^ (-q).toNat = m * 2 ^ q.toNat * 10 ^ (-q).toNat
    rw [htwo, Nat.pow_zero, Nat.mul_one, Nat.pow_zero, Nat.mul_one, Nat.mul_assoc, ← Nat.mul_pow]
  · rename_i hq
    have hneg : (-q).toNat = 0 := by omega
    show m * 2 ^ q.toNat * 10 ^ 0 * 2 ^ (-q).toNat = m * 2 ^ q.toNat * 10 ^ 0
    rw [hneg, Nat.pow_zero, Nat.mul_one, Nat.pow_zero, Nat.mul_one]

/-- A decimal that is tried and found reads back. -/
theorem readsBack_of_withDigits? {p : Precision} {rank : Nat} {k : Int} {count : Nat}
    {d : Decimal} (h : withDigits? p rank k count = some d) : readsBack p rank d = true := by
  unfold withDigits? at h
  dsimp only at h
  split at h
  · rename_i hlow hhigh
    rw [← Option.some.inj h]
    split
    · exact hlow
    · exact hhigh
  · rename_i hlow hhigh
    rw [← Option.some.inj h]
    exact hlow
  · rename_i hlow hhigh
    rw [← Option.some.inj h]
    exact hhigh
  · cases h

/-- The shortest decimal is rounded to the magnitude. -/
theorem nearestRank_shortest (p : Precision) (rank : Nat) :
    p.nearestRank (shortest p rank).ratio = rank := by
  unfold shortest
  dsimp only
  split
  · rename_i d hd
    obtain ⟨count, -, hcount⟩ := List.exists_of_findSome?_eq_some hd
    have hback := readsBack_of_withDigits? hcount
    rw [p.nearestRank_congr (den_ratio_pos _) (den_ratio_pos _) (same_trimmed 17 d)]
    exact beq_iff_eq.1 hback
  · rw [p.nearestRank_congr (den_ratio_pos _) (p.den_magnitude_pos rank)
      (same_exact (p.parts rank).1 (p.parts rank).2)]
    exact p.nearestRank_magnitude rank

/-! ## How large it can be -/

theorem digitCount_le {n k : Nat} (hk : 0 < k) (h : n < 10 ^ k) : digitCount n ≤ k :=
  (Nat.length_toDigits_le_iff (by decide) hk).2 h

theorem lt_ten_pow_of_lt_two_pow {n k : Nat} (h : n < 2 ^ k) : n < 10 ^ k :=
  Nat.lt_of_lt_of_le h (Nat.pow_le_pow_left (by decide) k)

/-- The decimal has few digits and an exponent that is not far from zero. -/
def Within (k : Nat) (d : Decimal) : Prop :=
  d.coefficient < 10 ^ k ∧ d.exponent.natAbs ≤ k

theorem Within.mono {k n : Nat} {d : Decimal} (h : d.Within k) (hk : k ≤ n) : d.Within n :=
  ⟨Nat.lt_of_lt_of_le h.1 (Nat.pow_le_pow_right (by decide) hk), Nat.le_trans h.2 hk⟩

theorem within_trimmed {k : Nat} (n : Nat) {d : Decimal} (h : d.Within k) :
    (trimmed n d).Within (k + n) := by
  induction n generalizing d k with
  | zero => exact h
  | succ n ih =>
    unfold trimmed
    split
    · have hnext : (⟨d.coefficient / 10, d.exponent + 1⟩ : Decimal).Within (k + 1) := by
        have hle : 10 ^ k ≤ 10 ^ (k + 1) := Nat.pow_le_pow_right (by decide) (by omega)
        refine ⟨?_, ?_⟩
        · show d.coefficient / 10 < 10 ^ (k + 1)
          have := h.1
          omega
        · show (d.exponent + 1).natAbs ≤ k + 1
          have := h.2
          omega
      have := ih hnext
      rwa [Nat.add_assoc, Nat.add_comm 1 n] at this
    · exact h.mono (Nat.le_add_right _ _)

/-- The powers of two of magnitudes are not far from zero, and the numbers before them are small. -/
theorem parts_within {p : Precision} {rank : Nat} (h : rank < p.limit) :
    (p.parts rank).1 < 2 ^ 53 ∧ (p.parts rank).2.natAbs ≤ 1074 := by
  obtain ⟨hm, hlow, hhigh⟩ := p.parts_bounds h
  cases p with
  | single =>
    have hspan : Precision.single.span = 2 ^ 23 := rfl
    have hmin : Precision.single.minExponent = -149 := rfl
    have hbits : (2 : Nat) ^ Precision.single.exponentBits = 256 := rfl
    omega
  | double =>
    have hspan : Precision.double.span = 2 ^ 52 := rfl
    have hmin : Precision.double.minExponent = -1074 := rfl
    have hbits : (2 : Nat) ^ Precision.double.exponentBits = 2048 := rfl
    omega

theorem scaled_lt {m a b : Nat} {q : Int} (ha : 0 < a) (hm : m < 2 ^ a) (hq : q.natAbs ≤ b) :
    (Ratio.scaled m q).num < 10 ^ (a + b) ∧ (Ratio.scaled m q).den < 10 ^ (a + b) := by
  have hpow : ∀ n, n ≤ b → 2 ^ n ≤ 2 ^ b := fun n hn => Nat.pow_le_pow_right (by decide) hn
  refine ⟨lt_ten_pow_of_lt_two_pow ?_, lt_ten_pow_of_lt_two_pow ?_⟩
  · show m * 2 ^ q.toNat < 2 ^ (a + b)
    rw [Nat.pow_add]
    exact Nat.mul_lt_mul_of_lt_of_le hm (hpow _ (by omega)) (Nat.two_pow_pos _)
  · show 2 ^ (-q).toNat < 2 ^ (a + b)
    exact Nat.lt_of_le_of_lt (hpow _ (by omega)) (Nat.pow_lt_pow_right (by decide) (by omega))

theorem log10_within {r : Ratio} {k : Nat} (hk : 0 < k) (hn : r.num < 10 ^ k)
    (hd : r.den < 10 ^ k) : (log10 r).natAbs ≤ k := by
  have hnum := digitCount_le hk hn
  have hden := digitCount_le hk hd
  have hnum' : 0 < digitCount r.num := Nat.length_toDigits_pos
  have hden' : 0 < digitCount r.den := Nat.length_toDigits_pos
  unfold log10
  dsimp only
  split
  · omega
  · omega

/-- A decimal that is tried lies near the magnitude. -/
theorem within_withDigits? {p : Precision} {rank : Nat} {k : Int} {count n : Nat} {d : Decimal}
    (h : withDigits? p rank k count = some d) (hk : k.natAbs ≤ n) (hcount : count ≤ 17)
    (hn : (p.magnitude rank).num < 10 ^ n) : d.Within (n + n + 18) := by
  have hcandidate : ∀ c, c ≤ (p.magnitude rank).num * 10 ^ (-(k - count + 1)).toNat + 1 →
      (⟨c, k - count + 1⟩ : Decimal).Within (n + n + 18) := by
    intro c hc
    have hpow : 10 ^ (-(k - count + 1)).toNat ≤ 10 ^ (n + 17) :=
      Nat.pow_le_pow_right (by decide) (by omega)
    have hprod : (p.magnitude rank).num * 10 ^ (-(k - count + 1)).toNat < 10 ^ n * 10 ^ (n + 17) :=
      Nat.mul_lt_mul_of_lt_of_le hn hpow (Nat.pow_pos (by decide))
    have hlast : 10 ^ n * 10 ^ (n + 17) < 10 ^ (n + n + 18) := by
      rw [← Nat.pow_add]
      exact Nat.pow_lt_pow_right (by decide) (by omega)
    exact ⟨by show c < _; omega, by show (k - count + 1).natAbs ≤ _; omega⟩
  have hdiv := Nat.div_le_self ((p.magnitude rank).num * 10 ^ (-(k - count + 1)).toNat)
    ((p.magnitude rank).den * 10 ^ (k - count + 1).toNat)
  unfold withDigits? at h
  dsimp only at h
  split at h
  · rw [← Option.some.inj h]
    split
    · exact hcandidate _ (by omega)
    · exact hcandidate _ (by omega)
  · rw [← Option.some.inj h]
    exact hcandidate _ (by omega)
  · rw [← Option.some.inj h]
    exact hcandidate _ (by omega)
  · cases h

theorem within_exact {m a b : Nat} {q : Int} (hm : m < 2 ^ a) (hq : q.natAbs ≤ b) :
    (exact m q).Within (a + b) := by
  have hten : ∀ n, n ≤ b → 10 ^ n ≤ 10 ^ b := fun n hn => Nat.pow_le_pow_right (by decide) hn
  have hprod : ∀ c n, c ≤ 10 → n ≤ b → m * c ^ n < 10 ^ (a + b) := by
    intro c n hc hn
    have hle : c ^ n ≤ 10 ^ b := Nat.le_trans (Nat.pow_le_pow_left hc n) (hten n hn)
    rw [Nat.pow_add]
    exact Nat.mul_lt_mul_of_lt_of_le (lt_ten_pow_of_lt_two_pow hm) hle (Nat.pow_pos (by decide))
  unfold exact
  split
  · exact ⟨hprod 5 _ (by decide) (by omega), by show q.natAbs ≤ _; omega⟩
  · exact ⟨hprod 2 _ (by decide) (by omega), Nat.zero_le _⟩

/-- The shortest decimal of a magnitude has few digits, and an exponent not far from zero. -/
theorem within_shortest {p : Precision} {rank : Nat} (h : rank < p.limit) :
    ∃ n ≤ 2300, (shortest p rank).Within n := by
  obtain ⟨hm, hq⟩ := parts_within h
  obtain ⟨hnum, hden⟩ := scaled_lt (by decide) hm hq
  have hk := log10_within (by decide) hnum hden
  unfold shortest
  dsimp only
  split
  · rename_i d hd
    obtain ⟨count, hmem, hcount⟩ := List.exists_of_findSome?_eq_some hd
    have hle : count ≤ 17 := by
      rw [List.mem_range'_1] at hmem
      omega
    have htried := within_withDigits? hcount hk hle hnum
    generalize hn : 53 + 1074 + (53 + 1074) + 18 = n at htried
    exact ⟨n + 17, by omega, within_trimmed 17 htried⟩
  · exact ⟨53 + 1074, by omega, within_exact hm hq⟩

/-- The text of the shortest decimal spells a decimal that is rounded to the magnitude. -/
theorem spelled_shortest {p : Precision} {rank : Nat} (h : rank < p.limit) :
    ∃ c e, Spelled (shortest p rank).layout c e ∧ p.nearestRank (tenfold c e) = rank := by
  obtain ⟨n, hn, hwithin⟩ := within_shortest h
  have hcount := digitCount_le (Nat.succ_pos n) (hwithin.mono (Nat.le_succ n)).1
  have hpos : 0 < digitCount (shortest p rank).coefficient := Nat.length_toDigits_pos
  have hexp := hwithin.2
  have hbound : exponentBound = 65536 := rfl
  obtain ⟨c, e, hspelled, hsame⟩ := spelled_layout (shortest p rank) (by omega)
  refine ⟨c, e, hspelled, ?_⟩
  rw [p.nearestRank_congr (den_tenfold_pos c e) (den_ratio_pos _) hsame]
  exact nearestRank_shortest p rank

end Decimal

/-! ## Numbers -/

namespace BinaryFloat

variable {p : Precision}

theorem spelled_zero : Spelled "0.0".toList 0 (-1) where
  starts := ⟨'0', ['.', '0'], rfl, rfl⟩
  noSpace := noSpace_of_any (by decide)
  reads := fun _ => rfl

theorem round_of_nearestRank {negative : Bool} {rank : Fin p.limit} {r : Ratio}
    (h : p.nearestRank r = rank) : round p negative r = .finite negative rank := by
  unfold round
  dsimp only
  rw [dif_pos (h ▸ rank.isLt)]
  congr 1
  exact Fin.ext h

theorem render_finite (negative : Bool) (rank : Fin p.limit) :
    (finite negative rank).render = (if negative then ['-'] else []) ++
      (if rank.val = 0 then "0.0".toList else (Decimal.shortest p rank).layout) := rfl

/-- The text of a finite number spells, behind the sign, a decimal that is rounded to it. Zero is
spelled with zeros only. -/
theorem spelled_render (negative : Bool) (rank : Fin p.limit) :
    ∃ cs c e, (finite negative rank).render = (if negative then ['-'] else []) ++ cs ∧
      Spelled cs c e ∧ p.nearestRank (tenfold c e) = rank ∧ (rank.val = 0 → c = 0) := by
  by_cases hr : rank.val = 0
  · refine ⟨"0.0".toList, 0, -1, ?_, spelled_zero, ?_, fun _ => rfl⟩
    · rw [render_finite, if_pos hr]
    · rw [hr]
      have hnum : (tenfold 0 (-1)).num = 0 := rfl
      unfold Precision.nearestRank
      rw [if_pos hnum]
  · obtain ⟨c, e, hspelled, hrank⟩ := Decimal.spelled_shortest rank.isLt
    refine ⟨_, c, e, ?_, hspelled, hrank, fun h => absurd h hr⟩
    rw [render_finite, if_neg hr]

theorem noSpace_render (x : BinaryFloat p) : ∀ c ∈ x.render, isAsciiSpace c = false := by
  cases x with
  | nan =>
    have h : "NaN".toList.any isAsciiSpace = false := by decide
    exact noSpace_of_any h
  | infinite negative =>
    cases negative with
    | false =>
      have h : "Infinity".toList.any isAsciiSpace = false := by decide
      exact noSpace_of_any h
    | true =>
      have h : "-Infinity".toList.any isAsciiSpace = false := by decide
      exact noSpace_of_any h
  | finite negative rank =>
    obtain ⟨cs, c, e, hcs, hspelled, -, -⟩ := spelled_render negative rank
    rw [hcs]
    intro d hd
    rcases List.mem_append.1 hd with hd | hd
    · cases negative with
      | true =>
        rw [List.mem_singleton.1 hd]
        rfl
      | false => cases hd
    · exact hspelled.noSpace d hd

/-- A number is read back from its text. The text of what is infinite is no decimal, and the text of
zero has no digit other than zero. -/
theorem toFloat_of_read?_render (x : BinaryFloat p) :
    ∃ l, Literal.read? x.render = some l ∧ l.toFloat p = x ∧
      (x.isInfinite && l.isDecimal) = false ∧ (x.isZero && l.isNonzeroDecimal) = false := by
  cases x with
  | nan =>
    have hread : Literal.read? "NaN".toList = some .nan := by decide
    exact ⟨.nan, hread, rfl, rfl, rfl⟩
  | infinite negative =>
    cases negative with
    | false =>
      have hread : Literal.read? "Infinity".toList = some (.infinity false) := by decide
      exact ⟨.infinity false, hread, rfl, rfl, rfl⟩
    | true =>
      have hread : Literal.read? "-Infinity".toList = some (.infinity true) := by decide
      exact ⟨.infinity true, hread, rfl, rfl, rfl⟩
  | finite negative rank =>
    obtain ⟨cs, c, e, hcs, hspelled, hrank, hzero⟩ := spelled_render negative rank
    refine ⟨.decimal negative c e, ?_, round_of_nearestRank hrank, rfl, ?_⟩
    · rw [hcs]
      exact hspelled.read? negative
    · by_cases hr : rank.val = 0
      · rw [hzero hr]
        exact Bool.and_false _
      · have hne : (finite negative rank).isZero = false := beq_eq_false_iff_ne.2 hr
        rw [hne, Bool.false_and]

end BinaryFloat

/-- A floating point number is read back from its text as one of its precision. -/
theorem Conversion.floatOfText_render {p : Precision} (x : BinaryFloat p) :
    floatOfText p x.render = .ok (.floating p x) := by
  obtain ⟨l, hread, hfloat, hinfinite, hzero⟩ := x.toFloat_of_read?_render
  unfold floatOfText
  rw [hread]
  simp only [hfloat, hinfinite, hzero, Bool.false_eq_true, if_false]

end MarkupFields
