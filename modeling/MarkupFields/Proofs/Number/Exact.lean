import MarkupFields.Proofs.Number.ReadBack

/-
  Numbers that a precision holds exactly. A ratio is held if it has the value of a magnitude; rounding
  then changes nothing. Held are the whole numbers that need no more bits than the fraction and the one
  in front of it (`holds_whole`), and by double precision every magnitude of single precision
  (`holds_magnitude`). So a whole number is found again in the number it was rounded to
  (`toLong_ofInt`), and two numbers of the same value and sign turn into each other (`toPrecision_of_same`).
  Whole numbers of up to 64 bits need not be held, but are rounded to finite numbers, and only zero to
  zero (`ofInt_finite`).

  Not said: which numbers beyond these are held; 2 ^ 24 + 2 is held by single precision, 2 ^ 24 + 1 is not.
-/

namespace MarkupFields

/-! ## Ratios -/

namespace Ratio

/-- Factors of two make up for a lower exponent. -/
theorem scaled_shifted (m k : Nat) (q : Int) :
    (scaled (m * 2 ^ k) (q - k)).Same (scaled m q) :=
  same_shifted 2 m k q

theorem scaled_zero (m : Nat) : scaled m 0 = ⟨m, 1⟩ := by
  unfold scaled
  rw [Int.neg_zero, Int.toNat_zero, Nat.pow_zero, Nat.mul_one]

theorem nearestWhole_le (r : Ratio) : r.nearestWhole ≤ r.num / r.den + 1 := by
  unfold nearestWhole
  dsimp only
  split
  · omega
  · split
    · omega
    · omega

/-- Scaled to so many bits behind its first, a whole number has no more of them. -/
theorem nearestWhole_shiftedDown_le {n : Nat} (bits : Nat) :
    (shiftedDown ⟨n, 1⟩ (Nat.log2 n - bits)).nearestWhole ≤ 2 ^ (bits + 1) := by
  have hexp : Nat.log2 n + 1 + (-((Nat.log2 n : Int) - bits)).toNat =
      bits + 1 + ((Nat.log2 n : Int) - bits).toNat := by omega
  have hlt : n * 2 ^ (-((Nat.log2 n : Int) - bits)).toNat <
      2 ^ (bits + 1) * 2 ^ ((Nat.log2 n : Int) - bits).toNat := by
    rw [← Nat.pow_add, ← hexp, Nat.pow_add]
    exact Nat.mul_lt_mul_of_pos_right Nat.lt_log2_self (Nat.two_pow_pos _)
  refine (nearestWhole_le _).trans ?_
  show n * 2 ^ (-((Nat.log2 n : Int) - bits)).toNat / (1 * 2 ^ ((Nat.log2 n : Int) - bits).toNat) <
    2 ^ (bits + 1)
  rw [Nat.one_mul]
  exact (Nat.div_lt_iff_lt_mul (Nat.two_pow_pos _)).2 hlt

/-- Ratios of the same value are zero together. -/
theorem Same.num_eq_zero_iff {r s : Ratio} (hr : 0 < r.den) (hs : 0 < s.den) (h : r.Same s) :
    r.num = 0 ↔ s.num = 0 := by
  have hmul : r.num * s.den = s.num * r.den := h
  constructor
  · intro hz
    rw [hz, Nat.zero_mul] at hmul
    exact (Nat.mul_eq_zero.1 hmul.symm).resolve_right (Nat.ne_of_gt hr)
  · intro hz
    rw [hz, Nat.zero_mul] at hmul
    exact (Nat.mul_eq_zero.1 hmul).resolve_right (Nat.ne_of_gt hs)

end Ratio

namespace Precision

variable {p q : Precision}

/-! ## Magnitudes -/

theorem num_magnitude_eq_zero_iff (p : Precision) (rank : Nat) :
    (p.magnitude rank).num = 0 ↔ rank = 0 := by
  have hpow : 2 ^ (p.parts rank).2.toNat ≠ 0 := Nat.ne_of_gt (Nat.two_pow_pos _)
  have hspan := p.span_pos
  show (p.parts rank).1 * 2 ^ (p.parts rank).2.toNat = 0 ↔ rank = 0
  rw [Nat.mul_eq_zero, or_iff_left hpow]
  unfold parts
  split
  · exact Iff.rfl
  · exact ⟨fun h => by omega, fun h => by omega⟩

/-- The ratio has the value of a magnitude. -/
def Holds (p : Precision) (r : Ratio) : Prop :=
  ∃ rank : Fin p.limit, (p.magnitude rank).Same r

theorem Holds.of_same {r s : Ratio} (hr : 0 < r.den) (h : p.Holds r) (hs : r.Same s) :
    p.Holds s := by
  obtain ⟨rank, hrank⟩ := h
  exact ⟨rank, hrank.trans hr hs⟩

/-- A whole number with just the bits of the precision, times a power of two within its exponents. -/
theorem holds_scaled_full {m : Nat} {e : Int} (hlow : p.span ≤ m) (hhigh : m < 2 * p.span)
    (he : p.minExponent ≤ e) (htop : e + 3 ≤ p.minExponent + (2 ^ p.exponentBits : Nat)) :
    p.Holds (Ratio.scaled m e) := by
  obtain ⟨k, rfl⟩ : ∃ k : Nat, e = p.minExponent + k := ⟨(e - p.minExponent).toNat, by omega⟩
  have hrank : (m - p.span + p.span * (k + 1)) < p.limit := by
    have hk : k + 1 + 1 ≤ 2 ^ p.exponentBits - 1 := by omega
    calc m - p.span + p.span * (k + 1) < p.span + p.span * (k + 1) := by omega
      _ = (k + 1 + 1) * p.span := by rw [Nat.add_mul (k + 1), Nat.one_mul, Nat.mul_comm, Nat.add_comm]
      _ ≤ p.limit := Nat.mul_le_mul_right _ hk
  have hdiv : (m - p.span + p.span * (k + 1)) / p.span = k + 1 := by
    rw [Nat.add_mul_div_left _ _ p.span_pos, Nat.div_eq_of_lt (by omega), Nat.zero_add]
  have hmod : (m - p.span + p.span * (k + 1)) % p.span = m - p.span := by
    rw [Nat.add_mul_mod_self_left, Nat.mod_eq_of_lt (by omega)]
  have hge : ¬ m - p.span + p.span * (k + 1) < p.span := by
    have : p.span * 1 ≤ p.span * (k + 1) := Nat.mul_le_mul_left _ (by omega)
    omega
  refine ⟨⟨_, hrank⟩, ?_⟩
  show (p.magnitude (m - p.span + p.span * (k + 1))).Same _
  unfold magnitude parts
  rw [if_neg hge, hdiv, hmod, Nat.add_sub_cancel, Nat.add_sub_cancel' hlow]
  rfl

/-- A whole number with at most the bits of the precision, times a power of two that leaves room for
shifting it up to just these bits. -/
theorem holds_scaled {m : Nat} {e : Int} (hm : m < 2 * p.span)
    (he : p.minExponent + p.fractionBits ≤ e)
    (htop : e + 3 ≤ p.minExponent + (2 ^ p.exponentBits : Nat)) : p.Holds (Ratio.scaled m e) := by
  by_cases hzero : m = 0
  · refine ⟨⟨0, p.limit_pos⟩, ?_⟩
    have hnum : (p.magnitude 0).num = 0 := (p.num_magnitude_eq_zero_iff 0).2 rfl
    show (p.magnitude 0).num * _ = m * 2 ^ e.toNat * _
    rw [hnum, hzero, Nat.zero_mul, Nat.zero_mul, Nat.zero_mul]
  · have hspan : p.span = 2 ^ p.fractionBits := rfl
    have hlog : Nat.log2 m ≤ p.fractionBits := by
      have : Nat.log2 m < p.fractionBits + 1 := by
        rw [Nat.log2_lt hzero, Nat.pow_succ, Nat.mul_comm, ← hspan]
        exact hm
      omega
    -- shifted up by as many places as its first bit is short of the bit in front of the fraction
    obtain ⟨k, hk⟩ : ∃ k, p.fractionBits = Nat.log2 m + k := Nat.exists_eq_add_of_le hlog
    have hlow : p.span ≤ m * 2 ^ k := by
      rw [hspan, hk, Nat.pow_add]
      exact Nat.mul_le_mul_right _ (Nat.log2_self_le hzero)
    have hhigh : m * 2 ^ k < 2 * p.span :=
      calc m * 2 ^ k < 2 ^ (Nat.log2 m + 1) * 2 ^ k :=
            Nat.mul_lt_mul_of_pos_right Nat.lt_log2_self (Nat.two_pow_pos k)
        _ = 2 * p.span := by
            rw [hspan, hk, ← Nat.pow_add, ← Nat.pow_succ', Nat.succ_eq_add_one, Nat.add_right_comm]
    have hfull := holds_scaled_full (e := e - k) hlow hhigh (by omega) (by omega)
    exact hfull.of_same (Nat.two_pow_pos _) (Ratio.scaled_shifted m k e)

/-- A whole number with at most the bits of the precision is held. -/
theorem holds_whole {n : Nat} (h : n < 2 * p.span) : p.Holds ⟨n, 1⟩ := by
  rw [← Ratio.scaled_zero n]
  refine holds_scaled h ?_ ?_
  · cases p <;> decide
  · cases p <;> decide

/-- A whole number other than zero is rounded to a magnitude with all bits of the precision, and to
one that is low if the number has few bits. -/
theorem nearestRank_whole (p : Precision) {n : Nat} (hn : n ≠ 0) :
    p.span ≤ p.nearestRank ⟨n, 1⟩ ∧
      p.nearestRank ⟨n, 1⟩ ≤ (Nat.log2 n + 2 ^ (p.exponentBits - 1)) * p.span := by
  have hone := Ratio.scaled_zero n
  have hlog : (⟨n, 1⟩ : Ratio).log2 = Nat.log2 n := by
    rw [← hone, Ratio.log2_scaled (Nat.log2_self_le hn) Nat.lt_log2_self 0, Int.add_zero]
  obtain ⟨b, hb, hmin⟩ : ∃ b : Nat, 2 ^ (p.exponentBits - 1) = b + 2 ∧
      p.minExponent = -b - p.fractionBits ∧ 0 < b := by
    cases p with
    | single => exact ⟨126, rfl, rfl, by decide⟩
    | double => exact ⟨1022, rfl, rfl, by decide⟩
  -- no whole number is so small that the lowest exponent holds its own up
  have hmax : max ((Nat.log2 n : Int) - p.fractionBits) p.minExponent =
      Nat.log2 n - p.fractionBits := by omega
  have hexp : ((Nat.log2 n : Int) - p.fractionBits - p.minExponent).toNat = Nat.log2 n + b := by
    omega
  have hwhole := Ratio.nearestWhole_shiftedDown_le (n := n) p.fractionBits
  have hrank : p.nearestRank ⟨n, 1⟩ = (Nat.log2 n + b) * p.span +
      (Ratio.shiftedDown ⟨n, 1⟩ (Nat.log2 n - p.fractionBits)).nearestWhole := by
    unfold nearestRank
    rw [if_neg hn]
    simp only [hlog, hmax, hexp]
  rw [hrank, hb]
  constructor
  · have : 1 * p.span ≤ (Nat.log2 n + b) * p.span := Nat.mul_le_mul_right _ (by omega)
    omega
  · have hspan : p.span = 2 ^ p.fractionBits := rfl
    rw [← Nat.add_assoc, Nat.add_mul _ 2, hspan]
    rw [Nat.pow_succ] at hwhole
    omega

/-- Double precision holds what single precision does. -/
theorem holds_magnitude (rank : Fin single.limit) : double.Holds (single.magnitude rank) := by
  obtain ⟨hm, hlow, hhigh⟩ := single.parts_bounds rank.isLt
  have hspan : 2 * single.span ≤ 2 * double.span := by decide
  have hmin : double.minExponent + double.fractionBits ≤ single.minExponent := by decide
  have hmax : single.minExponent + (2 ^ single.exponentBits : Nat) ≤
      double.minExponent + (2 ^ double.exponentBits : Nat) := by decide
  exact holds_scaled (Nat.lt_of_lt_of_le hm hspan) (by omega) (by omega)

end Precision

namespace BinaryFloat

variable {p q : Precision} {s : Bool} {rank : Fin p.limit}

/-! ## Rounding what is held -/

/-- A held ratio is rounded to a number of its value. -/
theorem round_of_holds {r : Ratio} (hr : 0 < r.den) (h : p.Holds r) (s : Bool) :
    ∃ rank : Fin p.limit, round p s r = .finite s rank ∧ (p.magnitude rank).Same r := by
  obtain ⟨rank, hrank⟩ := h
  refine ⟨rank, round_of_nearestRank ?_, hrank⟩
  rw [← p.nearestRank_congr (p.den_magnitude_pos rank) hr hrank]
  exact p.nearestRank_magnitude rank

/-- A number turns into the number of the other precision that has its value. -/
theorem toPrecision_of_same {rank' : Fin q.limit}
    (h : (q.magnitude rank').Same (p.magnitude rank)) :
    (finite s rank).toPrecision q = finite s rank' := by
  refine round_of_nearestRank ?_
  rw [← q.nearestRank_congr (q.den_magnitude_pos rank') (p.den_magnitude_pos rank) h]
  exact q.nearestRank_magnitude rank'

theorem isZero_eq_of_same {s' : Bool} {rank' : Fin q.limit}
    (h : (q.magnitude rank').Same (p.magnitude rank)) :
    (finite s' rank').isZero = (finite s rank).isZero := by
  have hiff : rank'.val = 0 ↔ rank.val = 0 := by
    rw [← q.num_magnitude_eq_zero_iff rank', ← p.num_magnitude_eq_zero_iff rank]
    exact h.num_eq_zero_iff (q.den_magnitude_pos rank') (p.den_magnitude_pos rank)
  show (rank'.val == 0) = (rank.val == 0)
  rw [Bool.eq_iff_iff, beq_iff_eq, beq_iff_eq, hiff]

/-! ## Whole numbers -/

/-- A number with a whole value within 64 bits is that whole number. -/
theorem toLong_of_same {n : Nat} (h : (p.magnitude rank).Same ⟨n, 1⟩) (hn : n < 2 ^ 63) :
    (finite s rank).toLong = .whole (if s then -n else n) := by
  have hden := p.den_magnitude_pos rank
  have hnum : (p.magnitude rank).num = n * (p.magnitude rank).den := by
    have hsame : (p.magnitude rank).num * 1 = n * (p.magnitude rank).den := h
    rwa [Nat.mul_one] at hsame
  have hlt : n * (p.magnitude rank).den < 2 ^ 63 * (p.magnitude rank).den :=
    Nat.mul_lt_mul_of_pos_right hn hden
  have hrange : ¬ (if s then 2 ^ 63 * (p.magnitude rank).den < (p.magnitude rank).num
      else 2 ^ 63 * (p.magnitude rank).den ≤ (p.magnitude rank).num) := by
    rw [hnum]
    split
    · exact Nat.not_lt.2 (Nat.le_of_lt hlt)
    · exact Nat.not_le.2 hlt
  have hwhole : wholeOf? (p.magnitude rank) = some n := by
    unfold wholeOf?
    rw [hnum, Nat.mul_mod_left, if_pos rfl, Nat.mul_div_cancel _ hden]
  unfold toLong
  dsimp only
  rw [if_neg hrange, hwhole]

/-- A whole number with at most the bits of the precision is found again in the number nearest to
it. -/
theorem toLong_ofInt {n : Int} (h : n.natAbs < 2 * p.span) : (ofInt p n).toLong = .whole n := by
  have hspan : 2 * p.span ≤ 2 ^ 63 := by cases p <;> decide
  obtain ⟨rank, hround, hsame⟩ :=
    round_of_holds (r := ⟨n.natAbs, 1⟩) Nat.one_pos (Precision.holds_whole h) (n < 0)
  have hn : (if decide (n < 0) then -(n.natAbs : Int) else n.natAbs) = n := by
    split
    · rename_i hneg
      have := of_decide_eq_true hneg
      omega
    · rename_i hpos
      have := of_decide_eq_false (Bool.eq_false_iff.2 hpos)
      omega
  unfold ofInt
  rw [hround, toLong_of_same hsame (Nat.lt_of_lt_of_le h hspan), hn]

/-- A whole number of 64 bits is rounded to a finite number, and to zero only if it is zero. -/
theorem ofInt_finite {n : Int} (h : n.natAbs ≤ 2 ^ 63) :
    ∃ rank : Fin p.limit, ofInt p n = finite (n < 0) rank ∧ (rank.val = 0 ↔ n = 0) := by
  by_cases hn : n = 0
  · subst hn
    exact ⟨⟨0, p.limit_pos⟩, round_of_nearestRank rfl, iff_of_true rfl rfl⟩
  · have habs : n.natAbs ≠ 0 := Int.natAbs_ne_zero.2 hn
    obtain ⟨hlow, hhigh⟩ := p.nearestRank_whole habs
    have hlog : Nat.log2 n.natAbs < 64 := (Nat.log2_lt habs).2 (Nat.lt_of_le_of_lt h (by decide))
    have hlimit : (63 + 2 ^ (p.exponentBits - 1)) * p.span < p.limit := by cases p <;> decide
    have hlt : p.nearestRank ⟨n.natAbs, 1⟩ < p.limit :=
      calc p.nearestRank ⟨n.natAbs, 1⟩
          ≤ (Nat.log2 n.natAbs + 2 ^ (p.exponentBits - 1)) * p.span := hhigh
        _ ≤ (63 + 2 ^ (p.exponentBits - 1)) * p.span := Nat.mul_le_mul_right _ (by omega)
        _ < p.limit := hlimit
    have hspan := p.span_pos
    refine ⟨⟨_, hlt⟩, round_of_nearestRank rfl, iff_of_false ?_ hn⟩
    show p.nearestRank ⟨n.natAbs, 1⟩ ≠ 0
    omega

theorem isInfinite_ofInt {n : Int} (h : n.natAbs ≤ 2 ^ 63) : (ofInt p n).isInfinite = false := by
  obtain ⟨rank, hrank, -⟩ := ofInt_finite (p := p) h
  rw [hrank]
  rfl

theorem isZero_ofInt {n : Int} (h : n.natAbs ≤ 2 ^ 63) : (ofInt p n).isZero = (n == 0) := by
  obtain ⟨rank, hrank, hzero⟩ := ofInt_finite (p := p) h
  rw [hrank]
  show (rank.val == 0) = (n == 0)
  rw [Bool.eq_iff_iff, beq_iff_eq, beq_iff_eq, hzero]

/-- The decimal that the numeral spells is rounded as the number is. -/
theorem toFloat_numeral (p : Precision) (n : Int) :
    (Literal.decimal (n < 0) n.natAbs 0).toFloat p = ofInt p n := by
  have hvalue : Literal.tenfold n.natAbs 0 = ⟨n.natAbs, 1⟩ := by
    unfold Literal.tenfold
    rw [Int.neg_zero, Int.toNat_zero, Nat.pow_zero, Nat.mul_one]
  unfold Literal.toFloat ofInt
  dsimp only
  rw [hvalue]

end BinaryFloat

end MarkupFields
