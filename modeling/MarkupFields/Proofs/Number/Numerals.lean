import MarkupFields.Field.Value
import Mathlib.Algebra.Group.Nat.Defs

/-
  Numerals written and read back. The decimal digits of a number denote it, and zeros behind them
  multiply it by ten each. Between bounds around zero a text is read as a whole number exactly if it is
  a numeral of the number (`readNumeral_eq_value_iff`): on the way no beginning of the numeral leaves
  the bounds. A text is out of range exactly if it begins with a numeral of a number beyond them, whatever
  follows (`readNumeral_eq_outOfRange_iff`).
-/

namespace MarkupFields

open Text

/-! ## Digits -/

namespace Text

theorem digitValue_of_isDigit {c : Char} (h : c.isDigit = true) :
    digitValue c = c.toNat - '0'.toNat := by
  have hle : c.toNat ≤ '9'.toNat := by
    simp only [Char.isDigit, Bool.and_eq_true, decide_eq_true_eq] at h
    exact h.2
  unfold digitValue
  rw [if_pos hle]

theorem isDigit_of_mem_toDigits {n : Nat} {c : Char} (h : c ∈ Nat.toDigits 10 n) :
    c.isDigit = true :=
  Nat.isDigit_of_mem_toDigits (by decide) (by decide) h

theorem toNat_toLower (c : Char) :
    c.toLower.toNat = if 65 ≤ c.toNat ∧ c.toNat ≤ 90 then c.toNat + 32 else c.toNat := by
  have hiff : c.val ≥ 'A'.val ∧ c.val ≤ 'Z'.val ↔ 65 ≤ c.toNat ∧ c.toNat ≤ 90 := by
    rw [ge_iff_le, UInt32.le_iff_toNat_le, UInt32.le_iff_toNat_le]
    exact Iff.rfl
  unfold Char.toLower
  by_cases h : c.val ≥ 'A'.val ∧ c.val ≤ 'Z'.val
  · have hin := hiff.1 h
    rw [dif_pos h, if_pos hin]
    show (c.val + 32).toNat = c.val.toNat + 32
    rw [UInt32.toNat_add]
    have : c.val.toNat ≤ 90 := hin.2
    exact Nat.mod_eq_of_lt (by show c.val.toNat + 32 < 2 ^ 32; omega)
  · rw [dif_neg h, if_neg (mt hiff.2 h)]

/-- Below the letters a character has no other case. -/
theorem toLower_eq_iff {c d : Char} (hd : d.toNat < 65) : c.toLower = d ↔ c = d := by
  rw [← Char.toNat_inj, ← Char.toNat_inj, toNat_toLower]
  split
  · omega
  · rfl

theorem map_toLower_eq_iff {cs ds : List Char} (hd : ∀ d ∈ ds, d.toNat < 65) :
    cs.map Char.toLower = ds ↔ cs = ds := by
  induction ds generalizing cs with
  | nil => exact List.map_eq_nil_iff
  | cons d ds ih =>
    rw [List.forall_mem_cons] at hd
    cases cs with
    | nil => exact iff_of_false nofun nofun
    | cons c cs => rw [List.map_cons, List.cons.injEq, List.cons.injEq, toLower_eq_iff hd.1, ih hd.2]

theorem toNat_lt_of_isDigit {c : Char} (h : c.isDigit = true) : c.toNat < 65 :=
  Nat.lt_of_le_of_lt (Char.isDigit_iff_toNat.1 h).2 (by decide)

theorem numeralFrom_append (base start : Nat) (xs ys : List Char) :
    numeralFrom base start (xs ++ ys) = numeralFrom base (numeralFrom base start xs) ys :=
  List.foldl_append

theorem numeral_append (base : Nat) (xs ys : List Char) :
    numeral base (xs ++ ys) = numeralFrom base (numeral base xs) ys :=
  numeralFrom_append base 0 xs ys

theorem numeralFrom_zeros (start n : Nat) :
    numeralFrom 10 start (List.replicate n '0') = start * 10 ^ n := by
  induction n generalizing start with
  | zero => rw [List.replicate_zero, Nat.pow_zero, Nat.mul_one]; rfl
  | succ n ih =>
    have hzero : digitValue '0' = 0 := rfl
    rw [List.replicate_succ, numeralFrom_cons, hzero, Nat.add_zero, ih, Nat.mul_assoc,
      ← Nat.pow_succ']

theorem numeralFrom_eq_ofDigitChars {digits : List Char} (h : ∀ c ∈ digits, c.isDigit = true)
    (start : Nat) : numeralFrom 10 start digits = Nat.ofDigitChars 10 digits start := by
  induction digits generalizing start with
  | nil => rw [Nat.ofDigitChars_nil]; rfl
  | cons c cs ih =>
    rw [numeralFrom_cons, ih (fun d hd => h d (List.mem_cons_of_mem c hd)), Nat.ofDigitChars_cons,
      digitValue_of_isDigit (h c List.mem_cons_self), Nat.mul_comm]

/-- The digits of a number denote it. -/
theorem numeral_toDigits (n : Nat) : numeral 10 (Nat.toDigits 10 n) = n := by
  unfold numeral
  rw [numeralFrom_eq_ofDigitChars fun _ hc => isDigit_of_mem_toDigits hc]
  exact Nat.ofDigitChars_ten_toDigits

end Text

/-! ## Signs -/

/-- The number, negated if so marked. -/
def signed (negative : Bool) (n : Nat) : Int :=
  if negative then -n else n

theorem signed_zero (negative : Bool) : signed negative 0 = 0 := by
  cases negative <;> rfl

/-- Of two numbers with the same sign the one further from zero goes out of bounds first. -/
theorem signed_bounds {low high : Int} {negative : Bool} {m n : Nat} (hlow : low ≤ 0)
    (hhigh : 0 ≤ high) (hmn : m ≤ n) (h : low ≤ signed negative n ∧ signed negative n ≤ high) :
    low ≤ signed negative m ∧ signed negative m ≤ high := by
  cases negative with
  | true =>
    have hn : low ≤ -(n : Int) := h.1
    show low ≤ -(m : Int) ∧ -(m : Int) ≤ high
    omega
  | false =>
    have hn : (n : Int) ≤ high := h.2
    show low ≤ (m : Int) ∧ (m : Int) ≤ high
    omega

namespace Literal

/-- A sign, or none. -/
inductive Sign : List Char → Bool → Prop where
  | none : Sign [] false
  | plus : Sign ['+'] false
  | minus : Sign ['-'] true

theorem Sign.forall_mem {P : Char → Prop} {sign : List Char} {negative : Bool}
    (h : Sign sign negative) (hplus : P '+') (hminus : P '-') : ∀ c ∈ sign, P c := by
  cases h with
  | none => exact fun c hc => (List.not_mem_nil hc).elim
  | plus => exact List.forall_mem_singleton.2 hplus
  | minus => exact List.forall_mem_singleton.2 hminus

/-- A sign that is split off was there, in front of the rest. -/
theorem exists_sign (cs : List Char) :
    ∃ sign, cs = sign ++ (splitSign cs).2 ∧ Sign sign (splitSign cs).1 := by
  unfold splitSign
  split
  · exact ⟨['-'], rfl, .minus⟩
  · exact ⟨['+'], rfl, .plus⟩
  · exact ⟨[], rfl, .none⟩

/-- A sign is split off from what does not begin with another. -/
theorem splitSign_of_sign {sign cs : List Char} {negative : Bool} (h : Sign sign negative)
    (hhead : ∀ c ∈ cs.head?, c ≠ '-' ∧ c ≠ '+') : splitSign (sign ++ cs) = (negative, cs) := by
  cases h with
  | none =>
    rw [List.nil_append]
    unfold splitSign
    split
    · exact absurd rfl (hhead '-' rfl).1
    · exact absurd rfl (hhead '+' rfl).2
    · rfl
  | plus => rfl
  | minus => rfl

theorem splitSign_of_isDigit {sign cs : List Char} {negative : Bool} (h : Sign sign negative)
    (hhead : ∀ c ∈ cs.head?, c.isDigit = true) : splitSign (sign ++ cs) = (negative, cs) := by
  refine splitSign_of_sign h fun c hc => ⟨?_, ?_⟩
  · rintro rfl
    cases hhead '-' hc
  · rintro rfl
    cases hhead '+' hc

end Literal

/-! ## Whole numbers -/

/-- The text is a numeral of the whole number: one sign at most, then digits that denote it. Zeros in
front of the digits do not count. -/
inductive Denotes : List Char → Int → Prop where
  | plain {ds : List Char} (hne : ds ≠ []) (hd : ∀ c ∈ ds, c.isDigit = true) :
    Denotes ds (numeral 10 ds)
  | plus {ds : List Char} (hne : ds ≠ []) (hd : ∀ c ∈ ds, c.isDigit = true) :
    Denotes ('+' :: ds) (numeral 10 ds)
  | minus {ds : List Char} (hne : ds ≠ []) (hd : ∀ c ∈ ds, c.isDigit = true) :
    Denotes ('-' :: ds) (-(numeral 10 ds : Int))

theorem denotes_of_sign {sign ds : List Char} {negative : Bool} (hs : Literal.Sign sign negative)
    (hne : ds ≠ []) (hd : ∀ c ∈ ds, c.isDigit = true) :
    Denotes (sign ++ ds) (signed negative (numeral 10 ds)) := by
  cases hs with
  | none => exact .plain hne hd
  | plus => exact .plus hne hd
  | minus => exact .minus hne hd

theorem Denotes.exists_sign {cs : List Char} {n : Int} (h : Denotes cs n) :
    ∃ sign ds negative, cs = sign ++ ds ∧ Literal.Sign sign negative ∧ ds ≠ [] ∧
      (∀ c ∈ ds, c.isDigit = true) ∧ n = signed negative (numeral 10 ds) := by
  cases h with
  | plain hne hd => exact ⟨[], _, false, rfl, .none, hne, hd, rfl⟩
  | plus hne hd => exact ⟨['+'], _, false, rfl, .plus, hne, hd, rfl⟩
  | minus hne hd => exact ⟨['-'], _, true, rfl, .minus, hne, hd, rfl⟩

/-- What a numeral denotes is found by splitting off the sign. -/
theorem denotes_iff {cs : List Char} {n : Int} :
    Denotes cs n ↔ (Literal.splitSign cs).2 ≠ [] ∧
      (∀ c ∈ (Literal.splitSign cs).2, c.isDigit = true) ∧
      n = signed (Literal.splitSign cs).1 (numeral 10 (Literal.splitSign cs).2) := by
  constructor
  · intro h
    obtain ⟨sign, ds, negative, rfl, hsign, hne, hd, rfl⟩ := h.exists_sign
    rw [Literal.splitSign_of_isDigit hsign fun c hc => hd c (List.mem_of_mem_head? hc)]
    exact ⟨hne, hd, rfl⟩
  · rintro ⟨hne, hd, rfl⟩
    obtain ⟨sign, hcs, hsign⟩ := Literal.exists_sign cs
    have hdenotes := denotes_of_sign hsign hne hd
    rwa [← hcs] at hdenotes

theorem Denotes.unique {cs : List Char} {m n : Int} (hm : Denotes cs m) (hn : Denotes cs n) :
    m = n := by
  rw [(denotes_iff.1 hm).2.2, (denotes_iff.1 hn).2.2]

/-- What is so of digits and of signs is so of all that a numeral is made of. -/
theorem Denotes.forall_mem {P : Char → Prop} {cs : List Char} {n : Int} (h : Denotes cs n)
    (hdigit : ∀ c : Char, c.isDigit = true → P c) (hplus : P '+') (hminus : P '-') :
    ∀ c ∈ cs, P c := by
  obtain ⟨sign, ds, negative, rfl, hsign, -, hd, -⟩ := h.exists_sign
  intro c hc
  rcases List.mem_append.1 hc with hc | hc
  · exact hsign.forall_mem hplus hminus c hc
  · exact hdigit c (hd c hc)

theorem Denotes.toNat_lt {cs : List Char} {n : Int} (h : Denotes cs n) : ∀ c ∈ cs, c.toNat < 65 :=
  h.forall_mem (fun _ => toNat_lt_of_isDigit) (by decide) (by decide)

theorem Denotes.ne_nil {cs : List Char} {n : Int} (h : Denotes cs n) : cs ≠ [] := by
  cases h with
  | plain hne _ => exact hne
  | plus _ _ => exact List.cons_ne_nil _ _
  | minus _ _ => exact List.cons_ne_nil _ _

theorem Denotes.head {c : Char} {cs : List Char} {n : Int} (h : Denotes (c :: cs) n) :
    c.isDigit = true ∨ c = '+' ∨ c = '-' := by
  cases h with
  | plain _ hd => exact .inl (hd c List.mem_cons_self)
  | plus _ _ => exact .inr (.inl rfl)
  | minus _ _ => exact .inr (.inr rfl)

/-- The characters with which a numeral begins are far above the numbers of one digit. -/
theorem Denotes.le_head {c : Char} {cs : List Char} {n : Int} (h : Denotes (c :: cs) n) :
    43 ≤ c.toNat := by
  rcases h.head with hc | rfl | rfl
  · exact Nat.le_trans (by decide) (Char.isDigit_iff_toNat.1 hc).1
  · decide
  · decide

/-! ## The numerals that are written -/

/-- The numeral of a whole number denotes it. -/
theorem denotes_renderInt (n : Int) : Denotes (Value.renderInt n) n := by
  have hd : ∀ c ∈ Nat.toDigits 10 n.natAbs, c.isDigit = true :=
    fun _ hc => isDigit_of_mem_toDigits hc
  have hvalue := numeral_toDigits n.natAbs
  unfold Value.renderInt
  split
  · have h := Denotes.minus Nat.toDigits_ne_nil hd
    rwa [hvalue, show -(n.natAbs : Int) = n by omega] at h
  · have h := Denotes.plain Nat.toDigits_ne_nil hd
    rwa [hvalue, show (n.natAbs : Int) = n by omega] at h

namespace Value

theorem renderInt_inj {m n : Int} (h : renderInt n = renderInt m) : n = m :=
  (denotes_renderInt n).unique (h ▸ denotes_renderInt m)

/-- Just the numbers from zero to nine have a numeral of one character. -/
theorem length_renderInt_eq_one_iff {n : Int} :
    (renderInt n).length = 1 ↔ 0 ≤ n ∧ n ≤ 9 := by
  have hpos : 0 < (Nat.toDigits 10 n.natAbs).length := Nat.length_toDigits_pos
  have hten : (Nat.toDigits 10 n.natAbs).length ≤ 1 ↔ n.natAbs < 10 ^ 1 :=
    Nat.length_toDigits_le_iff (by decide) (by decide)
  unfold renderInt
  split
  · rw [List.length_cons]
    omega
  · omega

theorem map_toLower_renderInt (n : Int) : (renderInt n).map Char.toLower = renderInt n :=
  (map_toLower_eq_iff (denotes_renderInt n).toNat_lt).2 rfl

end Value

/-! ## Reading between bounds -/

theorem continueNumeral_cons (low high : Int) (negative : Bool) (n : Nat) (c : Char)
    (cs : List Char) :
    continueNumeral low high negative (signed negative n) (c :: cs) =
      if c.isDigit then
        if low ≤ signed negative (n * 10 + digitValue c) ∧
            signed negative (n * 10 + digitValue c) ≤ high then
          continueNumeral low high negative (signed negative (n * 10 + digitValue c)) cs
        else .outOfRange
      else .malformed := by
  have hnext : (if negative then signed negative n * 10 - digitValue c
      else signed negative n * 10 + digitValue c) = signed negative (n * 10 + digitValue c) := by
    cases negative with
    | true =>
      show -(n : Int) * 10 - digitValue c = -((n * 10 + digitValue c : Nat) : Int)
      omega
    | false =>
      show (n : Int) * 10 + digitValue c = ((n * 10 + digitValue c : Nat) : Int)
      omega
  rw [← hnext]
  rfl

/-- Reading on, from a number between the bounds, gives a number exactly if there are digits only and
the number they denote is between the bounds too: no beginning of the digits is further from zero. -/
theorem continueNumeral_eq_value_iff {low high : Int} (hlow : low ≤ 0) (hhigh : 0 ≤ high)
    {negative : Bool} (cs : List Char) {n : Nat} {m : Int}
    (hn : low ≤ signed negative n ∧ signed negative n ≤ high) :
    continueNumeral low high negative (signed negative n) cs = .value m ↔
      (∀ c ∈ cs, c.isDigit = true) ∧ m = signed negative (numeralFrom 10 n cs) ∧
        low ≤ m ∧ m ≤ high := by
  induction cs generalizing n with
  | nil =>
    constructor
    · intro h
      rw [← NumeralResult.value.inj h]
      exact ⟨fun c hc => (List.not_mem_nil hc).elim, rfl, hn⟩
    · rintro ⟨-, rfl, -⟩
      rfl
  | cons c cs ih =>
    rw [numeralFrom_cons, List.forall_mem_cons, continueNumeral_cons]
    by_cases hc : c.isDigit = true
    · rw [if_pos hc, and_iff_right hc]
      split
      · rename_i hin
        exact ih hin
      · rename_i hout
        refine ⟨nofun, ?_⟩
        rintro ⟨-, rfl, hin⟩
        exact absurd (signed_bounds hlow hhigh (le_numeralFrom (by decide) cs) hin) hout
    · rw [if_neg hc]
      exact ⟨nofun, fun h => absurd h.1.1 hc⟩

/-- Reading on, from a number between the bounds, leaves them exactly if a beginning of the digits does,
whatever is behind it. -/
theorem continueNumeral_eq_outOfRange_iff {low high : Int} {negative : Bool} (cs : List Char) {n : Nat}
    (hn : low ≤ signed negative n ∧ signed negative n ≤ high) :
    continueNumeral low high negative (signed negative n) cs = .outOfRange ↔
      ∃ front, front <+: cs ∧ (∀ c ∈ front, c.isDigit = true) ∧
        ¬ (low ≤ signed negative (numeralFrom 10 n front) ∧
          signed negative (numeralFrom 10 n front) ≤ high) := by
  induction cs generalizing n with
  | nil =>
    refine ⟨nofun, ?_⟩
    rintro ⟨front, hfront, -, hout⟩
    rw [List.prefix_nil.1 hfront] at hout
    exact absurd hn hout
  | cons c cs ih =>
    rw [continueNumeral_cons]
    constructor
    · intro h
      split at h
      · rename_i hc
        split at h
        · rename_i hin
          obtain ⟨front, hfront, hd, hout⟩ := (ih hin).1 h
          exact ⟨c :: front, (List.prefix_cons_inj c).2 hfront, List.forall_mem_cons.2 ⟨hc, hd⟩, hout⟩
        · rename_i hout
          refine ⟨[c], (List.prefix_cons_inj c).2 (List.nil_prefix), ?_, hout⟩
          exact List.forall_mem_cons.2 ⟨hc, fun d hd => (List.not_mem_nil hd).elim⟩
      · cases h
    · rintro ⟨front, hfront, hd, hout⟩
      rcases List.prefix_cons_iff.1 hfront with rfl | ⟨digits, rfl, hdigits⟩
      · exact absurd hn hout
      · rw [List.forall_mem_cons] at hd
        rw [if_pos hd.1]
        split
        · rename_i hin
          exact (ih hin).2 ⟨digits, hdigits, hd.2, hout⟩
        · rfl

theorem readNumeral_eq (low high : Int) (cs : List Char) :
    readNumeral low high cs =
      if (Literal.splitSign cs).2.isEmpty then .malformed
      else continueNumeral low high (Literal.splitSign cs).1 0 (Literal.splitSign cs).2 := by
  unfold readNumeral
  split
  rename_i negative digits h
  have hsplit : Literal.splitSign cs = (negative, digits) := h
  rw [hsplit]

/-- Reading gives a number exactly if the text is its numeral and it is between the bounds. -/
theorem readNumeral_eq_value_iff {low high : Int} (hlow : low ≤ 0) (hhigh : 0 ≤ high)
    {cs : List Char} {n : Int} :
    readNumeral low high cs = .value n ↔ Denotes cs n ∧ low ≤ n ∧ n ≤ high := by
  rw [readNumeral_eq, denotes_iff]
  generalize Literal.splitSign cs = split
  obtain ⟨negative, digits⟩ := split
  dsimp only
  by_cases hempty : digits = []
  · rw [hempty, List.isEmpty_nil, if_pos rfl]
    exact ⟨nofun, fun h => absurd rfl h.1.1⟩
  · have hzero := signed_zero negative
    have hstart : low ≤ signed negative 0 ∧ signed negative 0 ≤ high := by omega
    have hread := continueNumeral_eq_value_iff hlow hhigh digits (m := n) hstart
    rw [hzero] at hread
    rw [List.isEmpty_eq_false_iff.2 hempty, if_neg Bool.false_ne_true, hread]
    exact ⟨fun h => ⟨⟨hempty, h.1, h.2.1⟩, h.2.2⟩, fun h => ⟨h.1.2.1, h.1.2.2, h.2⟩⟩

/-- A text is out of range exactly if it begins with a numeral of a number beyond the bounds; what
follows that numeral is not looked at. -/
theorem readNumeral_eq_outOfRange_iff {low high : Int} (hlow : low ≤ 0) (hhigh : 0 ≤ high)
    {cs : List Char} :
    readNumeral low high cs = .outOfRange ↔
      ∃ front n, front <+: cs ∧ Denotes front n ∧ ¬ (low ≤ n ∧ n ≤ high) := by
  have hread : ∀ negative digits, (if digits.isEmpty then .malformed
      else continueNumeral low high negative 0 digits) = .outOfRange ↔
      ∃ front, front <+: digits ∧ (∀ c ∈ front, c.isDigit = true) ∧
        ¬ (low ≤ signed negative (numeral 10 front) ∧ signed negative (numeral 10 front) ≤ high) := by
    intro negative digits
    have hzero := signed_zero negative
    have hstart : low ≤ signed negative 0 ∧ signed negative 0 ≤ high := by omega
    have hcontinue := continueNumeral_eq_outOfRange_iff digits hstart
    rw [hzero] at hcontinue
    by_cases hempty : digits = []
    · rw [hempty, List.isEmpty_nil, if_pos rfl]
      refine ⟨nofun, ?_⟩
      rintro ⟨front, hfront, -, hout⟩
      rw [List.prefix_nil.1 hfront, numeral_nil] at hout
      exact absurd hstart hout
    · rw [List.isEmpty_eq_false_iff.2 hempty, if_neg Bool.false_ne_true]
      exact hcontinue
  rw [readNumeral_eq, hread]
  constructor
  · rintro ⟨front, hfront, hd, hout⟩
    have hne : front ≠ [] := by
      rintro rfl
      rw [numeral_nil, signed_zero] at hout
      exact absurd ⟨hlow, hhigh⟩ hout
    obtain ⟨sign, hcs, hsign⟩ := Literal.exists_sign cs
    refine ⟨sign ++ front, _, ?_, denotes_of_sign hsign hne hd, hout⟩
    rw [hcs]
    exact (List.prefix_append_right_inj sign).2 hfront
  · rintro ⟨front, n, ⟨rest, rfl⟩, hdenotes, hout⟩
    obtain ⟨sign, digits, negative, rfl, hsign, hne, hd, rfl⟩ := hdenotes.exists_sign
    have hhead : ∀ c ∈ (digits ++ rest).head?, c.isDigit = true := by
      obtain ⟨d, digits, rfl⟩ := List.exists_cons_of_ne_nil hne
      intro c hc
      rw [← Option.some.inj hc]
      exact hd d List.mem_cons_self
    rw [List.append_assoc, Literal.splitSign_of_isDigit hsign hhead]
    exact ⟨digits, List.prefix_append digits rest, hd, hout⟩

theorem toList_toString_int (k : Int) : (toString k).toList = Value.renderInt k := by
  cases k with
  | ofNat n =>
    have hn : ¬ Int.ofNat n < 0 := by
      rw [Int.ofNat_eq_natCast]
      omega
    unfold Value.renderInt
    rw [if_neg hn]
    exact Nat.toList_repr
  | negSucc n =>
    have hn : Int.negSucc n < 0 := Int.negSucc_lt_zero n
    have hrepr : toString (Int.negSucc n) = "-" ++ Nat.repr (n + 1) := rfl
    unfold Value.renderInt
    rw [if_pos hn, hrepr, String.toList_append, Nat.toList_repr]
    rfl

end MarkupFields
