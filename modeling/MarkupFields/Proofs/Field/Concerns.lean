import MarkupFields.Proofs.Field.ReadBack
import MarkupFields.Proofs.Number.Exact

/-
  What the table of concerns promises. Where it has no concern about the range, a conversion gives a
  value, and not a zero in place of one; where it has no concern at all and the target is no text, that
  value converts back to the one it came from (`convert_of_concerns`). The pairs without a concern are
  those of a type with itself and those that widen a number, and each kind of widening is undone by the
  conversion the other way: a whole number by reading it out of the wider type or of the floating point
  number that holds it exactly, a number of single precision by rounding.

  Not said: that a concern is due. A number of 64 bits has a concern on the way to a floating type,
  though it always converts.
-/

namespace MarkupFields

open Text BinaryFloat

/-! ## The table -/

namespace FieldType

/-- The ways in which the numbers of one type are among those of another. -/
inductive Widening : FieldType → FieldType → Prop where
  | whole {w w' : Width} (hlow : w'.lowest ≤ w.lowest) (hhigh : w.highest ≤ w'.highest) :
    Widening (.whole w) (.whole w')
  | exact {w : Width} {p : Precision} (hlow : -(2 * p.span : Nat) < w.lowest)
    (hhigh : w.highest < (2 * p.span : Nat)) : Widening (.whole w) (.floating p)
  | same (p : Precision) : Widening (.floating p) (.floating p)
  | finer : Widening (.floating .single) (.floating .double)

/-- What the table of widenings says of two types is so. -/
theorem widening_of_widens {s t : FieldType} (h : s.widens t = true) : Widening s t := by
  unfold widens at h
  split at h
  · rename_i w
    exact .whole (by cases w <;> decide) (by cases w <;> decide)
  · rename_i w
    exact .whole (by revert h; cases w <;> decide) (by revert h; cases w <;> decide)
  · rename_i w
    exact .whole (by revert h; cases w <;> decide) (by revert h; cases w <;> decide)
  · rename_i w
    exact .whole (by revert h; cases w <;> decide) (by revert h; cases w <;> decide)
  · rename_i p
    exact .exact (by cases p <;> decide) (by cases p <;> decide)
  · rename_i p
    exact .exact (by cases p <;> decide) (by cases p <;> decide)
  · rename_i p
    exact .exact (by revert h; cases p <;> decide) (by revert h; cases p <;> decide)
  · rename_i p
    cases p with
    | single => exact .same .single
    | double => exact .finer
  · rename_i p
    cases p with
    | single => cases h
    | double => exact .same .double
  · cases h

/-- The pairs of types for which every value of the first has one of the second. -/
inductive Unrestricted : FieldType → FieldType → Prop where
  | self (t : FieldType) : Unrestricted t t
  | text (s : FieldType) : Unrestricted s .string
  | ofBoolean (t : FieldType) : Unrestricted .boolean t
  | toBoolean (s : FieldType) : Unrestricted s .boolean
  | code {w : Width} (h : 0x10FFFF ≤ w.highest) : Unrestricted .char (.whole w)
  | floatingCode (p : Precision) : Unrestricted .char (.floating p)
  | widening {s t : FieldType} (h : Widening s t) : Unrestricted s t

/-- The pairs of types without a concern about the range. -/
theorem unrestricted_of_range_notMem {s t : FieldType} (h : Concern.range ∉ s.concerns t) :
    Unrestricted s t := by
  unfold concerns at h
  split_ifs at h with hsame hboolean hstring hchar hcode hnarrow hwiden
  · rcases hsame with rfl | rfl
    · exact .self s
    · exact .text s
  · rcases hboolean with rfl | rfl
    · exact .ofBoolean t
    · exact .toBoolean s
  · exact absurd List.mem_cons_self h
  · exact absurd List.mem_cons_self h
  · exact absurd List.mem_cons_self h
  · subst hcode
    rw [not_or] at hsame hboolean hnarrow
    rcases t with _ | _ | w | p | _
    · exact absurd rfl hboolean.2
    · exact absurd rfl hchar
    · cases w with
      | byte => exact absurd rfl hnarrow.1
      | short => exact absurd rfl hnarrow.2
      | integer => exact .code (by decide)
      | long => exact .code (by decide)
    · exact .floatingCode p
    · exact absurd rfl hsame.2
  · exact .widening (widening_of_widens hwiden)
  · exact absurd List.mem_cons_self h

/-- A pair of types without a concern is one of a type with itself, one with text, or a widening. -/
theorem cases_of_concerns_eq_nil {s t : FieldType} (h : s.concerns t = []) :
    s = t ∨ t = .string ∨ Widening s t := by
  unfold concerns at h
  split_ifs at h with hsame _ _ _ _ _ hwiden
  · rcases hsame with hst | ht
    · exact .inl hst
    · exact .inr (.inl ht)
  · exact .inr (.inr (widening_of_widens hwiden))

end FieldType

/-! ## Conversions of one kind -/

namespace Conversion

theorem ofInt_whole {w : Width} {n : Int} (m : Whole w) (h : m.val = n) :
    ofInt n (.whole w) = .ok (.whole w m) := by
  have hin : Whole.ofInt? w n = some m := Whole.ofInt?_eq_some_iff.2 h
  unfold ofInt
  dsimp only
  rw [hin]
  rfl

/-- A type with room for all code points holds that of a character. -/
theorem exists_ofInt_code {w : Width} (h : 0x10FFFF ≤ w.highest) (c : Char) :
    ∃ x, ofInt c.toNat (.whole w) = .ok x := by
  have hcode := toNat_le c
  have hlow := w.lowest_neg
  exact ⟨_, ofInt_whole ⟨c.toNat, by omega, by omega⟩ rfl⟩

theorem exists_ofBool (b : Bool) (t : FieldType) : ∃ x, ofBool b t = .ok x := by
  rcases t with _ | _ | w | p | _
  · exact ⟨_, rfl⟩
  · exact ⟨_, rfl⟩
  · have hlow := w.lowest_neg
    have hhigh := w.highest_pos
    cases b with
    | false => exact ⟨_, ofInt_whole ⟨0, by omega, by omega⟩ rfl⟩
    | true => exact ⟨_, ofInt_whole ⟨1, by omega, by omega⟩ rfl⟩
  · exact ⟨_, rfl⟩
  · exact ⟨_, rfl⟩

/-- A finite number turns into the number of the other precision that has its value. -/
theorem narrow_of_same {p q : Precision} {s : Bool} {rank : Fin p.limit} {rank' : Fin q.limit}
    (h : (q.magnitude rank').Same (p.magnitude rank)) :
    narrow q (finite s rank) = .ok (.floating q (finite s rank')) := by
  have hzero : (!(finite s rank).isZero && (finite s rank').isZero) = false := by
    rw [isZero_eq_of_same h, Bool.not_and_self]
  unfold narrow
  rw [toPrecision_of_same h]
  simp only [hzero, isInfinite, Bool.and_false, Bool.false_eq_true, if_false]

end Conversion

namespace Value

theorem convert_self (v : Value) : v.convert v.type = .ok v := by
  unfold convert
  rw [if_pos rfl]

/-- That a value of the type is kept and that text is what the value prints as makes no difference where
both are what comes of the value anyway. -/
theorem convert_eq {v : Value} {t : FieldType} {c : Conversion} (hself : v.type = t → c = .ok v)
    (htext : t = .string → c = .ok (.string v.render))
    (hother : v.type ≠ t → t ≠ .string → v.convert t = c) : v.convert t = c := by
  by_cases hv : v.type = t
  · rw [hself hv, ← hv, convert_self]
  · by_cases ht : t = .string
    · rw [htext ht]
      unfold convert
      rw [if_neg hv, if_pos ht]
    · exact hother hv ht

theorem convert_boolean (b : Bool) (t : FieldType) :
    (boolean b).convert t = Conversion.ofBool b t := by
  refine convert_eq ?_ ?_ fun hv ht => ?_
  · rintro rfl
    rfl
  · rintro rfl
    rfl
  · unfold convert
    rw [if_neg hv, if_neg ht]

theorem convert_whole {w : Width} (n : Whole w) (t : FieldType) :
    (whole w n).convert t = Conversion.ofInt n.val t := by
  refine convert_eq ?_ ?_ fun hv ht => ?_
  · rintro rfl
    exact Conversion.ofInt_whole n rfl
  · rintro rfl
    rfl
  · unfold convert
    rw [if_neg hv, if_neg ht]

theorem convert_string (s : String) (t : FieldType) :
    (string s).convert t = Conversion.ofText s t := by
  refine convert_eq ?_ ?_ fun hv ht => ?_
  · rintro rfl
    rfl
  · rintro rfl
    rfl
  · unfold convert
    rw [if_neg hv, if_neg ht]

theorem exists_convert_string (v : Value) : ∃ x, v.convert .string = .ok x := by
  unfold convert
  split
  · exact ⟨_, rfl⟩
  · exact ⟨_, rfl⟩

/-- Every value is taken for a truth value. -/
theorem exists_convert_boolean (v : Value) : ∃ x, v.convert .boolean = .ok x := by
  cases v <;> exact ⟨_, rfl⟩

/-- A number of one width is converted to the same number of another width. -/
theorem convert_whole_whole {w w' : Width} {n : Whole w} {m : Whole w'} (h : m.val = n.val) :
    (whole w n).convert (.whole w') = .ok (whole w' m) := by
  rw [convert_whole]
  exact Conversion.ofInt_whole m h

/-- A whole number that a floating type holds exactly is converted back. -/
theorem convert_floating_whole {w : Width} {p : Precision} {n : Whole w}
    (h : n.val.natAbs < 2 * p.span) :
    (floating p (ofInt p n.val)).convert (.whole w) = .ok (whole w n) := by
  have hlong := toLong_ofInt h
  unfold convert
  rw [if_neg FieldType.noConfusion, if_neg FieldType.noConfusion]
  dsimp only
  unfold Conversion.ofFloat
  rw [hlong]
  exact Conversion.ofInt_whole n rfl

/-- A number of single precision is converted to double precision and back. -/
theorem convert_single_double (x : BinaryFloat .single) :
    ∃ y, (floating .single x).convert (.floating .double) = .ok (floating .double y) ∧
      (floating .double y).convert (.floating .single) = .ok (floating .single x) := by
  cases x with
  | nan => exact ⟨nan, rfl, rfl⟩
  | infinite s => exact ⟨infinite s, rfl, rfl⟩
  | finite s rank =>
    obtain ⟨rank', h⟩ := Precision.holds_magnitude rank
    exact ⟨finite s rank', Conversion.narrow_of_same h, Conversion.narrow_of_same h.symm⟩

/-! ## Widening -/

theorem exists_whole_of_type {v : Value} {w : Width} (h : v.type = .whole w) :
    ∃ n : Whole w, v = whole w n := by
  cases v with
  | whole w' n =>
    cases h
    exact ⟨n, rfl⟩
  | _ => cases h

theorem exists_floating_of_type {v : Value} {p : Precision} (h : v.type = .floating p) :
    ∃ x : BinaryFloat p, v = floating p x := by
  cases v with
  | floating p' x =>
    cases h
    exact ⟨x, rfl⟩
  | _ => cases h

/-- A widened number is converted back to the number it came from. -/
theorem convert_of_widening {v : Value} {s t : FieldType} (hv : v.type = s) (h : s.Widening t) :
    ∃ x, v.convert t = .ok x ∧ x.convert s = .ok v := by
  cases h with
  | whole hlow hhigh =>
    obtain ⟨n, rfl⟩ := exists_whole_of_type hv
    exact ⟨.whole _ ⟨n.val, hlow.trans n.lowest_le, n.le_highest.trans hhigh⟩,
      convert_whole_whole rfl, convert_whole_whole rfl⟩
  | @exact w p hlow hhigh =>
    obtain ⟨n, rfl⟩ := exists_whole_of_type hv
    have hbits : n.val.natAbs < 2 * p.span := by
      have := n.lowest_le
      have := n.le_highest
      omega
    exact ⟨.floating p (ofInt p n.val), rfl, convert_floating_whole hbits⟩
  | same p => exact ⟨v, hv ▸ v.convert_self, hv ▸ v.convert_self⟩
  | finer =>
    obtain ⟨x, rfl⟩ := exists_floating_of_type hv
    obtain ⟨y, hy, hback⟩ := convert_single_double x
    exact ⟨_, hy, hback⟩

/-! ## The promise -/

/-- Between the types of such a pair a conversion gives a value. -/
theorem exists_convert_of_unrestricted {v : Value} {s t : FieldType} (hv : v.type = s)
    (h : s.Unrestricted t) : ∃ x, v.convert t = .ok x := by
  cases h with
  | self => exact ⟨v, hv ▸ v.convert_self⟩
  | text => exact v.exists_convert_string
  | toBoolean => exact v.exists_convert_boolean
  | ofBoolean =>
    cases v with
    | boolean b =>
      rw [convert_boolean]
      exact Conversion.exists_ofBool b t
    | _ => cases hv
  | code hhigh =>
    cases v with
    | char c => exact Conversion.exists_ofInt_code hhigh c
    | _ => cases hv
  | floatingCode p =>
    cases v with
    | char c => exact ⟨_, rfl⟩
    | _ => cases hv
  | widening h =>
    obtain ⟨x, hx, -⟩ := convert_of_widening hv h
    exact ⟨x, hx⟩

/-- The table of concerns promises no more than conversions keep: without a concern about the range
there is a value of the type asked for, and without any concern, text apart, it converts back. -/
theorem convert_of_concerns (v : Value) (t : FieldType) :
    (Concern.range ∉ v.type.concerns t → ∃ x, v.convert t = .ok x ∧ x.type = t) ∧
      (v.type.concerns t = [] → t ≠ .string →
        ∃ x, v.convert t = .ok x ∧ x.convert v.type = .ok v) := by
  constructor
  · intro h
    obtain ⟨x, hx⟩ := exists_convert_of_unrestricted rfl (FieldType.unrestricted_of_range_notMem h)
    exact ⟨x, hx, type_of_convert (congrArg Conversion.value? hx)⟩
  · intro h hstring
    rcases FieldType.cases_of_concerns_eq_nil h with rfl | rfl | hwiden
    · exact ⟨v, v.convert_self, v.convert_self⟩
    · exact absurd rfl hstring
    · exact convert_of_widening rfl hwiden

/-- The highest code point as a number; the lowest number of 32 bits in double precision and back. -/
theorem convert_of_concerns_ends :
    (Concern.range ∉ FieldType.char.concerns (.whole .integer) ∧
      ∃ x, (char (Char.ofNat 0x10FFFF)).convert (.whole .integer) = .ok x ∧
        x.type = .whole .integer) ∧
    (FieldType.whole .integer).concerns (.floating .double) = [] ∧
      FieldType.floating .double ≠ .string ∧
      ∃ x, (whole .integer ⟨-2147483648, by decide, by decide⟩).convert (.floating .double) = .ok x ∧
        x.convert (.whole .integer) = .ok (whole .integer ⟨-2147483648, by decide, by decide⟩) := by
  have hcode := convert_of_concerns (char (Char.ofNat 0x10FFFF)) (.whole .integer)
  have hlowest := convert_of_concerns (whole .integer ⟨-2147483648, by decide, by decide⟩)
    (.floating .double)
  exact ⟨⟨by decide, hcode.1 (by decide)⟩, by decide, by decide,
    hlowest.2 (by decide) (by decide)⟩

end Value

end MarkupFields
