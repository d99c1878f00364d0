import MarkupFields.Proofs.Number.ReadBack
import Mathlib.Data.List.TakeWhile

/-
  Values written and read back. The text of a value of any type converts to that value at its type,
  without a loss (`ofText_render`), and at no other type (`ofText_render_eq_ok_iff`); what a conversion
  to a type gives is of that type (`type_of_convert`). So the text of a converted value gives the
  converted value again.
-/

namespace MarkupFields

open Text

/-! ## Trimming -/

namespace Text

variable {p : Char → Bool}

theorem dropWhile_eq_self {cs : List Char} (h : ∀ c ∈ cs, p c = false) : cs.dropWhile p = cs := by
  cases cs with
  | nil => rfl
  | cons c cs => rw [List.dropWhile_cons_of_neg (by simp [h c List.mem_cons_self])]

/-- Trimming takes away what is around a text, as long as none of the text could go with it. -/
theorem trim_around {before text after : List Char} (hb : ∀ c ∈ before, p c = true)
    (ht : ∀ c ∈ text, p c = false) (ha : ∀ c ∈ after, p c = true) :
    trim p (before ++ text ++ after) = text := by
  have hafter : after.dropWhile p = [] := List.dropWhile_eq_nil_iff.2 ha
  have hrev : text.reverse.dropWhile p = text.reverse :=
    dropWhile_eq_self fun c hc => ht c (List.mem_reverse.1 hc)
  have hreva : ∀ c ∈ after.reverse, p c = true := fun c hc => ha c (List.mem_reverse.1 hc)
  unfold trim
  rw [List.append_assoc, List.dropWhile_append_of_pos hb, List.dropWhile_append,
    dropWhile_eq_self ht]
  split
  · rename_i hempty
    rw [hafter, List.isEmpty_iff.1 hempty]
    rfl
  · rw [List.reverse_append, List.dropWhile_append_of_pos hreva, hrev, List.reverse_reverse]

theorem trim_eq_self {cs : List Char} (h : ∀ c ∈ cs, p c = false) : trim p cs = cs := by
  have hnil : ∀ c ∈ ([] : List Char), p c = true := fun c hc => nomatch hc
  have htrim := trim_around hnil h hnil
  rwa [List.nil_append, List.append_nil] at htrim

/-- What trimming takes away stands at the ends. -/
theorem exists_around_trim (p : Char → Bool) (cs : List Char) :
    ∃ before after, cs = before ++ trim p cs ++ after ∧ (∀ c ∈ before, p c = true) ∧
      ∀ c ∈ after, p c = true := by
  refine ⟨cs.takeWhile p, ((cs.dropWhile p).reverse.takeWhile p).reverse, ?_, ?_, ?_⟩
  · unfold trim
    rw [List.append_assoc, ← List.reverse_append, List.takeWhile_append_dropWhile,
      List.reverse_reverse, List.takeWhile_append_dropWhile]
  · intro c hc
    exact List.mem_takeWhile_imp hc
  · intro c hc
    exact List.mem_takeWhile_imp (List.mem_reverse.1 hc)

end Text

/-! ## Text -/

namespace Conversion

/-- Reading gives a number exactly if the text is its numeral and it is between the bounds. -/
theorem wholeOfText_eq_ok_iff {low high n : Int} (hlow : low ≤ 0) (hhigh : 0 ≤ high)
    {cs : List Char} : wholeOfText low high cs = .ok n ↔ Denotes cs n ∧ low ≤ n ∧ n ≤ high := by
  rw [← readNumeral_eq_value_iff hlow hhigh]
  unfold wholeOfText
  cases readNumeral low high cs with
  | value m => exact ⟨fun h => congrArg _ (Except.ok.inj h), fun h => congrArg _ (NumeralResult.value.inj h)⟩
  | outOfRange => exact ⟨nofun, nofun⟩
  | malformed => exact ⟨nofun, nofun⟩

/-- The text of a value converts to the value. -/
theorem ofText_render (v : Value) : ofText v.render v.type = .ok v := by
  cases v with
  | boolean b => cases b <;> rfl
  | char c =>
    have hraw : (Value.render (.char c)).toList = [c] := by
      show (String.singleton c).toList = [c]
      rw [String.toList_singleton]
    simp only [ofText, Value.type, hraw, charOfText]
  | whole w n =>
    have hspace := Literal.noSpace_of_denotes (denotes_renderInt n.val)
    have hwhole := (wholeOfText_eq_ok_iff w.lowest_neg.le w.highest_pos.le).2
      ⟨denotes_renderInt n.val, n.lowest_le, n.le_highest⟩
    have hin : Whole.ofInt? w n.val = some n := Whole.ofInt?_eq_some_iff.2 rfl
    simp only [ofText, Value.type, Value.render, String.toList_ofList, trim_eq_self hspace, hwhole,
      hin, Option.map_some, ofOption]
  | floating p x =>
    simp only [ofText, Value.type, Value.render, String.toList_ofList,
      trim_eq_self x.noSpace_render, floatOfText_render]
  | string s => rfl

/-! ## The type of what is converted -/

/-- What the conversion gives, if it gives something, is of the type. -/
def Gives (t : FieldType) (c : Conversion) : Prop :=
  ∀ x, c.value? = some x → x.type = t

theorem gives_ok (v : Value) : Gives v.type (ok v) := by
  intro x hx
  rw [← Option.some.inj hx]

theorem gives_clamped (v : Value) : Gives v.type (clamped v) := by
  intro x hx
  rw [← Option.some.inj hx]

theorem gives_failed (t : FieldType) (r : FailureReason) : Gives t (failed r) := by
  intro x hx
  cases hx

theorem gives_ofOption {t : FieldType} {o : Option Value} (r : FailureReason)
    (h : ∀ v ∈ o, v.type = t) : Gives t (ofOption r o) := by
  cases o with
  | none => exact gives_failed t r
  | some v => exact h v rfl ▸ gives_ok v

theorem gives_char (n : Int) :
    Gives .char (ofOption .invalidCodePoint ((charOfInt? n).map .char)) := by
  refine gives_ofOption _ fun v hv => ?_
  obtain ⟨c, -, rfl⟩ := Option.map_eq_some_iff.1 hv
  rfl

theorem gives_whole (w : Width) (n : Int) :
    Gives (.whole w) (ofOption .overflow ((Whole.ofInt? w n).map (.whole w))) := by
  refine gives_ofOption _ fun v hv => ?_
  obtain ⟨m, -, rfl⟩ := Option.map_eq_some_iff.1 hv
  rfl

theorem gives_ofInt (n : Int) (t : FieldType) : Gives t (ofInt n t) := by
  cases t with
  | boolean => exact gives_ok _
  | char => exact gives_char n
  | whole w => exact gives_whole w n
  | floating p => exact gives_ok _
  | string => exact gives_ok _

theorem gives_ofBool (b : Bool) (t : FieldType) : Gives t (ofBool b t) := by
  cases t with
  | boolean => exact gives_ok _
  | char => exact gives_ok _
  | whole w => exact gives_ofInt _ _
  | floating p => exact gives_ofInt _ _
  | string => exact gives_ok _

theorem gives_ofFloat {p : Precision} (x : BinaryFloat p) (t : FieldType) :
    Gives t (ofFloat x t) := by
  cases t with
  | boolean => exact gives_ok _
  | char =>
    unfold ofFloat
    dsimp only
    split
    · exact gives_ofInt _ .char
    · exact gives_failed _ _
    · exact gives_failed _ _
  | whole w =>
    unfold ofFloat
    dsimp only
    split
    · exact gives_ofInt _ (.whole w)
    · exact gives_failed _ _
    · exact gives_failed _ _
  | floating q =>
    show Gives _ (narrow q x)
    unfold narrow
    dsimp only
    split
    · exact gives_failed _ _
    · split
      · exact gives_clamped _
      · exact gives_ok _
  | string => exact gives_ok _

theorem gives_ofText (s : String) (t : FieldType) : Gives t (ofText s t) := by
  cases t with
  | boolean => exact gives_ok _
  | char =>
    show Gives _ (charOfText _ _)
    unfold charOfText
    split
    · exact gives_ok _
    · split
      · exact gives_char _
      · exact gives_failed _ _
  | whole w =>
    unfold ofText
    dsimp only
    split
    · exact gives_whole w _
    · exact gives_failed _ _
  | floating p =>
    show Gives _ (floatOfText p _)
    unfold floatOfText
    split
    · exact gives_failed _ _
    · dsimp only
      split
      · exact gives_failed _ _
      · split
        · exact gives_clamped _
        · exact gives_ok _
  | string => exact gives_ok _

/-- The text of a value converts to the value at its own type and at no other. -/
theorem ofText_render_eq_ok_iff (v : Value) (t : FieldType) :
    ofText v.render t = .ok v ↔ t = v.type := by
  constructor
  · intro h
    exact (gives_ofText v.render t v (congrArg value? h)).symm
  · rintro rfl
    exact ofText_render v

end Conversion

/-- What a value converts to is of the type that was asked for. -/
theorem Value.type_of_convert {v x : Value} {t : FieldType} (h : (v.convert t).value? = some x) :
    x.type = t := by
  have hgives : Conversion.Gives t (v.convert t) := by
    unfold convert
    split
    · rename_i ht
      exact ht ▸ Conversion.gives_ok v
    · split
      · rename_i ht
        exact ht ▸ Conversion.gives_ok _
      · cases v with
        | boolean b => exact Conversion.gives_ofBool b t
        | char c => exact Conversion.gives_ofInt _ t
        | whole w n => exact Conversion.gives_ofInt _ t
        | floating p y => exact Conversion.gives_ofFloat y t
        | string s => exact Conversion.gives_ofText s t
  exact hgives x h

end MarkupFields
