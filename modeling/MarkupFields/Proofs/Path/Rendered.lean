import MarkupFields.Proofs.Path.Grammar

/-
  Expressions of paths. A path whose names are qualified and whose positions are in range is read
  back from the expression it is rendered as (`parse_render`), because that expression spells it: a
  name is written as it is spelled, and the numeral of a position is one of its spellings. An
  expression for an element goes on to one for an attribute of it (`parse_append_attribute`).
-/

namespace MarkupFields

open Text

/-- The step can be written: its name is qualified, and its position, if one is written, is in
range. -/
structure Step.Expressible (s : Step) : Prop where
  name : s.name.isQualified = true
  index : ∀ n, s.index = some n → 1 ≤ n ∧ n < Path.indexBound

/-- The path can be written: it is not empty, and its steps and its attribute can be written. -/
structure Path.Expressible (p : Path) : Prop where
  nonempty : p.segments ≠ []
  steps : ∀ s ∈ p.steps, s.Expressible
  attr : ∀ q, p.attr = some q → q.isQualified = true

namespace Path

/-! ## Segments -/

/-- The numeral of a position in range spells it. -/
theorem spelledIndex_toDigits {n : Nat} (h : 1 ≤ n ∧ n < indexBound) :
    SpelledIndex (Nat.toDigits 10 n) n :=
  ⟨Nat.toDigits_ne_nil, fun _ hc => isDigit_of_mem_toDigits hc, Nat.ofDigitChars_ten_toDigits, h⟩

theorem toList_render_indexed (q : QName) (n : Nat) :
    (Segment.element ⟨q, some n⟩).render.toList =
      q.written.toList ++ '[' :: (Nat.toDigits 10 n ++ [']']) := by
  show (q.written ++ "[" ++ toString n ++ "]").toList = _
  rw [String.toList_append, String.toList_append, String.toList_append, List.append_assoc,
    List.append_assoc, show (toString n).toList = Nat.toDigits 10 n from Nat.toList_repr]
  rfl

theorem toList_render_attr (q : QName) :
    (Segment.attr q).render.toList = '@' :: q.written.toList := by
  show ("@" ++ q.written).toList = _
  rw [String.toList_append]
  rfl

/-- A step is rendered as one of its spellings. -/
theorem spelledStep_render {s : Step} (h : s.Expressible) :
    SpelledStep (Segment.element s).render.toList s := by
  obtain ⟨q, index⟩ := s
  have hname : SpelledName q.written.toList q := spelledName_iff.2 ⟨h.name, rfl⟩
  cases index with
  | none => exact .first hname
  | some n =>
    rw [toList_render_indexed]
    exact .indexed hname (spelledIndex_toDigits (h.index n rfl))

/-- An attribute is rendered as it is spelled. -/
theorem spelledSegment_attr {q : QName} (h : q.isQualified = true) :
    SpelledSegment (Segment.attr q).render.toList (.attr q) := by
  rw [toList_render_attr]
  exact .attr (spelledName_iff.2 ⟨h, rfl⟩)

/-! ## Whole expressions -/

theorem toList_render (p : Path) :
    p.render.toList = (p.segments.map fun s => s.render.toList).flatMap ('/' :: ·) := by
  unfold render
  induction p.segments with
  | nil => rfl
  | cons s segments ih =>
    rw [List.map_cons, String.join_cons, String.toList_append, String.toList_append, ih]
    rfl

/-- A path that can be written is spelled by its expression. -/
theorem spelled_render {p : Path} (h : p.Expressible) : Spelled p.render.toList p := by
  refine ⟨p.segments.map fun s => s.render.toList, mt List.map_eq_nil_iff.1 h.nonempty,
    toList_render p, ?_⟩
  rw [List.forall₂_map_left_iff, List.forall₂_same]
  intro segment hsegment
  rcases List.mem_append.1 hsegment with hmem | hmem
  · obtain ⟨s, hs, rfl⟩ := List.mem_map.1 hmem
    exact .element (spelledStep_render (h.steps s hs))
  · obtain ⟨q, hq, rfl⟩ := List.mem_map.1 hmem
    exact spelledSegment_attr (h.attr q (Option.mem_toList.1 hq))

/-- A path that can be written is read back from its expression. -/
theorem parse_render {p : Path} (h : p.Expressible) : Path.parse p.render = .ok p :=
  parse_of_spelled (spelled_render h)

/-- What is spelled as a step can be written. -/
theorem SpelledStep.expressible {cs : List Char} {s : Step} (h : SpelledStep cs s) :
    s.Expressible := by
  cases h with
  | first name => exact ⟨(spelledName_iff.1 name).1, nofun⟩
  | indexed name index =>
    refine ⟨(spelledName_iff.1 name).1, fun n hn => ?_⟩
    rw [← Option.some.inj hn]
    exact index.range

/-- What is spelled can be written. -/
theorem Spelled.expressible {cs : List Char} {p : Path} (h : Spelled cs p) : p.Expressible := by
  obtain ⟨texts, hne, -, hall⟩ := h
  refine ⟨?_, fun s hs => ?_, fun q hq => ?_⟩
  · intro hnil
    rw [hnil, List.forall₂_nil_right_iff] at hall
    exact hne hall
  · obtain ⟨text, -, hspelled⟩ := exists_of_forall₂ hall (.element s)
      (List.mem_append_left _ (List.mem_map_of_mem hs))
    cases hspelled with
    | element step => exact step.expressible
  · obtain ⟨text, -, hspelled⟩ := exists_of_forall₂ hall (.attr q)
      (List.mem_append_right _ (List.mem_map_of_mem (Option.mem_toList.2 hq)))
    cases hspelled with
    | attr name => exact (spelledName_iff.1 name).1

/-! ## One more segment -/

/-- Behind steps without an attribute there may come an attribute. -/
theorem Spelled.append_attr {cs : List Char} {p : Path} (h : Spelled cs p) (hattr : p.attr = none)
    {q : QName} (hq : q.isQualified = true) :
    Spelled (cs ++ '/' :: '@' :: q.written.toList) ⟨p.steps, some q⟩ := by
  obtain ⟨texts, -, rfl, hall⟩ := h
  have hsegments : segments ⟨p.steps, some q⟩ = p.segments ++ [.attr q] := by
    unfold segments
    rw [hattr]
    simp
  refine ⟨texts ++ ['@' :: q.written.toList], by simp, by simp, ?_⟩
  rw [hsegments]
  exact List.rel_append hall (.cons (.attr (spelledName_iff.2 ⟨hq, rfl⟩)) .nil)

/-- An expression for an element goes on to an attribute without a prefix. -/
theorem parse_append_attribute {expression : String} {p : Path} (h : Path.parse expression = .ok p)
    (hattr : p.attr = none) {name : String} (hname : isNCName name = true) :
    Path.parse (expression ++ "/@" ++ name) = .ok ⟨p.steps, some (.plain name)⟩ := by
  have hspelled := (spelled_of_parse h).append_attr hattr (q := .plain name) hname
  refine parse_of_spelled ?_
  rw [String.toList_append, String.toList_append, List.append_assoc]
  exact hspelled

end Path

end MarkupFields
