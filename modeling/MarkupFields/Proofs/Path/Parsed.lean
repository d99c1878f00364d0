import MarkupFields.Proofs.Path.Rendered

/-
  What a path that was read is made of: every name in it is an NCName with an NCName for a prefix, if
  it has one, and every position counts from one (`parsed_of_parse`). Which expressions are accepted is
  said by the grammar; here it is only used for what it says of the path.
-/

namespace MarkupFields

/-- The parts of a path are as the reading of expressions leaves them. -/
structure Path.Parsed (p : Path) : Prop where
  steps : ∀ s ∈ p.steps, s.name.isQualified = true ∧ 1 ≤ s.position
  attr : ∀ q, p.attr = some q → q.isQualified = true

namespace Path

/-- What can be written consists of qualified names and positions from one. -/
theorem Expressible.parsed {p : Path} (h : p.Expressible) : p.Parsed := by
  refine ⟨fun s hs => ⟨(h.steps s hs).name, ?_⟩, h.attr⟩
  have hindex := (h.steps s hs).index
  cases hi : s.index with
  | none =>
    rw [Step.position, hi]
    exact Nat.le_refl 1
  | some n =>
    rw [Step.position, hi]
    exact (hindex n hi).1

/-- A path that was read consists of qualified names and positions from one. -/
theorem parsed_of_parse {e : String} {p : Path} (h : parse e = .ok p) : p.Parsed :=
  (spelled_of_parse h).expressible.parsed

end Path

end MarkupFields
