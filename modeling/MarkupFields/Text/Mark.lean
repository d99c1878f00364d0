/-
  Marks: fixed sequences that are looked for at the front of a list or somewhere in it. What a search
  finds are parts of the list: put together with the mark they give the list back.
-/

namespace MarkupFields.Text

variable {α : Type} [DecidableEq α]

/-- The rest after the mark, if the list begins with it. -/
def after? : List α → List α → Option (List α)
  | [], l => some l
  | _ :: _, [] => none
  | m :: ms, a :: l => if m = a then after? ms l else none

theorem after?_eq_some_iff {mark l rest : List α} :
    after? mark l = some rest ↔ l = mark ++ rest := by
  induction mark generalizing l with
  | nil => simp [after?]
  | cons m ms ih =>
    cases l with
    | nil => simp [after?]
    | cons a l =>
      by_cases h : m = a
      · simp [after?, h, ih]
      · simp [after?, h, Ne.symm h]

/-- What stands before the first place of the mark and what follows it there. -/
def around? (mark : List α) : List α → Option (List α × List α)
  | [] => (after? mark []).map fun rest => ([], rest)
  | a :: l =>
    match after? mark (a :: l) with
    | some rest => some ([], rest)
    | none => (around? mark l).map fun p => (a :: p.1, p.2)

theorem around?_eq_some {mark l before rest : List α} (h : around? mark l = some (before, rest)) :
    l = before ++ mark ++ rest := by
  induction l generalizing before rest with
  | nil =>
    obtain ⟨r, hr, he⟩ := Option.map_eq_some_iff.1 h
    rw [after?_eq_some_iff] at hr
    rw [Prod.mk.injEq] at he
    rw [← he.1, ← he.2]
    exact hr
  | cons a l ih =>
    simp only [around?] at h
    split at h
    · rename_i r hr
      rw [after?_eq_some_iff] at hr
      simp only [Option.some.injEq, Prod.mk.injEq] at h
      rw [← h.1, ← h.2]
      exact hr
    · obtain ⟨p, hp, he⟩ := Option.map_eq_some_iff.1 h
      rw [Prod.mk.injEq] at he
      rw [← he.1, ← he.2, ih hp]
      rfl

end MarkupFields.Text
