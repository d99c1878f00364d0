import MarkupFields.Field.Writer
import MarkupFields.Proofs.Path.Parsed
import Mathlib.Data.List.Forall2

/-
  The three outcomes of writing a field: the request is refused, the value has no text to store, or
  a plan is carried out. What is refused changes nothing at all; a value without a text costs one
  record and nothing else; a plan that is carried out leaves the records, the bindings and the limit
  as they were (`writeField_outcome`). `writeField_cases` is the same in the form in which the
  other modules on writing use it: which plan was carried out, and where it came from.
-/

namespace MarkupFields.FieldWriter

/-- A text was found for the value, unless there was none to convert. -/
theorem exists_value_of_textOf?_eq_none {f : Field} (h : textOf? f = none) :
    ∃ v, f.value = some v := by
  unfold textOf? at h
  split at h
  · simp at h
  · rename_i v hv
    exact ⟨v, hv⟩

/-- The record of a value without a text: an error at the path of the field, with the text that the
value had before it was converted. -/
theorem refusal_eq {f : Field} {v : Value} (hv : f.value = some v) :
    refusal f = Audit.conversionFailure v.render f.effectiveType (some f.path) := by
  simp [refusal, hv]

/-- What a call comes to, with the plan if one was carried out. -/
theorem writeField_cases (w : FieldWriter) (f : Field) (log : List Audit) :
    (∃ e, w.writeField f log = (.error e, w, log)) ∨
    (∃ p, w.pathOf f = .ok p ∧ textOf? f = none ∧
      w.writeField f log = (.ok (), w, log ++ [refusal f])) ∨
    (∃ p text plan, w.pathOf f = .ok p ∧ textOf? f = some text ∧ w.planFor p text = .ok plan ∧
      w.writeField f log = (.ok (), { w with document := plan.write w.document }, log)) := by
  unfold writeField
  split
  · rename_i e _
    exact .inl ⟨e, rfl⟩
  · rename_i p hp
    split
    · rename_i ht
      exact .inr (.inl ⟨p, hp, ht, rfl⟩)
    · rename_i text ht
      split
      · rename_i e _
        exact .inl ⟨e, rfl⟩
      · rename_i plan hplan
        exact .inr (.inr ⟨p, text, plan, hp, ht, hplan, rfl⟩)

/-! ## What a plan is made from -/

/-- The path of a field that is not refused is the one it was given as, it has a step, and its
positions are within the limit. -/
theorem pathOf_eq_ok {w : FieldWriter} {f : Field} {p : Path} (h : w.pathOf f = .ok p) :
    Path.parse f.path = .ok p ∧ p.steps ≠ [] ∧ ∀ s ∈ p.steps, s.position ≤ w.maxIndex := by
  unfold pathOf at h
  split at h
  · simp at h
  · rename_i q hq
    dsimp only at h
    split at h
    · simp at h
    · rename_i hne
      split at h
      · simp at h
      · rename_i hfind
        rw [Except.ok.injEq] at h
        subst h
        refine ⟨hq, by simpa using hne, ?_⟩
        intro s hs
        have := List.find?_eq_none.1 hfind s.position (by simp; exact .inl ⟨s, hs, rfl⟩)
        simpa using this

/-- A path that can be read, has a step and keeps to the limit is not refused. -/
theorem pathOf_of_parse {w : FieldWriter} {f : Field} {p : Path} (hp : Path.parse f.path = .ok p)
    (hsteps : p.steps ≠ []) (hpositions : ∀ s ∈ p.steps, s.position ≤ w.maxIndex)
    (hattr : p.attr = none ∨ 1 ≤ w.maxIndex) : w.pathOf f = .ok p := by
  have hempty : p.steps.isEmpty = false := List.isEmpty_eq_false_iff.2 hsteps
  have hlimit : ∀ n ∈ p.steps.map Step.position ++ p.attr.toList.map fun _ => 1,
      ¬ (decide (n > w.maxIndex) = true) := by
    intro n hn
    rw [decide_eq_true_iff, Nat.not_lt]
    rcases List.mem_append.1 hn with hn | hn
    · obtain ⟨s, hs, rfl⟩ := List.mem_map.1 hn
      exact hpositions s hs
    · obtain ⟨q, hq, rfl⟩ := List.mem_map.1 hn
      refine hattr.resolve_left fun hnone => ?_
      rw [hnone] at hq
      cases hq
  unfold pathOf
  rw [hp]
  dsimp only
  rw [hempty, if_neg Bool.false_ne_true, List.find?_eq_none.2 hlimit]

/-- The places of steps have their names and positions, and the namespaces of the names. -/
theorem resolveSteps_eq_ok {w : FieldWriter} {steps : List Step} {places : List Place}
    (h : w.resolveSteps steps = .ok places) :
    List.Forall₂ (fun s p => p.name = s.name ∧ p.position = s.position ∧
      w.resolve w.namespaces.default? s.name = .ok p.namespaceUri) steps places := by
  induction steps generalizing places with
  | nil =>
    rw [resolveSteps, Except.ok.injEq] at h
    subst h
    exact .nil
  | cons s steps ih =>
    rw [resolveSteps] at h
    obtain ⟨uri, huri, h⟩ := bind_eq_ok.1 h
    obtain ⟨rest, hrest, h⟩ := bind_eq_ok.1 h
    rw [Except.ok.injEq] at h
    subst h
    exact .cons ⟨rfl, rfl, huri⟩ (ih hrest)

/-- The plan holds the places of the path, what is to be put there and the prefixes that both use. -/
theorem planFor_eq_ok {w : FieldWriter} {p : Path} {text : String} {plan : WritePlan}
    (h : w.planFor p text = .ok plan) :
    w.resolveSteps p.steps = .ok (plan.root :: plan.places) ∧
      w.payloadOf text p.attr = .ok plan.payload ∧
      plan.declarations = neededFor (plan.root :: plan.places) plan.payload ∧
      w.checkRoot plan.root = .ok () := by
  unfold planFor at h
  obtain ⟨places, hplaces, h⟩ := bind_eq_ok.1 h
  obtain ⟨payload, hpayload, h⟩ := bind_eq_ok.1 h
  cases places with
  | nil => cases h
  | cons root below =>
    obtain ⟨u, hroot, h⟩ := bind_eq_ok.1 h
    rw [Except.ok.injEq] at h
    subst h
    exact ⟨hplaces, hpayload, rfl, hroot⟩

/-- Every place comes from a step. -/
theorem exists_step_of_mem {w : FieldWriter} {steps : List Step} {places : List Place}
    (h : w.resolveSteps steps = .ok places) {q : Place} (hq : q ∈ places) :
    ∃ s ∈ steps, q.name = s.name ∧ q.position = s.position ∧
      w.resolve w.namespaces.default? s.name = .ok q.namespaceUri :=
  exists_of_forall₂ (resolveSteps_eq_ok h) q hq

/-- Positions in a plan count from one. -/
theorem one_le_position_of_planFor {w : FieldWriter} {p : Path} {text : String} {plan : WritePlan}
    (hp : p.Parsed) (h : w.planFor p text = .ok plan) :
    ∀ q ∈ plan.root :: plan.places, 1 ≤ q.position := by
  intro q hq
  obtain ⟨s, hs, -, hpos, -⟩ := exists_step_of_mem (planFor_eq_ok h).1 hq
  rw [hpos]
  exact (hp.steps s hs).2

/-! ## Outcomes -/

/-- A call that succeeds without a record carries out a plan. -/
theorem plan_of_writeField {w w' : FieldWriter} {f : Field} {log : List Audit}
    (h : w.writeField f log = (.ok (), w', log)) :
    ∃ p text plan, w.pathOf f = .ok p ∧ textOf? f = some text ∧ w.planFor p text = .ok plan ∧
      w' = { w with document := plan.write w.document } := by
  rcases w.writeField_cases f log with ⟨e, he⟩ | ⟨p, -, -, he⟩ | ⟨p, text, plan, hp, ht, hplan, he⟩
  · rw [h] at he
    simp at he
  · rw [h, Prod.mk.injEq, Prod.mk.injEq] at he
    have := congrArg List.length he.2.2
    simp at this
  · rw [h, Prod.mk.injEq, Prod.mk.injEq] at he
    exact ⟨p, text, plan, hp, ht, hplan, he.2.1⟩

/-- A refused request changes neither the writer nor the records. A request that is granted either
leaves the writer as it was and adds exactly one record, which is an error at the path of the field
and holds the text of its value, or adds no record and changes nothing of the writer but its
document. -/
theorem writeField_outcome (w : FieldWriter) (f : Field) (log : List Audit) :
    match w.writeField f log with
    | (.error _, w', log') => w' = w ∧ log' = log
    | (.ok (), w', log') =>
      (w' = w ∧ ∃ a v, log' = log ++ [a] ∧ f.value = some v ∧ a.status = .error ∧
        a.path = some f.path ∧ a.value = v.render) ∨
      (log' = log ∧ w'.namespaces = w.namespaces ∧ w'.maxIndex = w.maxIndex) := by
  rcases w.writeField_cases f log with ⟨e, he⟩ | ⟨p, -, ht, he⟩ | ⟨p, text, plan, -, -, -, he⟩
  · rw [he]
    exact ⟨rfl, rfl⟩
  · rw [he]
    obtain ⟨v, hv⟩ := exists_value_of_textOf?_eq_none ht
    exact .inl ⟨rfl, refusal f, v, rfl, hv, by rw [refusal_eq hv]; exact ⟨rfl, rfl, rfl⟩⟩
  · rw [he]
    exact .inr ⟨rfl, rfl, rfl⟩

end MarkupFields.FieldWriter
