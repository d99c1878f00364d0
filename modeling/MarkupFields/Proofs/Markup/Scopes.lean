import Mathlib.Data.List.Forall2
import MarkupFields.Markup.Scope
import MarkupFields.Proofs.Sequence

/-
  What reading the names of an element amounts to. Its declarations extend the scope, its names are
  qualified, each prefix stands for a namespace in the extended scope, and no two attributes have
  namespace and local name in common. Nothing but namespaces is changed.
-/

namespace MarkupFields

namespace Scope

/-- The namespace of an attribute name: that of its prefix; declarations and names without a prefix
are in none. -/
def attributeNamespace (s : Scope) (q : QName) : Except Fault (Option String) :=
  match q.nsPrefix with
  | none => .ok none
  | some p => if p = "xmlns" then .ok none else (s.require p).map some

theorem resolveAttributes_cons (s : Scope) (a : Attribute) (as : List Attribute) :
    s.resolveAttributes (a :: as) =
      (do
        let uri ← s.attributeNamespace a.name
        let as ← s.resolveAttributes as
        .ok ({ a with namespaceUri := uri } :: as)) := by
  rw [resolveAttributes, attributeNamespace]
  cases a.name.nsPrefix with
  | none => rfl
  | some p =>
    by_cases hp : p = "xmlns"
    · simp only [if_pos hp]
    · simp only [if_neg hp]

/-- Attributes are resolved one by one. -/
theorem resolveAttributes_eq_ok {s : Scope} {as as' : List Attribute} :
    s.resolveAttributes as = .ok as' ↔
      List.Forall₂ (fun a a' => ∃ uri, s.attributeNamespace a.name = .ok uri ∧
        a' = { a with namespaceUri := uri }) as as' := by
  induction as generalizing as' with
  | nil =>
    rw [List.forall₂_nil_left_iff, resolveAttributes, Except.ok.injEq]
    exact eq_comm
  | cons a as ih =>
    rw [resolveAttributes_cons, bind_eq_ok, List.forall₂_cons_left_iff]
    constructor
    · rintro ⟨uri, huri, h⟩
      obtain ⟨rest, hrest, h⟩ := bind_eq_ok.1 h
      rw [Except.ok.injEq] at h
      exact ⟨_, rest, ⟨uri, huri, rfl⟩, ih.1 hrest, h.symm⟩
    · rintro ⟨a', rest, ⟨uri, huri, rfl⟩, hrest, rfl⟩
      exact ⟨uri, huri, bind_eq_ok.2 ⟨rest, ih.2 hrest, rfl⟩⟩

/-- The names of an element are read if its declarations can be made, its own name is a qualified
name that may stand on an element, and its names and those of its attributes stand for namespaces
of which no two attributes share one with a local name. -/
theorem enter_eq_ok {s inside : Scope} {e e' : Element} :
    s.enter e = .ok (inside, e') ↔
      s.bindAll (Attribute.declarations e.attributes) = .ok inside ∧
        e.name.isQualified = true ∧ e.name.nsPrefix ≠ some "xmlns" ∧
        ∃ as uri, inside.resolveAttributes e.attributes = .ok as ∧ repeated? [] as = none ∧
          inside.elementNamespace e.name = .ok uri ∧
          e' = { e with namespaceUri := uri, attributes := as } := by
  unfold enter
  rw [bind_eq_ok]
  constructor
  · rintro ⟨s', hs, h⟩
    by_cases hq : e.name.isQualified = true
    · rw [hq, Bool.not_true, if_neg Bool.false_ne_true] at h
      by_cases hx : e.name.nsPrefix = some "xmlns"
      · rw [if_pos hx] at h
        cases h
      · rw [if_neg hx] at h
        obtain ⟨as, has, h⟩ := bind_eq_ok.1 h
        cases hr : repeated? [] as with
        | some a =>
          rw [hr] at h
          cases h
        | none =>
          rw [hr] at h
          obtain ⟨uri, huri, h⟩ := bind_eq_ok.1 h
          rw [Except.ok.injEq, Prod.mk.injEq] at h
          obtain ⟨rfl, rfl⟩ := h
          exact ⟨hs, hq, hx, as, uri, has, hr, huri, rfl⟩
    · rw [Bool.not_eq_true] at hq
      rw [hq, Bool.not_false, if_pos rfl] at h
      cases h
  · rintro ⟨hs, hq, hx, as, uri, has, hr, huri, rfl⟩
    refine ⟨inside, hs, ?_⟩
    rw [hq, Bool.not_true, if_neg Bool.false_ne_true, if_neg hx, has, ok_bind, hr, huri]
    rfl

end Scope

end MarkupFields
