import MarkupFields.Tree.Forest
import Mathlib.Data.List.TakeWhile

/-
  Outlines. The outline of a forest lists its labels in document order, each with its depth. Nothing of
  the forest is lost in it (`outline_injective`): what is below the first label of a level is what
  follows it in the list at greater depths. So two trees can be compared node by node, with their
  nesting, without a word on how they are put together.
-/

namespace MarkupFields.Forest

variable {α : Type}

/-- The labels in document order, each with its depth; the top level is at the given one. -/
def outline (depth : Nat) : Forest α → List (Nat × α)
  | nil => []
  | cons a below beside => (depth, a) :: (below.outline (depth + 1) ++ beside.outline depth)

/-- No label is above the top level. -/
theorem le_of_mem_outline {depth : Nat} {f : Forest α} :
    ∀ x ∈ f.outline depth, depth ≤ x.1 := by
  induction f generalizing depth with
  | nil => exact fun x hx => absurd hx List.not_mem_nil
  | cons a below beside ihb ihs =>
    rw [outline, List.forall_mem_cons, List.forall_mem_append]
    exact ⟨Nat.le_refl _, fun x hx => Nat.le_of_succ_le (ihb x hx), ihs⟩

/-- What is below the first label of a level goes as far as the depths are greater. -/
theorem takeWhile_outline (depth : Nat) (below beside : Forest α) :
    (below.outline (depth + 1) ++ beside.outline depth).takeWhile (fun x => depth < x.1) =
      below.outline (depth + 1) := by
  have hbelow : ∀ x ∈ below.outline (depth + 1), decide (depth < x.1) = true := fun x hx =>
    decide_eq_true (le_of_mem_outline x hx)
  rw [List.takeWhile_append_of_pos hbelow]
  cases beside with
  | nil => exact List.append_nil _
  | cons b below' beside' =>
    rw [outline, List.takeWhile_cons_of_neg (by simp), List.append_nil]

/-- A forest is told by its outline. -/
theorem outline_injective {depth : Nat} {f g : Forest α} (h : f.outline depth = g.outline depth) :
    f = g := by
  induction f generalizing depth g with
  | nil =>
    cases g with
    | nil => rfl
    | cons b below beside => cases h
  | cons a below beside ihb ihs =>
    cases g with
    | nil => cases h
    | cons b below' beside' =>
      obtain ⟨hroot, hrest⟩ := List.cons.inj h
      have hbelow : below.outline (depth + 1) = below'.outline (depth + 1) := by
        rw [← takeWhile_outline depth below beside, hrest, takeWhile_outline]
      rw [hbelow, List.append_cancel_left_eq] at hrest
      rw [(Prod.mk.inj hroot).2, ihb hbelow, ihs hrest]

end MarkupFields.Forest
