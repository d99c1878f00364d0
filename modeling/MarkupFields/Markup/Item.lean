import MarkupFields.Markup.Scan
import MarkupFields.Tree.Node

/-
  What can begin at a place of a document. Each kind of markup is known by the mark that opens it;
  all else is text. The marks are told apart by trying the longer ones before those that begin them.
-/

namespace MarkupFields.Scan

open Text

/-- What begins at a place of a document. -/
inductive Item where
  | endTag
  | cdata
  | comment
  | instruction
  | startTag
  | text
  | nothing
  deriving DecidableEq, Repr

namespace Item

/-- The mark that opens the item. -/
def mark : Item → List Char
  | endTag => ['<', '/']
  | cdata => cdataOpen
  | comment => commentOpen
  | instruction => instructionOpen
  | startTag => ['<']
  | text => []
  | nothing => []

/-- The items that a mark opens, in the order in which they are tried. -/
def marked : List Item :=
  [endTag, cdata, comment, instruction, startTag]

/-- The item is opened by a mark. -/
def isMarked (i : Item) : Bool :=
  !i.mark.isEmpty

end Item

/-- What begins at the front of the characters, with what follows its mark. -/
def itemAt (cs : List Char) : Item × List Char :=
  match Item.marked.findSome? fun i => (after? i.mark cs).map fun rest => (i, rest) with
  | some found => found
  | none => (if cs.isEmpty then .nothing else .text, cs)

/-- The mark of an item and what follows it are the characters. -/
theorem itemAt_eq {cs rest : List Char} {i : Item} (h : itemAt cs = (i, rest)) :
    cs = i.mark ++ rest := by
  simp only [itemAt] at h
  split at h
  · rename_i found hf
    obtain ⟨j, -, hj⟩ := List.exists_of_findSome?_eq_some hf
    obtain ⟨r, hr, he⟩ := Option.map_eq_some_iff.1 hj
    rw [h, Prod.mk.injEq] at he
    rw [← he.1, ← he.2]
    exact after?_eq_some_iff.1 hr
  · split at h <;> simp only [Prod.mk.injEq] at h <;> obtain ⟨rfl, rfl⟩ := h <;> rfl

/-- The mark of an item is not empty, so what follows it is shorter. -/
theorem itemAt_lt {cs rest : List Char} {i : Item} (h : itemAt cs = (i, rest))
    (hi : i.isMarked = true) : rest.length < cs.length := by
  have he := itemAt_eq h
  have : 0 < i.mark.length := by cases i <;> simp_all [Item.isMarked, Item.mark, cdataOpen,
    commentOpen, instructionOpen]
  rw [he, List.length_append]
  omega

/-- Text begins with a character that does not open markup. -/
theorem itemAt_text {cs rest : List Char} (h : itemAt cs = (.text, rest)) :
    ∃ c next, cs = c :: next ∧ c ≠ '<' := by
  simp only [itemAt] at h
  split at h
  · rename_i found hf
    obtain ⟨j, hj, he⟩ := List.exists_of_findSome?_eq_some hf
    obtain ⟨r, -, hr⟩ := Option.map_eq_some_iff.1 he
    rw [h, Prod.mk.injEq] at hr
    rw [hr.1] at hj
    simp [Item.marked] at hj
  · rename_i hf
    cases cs with
    | nil => simp at h
    | cons c next =>
      refine ⟨c, next, rfl, ?_⟩
      rintro rfl
      rw [List.findSome?_eq_none_iff] at hf
      have := hf .startTag (by simp [Item.marked])
      simp [Item.mark, after?] at this

/-- The content of a comment. -/
def commentContent (cs : List Char) : Content :=
  .comment (String.ofList cs)

/-- The content of a processing instruction. -/
def instructionContent (p : List Char × Option (List Char)) : Content :=
  .instruction (String.ofList p.1) (p.2.map String.ofList)

end MarkupFields.Scan
