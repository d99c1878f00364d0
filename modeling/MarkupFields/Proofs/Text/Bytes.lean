import MarkupFields.Text.Blank

/-
  Bytes of characters in UTF-8. The bytes of a text add up over its parts, a string has as many as its
  characters, and between two characters a string can be cut: so an offset in bytes that is the length
  of the beginning of a string is one of its positions (`isValid_utf8Length`).
-/

namespace MarkupFields.Text

/-- The bytes that were counted before are added to those of the text. -/
theorem foldl_utf8Size (cs : List Char) (n : Nat) :
    cs.foldl (fun n c => n + c.utf8Size) n = n + utf8Length cs := by
  unfold utf8Length
  induction cs generalizing n with
  | nil => rfl
  | cons c cs ih =>
    rw [List.foldl_cons, List.foldl_cons, ih, ih (0 + c.utf8Size), Nat.zero_add, Nat.add_assoc]

theorem utf8Length_cons (c : Char) (cs : List Char) :
    utf8Length (c :: cs) = c.utf8Size + utf8Length cs := by
  rw [← foldl_utf8Size, ← Nat.zero_add c.utf8Size]
  rfl

theorem utf8Length_append (cs ds : List Char) :
    utf8Length (cs ++ ds) = utf8Length cs + utf8Length ds := by
  rw [← foldl_utf8Size ds]
  exact List.foldl_append

theorem utf8Length_mono {cs ds : List Char} (h : cs <+: ds) :
    utf8Length cs ≤ utf8Length ds := by
  obtain ⟨rest, rfl⟩ := h
  rw [utf8Length_append]
  exact Nat.le_add_right _ _

/-- No text has fewer bytes than characters. -/
theorem length_le_utf8Length (cs : List Char) : cs.length ≤ utf8Length cs := by
  induction cs with
  | nil => exact Nat.le_refl 0
  | cons c cs ih =>
    have hpos := c.utf8Size_pos
    rw [List.length_cons, utf8Length_cons]
    omega

/-- The bytes of a string are those of its characters. -/
theorem utf8ByteSize_ofList (cs : List Char) : (String.ofList cs).utf8ByteSize = utf8Length cs := by
  induction cs with
  | nil => rfl
  | cons c cs ih =>
    rw [← List.singleton_append, String.ofList_append, String.utf8ByteSize_append, ih,
      ← String.singleton_eq_ofList, String.utf8ByteSize_singleton, List.singleton_append,
      utf8Length_cons]

theorem utf8Length_toList (s : String) : utf8Length s.toList = s.utf8ByteSize := by
  rw [← utf8ByteSize_ofList, String.ofList_toList]

/-- Between the characters of a string its bytes can be cut. -/
theorem isValid_utf8Length {s : String} {cs : List Char} (h : cs <+: s.toList) :
    String.Pos.Raw.IsValid s ⟨utf8Length cs⟩ := by
  obtain ⟨rest, hs⟩ := h
  rw [String.Pos.Raw.isValid_iff_exists_append]
  refine ⟨String.ofList cs, String.ofList rest, ?_, ?_⟩
  · rw [← String.ofList_append, hs, String.ofList_toList]
  · rw [← utf8ByteSize_ofList]
    rfl

end MarkupFields.Text
