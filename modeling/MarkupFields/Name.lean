import MarkupFields.Text.Blank

/-
  Names of markup. A name starts with a name start character and goes on with name characters; a
  qualified name is split at its first colon into a prefix and a local name; an NCName is a name
  without a colon. Reading and writing a qualified name are inverse to each other, an empty prefix
  included.
-/

namespace MarkupFields

open Text

/-! ## Characters of names -/

/-- The ranges of characters that may start a name, the colon included. -/
def nameStartRanges : List (Nat × Nat) :=
  [(0x41, 0x5A), (0x61, 0x7A), (0x5F, 0x5F), (0x3A, 0x3A), (0xC0, 0xD6), (0xD8, 0xF6),
    (0xF8, 0x2FF), (0x370, 0x37D), (0x37F, 0x1FFF), (0x200C, 0x200D), (0x2070, 0x218F),
    (0x2C00, 0x2FEF), (0x3001, 0xD7FF), (0xF900, 0xFDCF), (0xFDF0, 0xFFFD), (0x10000, 0xEFFFF)]

/-- The ranges of characters that may go on a name but not start it. -/
def nameFurtherRanges : List (Nat × Nat) :=
  [(0x2D, 0x2D), (0x2E, 0x2E), (0x30, 0x39), (0xB7, 0xB7), (0x300, 0x36F), (0x203F, 0x2040)]

/-- A character that may start a name. -/
def isNameStart (c : Char) : Bool :=
  inRanges nameStartRanges c.toNat

/-- A character that may stand inside a name. -/
def isNameChar (c : Char) : Bool :=
  isNameStart c || inRanges nameFurtherRanges c.toNat

theorem isNameChar_of_isNameStart {c : Char} (h : isNameStart c = true) : isNameChar c = true := by
  simp [isNameChar, h]

/-- A name without a colon: not empty, rightly started and rightly gone on with. -/
def isNCNameChars : List Char → Bool
  | [] => false
  | c :: cs => c != ':' && isNameStart c && cs.all fun d => d != ':' && isNameChar d

/-- The text is a name without a colon. -/
def isNCName (s : String) : Bool :=
  isNCNameChars s.toList

/-! ## Qualified names -/

/-- A name with the prefix it was written with, if any. The prefix may be empty: a name that was
written with a leading colon. -/
structure QName where
  nsPrefix : Option String
  localName : String
  deriving DecidableEq, Repr

namespace QName

/-- The name without a prefix. -/
def plain (name : String) : QName :=
  ⟨none, name⟩

/-- The first colon ends the prefix. -/
def ofChars (cs : List Char) : QName :=
  match cs.dropWhile (· != ':') with
  | [] => ⟨none, String.ofList cs⟩
  | _ :: rest => ⟨some (String.ofList (cs.takeWhile (· != ':'))), String.ofList rest⟩

/-- The first colon ends the prefix. -/
def ofString (s : String) : QName :=
  ofChars s.toList

/-- The name as markup writes it: a prefix and its colon, even if the prefix is empty. -/
def written (q : QName) : String :=
  match q.nsPrefix with
  | some p => p ++ ":" ++ q.localName
  | none => q.localName

/-- The name as messages show it: an empty prefix is left out with its colon. -/
def shown (q : QName) : String :=
  match q.nsPrefix with
  | some p => if p = "" then q.localName else p ++ ":" ++ q.localName
  | none => q.localName

/-- Both parts of the name are NCNames. -/
def isQualified (q : QName) : Bool :=
  (q.nsPrefix.all isNCName) && isNCName q.localName

/-- Every name is written as it was read. -/
theorem written_ofChars (cs : List Char) : (ofChars cs).written = String.ofList cs := by
  have h := List.takeWhile_append_dropWhile (p := (· != ':')) (l := cs)
  unfold ofChars
  split
  · simp [written]
  · rename_i d rest hd
    have hc : d = ':' := by
      have := List.head?_dropWhile_not (· != ':') cs
      simp [hd] at this
      exact this
    subst hc
    rw [hd] at h
    apply String.toList_injective
    simp only [written, String.toList_append, String.toList_ofList]
    rw [show (":" : String).toList = [':'] from rfl]
    simpa using h

end QName

/-! ## The two reserved namespaces -/

/-- The namespace that the prefix of the language attributes always names. -/
def xmlNamespace : String := "http://www.w3.org/XML/1998/namespace"

/-- The namespace of declarations. -/
def xmlnsNamespace : String := "http://www.w3.org/2000/xmlns/"

end MarkupFields
