/-
  Spaces and trimming. Three classes of space are kept apart: the blanks of running text (the
  Unicode property White_Space), the four spaces that separate markup, and the five ASCII spaces
  around a written number. Each is a test on characters; trimming takes the test.
-/

namespace MarkupFields.Text

/-- A code point lies in one of the closed ranges of a table. -/
def inRanges (table : List (Nat × Nat)) (n : Nat) : Bool :=
  table.any fun r => decide (r.1 ≤ n) && decide (n ≤ r.2)

/-! ## The three classes -/

/-- The ranges of the Unicode property White_Space. -/
def whiteSpace : List (Nat × Nat) :=
  [(0x09, 0x0D), (0x20, 0x20), (0x85, 0x85), (0xA0, 0xA0), (0x1680, 0x1680), (0x2000, 0x200A),
    (0x2028, 0x2029), (0x202F, 0x202F), (0x205F, 0x205F), (0x3000, 0x3000)]

/-- A blank of running text. -/
def isBlank (c : Char) : Bool :=
  inRanges whiteSpace c.toNat

/-- A space between parts of markup: space, tab, carriage return or line feed. -/
def isMarkupSpace (c : Char) : Bool :=
  c == ' ' || c == '\t' || c == '\r' || c == '\n'

/-- A space around a written number: space, tab, line feed, form feed or carriage return. -/
def isAsciiSpace (c : Char) : Bool :=
  c == ' ' || c == '\t' || c == '\n' || c == '\x0c' || c == '\r'

/-! ## Trimming -/

/-- The characters without those at either end that pass the test. -/
def trim (p : Char → Bool) (cs : List Char) : List Char :=
  ((cs.dropWhile p).reverse.dropWhile p).reverse

@[simp] theorem trim_nil (p : Char → Bool) : trim p [] = [] := rfl

/-- Text without a character other than blanks. -/
def allBlank (cs : List Char) : Bool :=
  cs.all isBlank

@[simp] theorem allBlank_nil : allBlank [] = true := rfl

/-! ## ASCII letters -/

/-- Case differences of ASCII letters do not count. -/
def sameIgnoringCase (a b : String) : Bool :=
  a.toList.map Char.toLower == b.toList.map Char.toLower

/-! ## UTF-8 -/

/-- The bytes of the characters in UTF-8. -/
def utf8Bytes (cs : List Char) : List UInt8 :=
  cs.flatMap String.utf8EncodeChar

/-- The number of bytes that the characters take in UTF-8. -/
def utf8Length (cs : List Char) : Nat :=
  cs.foldl (fun n c => n + c.utf8Size) 0

end MarkupFields.Text
