import MarkupFields.Markup.Fault
import MarkupFields.Name
import MarkupFields.Text.Mark

/-
  The smallest readers of markup, on lists of characters: the form in which reading is reasoned about.
  Each gives what it read with the rest, or stops. Line ends are made equal as they are read: a carriage
  return before a line feed counts for nothing, any other one for a line feed. What is read never grows:
  the rest of a successful reading is a suffix of what was there. A text is read with a cursor
  (`Markup.parse`), which comes to the same in every part.
-/

namespace MarkupFields.Scan

open Text

/-! ## Characters -/

/-- The ranges of characters that may stand in a document. -/
def characterRanges : List (Nat × Nat) :=
  [(0x09, 0x0A), (0x0D, 0x0D), (0x20, 0xD7FF), (0xE000, 0xFFFD), (0x10000, 0x10FFFF)]

/-- The code point of a character that may stand in a document. -/
def isXmlCode (n : Nat) : Bool :=
  inRanges characterRanges n

/-- A character that may stand in a document. -/
def isXmlChar (c : Char) : Bool :=
  isXmlCode c.toNat

/-- What one character contributes to a text, given the characters after it. -/
def contribution (c : Char) (next : List Char) : Except Halt (List Char) :=
  if c = '\r' then .ok (if next.head? = some '\n' then [] else ['\n'])
  else if isXmlChar c then .ok [c]
  else haltAt (.invalidCharacter c) next

/-- The character whose number is the first byte of the given one. -/
def leadByte (c : Char) : Char :=
  let n := c.toNat
  if n < 0x80 then c
  else if n < 0x800 then Char.ofNat (0xC0 + n / 0x40)
  else if n < 0x10000 then Char.ofNat (0xE0 + n / 0x1000)
  else Char.ofNat (0xF0 + n / 0x40000)

/-! ## Fixed text and space -/

/-- Takes one known character. -/
def expect (want : Char) : List Char → Except Halt (List Char)
  | [] => haltAt .endOfText []
  | c :: cs =>
    if c = want then .ok cs else haltInside (.unexpected want (leadByte c)) (c :: cs)

/-- Takes known characters one after the other. -/
def expectAll : List Char → List Char → Except Halt (List Char)
  | [], cs => .ok cs
  | m :: ms, cs => do expectAll ms (← expect m cs)

/-- What follows the space at the front. -/
def skipSpace (cs : List Char) : List Char :=
  cs.dropWhile isMarkupSpace

/-- There is space at the front. -/
def startsWithSpace (cs : List Char) : Bool :=
  cs.head?.any isMarkupSpace

/-! ## Names -/

/-- Takes a name, colons included, of at most the given number of bytes. -/
def name (limit : Nat) : List Char → Except Halt (List Char × List Char)
  | [] => haltAt .missingName []
  | c :: cs =>
    if isNameStart c then
      let word := c :: cs.takeWhile isNameChar
      let rest := cs.dropWhile isNameChar
      if utf8Length word > limit then haltAt (.nameTooLong (utf8Length word) limit) rest
      else .ok (word, rest)
    else haltAt (.badNameStart c) (c :: cs)

/-! ## Runs of characters up to an end -/

/-- What stands at the front of the characters: the end of a run, with the rest after it, something
that may not stand in the run, or one more character of it. -/
inductive Front where
  | ends (rest : List Char)
  | refused (fault : Fault)
  | further
  deriving DecidableEq, Repr

/-- Takes characters until the end of the run. -/
def run (front : List Char → Front) : List Char → Except Halt (List Char × List Char)
  | [] =>
    match front [] with
    | .ends rest => .ok ([], rest)
    | .refused fault => haltAt fault []
    | .further => haltAt .endOfText []
  | c :: cs =>
    match front (c :: cs) with
    | .ends rest => .ok ([], rest)
    | .refused fault => haltAt fault (c :: cs)
    | .further => do
      let first ← contribution c cs
      let (more, rest) ← run front cs
      .ok (first ++ more, rest)

/-- A run that goes on to a mark. -/
def upTo (mark : List Char) (unfinished : Fault) (cs : List Char) : Front :=
  match after? mark cs with
  | some rest => .ends rest
  | none => if cs.isEmpty then .refused unfinished else .further

/-- Takes a value between quotes of one kind; what is inside is taken as it stands. -/
def quoted : List Char → Except Halt (List Char × List Char)
  | [] => haltAt .endOfText []
  | q :: cs =>
    if q = '"' ∨ q = '\'' then run (upTo [q] .endOfText) cs
    else haltInside .unquotedValue (q :: cs)

/-! ## Comments, CDATA sections, processing instructions -/

def commentOpen : List Char := ['<', '!', '-', '-']
def commentClose : List Char := ['-', '-', '>']
def cdataOpen : List Char := ['<', '!', '[', 'C', 'D', 'A', 'T', 'A', '[']
def cdataClose : List Char := [']', ']', '>']
def instructionOpen : List Char := ['<', '?']
def instructionClose : List Char := ['?', '>']
def doctypeOpen : List Char := ['<', '!', 'D', 'O', 'C', 'T', 'Y', 'P', 'E']

/-- The inside of a comment: two hyphens may only stand before its end. -/
def commentFront (cs : List Char) : Front :=
  match after? commentClose cs with
  | some rest => .ends rest
  | none =>
    if cs.isEmpty then .refused (.endInside .comment)
    else if (after? ['-', '-'] cs).isSome then .refused .doubleHyphen
    else .further

/-- Takes the inside and the end of a comment. -/
def comment : List Char → Except Halt (List Char × List Char) :=
  run commentFront

/-- Takes the inside and the end of a CDATA section. -/
def cdata : List Char → Except Halt (List Char × List Char) :=
  run (upTo cdataClose (.endInside .cdata))

/-- Takes the target, the data and the end of a processing instruction. Data that is empty is no
data. -/
def instruction (limit : Nat) (cs : List Char) :
    Except Halt ((List Char × Option (List Char)) × List Char) := do
  let (target, cs) ← name limit cs
  if target.map Char.toLower = ['x', 'm', 'l'] then haltAt .reservedTarget cs
  else if startsWithSpace cs then
    let (data, cs) ← run (upTo instructionClose (.endInside .instruction)) (skipSpace cs)
    .ok ((target, if data.isEmpty then none else some data), cs)
  else
    let cs ← expectAll instructionClose cs
    .ok ((target, none), cs)

/-! ## What is taken stood at the front -/

theorem expect_eq_ok_iff {want : Char} {cs rest : List Char} :
    expect want cs = .ok rest ↔ cs = want :: rest := by
  cases cs with
  | nil => simp [expect, haltAt]
  | cons c cs =>
    by_cases h : c = want
    · simp [expect, h]
    · simp [expect, h, haltInside]

theorem expectAll_eq_ok_iff {mark cs rest : List Char} :
    expectAll mark cs = .ok rest ↔ cs = mark ++ rest := by
  induction mark generalizing cs with
  | nil => simp [expectAll]
  | cons m ms ih =>
    simp only [expectAll, bind, Except.bind]
    cases h : expect m cs with
    | error e =>
      simp only [reduceCtorEq, false_iff]
      rintro rfl
      simp [expect] at h
    | ok r =>
      rw [expect_eq_ok_iff] at h
      subst h
      simp [ih]

/-- A name is what was taken from the front, and it is not empty. -/
theorem name_eq_ok {limit : Nat} {cs word rest : List Char}
    (h : name limit cs = .ok (word, rest)) : cs = word ++ rest ∧ word ≠ [] := by
  cases cs with
  | nil => simp [name, haltAt] at h
  | cons c cs =>
    simp only [name] at h
    split at h
    · split at h
      · simp [haltAt] at h
      · simp only [Except.ok.injEq, Prod.mk.injEq] at h
        obtain ⟨rfl, rfl⟩ := h
        simp [List.takeWhile_append_dropWhile]
    · simp [haltAt] at h

/-- What a test for the end of a run leaves is at the end of what it was given. -/
def LeavesSuffix (front : List Char → Front) : Prop :=
  ∀ cs rest, front cs = .ends rest → rest <:+ cs

theorem run_suffix {front : List Char → Front} (hf : LeavesSuffix front) {cs v rest : List Char}
    (h : run front cs = .ok (v, rest)) : rest <:+ cs := by
  induction cs generalizing v rest with
  | nil =>
    simp only [run] at h
    split at h
    · rename_i r hr
      simp only [Except.ok.injEq, Prod.mk.injEq] at h
      exact h.2 ▸ hf _ _ hr
    · simp [haltAt] at h
    · simp [haltAt] at h
  | cons c cs ih =>
    simp only [run] at h
    split at h
    · rename_i r hr
      simp only [Except.ok.injEq, Prod.mk.injEq] at h
      exact h.2 ▸ hf _ _ hr
    · simp [haltAt] at h
    · simp only [bind, Except.bind] at h
      split at h
      · simp at h
      · split at h
        · simp at h
        · rename_i p hp
          simp only [Except.ok.injEq, Prod.mk.injEq] at h
          exact (h.2 ▸ ih hp).trans (List.suffix_cons _ _)

theorem leavesSuffix_upTo (mark : List Char) (fault : Fault) : LeavesSuffix (upTo mark fault) := by
  intro cs rest h
  simp only [upTo] at h
  split at h
  · rename_i r hr
    rw [after?_eq_some_iff] at hr
    simp only [Front.ends.injEq] at h
    subst h hr
    exact List.suffix_append _ _
  · split at h <;> simp at h

theorem leavesSuffix_commentFront : LeavesSuffix commentFront := by
  intro cs rest h
  simp only [commentFront] at h
  split at h
  · rename_i r hr
    rw [after?_eq_some_iff] at hr
    simp only [Front.ends.injEq] at h
    subst h hr
    exact List.suffix_append _ _
  · split at h
    · simp at h
    · split at h <;> simp at h

theorem comment_suffix {cs v rest : List Char} (h : comment cs = .ok (v, rest)) : rest <:+ cs :=
  run_suffix leavesSuffix_commentFront h

theorem cdata_suffix {cs v rest : List Char} (h : cdata cs = .ok (v, rest)) : rest <:+ cs :=
  run_suffix (leavesSuffix_upTo _ _) h

/-- A quoted value takes at least its opening quote. -/
theorem quoted_lt {cs v rest : List Char} (h : quoted cs = .ok (v, rest)) :
    rest.length < cs.length := by
  cases cs with
  | nil => simp [quoted, haltAt] at h
  | cons q cs =>
    simp only [quoted] at h
    split at h
    · have := (run_suffix (leavesSuffix_upTo _ _) h).length_le
      simp only [List.length_cons]
      omega
    · simp [haltInside] at h

theorem skipSpace_suffix (cs : List Char) : skipSpace cs <:+ cs :=
  List.dropWhile_suffix _

theorem instruction_suffix {limit : Nat} {cs rest : List Char} {v : List Char × Option (List Char)}
    (h : instruction limit cs = .ok (v, rest)) : rest <:+ cs := by
  simp only [instruction, bind, Except.bind] at h
  split at h
  · simp at h
  · rename_i p hp
    have hn := (name_eq_ok hp).1
    have hs : p.2 <:+ cs := hn ▸ List.suffix_append _ _
    split at h
    · simp [haltAt] at h
    · split at h
      · split at h
        · simp at h
        · rename_i q hq
          simp only [Except.ok.injEq, Prod.mk.injEq] at h
          exact h.2 ▸ ((run_suffix (leavesSuffix_upTo _ _) hq).trans (skipSpace_suffix _)).trans hs
      · split at h
        · simp at h
        · rename_i r hr
          rw [expectAll_eq_ok_iff] at hr
          simp only [Except.ok.injEq, Prod.mk.injEq] at h
          exact h.2 ▸ (hr ▸ List.suffix_append _ _ : r <:+ p.2).trans hs

end MarkupFields.Scan
