import MarkupFields.Markup.Options
import MarkupFields.Markup.Scan
import MarkupFields.Text.Numeral

/-
  A cursor in the bytes of a text. It counts lines and columns as it goes on, byte by byte over what is
  known to be ASCII and character by character over the rest, and it also counts the open elements and
  the references. Nothing keeps it from standing inside of a character: bytes are looked at one at a
  time, and what stopped at a byte tells that place. Every reader gives what it read with the cursor
  behind it, or the fault with the place of the cursor then.
-/

namespace MarkupFields

open Text

/-- A place in the input, with the number of open elements and of references so far. -/
structure Cursor (input : ByteArray) extends Location where
  depth : Nat := 0
  references : Nat := 0
  deriving DecidableEq, Repr

namespace Cursor

variable {input : ByteArray}

/-- The cursor at the front. -/
def start (input : ByteArray) : Cursor input :=
  { toLocation := Location.start }

/-- Stops at the cursor. -/
def fail {α : Type} (fault : Fault) (c : Cursor input) : Except ParseError α :=
  .error ⟨fault, c.toLocation⟩

/-! ## Looking -/

/-- Nothing is left. -/
def atEnd (c : Cursor input) : Bool :=
  decide (input.size ≤ c.byteOffset)

/-- The byte so many places behind the cursor. -/
def peekAt? (n : Nat) (c : Cursor input) : Option UInt8 :=
  input[c.byteOffset + n]?

/-- The byte at the cursor. -/
def peek? (c : Cursor input) : Option UInt8 :=
  c.peekAt? 0

/-- The byte at the cursor is the given ASCII character. -/
def isAt (ch : Char) (c : Cursor input) : Bool :=
  c.peek? == some ch.toUInt8

/-- The bytes begin at the offset. -/
def bytesAt (input : ByteArray) (i : Nat) : List UInt8 → Bool
  | [] => true
  | b :: bs => input[i]? == some b && bytesAt input (i + 1) bs

/-- The mark begins at the cursor. -/
def lookingAt (mark : List Char) (c : Cursor input) : Bool :=
  bytesAt input c.byteOffset (utf8Bytes mark)

/-- The characters that the bytes between two offsets are. -/
def textBetween? (input : ByteArray) (first last : Nat) : Option (List Char) :=
  (String.fromUTF8? (input.extract first last)).map String.toList

/-- The number of bytes of a character that begins with the byte. -/
def width (b : UInt8) : Nat :=
  if b < 0x80 then 1
  else if 0xF0 ≤ b then 4
  else if 0xE0 ≤ b then 3
  else 2

/-- The character at the cursor. -/
def peekChar? (c : Cursor input) : Option Char :=
  match c.peek? with
  | none => none
  | some b =>
    if input.size < c.byteOffset + width b then none
    else (textBetween? input c.byteOffset (c.byteOffset + width b)).bind List.head?

/-! ## Going on -/

/-- The cursor behind the next byte, if there is one. -/
def advanceByte (c : Cursor input) : Cursor input :=
  match c.peek? with
  | some b => { c with toLocation := c.toLocation.advanceByte b }
  | none => c

/-- The cursor so many bytes on. -/
def advance : Nat → Cursor input → Cursor input
  | 0, c => c
  | n + 1, c => advance n c.advanceByte

/-- The cursor behind the character that is at it. -/
def advanceChar (ch : Char) (c : Cursor input) : Cursor input :=
  { c with toLocation := c.toLocation.advance ch }

/-- Takes one byte. -/
def nextByte (c : Cursor input) : Except ParseError (UInt8 × Cursor input) :=
  match c.peek? with
  | none => c.fail .endOfText
  | some b => .ok (b, c.advance 1)

/-- Takes one character, a line end as a line feed. -/
def nextChar (c : Cursor input) : Except ParseError (Char × Cursor input) :=
  match c.peekChar? with
  | none => c.fail .endOfText
  | some ch =>
    let c := c.advanceChar ch
    if ch = '\r' then .ok ('\n', if c.isAt '\n' then c.advance 1 else c)
    else if Scan.isXmlChar ch then .ok (ch, c)
    else c.fail (.invalidCharacter ch)

/-! ## What is left gets less -/

/-- The number of bytes from the cursor on. -/
def left (c : Cursor input) : Nat :=
  input.size - c.byteOffset

/-- What was read leaves less than so many bytes. -/
def Leaves {α : Type} (n : Nat) (p : α → Cursor input) (x : Except ParseError α) : Prop :=
  ∀ a, x = .ok a → (p a).left < n

namespace Leaves

variable {α β : Type} {n m : Nat} {p : α → Cursor input} {q : β → Cursor input}

theorem ok {a : α} (h : (p a).left < n) : Leaves n p (.ok a) := by
  rintro _ ⟨⟩
  exact h

theorem error {e : ParseError} : Leaves n p (.error e) := nofun

theorem mono (h : m ≤ n) {x : Except ParseError α} (hx : Leaves m p x) : Leaves n p x :=
  fun a ha => Nat.lt_of_lt_of_le (hx a ha) h

theorem bind_of {x : Except ParseError α} {f : α → Except ParseError β}
    (hf : ∀ a, x = .ok a → Leaves n q (f a)) : Leaves n q (x >>= f) := by
  cases x with
  | error e => exact .error
  | ok a => exact hf a rfl

/-- What follows goes on from the cursor that was left. -/
theorem bind {x : Except ParseError α} {f : α → Except ParseError β} (hx : Leaves n p x)
    (hf : ∀ a, Leaves ((p a).left + 1) q (f a)) : Leaves n q (x >>= f) :=
  bind_of fun a ha => (hf a).mono (hx a ha)

theorem ite {t : Prop} [Decidable t] {x y : Except ParseError α} (hx : Leaves n p x)
    (hy : Leaves n p y) : Leaves n p (if t then x else y) := by
  split
  · exact hx
  · exact hy

end Leaves

theorem lt_of_peek? {c : Cursor input} {b : UInt8} (h : c.peek? = some b) :
    c.byteOffset < input.size := by
  unfold peek? peekAt? at h
  exact (getElem?_eq_some_iff.1 h).1

theorem byteOffset_advanceByte {c : Cursor input} {b : UInt8} (h : c.peek? = some b) :
    c.advanceByte.byteOffset = c.byteOffset + 1 := by
  unfold advanceByte Location.advanceByte
  rw [h]
  dsimp only
  split
  · rfl
  · split <;> rfl

theorem advanceByte_of_none {c : Cursor input} (h : c.peek? = none) : c.advanceByte = c := by
  unfold advanceByte
  rw [h]

theorem left_advanceByte_lt {c : Cursor input} {b : UInt8} (h : c.peek? = some b) :
    c.advanceByte.left < c.left := by
  have hlt := lt_of_peek? h
  unfold left
  rw [byteOffset_advanceByte h]
  omega

theorem left_advance_le (n : Nat) (c : Cursor input) : (c.advance n).left ≤ c.left := by
  induction n generalizing c with
  | zero => exact Nat.le_refl _
  | succ n ih =>
    refine Nat.le_trans (ih c.advanceByte) ?_
    cases h : c.peek? with
    | none => exact Nat.le_of_eq (congrArg left (advanceByte_of_none h))
    | some b => exact Nat.le_of_lt (left_advanceByte_lt h)

theorem left_advanceChar_lt {c : Cursor input} {ch : Char} (h : c.peekChar? = some ch) :
    (c.advanceChar ch).left < c.left := by
  have hpos := ch.utf8Size_pos
  have hoffset : (c.advanceChar ch).byteOffset = c.byteOffset + ch.utf8Size := by
    unfold advanceChar Location.advance
    dsimp only
    split <;> rfl
  cases hpeek : c.peek? with
  | none =>
    unfold peekChar? at h
    rw [hpeek] at h
    cases h
  | some b =>
    have hlt := lt_of_peek? hpeek
    unfold left
    rw [hoffset]
    omega

theorem nextByte_leaves (c : Cursor input) : Leaves c.left Prod.snd c.nextByte := by
  unfold nextByte
  split
  · exact .error
  · rename_i b h
    exact .ok (left_advanceByte_lt h)

theorem nextChar_leaves (c : Cursor input) : Leaves c.left Prod.snd c.nextChar := by
  unfold nextChar
  split
  · exact .error
  · rename_i ch h
    have hlt := left_advanceChar_lt h
    refine .ite (.ok ?_) (.ite (.ok hlt) .error)
    dsimp only
    split
    · exact Nat.lt_of_le_of_lt (left_advance_le 1 _) hlt
    · exact hlt

/-! ## Fixed text and space -/

/-- Takes one known ASCII character. -/
def expect (want : Char) (c : Cursor input) : Except ParseError (Cursor input) := do
  let (b, c) ← c.nextByte
  if b = want.toUInt8 then .ok c else c.fail (.unexpected want (Char.ofUInt8 b))

/-- Takes known ASCII characters one after the other. -/
def expectAll : List Char → Cursor input → Except ParseError (Cursor input)
  | [], c => .ok c
  | m :: ms, c => do expectAll ms (← c.expect m)

/-- The cursor behind the bytes at it that pass the test, each taken for a character. -/
def skipWhile (p : Char → Bool) (c : Cursor input) : Cursor input :=
  match _at : c.peek? with
  | some b => if p (Char.ofUInt8 b) then skipWhile p c.advanceByte else c
  | none => c
termination_by c.left
decreasing_by exact left_advanceByte_lt _at

/-- The cursor behind the space at it. -/
def skipSpace (c : Cursor input) : Cursor input :=
  c.skipWhile isMarkupSpace

/-- Passes over space and tells whether there was any. -/
def space (c : Cursor input) : Bool × Cursor input :=
  (decide (c.byteOffset < c.skipSpace.byteOffset), c.skipSpace)

/-- Passes over space, which has to be there. -/
def expectSpace (c : Cursor input) : Except ParseError (Cursor input) :=
  if c.space.1 then .ok c.space.2 else c.space.2.fail .missingSpace

/-- Takes the bytes that pass the test, as text. -/
def takeWhile (p : Char → Bool) (c : Cursor input) : List Char × Cursor input :=
  let c' := c.skipWhile p
  ((textBetween? input c.byteOffset c'.byteOffset).getD [], c')

theorem left_skipWhile_le (p : Char → Bool) (c : Cursor input) : (c.skipWhile p).left ≤ c.left := by
  fun_induction skipWhile p c with
  | case1 c b h hp ih => exact Nat.le_trans ih (Nat.le_of_lt (left_advanceByte_lt h))
  | case2 => exact Nat.le_refl _
  | case3 => exact Nat.le_refl _

theorem expect_leaves (want : Char) (c : Cursor input) : Leaves c.left id (c.expect want) :=
  (nextByte_leaves c).bind fun _ => .ite (.ok (Nat.lt_succ_self _)) .error

theorem expectAll_leaves (mark : List Char) (c : Cursor input) :
    Leaves (c.left + 1) id (c.expectAll mark) := by
  induction mark generalizing c with
  | nil => exact .ok (Nat.lt_succ_self _)
  | cons m ms ih => exact ((expect_leaves m c).bind fun c' => ih c').mono (Nat.le_succ _)

/-! ## Names -/

/-- The cursor behind the characters of a name. -/
def nameEnd (c : Cursor input) : Cursor input :=
  match _at : c.peekChar? with
  | some ch => if isNameChar ch then nameEnd (c.advanceChar ch) else c
  | none => c
termination_by c.left
decreasing_by exact left_advanceChar_lt _at

/-- Takes a name, colons included, of at most the given number of bytes. -/
def name (limit : Nat) (c : Cursor input) : Except ParseError (List Char × Cursor input) :=
  match c.peekChar? with
  | none => c.fail .missingName
  | some ch =>
    if isNameStart ch then
      let c' := (c.advanceChar ch).nameEnd
      let length := c'.byteOffset - c.byteOffset
      if length > limit then c'.fail (.nameTooLong length limit)
      else
        match textBetween? input c.byteOffset c'.byteOffset with
        | some word => .ok (word, c')
        | none => c'.fail .brokenName
    else c.fail (.badNameStart ch)

theorem left_nameEnd_le (c : Cursor input) : c.nameEnd.left ≤ c.left := by
  fun_induction nameEnd c with
  | case1 c ch h hname ih => exact Nat.le_trans ih (Nat.le_of_lt (left_advanceChar_lt h))
  | case2 => exact Nat.le_refl _
  | case3 => exact Nat.le_refl _

theorem name_leaves (limit : Nat) (c : Cursor input) : Leaves c.left Prod.snd (c.name limit) := by
  unfold name
  split
  · exact .error
  · rename_i ch h
    refine .ite (.ite .error ?_) .error
    split
    · exact .ok (Nat.lt_of_le_of_lt (left_nameEnd_le _) (left_advanceChar_lt h))
    · exact .error

/-! ## Runs of characters up to an end -/

/-- What is at the cursor: the end of a run, so many bytes wide, something that may not stand in the
run, or one more character of it. -/
inductive Ahead where
  | ends (width : Nat)
  | refused (fault : Fault)
  | further
  deriving DecidableEq, Repr

/-- Takes characters until the end of the run. -/
def run (ahead : Cursor input → Ahead) (c : Cursor input) :
    Except ParseError (List Char × Cursor input) :=
  match ahead c with
  | .ends width => .ok ([], c.advance width)
  | .refused fault => c.fail fault
  | .further =>
    match _taken : c.nextChar with
    | .error e => .error e
    | .ok (ch, c') => do
      let (more, c'') ← run ahead c'
      .ok (ch :: more, c'')
termination_by c.left
decreasing_by exact nextChar_leaves c _ _taken

/-- A run that goes on to a mark. -/
def upTo (mark : List Char) (unfinished : Fault) (c : Cursor input) : Ahead :=
  if c.atEnd then .refused unfinished
  else if c.lookingAt mark then .ends mark.length
  else .further

/-- A run that goes on to a quote. -/
def upToQuote (quote : UInt8) (c : Cursor input) : Ahead :=
  if c.peek? = some quote then .ends 1 else .further

/-- Takes a value between quotes of one kind; what is inside is taken as it stands. -/
def quoted (c : Cursor input) : Except ParseError (List Char × Cursor input) := do
  let (quote, c) ← c.nextByte
  if quote = '"'.toUInt8 ∨ quote = '\''.toUInt8 then c.run (upToQuote quote)
  else c.fail .unquotedValue

/-- The inside of a comment: two hyphens may only stand before its end. -/
def commentAhead (c : Cursor input) : Ahead :=
  if c.atEnd then .refused (.endInside .comment)
  else if c.lookingAt Scan.commentClose then .ends Scan.commentClose.length
  else if c.lookingAt ['-', '-'] then .refused .doubleHyphen
  else .further

/-- Takes a comment and gives its inside. -/
def comment (c : Cursor input) : Except ParseError (List Char × Cursor input) := do
  let c ← c.expectAll Scan.commentOpen
  c.run commentAhead

/-- Takes a CDATA section and gives its inside. -/
def cdata (c : Cursor input) : Except ParseError (List Char × Cursor input) := do
  let c ← c.expectAll Scan.cdataOpen
  c.run (upTo Scan.cdataClose (.endInside .cdata))

/-- Takes a processing instruction and gives its target and its data. Data that is empty is no data. -/
def instruction (limit : Nat) (c : Cursor input) :
    Except ParseError ((List Char × Option (List Char)) × Cursor input) := do
  let c ← c.expectAll Scan.instructionOpen
  let (target, c) ← c.name limit
  if target.map Char.toLower = ['x', 'm', 'l'] then c.fail .reservedTarget
  else if c.space.1 then
    let (data, c) ← c.space.2.run (upTo Scan.instructionClose (.endInside .instruction))
    .ok ((target, if data.isEmpty then none else some data), c)
  else
    let c ← c.space.2.expectAll Scan.instructionClose
    .ok ((target, none), c)

theorem run_leaves (ahead : Cursor input → Ahead) (c : Cursor input) :
    Leaves (c.left + 1) Prod.snd (c.run ahead) := by
  fun_induction run ahead c with
  | case1 c width h => exact .ok (Nat.lt_succ_of_le (left_advance_le width c))
  | case2 => exact .error
  | case3 => exact .error
  | case4 c h ch c' htaken ih =>
    have hlt := nextChar_leaves c _ htaken
    refine .mono (Nat.le_succ_of_le hlt) ?_
    exact ih.bind fun _ => .ok (Nat.lt_succ_self _)

theorem quoted_leaves (c : Cursor input) : Leaves c.left Prod.snd c.quoted :=
  (nextByte_leaves c).bind fun p => .ite (run_leaves _ p.2) .error

theorem comment_leaves (c : Cursor input) : Leaves c.left Prod.snd c.comment := by
  refine .bind (p := id) ?_ fun c' => run_leaves _ c'
  exact (expect_leaves '<' c).bind fun c' => expectAll_leaves _ c'

theorem cdata_leaves (c : Cursor input) : Leaves c.left Prod.snd c.cdata := by
  refine .bind (p := id) ?_ fun c' => run_leaves _ c'
  exact (expect_leaves '<' c).bind fun c' => expectAll_leaves _ c'

theorem instruction_leaves (limit : Nat) (c : Cursor input) :
    Leaves c.left Prod.snd (c.instruction limit) := by
  refine .bind (p := id) ((expect_leaves '<' c).bind fun c' => expectAll_leaves ['?'] c') ?_
  intro c'
  refine ((name_leaves limit c').mono (Nat.le_succ _)).bind fun p => ?_
  have hspace : p.2.space.2.left + 1 ≤ p.2.left + 1 := Nat.succ_le_succ (left_skipWhile_le _ p.2)
  refine .ite .error (.ite ?_ ?_)
  · exact ((run_leaves _ _).mono hspace).bind fun q => .ok (Nat.lt_succ_self _)
  · exact ((expectAll_leaves _ _).mono hspace).bind fun q => .ok (Nat.lt_succ_self _)

end Cursor

end MarkupFields
