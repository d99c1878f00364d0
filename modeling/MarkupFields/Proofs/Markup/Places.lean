import Mathlib.Data.List.DropRight
import MarkupFields.Proofs.Markup.Elements

/-
  The places that a cursor tells. A cursor that has gone on byte by byte and character by character from
  the front of a text has the line and the column that its bytes give: one more than the line feeds
  before it, and one more than the characters that start in its line before it (`Location.Marks`). Every
  production takes a cursor that stands between two characters to one that does so again
  (`Cursor.Placed`), or stops at a place of the text, which may be inside of a character. Of the smaller
  readers this is known because they follow readers of lists; those of elements are put together from
  them (`Kept.bind`), whatever elements the cursor has counted.
-/

namespace MarkupFields

open Text Scan

namespace Location

/-! ## Counting bytes -/

theorem forall_utf8Bytes_lt (cs : List Char) : ∀ b ∈ utf8Bytes cs, b < 0xF8 := by
  induction cs with
  | nil => exact nofun
  | cons c cs ih =>
    rw [utf8Bytes_cons]
    exact List.forall_mem_append.2 ⟨fun b => lt_of_mem_utf8EncodeChar, ih⟩

/-- The bytes of the last line: those behind the last line feed. -/
def lastLine (bs : List UInt8) : List UInt8 :=
  bs.rtakeWhile (· != 10)

theorem foldl_advanceByte {bs : List UInt8} (h : ∀ b ∈ bs, b < 0xF8) :
    bs.foldl advanceByte start =
      ⟨1 + bs.count 10, 1 + (lastLine bs).countP (·.IsUTF8FirstByte), bs.length⟩ := by
  induction bs using List.reverseRecOn with
  | nil => rfl
  | append_singleton bs b ih =>
    rw [List.forall_mem_append] at h
    have hmask := isUTF8FirstByte_iff (h.2 b List.mem_cons_self)
    rw [List.foldl_append, ih h.1, List.foldl_cons, List.foldl_nil, advanceByte, List.length_append,
      List.count_append, List.length_singleton]
    by_cases hb : b = 10
    · have hlast : lastLine (bs ++ [b]) = [] := List.rtakeWhile_concat_neg _ bs b (by simp [hb])
      rw [if_pos hb, hlast, hb]
      rfl
    · have hlast : lastLine (bs ++ [b]) = lastLine bs ++ [b] :=
        List.rtakeWhile_concat_pos _ bs b (by simp [hb])
      have hcount : List.count 10 [b] = 0 := List.count_eq_zero.2 (by simpa using Ne.symm hb)
      rw [if_neg hb, hlast, hcount, List.countP_append]
      by_cases hfirst : b.IsUTF8FirstByte
      · rw [if_pos (hmask.1 hfirst), List.countP_singleton, if_pos (decide_eq_true hfirst)]
        rfl
      · rw [if_neg (mt hmask.2 hfirst), List.countP_singleton, if_neg (by simpa using hfirst)]
        rfl

/-! ## Where a reader stopped -/

/-- The place at which a reader stopped is found from bytes at the front of the text. -/
theorem exists_front {text : List Char} {h : Halt} (hw : h.Within text) :
    ∃ front, front <+: utf8Bytes text ∧ h.location text = front.foldl advanceByte start := by
  obtain ⟨pre, hpre⟩ := hw.suffix
  have htake : text.take (text.length - h.rest.length) = pre := by
    rw [← hpre, List.length_append, Nat.add_sub_cancel_right, List.take_left]
  have hbytes : utf8Bytes text = utf8Bytes pre ++ utf8Bytes h.rest := by
    rw [← hpre, utf8Bytes_append]
  obtain ⟨fault, rest, insideNext⟩ := h
  unfold Halt.location
  dsimp only at htake hbytes ⊢
  rw [htake, hbytes]
  cases insideNext with
  | false => exact ⟨utf8Bytes pre, List.prefix_append _ _, after_eq pre⟩
  | true =>
    cases rest with
    | nil => exact absurd rfl (hw.inside rfl)
    | cons c rest =>
      obtain ⟨b, more, hc, hb, -⟩ := exists_utf8EncodeChar c
      refine ⟨utf8Bytes pre ++ [b], ⟨more ++ utf8Bytes rest, ?_⟩, ?_⟩
      · rw [utf8Bytes_cons, hc]
        simp
      · rw [List.foldl_append, ← after_eq]
        exact (advanceByte_first hc hb (after pre)).symm

/-! ## Places of a text -/

/-- The bytes before an offset. -/
def bytesBefore (text : String) (n : Nat) : List UInt8 :=
  text.toUTF8.data.toList.take n

/-- The offset at which the line of an offset begins: behind the last line feed before it. -/
def lineStart (text : String) (n : Nat) : Nat :=
  n - (lastLine (bytesBefore text n)).length

/-- How many characters start from one offset on and before another one. -/
def startsIn (text : String) (first last : Nat) : Nat :=
  (List.range' first (last - first)).countP fun i => String.Pos.Raw.isValid text ⟨i⟩

/-- The place is one of the text: its line is counted by line feeds, its column by the characters
that start in that line, either before its offset. -/
structure Marks (l : Location) (text : String) : Prop where
  within : l.byteOffset ≤ text.utf8ByteSize
  line : l.line = 1 + (bytesBefore text l.byteOffset).count 10
  column : l.column = 1 + startsIn text (lineStart text l.byteOffset) l.byteOffset

theorem countP_range' {α : Type} {p : α → Bool} {q : Nat → Bool} (l : List α) (first : Nat)
    (h : ∀ i a, l[i]? = some a → q (first + i) = p a) :
    (List.range' first l.length).countP q = l.countP p := by
  induction l generalizing first with
  | nil => rfl
  | cons a l ih =>
    have hfirst : q first = p a := h 0 a rfl
    rw [List.length_cons, List.range'_succ, List.countP_cons, List.countP_cons, hfirst,
      ih (first + 1) fun i b hb => ?_]
    rw [Nat.add_assoc, Nat.add_comm 1 i]
    exact h (i + 1) b hb

theorem length_toUTF8 (text : String) :
    text.toUTF8.data.toList.length = text.utf8ByteSize := by
  rw [String.toUTF8_eq_toByteArray, Array.length_toList]
  rfl

/-- A character starts at the offsets of first bytes. -/
theorem isValid_eq_decide {text : String} {i : Nat} {b : UInt8}
    (hb : text.toUTF8.data.toList[i]? = some b) :
    String.Pos.Raw.isValid text ⟨i⟩ = decide b.IsUTF8FirstByte := by
  obtain ⟨hi, hbyte⟩ := List.getElem?_eq_some_iff.1 hb
  have hsize : i < text.utf8ByteSize := by rwa [length_toUTF8] at hi
  have hlt : (⟨i⟩ : String.Pos.Raw) < text.rawEndPos := hsize
  have hget : text.getUTF8Byte ⟨i⟩ hlt = b := by
    rw [← hbyte, Array.getElem_toList]
    rfl
  rw [Bool.eq_iff_iff, String.Pos.Raw.isValid_eq_true_iff, decide_eq_true_iff,
    String.Pos.Raw.isValid_iff_isUTF8FirstByte, ← hget]
  refine ⟨fun h => ?_, fun h => .inr ⟨hlt, h⟩⟩
  rcases h with h | ⟨_, h⟩
  · exact absurd (congrArg String.Pos.Raw.byteIdx h) (Nat.ne_of_lt hsize)
  · exact h

theorem startsIn_lineStart (text : String) {n : Nat} (hn : n ≤ text.toUTF8.data.toList.length) :
    startsIn text (lineStart text n) n =
      (lastLine (bytesBefore text n)).countP (·.IsUTF8FirstByte) := by
  have hlength : (bytesBefore text n).length = n := List.length_take_of_le hn
  obtain ⟨earlier, hsplit⟩ : lastLine (bytesBefore text n) <:+ bytesBefore text n :=
    List.rtakeWhile_suffix _ _
  have hstart : lineStart text n = earlier.length := by
    have hsum := congrArg List.length hsplit
    rw [List.length_append, hlength] at hsum
    unfold lineStart
    omega
  have hrest : n - lineStart text n = (lastLine (bytesBefore text n)).length := by
    have hsum := congrArg List.length hsplit
    rw [List.length_append, hlength] at hsum
    omega
  unfold startsIn
  rw [hrest, hstart]
  refine countP_range' _ _ fun i b hb => isValid_eq_decide ?_
  have hbefore : (bytesBefore text n)[earlier.length + i]? = some b := by
    rw [← hsplit, List.getElem?_append_right (Nat.le_add_right _ _), Nat.add_sub_cancel_left]
    exact hb
  obtain ⟨hlt, -⟩ := List.getElem?_eq_some_iff.1 hbefore
  rw [hlength] at hlt
  rwa [bytesBefore, List.getElem?_take_of_lt hlt] at hbefore

/-- Where a reader of a text stopped is a place of the text. -/
theorem marks_of_within {text : String} {h : Halt} (hw : h.Within text.toList) :
    (h.location text.toList).Marks text := by
  obtain ⟨front, hfront, hlocation⟩ := exists_front hw
  have hbytes : ∀ b ∈ front, b < 0xF8 := fun b hb =>
    forall_utf8Bytes_lt text.toList b (hfront.subset hb)
  rw [foldl_advanceByte hbytes] at hlocation
  have hbefore : bytesBefore text front.length = front := by
    unfold bytesBefore
    rw [toUTF8_data]
    exact (List.prefix_iff_eq_take.1 hfront).symm
  have hlen : front.length ≤ text.toUTF8.data.toList.length := by
    rw [toUTF8_data]
    exact hfront.length_le
  rw [hlocation]
  refine ⟨?_, ?_, ?_⟩
  · exact hlen.trans_eq (length_toUTF8 text)
  · rw [hbefore]
  · rw [startsIn_lineStart text hlen, hbefore]

/-- The place is told by its offset. -/
theorem Marks.unique {text : String} {l l' : Location} (h : l.Marks text) (h' : l'.Marks text)
    (hoffset : l.byteOffset = l'.byteOffset) : l = l' := by
  obtain ⟨line, column, n⟩ := l
  obtain ⟨line', column', n'⟩ := l'
  obtain rfl : n = n' := hoffset
  obtain rfl : line = line' := h.line.trans h'.line.symm
  obtain rfl : column = column' := h.column.trans h'.column.symm
  rfl

end Location

/-! ## Cursors between characters -/

/-- The cursor is between two characters of the text, at the place that it tells. -/
structure Cursor.Placed {text : String} (c : Cursor text.toUTF8) : Prop where
  between : String.Pos.Raw.IsValid text ⟨c.byteOffset⟩
  marks : c.toLocation.Marks text

namespace Cursor

variable {text : String} {c : Cursor text.toUTF8} {d n : Nat} {rest : List Char}

theorem Stands.placed (h : c.Stands d n rest) : c.Placed := by
  have hwithin : Halt.Within ⟨.missingSpace, rest, false⟩ text.toList := ⟨h.suffix, nofun, nofun⟩
  have hmarks := Location.marks_of_within hwithin
  obtain ⟨front, hfront, hplace⟩ := h.place
  refine ⟨?_, h.location .missingSpace ▸ hmarks⟩
  rw [Stands.byteOffset hplace, length_utf8Bytes]
  exact isValid_utf8Length ⟨rest, hfront⟩

/-- A cursor between two characters shows an end of the text. -/
theorem Placed.stands (h : c.Placed) : ∃ rest, c.Stands c.depth c.references rest := by
  obtain ⟨front, rest, htext, hoffset⟩ := String.Pos.Raw.isValid_iff_exists_append.1 h.between
  have hfront : front.toList ++ rest.toList = text.toList := by
    rw [htext, String.toList_append]
  let c' : Cursor text.toUTF8 := { toLocation := Location.after front.toList }
  have h' : c'.Stands 0 0 rest.toList := ⟨rfl, rfl, front.toList, hfront, rfl⟩
  have hsame : c.byteOffset = c'.byteOffset := by
    rw [Stands.byteOffset (c := c') rfl, length_utf8Bytes, utf8Length_toList]
    exact congrArg String.Pos.Raw.byteIdx hoffset
  exact ⟨rest.toList, rfl, rfl, front.toList, hfront, h.marks.unique h'.placed.marks hsame⟩

end Cursor

/-! ## Productions -/

/-- The readers of markup, each with what it is given besides the cursor. -/
inductive Production where
  | mark
  | fixed (word : List Char)
  | space
  | requiredSpace
  | bytes (test : Char → Bool)
  | name (limit : Nat)
  | character
  | characterReference (base : Nat) (isDigit : Char → Bool) (bad : Fault)
  | entityReference (limit : Nat)
  | reference (o : ReadOptions)
  | quoted
  | attributeValue (o : ReadOptions)
  | characterData (o : ReadOptions)
  | comment
  | cdata
  | instruction (limit : Nat)
  | pair (o : ReadOptions)
  | pairs (o : ReadOptions) (earlier : List Attribute)
  | assigned
  | declaration
  | prologue
  | doctype
  | doctypeInside (brackets : Nat)
  | miscellany (o : ReadOptions)
  | afterDoctype (o : ReadOptions)
  | element (o : ReadOptions) (around : List OpenElement)
  | endTag (o : ReadOptions) (innermost : OpenElement) (enclosing : List OpenElement)
  | item (o : ReadOptions) (innermost : OpenElement) (enclosing : List OpenElement)
  | content (o : ReadOptions) (innermost : OpenElement) (enclosing : List OpenElement)
  | root (o : ReadOptions)

namespace Production

/-- Where a reader leaves the cursor. -/
def run {input : ByteArray} : Production → Cursor input → Except ParseError (Cursor input)
  | mark, c => .ok c.skipMark
  | fixed word, c => c.expectAll word
  | space, c => .ok c.space.2
  | requiredSpace, c => c.expectSpace
  | bytes test, c => .ok (c.takeWhile test).2
  | name limit, c => (c.name limit).map Prod.snd
  | character, c => c.nextChar.map Prod.snd
  | characterReference base isDigit bad, c =>
    (c.characterReference base isDigit bad).map Prod.snd
  | entityReference limit, c => (c.entityReference limit).map Prod.snd
  | reference o, c => (c.reference o).map Prod.snd
  | quoted, c => c.quoted.map Prod.snd
  | attributeValue o, c => (c.attributeValue o).map Prod.snd
  | characterData o, c => (c.characterData o).map Prod.snd
  | comment, c => c.comment.map Prod.snd
  | cdata, c => c.cdata.map Prod.snd
  | instruction limit, c => (c.instruction limit).map Prod.snd
  | pair o, c => (c.attributePair o).map Prod.snd
  | pairs o earlier, c => (c.attributePairs o earlier).map Prod.snd
  | assigned, c => c.assigned.map Prod.snd
  | declaration, c => c.declaration.map Prod.snd
  | prologue, c => c.prologue.map Prod.snd
  | doctype, c => c.doctype
  | doctypeInside brackets, c => c.doctypeInside brackets
  | miscellany o, c => (c.miscellany o).map Prod.snd
  | afterDoctype o, c => (c.afterDoctype o).map Prod.snd
  | element o around, c => (ParseState.openElement o around c).map ParseProgress.cursor
  | endTag o innermost enclosing, c =>
    (ParseState.closeElement o ⟨innermost, enclosing, c⟩).map ParseProgress.cursor
  | item o innermost enclosing, c =>
    (ParseState.step o ⟨innermost, enclosing, c⟩).map ParseProgress.cursor
  | content o innermost enclosing, c => (ParseState.run o ⟨innermost, enclosing, c⟩).map Prod.snd
  | root o, c => (c.rootElement o).map Prod.snd

/-- What a reader relies on: fixed text and bytes taken one at a time are ASCII, and digits that are bad
do not say that the text ended. -/
def Suits : Production → Prop
  | fixed word => Cursor.allAscii word = true
  | bytes test => ∀ a, test a = true → a.toNat < 128
  | characterReference _ isDigit bad =>
    (∀ a, isDigit a = true → a.toNat < 128) ∧ bad.isEnd = false
  | _ => True

end Production

/-! ## Errors -/

/-- What begins a text in two parts agrees with the first part as far as both reach. -/
theorem take_eq_take_of_front {mark u v : List Char} (h : mark <+: u ++ v) :
    mark.take u.length = u.take mark.length := by
  rw [List.prefix_iff_eq_take] at h
  have htake := congrArg (List.take u.length) h
  rwa [List.take_take, Nat.min_comm, ← List.take_take, List.take_left] at htake

/-- Faults whose wording begins like that of the end of the text speak of it. -/
theorem Fault.isEnd_of_message {f : Fault}
    (h : "unexpected end of input".toList <+: f.message.toList) : f.isEnd = true := by
  cases f with
  | endOfText => rfl
  | endInside c => rfl
  | missingName => rfl
  | _ =>
    -- the wording is fixed, or begins with a fixed part
    first
    | exact absurd h (by decide +kernel)
    | unfold Fault.message at h
      dsimp only at h
      (repeat rw [String.append_assoc] at h)
      rw [String.toList_append] at h
      exact absurd (take_eq_take_of_front h) (by decide +kernel)

/-- A reader that stopped where nothing is left stopped behind the last byte. -/
theorem Halt.byteOffset_of_end {text : String} {h : Halt} (hw : h.Within text.toList)
    (hf : h.fault.isEnd = true) : (h.location text.toList).byteOffset = text.utf8ByteSize := by
  have hrest := hw.ended hf
  unfold Halt.location
  rw [hrest, List.length_nil, Nat.sub_zero, List.take_length, Location.after_eq,
    Location.foldl_advanceByte (Location.forall_utf8Bytes_lt _), ← toUTF8_data,
    Location.length_toUTF8]
  cases h.insideNext with
  | true => rfl
  | false => rfl

/-- The error is at a place of the text, and if its wording begins with the end of the input, at the
end of the text. -/
structure ParseError.Located (e : ParseError) (text : String) : Prop where
  marks : e.location.Marks text
  ended : "unexpected end of input".toList <+: e.fault.message.toList →
    e.location.byteOffset = text.utf8ByteSize

theorem Halt.located {text : String} {h : Halt} (hw : h.Within text.toList) :
    (h.toError text.toList).Located text :=
  ⟨Location.marks_of_within hw, fun hend => h.byteOffset_of_end hw (Fault.isEnd_of_message hend)⟩

/-! ## What readers keep -/

/-- The cursor is left between two characters at the place that it tells, or the error is at a place
of the text. -/
structure Kept {α : Type} (text : String) (left : α → Cursor text.toUTF8)
    (x : Except ParseError α) : Prop where
  placed : ∀ a, x = .ok a → (left a).Placed
  located : ∀ e, x = .error e → e.Located text

namespace Kept

variable {α β : Type} {text : String} {p : α → Cursor text.toUTF8} {q : β → Cursor text.toUTF8}
  {x y : Except ParseError α} {c : Cursor text.toUTF8} {fault : Fault}

theorem ok {a : α} (h : (p a).Placed) : Kept text p (.ok a) :=
  ⟨fun b hb => by cases hb; exact h, nofun⟩

theorem fail (h : c.Placed) (hf : fault.isEnd = true → c.atEnd = true) :
    Kept text p (c.fail fault) := by
  obtain ⟨rest, hs⟩ := h.stands
  have hfollows : Follows text (fun (_ : α) (_ : α) => True) (c.fail fault) (haltAt fault rest) :=
    .fail hs fun he => List.isEmpty_iff.1 (hs.atEnd ▸ hf he)
  refine ⟨nofun, fun e he => ?_⟩
  rw [hfollows.1] at he
  cases he
  exact Halt.located hfollows.2

theorem stop (h : c.Placed) (hf : fault.isEnd = false) : Kept text p (c.fail fault) :=
  fail h fun he => by rw [hf] at he; cases he

/-- What follows goes on from the cursor that was left. -/
theorem bind {f : α → Except ParseError β} (hx : Kept text p x)
    (hf : ∀ a, (p a).Placed → Kept text q (f a)) : Kept text q (x >>= f) := by
  cases x with
  | error e => exact ⟨nofun, fun e' he => hx.located e' (Except.error.inj he ▸ rfl)⟩
  | ok a => exact hf a (hx.placed a rfl)

theorem ite {t : Prop} [Decidable t] (hx : t → Kept text p x) (hy : ¬ t → Kept text p y) :
    Kept text p (if t then x else y) := by
  split
  · rename_i ht
    exact hx ht
  · rename_i ht
    exact hy ht

/-- Only the cursor is looked at. -/
theorem map (h : Kept text p x) : Kept text id (x.map p) := by
  cases x with
  | error e => exact ⟨nofun, fun e' he => h.located e' (Except.error.inj he ▸ rfl)⟩
  | ok a => exact .ok (h.placed a rfl)

/-- A reader that follows one of lists keeps the cursor. -/
theorem of_follows {R : β → α → Prop} {y : Except Halt β} (h : Follows text R x y)
    (hp : ∀ b a, R b a → ∃ d n rest, (p a).Stands d n rest) : Kept text p x := by
  cases y with
  | error e =>
    obtain ⟨rfl, hw⟩ := h
    refine ⟨nofun, fun e' he => ?_⟩
    cases he
    exact Halt.located hw
  | ok b =>
    obtain ⟨a, rfl, hR⟩ := h
    obtain ⟨d, n, rest, hstands⟩ := hp b a hR
    exact .ok hstands.placed

theorem of_same {d n : Nat} {x : Except ParseError (α × Cursor text.toUTF8)}
    {y : Except Halt (α × List Char)} (h : Follows text (Cursor.Same d n) x y) :
    Kept text Prod.snd x :=
  of_follows h fun b _ h' => ⟨d, n, b.2, h'.2⟩

theorem of_counted {d : Nat} {x : Except ParseError (α × Cursor text.toUTF8)}
    {y : Except Halt (α × Nat × List Char)} (h : Follows text (Cursor.Counted d) x y) :
    Kept text Prod.snd x :=
  of_follows h fun b _ h' => ⟨d, b.2.1, b.2.2, h'.2⟩

theorem of_stands {d n : Nat} {x : Except ParseError (Cursor text.toUTF8)}
    {y : Except Halt (List Char)}
    (h : Follows text (fun rest c' => c'.Stands d n rest) x y) : Kept text id x :=
  of_follows h fun rest _ h' => ⟨d, n, rest, h'⟩

end Kept

/-! ## Parts of elements -/

namespace Cursor

variable {text : String} {c : Cursor text.toUTF8} {d n : Nat} {cs : List Char}

/-- Behind a mark that was looked at. -/
theorem Placed.advance {mark : List Char} (h : c.Placed) (hmark : allAscii mark = true)
    (hlook : c.lookingAt mark = true) : (c.advance mark.length).Placed := by
  obtain ⟨rest, hs⟩ := h.stands
  obtain ⟨tail, rfl⟩ := (hs.lookingAt_iff mark).1 hlook
  exact (hs.advance_ascii hmark).placed

theorem Placed.leave (h : c.Placed) : c.leave.Placed :=
  ⟨h.between, h.marks⟩

theorem Placed.skipSpace (h : c.Placed) : c.skipSpace.Placed := by
  obtain ⟨rest, hs⟩ := h.stands
  exact (skipSpace_stands hs).placed

theorem expect_kept {want : Char} (hwant : want.toNat < 128) (h : c.Placed) :
    Kept text id (c.expect want) := by
  obtain ⟨rest, hs⟩ := h.stands
  exact .of_stands (expect_follows hwant hs)

theorem expectAll_kept {mark : List Char} (hmark : allAscii mark = true) (h : c.Placed) :
    Kept text id (c.expectAll mark) := by
  obtain ⟨rest, hs⟩ := h.stands
  exact .of_stands (expectAll_follows hmark hs)

theorem nextChar_kept (h : c.Placed) : Kept text Prod.snd c.nextChar := by
  obtain ⟨cs, hs⟩ := h.stands
  cases cs with
  | nil =>
    rw [nextChar_nil hs]
    exact .fail h fun _ => hs.atEnd
  | cons ch cs =>
    by_cases hpair : ch = '\r' ∧ cs.head? = some '\n'
    · -- both characters of the line end are taken
      obtain ⟨rfl, hhead⟩ := hpair
      obtain ⟨next, rfl⟩ := List.head?_eq_some_iff.1 hhead
      rw [nextChar_lineEnd hs]
      exact .of_follows (nextChar_follows hs.advanceChar nofun) fun _ _ h' => ⟨_, _, next, h'.2⟩
    · exact .of_follows (nextChar_follows hs fun hcr hhead => hpair ⟨hcr, hhead⟩)
        fun _ _ h' => ⟨_, _, cs, h'.2⟩

theorem name_kept (limit : Nat) (h : c.Placed) : Kept text Prod.snd (c.name limit) := by
  obtain ⟨rest, hs⟩ := h.stands
  exact .of_same (name_follows limit hs)

theorem enter_kept (o : ReadOptions) (h : c.Placed) : Kept text id (c.enter o) := by
  have hdeeper : Placed { c with depth := c.depth + 1 } := ⟨h.between, h.marks⟩
  exact .ite (fun _ => .stop hdeeper rfl) fun _ => .ok hdeeper

theorem readNames_kept (o : ReadOptions) (s : Scope) (e : Element) (h : c.Placed) :
    Kept text (fun _ => c) (c.readNames o s e) := by
  obtain ⟨rest, hs⟩ := h.stands
  exact .of_follows (readNames_follows o s e hs) fun _ _ _ => ⟨_, _, rest, hs⟩

end Cursor

/-! ## Elements -/

namespace ParseState

open Cursor ParseProgress

variable {text : String} {c : Cursor text.toUTF8}

theorem place_kept {t : ContentTree} {around : List OpenElement} (h : c.Placed) :
    Kept text ParseProgress.cursor (.ok (place t c around)) := by
  refine .ok ?_
  rwa [cursor_place]

theorem openElement_kept (o : ReadOptions) (around : List OpenElement) (h : c.Placed) :
    Kept text ParseProgress.cursor (openElement o around c) := by
  refine (enter_kept o h).bind fun c h => ?_
  refine (expect_kept (by decide) h).bind fun c h => ?_
  refine (name_kept o.maxNameLength h).bind fun word h => ?_
  obtain ⟨rest, hs⟩ := h.stands
  refine (Kept.of_counted (attributePairs_follows o hs)).bind fun as h => ?_
  refine (readNames_kept o _ _ h).bind fun e h => ?_
  refine .ite (fun hlook => place_kept (h.advance rfl hlook).leave) fun _ => ?_
  exact (expect_kept (by decide) h).bind fun c h => .ok h

theorem closeElement_kept (o : ReadOptions) {s : ParseState text.toUTF8} (h : s.cursor.Placed) :
    Kept text ParseProgress.cursor (s.closeElement o) := by
  refine (expectAll_kept (by decide) h).bind fun c h => ?_
  refine (name_kept o.maxNameLength h).bind fun word h => ?_
  refine .ite (fun _ => .stop h rfl) fun _ => ?_
  exact (expect_kept (by decide) h.skipSpace).bind fun c h => place_kept h.leave

theorem step_kept (o : ReadOptions) {s : ParseState text.toUTF8} (h : s.cursor.Placed) :
    Kept text ParseProgress.cursor (s.step o) := by
  obtain ⟨rest, hs⟩ := h.stands
  refine .ite (fun hend => .fail h fun _ => hend) fun _ => ?_
  refine .ite (fun _ => closeElement_kept o h) fun _ => ?_
  refine .ite (fun _ => (Kept.of_same (cdata_follows hs)).bind fun _ h => .ok h) fun _ => ?_
  refine .ite (fun _ => (Kept.of_same (comment_follows hs)).bind fun _ h => .ok h) fun _ => ?_
  refine .ite (fun _ => (Kept.of_same (instruction_follows _ hs)).bind fun _ h => .ok h) fun _ => ?_
  refine .ite (fun _ => openElement_kept o _ h) fun _ => ?_
  exact (Kept.of_counted (characterData_follows o hs)).bind fun _ h => .ok h

theorem run_kept (o : ReadOptions) {s : ParseState text.toUTF8} (h : s.cursor.Placed) :
    Kept text Prod.snd (s.run o) := by
  fun_induction ParseState.run o s with
  | case1 s e he =>
    refine ⟨nofun, fun e' he' => ?_⟩
    cases he'
    exact (step_kept o h).located e he
  | case2 s root c hc => exact .ok ((step_kept o h).placed _ hc)
  | case3 s s' hs' ih => exact ih ((step_kept o h).placed _ hs')

end ParseState

theorem Cursor.rootElement_kept {text : String} {c : Cursor text.toUTF8} (o : ReadOptions)
    (h : c.Placed) : Kept text Prod.snd (c.rootElement o) := by
  refine .ite (fun _ => ?_) fun _ => .stop h rfl
  refine (ParseState.openElement_kept o [] h).bind fun p h => ?_
  cases p with
  | complete root c => exact .ok h
  | going s => exact ParseState.run_kept o h

/-- One production takes a cursor between two characters to another one, or stops at a place of the
text. -/
theorem Production.keeps {text : String} {c : Cursor text.toUTF8} (p : Production) (hp : p.Suits)
    (h : c.Placed) : Kept text id (p.run c) := by
  obtain ⟨rest, hs⟩ := h.stands
  cases p with
  | mark => exact .ok (Cursor.skipMark_stands hs).placed
  | fixed word => exact Cursor.expectAll_kept hp h
  | space => exact .ok (Cursor.space_stands hs).placed
  | requiredSpace => exact .of_stands (Cursor.expectSpace_follows hs)
  | bytes test => exact .ok (Cursor.skipWhile_stands hp hs).placed
  | name limit => exact (Cursor.name_kept limit h).map
  | character => exact (Cursor.nextChar_kept h).map
  | characterReference base isDigit bad =>
    exact (Kept.of_same (Cursor.characterReference_follows base hp.1 hp.2 hs)).map
  | entityReference limit => exact (Kept.of_same (Cursor.entityReference_follows limit hs)).map
  | reference o => exact (Kept.of_same (Cursor.reference_follows o hs)).map
  | quoted => exact (Kept.of_same (Cursor.quoted_follows hs)).map
  | attributeValue o => exact (Kept.of_counted (Cursor.attributeValue_follows o hs)).map
  | characterData o => exact (Kept.of_counted (Cursor.characterData_follows o hs)).map
  | comment => exact (Kept.of_same (Cursor.comment_follows hs)).map
  | cdata => exact (Kept.of_same (Cursor.cdata_follows hs)).map
  | instruction limit => exact (Kept.of_same (Cursor.instruction_follows limit hs)).map
  | pair o => exact (Kept.of_counted (Cursor.attributePair_follows o hs)).map
  | pairs o earlier => exact (Kept.of_counted (Cursor.attributePairs_follows o hs)).map
  | assigned => exact (Kept.of_same (Cursor.assigned_follows hs)).map
  | declaration => exact (Kept.of_same (Cursor.declaration_follows hs)).map
  | prologue => exact (Kept.of_same (Cursor.prologue_follows hs)).map
  | doctype => exact .of_stands (Cursor.doctype_follows hs)
  | doctypeInside brackets => exact .of_stands (Cursor.doctypeInside_follows hs)
  | miscellany o => exact (Kept.of_same (Cursor.miscellany_follows o hs)).map
  | afterDoctype o => exact (Kept.of_same (Cursor.afterDoctype_follows o hs)).map
  | element o around => exact (ParseState.openElement_kept o around h).map
  | endTag o innermost enclosing => exact (ParseState.closeElement_kept o h).map
  | item o innermost enclosing => exact (ParseState.step_kept o h).map
  | content o innermost enclosing => exact (ParseState.run_kept o h).map
  | root o => exact (Cursor.rootElement_kept o h).map

/-- A cursor begins between two characters; and whatever part of the text is read from between two
characters, the cursor comes to such a place again with the right line and column, or the error is at
a place of the text. So the error of a text that is refused is at a place of the text, at its end if the
wording says so. -/
theorem Markup.marks_of_parse (o : ReadOptions) (text : String) :
    (Cursor.start text.toUTF8).Placed ∧
      (∀ (p : Production) (c : Cursor text.toUTF8), p.Suits → c.Placed → Kept text id (p.run c)) ∧
      ∀ e, Markup.parse o text = .error e → e.Located text := by
  refine ⟨Cursor.stands_start.placed, fun p c hp hc => p.keeps hp hc, fun e he => ?_⟩
  have hfollows := Markup.parse_follows o text
  rw [he] at hfollows
  cases hdocument : Scan.document o text.toList with
  | ok m =>
    rw [hdocument] at hfollows
    obtain ⟨a, ha, -⟩ := hfollows
    cases ha
  | error h =>
    rw [hdocument] at hfollows
    obtain ⟨hsame, hw⟩ := hfollows
    obtain rfl : e = h.toError text.toList := Except.error.inj hsame
    exact Halt.located hw

/-- Behind a byte order mark and a line end of two characters a fault is found inside of a character
of two bytes, before which a cursor is left between two characters; without that character the text
ends there. -/
theorem Markup.marks_of_parse_inside :
    let text := "\uFEFF<a\r\n b=é"
    let before : Cursor text.toUTF8 := { toLocation := ⟨2, 2, 8⟩ }
    let behind : Cursor text.toUTF8 := { toLocation := ⟨2, 4, 10⟩ }
    Markup.parse {} text = .error ⟨.unquotedAttribute, ⟨2, 5, 11⟩⟩ ∧
      ParseError.Located ⟨.unquotedAttribute, ⟨2, 5, 11⟩⟩ text ∧
      (Production.fixed ['b', '=']).run before = .ok behind ∧ behind.Placed ∧
      Markup.parse {} "\uFEFF<a\r\n b=" = .error ⟨.endOfText, ⟨2, 4, 10⟩⟩ ∧
      10 = "\uFEFF<a\r\n b=".utf8ByteSize := by
  intro text before behind
  have hinside : Markup.parse {} text = .error ⟨.unquotedAttribute, ⟨2, 5, 11⟩⟩ := by
    decide +kernel
  have hend : Markup.parse {} "\uFEFF<a\r\n b=" = .error ⟨.endOfText, ⟨2, 4, 10⟩⟩ := by
    decide +kernel
  have hstands : before.Stands 0 0 "b=é".toList :=
    ⟨rfl, rfl, "\uFEFF<a\r\n ".toList, by decide +kernel, by decide +kernel⟩
  have hascii : Cursor.allAscii ['b', '='] = true := rfl
  have hbehind : (Production.fixed ['b', '=']).run before = .ok behind := by
    decide +kernel
  refine ⟨hinside, (marks_of_parse {} text).2.2 _ hinside, hbehind, ?_, hend, ?_⟩
  · have hkept := (marks_of_parse {} text).2.1 (.fixed ['b', '=']) before hascii hstands.placed
    exact hkept.placed behind hbehind
  · exact ((marks_of_parse {} _).2.2 _ hend).ended (by decide)

end MarkupFields
