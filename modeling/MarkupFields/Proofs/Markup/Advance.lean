import MarkupFields.Markup.Cursor
import MarkupFields.Proofs.Encoding.Bytes
import MarkupFields.Proofs.Text.Bytes

/-
  Where a cursor stands. Going on by bytes and going on by characters comes to the same place, since
  only the first byte of a character counts for the column. So a cursor that stands between two
  characters of a text, with the line and the column of its place (`Cursor.Stands`), does so again
  behind whatever it takes of whole characters, and shows what is left of the text.
-/

namespace MarkupFields

open Text Scan

theorem Text.length_utf8Bytes (cs : List Char) : (utf8Bytes cs).length = utf8Length cs := by
  induction cs with
  | nil => rfl
  | cons c cs ih =>
    rw [utf8Bytes_cons, List.length_append, String.length_utf8EncodeChar, ih, utf8Length_cons]

namespace Location

/-! ## Byte by byte -/

/-- Bytes of characters are below those that never occur in UTF-8. -/
theorem lt_of_mem_utf8EncodeChar {c : Char} {b : UInt8} (h : b ∈ String.utf8EncodeChar c) :
    b < 0xF8 := by
  have hbytes : ∀ n : Nat, n < 0xF8 → UInt8.ofNat n < 0xF8 := by
    intro n hn
    rw [UInt8.lt_iff_toNat_lt, UInt8.toNat_ofNat_of_lt' (Nat.lt_trans hn (by decide))]
    exact hn
  unfold String.utf8EncodeChar at h
  dsimp only at h
  split at h
  · rw [List.mem_singleton] at h
    exact h ▸ hbytes _ (by omega)
  · split at h
    · simp only [List.mem_cons, List.not_mem_nil, or_false] at h
      rcases h with rfl | rfl <;> exact hbytes _ (by omega)
    · split at h
      · simp only [List.mem_cons, List.not_mem_nil, or_false] at h
        rcases h with rfl | rfl | rfl <;> exact hbytes _ (by omega)
      · simp only [List.mem_cons, List.not_mem_nil, or_false] at h
        rcases h with rfl | rfl | rfl | rfl <;> exact hbytes _ (by omega)

/-- The bytes that begin a character are those that do not go on with one. -/
theorem isUTF8FirstByte_iff {b : UInt8} (h : b < 0xF8) :
    b.IsUTF8FirstByte ↔ b &&& 0xC0 ≠ 0x80 := by
  have hall : ∀ n : Fin 256, UInt8.ofNat n < 0xF8 →
      ((UInt8.ofNat n).IsUTF8FirstByte ↔ UInt8.ofNat n &&& 0xC0 ≠ 0x80) := by
    decide +kernel
  have hb := hall ⟨b.toNat, b.toNat_lt⟩
  rw [UInt8.ofNat_toNat] at hb
  exact hb h

/-- The first byte of a character does not go on with one, and all the others do. -/
theorem exists_utf8EncodeChar (c : Char) : ∃ b more, String.utf8EncodeChar c = b :: more ∧
    b &&& 0xC0 ≠ 0x80 ∧ ∀ d ∈ more, d &&& 0xC0 = 0x80 := by
  obtain ⟨b, more, hbytes, hb, hmore⟩ := utf8EncodeChar_eq_cons c
  have hlt : ∀ d ∈ b :: more, d < 0xF8 := fun d hd => lt_of_mem_utf8EncodeChar (hbytes ▸ hd)
  refine ⟨b, more, hbytes, (isUTF8FirstByte_iff (hlt b List.mem_cons_self)).1 hb, fun d hd => ?_⟩
  have hd' := hmore d hd
  rw [isUTF8FirstByte_iff (hlt d (List.mem_cons_of_mem b hd))] at hd'
  exact Decidable.not_not.1 hd'

theorem foldl_advanceByte_of_forall {bs : List UInt8} (h : ∀ b ∈ bs, b &&& 0xC0 = 0x80)
    (l : Location) :
    bs.foldl advanceByte l = { l with byteOffset := l.byteOffset + bs.length } := by
  induction bs generalizing l with
  | nil => rfl
  | cons b bs ih =>
    rw [List.forall_mem_cons] at h
    have hten : b ≠ 10 := by
      rintro rfl
      exact absurd h.1 (by decide)
    rw [List.foldl_cons, ih h.2, advanceByte, if_neg hten, if_neg (not_not_intro h.1),
      List.length_cons]
    simp only [Location.mk.injEq, true_and]
    omega

/-- A character whose first byte is that of a line feed is one. -/
theorem eq_lineFeed {c : Char} {more : List UInt8} (h : String.utf8EncodeChar c = 10 :: more) :
    c = '\n' := by
  have hbytes := after?_utf8Bytes ['\n'] [c]
  have hfront : after? (utf8Bytes ['\n']) (utf8Bytes [c]) = some more :=
    after?_eq_some_iff.2 (by simp [utf8Bytes, h]; rfl)
  rw [hfront, eq_comm, Option.map_eq_some_iff] at hbytes
  obtain ⟨rest, hrest, -⟩ := hbytes
  rw [after?_eq_some_iff, List.cons_append, List.cons.injEq] at hrest
  exact hrest.1

theorem advanceByte_first {c : Char} {b : UInt8} {more : List UInt8}
    (h : String.utf8EncodeChar c = b :: more) (hb : b &&& 0xC0 ≠ 0x80) (l : Location) :
    l.advanceByte b = { l.advance c with byteOffset := l.byteOffset + 1 } := by
  unfold advanceByte advance
  by_cases hten : b = 10
  · subst hten
    rw [if_pos rfl, if_pos (eq_lineFeed h)]
  · have hc : c ≠ '\n' := by
      rintro rfl
      rw [show String.utf8EncodeChar '\n' = [10] from rfl, List.cons.injEq] at h
      exact hten h.1.symm
    rw [if_neg hten, if_pos hb, if_neg hc]

/-- Over the bytes of a character one comes to the place behind it. -/
theorem foldl_utf8EncodeChar (l : Location) (c : Char) :
    (String.utf8EncodeChar c).foldl advanceByte l = l.advance c := by
  obtain ⟨b, more, hbytes, hb, hmore⟩ := exists_utf8EncodeChar c
  have hsize := String.length_utf8EncodeChar c
  have hoffset : (l.advance c).byteOffset = l.byteOffset + c.utf8Size := by
    unfold advance
    split <;> rfl
  rw [hbytes, List.length_cons] at hsize
  rw [hbytes, List.foldl_cons, advanceByte_first hbytes hb, foldl_advanceByte_of_forall hmore]
  have hend : l.byteOffset + 1 + more.length = (l.advance c).byteOffset := by omega
  exact congrArg (fun n => ({ l.advance c with byteOffset := n } : Location)) hend

theorem foldl_utf8Bytes (l : Location) (cs : List Char) :
    (utf8Bytes cs).foldl advanceByte l = cs.foldl advance l := by
  induction cs generalizing l with
  | nil => rfl
  | cons c cs ih =>
    rw [utf8Bytes_cons, List.foldl_append, foldl_utf8EncodeChar, ih]
    rfl

theorem after_eq (cs : List Char) : after cs = (utf8Bytes cs).foldl advanceByte start :=
  (foldl_utf8Bytes start cs).symm

theorem byteOffset_foldl_advanceByte (bs : List UInt8) (l : Location) :
    (bs.foldl advanceByte l).byteOffset = l.byteOffset + bs.length := by
  induction bs generalizing l with
  | nil => rfl
  | cons b bs ih =>
    have hb : (l.advanceByte b).byteOffset = l.byteOffset + 1 := by
      unfold advanceByte
      split
      · rfl
      · split <;> rfl
    rw [List.foldl_cons, ih, hb, List.length_cons]
    omega

end Location

namespace Cursor

/-! ## What is left -/

section
variable {input : ByteArray}

/-- The bytes from the cursor on. -/
def remaining (c : Cursor input) : List UInt8 :=
  input.data.toList.drop c.byteOffset

theorem getElem?_input (i : Nat) : input[i]? = input.data.toList[i]? := by
  by_cases h : i < input.size
  · rw [getElem?_pos input i h, Array.getElem?_toList, Array.getElem?_eq_getElem h]
    rfl
  · rw [getElem?_neg input i h, Array.getElem?_toList, Array.getElem?_eq_none (Nat.le_of_not_lt h)]

theorem peekAt?_eq (n : Nat) (c : Cursor input) : c.peekAt? n = c.remaining[n]? := by
  unfold peekAt? remaining
  rw [getElem?_input, List.getElem?_drop]

theorem peek?_eq (c : Cursor input) : c.peek? = c.remaining.head? := by
  unfold peek?
  rw [peekAt?_eq, List.head?_eq_getElem?]

theorem atEnd_eq (c : Cursor input) : c.atEnd = c.remaining.isEmpty := by
  unfold atEnd remaining
  rw [Bool.eq_iff_iff, decide_eq_true_iff, List.isEmpty_iff, List.drop_eq_nil_iff,
    Array.length_toList]
  rfl

theorem bytesAt_iff (bs : List UInt8) (i : Nat) :
    bytesAt input i bs = true ↔ bs <+: input.data.toList.drop i := by
  induction bs generalizing i with
  | nil => exact iff_of_true rfl List.nil_prefix
  | cons b bs ih =>
    unfold bytesAt
    rw [Bool.and_eq_true, beq_iff_eq, ih, getElem?_input]
    cases h : input.data.toList.drop i with
    | nil =>
      have hnone : input.data.toList[i]? = none := by
        rw [← Nat.add_zero i, ← List.getElem?_drop, h]
        rfl
      rw [hnone]
      simp
    | cons d ds =>
      have hsome : input.data.toList[i]? = some d := by
        rw [← Nat.add_zero i, ← List.getElem?_drop, h]
        rfl
      have hdrop : input.data.toList.drop (i + 1) = ds := by
        rw [← List.drop_drop, h]
        rfl
      rw [hsome, hdrop, Option.some.injEq, List.cons_prefix_cons, eq_comm]

theorem lookingAt_iff (mark : List Char) (c : Cursor input) :
    c.lookingAt mark = true ↔ utf8Bytes mark <+: c.remaining :=
  bytesAt_iff _ _

/-- The bytes between the cursor and so many bytes on. -/
theorem textBetween?_remaining {c : Cursor input} {cs : List Char} {more : List UInt8}
    (h : c.remaining = utf8Bytes cs ++ more) {last : Nat}
    (hlast : last = c.byteOffset + (utf8Bytes cs).length) :
    textBetween? input c.byteOffset last = some cs := by
  have hbytes : input.extract c.byteOffset last = (utf8Bytes cs).toByteArray := by
    rw [ByteArray.ext_iff, ByteArray.data_extract, ← Array.toList_inj, Array.toList_extract,
      List.toList_data_toByteArray, List.extract_eq_take_drop, hlast, Nat.add_sub_cancel_left]
    show c.remaining.take _ = _
    rw [h, List.take_left]
  unfold textBetween?
  rw [hbytes, fromUTF8?_utf8Bytes, Option.map_some, String.toList_ofList]

theorem width_ofNat {n : Nat} (h : n < 256) : width (UInt8.ofNat n) =
    if n < 0x80 then 1 else if 0xF0 ≤ n then 4 else if 0xE0 ≤ n then 3 else 2 := by
  have hall : ∀ n : Fin 256, width (UInt8.ofNat n) =
      if n.val < 0x80 then 1 else if 0xF0 ≤ n.val then 4 else if 0xE0 ≤ n.val then 3 else 2 := by
    decide +kernel
  exact hall ⟨n, h⟩

/-- The first byte of a character tells how many it has. -/
theorem width_eq {ch : Char} {b : UInt8} {more : List UInt8}
    (h : String.utf8EncodeChar ch = b :: more) : width b = ch.utf8Size := by
  rw [← String.length_utf8EncodeChar, h]
  unfold String.utf8EncodeChar at h
  dsimp only at h
  split at h
  · cases h
    rw [width_ofNat (by omega), if_pos (by omega)]
    rfl
  · split at h
    · cases h
      rw [width_ofNat (by omega), if_neg (by omega), if_neg (by omega), if_neg (by omega)]
      rfl
    · split at h
      · cases h
        rw [width_ofNat (by omega), if_neg (by omega), if_neg (by omega), if_pos (by omega)]
        rfl
      · cases h
        rw [width_ofNat (by omega), if_neg (by omega), if_pos (by omega)]
        rfl

/-! ## Going on over bytes -/

theorem advanceByte_of_remaining {c : Cursor input} {b : UInt8} {bs : List UInt8}
    (h : c.remaining = b :: bs) :
    c.advanceByte = { c with toLocation := c.toLocation.advanceByte b } ∧
      c.advanceByte.remaining = bs := by
  have hpeek : c.peek? = some b := by
    rw [peek?_eq, h]
    rfl
  refine ⟨?_, ?_⟩
  · unfold advanceByte
    rw [hpeek]
  · unfold remaining at h ⊢
    rw [byteOffset_advanceByte hpeek, ← List.drop_drop, h]
    rfl

/-- Over so many bytes the place goes on byte by byte. -/
theorem advance_of_remaining {c : Cursor input} {bs more : List UInt8}
    (h : c.remaining = bs ++ more) :
    c.advance bs.length = { c with toLocation := bs.foldl Location.advanceByte c.toLocation } := by
  induction bs generalizing c with
  | nil => rfl
  | cons b bs ih =>
    obtain ⟨hnext, hrest⟩ := advanceByte_of_remaining h
    show c.advanceByte.advance bs.length = _
    rw [ih hrest, hnext]
    rfl

end

/-! ## First bytes -/

theorem ofUInt8_ofNat {n : Nat} (h : n < 256) : Char.ofUInt8 (UInt8.ofNat n) = Char.ofNat n := by
  have hall : ∀ n : Fin 256, Char.ofUInt8 (UInt8.ofNat n) = Char.ofNat n := by decide +kernel
  exact hall ⟨n, h⟩

/-- The first byte of a character, taken for a character. -/
theorem ofUInt8_eq {ch : Char} {b : UInt8} {more : List UInt8}
    (h : String.utf8EncodeChar ch = b :: more) : Char.ofUInt8 b = leadByte ch := by
  have hcode : ch.val.toNat = ch.toNat := rfl
  have hlt : ch.toNat < 0x110000 := by
    rcases ch.valid with hlow | ⟨-, hhigh⟩
    · exact Nat.lt_trans hlow (by decide)
    · exact hhigh
  unfold leadByte
  unfold String.utf8EncodeChar at h
  dsimp only at h ⊢
  rw [hcode] at h
  split at h
  · cases h
    rw [if_pos (by omega), ofUInt8_ofNat (by omega), Char.ofNat_toNat]
  · split at h
    · cases h
      rw [if_neg (by omega), if_pos (by omega), ofUInt8_ofNat (by omega)]
      exact congrArg Char.ofNat (by omega)
    · split at h
      · cases h
        rw [if_neg (by omega), if_neg (by omega), if_pos (by omega), ofUInt8_ofNat (by omega)]
        exact congrArg Char.ofNat (by omega)
      · cases h
        rw [if_neg (by omega), if_neg (by omega), if_neg (by omega), ofUInt8_ofNat (by omega)]
        exact congrArg Char.ofNat (by omega)

/-- An ASCII character is one byte. -/
theorem utf8EncodeChar_ascii {a : Char} (ha : a.toNat < 128) :
    String.utf8EncodeChar a = [a.toUInt8] := by
  refine String.utf8EncodeChar_eq_singleton (Char.utf8Size_eq_one_iff.2 ?_)
  rw [UInt32.le_iff_toNat_le]
  exact Nat.le_of_lt_succ ha

/-- Whether the first byte of a character is that of an ASCII character tells whether it is that
character. -/
theorem first_eq_iff {ch a : Char} {b : UInt8} {more : List UInt8}
    (h : String.utf8EncodeChar ch = b :: more) (ha : a.toNat < 128) : b = a.toUInt8 ↔ ch = a := by
  constructor
  · rintro rfl
    have hmark : utf8Bytes [a] = [a.toUInt8] := by
      rw [utf8Bytes_cons, utf8EncodeChar_ascii ha]
      rfl
    have hch : utf8Bytes [ch] = [a.toUInt8] ++ more := by
      rw [utf8Bytes_cons, h]
      exact List.append_nil _
    have hbytes := after?_utf8Bytes [a] [ch]
    rw [hmark, after?_eq_some_iff.2 hch, eq_comm, Option.map_eq_some_iff] at hbytes
    obtain ⟨rest, hrest, -⟩ := hbytes
    rw [after?_eq_some_iff, List.cons_append, List.cons.injEq] at hrest
    exact hrest.1
  · rintro rfl
    rw [utf8EncodeChar_ascii ha, List.cons.injEq] at h
    exact h.1.symm

/-! ## Standing in a text -/

variable {text : String}

/-- The cursor stands between two characters of a text, before the given rest of it, and counts
lines, columns and bytes rightly. -/
structure Stands (c : Cursor text.toUTF8) (d n : Nat) (rest : List Char) : Prop where
  depth : c.depth = d
  references : c.references = n
  place : ∃ front, front ++ rest = text.toList ∧ c.toLocation = Location.after front

theorem stands_start : (start text.toUTF8).Stands 0 0 text.toList :=
  ⟨rfl, rfl, [], rfl, rfl⟩

namespace Stands

variable {c : Cursor text.toUTF8} {d n : Nat} {ch : Char} {cs mark rest : List Char}

theorem suffix (h : c.Stands d n rest) : rest <:+ text.toList := by
  obtain ⟨front, hfront, -⟩ := h.place
  exact ⟨front, hfront⟩

/-- There is one cursor before each rest of the text. -/
theorem unique {c' : Cursor text.toUTF8} (h : c.Stands d n rest) (h' : c'.Stands d n rest) :
    c = c' := by
  obtain ⟨front, hfront, hplace⟩ := h.place
  obtain ⟨front', hfront', hplace'⟩ := h'.place
  obtain rfl := List.append_cancel_right (hfront.trans hfront'.symm)
  obtain ⟨l, d1, n1⟩ := c
  obtain ⟨l', d2, n2⟩ := c'
  obtain rfl : l = l' := hplace.trans hplace'.symm
  obtain rfl : d1 = d2 := h.depth.trans h'.depth.symm
  obtain rfl : n1 = n2 := h.references.trans h'.references.symm
  rfl

theorem byteOffset {front : List Char} (h : c.toLocation = Location.after front) :
    c.byteOffset = (utf8Bytes front).length := by
  rw [h, Location.after_eq, Location.byteOffset_foldl_advanceByte]
  exact Nat.zero_add _

theorem remaining (h : c.Stands d n rest) : c.remaining = utf8Bytes rest := by
  obtain ⟨front, hfront, hplace⟩ := h.place
  unfold Cursor.remaining
  rw [byteOffset hplace, toUTF8_data, ← hfront, utf8Bytes_append, List.drop_left]

theorem atEnd (h : c.Stands d n rest) : c.atEnd = rest.isEmpty := by
  rw [atEnd_eq, h.remaining]
  cases rest with
  | nil => rfl
  | cons ch cs =>
    obtain ⟨b, more, hbytes, -⟩ := utf8EncodeChar_eq_cons ch
    rw [utf8Bytes_cons, hbytes]
    rfl

theorem lookingAt (h : c.Stands d n rest) (mark : List Char) :
    c.lookingAt mark = (after? mark rest).isSome := by
  rw [Bool.eq_iff_iff, lookingAt_iff, h.remaining]
  constructor
  · rintro ⟨more, hmore⟩
    have hbytes := after?_utf8Bytes mark rest
    rw [after?_eq_some_iff.2 hmore.symm] at hbytes
    cases hrest : after? mark rest with
    | none =>
      rw [hrest] at hbytes
      cases hbytes
    | some _ => rfl
  · intro hsome
    obtain ⟨tail, htail⟩ := Option.isSome_iff_exists.1 hsome
    rw [after?_eq_some_iff.1 htail, utf8Bytes_append]
    exact List.prefix_append _ _

/-- The cursor goes on over characters that it stands before, in bytes. -/
theorem advance (h : c.Stands d n (mark ++ rest)) :
    (c.advance (utf8Bytes mark).length).Stands d n rest := by
  obtain ⟨front, hfront, hplace⟩ := h.place
  have hbytes : c.remaining = utf8Bytes mark ++ utf8Bytes rest := by
    rw [h.remaining, utf8Bytes_append]
  rw [advance_of_remaining hbytes]
  refine ⟨h.depth, h.references, front ++ mark, by rw [List.append_assoc, hfront], ?_⟩
  show (utf8Bytes mark).foldl Location.advanceByte c.toLocation = _
  rw [Location.foldl_utf8Bytes, hplace]
  exact List.foldl_append.symm

/-- The cursor goes on over a character that it stands before, at once. -/
theorem advanceChar (h : c.Stands d n (ch :: cs)) : (c.advanceChar ch).Stands d n cs := by
  obtain ⟨front, hfront, hplace⟩ := h.place
  refine ⟨h.depth, h.references, front ++ [ch], by rw [List.append_assoc]; exact hfront, ?_⟩
  show c.toLocation.advance ch = _
  unfold Location.after
  rw [hplace, List.foldl_append]
  rfl

theorem peek?_nil (h : c.Stands d n []) : c.peek? = none := by
  rw [peek?_eq, h.remaining]
  rfl

theorem peek?_cons (h : c.Stands d n (ch :: cs)) :
    ∃ b more, String.utf8EncodeChar ch = b :: more ∧ c.peek? = some b := by
  obtain ⟨b, more, hbytes, -⟩ := utf8EncodeChar_eq_cons ch
  refine ⟨b, more, hbytes, ?_⟩
  rw [peek?_eq, h.remaining, utf8Bytes_cons, hbytes]
  rfl

/-- The byte at the cursor is that of an ASCII character only where this one comes next. -/
theorem exists_peek? (h : c.Stands d n (ch :: cs)) :
    ∃ b, c.peek? = some b ∧ ∀ {a : Char}, a.toNat < 128 → (b = a.toUInt8 ↔ ch = a) := by
  obtain ⟨b, more, hbytes, hpeek⟩ := h.peek?_cons
  exact ⟨b, hpeek, fun ha => first_eq_iff hbytes ha⟩

theorem peek?_ascii (h : c.Stands d n (ch :: cs)) (hch : ch.toNat < 128) :
    c.peek? = some ch.toUInt8 := by
  obtain ⟨b, hpeek, hb⟩ := h.exists_peek?
  rw [hpeek, (hb hch).2 rfl]

theorem peekChar? (h : c.Stands d n rest) : c.peekChar? = rest.head? := by
  unfold Cursor.peekChar?
  cases rest with
  | nil =>
    rw [h.peek?_nil]
    rfl
  | cons ch cs =>
    obtain ⟨b, more, hbytes, hpeek⟩ := h.peek?_cons
    have hremaining : c.remaining = utf8Bytes [ch] ++ utf8Bytes cs := by
      rw [h.remaining, ← utf8Bytes_append]
      rfl
    have hlength : (utf8Bytes [ch]).length = ch.utf8Size := by
      rw [← String.length_utf8EncodeChar]
      exact congrArg List.length (List.append_nil _)
    have hsize : c.byteOffset + width b ≤ text.toUTF8.size := by
      have hsum := congrArg List.length hremaining
      have hpos := ch.utf8Size_pos
      have hall : text.toUTF8.data.toList.length = text.toUTF8.size := Array.length_toList
      unfold Cursor.remaining at hsum
      rw [List.length_drop, List.length_append, hlength, hall] at hsum
      rw [width_eq hbytes]
      omega
    rw [hpeek]
    dsimp only
    rw [if_neg (Nat.not_lt.2 hsize),
      textBetween?_remaining hremaining (by rw [hlength, width_eq hbytes])]
    rfl

theorem isAt (h : c.Stands d n rest) {a : Char} (ha : a.toNat < 128) :
    c.isAt a = true ↔ rest.head? = some a := by
  unfold Cursor.isAt
  cases rest with
  | nil =>
    rw [h.peek?_nil]
    exact iff_of_false nofun nofun
  | cons ch cs =>
    obtain ⟨b, hpeek, hb⟩ := h.exists_peek?
    rw [hpeek, beq_iff_eq, Option.some.injEq, hb ha, List.head?_cons, Option.some.injEq]

/-- The place of a reader of the rest that stopped there. -/
theorem location (h : c.Stands d n rest) (fault : Fault) :
    Halt.location text.toList ⟨fault, rest, false⟩ = c.toLocation := by
  obtain ⟨front, hfront, hplace⟩ := h.place
  have htake : text.toList.take (text.toList.length - rest.length) = front := by
    rw [← hfront, List.length_append, Nat.add_sub_cancel_right, List.take_left]
  unfold Halt.location
  dsimp only
  rw [htake, hplace]

/-- The place of a reader that stopped inside of the character at the cursor. -/
theorem location_inside (h : c.Stands d n (ch :: cs)) (fault : Fault) :
    Halt.location text.toList ⟨fault, ch :: cs, true⟩ = (c.advance 1).toLocation := by
  obtain ⟨front, hfront, hplace⟩ := h.place
  have htake : text.toList.take (text.toList.length - (ch :: cs).length) = front := by
    rw [← hfront, List.length_append, Nat.add_sub_cancel_right, List.take_left]
  obtain ⟨b, more, hbytes, hb, -⟩ := Location.exists_utf8EncodeChar ch
  have hremaining : c.remaining = [b] ++ (more ++ utf8Bytes cs) := by
    rw [h.remaining, utf8Bytes_cons, hbytes]
    rfl
  have hadvance := congrArg toLocation (advance_of_remaining hremaining)
  unfold Halt.location
  dsimp only
  rw [htake]
  exact (Location.advanceByte_first hbytes hb _).symm.trans (hplace ▸ hadvance.symm)

end Stands

end Cursor

end MarkupFields
