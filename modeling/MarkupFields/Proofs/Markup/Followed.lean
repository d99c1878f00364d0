import MarkupFields.Markup.Production
import MarkupFields.Proofs.Markup.Advance

/-
  Reading with a cursor follows reading a list of characters. If the cursor stands before a rest of
  the text, a reader of cursors gives what the reader of lists gives for that rest, and stands before
  what that one leaves; or both stop with the same fault, the cursor at the place of the rest where the
  other one stopped, and it says that the text ended only if nothing is left (`Follows`). Readers that
  follow one another keep to this if each of them does. The faults are looked at only as far as they
  speak of the end of the text.
-/

namespace MarkupFields

open Text Scan

/-! ## Stopping within a text -/

/-- The fault says that the text has ended. -/
def Fault.isEnd : Fault → Bool
  | endOfText => true
  | endInside _ => true
  | missingName => true
  | _ => false

/-- A reader of the characters stopped at a place of theirs, and at their end if it says so. -/
structure Halt.Within (h : Halt) (cs : List Char) : Prop where
  suffix : h.rest <:+ cs
  inside : h.insideNext = true → h.rest ≠ []
  ended : h.fault.isEnd = true → h.rest = []

/-- What is read with a cursor of the text agrees with what is read from a list, or both stop at the
same place with the same fault. -/
def Follows {α β : Type} (text : String) (R : β → α → Prop) (x : Except ParseError α) :
    Except Halt β → Prop
  | .ok b => ∃ a, x = .ok a ∧ R b a
  | .error h => x = .error (h.toError text.toList) ∧ h.Within text.toList

namespace Follows

variable {α β α' β' : Type} {text : String} {R : β → α → Prop} {S : β' → α' → Prop}
  {x x' : Except ParseError α} {y y' : Except Halt β} {c : Cursor text.toUTF8} {d n : Nat}
  {fault : Fault} {ch : Char} {cs rest : List Char}

theorem ok {a : α} {b : β} (h : R b a) : Follows text R (.ok a) (.ok b) :=
  ⟨a, rfl, h⟩

/-- Stopping at the cursor. -/
theorem fail (h : c.Stands d n rest) (hf : fault.isEnd = true → rest = []) :
    Follows text R (c.fail fault) (haltAt fault rest) := by
  refine ⟨?_, h.suffix, nofun, hf⟩
  unfold Cursor.fail Halt.toError
  rw [h.location]

/-- Stopping for a fault that does not speak of the end. -/
theorem stop (h : c.Stands d n rest) (hf : fault.isEnd = false) :
    Follows text R (c.fail fault) (haltAt fault rest) :=
  fail h fun he => by rw [hf] at he; cases he

/-- Stopping behind the first byte of the character at the cursor. -/
theorem stop_inside (h : c.Stands d n (ch :: cs)) (hf : fault.isEnd = false) :
    Follows text R ((c.advance 1).fail fault) (haltInside fault (ch :: cs)) := by
  refine ⟨?_, h.suffix, fun _ => List.cons_ne_nil ch cs, fun he => by rw [hf] at he; cases he⟩
  unfold Cursor.fail Halt.toError
  rw [h.location_inside]

theorem bind {f : α → Except ParseError α'} {g : β → Except Halt β'} (h : Follows text R x y)
    (hnext : ∀ b a, R b a → Follows text S (f a) (g b)) : Follows text S (x >>= f) (y >>= g) := by
  cases y with
  | error e =>
    obtain ⟨rfl, hw⟩ := h
    exact ⟨rfl, hw⟩
  | ok b =>
    obtain ⟨a, rfl, hR⟩ := h
    exact hnext b a hR

/-- Where the one reader stops nothing follows. -/
theorem error_bind {e : Halt} {f : α → Except ParseError α'} (h : Follows text R x (.error e)) :
    Follows text S (x >>= f) (.error e) := by
  obtain ⟨rfl, hw⟩ := h
  exact ⟨rfl, hw⟩

theorem ite {p q : Prop} [Decidable p] [Decidable q] (hpq : p ↔ q)
    (hx : q → Follows text R x y) (hy : ¬ q → Follows text R x' y') :
    Follows text R (if p then x else x') (if q then y else y') := by
  by_cases hq : q
  · rw [if_pos (hpq.2 hq), if_pos hq]
    exact hx hq
  · rw [if_neg (mt hpq.1 hq), if_neg hq]
    exact hy hq

end Follows

namespace Cursor

variable {text : String} {c : Cursor text.toUTF8} {d n : Nat} {ch : Char} {cs rest : List Char}

/-- The value is the same, and the cursor stands before what was left. -/
def Same {α : Type} (d n : Nat) (b : α × List Char) (a : α × Cursor text.toUTF8) : Prop :=
  a.1 = b.1 ∧ a.2.Stands d n b.2

/-! ## Fixed text and space -/

/-- The characters are ASCII. -/
def allAscii (mark : List Char) : Bool :=
  mark.all fun a => a.toNat < 128

theorem allAscii_cons {a : Char} {mark : List Char} :
    allAscii (a :: mark) = true ↔ a.toNat < 128 ∧ allAscii mark = true := by
  unfold allAscii
  rw [List.all_cons, Bool.and_eq_true, decide_eq_true_iff]

theorem allAscii_singleton {a : Char} (h : a.toNat < 128) : allAscii [a] = true :=
  allAscii_cons.2 ⟨h, rfl⟩

/-- A mark of ASCII characters has as many bytes. -/
theorem length_utf8Bytes_ascii {mark : List Char} (h : allAscii mark = true) :
    (utf8Bytes mark).length = mark.length := by
  induction mark with
  | nil => rfl
  | cons a mark ih =>
    rw [allAscii_cons] at h
    rw [utf8Bytes_cons, List.length_append, utf8EncodeChar_ascii h.1, ih h.2]
    exact Nat.add_comm 1 mark.length

theorem Stands.advance_ascii {mark : List Char} (h : c.Stands d n (mark ++ rest))
    (hmark : allAscii mark = true) : (c.advance mark.length).Stands d n rest := by
  rw [← length_utf8Bytes_ascii hmark]
  exact h.advance

theorem Stands.advance_one (h : c.Stands d n (ch :: cs)) (hch : ch.toNat < 128) :
    (c.advance 1).Stands d n cs := by
  have hmark : c.Stands d n ([ch] ++ cs) := h
  exact hmark.advance_ascii (allAscii_singleton hch)

theorem nextByte_nil (h : c.Stands d n []) : c.nextByte = c.fail .endOfText := by
  unfold nextByte
  rw [h.peek?_nil]

theorem nextByte_cons (h : c.Stands d n (ch :: cs)) :
    ∃ b more, String.utf8EncodeChar ch = b :: more ∧ c.nextByte = .ok (b, c.advance 1) := by
  obtain ⟨b, more, hbytes, hpeek⟩ := h.peek?_cons
  refine ⟨b, more, hbytes, ?_⟩
  unfold nextByte
  rw [hpeek]

theorem expect_follows {want : Char} (hwant : want.toNat < 128) (h : c.Stands d n cs) :
    Follows text (fun rest c' => c'.Stands d n rest) (c.expect want) (Scan.expect want cs) := by
  unfold Cursor.expect
  cases cs with
  | nil =>
    rw [nextByte_nil h]
    exact .fail h fun _ => rfl
  | cons ch cs =>
    obtain ⟨b, more, hbytes, hnext⟩ := nextByte_cons h
    rw [hnext]
    refine .ite (first_eq_iff hbytes hwant) (fun hch => ?_) fun _ => ?_
    · exact .ok (h.advance_one (hch ▸ hwant))
    · rw [ofUInt8_eq hbytes]
      exact .stop_inside h rfl

theorem expectAll_follows {mark : List Char} (hmark : allAscii mark = true)
    (h : c.Stands d n cs) :
    Follows text (fun rest c' => c'.Stands d n rest) (c.expectAll mark)
      (Scan.expectAll mark cs) := by
  induction mark generalizing c cs with
  | nil => exact .ok h
  | cons m ms ih =>
    rw [allAscii_cons] at hmark
    exact (expect_follows hmark.1 h).bind fun rest c' h' => ih hmark.2 h'

/-- A reader that takes a mark first follows what is read behind the mark. -/
theorem behind_mark {α β : Type} {R : β → α → Prop} {x : Except ParseError α}
    {next : List Char → Except Halt β} {mark : List Char}
    (h : Follows text R x (Scan.expectAll mark cs >>= next)) (hmark : cs = mark ++ rest) :
    Follows text R x (next rest) := by
  rwa [expectAll_eq_ok_iff.2 hmark] at h

/-- Two cursors of the text are as far apart as the bytes between them. -/
theorem Stands.byteOffset_eq {d' n' : Nat} {c' : Cursor text.toUTF8} (h : c.Stands d n (cs ++ rest))
    (h' : c'.Stands d' n' rest) : c'.byteOffset = c.byteOffset + (utf8Bytes cs).length := by
  obtain ⟨front, hfront, hplace⟩ := h.place
  obtain ⟨front', hfront', hplace'⟩ := h'.place
  have hsame : front' = front ++ cs := by
    rw [← List.append_assoc] at hfront
    exact List.append_cancel_right (hfront'.trans hfront.symm)
  rw [Stands.byteOffset hplace, Stands.byteOffset hplace', hsame, utf8Bytes_append,
    List.length_append]

/-- The text between two cursors. -/
theorem Stands.textBetween? {d' n' : Nat} {c' : Cursor text.toUTF8} (h : c.Stands d n (cs ++ rest))
    (h' : c'.Stands d' n' rest) :
    textBetween? text.toUTF8 c.byteOffset c'.byteOffset = some cs := by
  have hremaining : c.remaining = utf8Bytes cs ++ utf8Bytes rest := by
    rw [h.remaining, utf8Bytes_append]
  exact textBetween?_remaining hremaining (h.byteOffset_eq h')

/-- A test that only ASCII characters pass gives the same for a character and for its first byte. -/
theorem test_first {p : Char → Bool} (hp : ∀ ch, p ch = true → ch.toNat < 128) {b : UInt8}
    {more : List UInt8} (h : String.utf8EncodeChar ch = b :: more) :
    p (Char.ofUInt8 b) = p ch := by
  by_cases hch : ch.toNat < 128
  · rw [ofUInt8_eq h, leadByte, if_pos hch]
  · have hb : ¬ (Char.ofUInt8 b).toNat < 128 := by
      intro hb
      have hbyte : b = (Char.ofUInt8 b).toUInt8 := (UInt8.toUInt8_toUInt32 b).symm
      exact hch ((first_eq_iff h hb).1 hbyte ▸ hb)
    rw [Bool.eq_false_iff.2 fun htrue => hch (hp ch htrue),
      Bool.eq_false_iff.2 fun htrue => hb (hp _ htrue)]

theorem skipWhile_stands {p : Char → Bool} (hp : ∀ ch, p ch = true → ch.toNat < 128)
    (h : c.Stands d n cs) : (c.skipWhile p).Stands d n (cs.dropWhile p) := by
  induction cs generalizing c with
  | nil =>
    unfold skipWhile
    split
    · rename_i b hpeek
      rw [h.peek?_nil] at hpeek
      cases hpeek
    · exact h
  | cons ch cs ih =>
    obtain ⟨b, more, hbytes, hpeek⟩ := h.peek?_cons
    unfold skipWhile
    split
    · rename_i b' hpeek'
      obtain rfl : b = b' := Option.some.inj (hpeek.symm.trans hpeek')
      rw [test_first hp hbytes, List.dropWhile_cons]
      split
      · rename_i hch
        exact ih (h.advance_one (hp ch hch))
      · exact h
    · rename_i hpeek'
      rw [hpeek] at hpeek'
      cases hpeek'

theorem isMarkupSpace_ascii (ch : Char) (h : isMarkupSpace ch = true) : ch.toNat < 128 := by
  unfold isMarkupSpace at h
  simp only [Bool.or_eq_true, beq_iff_eq] at h
  rcases h with ((rfl | rfl) | rfl) | rfl <;> decide

theorem skipSpace_stands (h : c.Stands d n cs) : c.skipSpace.Stands d n (Scan.skipSpace cs) :=
  skipWhile_stands isMarkupSpace_ascii h

theorem skipSpace_of_not_startsWithSpace (h : ¬ startsWithSpace cs = true) :
    Scan.skipSpace cs = cs := by
  cases cs with
  | nil => rfl
  | cons ch cs => exact List.dropWhile_cons_of_neg h

theorem space_eq (h : c.Stands d n cs) : c.space.1 = startsWithSpace cs := by
  have hwhole : c.Stands d n (cs.takeWhile isMarkupSpace ++ cs.dropWhile isMarkupSpace) := by
    rwa [List.takeWhile_append_dropWhile]
  unfold space startsWithSpace
  rw [hwhole.byteOffset_eq (skipSpace_stands h), length_utf8Bytes, Bool.eq_iff_iff,
    decide_eq_true_iff]
  cases cs with
  | nil => exact iff_of_false (Nat.lt_irrefl _) nofun
  | cons ch cs =>
    rw [List.takeWhile_cons, List.head?_cons, Option.any_some]
    cases hch : isMarkupSpace ch with
    | false => exact iff_of_false (Nat.lt_irrefl _) nofun
    | true =>
      have hpos := ch.utf8Size_pos
      rw [if_pos rfl, utf8Length_cons]
      exact iff_of_true (by omega) rfl

theorem takeWhile_eq {p : Char → Bool} (hp : ∀ ch, p ch = true → ch.toNat < 128)
    (h : c.Stands d n cs) : (c.takeWhile p).1 = cs.takeWhile p := by
  have hwhole : c.Stands d n (cs.takeWhile p ++ cs.dropWhile p) := by
    rwa [List.takeWhile_append_dropWhile]
  unfold Cursor.takeWhile
  dsimp only
  rw [hwhole.textBetween? (skipWhile_stands hp h)]
  rfl

/-! ## Names -/

theorem nameEnd_stands (h : c.Stands d n cs) : c.nameEnd.Stands d n (cs.dropWhile isNameChar) := by
  induction cs generalizing c with
  | nil =>
    unfold nameEnd
    split
    · rename_i ch hpeek
      rw [h.peekChar?] at hpeek
      cases hpeek
    · exact h
  | cons ch cs ih =>
    unfold nameEnd
    split
    · rename_i ch' hpeek
      rw [h.peekChar?] at hpeek
      obtain rfl : ch = ch' := Option.some.inj hpeek
      rw [List.dropWhile_cons]
      split
      · exact ih h.advanceChar
      · exact h
    · rename_i hpeek
      rw [h.peekChar?] at hpeek
      cases hpeek

theorem name_follows (limit : Nat) (h : c.Stands d n cs) :
    Follows text (Same d n) (c.name limit) (Scan.name limit cs) := by
  unfold Cursor.name
  rw [h.peekChar?]
  cases cs with
  | nil => exact .fail h fun _ => rfl
  | cons ch cs =>
    have hend := nameEnd_stands h.advanceChar
    have hwhole : c.Stands d n (ch :: cs.takeWhile isNameChar ++ cs.dropWhile isNameChar) := by
      rwa [List.cons_append, List.takeWhile_append_dropWhile]
    have hlength := hwhole.byteOffset_eq hend
    refine .ite Iff.rfl (fun _ => ?_) fun _ => .stop h rfl
    have hsame : (c.advanceChar ch).nameEnd.byteOffset - c.byteOffset =
        utf8Length (ch :: cs.takeWhile isNameChar) := by
      rw [hlength, Nat.add_sub_cancel_left, length_utf8Bytes]
    dsimp only
    rw [hsame, hwhole.textBetween? hend]
    exact .ite Iff.rfl (fun _ => .stop hend rfl) fun _ => .ok ⟨rfl, hend⟩

/-! ## Characters and runs -/

theorem nextChar_nil (h : c.Stands d n []) : c.nextChar = c.fail .endOfText := by
  unfold nextChar
  rw [h.peekChar?]
  rfl

/-- Of two characters that end a line the first only stands before the second. -/
theorem nextChar_lineEnd (h : c.Stands d n ('\r' :: '\n' :: cs)) :
    c.nextChar = (c.advanceChar '\r').nextChar := by
  have hnext := h.advanceChar
  have hat : (c.advanceChar '\r').isAt '\n' = true := (hnext.isAt (by decide)).2 rfl
  have hbyte : (c.advanceChar '\r').advance 1 = (c.advanceChar '\r').advanceChar '\n' :=
    (hnext.advance_one (by decide)).unique hnext.advanceChar
  unfold nextChar
  rw [h.peekChar?, hnext.peekChar?]
  dsimp only [List.head?_cons]
  rw [if_pos rfl, if_pos hat, if_neg (by decide), if_pos (by decide), hbyte]

/-- Otherwise a character is taken as it is when it contributes to a text. -/
theorem nextChar_follows (h : c.Stands d n (ch :: cs)) (hline : ch = '\r' → cs.head? ≠ some '\n') :
    Follows text (fun v a => v = [a.1] ∧ a.2.Stands d n cs) c.nextChar (contribution ch cs) := by
  have hnext := h.advanceChar
  unfold nextChar contribution
  rw [h.peekChar?]
  refine .ite Iff.rfl (fun hcr => ?_) fun _ => .ite Iff.rfl (fun _ => .ok ⟨rfl, hnext⟩) fun _ => ?_
  · have hat : (c.advanceChar ch).isAt '\n' = false := by
      rw [Bool.eq_false_iff, Ne, hnext.isAt (by decide)]
      exact hline hcr
    rw [if_neg (hline hcr), hat]
    exact .ok ⟨rfl, hnext⟩
  · exact .stop hnext rfl

/-- What is ahead of the cursor is what is at the front of the rest. At the end a run of the one kind
may go on to find that nothing is left, where one of the other kind is refused for it. -/
def Tells (a : Ahead) (cs : List Char) : Front → Prop
  | .ends rest => ∃ mark, cs = mark ++ rest ∧ a = .ends (utf8Bytes mark).length
  | .refused fault => (fault.isEnd = true → cs = []) ∧
      (a = .refused fault ∨ cs = [] ∧ fault = .endOfText ∧ a = .further)
  | .further => a = .further

theorem run_eq {input : ByteArray} (ahead : Cursor input → Ahead) (c : Cursor input) :
    c.run ahead = (match ahead c with
      | .ends width => .ok ([], c.advance width)
      | .refused fault => c.fail fault
      | .further => do
        let (ch, c') ← c.nextChar
        let (more, c'') ← c'.run ahead
        .ok (ch :: more, c'')) := by
  rw [run]
  cases ahead c with
  | ends width => rfl
  | refused fault => rfl
  | further =>
    dsimp only
    split
    · rename_i e h
      rw [h]
      rfl
    · rename_i ch c' h
      rw [h]
      rfl

variable {ahead : Cursor text.toUTF8 → Ahead} {front : List Char → Front}

theorem run_ends (ht : Tells (ahead c) cs (.ends rest)) (h : c.Stands d n cs) :
    Follows text (Same d n) (c.run ahead) (.ok ([], rest)) := by
  obtain ⟨mark, rfl, ha⟩ := ht
  rw [run_eq, ha]
  exact .ok ⟨rfl, h.advance⟩

theorem run_refused {fault : Fault} (ht : Tells (ahead c) cs (.refused fault))
    (h : c.Stands d n cs) : Follows text (Same d n) (c.run ahead) (haltAt fault cs) := by
  obtain ⟨hend, ha | ⟨rfl, rfl, ha⟩⟩ := ht
  · rw [run_eq, ha]
    exact .fail h hend
  · rw [run_eq, ha, nextChar_nil h]
    exact .fail h hend

theorem run_lineEnd (ht : ahead c = .further) (hnext : ahead (c.advanceChar '\r') = .further)
    (h : c.Stands d n ('\r' :: '\n' :: cs)) : c.run ahead = (c.advanceChar '\r').run ahead := by
  rw [run_eq, ht, nextChar_lineEnd h, run_eq ahead (c.advanceChar '\r'), hnext]

theorem run_follows (htells : ∀ {c cs}, c.Stands d n cs → Tells (ahead c) cs (front cs))
    (hline : ∀ cs, front ('\n' :: cs) = .further) (h : c.Stands d n cs) :
    Follows text (Same d n) (c.run ahead) (Scan.run front cs) := by
  induction cs generalizing c with
  | nil =>
    have ht := htells h
    unfold Scan.run
    cases hfront : front [] with
    | ends rest => exact run_ends (hfront ▸ ht) h
    | refused fault => exact run_refused (hfront ▸ ht) h
    | further =>
      rw [hfront] at ht
      rw [run_eq, ht, nextChar_nil h]
      exact .fail h fun _ => rfl
  | cons ch cs ih =>
    have ht := htells h
    unfold Scan.run
    cases hfront : front (ch :: cs) with
    | ends rest => exact run_ends (hfront ▸ ht) h
    | refused fault => exact run_refused (hfront ▸ ht) h
    | further =>
      rw [hfront] at ht
      by_cases hpair : ch = '\r' ∧ cs.head? = some '\n'
      · -- the line end is taken whole where the list loses only the carriage return
        obtain ⟨rfl, hhead⟩ := hpair
        obtain ⟨next, rfl⟩ := List.head?_eq_some_iff.1 hhead
        have hahead := htells h.advanceChar
        have hrest := ih h.advanceChar
        rw [hline] at hahead
        rw [run_lineEnd ht hahead h]
        cases hrun : Scan.run front ('\n' :: next) with
        | error e => rwa [hrun] at hrest
        | ok p => rwa [hrun] at hrest
      · rw [run_eq, ht]
        refine (nextChar_follows h fun hcr hhead => hpair ⟨hcr, hhead⟩).bind ?_
        rintro v ⟨ch', c'⟩ ⟨rfl, h'⟩
        refine (ih h').bind ?_
        rintro ⟨_, rest⟩ ⟨more, c''⟩ ⟨rfl, h''⟩
        exact .ok ⟨rfl, h''⟩

/-! ## Comments, CDATA sections, processing instructions -/

theorem Stands.lookingAt_iff (h : c.Stands d n cs) (mark : List Char) :
    c.lookingAt mark = true ↔ ∃ tail, cs = mark ++ tail := by
  rw [h.lookingAt, Option.isSome_iff_exists]
  exact exists_congr fun tail => after?_eq_some_iff

theorem Stands.lookingAt_mark {mark : List Char} (h : c.Stands d n (mark ++ rest)) :
    c.lookingAt mark = true :=
  (h.lookingAt_iff mark).2 ⟨rest, rfl⟩

theorem tells_ends {mark tail : List Char} (h : allAscii mark = true) :
    Tells (.ends mark.length) (mark ++ tail) (.ends tail) :=
  ⟨mark, rfl, by rw [length_utf8Bytes_ascii h]⟩

theorem tells_upTo {mark : List Char} (hne : mark ≠ []) (hmark : allAscii mark = true)
    (unfinished : Fault) (h : c.Stands d n cs) :
    Tells (Cursor.upTo mark unfinished c) cs (Scan.upTo mark unfinished cs) := by
  unfold Cursor.upTo Scan.upTo
  rw [h.atEnd, h.lookingAt]
  cases cs with
  | nil =>
    obtain ⟨m, ms, rfl⟩ := List.exists_cons_of_ne_nil hne
    exact ⟨fun _ => rfl, .inl rfl⟩
  | cons ch cs =>
    cases hafter : after? mark (ch :: cs) with
    | none => exact rfl
    | some tail =>
      show Tells (.ends mark.length) (ch :: cs) (.ends tail)
      rw [after?_eq_some_iff.1 hafter]
      exact tells_ends hmark

theorem tells_upToQuote {q : Char} (hq : q.toNat < 128) (h : c.Stands d n cs) :
    Tells (upToQuote q.toUInt8 c) cs (Scan.upTo [q] .endOfText cs) := by
  have hat : c.peek? = some q.toUInt8 ↔ cs.head? = some q := by
    rw [← h.isAt hq]
    exact beq_iff_eq.symm
  unfold upToQuote Scan.upTo
  cases cs with
  | nil =>
    rw [if_neg (mt hat.1 nofun)]
    exact ⟨fun _ => rfl, .inr ⟨rfl, rfl, rfl⟩⟩
  | cons ch cs =>
    unfold after?
    by_cases hch : q = ch
    · rw [if_pos (hat.2 (congrArg some hch.symm)), if_pos hch]
      exact ⟨[ch], rfl, by rw [← hch, length_utf8Bytes_ascii (allAscii_singleton hq)]; rfl⟩
    · rw [if_neg fun hpeek => hch (Option.some.inj (hat.1 hpeek)).symm, if_neg hch]
      exact rfl

theorem tells_comment (h : c.Stands d n cs) : Tells (commentAhead c) cs (commentFront cs) := by
  unfold commentAhead commentFront
  rw [h.atEnd, h.lookingAt, h.lookingAt]
  cases cs with
  | nil => exact ⟨fun _ => rfl, .inl rfl⟩
  | cons ch cs =>
    cases hafter : after? commentClose (ch :: cs) with
    | some tail =>
      show Tells (.ends commentClose.length) (ch :: cs) (.ends tail)
      rw [after?_eq_some_iff.1 hafter]
      exact tells_ends (by decide)
    | none =>
      cases hhyphens : after? ['-', '-'] (ch :: cs) with
      | some tail => exact ⟨nofun, .inl rfl⟩
      | none => exact rfl

theorem upTo_lineFeed {mark : List Char} (hmark : mark.head? ≠ some '\n') (hne : mark ≠ [])
    (unfinished : Fault) (cs : List Char) : Scan.upTo mark unfinished ('\n' :: cs) = .further := by
  obtain ⟨m, ms, rfl⟩ := List.exists_cons_of_ne_nil hne
  unfold Scan.upTo after?
  rw [if_neg fun h => hmark (congrArg some h)]
  rfl

theorem quoted_follows (h : c.Stands d n cs) :
    Follows text (Same d n) c.quoted (Scan.quoted cs) := by
  unfold Cursor.quoted
  cases cs with
  | nil =>
    rw [nextByte_nil h]
    exact .fail h fun _ => rfl
  | cons q cs =>
    obtain ⟨b, more, hbytes, hnext⟩ := nextByte_cons h
    rw [hnext]
    refine .ite ?_ (fun hq => ?_) fun _ => .stop_inside h rfl
    · rw [first_eq_iff hbytes (by decide), first_eq_iff hbytes (by decide)]
    · have hascii : q.toNat < 128 := by
        rcases hq with rfl | rfl <;> decide
      rw [(first_eq_iff hbytes hascii).2 rfl]
      refine run_follows (tells_upToQuote hascii) (upTo_lineFeed ?_ (List.cons_ne_nil q []) _)
        (h.advance_one hascii)
      rcases hq with rfl | rfl <;> decide

theorem comment_follows (h : c.Stands d n cs) : Follows text (Same d n) c.comment
    (Scan.expectAll commentOpen cs >>= Scan.comment) :=
  (expectAll_follows (by decide) h).bind fun _ _ h' => run_follows tells_comment (fun _ => rfl) h'

theorem cdata_follows (h : c.Stands d n cs) : Follows text (Same d n) c.cdata
    (Scan.expectAll cdataOpen cs >>= Scan.cdata) :=
  (expectAll_follows (by decide) h).bind fun _ _ h' =>
    run_follows (tells_upTo (by decide) (by decide) _) (upTo_lineFeed (by decide) (by decide) _) h'

theorem instruction_follows (limit : Nat) (h : c.Stands d n cs) :
    Follows text (Same d n) (c.instruction limit)
      (Scan.expectAll instructionOpen cs >>= Scan.instruction limit) := by
  refine (expectAll_follows (by decide) h).bind fun rest c' h' => ?_
  refine (name_follows limit h').bind ?_
  rintro ⟨_, rest⟩ ⟨target, c'⟩ ⟨rfl, h'⟩
  have hspace := skipSpace_stands h'
  refine .ite Iff.rfl (fun _ => .stop h' rfl) fun _ => .ite ?_ (fun _ => ?_) fun hnone => ?_
  · rw [space_eq h']
  · refine (run_follows (tells_upTo (by decide) (by decide) _)
      (upTo_lineFeed (by decide) (by decide) _) hspace).bind ?_
    rintro ⟨_, rest⟩ ⟨data, c''⟩ ⟨rfl, h''⟩
    exact .ok ⟨rfl, h''⟩
  · rw [skipSpace_of_not_startsWithSpace hnone] at hspace
    refine (expectAll_follows (by decide) hspace).bind fun rest c'' h'' => .ok ⟨rfl, h''⟩

end Cursor

end MarkupFields
