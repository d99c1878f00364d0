import MarkupFields.Proofs.Path.Grammar
import MarkupFields.Proofs.Text.Bytes

/-
  Where an expression is refused. Segments are read from the left, and the first one that does not fit
  is where the fault is: those before it are steps, so the expression that is cut off in front of it is
  read, and the byte that is reported lies in it or directly behind it, never inside a character
  (`parse_error_failsAt`). Each part of a reader reports such a byte of its own part of the text
  (`SeenIn`); the parts around it only move the beginning. Nothing is said here about which fault is
  reported.
-/

namespace MarkupFields

namespace Path

open Text

/-! ## Bytes at which faults are seen -/

/-- The position is a byte of a text that begins at the given byte, or the one behind the text: whole
characters of the text stand before it. -/
def SeenIn (start : Nat) (text : List Char) (position : Nat) : Prop :=
  ∃ seen, seen <+: text ∧ position = start + utf8Length seen

namespace SeenIn

variable {start position : Nat} {text whole : List Char}

theorem first (start : Nat) (text : List Char) : SeenIn start text start :=
  ⟨[], List.nil_prefix, rfl⟩

theorem of_front (h : SeenIn start text position) (hp : text <+: whole) :
    SeenIn start whole position := by
  obtain ⟨seen, hseen, rfl⟩ := h
  exact ⟨seen, hseen.trans hp, rfl⟩

/-- What is seen in the end of a text is seen in the text. -/
theorem of_append {front : List Char} (h : SeenIn (start + utf8Length front) text position) :
    SeenIn start (front ++ text) position := by
  obtain ⟨seen, hseen, rfl⟩ := h
  exact ⟨front ++ seen, (List.prefix_append_right_inj front).2 hseen, by
    rw [utf8Length_append, Nat.add_assoc]⟩

end SeenIn

/-! ## Parts of a segment -/

theorem position_of_checkName {pos : Nat} {q : QName} {e : PathError}
    (h : readName.checkName pos q = .error e) : e.position = pos := by
  unfold readName.checkName at h
  split at h
  · cases h
    rfl
  · split at h
    · cases h
      rfl
    · cases h

/-- A prefix stands with its colon at the front of the characters that it was read from. -/
theorem prefix_of_nsPrefix {cs : List Char} {p : String}
    (h : (QName.ofChars cs).nsPrefix = some p) : p.toList ++ [':'] <+: cs := by
  have hwritten := congrArg String.toList (QName.written_ofChars cs)
  unfold QName.written at hwritten
  rw [h, String.toList_ofList] at hwritten
  dsimp only at hwritten
  rw [String.toList_append, String.toList_append] at hwritten
  exact ⟨_, hwritten⟩

/-- A name is faulty at its beginning, or at the beginning of what follows its prefix. -/
theorem seenIn_of_readName {pos : Nat} {cs : List Char} {e : PathError}
    (h : readName pos cs = .error e) : SeenIn pos cs e.position := by
  unfold readName at h
  dsimp only at h
  split at h
  · rw [position_of_checkName h]
    exact .first pos cs
  · rename_i p hp
    split at h
    · cases h
      exact .first pos cs
    · split at h
      · cases h
        exact .first pos cs
      · refine ⟨p.toList ++ [':'], prefix_of_nsPrefix hp, ?_⟩
        rw [position_of_checkName h, utf8Length_append, utf8Length_toList, Nat.add_assoc]
        rfl

theorem position_of_readIndex {pos : Nat} {digits : List Char} {e : PathError}
    (h : readIndex pos digits = .error e) : e.position = pos := by
  unfold readIndex at h
  split at h
  · cases h
    rfl
  · split at h
    · cases h
      rfl
    · split at h
      · cases h
        rfl
      · cases h

/-! ## Segments -/

theorem seenIn_of_readAttribute {pos : Nat} {cs : List Char} {e : PathError}
    (h : readAttribute pos cs = .error e) : SeenIn pos cs e.position := by
  unfold readAttribute at h
  dsimp only at h
  split at h
  · cases h
    exact ⟨_, List.takeWhile_prefix _, rfl⟩
  · split at h
    · cases h
      exact ⟨_, List.takeWhile_prefix _, rfl⟩
    · obtain h | ⟨q, -, h⟩ := bind_eq_error.1 h
      · exact seenIn_of_readName h
      · cases h

theorem seenIn_of_readStep {pos : Nat} {cs : List Char} {e : PathError}
    (h : readStep pos cs = .error e) : SeenIn pos cs e.position := by
  unfold readStep at h
  dsimp only at h
  have hcs := List.takeWhile_append_dropWhile (p := (· != '[')) (l := cs)
  split at h
  · rename_i d inside hdrop
    rw [hdrop] at hcs
    split at h
    · obtain h | ⟨n, -, h⟩ := bind_eq_error.1 h
      · obtain rfl := eq_of_dropWhile_bne hdrop
        refine ⟨cs.takeWhile (· != '[') ++ ['['], ⟨inside, ?_⟩, ?_⟩
        · rw [List.append_assoc]
          exact hcs
        · rw [position_of_readIndex h, utf8Length_append, Nat.add_assoc]
          rfl
      · obtain h | ⟨q, -, h⟩ := bind_eq_error.1 h
        · exact (seenIn_of_readName h).of_front (List.takeWhile_prefix _)
        · cases h
    · cases h
      exact ⟨cs, List.prefix_refl cs, rfl⟩
  · split at h
    · cases h
      exact ⟨_, List.takeWhile_prefix _, rfl⟩
    · obtain h | ⟨q, -, h⟩ := bind_eq_error.1 h
      · exact seenIn_of_readName h
      · cases h

/-- A fault of a segment is seen in it. -/
theorem seenIn_of_readSegment {pos : Nat} {text : List Char} {e : PathError}
    (h : readSegment pos text = .error e) : SeenIn pos text e.position := by
  unfold readSegment at h
  split at h
  · cases h
    exact .first pos []
  · rename_i cs
    show SeenIn pos (['@'] ++ cs) e.position
    exact SeenIn.of_append (seenIn_of_readAttribute h)
  · exact seenIn_of_readStep h

/-- A segment may be spelled so in front of the given ones: it is a step, or an attribute and the last
segment. -/
def Fits (text : List Char) (more : List (List Char)) : Prop :=
  ∃ segment, SpelledSegment text segment ∧ (more ≠ [] → ∃ s, segment = .element s)

/-- The first segment that does not fit is where the fault is. -/
theorem exists_of_readSegments {pos : Nat} {texts : List (List Char)} {e : PathError}
    (h : readSegments pos texts = .error e) :
    ∃ before text more, texts = before ++ text :: more ∧
      (∀ t ∈ before, ∃ s, SpelledStep t s) ∧ ¬ Fits text more ∧
      SeenIn (pos + utf8Length (before.flatMap ('/' :: ·))) text e.position := by
  induction texts generalizing pos with
  | nil => cases h
  | cons text more ih =>
    rw [readSegments] at h
    obtain h | ⟨segment, hsegment, h⟩ := bind_eq_error.1 h
    · refine ⟨[], text, more, rfl, fun t ht => absurd ht List.not_mem_nil, ?_, ?_⟩
      · rintro ⟨segment, hspelled, -⟩
        rw [readSegment_eq_ok_iff.2 hspelled] at h
        cases h
      · exact seenIn_of_readSegment h
    · have hspelled := readSegment_eq_ok_iff.1 hsegment
      cases segment with
      | attr q =>
        dsimp only at h
        split at h
        · cases h
        · rename_i hmore
          cases h
          refine ⟨[], text, more, rfl, fun t ht => absurd ht List.not_mem_nil, ?_, .first pos text⟩
          rintro ⟨segment, hspelled', hstep⟩
          obtain ⟨s, rfl⟩ := hstep (mt List.isEmpty_iff.2 hmore)
          have hboth : readSegment pos text = .ok (.element s) := readSegment_eq_ok_iff.2 hspelled'
          rw [hsegment] at hboth
          cases hboth
      | element s =>
        obtain h | ⟨p, -, h⟩ := bind_eq_error.1 h
        · obtain ⟨before, text', more', rfl, hbefore, hfits, hseen⟩ := ih h
          refine ⟨text :: before, text', more', rfl, ?_, hfits, ?_⟩
          · refine List.forall_mem_cons.2 ⟨⟨s, ?_⟩, hbefore⟩
            cases hspelled with
            | element step => exact step
          · have hstart : pos + utf8Length text + 1 + utf8Length (before.flatMap ('/' :: ·)) =
                pos + utf8Length ((text :: before).flatMap ('/' :: ·)) := by
              rw [List.flatMap_cons, utf8Length_append, utf8Length_cons,
                show ('/').utf8Size = 1 from rfl]
              omega
            rwa [hstart] at hseen
        · cases h

/-! ## Expressions -/

/-- An expression is refused in a segment: the segments before it are steps and the segment does not
fit; the position lies between the first byte of the segment and the one behind it, at a place where
the expression can be cut; and what is cut off in front of the segment, unless it is nothing, is read
as a path to an element. -/
structure FailsAt (s : String) (position : Nat) (before : List (List Char)) (text : List Char)
    (more : List (List Char)) : Prop where
  segments : s.toList.splitOn '/' = [] :: (before ++ text :: more)
  earlier : ∀ t ∈ before, ∃ x, SpelledStep t x
  offends : ¬ Fits text more
  cut : before.flatMap ('/' :: ·) ++ '/' :: text <+: s.toList
  low : utf8Length (before.flatMap ('/' :: ·) ++ ['/']) ≤ position
  high : position ≤ utf8Length (before.flatMap ('/' :: ·) ++ '/' :: text)
  bound : position ≤ s.utf8ByteSize
  boundary : String.Pos.Raw.IsValid s ⟨position⟩
  read : before ≠ [] → ∃ p, parse (String.ofList (before.flatMap ('/' :: ·))) = .ok p ∧ p.attr = none

/-- Steps one by one are a row of steps. -/
theorem exists_forall₂_of_steps {texts : List (List Char)}
    (h : ∀ t ∈ texts, ∃ x, SpelledStep t x) :
    ∃ steps : List Step, List.Forall₂ SpelledSegment texts (steps.map Segment.element) := by
  induction texts with
  | nil => exact ⟨[], .nil⟩
  | cons text texts ih =>
    obtain ⟨⟨x, hx⟩, hrest⟩ := List.forall_mem_cons.1 h
    obtain ⟨steps, hsteps⟩ := ih hrest
    exact ⟨x :: steps, .cons (.element hx) hsteps⟩

/-- Steps behind slashes, at least one, are read as a path to an element. -/
theorem parse_of_steps {texts : List (List Char)} (h : ∀ t ∈ texts, ∃ x, SpelledStep t x)
    (hne : texts ≠ []) :
    ∃ p, parse (String.ofList (texts.flatMap ('/' :: ·))) = .ok p ∧ p.attr = none := by
  obtain ⟨steps, hsteps⟩ := exists_forall₂_of_steps h
  refine ⟨⟨steps, none⟩, parse_of_spelled ⟨texts, hne, String.toList_ofList, ?_⟩, rfl⟩
  rw [show segments ⟨steps, none⟩ = steps.map Segment.element from List.append_nil _]
  exact hsteps

/-- An expression that begins with a slash and is not read fails in the first segment that does not
fit. -/
theorem parse_error_failsAt {s : String} {e : PathError} (hs : s.toList.head? = some '/')
    (h : parse s = .error e) : ∃ before text more, FailsAt s e.position before text more := by
  obtain ⟨body, hbody⟩ := List.head?_eq_some_iff.1 hs
  unfold parse at h
  rw [hbody] at h
  change readSegments 1 (parts body) = .error e at h
  rw [parts_eq_splitOn] at h
  obtain ⟨before, text, more, htexts, hbefore, hfits, seen, hseen, hposition⟩ :=
    exists_of_readSegments h
  have hwhole : before.flatMap ('/' :: ·) ++ '/' :: (text ++ more.flatMap ('/' :: ·)) =
      s.toList := by
    rw [hbody, ← flatMap_splitOn body, htexts, List.flatMap_append, List.flatMap_cons,
      List.cons_append]
  have hcut : before.flatMap ('/' :: ·) ++ '/' :: text <+: s.toList := by
    rw [← hwhole, List.prefix_append_right_inj, List.cons_prefix_cons]
    exact ⟨rfl, List.prefix_append _ _⟩
  have hseen' : before.flatMap ('/' :: ·) ++ '/' :: seen <+:
      before.flatMap ('/' :: ·) ++ '/' :: text := by
    rw [List.prefix_append_right_inj, List.cons_prefix_cons]
    exact ⟨rfl, hseen⟩
  have hbytes : e.position = utf8Length (before.flatMap ('/' :: ·) ++ '/' :: seen) := by
    rw [hposition, utf8Length_append, utf8Length_cons, show ('/').utf8Size = 1 from rfl]
    omega
  have hvalid := isValid_utf8Length (hseen'.trans hcut)
  rw [← hbytes] at hvalid
  refine ⟨before, text, more, ?_, hbefore, hfits, hcut, ?_, ?_, hvalid.le_rawEndPos, hvalid,
    parse_of_steps hbefore⟩
  · rw [hbody, List.splitOn_cons_eq_if_modifyHead, if_pos (beq_self_eq_true '/'), htexts]
  · rw [hbytes]
    refine utf8Length_mono ((List.prefix_append_right_inj _).2 ?_)
    exact ⟨seen, rfl⟩
  · rw [hbytes]
    exact utf8Length_mono hseen'

/-- A fault behind a prefix, in a segment with others before and behind it, in bytes. -/
theorem parse_error_failsAt_prefixed :
    let s := "/é[2]/x:1/@a"
    let e : PathError := ⟨.badName "1", 9⟩
    (s.toList.head? = some '/' ∧ parse s = .error e) ∧
      ∃ before text more, FailsAt s e.position before text more := by
  intro s e
  have hs : s.toList.head? = some '/' := by decide
  have h : parse s = .error e := by decide
  exact ⟨⟨hs, h⟩, parse_error_failsAt hs h⟩

end Path

end MarkupFields
