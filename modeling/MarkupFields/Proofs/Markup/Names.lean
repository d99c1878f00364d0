import Mathlib.Data.List.TakeWhile
import MarkupFields.Proofs.Markup.Runs

/-
  Names and processing instructions, read and written. A name that was read is a name; written again
  before a character that cannot go on a name, it is read back, as long as it is no longer than the
  limit. The target of an instruction is a name; the data that was read begins with something other
  than space, since the space before the data is passed over (`readData`).
-/

namespace MarkupFields.Scan

open Text

/-! ## Names -/

/-- The word is rightly started and rightly gone on with. -/
def IsName (word : List Char) : Prop :=
  ∃ c cs, word = c :: cs ∧ isNameStart c = true ∧ ∀ d ∈ cs, isNameChar d = true

/-- No character at the front could go on a name. -/
def EndsName (cs : List Char) : Prop :=
  ∀ c ∈ cs.head?, isNameChar c = false

theorem isName_cons {c : Char} {cs : List Char} (h : isNameStart c = true)
    (hall : cs.all isNameChar = true) : IsName (c :: cs) :=
  ⟨c, cs, rfl, h, List.all_eq_true.1 hall⟩

theorem IsName.isNameChar {word : List Char} (h : IsName word) {d : Char} (hd : d ∈ word) :
    isNameChar d = true := by
  obtain ⟨c, cs, rfl, hc, hcs⟩ := h
  rw [List.mem_cons] at hd
  rcases hd with rfl | hd
  · exact isNameChar_of_isNameStart hc
  · exact hcs d hd

/-- A name begins with no character that cannot start one. -/
theorem IsName.head_ne {word : List Char} (h : IsName word) {c : Char}
    (hc : isNameStart c = false) (rest : List Char) : (word ++ rest).head? ≠ some c := by
  obtain ⟨d, cs, rfl, hd, -⟩ := h
  rw [List.cons_append, List.head?_cons, ne_eq, Option.some.injEq]
  rintro rfl
  rw [hc] at hd
  cases hd

theorem name_cons (limit : Nat) (c : Char) (cs : List Char) :
    name limit (c :: cs) =
      if isNameStart c then
        if utf8Length (c :: cs.takeWhile isNameChar) > limit then
          haltAt (.nameTooLong (utf8Length (c :: cs.takeWhile isNameChar)) limit)
            (cs.dropWhile isNameChar)
        else .ok (c :: cs.takeWhile isNameChar, cs.dropWhile isNameChar)
      else haltAt (.badNameStart c) (c :: cs) := rfl

/-- What was read as a name is a name, within the limit, and as long as it can be. -/
theorem isName_of_name {limit : Nat} {cs word rest : List Char}
    (h : name limit cs = .ok (word, rest)) :
    IsName word ∧ utf8Length word ≤ limit ∧ EndsName rest := by
  cases cs with
  | nil => cases h
  | cons c cs =>
    rw [name_cons] at h
    by_cases hc : isNameStart c = true
    · rw [if_pos hc] at h
      by_cases hl : utf8Length (c :: cs.takeWhile isNameChar) > limit
      · rw [if_pos hl] at h
        cases h
      · rw [if_neg hl, Except.ok.injEq, Prod.mk.injEq] at h
        obtain ⟨rfl, rfl⟩ := h
        refine ⟨⟨c, _, rfl, hc, fun d hd => List.mem_takeWhile_imp hd⟩, Nat.not_lt.1 hl, ?_⟩
        intro d hd
        have := List.head?_dropWhile_not isNameChar cs
        rw [Option.mem_def.1 hd] at this
        simpa using this
    · rw [if_neg hc] at h
      cases h

theorem name_written {limit : Nat} {word rest : List Char} (h : IsName word)
    (hl : utf8Length word ≤ limit) (hr : EndsName rest) :
    name limit (word ++ rest) = .ok (word, rest) := by
  obtain ⟨c, cs, rfl, hc, hcs⟩ := h
  have htake : rest.takeWhile isNameChar = [] := by
    cases rest with
    | nil => rfl
    | cons d rest =>
      have hd : isNameChar d = false := hr d rfl
      rw [List.takeWhile_cons, hd]
      rfl
  have hdrop : rest.dropWhile isNameChar = rest := by
    cases rest with
    | nil => rfl
    | cons d rest =>
      have hd : isNameChar d = false := hr d rfl
      rw [List.dropWhile_cons, hd]
      rfl
  have hword : (cs ++ rest).takeWhile isNameChar = cs := by
    rw [List.takeWhile_append_of_pos hcs, htake, List.append_nil]
  have hrest : (cs ++ rest).dropWhile isNameChar = rest := by
    rw [List.dropWhile_append_of_pos hcs, hdrop]
  rw [List.cons_append]
  rw [name_cons, if_pos hc, hword, hrest, if_neg (Nat.not_lt.2 hl)]

/-! ## Space -/

theorem skipSpace_of_head {cs : List Char} (h : ∀ c ∈ cs.head?, isMarkupSpace c = false) :
    skipSpace cs = cs := by
  cases cs with
  | nil => rfl
  | cons c cs =>
    have hc : isMarkupSpace c = false := h c rfl
    unfold skipSpace
    rw [List.dropWhile_cons, hc]
    rfl

theorem skipSpace_append {s : List Char} {c : Char} (hs : ∀ d ∈ s, isMarkupSpace d = true)
    (hc : isMarkupSpace c = false) (rest : List Char) : skipSpace (s ++ c :: rest) = c :: rest := by
  unfold skipSpace
  rw [List.dropWhile_append_of_pos hs, List.dropWhile_cons_of_neg (by rw [hc]; decide)]

/-- What is not space ends the space before it. -/
theorem skipSpace_append_cons {c : Char} (hc : isMarkupSpace c = false) (s rest : List Char) :
    skipSpace (s ++ c :: rest) = skipSpace s ++ c :: rest := by
  unfold skipSpace
  rw [List.dropWhile_append]
  split
  · rename_i hempty
    rw [List.isEmpty_iff.1 hempty, List.dropWhile_cons_of_neg (by rw [hc]; decide)]
    rfl
  · rfl

theorem skipSpace_blank (cs : List Char) : skipSpace (' ' :: cs) = skipSpace cs := by
  unfold skipSpace
  rw [List.dropWhile_cons]
  rfl

theorem head_skipSpace (cs : List Char) : ∀ c ∈ (skipSpace cs).head?, isMarkupSpace c = false := by
  intro c hc
  have := List.head?_dropWhile_not isMarkupSpace cs
  unfold skipSpace at hc
  rw [Option.mem_def.1 hc] at this
  simpa using this

/-- Space is not taken to be part of a name. -/
theorem isNameChar_of_isMarkupSpace {c : Char} (h : isMarkupSpace c = true) :
    isNameChar c = false := by
  simp only [isMarkupSpace, Bool.or_eq_true, beq_iff_eq] at h
  rcases h with ((h | h) | h) | h <;> subst h <;> decide

/-- Space may stand in a document. -/
theorem isXmlChar_of_isMarkupSpace {c : Char} (h : isMarkupSpace c = true) :
    isXmlChar c = true := by
  simp only [isMarkupSpace, Bool.or_eq_true, beq_iff_eq] at h
  rcases h with ((h | h) | h) | h <;> subst h <;> decide

theorem isNameStart_of_isMarkupSpace {c : Char} (h : isMarkupSpace c = true) :
    isNameStart c = false := by
  have := isNameChar_of_isMarkupSpace h
  unfold isNameChar at this
  rw [Bool.or_eq_false_iff] at this
  exact this.1

theorem skipSpace_name {word : List Char} (h : IsName word) (rest : List Char) :
    skipSpace (word ++ rest) = word ++ rest := by
  refine skipSpace_of_head ?_
  intro c hc
  by_contra hs
  rw [Bool.not_eq_false] at hs
  exact h.head_ne (isNameStart_of_isMarkupSpace hs) rest hc

/-! ## Processing instructions -/

/-- The target of an instruction is a name other than the reserved one. -/
def IsTarget (target : List Char) : Prop :=
  IsName target ∧ target.map Char.toLower ≠ ['x', 'm', 'l']

/-- The data of an instruction: free of the end mark, not empty and without space before it. -/
def InstructionText (data : List Char) : Prop :=
  Ended ['?'] '>' data ∧ ∃ c cs, data = c :: cs ∧ isMarkupSpace c = false

/-- Data begins with the character that was at the front. -/
theorem head_of_run_upTo {mark cs v rest : List Char} {fault : Fault}
    (h : run (upTo mark fault) cs = .ok (v, rest)) (hs : ∀ c ∈ cs.head?, isMarkupSpace c = false)
    (hv : v ≠ []) : ∃ c more, v = c :: more ∧ isMarkupSpace c = false := by
  rcases run_eq_ok h with ⟨rfl, -⟩ | ⟨c, next, first, more, rfl, -, hfirst, -, rfl⟩
  · exact absurd rfl hv
  · have hc : isMarkupSpace c = false := hs c rfl
    rcases contribution_eq_ok hfirst with ⟨rfl, -⟩ | ⟨-, rfl⟩ | ⟨-, rfl, -⟩
    · exact ⟨c, more, rfl, hc⟩
    · cases hc
    · cases hc

theorem instruction_eq_ok {limit : Nat} {cs target rest : List Char} {data : Option (List Char)}
    (h : instruction limit cs = .ok ((target, data), rest)) :
    IsTarget target ∧ utf8Length target ≤ limit ∧ ∀ d ∈ data, InstructionText d := by
  unfold instruction at h
  obtain ⟨⟨word, cs'⟩, hp, h⟩ := bind_eq_ok.1 h
  obtain ⟨hname, hlen, -⟩ := isName_of_name hp
  dsimp only at h
  split at h
  · cases h
  · rename_i hx
    split at h
    · obtain ⟨q, hq, h⟩ := bind_eq_ok.1 h
      rw [Except.ok.injEq, Prod.mk.injEq, Prod.mk.injEq] at h
      obtain ⟨⟨rfl, rfl⟩, -⟩ := h
      refine ⟨⟨hname, hx⟩, hlen, ?_⟩
      intro d hd
      split at hd
      · cases hd
      · rename_i hne
        rw [Option.mem_some] at hd
        subst hd
        have hv : q.1 ≠ [] := by
          intro he
          rw [he] at hne
          exact hne rfl
        exact ⟨ended_of_run (u := ['?']) (z := '>') (by decide) hq,
          head_of_run_upTo hq (head_skipSpace _) hv⟩
    · obtain ⟨q, -, h⟩ := bind_eq_ok.1 h
      rw [Except.ok.injEq, Prod.mk.injEq, Prod.mk.injEq] at h
      obtain ⟨⟨rfl, rfl⟩, -⟩ := h
      refine ⟨⟨hname, hx⟩, hlen, ?_⟩
      intro d hd
      cases hd

theorem instruction_written_bare {limit : Nat} {target : List Char} (h : IsTarget target)
    (hl : utf8Length target ≤ limit) (rest : List Char) :
    instruction limit (target ++ (instructionClose ++ rest)) = .ok ((target, none), rest) := by
  have hr : EndsName (instructionClose ++ rest) := by
    intro c hc
    rw [← Option.some.inj hc]
    decide
  have hs : startsWithSpace (instructionClose ++ rest) = false := rfl
  have hclose : expectAll instructionClose (instructionClose ++ rest) = .ok rest :=
    expectAll_eq_ok_iff.2 rfl
  simp only [instruction, bind, Except.bind, name_written h.1 hl hr, if_neg h.2, hs, hclose]
  rfl

/-- The data of an instruction as it is read: the space before it is passed over, line ends are made
equal, and data that is empty is no data. -/
def readData (data : List Char) : Option (List Char) :=
  if (lineEnds (skipSpace data)).isEmpty then none else some (lineEnds (skipSpace data))

/-- An instruction without the end mark in its data is read up to the end mark. -/
theorem instruction_raw {limit : Nat} {target data : List Char} (h : IsTarget target)
    (hl : utf8Length target ≤ limit) (hd : ∀ c ∈ data, isXmlChar c = true)
    (hm : ¬ instructionClose <:+: data) (rest : List Char) :
    instruction limit (target ++ ' ' :: (data ++ (instructionClose ++ rest))) =
      .ok ((target, readData data), rest) := by
  have hr : EndsName (' ' :: (data ++ (instructionClose ++ rest))) := by
    intro d hd
    rw [← Option.some.inj hd]
    decide
  have hs : startsWithSpace (' ' :: (data ++ (instructionClose ++ rest))) = true := rfl
  have hskip : skipSpace (' ' :: (data ++ (instructionClose ++ rest))) =
      skipSpace data ++ (instructionClose ++ rest) := by
    rw [skipSpace_blank]
    exact skipSpace_append_cons (by decide) data _
  have hsuffix : skipSpace data <:+ data := List.dropWhile_suffix _
  have hrun : run (upTo instructionClose (.endInside .instruction))
      (skipSpace data ++ (instructionClose ++ rest)) = .ok (lineEnds (skipSpace data), rest) :=
    run_upTo_raw (u := ['?']) (by decide) (by decide) (fun c hc => hd c (hsuffix.subset hc))
      (fun hi => hm (hi.trans hsuffix.isInfix)) rest
  simp only [instruction, bind, Except.bind, name_written h.1 hl hr, if_neg h.2, hs, hskip, hrun]
  rfl

/-- Data that was read is read as it is. -/
theorem InstructionText.readData_eq {data : List Char} (h : InstructionText data) :
    readData data = some data := by
  obtain ⟨hend, c, cs, rfl, hc⟩ := h
  have hskip : skipSpace (c :: cs) = c :: cs := by
    refine skipSpace_of_head fun d hd => ?_
    rw [← Option.some.inj hd]
    exact hc
  unfold readData
  rw [hskip, lineEnds_of_not_mem hend.1.not_mem]
  rfl

end MarkupFields.Scan
