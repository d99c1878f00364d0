import MarkupFields.Path
import MarkupFields.Proofs.Markup.Legal
import MarkupFields.Proofs.Number.Numerals
import MarkupFields.Proofs.Sequence
import Mathlib.Data.List.Forall2

/-
  The grammar of path expressions. An expression is a row of segments, each behind a slash; a segment
  is a name, perhaps with a position in square brackets, and the last one may be an attribute instead.
  Each part of a reader accepts exactly the spellings of its part of the grammar, and what it gives is
  what is spelled (`readName_eq_ok_iff` and the like); so a path is read from exactly the expressions
  that spell it (`parse_eq_ok_iff_spelled`).

  No sign of the grammar stands in a name or in a numeral: this is why the first bracket, the last one
  and each slash stand where the grammar has them. Nothing is said here about the faults that are
  reported of other expressions.
-/

namespace MarkupFields

open Text Scan

/-- Of two rows that match member by member, each member of the second has its own in the first. -/
theorem exists_of_forall₂ {α β : Type} {r : α → β → Prop} {as : List α} {bs : List β}
    (h : List.Forall₂ r as bs) : ∀ b ∈ bs, ∃ a ∈ as, r a b := by
  induction h with
  | nil => exact fun b hb => absurd hb List.not_mem_nil
  | @cons a b as bs hab _ ih =>
    rw [List.forall_mem_cons]
    refine ⟨⟨a, List.mem_cons_self, hab⟩, fun b' hb' => ?_⟩
    obtain ⟨a', ha', hr⟩ := ih b' hb'
    exact ⟨a', List.mem_cons_of_mem a ha', hr⟩

namespace Path

/-! ## The grammar -/

/-- A name as it is spelled: an NCName, perhaps with another one for a prefix and a colon between. -/
inductive SpelledName : List Char → QName → Prop where
  | plain {name : List Char} (named : isNCNameChars name = true) :
    SpelledName name ⟨none, String.ofList name⟩
  | prefixed {before name : List Char} (chosen : isNCNameChars before = true)
    (named : isNCNameChars name = true) :
    SpelledName (before ++ ':' :: name) ⟨some (String.ofList before), String.ofList name⟩

/-- A position as it is spelled: ASCII digits of a number from one up to the bound. Zeros in front do
not count. -/
structure SpelledIndex (digits : List Char) (n : Nat) : Prop where
  nonempty : digits ≠ []
  all : ∀ c ∈ digits, c.isDigit = true
  denotes : Nat.ofDigitChars 10 digits 0 = n
  range : 1 ≤ n ∧ n < indexBound

/-- A step as it is spelled: its name, and perhaps a position in square brackets. -/
inductive SpelledStep : List Char → Step → Prop where
  | first {cs : List Char} {q : QName} (name : SpelledName cs q) : SpelledStep cs ⟨q, none⟩
  | indexed {cs digits : List Char} {q : QName} {n : Nat} (name : SpelledName cs q)
    (index : SpelledIndex digits n) : SpelledStep (cs ++ '[' :: (digits ++ [']'])) ⟨q, some n⟩

/-- A segment as it is spelled: a step, or an attribute with its mark. -/
inductive SpelledSegment : List Char → Segment → Prop where
  | element {cs : List Char} {s : Step} (step : SpelledStep cs s) : SpelledSegment cs (.element s)
  | attr {cs : List Char} {q : QName} (name : SpelledName cs q) :
    SpelledSegment ('@' :: cs) (.attr q)

/-- An expression of the path: its segments in order, at least one, each behind a slash. -/
def Spelled (cs : List Char) (p : Path) : Prop :=
  ∃ texts : List (List Char), texts ≠ [] ∧ cs = texts.flatMap ('/' :: ·) ∧
    List.Forall₂ SpelledSegment texts p.segments

/-! ## Signs of the grammar -/

/-- The signs that stand between the parts of an expression. -/
def signs : List Char := ['/', '@', '[', ']']

/-- No sign stands in a name. -/
theorem not_mem_name {word : List Char} (h : IsName word) {c : Char} (hc : c ∈ signs) :
    c ∉ word := by
  have hsigns : (signs.all fun d => !isNameChar d) = true := by decide
  intro hm
  have hsign := List.all_eq_true.1 hsigns c hc
  rw [h.isNameChar hm] at hsign
  cases hsign

theorem bne_of_not_mem {c : Char} {cs : List Char} (h : c ∉ cs) : ∀ d ∈ cs, (d != c) = true := by
  intro d hd
  rw [bne_iff_ne]
  rintro rfl
  exact h hd

/-- What is left where a character was looked for begins with it. -/
theorem eq_of_dropWhile_bne {c d : Char} {cs rest : List Char}
    (h : cs.dropWhile (· != c) = d :: rest) : d = c := by
  have hhead := List.head?_dropWhile_not (· != c) cs
  rw [h] at hhead
  exact bne_eq_false_iff_eq.1 hhead

/-! ## Names -/

/-- A qualified name is spelled as it is written, and nothing else is. -/
theorem spelledName_iff {cs : List Char} {q : QName} :
    SpelledName cs q ↔ q.isQualified = true ∧ q.written.toList = cs := by
  have hjoin : ∀ a b : String, (a ++ ":" ++ b).toList = a.toList ++ ':' :: b.toList := by
    intro a b
    rw [String.toList_append, String.toList_append, List.append_assoc]
    rfl
  constructor
  · intro h
    cases h with
    | plain named =>
      refine ⟨?_, String.toList_ofList⟩
      show (true && isNCNameChars _) = true
      rw [String.toList_ofList, named, Bool.and_self]
    | prefixed chosen named =>
      refine ⟨?_, ?_⟩
      · show (isNCNameChars _ && isNCNameChars _) = true
        rw [String.toList_ofList, String.toList_ofList, chosen, named, Bool.and_self]
      · show (String.ofList _ ++ ":" ++ String.ofList _).toList = _
        rw [hjoin, String.toList_ofList, String.toList_ofList]
  · rintro ⟨hq, rfl⟩
    obtain ⟨nsPrefix, localName⟩ := q
    obtain ⟨hchosen, hlocal⟩ := Bool.and_eq_true_iff.1 hq
    cases nsPrefix with
    | none =>
      have h := SpelledName.plain (show isNCNameChars localName.toList = true from hlocal)
      rwa [String.ofList_toList] at h
    | some p =>
      have h := SpelledName.prefixed (show isNCNameChars p.toList = true from hchosen)
        (show isNCNameChars localName.toList = true from hlocal)
      rwa [String.ofList_toList, String.ofList_toList, ← hjoin] at h

theorem SpelledName.isName {cs : List Char} {q : QName} (h : SpelledName cs q) : IsName cs := by
  obtain ⟨hq, rfl⟩ := spelledName_iff.1 h
  exact (QName.writable_of_isQualified hq).isName

theorem ne_empty_of_isNCName {s : String} (h : isNCName s = true) : s ≠ "" := by
  rintro rfl
  exact absurd h (by decide)

theorem checkName_eq_ok_iff {pos : Nat} {q r : QName} :
    readName.checkName pos q = .ok r ↔ r = q ∧ isNCName q.localName = true := by
  unfold readName.checkName
  constructor
  · intro h
    split at h
    · cases h
    · split at h
      · cases h
      · rename_i hn
        rw [Except.ok.injEq] at h
        exact ⟨h.symm, by simpa using hn⟩
  · rintro ⟨rfl, hn⟩
    rw [if_neg (ne_empty_of_isNCName hn), hn, Bool.not_true, if_neg Bool.false_ne_true]

/-- What is read is the name that the characters split into, if it is qualified. -/
theorem readName_eq_ok_iff_isQualified {pos : Nat} {cs : List Char} {q : QName} :
    readName pos cs = .ok q ↔ q = QName.ofChars cs ∧ q.isQualified = true := by
  unfold readName QName.isQualified
  dsimp only
  cases hp : (QName.ofChars cs).nsPrefix with
  | none =>
    dsimp only
    rw [checkName_eq_ok_iff]
    refine and_congr_right ?_
    rintro rfl
    rw [hp]
    rfl
  | some p =>
    dsimp only
    constructor
    · intro h
      split at h
      · cases h
      · split at h
        · cases h
        · rename_i hchosen
          obtain ⟨rfl, hlocal⟩ := checkName_eq_ok_iff.1 h
          rw [Bool.not_eq_true, Bool.not_eq_false'] at hchosen
          exact ⟨rfl, by rw [hp, Option.all_some, hchosen, hlocal]; rfl⟩
    · rintro ⟨rfl, hq⟩
      rw [hp, Option.all_some, Bool.and_eq_true] at hq
      rw [if_neg (ne_empty_of_isNCName hq.1), hq.1, Bool.not_true, if_neg Bool.false_ne_true,
        checkName_eq_ok_iff]
      exact ⟨rfl, hq.2⟩

/-- A name is read from its spelling and from nothing else. -/
theorem readName_eq_ok_iff {pos : Nat} {cs : List Char} {q : QName} :
    readName pos cs = .ok q ↔ SpelledName cs q := by
  rw [readName_eq_ok_iff_isQualified, spelledName_iff, and_comm]
  refine and_congr_right fun hq => ⟨?_, ?_⟩
  · rintro rfl
    rw [QName.written_ofChars, String.toList_ofList]
  · rintro rfl
    exact (QName.writable_of_isQualified hq).split.symm

/-! ## Positions -/

/-- A position is read from its spellings and from nothing else. -/
theorem readIndex_eq_ok_iff {pos : Nat} {digits : List Char} {n : Nat} :
    readIndex pos digits = .ok n ↔ SpelledIndex digits n := by
  have hvalue : (∀ c ∈ digits, c.isDigit = true) →
      numeral 10 digits = Nat.ofDigitChars 10 digits 0 := fun hall =>
    numeralFrom_eq_ofDigitChars hall 0
  unfold readIndex
  constructor
  · intro h
    split at h
    · cases h
    · rename_i hdigits
      rw [Bool.or_eq_true, not_or, List.isEmpty_iff, Bool.not_eq_true, Bool.not_eq_false',
        List.all_eq_true] at hdigits
      split at h
      · cases h
      · split at h
        · cases h
        · rw [Except.ok.injEq] at h
          exact ⟨hdigits.1, hdigits.2, hvalue hdigits.2 ▸ h, by omega⟩
  · rintro ⟨hne, hall, rfl, hlow, hhigh⟩
    have hempty : digits.isEmpty = false := List.isEmpty_eq_false_iff.2 hne
    rw [hempty, List.all_eq_true.2 hall, hvalue hall, if_neg (by decide), if_neg (by omega),
      if_neg (by omega)]

theorem SpelledIndex.not_mem {digits : List Char} {n : Nat} (h : SpelledIndex digits n) {c : Char}
    (hc : c ∈ signs) : c ∉ digits := by
  have hsigns : (signs.all fun d => !d.isDigit) = true := by decide
  intro hm
  have hsign := List.all_eq_true.1 hsigns c hc
  rw [h.all c hm] at hsign
  cases hsign

/-! ## Segments -/

/-- An attribute is read from its name. -/
theorem readAttribute_eq_ok_iff {pos : Nat} {cs : List Char} {segment : Segment} :
    readAttribute pos cs = .ok segment ↔ ∃ q, segment = .attr q ∧ SpelledName cs q := by
  unfold readAttribute
  dsimp only
  constructor
  · intro h
    split at h
    · cases h
    · split at h
      · cases h
      · obtain ⟨q, hq, h⟩ := bind_eq_ok.1 h
        rw [Except.ok.injEq] at h
        exact ⟨q, h.symm, readName_eq_ok_iff.1 hq⟩
  · rintro ⟨q, rfl, hq⟩
    have hopen : ∀ d ∈ cs, (d != '[') = true := bne_of_not_mem (not_mem_name hq.isName (by decide))
    rw [List.takeWhile_eq_self_iff.2 hopen, if_neg (Nat.lt_irrefl _),
      if_neg (not_mem_name hq.isName (by decide)), readName_eq_ok_iff.2 hq, ok_bind]

/-- A step is read from its spellings. -/
theorem readStep_eq_ok_iff {pos : Nat} {cs : List Char} {segment : Segment} :
    readStep pos cs = .ok segment ↔ ∃ s, segment = .element s ∧ SpelledStep cs s := by
  unfold readStep
  dsimp only
  constructor
  · intro h
    have hcs := List.takeWhile_append_dropWhile (p := (· != '[')) (l := cs)
    split at h
    · rename_i d inside hdrop
      obtain rfl := eq_of_dropWhile_bne hdrop
      split at h
      · rename_i hlast
        obtain ⟨digits, rfl⟩ := List.getLast?_eq_some_iff.1 hlast
        rw [List.dropLast_concat] at h
        obtain ⟨n, hn, h⟩ := bind_eq_ok.1 h
        obtain ⟨q, hq, h⟩ := bind_eq_ok.1 h
        rw [Except.ok.injEq] at h
        refine ⟨⟨q, some n⟩, h.symm, ?_⟩
        rw [hdrop] at hcs
        rw [← hcs]
        exact .indexed (readName_eq_ok_iff.1 hq) (readIndex_eq_ok_iff.1 hn)
      · cases h
    · split at h
      · cases h
      · obtain ⟨q, hq, h⟩ := bind_eq_ok.1 h
        rw [Except.ok.injEq] at h
        exact ⟨⟨q, none⟩, h.symm, .first (readName_eq_ok_iff.1 hq)⟩
  · rintro ⟨s, rfl, hs⟩
    cases hs with
    | first name =>
      have hopen : ∀ d ∈ cs, (d != '[') = true :=
        bne_of_not_mem (not_mem_name name.isName (by decide))
      rw [List.dropWhile_eq_nil_iff.2 hopen]
      dsimp only
      rw [if_neg (not_mem_name name.isName (by decide)), readName_eq_ok_iff.2 name, ok_bind]
    | indexed name index =>
      have hopen := bne_of_not_mem (not_mem_name name.isName (c := '[') (by decide))
      rw [List.dropWhile_append_of_pos hopen, List.takeWhile_append_of_pos hopen,
        List.dropWhile_cons_of_neg (by decide), List.takeWhile_cons_of_neg (by decide),
        List.append_nil]
      dsimp only
      rw [List.getLast?_concat, if_pos rfl, List.dropLast_concat, readIndex_eq_ok_iff.2 index,
        ok_bind, readName_eq_ok_iff.2 name, ok_bind]

/-- A step begins with its name, so it is neither empty nor taken for an attribute. -/
theorem SpelledStep.head {cs : List Char} {s : Step} (h : SpelledStep cs s) :
    ∃ c rest, cs = c :: rest ∧ c ≠ '@' := by
  have hname : ∀ {cs : List Char} {q : QName}, SpelledName cs q → ∀ more,
      ∃ c rest, cs ++ more = c :: rest ∧ c ≠ '@' := by
    intro cs q hq more
    obtain ⟨c, cs, rfl, hstart, -⟩ := hq.isName
    refine ⟨c, cs ++ more, rfl, ?_⟩
    rintro rfl
    exact absurd hstart (by decide)
  cases h with
  | first name => simpa only [List.append_nil] using hname name []
  | indexed name _ => exact hname name _

/-- A segment is read from its spellings, wherever it stands. -/
theorem readSegment_eq_ok_iff {pos : Nat} {cs : List Char} {segment : Segment} :
    readSegment pos cs = .ok segment ↔ SpelledSegment cs segment := by
  unfold readSegment
  split
  · refine iff_of_false nofun fun h => ?_
    cases h with
    | element step =>
      obtain ⟨c, rest, hnil, -⟩ := step.head
      cases hnil
  · rename_i cs
    rw [readAttribute_eq_ok_iff]
    constructor
    · rintro ⟨q, rfl, hq⟩
      exact .attr hq
    · intro h
      cases h with
      | element step =>
        obtain ⟨c, rest, hcons, hc⟩ := step.head
        exact absurd (List.cons.inj hcons).1.symm hc
      | attr name => exact ⟨_, rfl, name⟩
  · rename_i hat
    rw [readStep_eq_ok_iff]
    constructor
    · rintro ⟨s, rfl, hs⟩
      exact .element hs
    · intro h
      cases h with
      | element step => exact ⟨_, rfl, step⟩
      | attr _ => exact absurd rfl (hat _)

/-- The segments are read one by one; the attribute, if there is one, comes last. -/
theorem readSegments_eq_ok_iff {pos : Nat} {texts : List (List Char)} {p : Path} :
    readSegments pos texts = .ok p ↔ List.Forall₂ SpelledSegment texts p.segments := by
  obtain ⟨steps, attr⟩ := p
  induction texts generalizing pos steps with
  | nil =>
    rw [readSegments, Except.ok.injEq, List.forall₂_nil_left_iff]
    cases steps <;> cases attr <;> simp [segments]
  | cons text more ih =>
    rw [readSegments, bind_eq_ok]
    constructor
    · rintro ⟨segment, hsegment, h⟩
      have hspelled := readSegment_eq_ok_iff.1 hsegment
      cases segment with
      | attr q =>
        dsimp only at h
        split at h
        · rename_i hmore
          rw [Except.ok.injEq, mk.injEq] at h
          obtain ⟨rfl, rfl⟩ := h
          rw [List.isEmpty_iff.1 hmore]
          exact .cons hspelled .nil
        · cases h
      | element s =>
        obtain ⟨⟨steps', attr'⟩, hrest, h⟩ := bind_eq_ok.1 h
        rw [Except.ok.injEq, mk.injEq] at h
        obtain ⟨rfl, rfl⟩ := h
        exact .cons hspelled ((ih steps').1 hrest)
    · intro h
      cases steps with
      | nil =>
        cases attr with
        | none => cases h
        | some q =>
          obtain ⟨hspelled, hrest⟩ := List.forall₂_cons.1 h
          rw [List.forall₂_nil_right_iff.1 hrest]
          exact ⟨_, readSegment_eq_ok_iff.2 hspelled, rfl⟩
      | cons s steps =>
        obtain ⟨hspelled, hrest⟩ := List.forall₂_cons.1 h
        refine ⟨_, readSegment_eq_ok_iff.2 hspelled, ?_⟩
        dsimp only
        rw [(ih steps).2 hrest, ok_bind]

/-! ## Expressions -/

/-- The parts of an expression are what its slashes separate. -/
theorem parts_eq_splitOn (cs : List Char) : parts cs = cs.splitOn '/' := by
  induction cs with
  | nil => rfl
  | cons c cs ih =>
    rw [parts, List.splitOn_cons_eq_if_modifyHead, ih]
    by_cases hc : c = '/'
    · rw [if_pos hc, if_pos (beq_iff_eq.2 hc)]
    · rw [if_neg hc, if_neg (by simpa using hc)]
      cases h : cs.splitOn '/' with
      | nil => exact absurd h (List.splitOn_ne_nil '/' cs)
      | cons part more => rfl

/-- A slash before each part is a slash before all of them with slashes between. -/
theorem flatMap_slash {texts : List (List Char)} (h : texts ≠ []) :
    texts.flatMap ('/' :: ·) = '/' :: ['/'].intercalate texts := by
  induction texts with
  | nil => exact absurd rfl h
  | cons text more ih =>
    cases more with
    | nil => simp
    | cons second more =>
      rw [List.flatMap_cons, ih (List.cons_ne_nil second more), List.intercalate_cons_cons]
      simp

/-- A slash before each part of the characters is one before all of them. -/
theorem flatMap_splitOn (cs : List Char) : (cs.splitOn '/').flatMap ('/' :: ·) = '/' :: cs := by
  rw [flatMap_slash (List.splitOn_ne_nil '/' cs), List.intercalate_splitOn]

theorem SpelledName.not_mem {cs : List Char} {q : QName} (h : SpelledName cs q) : '/' ∉ cs :=
  not_mem_name h.isName (by decide)

/-- No slash stands in a segment. -/
theorem SpelledSegment.not_mem {cs : List Char} {segment : Segment}
    (h : SpelledSegment cs segment) : '/' ∉ cs := by
  cases h with
  | element step =>
    cases step with
    | first name => exact name.not_mem
    | indexed name index =>
      have hname := name.not_mem
      have hdigits := index.not_mem (c := '/') (by decide)
      simp [hname, hdigits]
  | attr name =>
    have hname := name.not_mem
    simp [hname]

/-- What has been read spells the path. -/
theorem spelled_of_parse {s : String} {p : Path} (h : parse s = .ok p) : Spelled s.toList p := by
  unfold parse at h
  split at h
  · rename_i body hbody
    rw [parts_eq_splitOn] at h
    refine ⟨body.splitOn '/', List.splitOn_ne_nil '/' body, ?_, readSegments_eq_ok_iff.1 h⟩
    rw [hbody, flatMap_splitOn]
  · cases h

/-- What spells a path is read as it. -/
theorem parse_of_spelled {s : String} {p : Path} (h : Spelled s.toList p) : parse s = .ok p := by
  obtain ⟨texts, hne, hs, hall⟩ := h
  have hslash : ∀ text ∈ texts, '/' ∉ text := by
    intro text htext
    obtain ⟨segment, -, hspelled⟩ := exists_of_forall₂ hall.flip text htext
    exact hspelled.not_mem
  rw [flatMap_slash hne] at hs
  unfold parse
  rw [hs]
  show readSegments 1 (parts _) = _
  rw [parts_eq_splitOn, List.splitOn_intercalate '/' hslash hne]
  exact readSegments_eq_ok_iff.2 hall

/-- A path is read from an expression exactly if the expression spells it. -/
theorem parse_eq_ok_iff_spelled {s : String} {p : Path} :
    parse s = .ok p ↔ Spelled s.toList p :=
  ⟨spelled_of_parse, parse_of_spelled⟩

/-- Zeros in front of a position are passed over, and names may have letters of any script. -/
example : parse "/x:prénoms/nom[007]/@y:id" =
    .ok ⟨[⟨⟨some "x", "prénoms"⟩, none⟩, ⟨.plain "nom", some 7⟩], some ⟨some "y", "id"⟩⟩ := by
  decide

end Path

end MarkupFields
