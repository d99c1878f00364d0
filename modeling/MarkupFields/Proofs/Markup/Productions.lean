import Mathlib.Logic.Basic
import MarkupFields.Proofs.Markup.Followed

/-
  Productions around and inside of tags: references and the text that may hold them, the declarations,
  comments and processing instructions. Each follows its counterpart on lists. References are counted
  by the cursor where the reader of lists is given their number and gives it back (`Counted`).
-/

namespace MarkupFields

open Text Scan Powers

namespace Cursor

variable {text : String} {c : Cursor text.toUTF8} {d n : Nat} {ch : Char} {cs rest : List Char}

/-! ## References -/

theorem characterReference_follows (base : Nat) {isDigit : Char → Bool}
    (hdigit : ∀ ch, isDigit ch = true → ch.toNat < 128) {bad : Fault} (hbad : bad.isEnd = false)
    (h : c.Stands d n cs) : Follows text (Same d n) (c.characterReference base isDigit bad)
      (Scan.characterReference base isDigit bad cs) := by
  have hdigits := takeWhile_eq hdigit h
  have hrest : (c.takeWhile isDigit).2.Stands d n (cs.dropWhile isDigit) := skipWhile_stands hdigit h
  unfold Cursor.characterReference Scan.characterReference
  dsimp only
  rw [hdigits]
  refine .ite Iff.rfl (fun _ => .stop hrest hbad) fun _ => ?_
  refine (expect_follows (by decide) hrest).bind fun rest c' h' => ?_
  exact .ite Iff.rfl (fun _ => .ok ⟨rfl, h'⟩) fun _ => .stop h' rfl

theorem entityReference_follows (limit : Nat) (h : c.Stands d n cs) :
    Follows text (Same d n) (c.entityReference limit) (Scan.entityReference limit cs) := by
  refine (name_follows limit h).bind ?_
  rintro ⟨_, rest⟩ ⟨word, c'⟩ ⟨rfl, h'⟩
  refine (expect_follows (by decide) h').bind fun rest c'' h'' => ?_
  dsimp only
  cases entity? word with
  | some ch => exact .ok ⟨rfl, h''⟩
  | none => exact .stop h'' rfl

theorem isDigit_ascii (ch : Char) (h : ch.isDigit = true) : ch.toNat < 128 := by
  unfold Char.isDigit at h
  rw [Bool.and_eq_true, decide_eq_true_iff, decide_eq_true_iff] at h
  exact Nat.lt_of_le_of_lt (UInt32.le_iff_toNat_le.1 h.2) (by decide)

theorem isHexDigit_ascii (ch : Char) (h : isHexDigit ch = true) : ch.toNat < 128 := by
  unfold isHexDigit at h
  rw [Bool.or_eq_true, Bool.or_eq_true, decide_eq_true_iff, decide_eq_true_iff] at h
  rcases h with (h | h) | h
  · exact isDigit_ascii ch h
  · exact Nat.lt_of_le_of_lt h.2 (by decide)
  · exact Nat.lt_of_le_of_lt h.2 (by decide)

/-- A reference is counted before it is read. -/
theorem reference_follows (o : ReadOptions) (h : c.Stands d n cs) :
    Follows text (Same d (n + 1)) (c.reference o)
      (if n + 1 > o.maxReferences then haltAt (.tooManyReferences o.maxReferences) cs
        else Scan.expect '&' cs >>= Scan.reference o.maxNameLength) := by
  have hcounted : Stands { c with references := c.references + 1 } d (n + 1) cs :=
    ⟨h.depth, congrArg (· + 1) h.references, h.place⟩
  unfold Cursor.reference
  dsimp only
  refine .ite (by rw [h.references]) (fun _ => .stop hcounted rfl) fun _ => ?_
  refine (expect_follows (by decide) hcounted).bind fun rest c' h' => ?_
  by_cases hsharp : rest.head? = some '#'
  · obtain ⟨more, rfl⟩ := List.head?_eq_some_iff.1 hsharp
    have hmore := h'.advance_one (by decide)
    rw [if_pos ((h'.isAt (by decide)).2 rfl)]
    by_cases hx : more.head? = some 'x'
    · obtain ⟨digits, rfl⟩ := List.head?_eq_some_iff.1 hx
      rw [if_pos ((hmore.isAt (by decide)).2 rfl)]
      exact characterReference_follows 16 isHexDigit_ascii rfl (hmore.advance_one (by decide))
    · have hnone : after? ['#', 'x'] ('#' :: more) = none := by
        show after? ['x'] more = none
        cases more with
        | nil => rfl
        | cons a more => exact if_neg fun ha => hx (congrArg some ha.symm)
      rw [if_neg (mt (hmore.isAt (by decide)).1 hx)]
      unfold Scan.reference
      rw [hnone]
      exact characterReference_follows 10 isDigit_ascii rfl hmore
  · have hnone (mark : List Char) : after? ('#' :: mark) rest = none := by
      cases rest with
      | nil => rfl
      | cons a rest => exact if_neg fun ha => hsharp (congrArg some ha.symm)
    rw [if_neg (mt (h'.isAt (by decide)).1 hsharp)]
    unfold Scan.reference
    rw [hnone, hnone]
    exact entityReference_follows o.maxNameLength h'

theorem reference_follows_inside (o : ReadOptions) (hused : ¬ n + 1 > o.maxReferences)
    (h : c.Stands d n ('&' :: cs)) :
    Follows text (Same d (n + 1)) (c.reference o) (Scan.reference o.maxNameLength cs) := by
  have hfollows := reference_follows o h
  rw [if_neg hused] at hfollows
  exact hfollows

/-! ## Text with references -/

/-- The value is the same, the cursor stands before what was left, and it has counted the same
references. -/
def Counted {α : Type} (d : Nat) (b : α × Nat × List Char) (a : α × Cursor text.toUTF8) : Prop :=
  a.1 = b.1 ∧ a.2.Stands d b.2.1 b.2.2

/-- A reader of cursors gives what the reader of lists gives, with the cursor before what that one
leaves. -/
theorem eq_ok_iff_of_counted {α : Type} {x : Except ParseError (α × Cursor text.toUTF8)}
    {y : Except Halt (α × Nat × List Char)} (h : Follows text (Counted d) x y) (v : α)
    (c' : Cursor text.toUTF8) :
    x = .ok (v, c') ↔ ∃ n rest, y = .ok (v, n, rest) ∧ c'.Stands d n rest := by
  cases y with
  | error e =>
    obtain ⟨rfl, -⟩ := h
    exact iff_of_false nofun nofun
  | ok b =>
    obtain ⟨value, n, rest⟩ := b
    obtain ⟨⟨_, c''⟩, rfl, rfl, h''⟩ := h
    constructor
    · rintro ⟨⟩
      exact ⟨n, rest, rfl, h''⟩
    · rintro ⟨n', rest', hy, h'⟩
      cases hy
      rw [h'.unique h'']

theorem referencedRun_eq {input : ByteArray} (o : ReadOptions) (ahead : Cursor input → Ahead)
    (change : Char → Char) (c : Cursor input) :
    c.referencedRun o ahead change = (match ahead c with
      | .ends width => .ok ([], c.advance width)
      | .refused fault => c.fail fault
      | .further =>
        if c.isAt '&' then do
          let (ch, c') ← c.reference o
          let (more, c'') ← c'.referencedRun o ahead change
          .ok (ch :: more, c'')
        else do
          let (ch, c') ← c.nextChar
          let (more, c'') ← c'.referencedRun o ahead change
          .ok (change ch :: more, c'')) := by
  rw [referencedRun]
  cases ahead c with
  | ends width => rfl
  | refused fault => rfl
  | further =>
    dsimp only
    split
    · split
      · rename_i e h
        rw [h]
        rfl
      · rename_i ch c' h
        rw [h]
        rfl
    · split
      · rename_i e h
        rw [h]
        rfl
      · rename_i ch c' h
        rw [h]
        rfl

variable {ahead : Cursor text.toUTF8 → Ahead} {front : List Char → Front}

/-- Where no reference begins the run takes a character. -/
theorem referencedRun_further (o : ReadOptions) (change : Char → Char) (ht : ahead c = .further)
    (hcs : cs.head? ≠ some '&') (h : c.Stands d n cs) :
    c.referencedRun o ahead change = (do
      let (ch, c') ← c.nextChar
      let (more, c'') ← c'.referencedRun o ahead change
      .ok (change ch :: more, c'')) := by
  rw [referencedRun_eq, ht]
  dsimp only
  rw [if_neg (mt (h.isAt (by decide)).1 hcs)]

theorem referencedRun_reference (o : ReadOptions) (change : Char → Char) (ht : ahead c = .further)
    (h : c.Stands d n ('&' :: cs)) :
    c.referencedRun o ahead change = (do
      let (ch, c') ← c.reference o
      let (more, c'') ← c'.referencedRun o ahead change
      .ok (ch :: more, c'')) := by
  rw [referencedRun_eq, ht]
  dsimp only
  rw [if_pos ((h.isAt (by decide)).2 rfl)]

theorem referencedRun_lineEnd (o : ReadOptions) (change : Char → Char) (ht : ahead c = .further)
    (hnext : ahead (c.advanceChar '\r') = .further) (h : c.Stands d n ('\r' :: '\n' :: cs)) :
    c.referencedRun o ahead change = (c.advanceChar '\r').referencedRun o ahead change := by
  rw [referencedRun_further o change ht (by simp) h, nextChar_lineEnd h,
    referencedRun_further o change hnext (by simp) h.advanceChar]

theorem referencedRun_follows (o : ReadOptions) (change : Char → Char)
    (htells : ∀ {c n cs}, c.Stands d n cs → Tells (ahead c) cs (front cs))
    (hline : ∀ cs, front ('\n' :: cs) = .further) (h : c.Stands d n cs) :
    Follows text (Counted d) (c.referencedRun o ahead change)
      (Scan.referencedRun o front change n cs) := by
  fun_induction Scan.referencedRun o front change n cs generalizing c with
  | case1 n cs rest hfront =>
    have ht := htells h
    rw [hfront] at ht
    obtain ⟨mark, rfl, ha⟩ := ht
    rw [referencedRun_eq, ha]
    exact .ok ⟨rfl, h.advance⟩
  | case2 n cs fault hfront =>
    have ht := htells h
    rw [hfront] at ht
    obtain ⟨hend, ha | ⟨rfl, rfl, ha⟩⟩ := ht
    · rw [referencedRun_eq, ha]
      exact .fail h hend
    · rw [referencedRun_further o change ha (by simp) h, nextChar_nil h]
      exact .fail h hend
  | case3 n hfront =>
    have ht := htells h
    rw [hfront] at ht
    rw [referencedRun_further o change ht (by simp) h, nextChar_nil h]
    exact .fail h fun _ => rfl
  | case4 n next hused hfront =>
    have ht := htells h
    have href := reference_follows o h
    rw [hfront] at ht
    rw [if_pos hused] at href
    rw [referencedRun_reference o change ht h]
    exact href.error_bind
  | case5 n next hused e hmid hfront =>
    have ht := htells h
    rw [hfront] at ht
    rw [referencedRun_reference o change ht h]
    exact (hmid ▸ reference_follows_inside o hused h).error_bind
  | case6 n next hused r mid hmid hfront ih =>
    have ht := htells h
    rw [hfront] at ht
    obtain ⟨⟨_, c'⟩, hx, rfl, h'⟩ := hmid ▸ reference_follows_inside o hused h
    rw [referencedRun_reference o change ht h, hx]
    refine (ih h').bind ?_
    rintro ⟨_, n', rest⟩ ⟨more, c''⟩ ⟨rfl, h''⟩
    exact .ok ⟨rfl, h''⟩
  | case7 n ch next hch hfront ih =>
    have ht := htells h
    have hhere : (ch :: next).head? ≠ some '&' := fun he => hch (Option.some.inj he)
    rw [hfront] at ht
    by_cases hpair : ch = '\r' ∧ next.head? = some '\n'
    · -- the line end is taken whole where the list loses only the carriage return
      obtain ⟨rfl, hhead⟩ := hpair
      obtain ⟨next, rfl⟩ := List.head?_eq_some_iff.1 hhead
      have hahead := htells h.advanceChar
      have hrest := ih h.advanceChar
      rw [hline] at hahead
      rw [referencedRun_lineEnd o change ht hahead h]
      cases hrun : Scan.referencedRun o front change n ('\n' :: next) with
      | error e => rwa [hrun] at hrest
      | ok p => rwa [hrun] at hrest
    · rw [referencedRun_further o change ht hhere h]
      refine (nextChar_follows h fun hcr hhead => hpair ⟨hcr, hhead⟩).bind ?_
      rintro v ⟨first, c'⟩ ⟨rfl, h'⟩
      refine (ih h').bind ?_
      rintro ⟨_, n', rest⟩ ⟨more, c''⟩ ⟨rfl, h''⟩
      exact .ok ⟨rfl, h''⟩

theorem tells_attribute {q : Char} (hq : q.toNat < 128) (h : c.Stands d n cs) :
    Tells (attributeAhead q.toUInt8 c) cs (attributeFront q cs) := by
  unfold attributeAhead
  cases cs with
  | nil =>
    rw [h.peek?_nil]
    exact ⟨fun _ => rfl, .inl rfl⟩
  | cons ch cs =>
    obtain ⟨b, hpeek, hb⟩ := h.exists_peek?
    have hangle : b = '<'.toUInt8 ↔ ch = '<' := hb (by decide)
    rw [hpeek]
    unfold attributeFront
    dsimp only
    rw [ite_cond_congr (propext (hb hq)), ite_cond_congr (propext hangle)]
    split
    · rename_i hch
      exact ⟨[ch], rfl, by rw [length_utf8Bytes_ascii (allAscii_singleton (hch ▸ hq))]; rfl⟩
    · split
      · exact ⟨nofun, .inl rfl⟩
      · exact rfl

theorem tells_text (h : c.Stands d n cs) : Tells (textAhead c) cs (textFront cs) := by
  unfold textAhead
  cases cs with
  | nil =>
    rw [h.peek?_nil]
    exact ⟨[], rfl, rfl⟩
  | cons ch cs =>
    obtain ⟨b, hpeek, hb⟩ := h.exists_peek?
    have hangle : b = '<'.toUInt8 ↔ ch = '<' := hb (by decide)
    rw [hpeek]
    unfold textFront
    dsimp only
    rw [ite_cond_congr (propext hangle), h.lookingAt]
    split
    · exact ⟨[], rfl, rfl⟩
    · split
      · exact ⟨nofun, .inl rfl⟩
      · exact rfl

theorem attributeValue_follows (o : ReadOptions) (h : c.Stands d n cs) :
    Follows text (Counted d) (c.attributeValue o) (Scan.attributeValue o n cs) := by
  unfold Cursor.attributeValue
  cases cs with
  | nil =>
    rw [nextByte_nil h]
    exact .fail h fun _ => rfl
  | cons q cs =>
    obtain ⟨b, more, hbytes, hnext⟩ := nextByte_cons h
    rw [hnext]
    refine .ite ?_ (fun hq => ?_) fun _ => .stop_inside h rfl
    · rw [first_eq_iff hbytes (by decide), first_eq_iff hbytes (by decide)]
    · have hascii : q.toNat < 128 := by
        rcases hq with rfl | rfl <;> decide
      rw [(first_eq_iff hbytes hascii).2 rfl]
      refine referencedRun_follows o attributeBlank (tells_attribute hascii) (fun cs => ?_)
        (h.advance_one hascii)
      rcases hq with rfl | rfl <;> rfl

theorem characterData_follows (o : ReadOptions) (h : c.Stands d n cs) :
    Follows text (Counted d) (c.characterData o) (Scan.characterData o n cs) :=
  referencedRun_follows o id tells_text (fun _ => rfl) h

/-! ## The XML declaration -/

theorem assigned_follows (h : c.Stands d n cs) :
    Follows text (Same d n) c.assigned (Scan.assigned cs) :=
  (expect_follows (by decide) (skipSpace_stands h)).bind fun _ _ h' =>
    quoted_follows (skipSpace_stands h')

theorem space_stands (h : c.Stands d n cs) : c.space.2.Stands d n (Scan.skipSpace cs) :=
  skipSpace_stands h

/-- Behind the word on external declarations no more is taken. -/
theorem pseudoAttributes_complete (encoding : Option String) (b : Bool) (c : Cursor text.toUTF8) :
    c.pseudoAttributes encoding (some b) = .ok ((encoding, some b), c.space.2) := by
  rw [pseudoAttributes]
  split
  · rfl
  · rw [if_neg fun h => Option.some_ne_none b h.2.2, if_neg fun h => Option.some_ne_none b h.2]

/-- A word is looked at where there is space before it. -/
theorem lookingAt_spaced (h : c.Stands d n cs) (hs : startsWithSpace cs = true) (word : List Char) :
    c.space.2.lookingAt word = (spacedWord? word cs).isSome := by
  unfold spacedWord?
  rw [if_pos hs, (space_stands h).lookingAt]

theorem spacedWord?_eq_some {word : List Char} (h : spacedWord? word cs = some rest) :
    startsWithSpace cs = true ∧ Scan.skipSpace cs = word ++ rest := by
  unfold spacedWord? at h
  split at h
  · rename_i hs
    exact ⟨hs, after?_eq_some_iff.1 h⟩
  · cases h

/-- A mark that the cursor stands before is taken. -/
theorem expectAll_eq_ok {mark : List Char} (hmark : allAscii mark = true)
    (h : c.Stands d n (mark ++ rest)) :
    ∃ c', c.expectAll mark = .ok c' ∧ c'.Stands d n rest := by
  have hfollows := expectAll_follows hmark h
  rwa [expectAll_eq_ok_iff.2 rfl] at hfollows

/-- The word on external declarations is taken if no encoding is to be taken before it. -/
theorem pseudoAttributes_standalone {encoding : Option String}
    (hskip : encoding ≠ none ∨ spacedWord? encodingWord cs = none) (h : c.Stands d n cs) :
    Follows text (fun b a => a.1 = (encoding, b.1) ∧ a.2.Stands d n (Scan.skipSpace b.2))
      (c.pseudoAttributes encoding none) (standalonePart cs) := by
  rw [pseudoAttributes, space_eq h]
  unfold standalonePart
  cases hs : startsWithSpace cs with
  | false =>
    have hnone : spacedWord? standaloneWord cs = none := by
      unfold spacedWord?
      rw [hs]
      rfl
    rw [hnone]
    exact .ok ⟨rfl, space_stands h⟩
  | true =>
    have hfirst : ¬ (c.space.2.lookingAt encodingWord = true ∧ encoding = none ∧
        (none : Option Bool) = none) := by
      rintro ⟨hlook, hnone, -⟩
      rw [lookingAt_spaced h hs] at hlook
      rcases hskip with hskip | hskip
      · exact hskip hnone
      · rw [hskip] at hlook
        cases hlook
    rw [if_neg (by decide), if_neg hfirst, lookingAt_spaced h hs]
    cases hword : spacedWord? standaloneWord cs with
    | none => exact .ok ⟨rfl, space_stands h⟩
    | some rest =>
      have hstands := space_stands h
      rw [(spacedWord?_eq_some hword).2] at hstands
      obtain ⟨c', hc', h'⟩ := expectAll_eq_ok (by decide) hstands
      rw [if_pos ⟨rfl, rfl⟩, hc']
      refine (assigned_follows h').bind ?_
      rintro ⟨_, rest⟩ ⟨s, c''⟩ ⟨rfl, h''⟩
      refine .ite Iff.rfl (fun _ => ?_) fun _ => .ite Iff.rfl (fun _ => ?_) fun _ => .stop h'' rfl
      · rw [pseudoAttributes_complete]
        exact .ok ⟨rfl, space_stands h''⟩
      · rw [pseudoAttributes_complete]
        exact .ok ⟨rfl, space_stands h''⟩

/-- With the encoding known only the word on external declarations is left. -/
theorem pseudoAttributes_known {encoding : Option String}
    (hskip : encoding ≠ none ∨ spacedWord? encodingWord cs = none) (h : c.Stands d n cs) :
    Follows text (fun b a => a.1 = (b.1, b.2.1) ∧ a.2.Stands d n (Scan.skipSpace b.2.2))
      (c.pseudoAttributes encoding none)
      (do
        let (standalone, cs) ← standalonePart cs
        .ok (encoding, standalone, cs)) := by
  have hpart := pseudoAttributes_standalone hskip h
  cases hy : standalonePart cs with
  | error e => rwa [hy] at hpart
  | ok b => rwa [hy] at hpart

/-- The encoding and the word on external declarations are taken in this order. -/
theorem pseudoAttributes_follows (h : c.Stands d n cs) :
    Follows text (fun b a => a.1 = (b.1, b.2.1) ∧ a.2.Stands d n (Scan.skipSpace b.2.2))
      (c.pseudoAttributes none none)
      (do
        let (encoding, cs) ← encodingPart cs
        let (standalone, cs) ← standalonePart cs
        .ok (encoding, standalone, cs)) := by
  unfold encodingPart
  cases hword : spacedWord? encodingWord cs with
  | none => exact pseudoAttributes_known (.inr hword) h
  | some rest =>
    obtain ⟨hs, hrest⟩ := spacedWord?_eq_some hword
    have hstands := space_stands h
    rw [hrest] at hstands
    obtain ⟨c', hc', h'⟩ := expectAll_eq_ok (by decide) hstands
    have hlook : c.space.2.lookingAt encodingWord = true := by
      rw [lookingAt_spaced h hs, hword]
      rfl
    rw [pseudoAttributes, space_eq h, hs, if_neg (by decide), if_pos ⟨hlook, rfl, rfl⟩, hc']
    dsimp only
    rw [bind_assoc]
    refine (assigned_follows h').bind ?_
    rintro ⟨_, rest⟩ ⟨e, c''⟩ ⟨rfl, h''⟩
    dsimp only
    split
    · exact pseudoAttributes_known (.inl (Option.some_ne_none _)) h''
    · exact Follows.stop h'' rfl

theorem expectSpace_follows (h : c.Stands d n cs) :
    Follows text (fun rest c' => c'.Stands d n rest) c.expectSpace
      (if startsWithSpace cs then .ok (Scan.skipSpace cs) else haltAt .missingSpace cs) := by
  refine .ite (by rw [space_eq h]) (fun _ => .ok (space_stands h)) fun hnone => ?_
  have hstands := space_stands h
  rw [skipSpace_of_not_startsWithSpace hnone] at hstands
  exact .stop hstands rfl

/-- What follows the opening of an XML declaration, on lists. -/
def declarationRest (cs : List Char) : Except Halt (Declaration × List Char) := do
  let (version, cs) ← versionPart cs
  let (encoding, cs) ← encodingPart cs
  let (standalone, cs) ← standalonePart cs
  let cs ← Scan.expectAll instructionClose (Scan.skipSpace cs)
  .ok (⟨some (String.ofList version), encoding, standalone⟩, cs)

theorem declaration_follows (h : c.Stands d n cs) :
    Follows text (Same d n) c.declaration (do
      let cs ← Scan.expectAll declarationOpen cs
      if startsWithSpace cs then declarationRest cs else haltAt .missingSpace cs) := by
  refine (expectAll_follows (by decide) h).bind fun cs c h => ?_
  have hspace := expectSpace_follows h
  split
  · rename_i hs
    rw [if_pos hs] at hspace
    obtain ⟨c', hc', h'⟩ := hspace
    rw [hc']
    unfold declarationRest versionPart
    rw [bind_assoc]
    refine (expectAll_follows (by decide) h').bind fun cs c h => ?_
    rw [bind_assoc]
    refine (assigned_follows h).bind ?_
    rintro ⟨_, cs⟩ ⟨version, c⟩ ⟨rfl, h⟩
    dsimp only
    split
    · have hparts : (do
          let (encoding, cs) ← encodingPart cs
          let (standalone, cs) ← standalonePart cs
          let cs ← Scan.expectAll instructionClose (Scan.skipSpace cs)
          .ok ((⟨some (String.ofList version), encoding, standalone⟩ : Declaration), cs)) =
          ((do
            let (encoding, cs) ← encodingPart cs
            let (standalone, cs) ← standalonePart cs
            .ok (encoding, standalone, cs)) >>= fun b => do
          let cs ← Scan.expectAll instructionClose (Scan.skipSpace b.2.2)
          .ok ((⟨some (String.ofList version), b.1, b.2.1⟩ : Declaration), cs)) := by
        simp only [bind, Except.bind]
        cases encodingPart cs with
        | error e => rfl
        | ok p =>
          dsimp only
          cases standalonePart p.2 <;> rfl
      refine hparts ▸ (pseudoAttributes_follows h).bind ?_
      rintro ⟨encoding, standalone, cs⟩ ⟨_, c⟩ ⟨rfl, h⟩
      exact (expectAll_follows (by decide) h).bind fun cs c h => .ok ⟨rfl, h⟩
    · exact .stop h rfl
  · rename_i hs
    rw [if_neg hs] at hspace
    exact hspace.error_bind

/-! ## The document type declaration -/

theorem doctypeInside_eq {input : ByteArray} (brackets : Nat) (c : Cursor input) :
    c.doctypeInside brackets = (match c.peek? with
      | none => c.fail (.endInside .doctype)
      | some b =>
        if b = '"'.toUInt8 ∨ b = '\''.toUInt8 then do
          let (_, c') ← c.quoted
          c'.doctypeInside brackets
        else if b = '['.toUInt8 then (c.advance 1).doctypeInside (brackets + 1)
        else if b = ']'.toUInt8 then (c.advance 1).doctypeInside (brackets - 1)
        else if c.lookingAt commentOpen then do
          let (_, c') ← c.comment
          c'.doctypeInside brackets
        else if b = '>'.toUInt8 ∧ brackets = 0 then .ok (c.advance 1)
        else do
          let (_, c') ← c.nextChar
          c'.doctypeInside brackets) := by
  rw [doctypeInside]
  split
  · rename_i hpeek
    rw [hpeek]
  · rename_i b hpeek
    rw [hpeek]
    dsimp only
    refine if_congr Iff.rfl ?_ (if_congr Iff.rfl rfl (if_congr Iff.rfl rfl
      (if_congr Iff.rfl ?_ (if_congr Iff.rfl rfl ?_))))
    · split <;> rename_i h <;> rw [h] <;> rfl
    · split <;> rename_i h <;> rw [h] <;> rfl
    · split <;> rename_i h <;> rw [h] <;> rfl

section

variable {brackets : Nat}

theorem doctypeInside_quote (h : c.Stands d n (ch :: cs)) (hch : ch = '"' ∨ ch = '\'') :
    c.doctypeInside brackets = (do
      let (_, c') ← c.quoted
      c'.doctypeInside brackets) := by
  obtain ⟨b, hpeek, hb⟩ := h.exists_peek?
  rw [doctypeInside_eq, hpeek]
  exact if_pos (hch.imp (hb (by decide)).2 (hb (by decide)).2)

theorem doctypeInside_opening (h : c.Stands d n ('[' :: cs)) :
    c.doctypeInside brackets = (c.advance 1).doctypeInside (brackets + 1) := by
  rw [doctypeInside_eq, h.peek?_ascii (by decide)]
  rfl

theorem doctypeInside_closing (h : c.Stands d n (']' :: cs)) :
    c.doctypeInside brackets = (c.advance 1).doctypeInside (brackets - 1) := by
  rw [doctypeInside_eq, h.peek?_ascii (by decide)]
  rfl

/-- Characters that are neither quotes nor brackets. -/
theorem doctypeInside_plain (h : c.Stands d n (ch :: cs)) (hch : ¬ (ch = '"' ∨ ch = '\''))
    (hopen : ¬ ch = '[') (hclose : ¬ ch = ']') :
    c.doctypeInside brackets = (
      if c.lookingAt commentOpen then do
        let (_, c') ← c.comment
        c'.doctypeInside brackets
      else if ch = '>' ∧ brackets = 0 then .ok (c.advance 1)
      else do
        let (_, c') ← c.nextChar
        c'.doctypeInside brackets) := by
  obtain ⟨b, hpeek, hb⟩ := h.exists_peek?
  have hquote : ¬ (b = '"'.toUInt8 ∨ b = '\''.toUInt8) :=
    fun hq => hch (hq.imp (hb (by decide)).1 (hb (by decide)).1)
  rw [doctypeInside_eq, hpeek]
  dsimp only
  rw [if_neg hquote, if_neg (mt (hb (by decide)).1 hopen), if_neg (mt (hb (by decide)).1 hclose)]
  exact if_congr Iff.rfl rfl (if_congr (and_congr_left' (hb (by decide))) rfl rfl)

/-- Characters at which nothing begins or ends are taken one by one. -/
theorem doctypeInside_other (h : c.Stands d n (ch :: cs)) (hch : ¬ (ch = '"' ∨ ch = '\''))
    (hopen : ¬ ch = '[') (hclose : ¬ ch = ']') (hend : ¬ (ch = '>' ∧ brackets = 0))
    (hnone : after? commentOpen (ch :: cs) = none) :
    c.doctypeInside brackets = (do
      let (_, c') ← c.nextChar
      c'.doctypeInside brackets) := by
  rw [doctypeInside_plain h hch hopen hclose, h.lookingAt, hnone, if_neg (by decide), if_neg hend]

end

theorem doctypeInside_follows {brackets : Nat} (h : c.Stands d n cs) :
    Follows text (fun rest c' => c'.Stands d n rest) (c.doctypeInside brackets)
      (Scan.doctype brackets cs) := by
  fun_induction Scan.doctype brackets cs generalizing c with
  | case1 brackets =>
    rw [doctypeInside_eq, h.peek?_nil]
    exact .fail h fun _ => rfl
  | case2 brackets ch next hch e he =>
    rw [doctypeInside_quote h hch]
    exact (he ▸ quoted_follows h).error_bind
  | case3 brackets ch next hch v rest hv ih =>
    obtain ⟨⟨_, c'⟩, hx, rfl, h'⟩ := hv ▸ quoted_follows h
    rw [doctypeInside_quote h hch, hx]
    exact ih h'
  | case4 brackets next hch ih =>
    rw [doctypeInside_opening h]
    exact ih (h.advance_one (by decide))
  | case5 brackets next hch ho ih =>
    rw [doctypeInside_closing h]
    exact ih (h.advance_one (by decide))
  | case6 brackets ch next hch ho hx hend =>
    obtain ⟨rfl, hbrackets⟩ := hend
    rw [doctypeInside_plain h hch ho hx, h.lookingAt,
      if_neg (show ¬ (after? commentOpen ('>' :: next)).isSome = true from nofun),
      if_pos ⟨rfl, hbrackets⟩]
    exact .ok (h.advance_one (by decide))
  | case7 brackets ch next hch ho hx hend inside hinside e he =>
    have hcomment : c.Stands d n (commentOpen ++ inside) := after?_eq_some_iff.1 hinside ▸ h
    rw [doctypeInside_plain h hch ho hx, if_pos hcomment.lookingAt_mark]
    exact (he ▸ behind_mark (comment_follows hcomment) rfl).error_bind
  | case8 brackets ch next hch ho hx hend inside hinside v rest hv ih =>
    have hcomment : c.Stands d n (commentOpen ++ inside) := after?_eq_some_iff.1 hinside ▸ h
    obtain ⟨⟨_, c'⟩, hx', rfl, h'⟩ := hv ▸ behind_mark (comment_follows hcomment) rfl
    rw [doctypeInside_plain h hch ho hx, if_pos hcomment.lookingAt_mark, hx']
    exact ih h'
  | case9 brackets ch next hch ho hx hend hnone ih =>
    rw [doctypeInside_other h hch ho hx hend hnone]
    by_cases hpair : ch = '\r' ∧ next.head? = some '\n'
    · -- the line end is taken whole where the list loses only the carriage return
      obtain ⟨rfl, hhead⟩ := hpair
      obtain ⟨next, rfl⟩ := List.head?_eq_some_iff.1 hhead
      have hrest := ih h.advanceChar
      rw [doctypeInside_other h.advanceChar (by decide) (by decide) (by decide)
        (fun he => absurd he.1 (by decide)) rfl] at hrest
      rw [nextChar_lineEnd h]
      exact hrest
    · refine (nextChar_follows h fun hcr hhead => hpair ⟨hcr, hhead⟩).bind ?_
      rintro v ⟨first, c'⟩ ⟨rfl, h'⟩
      exact ih h'

theorem doctype_follows (h : c.Stands d n cs) :
    Follows text (fun rest c' => c'.Stands d n rest) c.doctype
      (Scan.expectAll doctypeOpen cs >>= Scan.doctype 0) :=
  (expectAll_follows (by decide) h).bind fun _ _ h' => doctypeInside_follows h'

/-! ## Comments and processing instructions around the root -/

theorem miscellany_eq {input : ByteArray} (o : ReadOptions) (c : Cursor input) :
    c.miscellany o = (
      if c.skipSpace.lookingAt commentOpen then do
        let (text, c') ← c.skipSpace.comment
        let (more, c'') ← c'.miscellany o
        .ok (.cons (commentContent text) .nil more, c'')
      else if c.skipSpace.lookingAt instructionOpen then do
        let (p, c') ← c.skipSpace.instruction o.maxNameLength
        let (more, c'') ← c'.miscellany o
        .ok (.cons (instructionContent p) .nil more, c'')
      else .ok (.nil, c.skipSpace)) := by
  rw [miscellany]
  refine if_congr Iff.rfl ?_ (if_congr Iff.rfl ?_ rfl)
  · split <;> rename_i h <;> rw [h] <;> rfl
  · split <;> rename_i h <;> rw [h] <;> rfl

theorem miscellany_follows (o : ReadOptions) (h : c.Stands d n cs) :
    Follows text (Same d n) (c.miscellany o) (Scan.miscellany o cs) := by
  fun_induction Scan.miscellany o cs generalizing c with
  | case1 cs inside hitem e he =>
    have hspace : c.skipSpace.Stands d n (commentOpen ++ inside) :=
      itemAt_eq hitem ▸ skipSpace_stands h
    have hfollows := behind_mark (comment_follows hspace) rfl
    rw [he] at hfollows
    rw [miscellany_eq, if_pos hspace.lookingAt_mark]
    exact hfollows.error_bind
  | case2 cs inside hitem v mid hv ih =>
    have hspace : c.skipSpace.Stands d n (commentOpen ++ inside) :=
      itemAt_eq hitem ▸ skipSpace_stands h
    obtain ⟨⟨_, c'⟩, hx, rfl, h'⟩ := hv ▸ behind_mark (comment_follows hspace) rfl
    rw [miscellany_eq, if_pos hspace.lookingAt_mark, hx]
    refine (ih h').bind ?_
    rintro ⟨_, rest⟩ ⟨more, c''⟩ ⟨rfl, h''⟩
    exact .ok ⟨rfl, h''⟩
  | case3 cs inside hitem e he =>
    have hspace : c.skipSpace.Stands d n (instructionOpen ++ inside) :=
      itemAt_eq hitem ▸ skipSpace_stands h
    have hfollows := behind_mark (instruction_follows o.maxNameLength hspace) rfl
    have hno : ¬ c.skipSpace.lookingAt commentOpen = true := by
      rw [hspace.lookingAt]
      exact nofun
    rw [he] at hfollows
    rw [miscellany_eq, if_neg hno, if_pos hspace.lookingAt_mark]
    exact hfollows.error_bind
  | case4 cs inside hitem p mid hp ih =>
    have hspace : c.skipSpace.Stands d n (instructionOpen ++ inside) :=
      itemAt_eq hitem ▸ skipSpace_stands h
    have hno : ¬ c.skipSpace.lookingAt commentOpen = true := by
      rw [hspace.lookingAt]
      exact nofun
    obtain ⟨⟨_, c'⟩, hx, rfl, h'⟩ := hp ▸ behind_mark (instruction_follows o.maxNameLength hspace) rfl
    rw [miscellany_eq, if_neg hno, if_pos hspace.lookingAt_mark, hx]
    refine (ih h').bind ?_
    rintro ⟨_, rest⟩ ⟨more, c''⟩ ⟨rfl, h''⟩
    exact .ok ⟨rfl, h''⟩
  | case5 cs hcomment hinstruction =>
    have hspace := skipSpace_stands h
    rw [miscellany_eq, if_neg ?_, if_neg ?_]
    · exact .ok ⟨rfl, hspace⟩
    · rw [hspace.lookingAt_iff]
      rintro ⟨inside, hinside⟩
      rw [hinside] at hinstruction
      exact hinstruction inside rfl
    · rw [hspace.lookingAt_iff]
      rintro ⟨inside, hinside⟩
      rw [hinside] at hcomment
      exact hcomment inside rfl

end Cursor

end MarkupFields
