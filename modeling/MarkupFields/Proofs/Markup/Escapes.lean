import MarkupFields.Markup.Reference
import MarkupFields.Markup.Render
import MarkupFields.Proofs.Markup.Names
import Mathlib.Algebra.Group.Nat.Defs

/-
  Escaping undone by reading. Each character of text or of an attribute value is written either as it
  is or as one reference; what is written is read back as that character, and a reference is counted.
  The proof goes character by character: `ReadsAs` says what one written character does to the
  reader, and `referencedRun_written` puts the characters together. In the other direction, whatever
  is read consists of characters that may stand in a document.
-/

namespace MarkupFields.Scan

open Text

/-! ## What references are read as -/

theorem toNat_ofNat_of_isXmlCode {n : Nat} (h : isXmlCode n = true) : (Char.ofNat n).toNat = n := by
  have hv : n.isValidChar := by
    simp only [isXmlCode, inRanges, characterRanges, List.any_cons, List.any_nil, Bool.or_false,
      Bool.or_eq_true, Bool.and_eq_true, decide_eq_true_eq] at h
    unfold Nat.isValidChar
    omega
  unfold Char.ofNat
  rw [dif_pos hv]
  rfl

/-- A reference gives a character that may stand in a document. -/
theorem isXmlChar_of_reference {limit : Nat} {cs rest : List Char} {c : Char}
    (h : reference limit cs = .ok (c, rest)) : isXmlChar c = true := by
  have hcode : ∀ {base : Nat} {isDigit : Char → Bool} {bad : Fault} {l : List Char},
      characterReference base isDigit bad l = .ok (c, rest) → isXmlChar c = true := by
    intro base isDigit bad l h
    unfold characterReference at h
    dsimp only at h
    split at h
    · cases h
    · obtain ⟨r, -, h⟩ := bind_eq_ok.1 h
      split at h
      · rename_i hx
        rw [Except.ok.injEq, Prod.mk.injEq] at h
        unfold isXmlChar
        rw [← h.1, toNat_ofNat_of_isXmlCode hx]
        exact hx
      · cases h
  unfold reference at h
  split at h
  · exact hcode h
  · split at h
    · exact hcode h
    · unfold entityReference at h
      obtain ⟨p, -, h⟩ := bind_eq_ok.1 h
      obtain ⟨r, -, h⟩ := bind_eq_ok.1 h
      split at h
      · rename_i d hd
        rw [Except.ok.injEq, Prod.mk.injEq] at h
        unfold entity? at hd
        split at hd
        all_goals
          rw [← h.1]
          cases hd
        all_goals decide
      · cases h

/-- The name of an entity, written with its semicolon, is read as the character of the entity. -/
theorem reference_entity {limit : Nat} {word : List Char} {c : Char} (hw : IsName word)
    (hc : entity? word = some c) (hl : utf8Length word ≤ limit) (rest : List Char) :
    reference limit (word ++ ';' :: rest) = .ok (c, rest) := by
  have hx : after? ['#', 'x'] (word ++ ';' :: rest) = none := by
    rw [after?_eq_none_iff]
    rintro ⟨l, hl⟩
    refine hw.head_ne (c := '#') (by decide) (';' :: rest) ?_
    rw [← hl]
    rfl
  have hd : after? ['#'] (word ++ ';' :: rest) = none := by
    rw [after?_eq_none_iff]
    rintro ⟨l, hl⟩
    refine hw.head_ne (c := '#') (by decide) (';' :: rest) ?_
    rw [← hl]
    rfl
  have hr : EndsName (';' :: rest) := by
    intro d hd
    rw [← Option.some.inj hd]
    decide
  have hsemi : expect ';' (';' :: rest) = .ok rest := expect_eq_ok_iff.2 rfl
  unfold reference
  rw [hx, hd]
  simp only [entityReference, bind, Except.bind, name_written hw hl hr, hsemi, hc]

/-- The decimal number of a character, written with its semicolon, is read as the character. -/
theorem reference_decimal {limit : Nat} {digits : List Char} (hd : digits ≠ [])
    (hall : ∀ d ∈ digits, d.isDigit = true) (hsmall : numeral 10 digits < 2 ^ 32)
    (hx : isXmlCode (numeral 10 digits) = true) (rest : List Char) :
    reference limit ('#' :: (digits ++ ';' :: rest)) =
      .ok (Char.ofNat (numeral 10 digits), rest) := by
  have hnot : after? ['#', 'x'] ('#' :: (digits ++ ';' :: rest)) = none := by
    rw [after?_eq_none_iff, List.cons_prefix_cons]
    rintro ⟨-, hp⟩
    cases digits with
    | nil => exact hd rfl
    | cons d digits =>
      rw [List.cons_append, List.cons_prefix_cons] at hp
      have := hall d List.mem_cons_self
      rw [← hp.1] at this
      exact absurd this (by decide)
  have hnum : after? ['#'] ('#' :: (digits ++ ';' :: rest)) = some (digits ++ ';' :: rest) :=
    after?_append ['#'] _
  have htake : (digits ++ ';' :: rest).takeWhile Char.isDigit = digits := by
    rw [List.takeWhile_append_of_pos hall, List.takeWhile_cons]
    exact List.append_nil _
  have hdrop : (digits ++ ';' :: rest).dropWhile Char.isDigit = ';' :: rest := by
    rw [List.dropWhile_append_of_pos hall, List.dropWhile_cons]
    rfl
  have hno : ¬ (digits = [] ∨ 2 ^ 32 ≤ numeral 10 digits) := by
    rintro (h | h)
    · exact hd h
    · omega
  have hsemi : expect ';' (';' :: rest) = .ok rest := expect_eq_ok_iff.2 rfl
  unfold reference
  rw [hnot, hnum]
  simp only [characterReference, bind, Except.bind, htake, hdrop, if_neg hno, hsemi, if_pos hx]

/-! ## Runs with references, step by step -/

section Run

variable {o : ReadOptions} {front : List Char → Front} {change : Char → Char} {used : Nat}

theorem referencedRun_ends {cs rest : List Char} (h : front cs = .ends rest) :
    referencedRun o front change used cs = .ok ([], used, rest) := by
  unfold referencedRun
  rw [h]

/-- One more character of a run is a reference, or stands for itself. -/
theorem referencedRun_further {c : Char} {next : List Char}
    (h : front (c :: next) = .further) :
    referencedRun o front change used (c :: next) =
      if c = '&' then
        if used + 1 > o.maxReferences then haltAt (.tooManyReferences o.maxReferences) (c :: next)
        else
          reference o.maxNameLength next >>= fun r =>
            referencedRun o front change (used + 1) r.2 >>= fun more =>
              .ok (r.1 :: more.1, more.2.1, more.2.2)
      else
        contribution c next >>= fun first =>
          referencedRun o front change used next >>= fun more =>
            .ok (first.map change ++ more.1, more.2.1, more.2.2) := by
  rw [referencedRun, h]
  dsimp only
  congr 2
  split
  · rename_i e he
    rw [he]
    rfl
  · rename_i r rest hr
    rw [hr]
    rfl

theorem referencedRun_itself {c : Char} {next v rest : List Char} {used' : Nat}
    (hf : front (c :: next) = .further) (ha : c ≠ '&') (hc : isXmlChar c = true) (hr : c ≠ '\r')
    (hch : change c = c) (h : referencedRun o front change used next = .ok (v, used', rest)) :
    referencedRun o front change used (c :: next) = .ok (c :: v, used', rest) := by
  unfold referencedRun
  rw [hf]
  simp only [if_neg ha, bind, Except.bind, contribution_of_plain hc hr, h, List.map_cons,
    List.map_nil, hch, List.singleton_append]

theorem referencedRun_reference {c : Char} {next mid v rest : List Char} {used' : Nat}
    (hf : front ('&' :: next) = .further) (hu : used + 1 ≤ o.maxReferences)
    (hr : reference o.maxNameLength next = .ok (c, mid))
    (h : referencedRun o front change (used + 1) mid = .ok (v, used', rest)) :
    referencedRun o front change used ('&' :: next) = .ok (c :: v, used', rest) := by
  rw [referencedRun, hf]
  simp only [↓reduceIte, if_neg (Nat.not_lt.2 hu)]
  split
  · rename_i e he
    rw [hr] at he
    cases he
  · rename_i d l he
    rw [hr, Except.ok.injEq, Prod.mk.injEq] at he
    obtain ⟨rfl, rfl⟩ := he
    simp only [bind, Except.bind, h]

/-- All that a run of text with references gives may stand in a document, if the change to what is
written out keeps it so. -/
theorem isXmlChar_of_referencedRun (hch : ∀ c, isXmlChar c = true → isXmlChar (change c) = true)
    {cs v rest : List Char} {used' : Nat}
    (h : referencedRun o front change used cs = .ok (v, used', rest)) :
    ∀ c ∈ v, isXmlChar c = true := by
  fun_induction referencedRun o front change used cs generalizing v used' rest with
  | case1 used cs r hr =>
    rw [Except.ok.injEq, Prod.mk.injEq] at h
    intro c hc
    rw [← h.1] at hc
    cases hc
  | case2 => cases h
  | case3 => cases h
  | case4 => cases h
  | case5 => cases h
  | case6 used next hused r mid hmid hfront ih =>
    obtain ⟨p, hp, h⟩ := bind_eq_ok.1 h
    rw [Except.ok.injEq, Prod.mk.injEq] at h
    intro c hc
    rw [← h.1, List.mem_cons] at hc
    rcases hc with rfl | hc
    · exact isXmlChar_of_reference hmid
    · exact ih hp c hc
  | case7 used c next hc hfront ih =>
    obtain ⟨first, hfirst, h⟩ := bind_eq_ok.1 h
    obtain ⟨p, hp, h⟩ := bind_eq_ok.1 h
    rw [Except.ok.injEq, Prod.mk.injEq] at h
    intro d hd
    rw [← h.1, List.mem_append, List.mem_map] at hd
    rcases hd with ⟨b, hb, rfl⟩ | hd
    · exact hch b (plain_of_contribution hfirst b hb).1
    · exact ih hp d hd

/-- A run with references ends where its test says. -/
theorem ends_of_referencedRun {cs v rest : List Char} {used' : Nat}
    (h : referencedRun o front change used cs = .ok (v, used', rest)) :
    ∃ l, front l = .ends rest := by
  fun_induction referencedRun o front change used cs generalizing v used' rest with
  | case1 used cs r hr =>
    rw [Except.ok.injEq, Prod.mk.injEq, Prod.mk.injEq] at h
    exact ⟨cs, h.2.2 ▸ hr⟩
  | case2 => cases h
  | case3 => cases h
  | case4 => cases h
  | case5 => cases h
  | case6 used next hused r mid hmid hfront ih =>
    obtain ⟨p, hp, h⟩ := bind_eq_ok.1 h
    rw [Except.ok.injEq, Prod.mk.injEq, Prod.mk.injEq] at h
    obtain ⟨-, -, rfl⟩ := h
    exact ih hp
  | case7 used c next hc hfront ih =>
    obtain ⟨first, -, h⟩ := bind_eq_ok.1 h
    obtain ⟨p, hp, h⟩ := bind_eq_ok.1 h
    rw [Except.ok.injEq, Prod.mk.injEq, Prod.mk.injEq] at h
    obtain ⟨-, -, rfl⟩ := h
    exact ih hp

end Run

/-! ## Reading what was escaped -/

/-- A piece of markup is read as one character: it is this character, or a reference to it. -/
inductive ReadsAs (limit : Nat) (front : List Char → Front) (change : Char → Char)
    (after : List Char) (c : Char) : List Char → Prop
  | itself (further : front (c :: after) = .further) (bare : c ≠ '&') (legal : isXmlChar c = true)
      (kept : c ≠ '\r') (unchanged : change c = c) : ReadsAs limit front change after c [c]
  | reference {body : List Char} (further : front ('&' :: (body ++ after)) = .further)
      (taken : reference limit (body ++ after) = .ok (c, after)) :
      ReadsAs limit front change after c ('&' :: body)

/-- A written character is a reference. -/
def isReference (piece : List Char) : Bool :=
  piece.head? == some '&'

/-- The number of references among the characters as they are written. -/
def references (escaped : Char → List Char) (cs : List Char) : Nat :=
  cs.countP fun c => isReference (escaped c)

/-- Text in which every character is read as itself is read back up to its end, and its references
are counted. -/
theorem referencedRun_written {o : ReadOptions} {front : List Char → Front}
    {change : Char → Char} {escaped : Char → List Char} {cs tail rest : List Char} {used : Nat}
    (hr : ∀ c more, c :: more <:+ cs → ReadsAs o.maxNameLength front change
      (more.flatMap escaped ++ tail) c (escaped c))
    (ht : front tail = .ends rest) (hu : used + references escaped cs ≤ o.maxReferences) :
    referencedRun o front change used (cs.flatMap escaped ++ tail) =
      .ok (cs, used + references escaped cs, rest) := by
  induction cs generalizing used with
  | nil => exact referencedRun_ends ht
  | cons c cs ih =>
    have hc := hr c cs (List.suffix_refl _)
    have hmore := @ih
    unfold references at hu hmore ⊢
    rw [List.countP_cons] at hu ⊢
    rw [List.flatMap_cons, List.append_assoc]
    have hsub : ∀ d more, d :: more <:+ cs → ReadsAs o.maxNameLength front change
        (more.flatMap escaped ++ tail) d (escaped d) :=
      fun d more hd => hr d more (hd.trans (List.suffix_cons c cs))
    generalize hpiece : escaped c = piece at hc hu ⊢
    cases hc with
    | itself further bare legal kept unchanged =>
      have hbare : isReference [c] = false := by
        simp [isReference, bare]
      rw [hbare] at hu ⊢
      exact referencedRun_itself further bare legal kept unchanged (hmore hsub hu)
    | reference further taken =>
      rename_i body
      have href : isReference ('&' :: body) = true := rfl
      rw [href, if_pos rfl] at hu
      rw [href, if_pos rfl, List.cons_append,
        show used + (List.countP (fun c => isReference (escaped c)) cs + 1) =
          used + 1 + List.countP (fun c => isReference (escaped c)) cs by omega]
      exact referencedRun_reference further (by omega) taken (hmore hsub (by omega))

/-- The length of the entity name in a written character; one written as it is or by its number has
none. -/
def entityLength : List Char → Nat
  | '&' :: '#' :: _ => 0
  | '&' :: name => name.length - 1
  | _ => 0

/-- The characters may stand in a document, and no entity name that writing them takes is longer
than the limit. -/
def Escapable (limit : Nat) (escaped : Char → List Char) (cs : List Char) : Prop :=
  ∀ c ∈ cs, isXmlChar c = true ∧ entityLength (escaped c) ≤ limit

/-- A character is read back from the reference by the name of its entity. -/
theorem readsAs_entity {limit : Nat} {front : List Char → Front} {change : Char → Char}
    {after : List Char} {c : Char} (word : List Char) (hf : ∀ next, front ('&' :: next) = .further)
    (hw : IsName word) (hc : entity? word = some c) (hl : utf8Length word ≤ limit) :
    ReadsAs limit front change after c ('&' :: (word ++ [';'])) := by
  refine .reference (hf _) ?_
  rw [List.append_assoc]
  exact reference_entity hw hc hl after

/-- A character is read back from the reference by its decimal number. -/
theorem readsAs_decimal {limit : Nat} {front : List Char → Front} {change : Char → Char}
    {after : List Char} {c : Char} (digits : List Char) (hf : ∀ next, front ('&' :: next) = .further)
    (hd : digits ≠ []) (hall : digits.all Char.isDigit = true)
    (hsmall : numeral 10 digits < 2 ^ 32) (hx : isXmlCode (numeral 10 digits) = true)
    (hc : Char.ofNat (numeral 10 digits) = c) :
    ReadsAs limit front change after c ('&' :: '#' :: (digits ++ [';'])) := by
  refine .reference (hf _) ?_
  rw [List.cons_append, List.append_assoc, ← hc]
  exact reference_decimal hd (List.all_eq_true.1 hall) hsmall hx after

/-! ## Text -/

theorem textFront_cons (c : Char) (next : List Char) :
    textFront (c :: next) =
      if c = '<' then .ends (c :: next)
      else if (after? cdataClose (c :: next)).isSome then .refused .cdataEndInText
      else .further := rfl

theorem textFront_reference (next : List Char) : textFront ('&' :: next) = .further := rfl

theorem readsAs_escapedInText {limit : Nat} {after : List Char} {c : Char}
    (hx : isXmlChar c = true) (hl : entityLength (Render.escapedInText c) ≤ limit)
    (hf : c ≠ '<' → textFront (c :: after) = .further) :
    ReadsAs limit textFront id after c (Render.escapedInText c) := by
  unfold Render.escapedInText at hl ⊢
  split
  · exact readsAs_entity ['l', 't'] textFront_reference
      (isName_cons (by decide) (by decide)) rfl hl
  · exact readsAs_entity ['g', 't'] textFront_reference
      (isName_cons (by decide) (by decide)) rfl hl
  · exact readsAs_entity ['a', 'm', 'p'] textFront_reference
      (isName_cons (by decide) (by decide)) rfl hl
  · exact readsAs_decimal ['1', '3'] textFront_reference (by decide) (by decide)
      (by decide) (by decide) (by decide)
  · rename_i hlt hgt hamp hcr
    exact .itself (hf hlt) hamp hx hcr rfl

/-- No character is written as something that begins with an angle bracket, and a square bracket
only begins what it is written as itself. -/
theorem head_escapedInText (c : Char) : ∃ d l, Render.escapedInText c = d :: l ∧ d ≠ '<' ∧
    d ≠ '>' ∧ (d = ']' → c = ']' ∧ l = []) := by
  unfold Render.escapedInText
  split
  · exact ⟨'&', _, rfl, by decide, by decide, by decide⟩
  · exact ⟨'&', _, rfl, by decide, by decide, by decide⟩
  · exact ⟨'&', _, rfl, by decide, by decide, by decide⟩
  · exact ⟨'&', _, rfl, by decide, by decide, by decide⟩
  · rename_i hlt hgt _ _
    exact ⟨c, [], rfl, hlt, hgt, fun h => ⟨h, rfl⟩⟩

/-- Before markup or the end of the text. -/
def BeforeMarkup (cs : List Char) : Prop :=
  cs = [] ∨ ∃ rest, cs = '<' :: rest

theorem textFront_of_beforeMarkup {cs : List Char} (h : BeforeMarkup cs) :
    textFront cs = .ends cs := by
  rcases h with rfl | ⟨rest, rfl⟩
  · rfl
  · rfl

theorem beforeMarkup_of_textFront {cs rest : List Char} (h : textFront cs = .ends rest) :
    BeforeMarkup rest := by
  cases cs with
  | nil =>
    unfold textFront at h
    rw [Front.ends.injEq] at h
    exact .inl h.symm
  | cons c cs =>
    rw [textFront_cons] at h
    by_cases hc : c = '<'
    · rw [if_pos hc, Front.ends.injEq] at h
      exact .inr ⟨cs, by rw [← h, hc]⟩
    · rw [if_neg hc] at h
      split at h <;> cases h

/-- Written text does not go on with a closing angle bracket. -/
theorem head_text_ne (more : List Char) {tail : List Char} (ht : BeforeMarkup tail) :
    (Render.text more ++ tail).head? ≠ some '>' := by
  unfold Render.text
  cases more with
  | nil =>
    rw [List.flatMap_nil, List.nil_append]
    rcases ht with rfl | ⟨rest, rfl⟩
    · simp
    · simp
  | cons c more =>
    obtain ⟨d, l, he, -, hd, -⟩ := head_escapedInText c
    rw [List.flatMap_cons, he]
    exact fun h => hd (Option.some.inj h)

/-- The end mark of CDATA does not come up in written text. -/
theorem textFront_written {c : Char} {more tail : List Char} (hc : c ≠ '<')
    (ht : BeforeMarkup tail) : textFront (c :: (Render.text more ++ tail)) = .further := by
  have hnone : after? cdataClose (c :: (Render.text more ++ tail)) = none := by
    rw [after?_eq_none_iff]
    intro hp
    unfold cdataClose at hp
    rw [List.cons_prefix_cons] at hp
    cases more with
    | nil =>
      rcases ht with rfl | ⟨rest, rfl⟩
      · exact absurd hp.2.length_le (by decide)
      · rw [Render.text, List.flatMap_nil, List.nil_append, List.cons_prefix_cons] at hp
        exact absurd hp.2.1 (by decide)
    | cons d more =>
      obtain ⟨e, l, he, -, -, hd⟩ := head_escapedInText d
      rw [Render.text, List.flatMap_cons, he, List.cons_append, List.cons_append,
        List.cons_prefix_cons] at hp
      obtain ⟨-, rfl, hp⟩ := hp
      rw [(hd rfl).2, List.nil_append] at hp
      obtain ⟨rest, hrest⟩ := hp
      refine head_text_ne more ht ?_
      unfold Render.text
      rw [← hrest]
      rfl
  rw [textFront_cons, if_neg hc, hnone]
  rfl

/-- Text that was escaped is read back up to the markup after it. -/
theorem characterData_written {o : ReadOptions} {used : Nat} {cs tail : List Char}
    (h : Escapable o.maxNameLength Render.escapedInText cs)
    (hu : used + references Render.escapedInText cs ≤ o.maxReferences)
    (ht : BeforeMarkup tail) :
    characterData o used (Render.text cs ++ tail) =
      .ok (cs, used + references Render.escapedInText cs, tail) := by
  refine referencedRun_written ?_ (textFront_of_beforeMarkup ht) hu
  intro c more hs
  obtain ⟨hx, hl⟩ := h c (hs.mem List.mem_cons_self)
  exact readsAs_escapedInText hx hl fun hc => textFront_written hc ht

/-- Space is read with its line ends made equal, up to the markup after it. -/
theorem characterData_space {o : ReadOptions} (used : Nat) {cs tail : List Char}
    (hs : ∀ c ∈ cs, isMarkupSpace c = true) (ht : BeforeMarkup tail) :
    characterData o used (cs ++ tail) = .ok (lineEnds cs, used, tail) := by
  unfold characterData
  induction cs with
  | nil => exact referencedRun_ends (textFront_of_beforeMarkup ht)
  | cons c cs ih =>
    have hc := hs c List.mem_cons_self
    have hmore := ih fun d hd => hs d (List.mem_cons_of_mem c hd)
    have hfront : textFront (c :: (cs ++ tail)) = .further := by
      have hnone : after? cdataClose (c :: (cs ++ tail)) = none := by
        rw [after?_eq_none_iff]
        intro hp
        unfold cdataClose at hp
        rw [← (List.cons_prefix_cons.1 hp).1] at hc
        exact absurd hc (by decide)
      rw [textFront_cons, if_neg (by rintro rfl; exact absurd hc (by decide)), hnone]
      rfl
    have hx : isXmlChar c = true := isXmlChar_of_isMarkupSpace hc
    have hfirst : contribution c (cs ++ tail) =
        .ok (if c = '\r' then if cs.head? = some '\n' then [] else ['\n'] else [c]) := by
      refine contribution_append hx fun _ => ?_
      rcases ht with rfl | ⟨rest, rfl⟩
      · simp
      · simp
    rw [List.cons_append, referencedRun_further hfront,
      if_neg (by rintro rfl; exact absurd hc (by decide)), hfirst, ok_bind, hmore, ok_bind,
      List.map_id]
    rfl

/-- Character data that was read may stand in a document, and markup or the end follows it. -/
theorem characterData_eq_ok {o : ReadOptions} {used used' : Nat} {cs v rest : List Char}
    (h : characterData o used cs = .ok (v, used', rest)) :
    (∀ c ∈ v, isXmlChar c = true) ∧ BeforeMarkup rest := by
  refine ⟨isXmlChar_of_referencedRun (fun _ hc => hc) h, ?_⟩
  obtain ⟨l, hl⟩ := ends_of_referencedRun h
  exact beforeMarkup_of_textFront hl

/-! ## Attribute values -/

theorem attributeFront_further {c : Char} (hq : c ≠ '"') (hl : c ≠ '<') (next : List Char) :
    attributeFront '"' (c :: next) = .further := by
  simp only [attributeFront, if_neg hq, if_neg hl]

theorem readsAs_escapedInValue {limit : Nat} {after : List Char} {c : Char}
    (hx : isXmlChar c = true) (hl : entityLength (Render.escapedInValue c) ≤ limit) :
    ReadsAs limit (attributeFront '"') attributeBlank after c (Render.escapedInValue c) := by
  have hf : ∀ next, attributeFront '"' ('&' :: next) = .further :=
    attributeFront_further (by decide) (by decide)
  unfold Render.escapedInValue at hl ⊢
  split
  · exact readsAs_entity ['l', 't'] hf (isName_cons (by decide) (by decide)) rfl hl
  · exact readsAs_entity ['g', 't'] hf (isName_cons (by decide) (by decide)) rfl hl
  · exact readsAs_entity ['a', 'm', 'p'] hf
      (isName_cons (by decide) (by decide)) rfl hl
  · exact readsAs_entity ['q', 'u', 'o', 't'] hf
      (isName_cons (by decide) (by decide)) rfl hl
  · exact readsAs_decimal ['1', '0'] hf (by decide) (by decide) (by decide)
      (by decide) (by decide)
  · exact readsAs_decimal ['1', '3'] hf (by decide) (by decide) (by decide)
      (by decide) (by decide)
  · exact readsAs_decimal ['9'] hf (by decide) (by decide) (by decide) (by decide)
      (by decide)
  · rename_i hlt hgt hamp hquot hlf hcr htab
    refine .itself (attributeFront_further hquot hlt _) hamp hx hcr ?_
    unfold attributeBlank
    rw [if_neg]
    rintro (h | h)
    · exact hlf h
    · exact htab h

/-- An attribute value that was escaped is read back up to its closing quote. -/
theorem attributeValue_written {o : ReadOptions} {used : Nat} {cs : List Char}
    (h : Escapable o.maxNameLength Render.escapedInValue cs)
    (hu : used + references Render.escapedInValue cs ≤ o.maxReferences) (rest : List Char) :
    attributeValue o used ('"' :: (Render.value cs ++ '"' :: rest)) =
      .ok (cs, used + references Render.escapedInValue cs, rest) := by
  have hrun : referencedRun o (attributeFront '"') attributeBlank used
      (Render.value cs ++ '"' :: rest) =
        .ok (cs, used + references Render.escapedInValue cs, rest) := by
    refine referencedRun_written ?_ rfl hu
    intro c more hs
    obtain ⟨hx, hl⟩ := h c (hs.mem List.mem_cons_self)
    exact readsAs_escapedInValue hx hl
  simp only [attributeValue, true_or, ↓reduceIte]
  exact hrun

/-- An attribute value that was read may stand in a document. -/
theorem isXmlChar_of_attributeValue {o : ReadOptions} {used used' : Nat} {cs v rest : List Char}
    (h : attributeValue o used cs = .ok (v, used', rest)) : ∀ c ∈ v, isXmlChar c = true := by
  cases cs with
  | nil => cases h
  | cons q cs =>
    simp only [attributeValue] at h
    by_cases hq : q = '"' ∨ q = '\''
    · rw [if_pos hq] at h
      refine isXmlChar_of_referencedRun ?_ h
      intro c hc
      unfold attributeBlank
      split
      · decide
      · exact hc
    · rw [if_neg hq] at h
      cases h

end MarkupFields.Scan
