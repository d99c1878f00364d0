import MarkupFields.Proofs.Markup.Limits
import MarkupFields.Proofs.Markup.Productions
import MarkupFields.Proofs.Text.Bytes

/-
  The room that escaped text takes. What was escaped is read back as it was, up to the closing quote
  of an attribute value or the markup after text (`attributeValue_written`, `characterData_written`),
  as long as there is room: each reference is counted, and the name of an entity is a name, so it is
  held to the limit on names. Without that room it is refused, so the conditions are exact
  (`Fits.of_referencedRun`). All this is shown of lists of characters; a cursor reads the same and
  stops where they do (`read_escaped_iff`).
-/

namespace MarkupFields.Scan

open Text

/-! ## Room -/

/-- The limits leave room for the references of what is written for the characters and for the names
of the entities in it. -/
structure Fits (o : ReadOptions) (used : Nat) (escaped : Char → List Char) (cs : List Char) :
    Prop where
  references : used + references escaped cs ≤ o.maxReferences
  names : ∀ c ∈ cs, entityLength (escaped c) ≤ o.maxNameLength

theorem entityLength_singleton {c : Char} (hc : c ≠ '&') : entityLength [c] = 0 := by
  unfold entityLength
  split
  · rfl
  · rename_i h
    exact absurd (List.cons.inj h).1 hc
  · rfl

theorem entityLength_name {b : Char} (hb : b ≠ '#') (body : List Char) :
    entityLength ('&' :: b :: body) = body.length := by
  unfold entityLength
  split
  · rename_i h
    exact absurd (List.cons.inj (List.cons.inj h).2).1 hb
  · rename_i name _ h
    rw [← (List.cons.inj h).2]
    rfl
  · rename_i h
    exact absurd rfl (h _)

/-- The name of an entity that was read, if the reference has one, is within the limit. -/
theorem entityLength_le_of_reference {limit : Nat} {body after : List Char} {c : Char}
    (h : reference limit (body ++ after) = .ok (c, after)) : entityLength ('&' :: body) ≤ limit := by
  cases body with
  | nil => exact Nat.zero_le limit
  | cons b body =>
    by_cases hb : b = '#'
    · rw [hb]
      exact Nat.zero_le limit
    · have hhex : after? ['#', 'x'] (b :: (body ++ after)) = none := by
        rw [after?, if_neg (Ne.symm hb)]
      have hdecimal : after? ['#'] (b :: (body ++ after)) = none := by
        rw [after?, if_neg (Ne.symm hb)]
      rw [List.cons_append] at h
      unfold reference at h
      rw [hhex, hdecimal] at h
      obtain ⟨⟨word, mid⟩, hname, h⟩ := bind_eq_ok.1 h
      obtain ⟨rest, hrest, h⟩ := bind_eq_ok.1 h
      have hafter : rest = after := by
        split at h
        · exact (Prod.mk.inj (Except.ok.inj h)).2
        · cases h
      obtain ⟨-, hlimit, -⟩ := isName_of_name hname
      have hsplit : (b :: body) ++ after = word ++ [';'] ++ after := by
        rw [hafter, expect_eq_ok_iff] at hrest
        rw [List.append_assoc, List.singleton_append, ← hrest]
        exact (name_eq_ok hname).1
      have hlength := congrArg List.length (List.append_cancel_right hsplit)
      rw [List.length_cons, List.length_append, List.length_singleton] at hlength
      have hword := length_le_utf8Length word
      rw [entityLength_name hb]
      omega

theorem Fits.cons {o : ReadOptions} {used : Nat} {escaped : Char → List Char} {c : Char}
    {cs : List Char} (hc : entityLength (escaped c) ≤ o.maxNameLength)
    (h : Fits o (used + if isReference (escaped c) then 1 else 0) escaped cs) :
    Fits o used escaped (c :: cs) := by
  refine ⟨?_, List.forall_mem_cons.2 ⟨hc, h.names⟩⟩
  have hroom := h.references
  unfold Scan.references at hroom ⊢
  rw [List.countP_cons]
  omega

/-- What is read back had room, if it can be read back under some limit on names. -/
theorem Fits.of_referencedRun {o : ReadOptions} {limit : Nat} (hlimit : o.maxNameLength ≤ limit)
    {front : List Char → Front} {change : Char → Char} {escaped : Char → List Char}
    {cs tail : List Char} {used : Nat} (hu : used ≤ o.maxReferences)
    (hr : ∀ c more, c :: more <:+ cs →
      ReadsAs limit front change (more.flatMap escaped ++ tail) c (escaped c))
    {r : List Char × Nat × List Char}
    (h : referencedRun o front change used (cs.flatMap escaped ++ tail) = .ok r) :
    Fits o used escaped cs := by
  induction cs generalizing used r with
  | nil => exact ⟨hu, fun c hc => absurd hc List.not_mem_nil⟩
  | cons c cs ih =>
    have hc := hr c cs (List.suffix_refl _)
    have hsub : ∀ d more, d :: more <:+ cs → ReadsAs limit front change
        (more.flatMap escaped ++ tail) d (escaped d) :=
      fun d more hd => hr d more (hd.trans (List.suffix_cons c cs))
    rw [List.flatMap_cons, List.append_assoc] at h
    suffices hpiece : entityLength (escaped c) ≤ o.maxNameLength ∧
        Fits o (used + if isReference (escaped c) then 1 else 0) escaped cs from
      .cons hpiece.1 hpiece.2
    generalize escaped c = piece at hc h ⊢
    cases hc with
    | itself further bare legal kept unchanged =>
      have hbare : isReference [c] = false := by
        simp [isReference, bare]
      rw [List.singleton_append, referencedRun_further further, if_neg bare] at h
      obtain ⟨first, -, h⟩ := bind_eq_ok.1 h
      obtain ⟨more, hmore, -⟩ := bind_eq_ok.1 h
      rw [entityLength_singleton bare, hbare]
      exact ⟨Nat.zero_le _, ih hu hsub hmore⟩
    | @reference body further taken =>
      have href : isReference ('&' :: body) = true := rfl
      rw [List.cons_append, referencedRun_further further, if_pos rfl] at h
      split at h
      · cases h
      · rename_i hused
        obtain ⟨p, hp, h⟩ := bind_eq_ok.1 h
        obtain ⟨more, hmore, -⟩ := bind_eq_ok.1 h
        -- under the higher limit it is known what the reference is read as
        have hsame := reference_of_le hlimit hp
        rw [taken] at hsame
        obtain rfl := Except.ok.inj hsame
        rw [href]
        exact ⟨entityLength_le_of_reference hp, ih (Nat.not_lt.1 hused) hsub hmore⟩

/-! ## Values and text -/

variable {o : ReadOptions} {used : Nat} {cs : List Char}

/-- Where a condition forces the result and any success forces the condition, the two come together. -/
theorem eq_ok_iff_of_forced {ε α : Type} {x : Except ε α} {P : Prop} {a : α} (hx : P → x = .ok a)
    (hP : ∀ b, x = .ok b → P) (b : α) : x = .ok b ↔ P ∧ b = a := by
  constructor
  · intro h
    exact ⟨hP b h, Except.ok.inj (h.symm.trans (hx (hP b h)))⟩
  · rintro ⟨h, rfl⟩
    exact hx h

/-- An attribute value that was escaped is read back exactly if there is room. -/
theorem attributeValue_written_iff (hu : used ≤ o.maxReferences)
    (hcs : ∀ c ∈ cs, isXmlChar c = true) (rest : List Char) (r : List Char × Nat × List Char) :
    attributeValue o used ('"' :: (Render.value cs ++ '"' :: rest)) = .ok r ↔
      Fits o used Render.escapedInValue cs ∧
        r = (cs, used + references Render.escapedInValue cs, rest) := by
  refine eq_ok_iff_of_forced (fun hfits => ?_) (fun r h => ?_) r
  · exact attributeValue_written (fun c hc => ⟨hcs c hc, hfits.names c hc⟩) hfits.references rest
  · simp only [attributeValue, true_or, ↓reduceIte] at h
    refine .of_referencedRun (Nat.le_max_right 4 _) hu (fun c more hs => ?_) h
    exact readsAs_escapedInValue (hcs c (hs.mem List.mem_cons_self))
      (Nat.le_trans (entityLength_escapedInValue c) (Nat.le_max_left 4 _))

/-- Text that was escaped is read back exactly if there is room. -/
theorem characterData_written_iff (hu : used ≤ o.maxReferences)
    (hcs : ∀ c ∈ cs, isXmlChar c = true) {tail : List Char} (ht : BeforeMarkup tail)
    (r : List Char × Nat × List Char) :
    characterData o used (Render.text cs ++ tail) = .ok r ↔
      Fits o used Render.escapedInText cs ∧
        r = (cs, used + references Render.escapedInText cs, tail) := by
  refine eq_ok_iff_of_forced (fun hfits => ?_) (fun r h => ?_) r
  · exact characterData_written (fun c hc => ⟨hcs c hc, hfits.names c hc⟩) hfits.references ht
  · refine .of_referencedRun (Nat.le_max_right 4 _) hu (fun c more hs => ?_) h
    exact readsAs_escapedInText (hcs c (hs.mem List.mem_cons_self))
      (Nat.le_trans (entityLength_escapedInText c) (Nat.le_max_left 4 _))
      fun hc => textFront_written hc ht

/-! ## Reading with a cursor -/

variable {text : String} {c : Cursor text.toUTF8} {d : Nat}

/-- Escaping is undone by reading, in attribute values and in text, exactly if there is room: the
characters are read back as they are, the cursor stops behind the closing quote or before the markup,
and it has counted the references. -/
theorem read_escaped_iff (hu : used ≤ o.maxReferences) (hcs : ∀ a ∈ cs, isXmlChar a = true)
    (rest : List Char) :
    (c.Stands d used ('"' :: (Render.value cs ++ '"' :: rest)) →
      ∀ v c', c.attributeValue o = .ok (v, c') ↔ Fits o used Render.escapedInValue cs ∧ v = cs ∧
        c'.Stands d (used + references Render.escapedInValue cs) rest) ∧
    (c.Stands d used (Render.text cs ++ '<' :: rest) →
      ∀ v c', c.characterData o = .ok (v, c') ↔ Fits o used Render.escapedInText cs ∧ v = cs ∧
        c'.Stands d (used + references Render.escapedInText cs) ('<' :: rest)) := by
  refine ⟨fun h v c' => ?_, fun h v c' => ?_⟩
  · rw [Cursor.eq_ok_iff_of_counted (Cursor.attributeValue_follows o h)]
    constructor
    · rintro ⟨n, left, hread, hleft⟩
      obtain ⟨hfits, hsame⟩ := (attributeValue_written_iff hu hcs rest _).1 hread
      cases hsame
      exact ⟨hfits, rfl, hleft⟩
    · rintro ⟨hfits, rfl, hleft⟩
      exact ⟨_, _, (attributeValue_written_iff hu hcs rest _).2 ⟨hfits, rfl⟩, hleft⟩
  · have hmarkup : BeforeMarkup ('<' :: rest) := .inr ⟨rest, rfl⟩
    rw [Cursor.eq_ok_iff_of_counted (Cursor.characterData_follows o h)]
    constructor
    · rintro ⟨n, left, hread, hleft⟩
      obtain ⟨hfits, hsame⟩ := (characterData_written_iff hu hcs hmarkup _).1 hread
      cases hsame
      exact ⟨hfits, rfl, hleft⟩
    · rintro ⟨hfits, rfl, hleft⟩
      exact ⟨_, _, (characterData_written_iff hu hcs hmarkup _).2 ⟨hfits, rfl⟩, hleft⟩

/-- Space, quotes and the end mark of CDATA are read back. The limits are just high enough: four
letters for the name of an entity, and one reference of seven for what was read before. -/
theorem read_escaped_iff_mixed :
    let o : ReadOptions := { maxNameLength := 4, maxReferences := 7 }
    let cs := "\t\"]]>\r\n&".toList
    let value := "<a b=\"&#9;&quot;]]&gt;&#13;&#10;&amp;\"/>"
    let content := "<a>\t\"]]&gt;&#13;\n&amp;</a>"
    let c : Cursor value.toUTF8 := { toLocation := ⟨1, 6, 5⟩, references := 1 }
    let c' : Cursor content.toUTF8 := { toLocation := ⟨1, 4, 3⟩, references := 1 }
    1 ≤ o.maxReferences ∧ (∀ a ∈ cs, isXmlChar a = true) ∧
      c.Stands 0 1 ('"' :: (Render.value cs ++ '"' :: "/>".toList)) ∧
      c.attributeValue o = .ok (cs, { toLocation := ⟨1, 39, 38⟩, references := 7 }) ∧
      c'.Stands 0 1 (Render.text cs ++ '<' :: "/a>".toList) ∧
      c'.characterData o = .ok (cs, { toLocation := ⟨2, 6, 22⟩, references := 4 }) := by
  intro o cs value content c c'
  have hu : 1 ≤ o.maxReferences := by decide
  have hcs : ∀ a ∈ cs, isXmlChar a = true := List.all_eq_true.1 (by decide)
  have hvalue : Fits o 1 Render.escapedInValue cs :=
    ⟨by decide, fun a _ => entityLength_escapedInValue a⟩
  have htext : Fits o 1 Render.escapedInText cs :=
    ⟨by decide, fun a _ => entityLength_escapedInText a⟩
  have hc : c.Stands 0 1 ('"' :: (Render.value cs ++ '"' :: "/>".toList)) :=
    ⟨rfl, rfl, "<a b=".toList, by decide +kernel, by decide +kernel⟩
  have hc' : c'.Stands 0 1 (Render.text cs ++ '<' :: "/a>".toList) :=
    ⟨rfl, rfl, "<a>".toList, by decide +kernel, by decide +kernel⟩
  refine ⟨hu, hcs, hc, ?_, hc', ?_⟩
  · refine (((read_escaped_iff hu hcs _).1 hc) _ _).2 ⟨hvalue, rfl, rfl, rfl, ?_⟩
    exact ⟨value.toList.take 38, by decide +kernel, by decide +kernel⟩
  · refine (((read_escaped_iff hu hcs _).2 hc') _ _).2 ⟨htext, rfl, rfl, rfl, ?_⟩
    exact ⟨content.toList.take 22, by decide +kernel, by decide +kernel⟩

/-- Under a limit of two letters an ampersand is not read back, however many references may be
read. -/
theorem not_read_escaped_of_short_limit :
    ¬ ∀ (o : ReadOptions) (text : String) (c : Cursor text.toUTF8) (d used : Nat)
      (cs rest : List Char), (∀ a ∈ cs, isXmlChar a = true) →
      used + references Render.escapedInValue cs ≤ o.maxReferences →
      used + references Render.escapedInText cs ≤ o.maxReferences →
      (c.Stands d used ('"' :: (Render.value cs ++ '"' :: rest)) →
        ∃ c' used', c.attributeValue o = .ok (cs, c') ∧ c'.Stands d used' rest) ∧
        (c.Stands d used (Render.text cs ++ '<' :: rest) →
          ∃ c' used', c.characterData o = .ok (cs, c') ∧ c'.Stands d used' ('<' :: rest)) := by
  intro h
  let o : ReadOptions := { maxNameLength := 2 }
  have hcs : ∀ a ∈ ['&'], isXmlChar a = true := List.all_eq_true.1 (by decide)
  have hc : (Cursor.start "\"&amp;\"".toUTF8).Stands 0 0
      ('"' :: (Render.value ['&'] ++ ['"'])) := Cursor.stands_start
  obtain ⟨c', used', hread, -⟩ := (h o _ _ 0 0 ['&'] [] hcs (by decide) (by decide)).1 hc
  have hfollows := Cursor.attributeValue_follows o hc
  obtain ⟨n, rest, hlist, -⟩ := (Cursor.eq_ok_iff_of_counted hfollows _ _).1 hread
  obtain ⟨hfits, -⟩ := (attributeValue_written_iff (Nat.zero_le _) hcs [] _).1 hlist
  exact absurd (hfits.names '&' List.mem_cons_self) (by decide)

end MarkupFields.Scan
