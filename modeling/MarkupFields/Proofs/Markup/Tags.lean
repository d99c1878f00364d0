import MarkupFields.Markup.Parse
import MarkupFields.Proofs.Markup.Legal
import MarkupFields.Proofs.Markup.Scopes

/-
  Start tags, read and written. Reading a start tag gives an element that can be written again, with
  the names it has in its scope; reading the written start tag in the same scope gives the element.
  Resolving names changes nothing but namespaces, so the tag that is written is the tag that was
  read, up to space and the spelling of the values.
-/

namespace MarkupFields

open Text Scan

/-! ## Resolving names changes namespaces only -/

theorem Scope.asWritten_resolveAttributes {s : Scope} {as as' : List Attribute}
    (h : s.resolveAttributes as = .ok as') :
    as'.map Attribute.asWritten = as.map Attribute.asWritten := by
  rw [resolveAttributes_eq_ok] at h
  induction h with
  | nil => rfl
  | cons ha _ ih =>
    obtain ⟨uri, -, rfl⟩ := ha
    rw [List.map_cons, List.map_cons, ih]
    rfl

theorem Scope.asWritten_enter {s inside : Scope} {e e' : Element}
    (h : s.enter e = .ok (inside, e')) : e'.asWritten = e.asWritten := by
  obtain ⟨-, -, -, as, uri, has, -, -, rfl⟩ := enter_eq_ok.1 h
  unfold Element.asWritten
  rw [asWritten_resolveAttributes has]

/-- The names that are read do not depend on the namespaces that were there before. -/
theorem Element.readIn_of_readNames {o : ReadOptions} {s inside : Scope} {e e' : Element}
    {cs : List Char} (he : e.asWritten = e) (h : readNames o s e cs = .ok (inside, e')) :
    e'.ReadIn o.namespaceAware s inside ∧ e'.asWritten = e := by
  unfold readNames at h
  unfold Element.ReadIn
  by_cases ha : o.namespaceAware = true
  · rw [if_pos ha] at h
    rw [if_pos ha]
    split at h
    · rename_i r hr
      rw [Except.ok.injEq] at h
      rw [h] at hr
      have hw := Scope.asWritten_enter hr
      rw [he] at hw
      exact ⟨hw.symm ▸ hr, hw⟩
    · cases h
  · rw [if_neg ha, Except.ok.injEq, Prod.mk.injEq] at h
    rw [if_neg ha, ← h.2]
    exact ⟨⟨h.1.symm, he⟩, he⟩

theorem Element.readNames_of_readIn {o : ReadOptions} {s inside : Scope} {e : Element}
    (h : e.ReadIn o.namespaceAware s inside) (cs : List Char) :
    readNames o s e.asWritten cs = .ok (inside, e) := by
  unfold Element.ReadIn at h
  unfold readNames
  by_cases ha : o.namespaceAware = true
  · rw [if_pos ha] at h ⊢
    rw [h]
  · rw [if_neg ha] at h ⊢
    rw [h.1, h.2]

/-! ## Writing and reading back -/

namespace Scan

variable {o : ReadOptions}

/-- What can follow the name or an attribute in a start tag that was written. -/
def TagRest (cs : List Char) : Prop :=
  ∃ c rest, cs = c :: rest ∧ (c = ' ' ∨ c = '>' ∨ c = '/')

theorem TagRest.endsName {cs : List Char} (h : TagRest cs) : EndsName cs := by
  obtain ⟨c, rest, rfl, hc⟩ := h
  intro d hd
  rw [← Option.some.inj hd]
  rcases hc with rfl | rfl | rfl
  · decide
  · decide
  · decide

theorem tagRest_attributes (as : List Attribute) {tail : List Char} (h : atTagEnd tail = true) :
    TagRest (as.flatMap Render.attributePair ++ tail) := by
  cases as with
  | nil =>
    rw [List.flatMap_nil, List.nil_append]
    unfold atTagEnd at h
    rw [Bool.or_eq_true, after?_isSome_iff, after?_isSome_iff] at h
    rcases h with ⟨l, rfl⟩ | ⟨l, rfl⟩
    · exact ⟨'>', l, rfl, .inr (.inl rfl)⟩
    · exact ⟨'/', '>' :: l, rfl, .inr (.inr rfl)⟩
  | cons a as => exact ⟨' ', _, rfl, .inl rfl⟩

/-- Tag ends begin with no space. -/
theorem skipSpace_atTagEnd {cs : List Char} (h : atTagEnd cs = true) : skipSpace cs = cs := by
  unfold atTagEnd at h
  rw [Bool.or_eq_true, after?_isSome_iff, after?_isSome_iff] at h
  rcases h with ⟨l, rfl⟩ | ⟨l, rfl⟩
  · rfl
  · rfl

/-- A name does not end a tag. -/
theorem atTagEnd_name {word : List Char} (h : IsName word) (rest : List Char) :
    atTagEnd (word ++ rest) = false := by
  have hgt : (word ++ rest).head? ≠ some '>' := h.head_ne (by decide) rest
  have hslash : (word ++ rest).head? ≠ some '/' := h.head_ne (by decide) rest
  by_contra hs
  rw [Bool.not_eq_false] at hs
  unfold atTagEnd at hs
  rw [Bool.or_eq_true, after?_isSome_iff, after?_isSome_iff] at hs
  rcases hs with ⟨l, hl⟩ | ⟨l, hl⟩
  · refine hgt ?_
    rw [← hl]
    rfl
  · refine hslash ?_
    rw [← hl]
    rfl

/-- The attribute can be written, and no name in it is longer than the limit. -/
structure AttributeFits (aware : Bool) (limit : Nat) (a : Attribute) : Prop where
  writable : a.Writable aware
  name : utf8Length a.name.written.toList ≤ limit
  value : ∀ c ∈ a.value.toList, entityLength (Render.escapedInValue c) ≤ limit

theorem attributePair_written {a : Attribute} (used : Nat)
    (h : AttributeFits o.namespaceAware o.maxNameLength a)
    (hu : used + a.references ≤ o.maxReferences) (rest : List Char) :
    attributePair o used (a.name.written.toList ++ '=' :: '"' ::
        (Render.value a.value.toList ++ '"' :: rest)) =
      .ok (a.asWritten, used + a.references, rest) := by
  have heq : EndsName ('=' :: '"' :: (Render.value a.value.toList ++ '"' :: rest)) := by
    intro c hc
    rw [← Option.some.inj hc]
    decide
  have hname := name_written h.writable.name.isName h.name heq
  have hvalue : attributeValue o used ('"' :: (Render.value a.value.toList ++ '"' :: rest)) =
      .ok (a.value.toList, used + a.references, rest) :=
    attributeValue_written (fun c hc => ⟨h.writable.value c hc, h.value c hc⟩) hu rest
  have hassign : expect '=' (skipSpace ('=' :: '"' :: (Render.value a.value.toList ++ '"' :: rest)))
      = .ok ('"' :: (Render.value a.value.toList ++ '"' :: rest)) := expect_eq_ok_iff.2 rfl
  have hquote : skipSpace ('"' :: (Render.value a.value.toList ++ '"' :: rest)) =
      '"' :: (Render.value a.value.toList ++ '"' :: rest) := rfl
  have hq : ¬ (o.namespaceAware && !(a.name.isQualified)) = true := by
    rw [Bool.and_eq_true, not_and, Bool.not_eq_true', Bool.not_eq_false]
    exact h.writable.qualified
  simp only [attributePair, bind, Except.bind, hname, hassign, hquote, hvalue,
    h.writable.name.split, if_neg hq, String.ofList_toList]
  rfl

theorem attributePairs_written {as : List Attribute} (earlier : List Attribute) (used : Nat)
    {tail : List Char}
    (h : ∀ a ∈ as, AttributeFits o.namespaceAware o.maxNameLength a)
    (hd : (earlier.map Attribute.name ++ as.map Attribute.name).Nodup)
    (hu : used + (as.map Attribute.references).sum ≤ o.maxReferences)
    (ht : atTagEnd tail = true) :
    attributePairs o earlier used (as.flatMap Render.attributePair ++ tail) =
      .ok (earlier ++ as.map Attribute.asWritten,
        used + (as.map Attribute.references).sum, tail) := by
  induction as generalizing earlier used with
  | nil =>
    rw [List.flatMap_nil, List.nil_append]
    rw [attributePairs, skipSpace_atTagEnd ht, if_pos ht, List.map_nil, List.append_nil]
    rfl
  | cons a as ih =>
    have hsum : ((a :: as).map Attribute.references).sum =
        a.references + (as.map Attribute.references).sum := rfl
    rw [hsum] at hu ⊢
    have ha := h a List.mem_cons_self
    have hname := ha.writable.name.isName
    have hpair := attributePair_written used ha (by omega)
      (as.flatMap Render.attributePair ++ tail)
    have hnew : ¬ (earlier.any fun b => b.name == a.asWritten.name) = true := by
      rw [List.any_eq_true]
      rintro ⟨b, hb, he⟩
      rw [beq_iff_eq] at he
      rw [List.map_cons, List.nodup_append] at hd
      exact hd.2.2 b.name (List.mem_map_of_mem hb) a.name List.mem_cons_self he
    have hrest := ih (earlier ++ [a.asWritten]) (used + a.references)
      (fun b hb => h b (List.mem_cons_of_mem a hb))
      (by simpa [Attribute.asWritten] using hd) (by omega)
    have hblank : (a :: as).flatMap Render.attributePair ++ tail =
        ' ' :: (a.name.written.toList ++ '=' :: '"' :: (Render.value a.value.toList ++
          '"' :: (as.flatMap Render.attributePair ++ tail))) := by
      simp [Render.attributePair]
    rw [hblank]
    rw [attributePairs, skipSpace_blank, skipSpace_name hname, atTagEnd_name hname]
    simp only [Bool.false_eq_true, ↓reduceIte]
    rw [if_neg (by simp [startsWithSpace, isMarkupSpace])]
    split
    · rename_i e he
      rw [hpair] at he
      cases he
    · rename_i b used' rest he
      rw [hpair, Except.ok.injEq, Prod.mk.injEq, Prod.mk.injEq] at he
      obtain ⟨rfl, rfl, rfl⟩ := he
      rw [if_neg hnew, hrest, List.append_assoc, Nat.add_assoc]
      rfl

/-- The start tag of an element that can be written is read back as the element. -/
theorem startTag_written {s inside : Scope} {e : Element} (used : Nat) {tail : List Char}
    (hw : e.Writable o.namespaceAware) (hn : e.ReadIn o.namespaceAware s inside)
    (hl : (Content.element e).NamesWithin o.maxNameLength)
    (hu : used + (Content.element e).references ≤ o.maxReferences)
    (ht : atTagEnd tail = true) :
    startTag o s used (e.name.written.toList ++ (e.attributes.flatMap Render.attributePair ++ tail))
      = .ok ((inside, e), used + (Content.element e).references, tail) := by
  have hname := name_written hw.name.isName hl.1 (tagRest_attributes e.attributes ht).endsName
  have hattributes := attributePairs_written (o := o) [] used
    (fun a ha => ⟨hw.attributes a ha, (hl.2 a ha).1, (hl.2 a ha).2⟩)
    (by rw [List.map_nil, List.nil_append]; exact hw.distinct) hu ht
  have hnames := Element.readNames_of_readIn hn tail
  unfold Element.asWritten at hnames
  simp only [startTag, bind, Except.bind, hname, hattributes, List.nil_append,
    hw.name.split, hnames]
  rfl

/-! ## What was read can be written -/

theorem attributePair_eq_ok {used used' : Nat} {cs rest : List Char} {a : Attribute}
    (h : attributePair o used cs = .ok (a, used', rest)) :
    a.Writable o.namespaceAware ∧ utf8Length a.name.written.toList ≤ o.maxNameLength ∧
      a.namespaceUri = none := by
  unfold attributePair at h
  obtain ⟨⟨word, mid⟩, hname, h⟩ := bind_eq_ok.1 h
  obtain ⟨next, -, h⟩ := bind_eq_ok.1 h
  obtain ⟨⟨value, used, after⟩, hvalue, h⟩ := bind_eq_ok.1 h
  obtain ⟨hw, hl, -⟩ := isName_of_name hname
  dsimp only at h
  by_cases hq : (o.namespaceAware && !(QName.ofChars word).isQualified) = true
  · rw [if_pos hq] at h
    cases h
  · rw [if_neg hq, Except.ok.injEq, Prod.mk.injEq] at h
    rw [Bool.and_eq_true, not_and, Bool.not_eq_true', Bool.not_eq_false] at hq
    obtain ⟨rfl, -⟩ := h
    refine ⟨⟨QName.writable_ofChars hw, ?_, hq⟩, ?_, rfl⟩
    · rw [String.toList_ofList]
      exact isXmlChar_of_attributeValue hvalue
    · rw [QName.written_ofChars, String.toList_ofList]
      exact hl

/-- Attributes that were read can be written, have different names and no namespaces yet. -/
theorem attributePairs_eq_ok {P : Attribute → Prop} {earlier as : List Attribute}
    {used used' : Nat} {cs rest : List Char}
    (hP : ∀ {used used' : Nat} {cs rest : List Char} {a : Attribute},
      attributePair o used cs = .ok (a, used', rest) → P a)
    (he : ∀ a ∈ earlier, P a) (hd : (earlier.map Attribute.name).Nodup)
    (h : attributePairs o earlier used cs = .ok (as, used', rest)) :
    (∀ a ∈ as, P a) ∧ (as.map Attribute.name).Nodup := by
  fun_induction attributePairs o earlier used cs with
  | case1 earlier used cs _ =>
    rw [Except.ok.injEq, Prod.mk.injEq] at h
    exact h.1 ▸ ⟨he, hd⟩
  | case2 => cases h
  | case3 => cases h
  | case4 => cases h
  | case5 earlier used cs _ _ a used1 mid hmid hnew ih =>
    refine ih ?_ ?_ h
    · intro b hb
      rw [List.mem_append, List.mem_singleton] at hb
      rcases hb with hb | rfl
      · exact he b hb
      · exact hP hmid
    · rw [List.map_append, List.map_singleton, List.nodup_append]
      refine ⟨hd, List.pairwise_singleton _ _, ?_⟩
      intro n hn m hm
      rw [List.mem_singleton] at hm
      obtain ⟨b, hb, rfl⟩ := List.mem_map.1 hn
      rintro he
      refine hnew (List.any_eq_true.2 ⟨b, hb, ?_⟩)
      rw [beq_iff_eq, he, hm]

/-- Before its names are resolved, an element that was read is in no namespace. -/
theorem Element.asWritten_of_attributePairs (q : QName) {as : List Attribute} {used used' : Nat}
    {cs rest : List Char} (h : attributePairs o [] used cs = .ok (as, used', rest)) :
    (⟨q, none, as⟩ : Element).asWritten = ⟨q, none, as⟩ := by
  obtain ⟨hall, -⟩ := attributePairs_eq_ok attributePair_eq_ok
    (fun a ha => absurd ha List.not_mem_nil) List.nodup_nil h
  unfold Element.asWritten
  have hsame : as.map Attribute.asWritten = as := by
    refine List.map_congr_left (g := id) ?_ |>.trans (List.map_id as)
    intro a ha
    obtain ⟨-, -, hn⟩ := hall a ha
    unfold Attribute.asWritten
    rw [← hn]
    rfl
  rw [hsame]

/-- The element of a start tag that was read can be written, has the names it has in the scope, and
keeps to the limit of names. -/
theorem startTag_eq_ok {s inside : Scope} {e : Element} {used used' : Nat} {cs rest : List Char}
    (h : startTag o s used cs = .ok ((inside, e), used', rest)) :
    e.Writable o.namespaceAware ∧ e.ReadIn o.namespaceAware s inside ∧
      utf8Length e.name.written.toList ≤ o.maxNameLength ∧
      ∀ a ∈ e.attributes, utf8Length a.name.written.toList ≤ o.maxNameLength := by
  unfold startTag at h
  obtain ⟨⟨word, mid⟩, hname, h⟩ := bind_eq_ok.1 h
  obtain ⟨⟨as, used1, after⟩, hattributes, h⟩ := bind_eq_ok.1 h
  obtain ⟨⟨inside', e'⟩, hnames, h⟩ := bind_eq_ok.1 h
  rw [Except.ok.injEq, Prod.mk.injEq, Prod.mk.injEq] at h
  obtain ⟨⟨rfl, rfl⟩, -⟩ := h
  obtain ⟨hw, hl, -⟩ := isName_of_name hname
  obtain ⟨hall, hdistinct⟩ := attributePairs_eq_ok attributePair_eq_ok
    (fun a ha => absurd ha List.not_mem_nil) List.nodup_nil hattributes
  obtain ⟨hread, hsame⟩ :=
    Element.readIn_of_readNames (Element.asWritten_of_attributePairs _ hattributes) hnames
  have hname' : e'.name = QName.ofChars word := congrArg Element.name hsame
  have hattr : e'.attributes.map Attribute.asWritten = as := congrArg Element.attributes hsame
  have hmem : ∀ a ∈ e'.attributes, a.asWritten ∈ as := by
    intro a ha
    rw [← hattr]
    exact List.mem_map_of_mem ha
  refine ⟨⟨?_, ?_, ?_⟩, hread, ?_, ?_⟩
  · rw [hname']
    exact QName.writable_ofChars hw
  · intro a ha
    obtain ⟨hwa, -⟩ := hall _ (hmem a ha)
    exact ⟨hwa.name, hwa.value, hwa.qualified⟩
  · rw [← hattr, List.map_map] at hdistinct
    exact hdistinct
  · rw [hname', QName.written_ofChars, String.toList_ofList]
    exact hl
  · intro a ha
    exact (hall _ (hmem a ha)).2.1

end Scan

end MarkupFields
