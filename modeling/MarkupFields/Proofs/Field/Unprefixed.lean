import MarkupFields.Proofs.Bindings
import MarkupFields.Proofs.Field.Agreement
import MarkupFields.Proofs.Markup.Ancestors
import MarkupFields.Proofs.Path.Rendered

/-
  Attributes without a prefix. Where a document declares a namespace, a path asks for an attribute in
  none, and no two attributes of an element have one local name and no namespace. Where it declares
  none, names match by their local names alone; the only prefix that an attribute can have there is
  the one that needs no declaration (`Forest.Legal.opens_in`, `Scope.Bare`), and an attribute that has
  it hides one without a prefix that stands behind it (`hidden_by_language`).
-/

namespace MarkupFields

open Text

/-! ## Documents that declare nothing -/

namespace Namespaces

/-- A registry that is empty after a binding was empty before, and the binding was the one that is
there from the start. -/
theorem isEmpty_of_declareIfFree {r : Namespaces} {b : String × String}
    (h : (r.declareIfFree b).isEmpty = true) : r.isEmpty = true ∧ b.1 = "xml" := by
  cases hb : r.uri? b.1 with
  | none =>
    rw [declareIfFree_of_none hb] at h
    unfold isEmpty at h
    simp at h
  | some u =>
    rw [declareIfFree_of_some hb] at h
    refine ⟨h, ?_⟩
    by_contra hne
    have hnone : r.uri? b.1 = none := by
      unfold uri?
      rw [if_neg hne, List.isEmpty_iff.1 h]
      rfl
    rw [hnone] at hb
    cases hb

theorem isEmpty_of_foldl {bs : List (String × String)} {r : Namespaces}
    (h : (bs.foldl declareIfFree r).isEmpty = true) :
    r.isEmpty = true ∧ ∀ b ∈ bs, b.1 = "xml" := by
  induction bs generalizing r with
  | nil => exact ⟨h, fun b hb => absurd hb List.not_mem_nil⟩
  | cons b bs ih =>
    obtain ⟨hfirst, hrest⟩ := ih h
    obtain ⟨hr, hb⟩ := isEmpty_of_declareIfFree hfirst
    exact ⟨hr, List.forall_mem_cons.2 ⟨hb, hrest⟩⟩

/-- Markup with an empty registry declares no prefix as something, but for the one that is bound
anyway. -/
theorem eq_xml_of_isEmpty {m : Markup} (h : (ofMarkup m).isEmpty = true) {d : String × String}
    (hd : d ∈ declarationsIn m.top) (hne : d.2 ≠ "") : d.1 = "xml" :=
  (isEmpty_of_foldl h).2 d (List.mem_filter.2 ⟨hd, bne_iff_ne.2 hne⟩)

end Namespaces

namespace Scope

/-- Nothing stands for a namespace but the prefix that needs no declaration. -/
def Bare (s : Scope) : Prop :=
  ∀ p u, s.resolve? p = some u → p = "xml"

theorem bare_outermost : outermost.Bare := by
  intro p u hu
  obtain ⟨hlookup, -⟩ := Option.filter_eq_some_iff.1 hu
  have hmem := mem_of_lookup hlookup
  unfold outermost at hmem
  rw [List.mem_singleton] at hmem
  exact congrArg Prod.fst hmem

/-- Declarations that declare nothing leave a bare scope bare. -/
theorem Bare.inside {s : Scope} (hs : s.Bare) {as : List Attribute}
    (hds : ∀ d ∈ Attribute.declarations as, d.2 ≠ "" → d.1 = "xml") : (s.inside as).Bare := by
  intro p u hu
  obtain ⟨hlookup, hne⟩ := Option.filter_eq_some_iff.1 hu
  rw [lookup_inside, Option.or_eq_some_iff] at hlookup
  rcases hlookup with hown | ⟨-, houter⟩
  · exact hds (p, u) (List.mem_reverse.1 (mem_of_lookup hown)) (bne_iff_ne.1 hne)
  · exact hs p u (Option.filter_eq_some_iff.2 ⟨houter, hne⟩)

end Scope

/-! ## Elements at any depth -/

/-- An element of a legal forest opens in a scope that has every property of the scope of the forest
that start tags keep. -/
theorem Forest.Legal.opens_in {P : Scope → Prop} {s : Scope} {f : Forest Content}
    (h : f.Legal true s) (hs : P s)
    (hinside : ∀ s e, .element e ∈ f.preorder → P s → P (s.inside e.attributes)) {e : Element}
    (he : .element e ∈ f.preorder) :
    ∃ s', P (Scope.inside s' e.attributes) ∧ e.Opens s' e.namespaceUri := by
  induction h with
  | nil => exact absurd he List.not_mem_nil
  | @element s inside root children beside writable names content rest ihc ihr =>
    obtain ⟨hopens, hscope⟩ := Element.opens_of_legal writable names
    have hroot : P inside := by
      rw [hscope]
      exact hinside s root List.mem_cons_self hs
    rw [preorder, List.mem_cons, List.mem_append] at he
    rcases he with he | he | he
    · obtain rfl := Content.element.inj he
      exact ⟨s, hscope ▸ hroot, hopens⟩
    · exact ihc hroot
        (fun s e hm => hinside s e (List.mem_cons_of_mem _ (List.mem_append_left _ hm))) he
    · exact ihr hs
        (fun s e hm => hinside s e (List.mem_cons_of_mem _ (List.mem_append_right _ hm))) he
  | leaf writable apart rest ih =>
    rw [preorder, List.mem_cons] at he
    rcases he with he | he
    · rw [← he] at writable
      exact absurd writable id
    · exact ih hs (fun s e hm => hinside s e (List.mem_cons_of_mem _ hm)) he

/-- Steps lead to where they start or to a node below it. -/
theorem Forest.mem_of_descend? {steps : List StepTest} {inScope : Option String} {a : Node}
    {f : Forest Node} {t : NodeTree} (h : descend? steps inScope (a, f) = some t) :
    t.1 = a ∨ t.1 ∈ f.preorder := by
  induction steps generalizing inScope a f with
  | nil =>
    unfold descend? at h
    rw [← Option.some.inj h]
    exact .inl rfl
  | cons s steps ih =>
    unfold descend? at h
    obtain ⟨next, hnext, h⟩ := Option.bind_eq_some_iff.1 h
    obtain ⟨hmem, -⟩ := nthRoot?_mem hnext
    right
    refine mem_preorder.2 ⟨next, hmem, ?_⟩
    exact ih h

/-! ## Finding an attribute -/

namespace FieldReader

variable {r : FieldReader} {l : LoadedDocument}

/-- The test for a name without a prefix asks for no namespace where the document declares any, and
for the local name alone where it declares none. -/
theorem acceptsAttribute_unprefixed {q : QName} (hplain : q.nsPrefix = none) (b : Attribute) :
    (r.attributeTest l q).acceptsAttribute b =
      (!b.isDeclaration && b.name.localName == q.localName &&
        (!l.namespaceInfo || none == b.namespaceUri)) := by
  unfold attributeTest namespaceTest NameTest.acceptsAttribute NameTest.acceptsNamespace
  rw [hplain]
  cases l.namespaceInfo <;> rfl

/-- No attribute in front of one without a prefix passes the test for its name, unless it hides it
where nothing is declared. -/
theorem not_accepts_earlier {s : Scope} {before after : List Attribute} {a : Attribute}
    (hmeant : AttributesMeant s (before ++ a :: after)) (hbare : l.namespaceInfo = false → s.Bare)
    (hplain : a.name.nsPrefix = none)
    (hclear : l.namespaceInfo = false →
      ⟨some "xml", a.name.localName⟩ ∉ before.map Attribute.name) :
    ∀ b ∈ before, ¬ (r.attributeTest l a.name).acceptsAttribute b = true := by
  intro b hb hpass
  rw [acceptsAttribute_unprefixed hplain, Bool.and_eq_true, Bool.and_eq_true, Bool.not_eq_true',
    beq_iff_eq, Bool.or_eq_true, Bool.not_eq_true', beq_iff_eq] at hpass
  obtain ⟨⟨hregularb, hlocal⟩, hnamespace⟩ := hpass
  have hname : b.name ≠ a.name := by
    have hnodup := hmeant.nodup_names
    rw [List.map_append, List.nodup_append] at hnodup
    exact hnodup.2.2 b.name (List.mem_map_of_mem hb) a.name List.mem_cons_self
  have hprefixed : b.name.nsPrefix ≠ none := by
    intro hp
    refine hname ?_
    rw [show b.name = ⟨b.name.nsPrefix, b.name.localName⟩ from rfl, hp, hlocal, ← hplain]
  rcases Scope.attributeNamespace_eq_ok.1 (hmeant.each b (List.mem_append_left _ hb)).named with
    ⟨hp | hp, -⟩ | ⟨p, u, hp, -, hu, hbound⟩
  · exact hprefixed hp
  · exact Attribute.nsPrefix_ne_of_regular hregularb hp
  · rcases hnamespace with hinfo | hnone
    · refine hclear hinfo (List.mem_map.2 ⟨b, hb, ?_⟩)
      rw [show b.name = ⟨b.name.nsPrefix, b.name.localName⟩ from rfl, hp, hlocal,
        hbare hinfo p u hu]
    · rw [hbound] at hnone
      cases hnone

/-- An attribute without a prefix is the first that passes its own test, unless an earlier one hides
it where nothing is declared. -/
theorem find?_unprefixed {s : Scope} {before after : List Attribute} {a : Attribute}
    (hmeant : AttributesMeant s (before ++ a :: after)) (hbare : l.namespaceInfo = false → s.Bare)
    (hregular : a.isDeclaration = false) (hplain : a.name.nsPrefix = none)
    (hclear : l.namespaceInfo = false →
      ⟨some "xml", a.name.localName⟩ ∉ before.map Attribute.name) :
    (before ++ a :: after).find? (r.attributeTest l a.name).acceptsAttribute = some a := by
  have huri : a.namespaceUri = none := by
    rcases Scope.attributeNamespace_eq_ok.1
        (hmeant.each a (List.mem_append_right _ List.mem_cons_self)).named with
      ⟨-, hnone⟩ | ⟨p, u, hp, -⟩
    · exact hnone
    · rw [hplain] at hp
      cases hp
  have hself : (r.attributeTest l a.name).acceptsAttribute a = true := by
    rw [acceptsAttribute_unprefixed hplain, hregular, huri]
    simp
  rw [List.find?_append,
    List.find?_eq_none.2 (not_accepts_earlier hmeant hbare hplain hclear), Option.none_or,
    List.find?_cons_of_pos hself]

/-- A path of element steps that leads to an element goes on to each of its attributes that has no
prefix and is not a declaration, and a reader finds exactly the value of the attribute there. In a
document that declares no namespace this holds as long as no earlier attribute has the local name of
this one behind the prefix that needs no declaration. -/
theorem extract_unprefixed {text : String} {r₀ : FieldReader}
    (hload : r₀.load text true = (r, .ok ())) (hl : r.loaded = some l) (n : Namespaces)
    {expression : String} {p : Path} (hp : Path.parse expression = .ok p) (hattr : p.attr = none)
    {t : NodeTree}
    (ht : l.document.locate? (p.steps.map ((r.withNamespaces n).stepTest l)) = some t)
    {e : Element} (he : t.1.content = .element e) {before after : List Attribute} {a : Attribute}
    (hsplit : e.attributes = before ++ a :: after) (hregular : a.isDeclaration = false)
    (hplain : a.name.nsPrefix = none)
    (hclear : l.namespaceInfo = false →
      ⟨some "xml", a.name.localName⟩ ∉ before.map Attribute.name) :
    ∃ p', Path.parse (expression ++ "/@" ++ a.name.localName) = .ok p' ∧ p'.steps = p.steps ∧
      (r.withNamespaces n).extract p' = .ok (some a.value) := by
  obtain ⟨-, m, hparse, rfl⟩ := load_eq_ok hload hl
  have hlegal := (Markup.legal_of_read hparse).forest
  obtain ⟨top, htree, hmap⟩ : ∃ top, (Document.ofMarkup m).IsTree top ∧
      top.map Node.content = m.top :=
    ⟨_, rfl, Document.map_content_number (Document.root + 1) m.top⟩
  have hmem : .element e ∈ m.top.preorder := by
    unfold Document.locate? at ht
    rw [htree.node?_root, Option.bind_eq_bind, Option.bind_some] at ht
    rcases Forest.mem_of_descend? ht with hroot | hbelow
    · rw [hroot] at he
      cases he
    · rw [← hmap, Forest.preorder_map, ← he]
      exact List.mem_map_of_mem hbelow
  -- in a document that declares nothing the scopes stay bare
  obtain ⟨s, hbare, hopens⟩ := hlegal.opens_in
    (P := fun s => (!(Namespaces.ofMarkup m).isEmpty) = false → s.Bare)
    (fun _ => Scope.bare_outermost)
    (fun s e' he' hs hinfo => (hs hinfo).inside fun d hd => Namespaces.eq_xml_of_isEmpty
      (Bool.not_eq_false' .. ▸ hinfo)
      (List.mem_flatMap.2 ⟨.element e', he', hd⟩)) hmem
  have hmeant := hopens.attributes
  rw [hsplit] at hmeant hbare
  have hqualified := (hmeant.each a (List.mem_append_right _ List.mem_cons_self)).qualified
  have hname : a.name = .plain a.name.localName :=
    congrArg (QName.mk · a.name.localName) hplain
  refine ⟨⟨p.steps, some a.name⟩, ?_, rfl, ?_⟩
  · rw [hname]
    exact Path.parse_append_attribute hp hattr (Bool.and_eq_true_iff.1 hqualified).2
  · unfold extract locate?
    rw [show (r.withNamespaces n).loaded = r.loaded from rfl, hl]
    dsimp only
    rw [ht, Option.bind_eq_bind, Option.bind_some]
    unfold Content.attribute?
    rw [he, show (Content.element e).attributes = e.attributes from rfl, hsplit,
      find?_unprefixed hmeant hbare hregular hplain hclear]
    rfl

/-- Behind attributes of the same local name in three namespaces, one of which is bound from the
start. -/
theorem extract_unprefixed_behind :
    let text := "<a xmlns='u' xmlns:p='u'><b/><b p:k='1' xml:k='2' k='3' q:k='4' xmlns:q='v'/></a>"
    ∃ r l p t e a, (FieldReader.new {}).load text true = (r, .ok ()) ∧ r.loaded = some l ∧
      Path.parse "/a/b[2]" = .ok p ∧
      l.document.locate? (p.steps.map ((r.withNamespaces r.namespaces).stepTest l)) = some t ∧
      t.1.content = .element e ∧ a ∈ e.attributes ∧ a.isDeclaration = false ∧ a.value = "3" ∧
      ∃ p', Path.parse "/a/b[2]/@k" = .ok p' ∧ p'.steps = p.steps ∧
        (r.withNamespaces r.namespaces).extract p' = .ok (some "3") := by
  intro text
  let before : List Attribute := [⟨⟨some "p", "k"⟩, some "u", "1"⟩,
    ⟨⟨some "xml", "k"⟩, some xmlNamespace, "2"⟩]
  let after : List Attribute := [⟨⟨some "q", "k"⟩, some "v", "4"⟩, ⟨⟨some "xmlns", "q"⟩, none, "v"⟩]
  let a : Attribute := ⟨.plain "k", none, "3"⟩
  let e : Element := ⟨.plain "b", some "u", before ++ a :: after⟩
  let root : Element := ⟨.plain "a", some "u",
    [⟨.plain "xmlns", none, "u"⟩, ⟨⟨some "xmlns", "p"⟩, none, "u"⟩]⟩
  let m : Markup := ⟨.absent, .cons (.element root)
    (.cons (.element ⟨.plain "b", some "u", []⟩) .nil (.leaf (.element e))) .nil⟩
  let l : LoadedDocument := ⟨Document.ofMarkup m, true⟩
  let r : FieldReader := ⟨{}, some l, ⟨[("", "u"), ("p", "u"), ("q", "v")]⟩⟩
  let p : Path := ⟨[⟨.plain "a", none⟩, ⟨.plain "b", some 2⟩], none⟩
  have hload : (FieldReader.new {}).load text true = (r, .ok ()) := by
    decide +kernel
  have hp : Path.parse "/a/b[2]" = .ok p := by
    decide +kernel
  have ht : l.document.locate? (p.steps.map ((r.withNamespaces r.namespaces).stepTest l)) =
      some (⟨3, .element e⟩, .nil) := by
    decide +kernel
  have hsplit : e.attributes = before ++ a :: after := rfl
  exact ⟨r, l, p, _, e, a, hload, rfl, hp, ht, rfl,
    List.mem_append_right before List.mem_cons_self, rfl, rfl,
    extract_unprefixed hload rfl r.namespaces hp rfl ht rfl hsplit rfl rfl
      fun h => Bool.noConfusion h⟩

/-- Where nothing is declared, the language of an element hides an attribute without a prefix. -/
theorem hidden_by_language :
    ¬ ∀ (text : String) (r₀ r : FieldReader) (l : LoadedDocument),
      r₀.load text true = (r, .ok ()) → r.loaded = some l →
      ∀ (expression : String) (p : Path), Path.parse expression = .ok p → p.attr = none →
      ∀ t, l.document.locate? (p.steps.map (r.stepTest l)) = some t →
      ∀ e, t.1.content = .element e → ∀ a ∈ e.attributes, a.isDeclaration = false →
        a.name.nsPrefix = none →
        ∃ p', Path.parse (expression ++ "/@" ++ a.name.localName) = .ok p' ∧
          r.extract p' = .ok (some a.value) := by
  intro h
  let language : Attribute := ⟨⟨some "xml", "lang"⟩, some xmlNamespace, "en"⟩
  let a : Attribute := ⟨.plain "lang", none, "de"⟩
  let e : Element := ⟨.plain "r", none, [language, a]⟩
  let l : LoadedDocument := ⟨Document.ofMarkup ⟨.absent, .leaf (.element e)⟩, false⟩
  let r : FieldReader := ⟨{}, some l, .empty⟩
  let p : Path := ⟨[⟨.plain "r", none⟩], none⟩
  have hload : (FieldReader.new {}).load "<r xml:lang='en' lang='de'/>" true = (r, .ok ()) := by
    decide +kernel
  have hp : Path.parse "/r" = .ok p := by
    decide +kernel
  have ht : l.document.locate? (p.steps.map (r.stepTest l)) = some (⟨1, .element e⟩, .nil) := by
    decide +kernel
  obtain ⟨p', hp', hextract⟩ := h _ _ r l hload rfl "/r" p hp rfl _ ht e rfl a
    (List.mem_cons_of_mem language List.mem_cons_self) rfl rfl
  have hlanguage : Path.parse "/r/@lang" = .ok ⟨p.steps, some (.plain "lang")⟩ := by
    decide +kernel
  have hfound : r.extract ⟨p.steps, some (.plain "lang")⟩ = .ok (some "en") := by
    decide +kernel
  obtain rfl := Except.ok.inj (hlanguage.symm.trans hp')
  exact absurd (Option.some.inj (Except.ok.inj (hfound.symm.trans hextract))) (by decide)

end FieldReader

end MarkupFields
