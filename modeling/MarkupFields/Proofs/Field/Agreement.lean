import MarkupFields.Proofs.Field.RoundTrip
import MarkupFields.Proofs.Writer.Replaced

/-
  Reading and writing at paths without prefixes in a document that comes from a seed. A writer knows
  one default namespace, that of the root of the seed. A reader asks for the default namespace at each
  candidate, and where nothing is declared for no namespace at all. On elements inside which the
  default namespace is that of the root both tests say the same (`Forest.descend?_of_under`), so both
  go to the same element; a text that is written there is read back (`readField_of_seeded`). Where an
  element below the root declares a default namespace of its own, they differ.
-/

namespace MarkupFields

open Text

/-! ## The same way down -/

/-- Inside the element the default namespace is the given one, and where names are not matched by
namespace it is in that one. -/
structure Element.Under (matched : Bool) (default outside : Option String) (e : Element) : Prop where
  inside : (Content.element e).defaultInside outside = default
  unmatched : matched = false → e.namespaceUri = default

namespace Forest

variable {matched : Bool} {default outside : Option String}

/-- The elements of the level are under the default, and so are all below them. -/
def Under (matched : Bool) (default outside : Option String) (f : Forest Node) : Prop :=
  ∀ t ∈ f.trees, (∀ e, t.1.content = .element e → e.Under matched default outside) ∧
    ∀ e ∈ t.2.elements, e.Under matched default default

theorem mem_elements_of_mem {f : Forest Node} {t : NodeTree} (ht : t ∈ f.trees) {e : Element}
    (he : t.1.content = .element e ∨ e ∈ t.2.elements) : e ∈ f.elements := by
  rcases he with he | he
  · exact mem_elements.2 ⟨t.1, mem_preorder.2 ⟨t, ht, .inl rfl⟩, he⟩
  · obtain ⟨n, hn, he⟩ := mem_elements.1 he
    exact mem_elements.2 ⟨n, mem_preorder.2 ⟨t, ht, .inr hn⟩, he⟩

theorem Under.below {f : Forest Node} (h : f.Under matched default outside) {t : NodeTree}
    (ht : t ∈ f.trees) : t.2.Under matched default default := by
  intro u hu
  refine ⟨fun e he => (h t ht).2 e ?_, fun e he => (h t ht).2 e ?_⟩
  · exact mem_elements_of_mem hu (.inl he)
  · exact mem_elements_of_mem hu (.inr he)

end Forest

section
variable {matched : Bool} {default : Option String}

/-- The step asks for the position of the place, and takes what stands at the place among elements
under the default. -/
structure StepTest.Meets (matched : Bool) (default : Option String) (s : StepTest) (p : Place) :
    Prop where
  position : s.position = p.position
  test : ∀ (e : Element) (outside : Option String), e.Under matched default outside →
    s.test.acceptsNode outside (.element e) = p.test.acceptsNode none (.element e)

/-- Steps that meet places lead to the same node. -/
theorem Forest.descend?_of_under {steps : List StepTest} {places : List Place}
    (h : List.Forall₂ (StepTest.Meets matched default) steps places) {a : Node} {f : Forest Node}
    {outside : Option String} (inScope : Option String)
    (hf : f.Under matched default outside) :
    descend? steps outside (a, f) = descend? (places.map Place.stepTest) inScope (a, f) := by
  refine descend?_congr (fun outside f => f.Under matched default outside) ?_
    (h.imp fun s p hmeets => ⟨hmeets.position, ?_⟩) inScope hf
  · intro outside f hf t ht helement
    obtain ⟨⟨k, c⟩, below⟩ := t
    cases c with
    | element e =>
      have hinside := ((hf _ ht).1 e rfl).inside
      dsimp only
      rw [hinside]
      exact hf.below ht
    | _ => cases helement
  · intro outside f hf t ht
    obtain ⟨⟨k, c⟩, below⟩ := t
    cases c with
    | element e => exact hmeets.test e outside ((hf _ ht).1 e rfl)
    | _ => rfl

/-! ## Elements that stay -/

/-- Where the elements are the same they are under the same default. -/
theorem Forest.Under.sameElements {outside : Option String} {top top' : Forest Node}
    (h : top.Under matched default outside) (hsame : top.SameElements top') :
    top'.Under matched default outside := by
  obtain ⟨before, k, e, e', below, below', after, split, split', -, huri, hdeclared, helements⟩ :=
    hsame
  have hmiddle := h (⟨k, .element e⟩, below) (by
    rw [split]
    exact List.mem_append_right _ List.mem_cons_self)
  intro t ht
  rw [split', List.mem_append, List.mem_cons] at ht
  rcases ht with ht | rfl | ht
  · refine h t ?_
    rw [split]
    exact List.mem_append_left _ ht
  · refine ⟨fun d hd => ?_, fun d hd => hmiddle.2 d (helements ▸ hd)⟩
    obtain rfl : e' = d := Content.element.inj hd
    obtain ⟨hinside, hunmatched⟩ := hmiddle.1 e rfl
    exact ⟨(Element.defaultInside_congr hdeclared outside).trans hinside,
      fun hm => huri.trans (hunmatched hm)⟩
  · refine h t ?_
    rw [split]
    exact List.mem_append_right _ (List.mem_cons_of_mem _ ht)

/-- Where the elements are the same they declare the same. -/
theorem Forest.SameElements.declarationsIn {top top' : Forest Node} (h : top.SameElements top') :
    Namespaces.declarationsIn (top'.map Node.content) =
      Namespaces.declarationsIn (top.map Node.content) := by
  obtain ⟨before, k, e, e', below, below', after, split, split', -, -, hdeclared, helements⟩ := h
  rw [declarationsIn_eq_flatMap, declarationsIn_eq_flatMap, elements_eq_flatMap top',
    elements_eq_flatMap top, split, split']
  simp only [List.flatMap_append, List.flatMap_cons, helements, Content.element?,
    Option.toList_some, List.flatMap_nil, hdeclared]

end

/-! ## The tests of a reader -/

namespace FieldReader

variable {r : FieldReader} {l : LoadedDocument} {w : FieldWriter} {steps : List Step}
  {places : List Place}

/-- The steps of a reader, without prefixes, meet the places that a writer finds for them, under the
default namespace that the writer knows. -/
theorem meets_of_resolveSteps (hplain : ∀ s ∈ steps, s.name.nsPrefix = none)
    (h : w.resolveSteps steps = .ok places) :
    List.Forall₂ (StepTest.Meets l.namespaceInfo w.namespaces.default?)
      (steps.map (r.stepTest l)) places := by
  have hall := FieldWriter.resolveSteps_eq_ok h
  clear h
  induction hall with
  | nil => exact .nil
  | @cons s p steps places hsp _ ih =>
    rw [List.forall_mem_cons] at hplain
    obtain ⟨hname, hposition, hresolved⟩ := hsp
    have huri : p.namespaceUri = w.namespaces.default? := by
      rcases FieldWriter.resolve_eq_ok.1 hresolved with ⟨-, huri⟩ | ⟨x, u, hx, -⟩
      · exact huri
      · rw [hplain.1] at hx
        cases hx
    refine .cons ⟨hposition.symm, fun e outside he => ?_⟩ (ih hplain.2)
    simp only [stepTest, namespaceTest, hplain.1, Place.test, NameTest.acceptsNode,
      NameTest.acceptsNamespace, hname, huri]
    congr 1
    cases hinfo : l.namespaceInfo with
    | true =>
      simp only [Bool.not_true, Bool.false_eq_true, if_false, he.inside]
    | false =>
      rw [he.unmatched hinfo]
      simp

/-- A reader goes the way of a writer. -/
theorem locate?_of_under (hplain : ∀ s ∈ steps, s.name.nsPrefix = none)
    (h : w.resolveSteps steps = .ok places) {d : Document} {top : Forest Node}
    (hd : d.IsTree top) (htop : top.Under l.namespaceInfo w.namespaces.default? none) :
    d.locate? (steps.map (r.stepTest l)) = d.locate? (places.map Place.stepTest) := by
  unfold Document.locate?
  rw [hd.node?_root]
  exact Forest.descend?_of_under (meets_of_resolveSteps hplain h) none htop

end FieldReader

/-! ## Seeds -/

/-- A name without a prefix can mean one namespace only: no element below the top level declares a
default namespace or takes one back, and where no namespace is declared no element is in one. -/
structure Markup.OneDefault (m : Markup) : Prop where
  below : ∀ d ∈ m.declaredBelow, d.1 ≠ ""
  undeclared : (Namespaces.ofMarkup m).isEmpty = true →
    ∀ c ∈ m.top.preorder, ∀ e ∈ c.element?, e.namespaceUri = none

instance (m : Markup) : Decidable m.OneDefault :=
  decidable_of_iff ((∀ d ∈ m.declaredBelow, d.1 ≠ "") ∧
      ((Namespaces.ofMarkup m).isEmpty = true →
        ∀ c ∈ m.top.preorder, ∀ e ∈ c.element?, e.namespaceUri = none))
    ⟨fun h => ⟨h.1, h.2⟩, fun h => ⟨h.below, h.undeclared⟩⟩

/-- The default namespace of the bindings that come from declarations alone. -/
theorem Namespaces.default?_of_declareAll {n : Namespaces} {as : List Attribute}
    (h : Namespaces.empty.declareAll (Attribute.declarations as) = .ok n) :
    n.default? = Attribute.defaultDeclared? as := by
  obtain ⟨hknown, -, hnew⟩ := Namespaces.declareAll_eq_ok h
  unfold Attribute.defaultDeclared?
  cases hfind : (Attribute.declarations as).find? fun d => d.1 == "" with
  | some d =>
    have hempty : d.1 = "" := by simpa using List.find?_some hfind
    have hbound := hknown d (List.mem_of_find?_eq_some hfind)
    rw [hempty] at hbound
    exact hbound
  | none =>
    cases hd : n.default? with
    | none => rfl
    | some u =>
      have hgives : n.Gives ("", u) := ⟨hd, by simp⟩
      rcases hnew _ hgives.mem with hmem | hmem
      · cases hmem
      · exact absurd rfl (List.find?_eq_none.1 hfind _ hmem)

section
variable {w : FieldWriter} {top : Forest Node} {before after : List NodeTree} {k : Nat} {e : Element}
  {below : Forest Node}

/-- Where the root is in the default namespace of the writer, and no other is declared, all elements
are under it. -/
theorem Markup.OneDefault.under (h : w.document.markup.OneDefault) (htree : w.document.IsTree top)
    (hamong : top.RootAmong before (⟨k, .element e⟩, below) after)
    (hdeclared : Namespaces.empty.declareAll (Attribute.declarations e.attributes) =
      .ok w.namespaces)
    (hroot : e.namespaceUri = w.namespaces.default?) (hne : w.namespaces.default? ≠ some "") :
    top.Under (!(Namespaces.ofMarkup w.document.markup).isEmpty) w.namespaces.default? none := by
  have hnone : ∀ n ∈ top.preorder, ∀ d, n.content = .element d →
      (!(Namespaces.ofMarkup w.document.markup).isEmpty) = false → d.namespaceUri = none := by
    intro n hn d hd hinfo
    rw [Bool.not_eq_false'] at hinfo
    refine h.undeclared hinfo n.content ?_ d (by rw [hd]; rfl)
    rw [FieldWriter.markup_of_isTree htree, Forest.preorder_map]
    exact List.mem_map_of_mem hn
  intro t ht
  refine ⟨fun d hd => ?_, fun d hd => ?_⟩
  · have htroot := hamong.eq_of_isElement ht (by rw [hd]; rfl)
    subst htroot
    obtain rfl : e = d := Content.element.inj hd
    refine ⟨?_, fun _ => hroot⟩
    have hdefault := Namespaces.default?_of_declareAll hdeclared
    unfold Content.defaultInside Content.attributes
    dsimp only
    rw [← hdefault]
    cases hd : w.namespaces.default? with
    | none => rfl
    | some u => exact if_neg fun hu => hne (hd.trans (congrArg some hu))
  · obtain ⟨n, hn, hcontent⟩ := Forest.mem_elements.1 hd
    have hfree : Attribute.defaultDeclared? d.attributes = none := by
      unfold Attribute.defaultDeclared?
      rw [Option.map_eq_none_iff, List.find?_eq_none]
      intro b hb hempty
      refine h.below b ?_ (beq_iff_eq.1 hempty)
      exact FieldWriter.declaresOnly_of_isTree htree t ht n hn b (by rw [hcontent]; exact hb)
    refine ⟨?_, fun hinfo => ?_⟩
    · unfold Content.defaultInside Content.attributes
      dsimp only
      rw [hfree]
    · rw [← hroot, hnone _ (Forest.mem_preorder.2 ⟨t, ht, .inr hn⟩) d hcontent hinfo]
      exact (hnone _ (Forest.mem_preorder.2 ⟨_, hamong.mem, .inl rfl⟩) e rfl hinfo).symm

/-- A root that can be written to through a step without a prefix is in the default namespace of the
writer, which is a namespace if there is one. -/
theorem FieldWriter.default?_of_planFor {p : Path} {text : String} {plan : WritePlan}
    (hplan : w.planFor p text = .ok plan) (hplain : ∀ s ∈ p.steps, s.name.nsPrefix = none)
    (htree : w.document.IsTree top)
    (hamong : top.RootAmong before (⟨k, .element e⟩, below) after)
    (hlawful : NodeTree.Lawful True Scope.outermost (⟨k, .element e⟩, below)) :
    e.namespaceUri = w.namespaces.default? ∧ w.namespaces.default? ≠ some "" := by
  obtain ⟨hresolved, -, -, hcheck⟩ := planFor_eq_ok hplan
  obtain ⟨s, hs, hname, -, hr⟩ := exists_step_of_mem hresolved List.mem_cons_self
  have hroot : plan.root.namespaceUri = w.namespaces.default? := by
    rcases resolve_eq_ok.1 hr with ⟨-, huri⟩ | ⟨x, u, hx, -⟩
    · exact huri
    · rw [hplain s hs] at hx
      cases hx
  obtain ⟨d, hd, -, huri⟩ :=
    Place.accepts_iff.1 ((checkRoot_eq_ok hcheck).2 htree (hamong.at hlawful.isElement))
  obtain rfl : e = d := Content.element.inj hd
  have hdefault : e.namespaceUri = w.namespaces.default? := huri.trans hroot
  refine ⟨hdefault, fun hempty => ?_⟩
  cases hlawful with
  | intro opens named separate content =>
    exact Scope.elementNamespace_ne_empty opens.named
      ((named trivial).symm.trans (hdefault.trans hempty))

/-- A path without prefixes and without an attribute is clear under one default namespace. -/
theorem FieldWriter.clearNames_of_oneDefault {p : Path} (h : w.document.markup.OneDefault)
    (hattr : p.attr = none) (hplain : ∀ s ∈ p.steps, s.name.nsPrefix = none)
    (htree : w.document.IsTree top)
    (hamong : top.RootAmong before (⟨k, .element e⟩, below) after)
    (hdeclared : ∀ b ∈ w.namespaces.bindings, b.1 ∈ e.attributes.filterMap Attribute.declares)
    (hne : w.namespaces.default? ≠ some "") : w.ClearNames p where
  plain := by
    rw [hattr]
    exact nofun
  attr := by
    rw [hattr]
    exact fun q hq => nomatch hq
  steps := by
    intro s hs d hd hempty
    rw [hplain s (List.mem_of_mem_tail hs)] at hempty
    exact absurd hempty (h.below d hd)
  default := by
    intro _ u hu
    have hgives : w.namespaces.Gives ("", u) := ⟨hu, by simp⟩
    refine ⟨fun hempty => hne (hempty ▸ hu), .inl ⟨.element e, ?_, hdeclared _ hgives.mem⟩⟩
    rw [markup_of_isTree htree, Forest.roots_eq_map_trees, Forest.trees_map, hamong.split]
    simp

/-- Places lead to an element, if there are any. -/
theorem Forest.isElement_of_descend? {places : List Place} (hne : places ≠ [])
    {inScope : Option String} {t u : NodeTree}
    (h : descend? (places.map Place.stepTest) inScope t = some u) :
    u.1.content.isElement = true := by
  induction places generalizing inScope t with
  | nil => exact absurd rfl hne
  | cons p places ih =>
    rw [List.map_cons, descend?_cons_stepTest] at h
    obtain ⟨v, hv, hdown⟩ := Option.bind_eq_some_iff.1 h
    cases places with
    | nil =>
      obtain ⟨e, he, -⟩ := Place.accepts_iff.1 (nthRoot?_mem hv).2
      rw [← Option.some.inj hdown, he]
      rfl
    | cons q places => exact ih (List.cons_ne_nil _ _) hdown

/-- Where no character data is further down than directly below a node there is none afterwards. -/
theorem Payload.Filled.directData {s : String} {t t' : NodeTree} {next next' : Nat}
    (h : (Payload.text s).Filled t next t' next') (ht : t.DirectData) : t'.DirectData := by
  cases h with
  | emptied trees =>
    intro u hu
    rw [trees] at hu
    exact ht u (List.mem_filter.1 hu).1
  | text nonempty trees =>
    intro u hu
    rw [trees, List.mem_append, List.mem_singleton] at hu
    rcases hu with hu | rfl
    · exact ht u (List.mem_filter.1 hu).1
    · exact fun k hk => nomatch hk

end

namespace FieldReader

/-- A reader that holds a document has loaded it from a text that is not blank. -/
theorem load_eq_ok {r₀ r : FieldReader} {text : String} {l : LoadedDocument}
    (h : r₀.load text true = (r, .ok ())) (hl : r.loaded = some l) :
    allBlank text.toList = false ∧ ∃ m,
      Markup.parse { r₀.options with namespaceAware := true } text = .ok m ∧
      l = ⟨Document.ofMarkup m, !(Namespaces.ofMarkup m).isEmpty⟩ := by
  unfold load at h
  split at h
  · rw [← (Prod.mk.inj h).1] at hl
    cases hl
  · rename_i hblank
    refine ⟨Bool.not_eq_true _ ▸ hblank, ?_⟩
    split at h
    · cases (Prod.mk.inj h).2
    · rename_i m hm
      refine ⟨m, hm, ?_⟩
      rw [← (Prod.mk.inj h).1] at hl
      exact (Option.some.inj hl).symm

/-- A text that has a reading is loaded as that, once the limits are high enough. -/
theorem load_of_readFrom {m : Markup} {text : String} (h : m.ReadFrom text)
    (hblank : allBlank text.toList = false) :
    ∃ limit, ∀ r : FieldReader, { r.options with namespaceAware := true }.Lifted limit →
      ∃ r' l, r.load text true = (r', .ok ()) ∧ r'.loaded = some l ∧
        l = ⟨Document.ofMarkup m, !(Namespaces.ofMarkup m).isEmpty⟩ := by
  obtain ⟨limit, hread⟩ := h
  refine ⟨limit, fun r hr => ?_⟩
  unfold load
  simp only [hblank, Bool.false_eq_true, if_false, hread _ hr]
  exact ⟨_, _, rfl, rfl, rfl⟩

/-- A reader that holds what a writer holds finds at a path without prefixes what stands at the places
that the writer finds for it. -/
theorem locate?_of_places {r : FieldReader} {l : LoadedDocument} {w : FieldWriter} {p : Path}
    {places : List Place} (hattr : p.attr = none) (hplain : ∀ s ∈ p.steps, s.name.nsPrefix = none)
    (hplaces : w.resolveSteps p.steps = .ok places) (hne : places ≠ []) {d : Document}
    {top : Forest Node} (hd : d.IsTree top)
    (htop : top.Under l.namespaceInfo w.namespaces.default? none)
    (hsame : l.document.markup.top = d.markup.top) {loaded : Forest Node}
    (hl : l.document.IsTree loaded) {u : NodeTree}
    (hu : d.locate? (places.map Place.stepTest) = some u) :
    r.locate? l p = some (u.2.map Node.content).textContent := by
  rw [← locate?_of_under (r := r) hplain hplaces hd htop] at hu
  have helement : u.1.content.isElement = true := by
    rw [locate?_of_under hplain hplaces hd htop] at hu
    exact Forest.isElement_of_descend? hne (Option.bind_eq_some_iff.1 hu).choose_spec.2
  rw [FieldWriter.markup_of_isTree hl, FieldWriter.markup_of_isTree hd] at hsame
  unfold Document.locate? at hu
  rw [hd.node?_root, Option.bind_eq_bind, Option.bind_some] at hu
  obtain ⟨v, hv, hcontent, hbelow⟩ :=
    Forest.descend?_content (b := ⟨Document.root, .document⟩) rfl hsame hu
  have hcharacters : v.1.content.characters = "" := by
    rw [hcontent]
    exact Content.characters_eq_empty (Forest.isCharacterData_of_isElement helement)
  unfold locate? Document.locate?
  rw [hl.node?_root]
  simp only [Option.bind_eq_bind, Option.bind_some, hv, hattr, hcharacters, hbelow,
    String.empty_append]

end FieldReader

/-- A writer that starts from a seed under one default namespace and writes at a path without prefixes
finds places for it. If these lead to a node, the text is put there, the elements of the document
stay, and the document stays lawful. -/
theorem FieldWriter.written_of_seed {maxIndex : Nat} {seed : String} {w w' : FieldWriter}
    (hblank : allBlank seed.toList = false)
    (hnew : FieldWriter.new maxIndex .empty (some seed) = .ok w)
    (hone : w.document.markup.OneDefault) {f : Field} {p : Path} (hp : Path.parse f.path = .ok p)
    (hattr : p.attr = none) (hplain : ∀ s ∈ p.steps, s.name.nsPrefix = none) {log : List Audit}
    (h : w.writeField f log = (.ok (), w', log)) :
    ∃ top places text, w.document.IsTree top ∧
      top.Under (!(Namespaces.ofMarkup w.document.markup).isEmpty) w.namespaces.default? none ∧
      w.resolveSteps p.steps = .ok places ∧ places ≠ [] ∧ textOf? f = some text ∧
      ∀ t, w.document.locate? (places.map Place.stepTest) = some t → NodeTree.DirectData t →
        w'.Lawful True ∧ ∃ top' u, w'.document.IsTree top' ∧ top.SameElements top' ∧
          w'.document.locate? (places.map Place.stepTest) = some u ∧
          (u.2.map Node.content).textContent = text := by
  obtain ⟨m, top, before, k, e, below, after, -, -, htree, hamong, hlawful, hdeclared⟩ :=
    new_eq_ok_of_seed True hblank hnew
  obtain ⟨q, text, plan, hq, htext, hplan, hw'⟩ := plan_of_writeField h
  obtain rfl : p = q := Except.ok.inj (hp.symm.trans (pathOf_eq_ok hq).1)
  obtain ⟨hresolved, -⟩ := planFor_eq_ok hplan
  obtain ⟨hroot, hne⟩ := default?_of_planFor hplan hplain htree hamong hlawful
  have hunder := hone.under htree hamong hdeclared hroot hne
  refine ⟨top, _, text, htree, hunder, hresolved, List.cons_ne_nil _ _, htext, fun t ht hdirect => ?_⟩
  -- all bindings come from the root
  have hprefixes : ∀ b ∈ w.namespaces.bindings, b.1 ∈ e.attributes.filterMap Attribute.declares := by
    obtain ⟨-, -, hall⟩ := Namespaces.declareAll_eq_ok hdeclared
    intro b hb
    rw [← Attribute.prefixes_declarations]
    exact List.mem_map_of_mem ((hall b hb).resolve_left List.not_mem_nil)
  have hclear : w.ClearNames p :=
    clearNames_of_oneDefault hone hattr hplain htree hamong hprefixes hne
  have hbefore : w.Lawful True := lawful_of_new (fun b hb => absurd hb List.not_mem_nil) hnew
  have hafter := hbefore.writeField (f := f) (fun q hq => by
    rw [hp] at hq
    exact Except.ok.inj hq ▸ ⟨hclear.toClear, fun _ => hclear⟩) log
  rw [h] at hafter
  obtain ⟨top', htree', hsame, v, u, n, n', hu, hbelow, hfilled⟩ :=
    replaced_of_planFor hplan (Path.parsed_of_parse hp) hattr htree hamong hlawful
      (fun d hd => hprefixes d (gives_of_planFor hplan d hd).mem) ht
  have hdirect' : v.DirectData := by
    unfold NodeTree.DirectData
    rw [hbelow]
    exact hdirect
  subst hw'
  exact ⟨hafter, top', u, htree', hsame, hu, hfilled.textContent (hfilled.directData hdirect')⟩

/-- A reader finds an element at a path without prefixes in a seed, and a writer that starts from the
seed without bindings of its own is asked to write at the path, and does so. Then the value is read
back from the text of the writer, once the limits of reading are high enough, if no element below the
root declares a default namespace or takes one back, and no element is in a namespace where none is
declared. As ever the text of an element is all character data below it, so there must be none
further down. -/
theorem FieldReader.readField_of_seeded {seed : String} {r₀ r : FieldReader} {l : LoadedDocument}
    (hblanks : r₀.options.dropBlanks = false) (hload : r₀.load seed true = (r, .ok ()))
    (hl : r.loaded = some l) (hone : l.document.markup.OneDefault) {f : Field} {p : Path}
    (hp : Path.parse f.path = .ok p) (hattr : p.attr = none)
    (hplain : ∀ s ∈ p.steps, s.name.nsPrefix = none) {t : NodeTree}
    (ht : l.document.locate? (p.steps.map (r.stepTest l)) = some t) (hdirect : t.DirectData)
    {maxIndex : Nat} {w w' : FieldWriter}
    (hnew : FieldWriter.new maxIndex .empty (some seed) = .ok w) {v : Value}
    (hv : f.value = some v) {log : List Audit} (h : w.writeField f log = (.ok (), w', log)) :
    ∃ x, f.stored? v = some x ∧ ∃ limit, ∀ r₁ : FieldReader,
      { r₁.options with namespaceAware := true }.Lifted limit →
        ∃ r', r₁.load w'.toXml true = (r', .ok ()) ∧
          ∀ (g : Field) (log' : List Audit), g.path = f.path →
            g.effectiveType = f.effectiveType →
            r'.readField g log' = (.ok (), { g with value := some x }, log') := by
  -- the reader and the writer hold the same document
  obtain ⟨hblank, m, hm, hloaded⟩ := load_eq_ok hload hl
  obtain ⟨m', -, -, -, -, -, -, hm', hdocument, -⟩ :=
    FieldWriter.new_eq_ok_of_seed True hblank hnew
  have hread : m.ReadFrom seed :=
    Markup.readFrom_of_parse (o := { r₀.options with namespaceAware := true }) rfl hblanks hm
  obtain rfl : m = m' := hread.unique (Markup.readFrom_of_parse rfl rfl hm')
  have hsameDocument : l.document = w.document := by rw [hloaded, hdocument]
  have hinfo : l.namespaceInfo = !(Namespaces.ofMarkup w.document.markup).isEmpty := by
    rw [hloaded, hdocument, Document.markup_ofMarkup]
  rw [hsameDocument] at hone ht
  obtain ⟨top, places, text, htree, hunder, hplaces, hne, htext, hwritten⟩ :=
    FieldWriter.written_of_seed hblank hnew hone hp hattr hplain h
  rw [← hinfo] at hunder
  rw [locate?_of_under hplain hplaces htree hunder] at ht
  obtain ⟨hlawful, top', u, htree', hsame, hu, hcontent⟩ := hwritten t ht hdirect
  -- what is written is read as the document of the writer
  obtain ⟨x, hx, hconverted⟩ := Field.ofText_of_textOf? hv htext
  have hmarkup' := FieldWriter.markup_of_isTree htree'
  have hnotEmpty : w'.document.markup.top ≠ .nil := by
    obtain ⟨before, k, e, e', below, below', after, -, split'⟩ := hsame
    rw [hmarkup']
    intro hnil
    cases top' with
    | nil => cases before <;> cases split'
    | cons => cases hnil
  obtain ⟨m', hlegal, hrender, hexact⟩ := hlawful.written.resolve_left hnotEmpty
  have htop' : m'.top = top'.map Node.content := by rw [hexact trivial, hmarkup']
  have hbindings : Namespaces.ofMarkup ⟨.absent, m'.top⟩ =
      Namespaces.ofMarkup w.document.markup := by
    unfold Namespaces.ofMarkup
    rw [htop', FieldWriter.markup_of_isTree htree, hsame.declarationsIn]
  obtain ⟨limit, hlift⟩ := load_of_readFrom (hrender ▸ Markup.readFrom_render hlegal)
    (hrender ▸ hlegal.not_allBlank)
  refine ⟨x, hx, limit, fun r₁ hr₁ => ?_⟩
  obtain ⟨r', l', hload', hl', rfl⟩ := hlift r₁ hr₁
  refine ⟨r', hload', fun g log' hpath htype => ?_⟩
  have hlocate := locate?_of_places (r := r')
    (l := ⟨.ofMarkup ⟨.absent, m'.top⟩, !(Namespaces.ofMarkup ⟨.absent, m'.top⟩).isEmpty⟩)
    hattr hplain hplaces hne htree' (by
      rw [hbindings, ← hinfo]
      exact hunder.sameElements hsame) (by rw [Document.markup_ofMarkup, hexact trivial]) rfl hu
  unfold readField fill
  simp only [hl', hpath, hp, hlocate, hcontent, htype, hconverted]
  rfl

/-- The second of two elements in the default namespace of the root, with a comment in it. -/
theorem FieldReader.readField_of_seeded_second :
    let seed := "<r xmlns='u'><a>1</a><a><!--c-->2</a></r>"
    let m : Markup := ⟨.absent, .cons (.element ⟨.plain "r", some "u", [⟨.plain "xmlns", none, "u"⟩]⟩)
      (.cons (.element ⟨.plain "a", some "u", []⟩) (.leaf (.text "1"))
        (.cons (.element ⟨.plain "a", some "u", []⟩)
          (.cons (.comment "c") .nil (.leaf (.text "2"))) .nil)) .nil⟩
    let l : LoadedDocument := ⟨.ofMarkup m, true⟩
    let r : FieldReader := ⟨{}, some l, ⟨[("", "u")]⟩⟩
    let p : Path := ⟨[⟨.plain "r", none⟩, ⟨.plain "a", some 2⟩], none⟩
    let t : NodeTree :=
      (⟨4, .element ⟨.plain "a", some "u", []⟩⟩,
        .cons ⟨5, .comment "c"⟩ .nil (.leaf ⟨6, .text "2"⟩))
    let w : FieldWriter := ⟨10, .ofMarkup m, ⟨[("", "u")]⟩⟩
    let f : Field := ⟨"/r/a[2]", some (.string "new"), none, false⟩
    let w' := (w.writeField f []).2.1
    (ReadOptions.dropBlanks {} = false ∧ (FieldReader.new {}).load seed true = (r, .ok ()) ∧
      m.OneDefault ∧ Path.parse f.path = .ok p ∧ p.attr = none ∧
      (∀ s ∈ p.steps, s.name.nsPrefix = none) ∧
      l.document.locate? (p.steps.map (r.stepTest l)) = some t ∧ NodeTree.DirectData t ∧
      FieldWriter.new 10 .empty (some seed) = .ok w ∧ w.writeField f [] = (.ok (), w', [])) ∧
    ∃ limit, ∀ r₁ : FieldReader, { r₁.options with namespaceAware := true }.Lifted limit →
      ∃ r', r₁.load w'.toXml true = (r', .ok ()) ∧
        r'.readField { f with value := none } [] =
          (.ok (), { f with value := some (.string "new") }, []) := by
  intro seed m l r p t w f w'
  have hload : (FieldReader.new {}).load seed true = (r, .ok ()) := by decide +kernel
  have hone : l.document.markup.OneDefault := by decide +kernel
  have hp : Path.parse f.path = .ok p := by decide
  have hplain : ∀ s ∈ p.steps, s.name.nsPrefix = none := by decide
  have ht : l.document.locate? (p.steps.map (r.stepTest l)) = some t := by decide +kernel
  have hdirect : NodeTree.DirectData t := by decide
  have hnew : FieldWriter.new 10 .empty (some seed) = .ok w := by decide +kernel
  have hwrite : w.writeField f [] = (.ok (), w', []) := by decide +kernel
  obtain ⟨x, hx, limit, hread⟩ := FieldReader.readField_of_seeded rfl hload rfl hone hp rfl hplain
    ht hdirect hnew rfl hwrite
  have hstored : f.stored? (.string "new") = some (.string "new") := by decide
  rw [hstored] at hx
  refine ⟨⟨rfl, hload, hone, hp, rfl, hplain, ht, hdirect, hnew, hwrite⟩, limit, fun r₁ hr₁ => ?_⟩
  obtain ⟨r', hload', hfield⟩ := hread r₁ hr₁
  refine ⟨r', hload', ?_⟩
  rw [Option.some.inj hx]
  exact hfield { f with value := none } [] rfl rfl

/-- An element that declares a default namespace of its own is found by the reader, but not by the
writer: that adds another one behind it, and the reader still finds the first. -/
theorem FieldReader.inner_default_hidden :
    let f : Field := ⟨"/r/a", some (.string "new"), none, false⟩
    let w := FieldWriter.new 10 .empty (some "<r><a xmlns=\"u\">old</a></r>")
    let text := "<r><a xmlns=\"u\">old</a><a>new</a></r>"
    let read : String → Except ReadError Unit × Field × List Audit := fun t =>
      ((FieldReader.new {}).load t true).1.readField { f with value := none } []
    w.map (fun w => ((w.writeField f []).1, (w.writeField f []).2.1.toXml, (w.writeField f []).2.2)) =
        .ok (.ok (), text, []) ∧
      read "<r><a xmlns=\"u\">old</a></r>" =
        (.ok (), { f with value := some (.string "old") }, []) ∧
      read text = (.ok (), { f with value := some (.string "old") }, []) := by
  decide +kernel

end MarkupFields
