import MarkupFields.Field.Reader
import MarkupFields.Proofs.Writer.Expressible
import MarkupFields.Proofs.Writer.Stable

/-
  Two ways to match names that come to the same in a document that a writer built. A writer asks for
  the namespace that a name of a path is bound to. A reader knows only what the document declares:
  it asks for the declared namespace of a prefix, for the default that holds at the candidate, or,
  where nothing is declared, for no namespace in particular. On elements whose names have the
  namespaces of their prefixes both tests say the same (`fits_stepTest`), so both go down to the same
  node (`descend?_of_fits`), whatever handles the nodes have.
-/

namespace MarkupFields

open Text

section
variable {n : Namespaces} {ds : List (String × String)}

/-! ## The default namespace -/

/-- The default namespace that the pairs declare. -/
def defaultOf (ds : List (String × String)) : Option String :=
  (ds.find? fun d => d.1 == "").map Prod.snd

theorem Namespaces.Declares.defaultOf_eq_some (h : n.Declares ds) {u : String}
    (hu : ("", u) ∈ ds) : defaultOf ds = some u := by
  unfold defaultOf
  cases hfind : ds.find? fun d => d.1 == "" with
  | none =>
    have := List.find?_eq_none.1 hfind _ hu
    exact absurd rfl this
  | some d =>
    have hd : d.1 = "" := by simpa using List.find?_some hfind
    have hmeaning := (h.each d (List.mem_of_find?_eq_some hfind)).meaning
    rw [hd, (h.each _ hu).meaning] at hmeaning
    exact hmeaning.symm

theorem Namespaces.Declares.defaultOf_eq_none (h : n.Declares ds) (hn : n.default? = none) :
    defaultOf ds = none := by
  unfold defaultOf
  rw [Option.map_eq_none_iff, List.find?_eq_none]
  intro d hd hempty
  have hmeaning := (h.each d hd).meaning
  rw [beq_iff_eq.1 hempty, show n.uri? "" = none from hn] at hmeaning
  cases hmeaning

/-- The namespace of a name without a prefix is the default that is declared. -/
theorem Named.eq_defaultOf (hds : n.Declares ds) {q : QName} {uri : Option String}
    (h : Named n ds n.default? q uri) (hq : q.nsPrefix = none) : uri = defaultOf ds := by
  have huri := h.plain hq
  cases hd : n.default? with
  | none => rw [huri, hd, hds.defaultOf_eq_none hd]
  | some u =>
    rw [hd] at huri
    subst huri
    rw [hds.defaultOf_eq_some (h.mem_of_plain hq)]

/-- Where nothing is declared, names are in no namespace. -/
theorem Named.eq_none {unprefixed uri : Option String} {q : QName}
    (h : Named n [] unprefixed q uri) : uri = none := by
  cases hp : q.nsPrefix with
  | some p =>
    obtain ⟨-, u, -, hmem⟩ := h.mem_of_prefix hp
    cases hmem
  | none =>
    cases huri : uri with
    | none => rfl
    | some u =>
      subst huri
      cases h.mem_of_plain hp

/-- The root element makes the declared default its own; any other element leaves the default as it
is. -/
theorem Element.Built.defaultInside {own : List (String × String)} {e : Element}
    (hn : n.Declarable) (ho : n.Declares own) (h : e.Built n ds own) (outside : Option String) :
    (Content.element e).defaultInside outside = (defaultOf own).or outside := by
  have hdeclared : Attribute.defaultDeclared? e.attributes = defaultOf own := by
    unfold Attribute.defaultDeclared? defaultOf
    rw [h.attributes.own]
  unfold Content.defaultInside
  rw [show (Content.element e).attributes = e.attributes from rfl, hdeclared]
  cases hd : defaultOf own with
  | none => rfl
  | some u =>
    obtain ⟨d, hfind, rfl⟩ := Option.map_eq_some_iff.1 hd
    have hne := (hn.ordinary (ho.each d (List.mem_of_find?_eq_some hfind))).nonempty
    simp only [if_neg hne, Option.some_or]

/-! ## Levels -/

/-- The elements of a level are built, and inside each the declared default holds. -/
def Forest.OnLevel (n : Namespaces) (ds : List (String × String)) (outside : Option String)
    (f : Forest Node) : Prop :=
  ∀ t ∈ f.trees, t.1.content.isElement = true →
    (∃ own, NodeTree.Built n ds own t) ∧ t.1.content.defaultInside outside = defaultOf ds

theorem Forest.Built.onLevel (hn : n.Declarable) {f : Forest Node} (h : f.Built n ds) :
    f.OnLevel n ds (defaultOf ds) := by
  intro t ht helement
  have hbuilt := Forest.built_iff_trees.1 h t ht
  obtain ⟨⟨k, c⟩, below⟩ := t
  cases hbuilt with
  | text => cases helement
  | element built texts content =>
    have hnone : n.Declares [] := ⟨.nil, fun d hd => absurd hd List.not_mem_nil⟩
    exact ⟨⟨[], .intro built texts content⟩, built.defaultInside hn hnone _⟩

theorem NodeTree.Built.onLevel (hn : n.Declarable) (hds : n.Declares ds) {r : NodeTree}
    (h : NodeTree.Built n ds ds r) : (Forest.single r).OnLevel n ds none := by
  intro t ht _
  have htree : t = r := List.mem_singleton.1 ht
  subst htree
  cases h with
  | intro built texts content =>
    refine ⟨⟨ds, .intro built texts content⟩, ?_⟩
    rw [built.defaultInside hn hds, Option.or_none]

theorem NodeTree.Built.content {own : List (String × String)} {t : NodeTree}
    (h : NodeTree.Built n ds own t) : t.2.Built n ds := by
  cases h with
  | intro built texts content => exact content

/-! ## Going down -/

/-- The same position in forests of the same contents, under tests that agree on them. -/
theorem Forest.nthRoot?_content {f g : Forest Node}
    (h : g.map Node.content = f.map Node.content) {p q : Node → Bool}
    (hpq : ∀ t ∈ f.trees, ∀ b : Node, b.content = t.1.content → q b = p t.1) {k : Nat}
    {t : NodeTree} (ht : nthRoot? p k f = some t) :
    ∃ t', nthRoot? q k g = some t' ∧ t'.1.content = t.1.content ∧
      t'.2.map Node.content = t.2.map Node.content := by
  induction f generalizing g k with
  | nil => cases ht
  | cons a below beside _ ih =>
    cases g with
    | nil => cases h
    | cons b below' beside' =>
      obtain ⟨hab, hbelow, hbeside⟩ := Forest.cons.inj h
      have hq : q b = p a := hpq (a, below) List.mem_cons_self b hab
      have hrest := fun u hu => hpq u (List.mem_cons_of_mem (a, below) hu)
      unfold nthRoot? at ht ⊢
      by_cases ha : p a = true
      · rw [if_pos ha] at ht
        rw [if_pos (hq.trans ha)]
        by_cases hk : k = 1
        · rw [if_pos hk, Option.some.injEq] at ht
          rw [if_pos hk]
          subst ht
          exact ⟨_, rfl, hab, hbelow⟩
        · rw [if_neg hk] at ht ⊢
          exact ih hbeside hrest ht
      · rw [if_neg ha] at ht
        rw [if_neg (by rw [hq]; exact ha)]
        exact ih hbeside hrest ht

/-- Steps lead to nodes of the same content in forests of the same contents. -/
theorem Forest.descend?_content {steps : List StepTest} {a b : Node} {f g : Forest Node}
    (hab : b.content = a.content) (hfg : g.map Node.content = f.map Node.content)
    {outside : Option String} {t : NodeTree} (ht : descend? steps outside (a, f) = some t) :
    ∃ t', descend? steps outside (b, g) = some t' ∧ t'.1.content = t.1.content ∧
      t'.2.map Node.content = t.2.map Node.content := by
  induction steps generalizing a b f g outside with
  | nil =>
    have hhere : (a, f) = t := Option.some.inj ht
    subst hhere
    exact ⟨(b, g), rfl, hab, hfg⟩
  | cons s steps ih =>
    unfold descend? at ht ⊢
    obtain ⟨u, hu, hdown⟩ := Option.bind_eq_some_iff.1 ht
    obtain ⟨u', hu', hcontent, hbelow⟩ := nthRoot?_content hfg
      (q := fun n => s.test.acceptsNode outside n.content) (fun _ _ _ hb => by rw [hb]) hu
    rw [Option.bind_eq_bind, hu', Option.bind_some, hcontent]
    exact ih hcontent hbelow hdown

/-- Steps and places that accept the same roots on every level that can be reached lead to the same
node. -/
theorem Forest.descend?_congr (level : Option String → Forest Node → Prop)
    (hlevel : ∀ outside f, level outside f → ∀ t ∈ f.trees, t.1.content.isElement = true →
      level (t.1.content.defaultInside outside) t.2)
    {steps : List StepTest} {places : List Place}
    (h : List.Forall₂ (fun s p => s.position = p.position ∧ ∀ outside f, level outside f →
      ∀ t ∈ f.trees, s.test.acceptsNode outside t.1.content = p.accepts t.1) steps places)
    {a : Node} {f : Forest Node} {outside : Option String} (inScope : Option String)
    (hf : level outside f) :
    descend? steps outside (a, f) = descend? (places.map Place.stepTest) inScope (a, f) := by
  induction h generalizing a f outside inScope with
  | nil => rfl
  | @cons s p steps places hsp _ ih =>
    obtain ⟨hposition, hagree⟩ := hsp
    rw [List.map_cons, descend?_cons_stepTest]
    show (nthRoot? (fun n : Node => s.test.acceptsNode outside n.content) s.position f).bind
      (fun next => descend? steps (next.1.content.defaultInside outside) next) = _
    rw [hposition, nthRoot?_congr (p := p.accepts) (hagree outside f hf)]
    cases ht : nthRoot? p.accepts p.position f with
    | none => rfl
    | some t =>
      obtain ⟨hmem, hpasses⟩ := nthRoot?_mem ht
      obtain ⟨e, he, -⟩ := Place.accepts_iff.1 hpasses
      exact ih _ (hlevel outside f hf t hmem (by rw [he]; rfl))

/-- The step asks for the position of the place and, where the declared default holds inside a built
element, takes it exactly if it stands at the place. -/
structure StepTest.Fits (n : Namespaces) (ds : List (String × String)) (s : StepTest)
    (p : Place) : Prop where
  position : s.position = p.position
  test : ∀ (e : Element) (outside : Option String), Named n ds n.default? e.name e.namespaceUri →
    (Content.element e).defaultInside outside = defaultOf ds →
    s.test.acceptsNode outside (.element e) = p.test.acceptsNode none (.element e)

theorem StepTest.Fits.acceptsNode {s : StepTest} {p : Place} (h : s.Fits n ds p)
    {outside : Option String} {f : Forest Node} (hf : f.OnLevel n ds outside) {t : NodeTree}
    (ht : t ∈ f.trees) : s.test.acceptsNode outside t.1.content = p.accepts t.1 := by
  obtain ⟨⟨k, c⟩, below⟩ := t
  cases c with
  | element e =>
    obtain ⟨⟨own, hbuilt⟩, hdefault⟩ := hf _ ht rfl
    cases hbuilt with
    | intro built => exact h.test e outside built.named hdefault
  | _ => rfl

theorem Forest.OnLevel.below (hn : n.Declarable) {outside : Option String} {f : Forest Node}
    (hf : f.OnLevel n ds outside) {t : NodeTree} (ht : t ∈ f.trees)
    (he : t.1.content.isElement = true) :
    t.2.OnLevel n ds (t.1.content.defaultInside outside) := by
  obtain ⟨⟨own, hbuilt⟩, hdefault⟩ := hf t ht he
  rw [hdefault]
  exact hbuilt.content.onLevel hn

/-- Places lead to a built element, if there are any. -/
theorem Forest.OnLevel.descend? (hn : n.Declarable) {places : List Place} (hne : places ≠ [])
    {outside inScope : Option String} {a : Node} {f : Forest Node} (hf : f.OnLevel n ds outside)
    {t : NodeTree} (ht : Forest.descend? (places.map Place.stepTest) inScope (a, f) = some t) :
    ∃ own, NodeTree.Built n ds own t := by
  induction places generalizing a f outside inScope with
  | nil => exact absurd rfl hne
  | cons p places ih =>
    rw [List.map_cons, descend?_cons_stepTest] at ht
    obtain ⟨u, hu, hdown⟩ := Option.bind_eq_some_iff.1 ht
    obtain ⟨hmem, hpasses⟩ := nthRoot?_mem hu
    obtain ⟨e, he, -⟩ := Place.accepts_iff.1 hpasses
    have helement : u.1.content.isElement = true := by
      rw [he]
      rfl
    cases places with
    | nil => exact Option.some.inj hdown ▸ (hf u hmem helement).1
    | cons q places => exact ih (List.cons_ne_nil _ _) (hf.below hn hmem helement) hdown

/-- Steps that fit places lead to the node of the same content. The node is a built element. -/
theorem Forest.descend?_of_fits (hn : n.Declarable) {steps : List StepTest} {places : List Place}
    (h : List.Forall₂ (StepTest.Fits n ds) steps places) {a b : Node} {f g : Forest Node}
    (hab : b.content = a.content) (hfg : g.map Node.content = f.map Node.content)
    {outside inScope : Option String} (hlevel : f.OnLevel n ds outside) {t : NodeTree}
    (ht : descend? (places.map Place.stepTest) inScope (a, f) = some t) :
    ∃ t', descend? steps outside (b, g) = some t' ∧ t'.1.content = t.1.content ∧
      t'.2.map Node.content = t.2.map Node.content ∧
      (places ≠ [] → ∃ own, NodeTree.Built n ds own t) := by
  have hsame := descend?_congr (fun outside f => f.OnLevel n ds outside)
    (fun _ _ hf _ hu he => hf.below hn hu he)
    (h.imp fun _ _ hfits => ⟨hfits.position, fun _ _ hf _ hu => hfits.acceptsNode hf hu⟩)
    (a := a) inScope hlevel
  obtain ⟨t', ht', hcontent, hbelow⟩ := descend?_content hab hfg (hsame.trans ht)
  exact ⟨t', ht', hcontent, hbelow, fun hne => hlevel.descend? hn hne ht⟩

end

/-! ## The tests of a reader -/

namespace FieldReader

variable {n : Namespaces} {ds : List (String × String)} {r : FieldReader} {l : LoadedDocument}

theorem uri?_of_mem (hds : n.Declares ds) (hr : r.namespaces = ⟨ds⟩) {x u : String}
    (hx : x ≠ "xml") (hmem : (x, u) ∈ ds) : r.namespaces.uri? x = some u := by
  unfold Namespaces.uri?
  rw [if_neg hx, hr]
  exact lookup_of_mem hds.distinct hmem

/-- What a reader that knows the declarations asks of the namespace: nothing where nothing is
declared, otherwise the namespace of a name with a prefix. -/
theorem namespaceTest_of_named (hds : n.Declares ds) (hr : r.namespaces = ⟨ds⟩)
    (hl : l.namespaceInfo = !ds.isEmpty) {unprefixed uri : Option String} {q : QName}
    (h : Named n ds unprefixed q uri) (t : NamespaceTest) :
    r.namespaceTest l q t =
      if ds = [] then .any else if q.nsPrefix = none then t else .exactly uri := by
  unfold namespaceTest
  by_cases hempty : ds = []
  · rw [if_pos hempty, hl, hempty]
    rfl
  · have hinfo : (!l.namespaceInfo) = false := by
      rw [hl, List.isEmpty_eq_false_iff.2 hempty]
      rfl
    rw [if_neg hempty, hinfo, if_neg Bool.false_ne_true]
    cases hq : q.nsPrefix with
    | none => rfl
    | some x =>
      obtain ⟨hx, u, hu, hmem⟩ := h.mem_of_prefix hq
      rw [if_neg (Option.some_ne_none x), hu]
      simp only [uri?_of_mem hds hr hx hmem]

/-- The step of a reader that knows the declarations fits the place of the step. -/
theorem fits_stepTest (hds : n.Declares ds) (hr : r.namespaces = ⟨ds⟩)
    (hl : l.namespaceInfo = !ds.isEmpty) {s : Step} {p : Place} (hname : p.name = s.name)
    (hposition : p.position = s.position) (hp : p.Built n ds) :
    (r.stepTest l s).Fits n ds p where
  position := hposition.symm
  test := by
    intro e outside he hdefault
    unfold Place.Built at hp
    rw [hname] at hp
    simp only [stepTest, namespaceTest_of_named hds hr hl hp, Place.test, NameTest.acceptsNode,
      NameTest.acceptsNamespace, hdefault, hname]
    congr 1
    by_cases hempty : ds = []
    · subst hempty
      rw [if_pos rfl, hp.eq_none, he.eq_none]
      rfl
    · rw [if_neg hempty]
      by_cases hq : s.name.nsPrefix = none
      · rw [if_pos hq, hp.eq_defaultOf hds hq]
      · rw [if_neg hq]

/-- The attribute test of a reader that knows the declarations looks for the key of the attribute. -/
theorem acceptsAttribute_attributeTest (hds : n.Declares ds) (hr : r.namespaces = ⟨ds⟩)
    (hl : l.namespaceInfo = !ds.isEmpty) {a : Attribute} (ha : a.Built n ds)
    {own : List (String × String)} {b : Attribute}
    (hb : b.Built n ds ∨ ∃ d ∈ own, b = Attribute.declaration d.1 d.2) :
    (r.attributeTest l a.name).acceptsAttribute b = Attribute.hasKey a.key b := by
  rcases hb with hb | ⟨d, -, rfl⟩
  · rw [Attribute.hasKey_of_regular hb.regular]
    simp only [attributeTest, namespaceTest_of_named hds hr hl ha.named, NameTest.acceptsAttribute,
      NameTest.acceptsNamespace, hb.regular, Bool.not_false, Bool.true_and]
    congr 1
    by_cases hempty : ds = []
    · subst hempty
      rw [if_pos rfl, ha.named.eq_none, hb.named.eq_none]
      rfl
    · rw [if_neg hempty]
      by_cases hq : a.name.nsPrefix = none
      · rw [if_pos hq, ha.named.plain hq]
      · rw [if_neg hq]
  · unfold NameTest.acceptsAttribute Attribute.hasKey
    rw [Attribute.isDeclaration_declaration d.1 d.2]
    rfl

end FieldReader

end MarkupFields
