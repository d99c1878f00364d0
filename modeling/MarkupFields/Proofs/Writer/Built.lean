import MarkupFields.Proofs.Tree.Attributes
import MarkupFields.Proofs.Writer.Written

/-
  Documents that a writer builds from nothing. The root declares some of the prefixes that are bound,
  each for what it is bound to, and no other element declares any. Every name in the document has the
  namespace that its prefix is bound to, and the prefix is declared on the root (`Named`). The nodes
  are elements and texts, at most one text beside the elements of a level, and an element has no two
  regular attributes with the same key (`Forest.Built`).

  `WrittenTop.built`: carrying out a plan whose names have the namespaces of their prefixes gives such
  a document again, and all prefixes that the plan uses are declared in it.
-/

namespace MarkupFields

open Text Scan

/-- Every namespace that is bound can be declared: it is some text of characters that a document can
hold, and none of the two reserved namespaces. -/
def Namespaces.Declarable (n : Namespaces) : Prop :=
  ∀ b ∈ n.bindings, b.2 ≠ "" ∧ (∀ c ∈ b.2.toList, isXmlChar c = true) ∧
    b.2 ≠ xmlNamespace ∧ b.2 ≠ xmlnsNamespace

instance (n : Namespaces) : Decidable n.Declarable :=
  letI := fun b : String × String => List.decidableBAll (isXmlChar · = true) b.2.toList
  inferInstanceAs (Decidable (∀ b ∈ n.bindings, _ ∧ (∀ c ∈ b.2.toList, _) ∧ _ ∧ _))

/-- The pair can be declared on a root element: its prefix is none of the two reserved ones, can be
written, and is bound to its namespace. -/
structure Namespaces.Binds (n : Namespaces) (d : String × String) : Prop where
  meaning : n.uri? d.1 = some d.2
  ordinary : d.1 ≠ "xml" ∧ d.1 ≠ "xmlns"
  named : d.1 = "" ∨ isNCName d.1 = true

/-- The pairs can be the declarations of a root element: no prefix comes twice. -/
structure Namespaces.Declares (n : Namespaces) (ds : List (String × String)) : Prop where
  distinct : (ds.map Prod.fst).Nodup
  each : ∀ d ∈ ds, n.Binds d

/-- The name has its namespace: that of its prefix, which is neither of the two reserved ones, or the
given one without a prefix. The prefix is declared among the pairs. -/
structure Named (n : Namespaces) (ds : List (String × String)) (unprefixed : Option String)
    (q : QName) (uri : Option String) : Prop where
  qualified : q.isQualified = true
  ordinary : q.nsPrefix ≠ some "xml" ∧ q.nsPrefix ≠ some "xmlns"
  plain : q.nsPrefix = none → uri = unprefixed
  bound : ∀ p, q.nsPrefix = some p → ∃ u, n.uri? p = some u ∧ uri = some u
  declared : ∀ d ∈ FieldWriter.needed? q uri, d ∈ ds

section
variable {n : Namespaces} {ds ds' own : List (String × String)}

theorem Named.mono {unprefixed : Option String} {q : QName} {uri : Option String}
    (h : Named n ds unprefixed q uri) (hs : ∀ d ∈ ds, d ∈ ds') : Named n ds' unprefixed q uri :=
  ⟨h.qualified, h.ordinary, h.plain, h.bound, fun d hd => hs d (h.declared d hd)⟩

/-- What a name needs declared can be declared. -/
theorem Named.binds {unprefixed : Option String} {q : QName} {uri : Option String}
    (h : Named n ds unprefixed q uri) (hu : unprefixed = none ∨ unprefixed = n.default?)
    {d : String × String} (hd : d ∈ FieldWriter.needed? q uri) : n.Binds d := by
  cases hp : q.nsPrefix with
  | none =>
    simp only [FieldWriter.needed?, hp, Option.getD_none] at hd
    rw [if_neg (by decide), h.plain hp] at hd
    obtain ⟨u, hu', rfl⟩ := Option.map_eq_some_iff.1 hd
    rcases hu with rfl | rfl
    · cases hu'
    · exact ⟨hu', ⟨(by decide : "" ≠ "xml"), (by decide : "" ≠ "xmlns")⟩, .inl rfl⟩
  | some p =>
    have hord := h.ordinary
    rw [hp, Ne, Option.some.injEq, Ne, Option.some.injEq] at hord
    obtain ⟨u, hu', rfl⟩ := h.bound p hp
    simp only [FieldWriter.needed?, hp, Option.getD_some] at hd
    rw [if_neg hord.1, Option.map_some] at hd
    have hd' := Option.some.inj hd
    have hq := h.qualified
    unfold QName.isQualified at hq
    rw [hp, Bool.and_eq_true] at hq
    rw [← hd']
    exact ⟨hu', hord, .inr hq.1⟩

/-- A prefix that is used is declared for the namespace of the name. -/
theorem Named.mem_of_prefix {unprefixed uri : Option String} {q : QName}
    (h : Named n ds unprefixed q uri) {p : String} (hp : q.nsPrefix = some p) :
    p ≠ "xml" ∧ ∃ u, uri = some u ∧ (p, u) ∈ ds := by
  obtain ⟨u, -, rfl⟩ := h.bound p hp
  have hord := h.ordinary.1
  rw [hp, Ne, Option.some.injEq] at hord
  have hneeded : (p, u) ∈ FieldWriter.needed? q (some u) := by
    simp only [FieldWriter.needed?, hp, Option.getD_some]
    rw [if_neg hord]
    rfl
  exact ⟨hord, u, rfl, h.declared _ hneeded⟩

/-- The namespace of a name without a prefix, if it has one, is declared as the default. -/
theorem Named.mem_of_plain {unprefixed : Option String} {q : QName} {u : String}
    (h : Named n ds unprefixed q (some u)) (hp : q.nsPrefix = none) : ("", u) ∈ ds := by
  refine h.declared ("", u) ?_
  simp only [FieldWriter.needed?, hp, Option.getD_none]
  rfl

/-! ## Attributes -/

/-- A regular attribute that has its namespace and a value that a document can hold. -/
structure Attribute.Built (n : Namespaces) (ds : List (String × String)) (a : Attribute) :
    Prop where
  named : Named n ds none a.name a.namespaceUri
  regular : a.isDeclaration = false
  value : ∀ c ∈ a.value.toList, isXmlChar c = true

theorem Attribute.Built.mono {a : Attribute} (h : a.Built n ds) (hs : ∀ d ∈ ds, d ∈ ds') :
    a.Built n ds' :=
  ⟨h.named.mono hs, h.regular, h.value⟩

/-- The attributes of an element are its own declarations and regular attributes with distinct
keys. -/
structure AttributesBuilt (n : Namespaces) (ds own : List (String × String))
    (as : List Attribute) : Prop where
  each : ∀ a ∈ as, a.Built n ds ∨ ∃ d ∈ own, a = Attribute.declaration d.1 d.2
  distinct : (Attribute.keys as).Nodup
  own : Attribute.declarations as = own

theorem attributesBuilt_nil : AttributesBuilt n ds [] [] where
  each := fun _ ha => absurd ha List.not_mem_nil
  distinct := .nil
  own := rfl

theorem AttributesBuilt.mono {as : List Attribute} (h : AttributesBuilt n ds own as)
    (hs : ∀ d ∈ ds, d ∈ ds') : AttributesBuilt n ds' own as :=
  ⟨fun a ha => (h.each a ha).imp_left fun hb => hb.mono hs, h.distinct, h.own⟩

theorem AttributesBuilt.set {as : List Attribute} (h : AttributesBuilt n ds own as)
    {a : Attribute} (ha : a.Built n ds) : AttributesBuilt n ds own (a.set as) where
  each := by
    intro b hb
    rcases Attribute.mem_set hb with rfl | hb
    · exact .inl ha
    · exact h.each b hb
  distinct := Attribute.nodup_keys_set ha.regular h.distinct
  own := by rw [Attribute.declarations_set ha.regular, h.own]

/-! ## Elements and forests -/

/-- The element has its namespace, and its attributes are built. -/
structure Element.Built (n : Namespaces) (ds own : List (String × String)) (e : Element) :
    Prop where
  named : Named n ds n.default? e.name e.namespaceUri
  attributes : AttributesBuilt n ds own e.attributes

theorem Element.Built.mono {e : Element} (h : e.Built n ds own) (hs : ∀ d ∈ ds, d ∈ ds') :
    e.Built n ds' own :=
  ⟨h.named.mono hs, h.attributes.mono hs⟩

/-- The number of texts and CDATA sections of a level. -/
def Forest.dataCount (ts : List NodeTree) : Nat :=
  Forest.rootCount (fun k => k.content.isCharacterData) ts

/-- Elements without declarations and texts, at most one text inside each element. -/
inductive Forest.Built (n : Namespaces) (ds : List (String × String)) : Forest Node → Prop
  | nil : Built n ds .nil
  | text {h : Nat} {s : String} {beside : Forest Node} (nonempty : s ≠ "")
      (characters : ∀ c ∈ s.toList, isXmlChar c = true) (rest : Built n ds beside) :
      Built n ds (.cons ⟨h, .text s⟩ .nil beside)
  | element {h : Nat} {e : Element} {below beside : Forest Node} (built : e.Built n ds [])
      (texts : Forest.dataCount below.trees ≤ 1) (content : Built n ds below)
      (rest : Built n ds beside) : Built n ds (.cons ⟨h, .element e⟩ below beside)

/-- An element with declarations of its own, and built content. -/
inductive NodeTree.Built (n : Namespaces) (ds own : List (String × String)) : NodeTree → Prop
  | intro {h : Nat} {e : Element} {below : Forest Node} (built : e.Built n ds own)
      (texts : Forest.dataCount below.trees ≤ 1) (content : Forest.Built n ds below) :
      NodeTree.Built n ds own (⟨h, .element e⟩, below)

namespace Forest

theorem Built.mono {f : Forest Node} (h : f.Built n ds) (hs : ∀ d ∈ ds, d ∈ ds') :
    f.Built n ds' := by
  induction h with
  | nil => exact .nil
  | text nonempty characters _ ih => exact .text nonempty characters ih
  | element built texts _ _ ihc ihr => exact .element (built.mono hs) texts ihc ihr

/-- The forest of one tree. -/
def single (t : NodeTree) : Forest Node :=
  .cons t.1 t.2 .nil

/-- A forest is built tree by tree. -/
theorem built_iff_trees {f : Forest Node} :
    f.Built n ds ↔ ∀ t ∈ f.trees, (single t).Built n ds := by
  induction f with
  | nil => exact ⟨fun _ t ht => absurd ht List.not_mem_nil, fun _ => .nil⟩
  | cons k below beside _ ih =>
    rw [trees, List.forall_mem_cons, ← ih]
    constructor
    · intro h
      cases h with
      | text nonempty characters rest => exact ⟨.text nonempty characters .nil, rest⟩
      | element built texts content rest => exact ⟨.element built texts content .nil, rest⟩
    · rintro ⟨h, rest⟩
      cases h with
      | text nonempty characters _ => exact .text nonempty characters rest
      | element built texts content _ => exact .element built texts content rest

end Forest

theorem NodeTree.Built.single {t : NodeTree} (h : NodeTree.Built n ds [] t) :
    (Forest.single t).Built n ds := by
  cases h with
  | intro built texts content => exact .element built texts content .nil

theorem NodeTree.Built.isElement {t : NodeTree} (h : NodeTree.Built n ds own t) :
    t.1.content.isElement = true := by
  cases h with
  | intro => rfl

/-- What stands at a place of a built level is a built element. -/
theorem Forest.Built.of_accepts {t : NodeTree} (h : (Forest.single t).Built n ds) {p : Place}
    (hp : p.accepts t.1 = true) : NodeTree.Built n ds [] t := by
  obtain ⟨k, below⟩ := t
  cases h with
  | text => cases hp
  | element built texts content => exact .intro built texts content

/-! ## Writing -/

/-- The payload can be put into a document that is built. -/
def Payload.Built (n : Namespaces) (ds : List (String × String)) : Payload → Prop
  | .text s => ∀ c ∈ s.toList, isXmlChar c = true
  | .attr a => a.Built n ds

theorem Payload.Built.mono {payload : Payload} (h : payload.Built n ds)
    (hs : ∀ d ∈ ds, d ∈ ds') : payload.Built n ds' := by
  cases payload with
  | text s => exact h
  | attr a => exact Attribute.Built.mono h hs

/-- The payload declares nothing. -/
def Payload.Regular (payload : Payload) : Prop :=
  ∀ a, payload = .attr a → a.isDeclaration = false

theorem Payload.Built.regular {payload : Payload} (h : payload.Built n ds) : payload.Regular := by
  rintro a rfl
  exact Attribute.Built.regular h

/-- Writing does not change what the node that it starts from declares. -/
theorem WrittenBelow.declarations {payload : Payload} (hp : payload.Regular) {places : List Place}
    {t t' : NodeTree} {next next' : Nat} (h : WrittenBelow payload places t next t' next') :
    Attribute.declarations t'.1.content.attributes =
      Attribute.declarations t.1.content.attributes := by
  cases h with
  | here filled =>
    cases filled with
    | attr => exact Attribute.declarations_set (hp _ rfl) _
    | _ => rfl
  | step => rfl

/-- The place has its namespace. -/
def Place.Built (n : Namespaces) (ds : List (String × String)) (p : Place) : Prop :=
  Named n ds n.default? p.name p.namespaceUri

namespace Forest

theorem dataCount_append (ts us : List NodeTree) :
    dataCount (ts ++ us) = dataCount ts + dataCount us :=
  rootCount_append _ ts us

theorem dataCount_filter (ts : List NodeTree) :
    dataCount (ts.filter fun t => !t.1.content.isCharacterData) = 0 := by
  refine (rootCount_eq_zero _ _).2 fun t ht => ?_
  have := (List.mem_filter.1 ht).2
  rwa [Bool.not_eq_true'] at this

theorem isCharacterData_of_isElement {c : Content} (h : c.isElement = true) :
    c.isCharacterData = false := by
  cases c with
  | element e => rfl
  | _ => cases h

/-- An element in the middle of a level does not count. -/
theorem dataCount_middle (before after : List NodeTree) {t : NodeTree}
    (ht : t.1.content.isElement = true) :
    dataCount (before ++ t :: after) = dataCount before + dataCount after := by
  have hone : rootCount (fun k : Node => k.content.isCharacterData) (t :: after) =
      dataCount after := by
    rw [rootCount_cons, isCharacterData_of_isElement ht, if_neg Bool.false_ne_true]
    rfl
  rw [dataCount_append]
  congr 1

theorem dataCount_fresh (p : Place) (next count : Nat) : dataCount (p.fresh next count) = 0 := by
  refine (rootCount_eq_zero _ _).2 fun t ht => ?_
  obtain ⟨k, -, rfl⟩ := List.mem_map.1 ht
  rfl

end Forest

theorem Payload.Filled.built {payload : Payload} (hp : payload.Built n ds) {t t' : NodeTree}
    {next next' : Nat} (h : payload.Filled t next t' next') (ht : NodeTree.Built n ds own t) :
    NodeTree.Built n ds own t' := by
  cases h with
  | emptied trees =>
    cases ht with
    | intro built texts content =>
      refine .intro built ?_ (Forest.built_iff_trees.2 ?_)
      · rw [trees, Forest.dataCount_filter]
        exact Nat.zero_le 1
      · intro u hu
        rw [trees] at hu
        exact Forest.built_iff_trees.1 content u (List.mem_filter.1 hu).1
  | text nonempty trees =>
    cases ht with
    | intro built texts content =>
      refine .intro built ?_ (Forest.built_iff_trees.2 ?_)
      · rw [trees, Forest.dataCount_append, Forest.dataCount_filter]
        exact Nat.le_refl 1
      · intro u hu
        rw [trees, List.mem_append, List.mem_singleton] at hu
        rcases hu with hu | rfl
        · exact Forest.built_iff_trees.1 content u (List.mem_filter.1 hu).1
        · exact .text nonempty hp .nil
  | attr =>
    cases ht with
    | intro built texts content =>
      exact .intro ⟨built.named, built.attributes.set hp⟩ texts content

/-- New elements are built. -/
theorem Place.built_fresh {p : Place} (hp : p.Built n ds) {next count : Nat} :
    ∀ t ∈ p.fresh next count, (Forest.single t).Built n ds := by
  intro t ht
  obtain ⟨k, -, rfl⟩ := List.mem_map.1 ht
  exact .element ⟨hp, attributesBuilt_nil⟩ (Nat.zero_le 1) .nil .nil

theorem WrittenBelow.built {payload : Payload} (hpayload : payload.Built n ds)
    {places : List Place} (hplaces : ∀ p ∈ places, p.Built n ds) {t t' : NodeTree}
    {next next' : Nat} (h : WrittenBelow payload places t next t' next')
    (ht : NodeTree.Built n ds own t) : NodeTree.Built n ds own t' := by
  induction h generalizing own with
  | here filled => exact filled.built hpayload ht
  | @step p places k old new before after t t' next count next' _ split _ trees ih =>
    cases ht with
    | intro built texts content =>
      have hall : ∀ u ∈ before ++ t :: after, (Forest.single u).Built n ds := by
        intro u hu
        rw [← split.split, List.mem_append] at hu
        rcases hu with hu | hu
        · exact Forest.built_iff_trees.1 content u hu
        · exact Place.built_fresh (hplaces p List.mem_cons_self) u hu
      have hmiddle : t ∈ before ++ t :: after := List.mem_append_right _ List.mem_cons_self
      have ht : NodeTree.Built n ds [] t := (hall t hmiddle).of_accepts split.passes
      have ht' := ih (fun q hq => hplaces q (List.mem_cons_of_mem p hq)) ht
      refine .intro built ?_ (Forest.built_iff_trees.2 ?_)
      · -- the tree that is written into is an element before and after
        have hcount := congrArg Forest.dataCount split.split
        rw [Forest.dataCount_append, Forest.dataCount_fresh,
          Forest.dataCount_middle _ _ ht.isElement] at hcount
        rw [trees, Forest.dataCount_middle _ _ ht'.isElement]
        omega
      · intro u hu
        rw [trees, List.mem_append, List.mem_cons] at hu
        rcases hu with hu | rfl | hu
        · exact hall u (List.mem_append_left _ hu)
        · exact ht'.single
        · exact hall u (List.mem_append_right _ (List.mem_cons_of_mem _ hu))

/-! ## The root element -/

/-- Declaring prefixes that can be declared leaves the attributes of a root element built; all of the
prefixes are declared afterwards. -/
theorem Declared.built {pd : List (String × String)} (hpd : ∀ d ∈ pd, n.Binds d) {e e' : Element}
    (h : Declared pd e e') (hds : n.Declares ds) (ha : AttributesBuilt n ds ds e.attributes) :
    ∃ ds', n.Declares ds' ∧ AttributesBuilt n ds' ds' e'.attributes ∧ (∀ d ∈ ds, d ∈ ds') ∧
      ∀ d ∈ pd, d ∈ ds' := by
  obtain ⟨new, hnew, hall⟩ := h.declarations
  rw [ha.own] at hall
  have hold : ∀ d ∈ ds, d ∈ Attribute.declarations e'.attributes := by
    intro d hd
    rw [hall]
    exact List.mem_append_left _ hd
  have hbinds : ∀ d ∈ Attribute.declarations e'.attributes, n.Binds d := by
    intro d hd
    rw [hall, List.mem_append] at hd
    rcases hd with hd | hd
    · exact hds.each d hd
    · exact hpd d (hnew.subset hd)
  -- a prefix that is declared is declared for what it is bound to
  have hgiven : ∀ d ∈ pd, d ∈ Attribute.declarations e'.attributes := by
    intro d hd
    obtain ⟨c, hc, hcd⟩ := List.mem_map.1 (h.known d hd)
    have hmeaning := (hbinds c hc).meaning
    rw [hcd, (hpd d hd).meaning, Option.some.injEq] at hmeaning
    rwa [show d = c from Prod.ext hcd.symm hmeaning]
  refine ⟨Attribute.declarations e'.attributes, ⟨?_, hbinds⟩, ⟨?_, ?_, rfl⟩, hold, hgiven⟩
  · refine h.once ?_
    rw [ha.own]
    exact hds.distinct
  · intro a hmem
    rcases h.origin a hmem with hmem | ⟨d, hd, rfl⟩
    · rcases ha.each a hmem with hb | ⟨d, hd, rfl⟩
      · exact .inl (hb.mono hold)
      · exact .inr ⟨d, hold d hd, rfl⟩
    · exact .inr ⟨d, hgiven d hd, rfl⟩
  · unfold Attribute.keys
    rw [h.regular]
    exact ha.distinct

/-- Every name of the plan has its namespace, and what they need declared is declared by the plan. -/
structure WritePlan.Built (n : Namespaces) (plan : WritePlan) : Prop where
  places : ∀ p ∈ plan.root :: plan.places, p.Built n plan.declarations
  payload : plan.payload.Built n plan.declarations
  binds : ∀ d ∈ plan.declarations, n.Binds d

variable {plan : WritePlan}

theorem WrittenRoot.built (hplan : plan.Built n) (hds : n.Declares ds) {k next next' : Nat}
    {e : Element} {below : Forest Node} {r' : NodeTree}
    (h : WrittenRoot plan (⟨k, .element e⟩, below) next r' next')
    (hname : Named n ds n.default? e.name e.namespaceUri ∨
      Named n plan.declarations n.default? e.name e.namespaceUri)
    (ha : AttributesBuilt n ds ds e.attributes) (htexts : Forest.dataCount below.trees ≤ 1)
    (hcontent : below.Built n ds) :
    ∃ ds', n.Declares ds' ∧ NodeTree.Built n ds' ds' r' ∧ ∀ d ∈ plan.declarations, d ∈ ds' := by
  obtain ⟨k', e₁, e', hnode, hdeclared, hwritten⟩ := h
  rw [Node.mk.injEq, Content.element.injEq] at hnode
  obtain ⟨rfl, rfl⟩ := hnode
  obtain ⟨ds', hds', ha', hold, hgiven⟩ := hdeclared.built hplan.binds hds ha
  have hname' : Named n ds' n.default? e'.name e'.namespaceUri := by
    rw [hdeclared.name, hdeclared.namespaceUri]
    rcases hname with hname | hname
    · exact hname.mono hold
    · exact hname.mono hgiven
  refine ⟨ds', hds', ?_, hgiven⟩
  refine hwritten.built (hplan.payload.mono hgiven) ?_
    (.intro ⟨hname', ha'⟩ htexts (hcontent.mono hold))
  intro p hp
  exact Named.mono (hplan.places p (List.mem_cons_of_mem _ hp)) hgiven

/-- The top level has nothing, or nothing but a built root element with its declarations. -/
def Forest.BuiltTop (n : Namespaces) (top : Forest Node) : Prop :=
  top = .nil ∨ ∃ ds r, top = Forest.single r ∧ n.Declares ds ∧ NodeTree.Built n ds ds r

/-- After a plan was carried out there is a built root element, and what the plan needs declared is
declared on it. -/
theorem WrittenTop.built (hplan : plan.Built n) {top top' : Forest Node} {next next' : Nat}
    (h : WrittenTop plan top next top' next') (ht : top.BuiltTop n) :
    ∃ ds r, top' = Forest.single r ∧ n.Declares ds ∧ NodeTree.Built n ds ds r ∧
      ∀ d ∈ plan.declarations, d ∈ ds := by
  cases h with
  | present before r r' after split first written trees =>
    rcases ht with rfl | ⟨ds, r₀, rfl, hds, hr⟩
    · have := congrArg List.length split
      rw [List.length_append] at this
      exact absurd this (Nat.ne_of_lt (Nat.add_pos_right _ (Nat.succ_pos _)))
    · have hsplit : [r₀] = before ++ r :: after := split
      rcases List.singleton_eq_append_iff.1 hsplit with ⟨rfl, hcons⟩ | ⟨-, hmore⟩
      · obtain ⟨rfl, rfl⟩ := List.cons.inj hcons
        cases hr with
        | intro built texts content =>
          obtain ⟨ds', hds', hr', hgiven⟩ := written.built hplan hds (.inl built.named)
            built.attributes texts content
          refine ⟨ds', r', Forest.ext_trees ?_, hds', hr', hgiven⟩
          rw [trees]
          rfl
      · cases hmore
  | absent r' none written trees =>
    rcases ht with rfl | ⟨ds, r₀, rfl, hds, hr⟩
    · have hempty : n.Declares [] := ⟨.nil, fun d hd => absurd hd List.not_mem_nil⟩
      obtain ⟨ds', hds', hr', hgiven⟩ := written.built hplan hempty
        (.inr (hplan.places plan.root List.mem_cons_self)) attributesBuilt_nil (Nat.zero_le 1) .nil
      refine ⟨ds', r', Forest.ext_trees ?_, hds', hr', hgiven⟩
      rw [trees]
      rfl
    · have := none r₀ List.mem_cons_self
      rw [hr.isElement] at this
      cases this

end

end MarkupFields
