import MarkupFields.Proofs.Writer.Lawful

/-
  Writing keeps a document lawful, whatever it was seeded with. Below the root a name that comes into
  the document is read in the scope of the place where it is put, which is the scope inside the root
  with what the elements on the way declare before it (`Scope.Nested`); the root itself may gain
  declarations, each for what the writer has its prefix bound to, so its scope only grows
  (`Declared.grows`). If the names of a plan can be read there, carrying it out leaves a lawful top
  level lawful (`WrittenTop.lawful`).
-/

namespace MarkupFields

open Text Scan

/-! ## Scopes inside a scope -/

namespace Scope

/-- The second scope is the first one with further declarations, of the given kind, before it. -/
def Nested (own : String × String → Prop) (s s' : Scope) : Prop :=
  ∃ ds, (∀ d ∈ ds, Bindable d ∧ own d) ∧ s' = ds ++ s

variable {own : String × String → Prop} {s s' s'' : Scope}

theorem Nested.refl (own : String × String → Prop) (s : Scope) : s.Nested own s :=
  ⟨[], fun _ hd => absurd hd List.not_mem_nil, rfl⟩

theorem Nested.trans (h : s.Nested own s') (h' : s'.Nested own s'') : s.Nested own s'' := by
  obtain ⟨ds, hds, rfl⟩ := h
  obtain ⟨ds', hds', rfl⟩ := h'
  refine ⟨ds' ++ ds, fun d hd => ?_, (List.append_assoc ..).symm⟩
  exact (List.mem_append.1 hd).elim (hds' d) (hds d)

theorem nested_inside {as : List Attribute}
    (h : ∀ d ∈ Attribute.declarations as, Bindable d ∧ own d) : s.Nested own (s.inside as) :=
  ⟨_, fun d hd => h d (List.mem_reverse.1 hd), rfl⟩

/-- A prefix that the further declarations declare as what it is, if at all, stays what it is. -/
theorem Nested.lookup (h : s.Nested own s') {p : String}
    (hp : ∀ u, own (p, u) → s.lookup p = some u) : s'.lookup p = s.lookup p := by
  obtain ⟨ds, hds, rfl⟩ := h
  rw [List.lookup_append]
  cases hown : ds.lookup p with
  | none => exact Option.none_or
  | some u => exact (hp u (hds _ (mem_of_lookup hown)).2).symm

/-- A prefix that stands for a namespace stands for one inside further declarations too. -/
theorem Nested.exists_resolve? (h : s.Nested own s') {p u : String} (hp : p ≠ "")
    (hu : s.resolve? p = some u) : ∃ u', s'.resolve? p = some u' := by
  obtain ⟨ds, hds, rfl⟩ := h
  unfold resolve? at hu ⊢
  rw [List.lookup_append]
  cases hown : ds.lookup p with
  | none => exact ⟨u, hu⟩
  | some v =>
    have hbindable := (hds _ (mem_of_lookup hown)).1
    obtain ⟨-, hne, -⟩ := hbindable.cases.resolve_left hp
    exact ⟨v, Option.filter_eq_some_iff.2 ⟨rfl, bne_iff_ne.2 hne⟩⟩

theorem inside_set (s : Scope) {a : Attribute} (ha : a.isDeclaration = false)
    (as : List Attribute) : s.inside (a.set as) = s.inside as := by
  unfold inside
  rw [Attribute.declarations_set ha]

end Scope

/-! ## Names that come into a document -/

/-- An element for the place can be read in the scope, in its namespace if it is to be exact. -/
structure Place.MeantIn (exact : Prop) (s : Scope) (p : Place) : Prop where
  qualified : p.name.isQualified = true
  ordinary : p.name.nsPrefix ≠ some "xmlns"
  named : ∃ uri, s.elementNamespace p.name = .ok uri ∧ (exact → p.namespaceUri = uri)

/-- The payload is a text that can be written, or a regular attribute that means what it should. -/
def Payload.MeantIn (s : Scope) : Payload → Prop
  | .text v => ∀ c ∈ v.toList, isXmlChar c = true
  | .attr a => a.isDeclaration = false ∧ a.MeantIn s

theorem Payload.MeantIn.regular {s : Scope} {payload : Payload} (h : payload.MeantIn s) :
    payload.Regular := by
  rintro a rfl
  exact h.1

/-- Everything below the tree declares pairs of the given kind only. -/
def Forest.DeclaresOnly (own : String × String → Prop) (f : Forest Node) : Prop :=
  ∀ n ∈ f.preorder, ∀ d ∈ Attribute.declarations n.content.attributes, own d

section
variable {exact : Prop} {own : String × String → Prop} {s : Scope}

theorem AttributesMeant.set {as : List Attribute} (h : AttributesMeant s as) {a : Attribute}
    (hr : a.isDeclaration = false) (ha : a.MeantIn s) : AttributesMeant s (a.set as) where
  each := by
    intro b hb
    rcases Attribute.mem_set hb with rfl | hb
    · exact ha
    · exact h.each b hb
  distinct := Attribute.nodup_keys_set hr h.distinct
  prefixes := by
    rw [← Attribute.prefixes_declarations, Attribute.declarations_set hr,
      Attribute.prefixes_declarations]
    exact h.prefixes

theorem Element.Opens.set {e : Element} {uri : Option String} (h : e.Opens s uri) {a : Attribute}
    (hr : a.isDeclaration = false) (ha : a.MeantIn (s.inside e.attributes)) :
    ({ e with attributes := a.set e.attributes } : Element).Opens s uri := by
  have hinside := s.inside_set hr e.attributes
  refine ⟨h.qualified, h.ordinary, ?_, ?_, ?_⟩
  · rw [Attribute.declarations_set hr]
    exact h.declarable
  · rw [hinside]
    exact h.attributes.set hr ha
  · rw [hinside]
    exact h.named

/-- An element without attributes opens where its place can be read. -/
theorem Place.MeantIn.opens {p : Place} (h : p.MeantIn exact s) :
    ∃ uri, Element.Opens s ⟨p.name, p.namespaceUri, []⟩ uri ∧ (exact → p.namespaceUri = uri) := by
  obtain ⟨uri, huri, hexact⟩ := h.named
  exact ⟨uri, ⟨h.qualified, h.ordinary, fun d hd => absurd hd List.not_mem_nil, .nil _, huri⟩,
    hexact⟩

theorem Place.lawful_fresh {p : Place} (h : p.MeantIn exact s) {next count : Nat} :
    ∀ t ∈ p.fresh next count, (Forest.single t).Lawful exact s := by
  intro t ht
  obtain ⟨k, -, rfl⟩ := List.mem_map.1 ht
  obtain ⟨uri, hopens, hexact⟩ := h.opens
  exact .element hopens hexact .nil .nil .nil

/-! ## Writing below the root -/

theorem NodeTree.Lawful.declarable {t : NodeTree} (h : NodeTree.Lawful exact s t) :
    ∀ d ∈ Attribute.declarations t.1.content.attributes, Scope.Bindable d := by
  cases h with
  | intro opens => exact opens.declarable

theorem Payload.Filled.lawful {payload : Payload} {t t' : NodeTree} {next next' : Nat}
    (h : payload.Filled t next t' next') (ht : NodeTree.Lawful exact s t)
    (hp : payload.MeantIn (s.inside t.1.content.attributes)) : NodeTree.Lawful exact s t' := by
  have hfree : ∀ old : Forest Node, ∀ u ∈ old.trees.filter fun u => !u.1.content.isCharacterData,
      u.1.content.isText = false := by
    intro old u hu
    have hdata := (List.mem_filter.1 hu).2
    rw [Bool.not_eq_true'] at hdata
    exact Forest.isText_of_not_characterData hdata
  cases h with
  | @emptied n old new next trees =>
    cases ht with
    | intro opens named separate content =>
      refine .intro opens named ?_ (Forest.lawful_iff_trees.2 fun u hu => ?_)
      · rw [trees]
        exact Forest.separate_of_noText (hfree old)
      · rw [trees] at hu
        exact Forest.lawful_iff_trees.1 content u (List.mem_filter.1 hu).1
  | @text v n old new next nonempty trees =>
    cases ht with
    | intro opens named separate content =>
      refine .intro opens named ?_ (Forest.lawful_iff_trees.2 fun u hu => ?_)
      · rw [trees]
        exact (Forest.separate_of_noText (hfree old)).append (.singleton _) (.inl (hfree old))
      · rw [trees, List.mem_append, List.mem_singleton] at hu
        rcases hu with hu | rfl
        · exact Forest.lawful_iff_trees.1 content u (List.mem_filter.1 hu).1
        · exact .leaf ⟨nonempty, hp⟩ .nil
  | @attr a k e below next =>
    cases ht with
    | intro opens named separate content =>
      refine .intro (opens.set hp.1 hp.2) named separate ?_
      rw [s.inside_set hp.1]
      exact content

/-- Writing into a lawful tree leaves it lawful, if the names of the places and the payload can be
read inside it and inside whatever its elements declare. -/
theorem WrittenBelow.lawful {payload : Payload} {places : List Place} {t t' : NodeTree}
    {next next' : Nat} (h : WrittenBelow payload places t next t' next')
    (ht : NodeTree.Lawful exact s t) (hown : t.2.DeclaresOnly own)
    (hplaces : ∀ p ∈ places, ∀ s', (s.inside t.1.content.attributes).Nested own s' →
      p.MeantIn exact s')
    (hpayload : ∀ s', (s.inside t.1.content.attributes).Nested own s' → payload.MeantIn s') :
    NodeTree.Lawful exact s t' := by
  induction h generalizing s with
  | here filled => exact filled.lawful ht (hpayload _ (.refl own _))
  | @step p places n old new before after t t' next count next' _ split _ trees ih =>
    cases ht with
    | @intro k e _ uri opens named separate content =>
      have hfresh : ∀ u ∈ p.fresh next count, u.1.content.isText = false := by
        intro u hu
        obtain ⟨i, -, rfl⟩ := List.mem_map.1 hu
        rfl
      have hall : ∀ u ∈ before ++ t :: after,
          (Forest.single u).Lawful exact (s.inside e.attributes) := by
        intro u hu
        rw [← split.split, List.mem_append] at hu
        rcases hu with hu | hu
        · exact Forest.lawful_iff_trees.1 content u hu
        · exact Place.lawful_fresh (hplaces p List.mem_cons_self _ (.refl own _)) u hu
      have hmiddle : t ∈ before ++ t :: after := List.mem_append_right _ List.mem_cons_self
      obtain ⟨e', he', -⟩ := Place.accepts_iff.1 split.passes
      have ht : NodeTree.Lawful exact (s.inside e.attributes) t :=
        (hall t hmiddle).tree (he' ▸ rfl)
      -- what is new has no declarations, and what is old is of the given kind
      have htown : (∀ d ∈ Attribute.declarations t.1.content.attributes, own d) ∧
          t.2.DeclaresOnly own := by
        rw [← split.split, List.mem_append] at hmiddle
        rcases hmiddle with hmem | hmem
        · exact ⟨hown t.1 (Forest.mem_preorder.2 ⟨t, hmem, .inl rfl⟩),
            fun m hm => hown m (Forest.mem_preorder.2 ⟨t, hmem, .inr hm⟩)⟩
        · obtain ⟨i, -, rfl⟩ := List.mem_map.1 hmem
          exact ⟨fun d hd => absurd hd List.not_mem_nil, fun m hm => absurd hm List.not_mem_nil⟩
      have hnested : (s.inside e.attributes).Nested own
          ((s.inside e.attributes).inside t.1.content.attributes) :=
        Scope.nested_inside fun d hd => ⟨ht.declarable d hd, htown.1 d hd⟩
      have ht' := ih ht htown.2
        (fun q hq s' hs' => hplaces q (List.mem_cons_of_mem p hq) s' (hnested.trans hs'))
        (fun s' hs' => hpayload s' (hnested.trans hs'))
      refine .intro opens named ?_ (Forest.lawful_iff_trees.2 fun u hu => ?_)
      · have hlevel := separate.append (Forest.separate_of_noText hfresh) (.inr hfresh)
        rw [split.split] at hlevel
        rw [trees]
        refine hlevel.replace ?_
        have hdata := fun {v : NodeTree} (hv : v.1.content.isElement = true) =>
          Forest.isText_of_not_characterData (Forest.isCharacterData_of_isElement hv)
        rw [hdata ht.isElement, hdata ht'.isElement]
      · rw [trees, List.mem_append, List.mem_cons] at hu
        rcases hu with hu | rfl | hu
        · exact hall u (List.mem_append_left _ hu)
        · exact ht'.single
        · exact hall u (List.mem_append_right _ (List.mem_cons_of_mem _ hu))

end

theorem Content.attributes_of_not_element {c : Content} (h : c.isElement = false) :
    c.attributes = [] := by
  cases c with
  | element e => cases h
  | _ => rfl

/-! ## The scope inside the root -/

/-- Every pair that is bound can be declared, and written. -/
def Namespaces.Bindable (n : Namespaces) : Prop :=
  ∀ b ∈ n.bindings, Scope.Bindable b ∧ ∀ c ∈ b.2.toList, isXmlChar c = true

/-- What the attributes declare is what the prefixes are bound to. -/
def Namespaces.Knows (n : Namespaces) (as : List Attribute) : Prop :=
  ∀ d ∈ Attribute.declarations as, n.uri? d.1 = some d.2

/-- The pair is bound, and it is not the one that is bound from the start. -/
structure Namespaces.Gives (n : Namespaces) (d : String × String) : Prop where
  meaning : n.uri? d.1 = some d.2
  ordinary : d.1 ≠ "xml"

section
variable {n : Namespaces}

theorem Namespaces.Gives.mem {d : String × String} (h : n.Gives d) : d ∈ n.bindings := by
  have hmeaning := h.meaning
  unfold Namespaces.uri? at hmeaning
  rw [if_neg h.ordinary] at hmeaning
  exact mem_of_lookup hmeaning

/-- In the scope inside the root a prefix is what it is bound to, if it is declared. -/
theorem Namespaces.Knows.lookup {as : List Attribute} (h : n.Knows as) (p : String) :
    (Scope.outermost.inside as).lookup p =
      if p ∈ as.filterMap Attribute.declares ∨ p = "xml" then n.uri? p else none := by
  rw [Scope.lookup_inside]
  cases hown : (Attribute.declarations as).reverse.lookup p with
  | some u =>
    have hmem := List.mem_reverse.1 (mem_of_lookup hown)
    have hdeclared : p ∈ as.filterMap Attribute.declares := by
      rw [← Attribute.prefixes_declarations]
      exact List.mem_map_of_mem hmem
    rw [if_pos (.inl hdeclared), h _ hmem]
    rfl
  | none =>
    have hfree : p ∉ as.filterMap Attribute.declares := by
      rw [← Attribute.prefixes_declarations]
      intro hm
      obtain ⟨d, hd, rfl⟩ := List.mem_map.1 hm
      have hne := List.lookup_eq_none_iff.1 hown d (List.mem_reverse.2 hd)
      rw [bne_iff_ne] at hne
      exact hne rfl
    rw [Option.none_or]
    by_cases hxml : p = "xml"
    · rw [if_pos (.inr hxml), hxml]
      rfl
    · rw [if_neg (not_or.2 ⟨hfree, hxml⟩)]
      unfold Scope.outermost
      rw [List.lookup_cons, beq_eq_false_iff_ne.2 hxml]
      rfl

variable {ds : List (String × String)} {e e' : Element}

/-- The prefixes that were declared before are declared afterwards. -/
theorem Declared.mem_prefixes (h : Declared ds e e') {p : String}
    (hp : p ∈ e.attributes.filterMap Attribute.declares) :
    p ∈ e'.attributes.filterMap Attribute.declares := by
  obtain ⟨new, -, hall⟩ := h.declarations
  rw [← Attribute.prefixes_declarations] at hp ⊢
  rw [hall, List.map_append]
  exact List.mem_append_left _ hp

/-- A prefix that is declared afterwards was declared before, or is one of the given. -/
theorem Declared.mem_or_mem (h : Declared ds e e') {p : String}
    (hp : p ∈ e'.attributes.filterMap Attribute.declares) :
    p ∈ e.attributes.filterMap Attribute.declares ∨ p ∈ ds.map Prod.fst := by
  obtain ⟨new, hnew, hall⟩ := h.declarations
  rw [← Attribute.prefixes_declarations] at hp ⊢
  rw [hall, List.map_append, List.mem_append] at hp
  exact hp.imp_right fun hm => (hnew.map Prod.fst).subset hm

section
variable (hds : ∀ d ∈ ds, n.Gives d) (h : Declared ds e e')
include hds h

theorem Declared.knows (hk : n.Knows e.attributes) : n.Knows e'.attributes := by
  obtain ⟨new, hnew, hall⟩ := h.declarations
  intro d hd
  rw [hall, List.mem_append] at hd
  rcases hd with hd | hd
  · exact hk d hd
  · exact (hds d (hnew.subset hd)).meaning

/-- The scope inside the root only grows. -/
theorem Declared.grows (hk : n.Knows e.attributes) :
    (Scope.outermost.inside e.attributes).Grows (Scope.outermost.inside e'.attributes) := by
  intro p u hu
  rw [hk.lookup] at hu
  rw [(h.knows hds hk).lookup]
  split at hu
  · rename_i hp
    rw [if_pos (hp.imp_left h.mem_prefixes)]
    exact hu
  · cases hu

/-- The default namespace inside the root stays as it is unless one is newly declared. -/
theorem Declared.lookup_default (hk : n.Knows e.attributes)
    (hd : "" ∈ ds.map Prod.fst → "" ∈ e.attributes.filterMap Attribute.declares) :
    (Scope.outermost.inside e'.attributes).lookup "" =
      (Scope.outermost.inside e.attributes).lookup "" := by
  have hiff : "" ∈ e'.attributes.filterMap Attribute.declares ↔
      "" ∈ e.attributes.filterMap Attribute.declares :=
    ⟨fun hm => (h.mem_or_mem hm).elim id hd, h.mem_prefixes⟩
  rw [(h.knows hds hk).lookup, hk.lookup]
  simp only [hiff]

/-- What is given is declared inside the root. -/
theorem Declared.lookup_given (hk : n.Knows e.attributes) :
    ∀ d ∈ ds, (Scope.outermost.inside e'.attributes).lookup d.1 = some d.2 := by
  intro d hd
  have hdeclared := h.known d hd
  rw [Attribute.prefixes_declarations] at hdeclared
  rw [(h.knows hds hk).lookup, if_pos (.inl hdeclared)]
  exact (hds d hd).meaning

theorem Declared.declarable (hn : n.Bindable)
    (ha : ∀ d ∈ Attribute.declarations e.attributes, Scope.Bindable d) :
    ∀ d ∈ Attribute.declarations e'.attributes, Scope.Bindable d := by
  obtain ⟨new, hnew, hall⟩ := h.declarations
  intro d hd
  rw [hall, List.mem_append] at hd
  rcases hd with hd | hd
  · exact ha d hd
  · exact (hn d (hds d (hnew.subset hd)).mem).1

theorem Declared.meant (hn : n.Bindable) (hk : n.Knows e.attributes)
    (ha : AttributesMeant (Scope.outermost.inside e.attributes) e.attributes) :
    AttributesMeant (Scope.outermost.inside e'.attributes) e'.attributes where
  each := by
    intro a hmem
    rcases h.origin a hmem with hmem | ⟨d, hd, rfl⟩
    · exact (ha.grow (h.grows hds hk)).each a hmem
    · obtain ⟨hbindable, hchars⟩ := hn d (hds d hd).mem
      exact Attribute.meantIn_declaration _ (hbindable.cases.imp_right fun hc => hc.1) hchars
  distinct := by
    unfold Attribute.keys
    rw [h.regular]
    exact ha.distinct
  prefixes := by
    rw [← Attribute.prefixes_declarations]
    refine h.once ?_
    rw [Attribute.prefixes_declarations]
    exact ha.prefixes

end

/-! ## The top level -/

/-- What the root scope has to give the names of a plan: the prefixes that are declared for them, the
prefix that is bound from the start, and no default namespace unless one is bound. -/
structure Scope.Provides (n : Namespaces) (ds : List (String × String)) (s : Scope) : Prop where
  given : ∀ d ∈ ds, s.lookup d.1 = some d.2
  xml : s.lookup "xml" = some xmlNamespace
  default : n.default? = none → s.lookup "" = none

theorem Declared.provides (hds : ∀ d ∈ ds, n.Gives d) (h : Declared ds e e')
    (hk : n.Knows e.attributes) :
    (Scope.outermost.inside e'.attributes).Provides n ds where
  given := h.lookup_given hds hk
  xml := by
    rw [(h.knows hds hk).lookup, if_pos (.inr rfl)]
    rfl
  default := by
    intro hnone
    rw [(h.knows hds hk).lookup]
    split
    · exact hnone
    · rfl

/-- The names of the plan can be read: that of the root in the scope, the others in all scopes inside
it too. -/
structure WritePlan.MeantIn (exact : Prop) (own : String × String → Prop) (s : Scope)
    (plan : WritePlan) : Prop where
  root : plan.root.MeantIn exact s
  places : ∀ p ∈ plan.places, ∀ s', s.Nested own s' → p.MeantIn exact s'
  payload : ∀ s', s.Nested own s' → plan.payload.MeantIn s'

/-- A lawful root element whose declarations are known. -/
structure NodeTree.LawfulRoot (exact : Prop) (n : Namespaces) (r : NodeTree) : Prop where
  lawful : NodeTree.Lawful exact Scope.outermost r
  knows : n.Knows r.1.content.attributes

variable {exact : Prop} {own : String × String → Prop} {plan : WritePlan}

/-- A plan that was carried out on a root element, lawful but perhaps for its name, leaves it lawful. -/
theorem WrittenRoot.lawful (hn : n.Bindable) (hds : ∀ d ∈ plan.declarations, n.Gives d)
    (hplan : ∀ s : Scope, s.Provides n plan.declarations → plan.MeantIn exact own s)
    {k next next' : Nat} {e : Element} {below : Forest Node} {r' : NodeTree}
    (h : WrittenRoot plan (⟨k, .element e⟩, below) next r' next')
    (hqualified : e.name.isQualified = true) (hordinary : e.name.nsPrefix ≠ some "xmlns")
    (hk : n.Knows e.attributes)
    (hbindable : ∀ d ∈ Attribute.declarations e.attributes, Scope.Bindable d)
    (hmeant : AttributesMeant (Scope.outermost.inside e.attributes) e.attributes)
    (hown : below.DeclaresOnly own) (hseparate : Forest.Separate below.trees)
    (hafter : ∀ e', Declared plan.declarations e e' →
      (∃ uri, (Scope.outermost.inside e'.attributes).elementNamespace e.name = .ok uri ∧
        (exact → e.namespaceUri = uri)) ∧
      below.Lawful exact (Scope.outermost.inside e'.attributes)) :
    NodeTree.LawfulRoot exact n r' := by
  obtain ⟨k', e₁, e', hnode, hdeclared, hwritten⟩ := h
  rw [Node.mk.injEq, Content.element.injEq] at hnode
  obtain ⟨rfl, rfl⟩ := hnode
  obtain ⟨⟨uri, huri, hexact⟩, hcontent⟩ := hafter e' hdeclared
  have hopens : e'.Opens Scope.outermost uri := by
    refine ⟨?_, ?_, hdeclared.declarable hds hn hbindable, hdeclared.meant hds hn hk hmeant, ?_⟩
    · rw [hdeclared.name]
      exact hqualified
    · rw [hdeclared.name]
      exact hordinary
    · rw [hdeclared.name]
      exact huri
  have hnamed : exact → e'.namespaceUri = uri := fun hx => by
    rw [hdeclared.namespaceUri, hexact hx]
  have hmeanings := hplan _ (hdeclared.provides hds hk)
  have hlawful := hwritten.lawful (.intro hopens hnamed hseparate hcontent) hown
    hmeanings.places hmeanings.payload
  refine ⟨hlawful, fun d hd => ?_⟩
  rw [hwritten.declarations (hmeanings.payload _ (.refl own _)).regular] at hd
  exact hdeclared.knows hds hk d hd

/-- A comment or an instruction that can be written. -/
structure NodeTree.Miscellany (t : NodeTree) : Prop where
  kind : t.1.content.isMiscellany = true
  leaf : t.1.content.LegalLeaf
  below : t.2 = .nil

theorem NodeTree.Miscellany.isElement {t : NodeTree} (h : t.Miscellany) :
    t.1.content.isElement = false := by
  obtain ⟨⟨k, c⟩, below⟩ := t
  cases c with
  | element e => cases h.kind
  | _ => rfl

/-- The tree stands on the top level among comments and instructions. -/
structure Forest.RootAmong (top : Forest Node) (before : List NodeTree) (r : NodeTree)
    (after : List NodeTree) : Prop where
  split : top.trees = before ++ r :: after
  before : ∀ t ∈ before, t.Miscellany
  after : ∀ t ∈ after, t.Miscellany

theorem Forest.RootAmong.mem {top : Forest Node} {before after : List NodeTree} {r : NodeTree}
    (h : top.RootAmong before r after) : r ∈ top.trees := by
  rw [h.split]
  exact List.mem_append_right _ List.mem_cons_self

/-- There is no element on the top level but the root. -/
theorem Forest.RootAmong.eq_of_isElement {top : Forest Node} {before after : List NodeTree}
    {r t : NodeTree} (h : top.RootAmong before r after) (ht : t ∈ top.trees)
    (he : t.1.content.isElement = true) : t = r := by
  have hnot : ∀ u : NodeTree, u.Miscellany → u ≠ t := by
    rintro u hu rfl
    rw [hu.isElement] at he
    cases he
  rw [h.split, List.mem_append, List.mem_cons] at ht
  rcases ht with ht | ht | ht
  · exact absurd rfl (hnot t (h.before t ht))
  · exact ht
  · exact absurd rfl (hnot t (h.after t ht))

/-- The root stands at the first position of an element. -/
theorem Forest.RootAmong.at {top : Forest Node} {before after : List NodeTree} {r : NodeTree}
    (h : top.RootAmong before r after) (hr : r.1.content.isElement = true) :
    Forest.At (fun n : Node => n.content.isElement) 1 top.trees before r after := by
  refine ⟨h.split, hr, ?_⟩
  rw [(Forest.rootCount_eq_zero _ _).2 fun t ht => (h.before t ht).isElement]

/-- What a node of the top level declares, the root declares. -/
theorem Forest.RootAmong.mem_declares {top : Forest Node} {before after : List NodeTree}
    {r t : NodeTree} (h : top.RootAmong before r after) (ht : t ∈ top.trees) {x : String}
    (hx : x ∈ t.1.content.attributes.filterMap Attribute.declares) :
    x ∈ r.1.content.attributes.filterMap Attribute.declares := by
  have helement : t.1.content.isElement = true := by
    rw [← Bool.not_eq_false]
    intro hnone
    rw [Content.attributes_of_not_element hnone] at hx
    cases hx
  exact h.eq_of_isElement ht helement ▸ hx

/-- A plan that is carried out where there is a root element is carried out on that. -/
theorem WrittenTop.of_rootAmong {top top' : Forest Node} {next next' : Nat}
    (h : WrittenTop plan top next top' next') {before after : List NodeTree} {r : NodeTree}
    (hamong : top.RootAmong before r after) (hr : r.1.content.isElement = true) :
    ∃ r', WrittenRoot plan r next r' next' ∧ top'.trees = before ++ r' :: after := by
  cases h with
  | present before₁ r₁ r' after₁ split first written trees =>
    have hat : Forest.At (fun m : Node => m.content.isElement) 1 top.trees before₁ r₁ after₁ := by
      refine ⟨split, ?_, ?_⟩
      · obtain ⟨k, e, -, hnode, -⟩ := written
        rw [hnode]
        rfl
      · rw [(Forest.rootCount_eq_zero _ _).2 first]
    obtain ⟨rfl, rfl, rfl⟩ := (hamong.at hr).unique hat
    exact ⟨r', written, trees⟩
  | absent r' none _ _ =>
    have helement := none r hamong.mem
    rw [hr] at helement
    cases helement

/-- The top level is empty, or has a lawful root element that the bindings know. -/
def Forest.LawfulTop (exact : Prop) (n : Namespaces) (top : Forest Node) : Prop :=
  top = .nil ∨ ∃ before r after, top.RootAmong before r after ∧ r.LawfulRoot exact n

/-- A plan that was carried out on a new root element makes it lawful. -/
theorem WrittenRoot.lawful_added (hn : n.Bindable) (hds : ∀ d ∈ plan.declarations, n.Gives d)
    (hplan : ∀ s : Scope, s.Provides n plan.declarations → plan.MeantIn exact own s)
    {k next next' : Nat} {r' : NodeTree}
    (h : WrittenRoot plan (⟨k, plan.root.element⟩, .nil) next r' next') :
    NodeTree.LawfulRoot exact n r' := by
  have hnothing : n.Knows [] := fun d hd => absurd hd List.not_mem_nil
  have hroot : ∀ e', Declared plan.declarations ⟨plan.root.name, plan.root.namespaceUri, []⟩ e' →
      plan.root.MeantIn exact (Scope.outermost.inside e'.attributes) := fun e' hdeclared =>
    (hplan _ (hdeclared.provides hds hnothing)).root
  obtain ⟨k', e, e', hnode, hdeclared, -⟩ := id h
  rw [Node.mk.injEq, Place.element, Content.element.injEq] at hnode
  obtain ⟨-, rfl⟩ := hnode
  have hplace := hroot e' hdeclared
  exact h.lawful hn hds hplan hplace.qualified hplace.ordinary hnothing
    (fun d hd => absurd hd List.not_mem_nil) (.nil _) (fun m hm => absurd hm List.not_mem_nil)
    .nil fun e' hdeclared => ⟨(hroot e' hdeclared).named, .nil⟩

/-- A plan that was carried out on a lawful root element leaves it lawful; exactly so if a default
namespace is newly declared only where no element depends on there being none. -/
theorem WrittenRoot.lawful_kept (hn : n.Bindable) (hds : ∀ d ∈ plan.declarations, n.Gives d)
    (hplan : ∀ s : Scope, s.Provides n plan.declarations → plan.MeantIn exact own s)
    {next next' : Nat} {r r' : NodeTree} (h : WrittenRoot plan r next r' next')
    (hr : r.LawfulRoot exact n) (hown : r.2.DeclaresOnly own)
    (hdefault : exact → "" ∈ plan.declarations.map Prod.fst →
      "" ∈ r.1.content.attributes.filterMap Attribute.declares ∨
        ∀ m, m = r.1 ∨ m ∈ r.2.preorder → ¬ m.content.Bare) :
    NodeTree.LawfulRoot exact n r' := by
  obtain ⟨hlawful, hknows⟩ := hr
  cases hlawful with
  | @intro k e below uri opens named separate content =>
    refine h.lawful hn hds hplan opens.qualified opens.ordinary hknows opens.declarable
      opens.attributes hown separate fun e' hdeclared => ?_
    have hgrows := hdeclared.grows hds hknows
    -- the default inside the root stays, or no element depends on there being none
    have hsame : exact → (Scope.outermost.inside e'.attributes).lookup "" =
        (Scope.outermost.inside e.attributes).lookup "" ∨
          ∀ m, m = ⟨k, .element e⟩ ∨ m ∈ below.preorder → ¬ m.content.Bare := by
      intro hx
      by_cases hbare : ∀ m, m = ⟨k, .element e⟩ ∨ m ∈ below.preorder → ¬ m.content.Bare
      · exact .inr hbare
      · exact .inl (hdeclared.lookup_default hds hknows fun hm =>
          (hdefault hx hm).resolve_right hbare)
    obtain ⟨uri', huri', hexact⟩ := hgrows.elementNamespace opens.named
    refine ⟨⟨uri', huri', fun hx => ?_⟩, content.grow hgrows fun hx => ?_⟩
    · rw [named hx]
      refine (hexact ?_).symm
      rcases hsame hx with hd | hbare
      · exact .inr hd
      · exact .inl (Element.ne_none_of_not_bare opens.named (named hx) (hbare _ (.inl rfl)))
    · exact (hsame hx).imp_right fun hbare m hm => hbare m (.inr hm)

/-- A plan that was carried out on a lawful top level leaves it lawful, if its names can be read where
they are put; exactly so if it does not declare a default namespace for elements without a prefix and
a namespace. -/
theorem WrittenTop.lawful (hn : n.Bindable) (hds : ∀ d ∈ plan.declarations, n.Gives d)
    (hplan : ∀ s : Scope, s.Provides n plan.declarations → plan.MeantIn exact own s)
    {top top' : Forest Node} {next next' : Nat} (h : WrittenTop plan top next top' next')
    (ht : top.LawfulTop exact n) (hown : ∀ t ∈ top.trees, t.2.DeclaresOnly own)
    (hdefault : exact → "" ∈ plan.declarations.map Prod.fst →
      (∃ t ∈ top.trees, "" ∈ t.1.content.attributes.filterMap Attribute.declares) ∨
        ∀ m ∈ top.preorder, ¬ m.content.Bare) :
    ∃ before r after, top'.RootAmong before r after ∧ r.LawfulRoot exact n := by
  rcases ht with rfl | ⟨before, r, after, hamong, hr⟩
  · cases h with
    | present before r r' after split => cases before <;> cases split
    | absent r' none written trees =>
      exact ⟨[], r', [], ⟨trees, fun t ht => absurd ht List.not_mem_nil,
        fun t ht => absurd ht List.not_mem_nil⟩, written.lawful_added hn hds hplan⟩
  · obtain ⟨r', written, trees⟩ := h.of_rootAmong hamong hr.lawful.isElement
    refine ⟨before, r', after, ⟨trees, hamong.before, hamong.after⟩,
      written.lawful_kept hn hds hplan hr (hown r hamong.mem) fun hx hm => ?_⟩
    refine (hdefault hx hm).imp ?_ fun hbare m hm => ?_
    · rintro ⟨t, ht, hd⟩
      exact hamong.mem_declares ht hd
    · exact hbare m (Forest.mem_preorder.2 ⟨r, hamong.mem, hm⟩)

end

end MarkupFields
