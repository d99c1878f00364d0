import MarkupFields.Proofs.Markup.Legal
import MarkupFields.Proofs.Markup.Scopes
import MarkupFields.Proofs.Tree.Attributes

/-
  What start tags mean in a scope, and what becomes of it as the scope changes. The declarations of a
  start tag are put before the scope (`Scope.inside`); its attributes mean what they should if each
  has the namespace of its prefix there and no two have a key or a declared prefix in common
  (`AttributesMeant`). That is all that reading asks of them (`Element.opens_of_legal`,
  `Element.Opens.legal`), and it is kept in every scope that knows no less (`Scope.Grows`).
-/

namespace MarkupFields

open Text Scan

/-! ## Lookups -/

theorem lookup_of_mem {l : List (String × String)} (hl : (l.map Prod.fst).Nodup)
    {d : String × String} (hd : d ∈ l) : l.lookup d.1 = some d.2 := by
  induction l with
  | nil => exact absurd hd List.not_mem_nil
  | cons c l ih =>
    rw [List.map_cons, List.nodup_cons] at hl
    rcases List.mem_cons.1 hd with rfl | hd
    · rw [List.lookup_cons_self]
    · have hne : (d.1 == c.1) = false := by
        rw [beq_eq_false_iff_ne]
        intro he
        exact hl.1 (he ▸ List.mem_map_of_mem hd)
      rw [List.lookup_cons, hne]
      exact ih hl.2 hd

theorem mem_of_lookup {l : List (String × String)} {k v : String} (h : l.lookup k = some v) :
    (k, v) ∈ l := by
  obtain ⟨l₁, l₂, rfl, -⟩ := List.lookup_eq_some_iff.1 h
  exact List.mem_append_right _ List.mem_cons_self

/-! ## Declarations in a scope -/

namespace Scope

/-- The pair can be declared, in any scope. -/
def Bindable (d : String × String) : Prop :=
  ∀ s : Scope, s.bind d.1 d.2 = .ok (d :: s)

/-- Whether a pair can be declared does not depend on the scope. -/
theorem bindable_of_bind {s s' : Scope} {d : String × String} (h : s.bind d.1 d.2 = .ok s') :
    Bindable d ∧ s' = d :: s := by
  unfold Bindable
  unfold bind at h ⊢
  by_cases hp : d.1 = ""
  · rw [if_pos hp] at h
    by_cases hr : d.2 = xmlNamespace ∨ d.2 = xmlnsNamespace
    · rw [if_pos hr] at h
      cases h
    · rw [if_neg hr, Except.ok.injEq] at h
      exact ⟨fun s => by rw [if_pos hp, if_neg hr], h.symm⟩
  · rw [if_neg hp] at h
    split at h
    · cases h
    · rename_i hname
      split at h
      · cases h
      · rename_i hempty
        split at h
        · cases h
        · rename_i hreserved
          split at h
          · cases h
          · rename_i hxml
            rw [Except.ok.injEq] at h
            refine ⟨fun s => ?_, h.symm⟩
            rw [if_neg hp, if_neg hname, if_neg hempty, if_neg hreserved, if_neg hxml]

/-- Declarations are put before the scope, the last one first. -/
theorem bindAll_eq_ok {s s' : Scope} {ds : List (String × String)} :
    s.bindAll ds = .ok s' ↔ (∀ d ∈ ds, Bindable d) ∧ s' = ds.reverse ++ s := by
  induction ds generalizing s with
  | nil =>
    rw [bindAll, Except.ok.injEq]
    exact ⟨fun h => ⟨fun d hd => absurd hd List.not_mem_nil, h.symm⟩, fun h => h.2.symm⟩
  | cons d ds ih =>
    rw [bindAll, bind_eq_ok, List.reverse_cons, List.append_assoc, List.singleton_append,
      List.forall_mem_cons]
    constructor
    · rintro ⟨s₁, hs₁, h⟩
      obtain ⟨hd, rfl⟩ := bindable_of_bind hs₁
      obtain ⟨hds, rfl⟩ := ih.1 h
      exact ⟨⟨hd, hds⟩, rfl⟩
    · rintro ⟨⟨hd, hds⟩, rfl⟩
      exact ⟨d :: s, hd s, ih.2 ⟨hds, rfl⟩⟩

/-- What is asked of a pair that can be declared. -/
theorem Bindable.cases {d : String × String} (h : Bindable d) :
    d.1 = "" ∨ (isNCName d.1 = true ∧ d.2 ≠ "" ∧ d.1 ≠ "xmlns" ∧
      (d.1 = "xml" → d.2 = xmlNamespace)) := by
  have hbind := h []
  unfold bind at hbind
  by_cases hp : d.1 = ""
  · exact .inl hp
  · rw [if_neg hp] at hbind
    split at hbind
    · cases hbind
    · rename_i hname
      split at hbind
      · cases hbind
      · rename_i hempty
        split at hbind
        · cases hbind
        · rename_i hreserved
          split at hbind
          · cases hbind
          · rename_i hxml
            rw [Bool.not_eq_true', Bool.not_eq_false] at hname
            refine .inr ⟨hname, hempty, fun he => hreserved (.inl he), fun he => ?_⟩
            exact (not_not.1 hxml).mp he

end Scope

/-- A binding as it is given: an ordinary prefix, or none, and a namespace that can be written and is
not reserved. -/
structure OrdinaryBinding (d : String × String) : Prop where
  named : d.1 = "" ∨ isNCName d.1 = true
  ordinary : d.1 ≠ "xml" ∧ d.1 ≠ "xmlns"
  nonempty : d.2 ≠ ""
  characters : ∀ c ∈ d.2.toList, isXmlChar c = true
  unreserved : d.2 ≠ xmlNamespace ∧ d.2 ≠ xmlnsNamespace

instance (d : String × String) : Decidable (OrdinaryBinding d) :=
  decidable_of_iff ((d.1 = "" ∨ isNCName d.1 = true) ∧ (d.1 ≠ "xml" ∧ d.1 ≠ "xmlns") ∧ d.2 ≠ "" ∧
      d.2.toList.all isXmlChar = true ∧ d.2 ≠ xmlNamespace ∧ d.2 ≠ xmlnsNamespace)
    ⟨fun h => ⟨h.1, h.2.1, h.2.2.1, List.all_eq_true.1 h.2.2.2.1, h.2.2.2.2⟩,
      fun h => ⟨h.named, h.ordinary, h.nonempty, List.all_eq_true.2 h.characters, h.unreserved⟩⟩

theorem OrdinaryBinding.bindable {d : String × String} (h : OrdinaryBinding d) :
    Scope.Bindable d := by
  intro s
  unfold Scope.bind
  by_cases hp : d.1 = ""
  · rw [if_pos hp, if_neg (not_or.2 h.unreserved)]
  · have hboth : ¬ ((d.1 = "xml") ≠ (d.2 = xmlNamespace)) := by
      intro hdiff
      refine hdiff (propext ⟨fun hd => absurd hd h.ordinary.1, fun hd => ?_⟩)
      exact absurd hd h.unreserved.1
    rw [if_neg hp, h.named.resolve_left hp, Bool.not_true, if_neg Bool.false_ne_true,
      if_neg h.nonempty, if_neg (not_or.2 ⟨h.ordinary.2, h.unreserved.2⟩), if_neg hboth]

namespace Scope

/-- The scope inside a start tag with the attributes. -/
def inside (s : Scope) (as : List Attribute) : Scope :=
  (Attribute.declarations as).reverse ++ s

theorem lookup_inside (s : Scope) (as : List Attribute) (p : String) :
    (s.inside as).lookup p = ((Attribute.declarations as).reverse.lookup p).or (s.lookup p) :=
  List.lookup_append

/-! ## Growing scopes -/

/-- What a prefix is declared as in the one scope, it is declared as in the other. -/
def Grows (s s' : Scope) : Prop :=
  ∀ p u, s.lookup p = some u → s'.lookup p = some u

variable {s s' : Scope}

theorem Grows.inside (h : s.Grows s') (as : List Attribute) :
    (s.inside as).Grows (s'.inside as) := by
  intro p u hu
  rw [lookup_inside] at hu ⊢
  cases hown : (Attribute.declarations as).reverse.lookup p with
  | some v =>
    rw [hown] at hu
    exact hu
  | none =>
    rw [hown] at hu
    exact h p u hu

theorem Grows.resolve? (h : s.Grows s') {p u : String} (hu : s.resolve? p = some u) :
    s'.resolve? p = some u := by
  obtain ⟨hlookup, hne⟩ := Option.filter_eq_some_iff.1 hu
  exact Option.filter_eq_some_iff.2 ⟨h p u hlookup, hne⟩

theorem require_eq_ok {p u : String} : s.require p = .ok u ↔ s.resolve? p = some u := by
  unfold require
  cases s.resolve? p with
  | none => exact ⟨nofun, nofun⟩
  | some v => rw [Except.ok.injEq, Option.some.injEq]

theorem map_require_eq_ok {p : String} {uri : Option String} :
    (s.require p).map some = .ok uri ↔ ∃ u, s.resolve? p = some u ∧ uri = some u := by
  constructor
  · intro h
    cases hp : s.require p with
    | error e =>
      rw [hp] at h
      cases h
    | ok u =>
      rw [hp] at h
      exact ⟨u, require_eq_ok.1 hp, (Except.ok.inj h).symm⟩
  · rintro ⟨u, hu, rfl⟩
    rw [require_eq_ok.2 hu]
    rfl

/-- An attribute name is in the namespace of its prefix, or in none. -/
theorem attributeNamespace_eq_ok {q : QName} {uri : Option String} :
    s.attributeNamespace q = .ok uri ↔
      ((q.nsPrefix = none ∨ q.nsPrefix = some "xmlns") ∧ uri = none) ∨
        ∃ p u, q.nsPrefix = some p ∧ p ≠ "xmlns" ∧ s.resolve? p = some u ∧ uri = some u := by
  unfold attributeNamespace
  cases hp : q.nsPrefix with
  | none =>
    rw [Except.ok.injEq]
    constructor
    · intro h
      exact .inl ⟨.inl rfl, h.symm⟩
    · rintro (⟨-, rfl⟩ | ⟨p, u, he, -⟩)
      · rfl
      · cases he
  | some p =>
    dsimp only
    by_cases hx : p = "xmlns"
    · rw [if_pos hx, Except.ok.injEq]
      constructor
      · intro h
        exact .inl ⟨.inr (congrArg some hx), h.symm⟩
      · rintro (⟨-, rfl⟩ | ⟨p', u, he, hne, -⟩)
        · rfl
        · exact absurd ((Option.some.inj he).symm.trans hx) hne
    · rw [if_neg hx, map_require_eq_ok]
      constructor
      · rintro ⟨u, hu, rfl⟩
        exact .inr ⟨p, u, rfl, hx, hu, rfl⟩
      · rintro (⟨he | he, -⟩ | ⟨p', u, he, -, hu, rfl⟩)
        · cases he
        · exact absurd (Option.some.inj he) hx
        · rw [Option.some.inj he]
          exact ⟨u, hu, rfl⟩

/-- An element name is in the namespace of its prefix, or in the default namespace. -/
theorem elementNamespace_eq_ok {q : QName} {uri : Option String} :
    s.elementNamespace q = .ok uri ↔
      (q.nsPrefix = none ∧ uri = s.resolve? "") ∨
        ∃ p u, q.nsPrefix = some p ∧ s.resolve? p = some u ∧ uri = some u := by
  unfold elementNamespace
  cases hp : q.nsPrefix with
  | none =>
    rw [Except.ok.injEq]
    constructor
    · intro h
      exact .inl ⟨rfl, h.symm⟩
    · rintro (⟨-, rfl⟩ | ⟨p, u, he, -⟩)
      · rfl
      · cases he
  | some p =>
    dsimp only
    rw [map_require_eq_ok]
    constructor
    · rintro ⟨u, hu, rfl⟩
      exact .inr ⟨p, u, rfl, hu, rfl⟩
    · rintro (⟨he, -⟩ | ⟨p', u, he, hu, rfl⟩)
      · cases he
      · rw [Option.some.inj he]
        exact ⟨u, hu, rfl⟩

theorem Grows.attributeNamespace (h : s.Grows s') {q : QName} {uri : Option String}
    (hq : s.attributeNamespace q = .ok uri) : s'.attributeNamespace q = .ok uri := by
  rw [attributeNamespace_eq_ok] at hq ⊢
  rcases hq with hq | ⟨p, u, hp, hx, hu, huri⟩
  · exact .inl hq
  · exact .inr ⟨p, u, hp, hx, h.resolve? hu, huri⟩

/-- An element name that can be read can still be read; its namespace is another one only if it had
none and there is another default now. -/
theorem Grows.elementNamespace (h : s.Grows s') {q : QName} {uri : Option String}
    (hq : s.elementNamespace q = .ok uri) :
    ∃ uri', s'.elementNamespace q = .ok uri' ∧
      (uri ≠ none ∨ s'.lookup "" = s.lookup "" → uri' = uri) := by
  rcases elementNamespace_eq_ok.1 hq with ⟨hp, hu⟩ | ⟨p, u, hp, hu, rfl⟩
  · refine ⟨_, elementNamespace_eq_ok.2 (.inl ⟨hp, rfl⟩), ?_⟩
    rintro (hsome | hsame)
    · obtain ⟨u, rfl⟩ := Option.ne_none_iff_exists'.1 hsome
      exact h.resolve? hu.symm
    · rw [hu]
      unfold Scope.resolve?
      rw [hsame]
  · exact ⟨_, elementNamespace_eq_ok.2 (.inr ⟨p, u, hp, h.resolve? hu, rfl⟩), fun _ => rfl⟩

/-- No element is in an empty namespace. -/
theorem elementNamespace_ne_empty {q : QName} {uri : Option String}
    (h : s.elementNamespace q = .ok uri) : uri ≠ some "" := by
  have hne : ∀ p, s.resolve? p ≠ some "" := by
    intro p hp
    have hu := (Option.filter_eq_some_iff.1 hp).2
    exact absurd rfl (bne_iff_ne.1 hu)
  rcases elementNamespace_eq_ok.1 h with ⟨-, rfl⟩ | ⟨p, u, -, hu, rfl⟩
  · exact hne ""
  · rw [← hu]
    exact hne p

end Scope

/-! ## Attributes -/

/-- The attribute can be written, and its name has its namespace in the scope. -/
structure Attribute.MeantIn (s : Scope) (a : Attribute) : Prop where
  qualified : a.name.isQualified = true
  value : ∀ c ∈ a.value.toList, isXmlChar c = true
  named : s.attributeNamespace a.name = .ok a.namespaceUri

theorem Attribute.MeantIn.writable {s : Scope} {a : Attribute} (h : a.MeantIn s) :
    a.Writable true :=
  ⟨QName.writable_of_isQualified h.qualified, h.value, fun _ => h.qualified⟩

theorem isNCName_xmlns : isNCName "xmlns" = true := by decide

/-- A declaration means what it should in any scope. -/
theorem Attribute.meantIn_declaration (s : Scope) {d : String × String}
    (hp : d.1 = "" ∨ isNCName d.1 = true) (hv : ∀ c ∈ d.2.toList, isXmlChar c = true) :
    (declaration d.1 d.2).MeantIn s := by
  unfold declaration
  by_cases hempty : d.1 = ""
  · rw [if_pos hempty]
    refine ⟨?_, hv, rfl⟩
    simp only [QName.isQualified, Option.all_none, isNCName_xmlns, Bool.and_self]
  · rw [if_neg hempty]
    refine ⟨?_, hv, rfl⟩
    simp only [QName.isQualified, Option.all_some, isNCName_xmlns, hp.resolve_left hempty,
      Bool.and_self]

/-- Each attribute means what it should, and no two have a key or a declared prefix in common. -/
structure AttributesMeant (s : Scope) (as : List Attribute) : Prop where
  each : ∀ a ∈ as, a.MeantIn s
  distinct : (Attribute.keys as).Nodup
  prefixes : (as.filterMap Attribute.declares).Nodup

theorem AttributesMeant.nil (s : Scope) : AttributesMeant s [] :=
  ⟨fun _ ha => absurd ha List.not_mem_nil, .nil, .nil⟩

theorem AttributesMeant.grow {s s' : Scope} {as : List Attribute} (h : AttributesMeant s as)
    (hs : s.Grows s') : AttributesMeant s' as :=
  ⟨fun a ha => ⟨(h.each a ha).qualified, (h.each a ha).value,
    hs.attributeNamespace (h.each a ha).named⟩, h.distinct, h.prefixes⟩

namespace Attribute

/-- The name of a declaration is made from the prefix that it declares. -/
theorem name_of_declares {a : Attribute} {p : String} (hq : a.name.isQualified = true)
    (h : a.declares = some p) : a.name = (declaration p "").name := by
  obtain ⟨⟨nsPrefix, localName⟩, uri, value⟩ := a
  unfold declares at h
  cases nsPrefix with
  | none =>
    dsimp only at h
    split at h
    · rename_i hl
      rw [← Option.some.inj h, hl]
      rfl
    · cases h
  | some x =>
    dsimp only at h
    split at h
    · rename_i hx
      have hne : localName ≠ "" := by
        rintro rfl
        unfold QName.isQualified at hq
        rw [Bool.and_eq_true] at hq
        cases hq.2
      rw [← Option.some.inj h, declaration, if_neg hne, hx]
    · cases h

theorem declares_of_name {a b : Attribute} (h : a.name = b.name) : a.declares = b.declares := by
  unfold declares
  rw [h]

/-- A regular attribute name without the prefix of declarations. -/
theorem nsPrefix_ne_of_regular {a : Attribute} (h : a.isDeclaration = false) :
    a.name.nsPrefix ≠ some "xmlns" := by
  intro hp
  unfold isDeclaration declares at h
  rw [hp] at h
  cases h

theorem isDeclaration_eq_false_iff {a : Attribute} :
    a.isDeclaration = false ↔ a.declares = none := by
  unfold isDeclaration
  rw [Option.isSome_eq_false_iff, Option.isNone_iff_eq_none]

/-- Both attributes are in a namespace, the same one, and have the same local name. -/
def SameExpanded (a b : Attribute) : Prop :=
  a.namespaceUri ≠ none ∧ a.namespaceUri = b.namespaceUri ∧ a.name.localName = b.name.localName

/-- A declaration is in no namespace. -/
theorem MeantIn.namespaceUri_of_declares {s : Scope} {a : Attribute} (h : a.MeantIn s)
    {p : String} (hd : a.declares = some p) : a.namespaceUri = none := by
  rcases Scope.attributeNamespace_eq_ok.1 h.named with ⟨-, huri⟩ | ⟨x, u, hx, hne, -⟩
  · exact huri
  · unfold declares at hd
    rw [hx] at hd
    dsimp only at hd
    rw [if_neg hne] at hd
    cases hd

/-- Regular attributes that mean what they should have one name if they have one key and neither is
in a namespace. -/
theorem MeantIn.name_eq {s : Scope} {a b : Attribute} (ha : a.MeantIn s) (hb : b.MeantIn s)
    (hra : a.isDeclaration = false) (hrb : b.isDeclaration = false) (hkey : a.key = b.key)
    (hnone : a.namespaceUri = none) : a.name = b.name := by
  have hbnone : b.namespaceUri = none := (congrArg Prod.snd hkey).symm.trans hnone
  have hplain : ∀ {c : Attribute}, c.MeantIn s → c.isDeclaration = false →
      c.namespaceUri = none → c.name.nsPrefix = none := by
    intro c hc hrc hcnone
    rcases Scope.attributeNamespace_eq_ok.1 hc.named with ⟨hp | hp, -⟩ | ⟨x, u, -, -, -, hu⟩
    · exact hp
    · exact absurd hp (nsPrefix_ne_of_regular hrc)
    · rw [hcnone] at hu
      cases hu
  have hlocal : a.name.localName = b.name.localName := congrArg Prod.fst hkey
  obtain ⟨⟨pa, la⟩, ua, va⟩ := a
  obtain ⟨⟨pb, lb⟩, ub, vb⟩ := b
  dsimp only at hlocal ⊢
  rw [show pa = none from hplain ha hra hnone, show pb = none from hplain hb hrb hbnone, hlocal]

end Attribute

section
variable {s : Scope} {as : List Attribute}

/-- Attributes none of which is repeated are distinct by namespace and local name. -/
theorem Scope.pairwise_of_repeated? {earlier as : List Attribute}
    (he : earlier.Pairwise fun a b => ¬ a.SameExpanded b)
    (h : Scope.repeated? earlier as = none) :
    (earlier ++ as).Pairwise fun a b => ¬ a.SameExpanded b := by
  induction as generalizing earlier with
  | nil => rwa [List.append_nil]
  | cons a as ih =>
    unfold Scope.repeated? at h
    split at h
    · cases h
    · rename_i hnew
      have hapart : ∀ b ∈ earlier, ¬ b.SameExpanded a := by
        rintro b hb ⟨hsome, huri, hlocal⟩
        refine hnew ?_
        rw [Bool.and_eq_true, Option.isSome_iff_ne_none, List.any_eq_true]
        refine ⟨huri ▸ hsome, b, hb, ?_⟩
        rw [Bool.and_eq_true, beq_iff_eq, beq_iff_eq]
        exact ⟨huri, hlocal⟩
      have hnext : (earlier ++ [a]).Pairwise fun a b => ¬ a.SameExpanded b := by
        rw [List.pairwise_append]
        refine ⟨he, List.pairwise_singleton _ a, fun b hb c hc => ?_⟩
        rw [List.mem_singleton.1 hc]
        exact hapart b hb
      have hrest := ih hnext h
      rwa [List.append_assoc] at hrest

/-- Attributes of which no two have namespace and local name in common are not repeated. -/
theorem Scope.repeated?_of_pairwise {earlier as : List Attribute}
    (h : (earlier ++ as).Pairwise fun a b => ¬ a.SameExpanded b) :
    Scope.repeated? earlier as = none := by
  induction as generalizing earlier with
  | nil => rfl
  | cons a as ih =>
    have hnot : ¬ ((a.namespaceUri.isSome && earlier.any fun b =>
        b.namespaceUri == a.namespaceUri && b.name.localName == a.name.localName) = true) := by
      intro hrep
      obtain ⟨hsome, hany⟩ := Bool.and_eq_true_iff.1 hrep
      obtain ⟨b, hb, hsame⟩ := List.any_eq_true.1 hany
      rw [Bool.and_eq_true, beq_iff_eq, beq_iff_eq] at hsame
      refine (List.pairwise_append.1 h).2.2 b hb a List.mem_cons_self ⟨?_, hsame⟩
      rw [hsame.1]
      exact Option.isSome_iff_ne_none.1 hsome
    unfold Scope.repeated?
    rw [if_neg hnot]
    refine ih ?_
    rw [List.append_assoc]
    exact h

/-- Attributes that mean what they should are distinct by namespace and local name. -/
theorem AttributesMeant.expanded (h : AttributesMeant s as) :
    as.Pairwise fun a b => ¬ a.SameExpanded b := by
  have hregular : ∀ a ∈ as, a.namespaceUri ≠ none → a.isDeclaration = false := by
    intro a ha hsome
    rw [Attribute.isDeclaration_eq_false_iff]
    cases hd : a.declares with
    | none => rfl
    | some p => exact absurd ((h.each a ha).namespaceUri_of_declares hd) hsome
  have hdistinct := h.distinct
  unfold Attribute.keys at hdistinct
  rw [List.nodup_iff_pairwise_ne, List.pairwise_map, List.pairwise_filter] at hdistinct
  refine hdistinct.imp_of_mem ?_
  rintro a b ha hb hne ⟨hsome, huri, hlocal⟩
  refine hne ?_ ?_ (Prod.ext hlocal huri)
  · rw [hregular a ha hsome]
    rfl
  · rw [hregular b hb (huri ▸ hsome)]
    rfl

/-- Attributes that mean what they should have distinct names: regular ones differ in their keys,
declarations in their prefixes. -/
theorem AttributesMeant.nodup_names (h : AttributesMeant s as) :
    (as.map Attribute.name).Nodup := by
  have hkeys := h.distinct
  have hprefixes := h.prefixes
  unfold Attribute.keys at hkeys
  rw [List.nodup_iff_pairwise_ne, List.pairwise_map, List.pairwise_filter] at hkeys
  rw [List.nodup_iff_pairwise_ne, List.pairwise_filterMap] at hprefixes
  rw [List.nodup_iff_pairwise_ne, List.pairwise_map]
  refine (hkeys.and hprefixes).imp_of_mem ?_
  rintro a b ha hb ⟨hkey, hprefix⟩ hname
  have hdeclares := Attribute.declares_of_name hname
  cases hd : a.declares with
  | some p => exact hprefix p hd p (hdeclares.symm.trans hd) rfl
  | none =>
    have hra := Attribute.isDeclaration_eq_false_iff.2 hd
    have hrb := Attribute.isDeclaration_eq_false_iff.2 (hdeclares.symm.trans hd)
    have huri := (h.each a ha).named
    rw [hname, (h.each b hb).named, Except.ok.injEq] at huri
    refine hkey ?_ ?_ (Prod.ext (congrArg QName.localName hname) huri.symm)
    · rw [hra]
      rfl
    · rw [hrb]
      rfl

/-- Attributes that mean what they should are read as they are from what is written of them. -/
theorem AttributesMeant.resolved (h : AttributesMeant s as) :
    s.resolveAttributes (as.map Attribute.asWritten) = .ok as := by
  rw [Scope.resolveAttributes_eq_ok, List.forall₂_map_left_iff, List.forall₂_same]
  exact fun a ha => ⟨a.namespaceUri, (h.each a ha).named, rfl⟩

/-- Attributes that were read as they are have their namespaces. -/
theorem Scope.attributeNamespace_of_resolved
    (h : s.resolveAttributes (as.map Attribute.asWritten) = .ok as) :
    ∀ a ∈ as, s.attributeNamespace a.name = .ok a.namespaceUri := by
  rw [Scope.resolveAttributes_eq_ok, List.forall₂_map_left_iff, List.forall₂_same] at h
  intro a ha
  obtain ⟨uri, huri, hsame⟩ := h a ha
  rw [congrArg Attribute.namespaceUri hsame]
  exact huri

theorem AttributesMeant.of_resolved (hw : ∀ a ∈ as, a.Writable true)
    (hnames : (as.map Attribute.name).Nodup)
    (h : s.resolveAttributes (as.map Attribute.asWritten) = .ok as)
    (hnew : Scope.repeated? [] as = none) : AttributesMeant s as := by
  have heach : ∀ a ∈ as, a.MeantIn s := fun a ha =>
    ⟨(hw a ha).qualified rfl, (hw a ha).value, Scope.attributeNamespace_of_resolved h a ha⟩
  have hexpanded : as.Pairwise fun a b => ¬ a.SameExpanded b :=
    Scope.pairwise_of_repeated? .nil hnew
  rw [List.nodup_iff_pairwise_ne, List.pairwise_map] at hnames
  refine ⟨heach, ?_, ?_⟩
  · unfold Attribute.keys
    rw [List.nodup_iff_pairwise_ne, List.pairwise_map, List.pairwise_filter]
    refine (hnames.and hexpanded).imp_of_mem ?_
    rintro a b ha hb ⟨hname, hne⟩ hra hrb hkey
    rw [Bool.not_eq_true'] at hra hrb
    by_cases hnone : a.namespaceUri = none
    · exact hname ((heach a ha).name_eq (heach b hb) hra hrb hkey hnone)
    · exact hne ⟨hnone, congrArg Prod.snd hkey, congrArg Prod.fst hkey⟩
  · rw [List.nodup_iff_pairwise_ne, List.pairwise_filterMap]
    refine hnames.imp_of_mem ?_
    rintro a b ha hb hname p hp q hq rfl
    refine hname ?_
    rw [Attribute.name_of_declares (heach a ha).qualified hp,
      Attribute.name_of_declares (heach b hb).qualified hq]

end

/-! ## Start tags -/

/-- The start tag can be written and read in the scope; the element is then in the namespace. -/
structure Element.Opens (s : Scope) (e : Element) (uri : Option String) : Prop where
  qualified : e.name.isQualified = true
  ordinary : e.name.nsPrefix ≠ some "xmlns"
  declarable : ∀ d ∈ Attribute.declarations e.attributes, Scope.Bindable d
  attributes : AttributesMeant (s.inside e.attributes) e.attributes
  named : (s.inside e.attributes).elementNamespace e.name = .ok uri

theorem Attribute.declarations_asWritten (as : List Attribute) :
    declarations (as.map asWritten) = declarations as := by
  unfold declarations
  rw [List.filterMap_map]
  rfl

section
variable {s inside : Scope} {e : Element} {uri : Option String}

/-- A legal start tag opens its element in the namespace that it has. -/
theorem Element.opens_of_legal (hw : e.Writable true) (h : e.ReadIn true s inside) :
    e.Opens s e.namespaceUri ∧ inside = s.inside e.attributes := by
  have henter : s.enter e.asWritten = .ok (inside, e) := h
  obtain ⟨hbind, hqualified, hordinary, as, uri, hresolve, hnew, huri, he⟩ :=
    Scope.enter_eq_ok.1 henter
  have hattributes : as = e.attributes := (congrArg Element.attributes he).symm
  have hnamespace : e.namespaceUri = uri := congrArg Element.namespaceUri he
  subst hattributes
  rw [show e.asWritten.attributes = e.attributes.map Attribute.asWritten from rfl,
    Attribute.declarations_asWritten, Scope.bindAll_eq_ok] at hbind
  obtain ⟨hdeclarable, rfl⟩ := hbind
  have hmeant := AttributesMeant.of_resolved hw.attributes hw.distinct hresolve hnew
  exact ⟨⟨hqualified, hordinary, hdeclarable, hmeant, hnamespace ▸ huri⟩, rfl⟩

/-- A start tag that opens its element in a namespace is legal for the element with this namespace. -/
theorem Element.Opens.legal (h : e.Opens s uri) :
    ({ e with namespaceUri := uri } : Element).Writable true ∧
      ({ e with namespaceUri := uri } : Element).ReadIn true s (s.inside e.attributes) := by
  refine ⟨⟨QName.writable_of_isQualified h.qualified,
    fun a ha => (h.attributes.each a ha).writable, h.attributes.nodup_names⟩, ?_⟩
  have hbind : s.bindAll (Attribute.declarations (e.attributes.map Attribute.asWritten)) =
      .ok (s.inside e.attributes) := by
    rw [Attribute.declarations_asWritten]
    exact Scope.bindAll_eq_ok.2 ⟨h.declarable, rfl⟩
  exact Scope.enter_eq_ok.2 ⟨hbind, h.qualified, h.ordinary, e.attributes, uri,
    h.attributes.resolved, Scope.repeated?_of_pairwise h.attributes.expanded, h.named, rfl⟩

/-- In a scope that knows no less the start tag still opens its element. -/
theorem Element.Opens.grow {s' : Scope} (h : e.Opens s uri) (hs : s.Grows s') :
    ∃ uri', e.Opens s' uri' ∧ (uri ≠ none ∨ s'.lookup "" = s.lookup "" → uri' = uri) := by
  have hinside := hs.inside e.attributes
  obtain ⟨uri', huri', hsame⟩ := hinside.elementNamespace h.named
  refine ⟨uri', ⟨h.qualified, h.ordinary, h.declarable, h.attributes.grow hinside, huri'⟩, ?_⟩
  intro hcase
  refine hsame (hcase.imp_right fun hd => ?_)
  rw [Scope.lookup_inside, Scope.lookup_inside, hd]

end

end MarkupFields
