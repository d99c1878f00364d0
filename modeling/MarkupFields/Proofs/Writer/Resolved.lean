import MarkupFields.Proofs.Writer.Grown
import MarkupFields.Proofs.Writer.Preserved

/-
  What the names of a path mean where they are put. A writer looks prefixes up in its bindings, markup
  looks them up in the scope of an element. The two agree inside the root, where the prefixes that a
  plan needs are declared (`Scope.Provides.lookup`), and further down unless an element there declares
  a prefix of the path as something else (`FieldWriter.Agrees`). That is asked of the attribute if the
  text is to be well-formed at all (`Clear`), and of all names, with a default namespace that no
  element is caught by, if they are to be read in their namespaces (`ClearNames`).
-/

namespace MarkupFields

open Text Scan

/-- The prefixes that have a meaning in the path, in order and with repeats: that of each step, empty if
none is written, and that of the attribute, if one is written. -/
def Path.usedPrefixes (p : Path) : List String :=
  p.steps.map (fun s => s.name.nsPrefix.getD "") ++ p.attr.toList.filterMap QName.nsPrefix

/-- What a prefix has to be declared as where it is used: what it is bound to. The one that is bound
from the start is never declared. -/
def Namespaces.declaration? (n : Namespaces) (x : String) : Option (String × String) :=
  if x = "xml" then none else (n.uri? x).map fun u => (x, u)

theorem Namespaces.declaration?_eq_some {n : Namespaces} {x : String} {d : String × String} :
    n.declaration? x = some d ↔ d.1 = x ∧ n.Gives d := by
  unfold declaration?
  constructor
  · intro h
    split at h
    · cases h
    · rename_i hxml
      obtain ⟨u, hu, rfl⟩ := Option.map_eq_some_iff.1 h
      exact ⟨rfl, hu, hxml⟩
  · rintro ⟨rfl, hmeaning, hxml⟩
    rw [if_neg hxml, hmeaning]
    rfl

/-- What elements below the top level declare. -/
def Markup.declaredBelow (m : Markup) : List (String × String) :=
  m.top.trees.flatMap fun t => Namespaces.declarationsIn t.2

namespace FieldWriter

/-! ## What is asked of a path -/

/-- Elements below the root declare the prefix, if at all, as what it is bound to. -/
def Agrees (w : FieldWriter) (p : String) : Prop :=
  ∀ d ∈ w.document.markup.declaredBelow, d.1 = p → w.namespaces.uri? p = some d.2

instance (w : FieldWriter) (p : String) : Decidable (w.Agrees p) :=
  inferInstanceAs (Decidable (∀ d ∈ w.document.markup.declaredBelow, d.1 = p → _))

/-- The default namespace, if one is bound, is a namespace, and it is declared on the top level
already or there is no element that it would catch. -/
def CatchesNothing (w : FieldWriter) : Prop :=
  ∀ u ∈ w.namespaces.default?, u ≠ "" ∧
    ((∃ c ∈ w.document.markup.top.roots, "" ∈ c.attributes.filterMap Attribute.declares) ∨
      ∀ c ∈ w.document.markup.top.preorder, ¬ c.Bare)

instance (w : FieldWriter) : Decidable w.CatchesNothing :=
  inferInstanceAs (Decidable (∀ u ∈ w.namespaces.default?, u ≠ "" ∧ _))

/-- The attribute of the path is no declaration, and its prefix means one thing in the document. -/
structure Clear (w : FieldWriter) (p : Path) : Prop where
  plain : p.attr ≠ some (.plain "xmlns")
  attr : ∀ q ∈ p.attr, ∀ x ∈ q.nsPrefix, w.Agrees x

instance (w : FieldWriter) (p : Path) : Decidable (w.Clear p) :=
  decidable_of_iff (p.attr ≠ some (.plain "xmlns") ∧ ∀ q ∈ p.attr, ∀ x ∈ q.nsPrefix, w.Agrees x)
    ⟨fun h => ⟨h.1, h.2⟩, fun h => ⟨h.plain, h.attr⟩⟩

/-- All prefixes of the path mean one thing in the document, the empty one of names without a prefix
too, and these catch no other elements. -/
structure ClearNames (w : FieldWriter) (p : Path) : Prop extends w.Clear p where
  steps : ∀ s ∈ p.steps.tail, w.Agrees (s.name.nsPrefix.getD "")
  default : (∃ s ∈ p.steps, s.name.nsPrefix = none) → w.CatchesNothing

instance (w : FieldWriter) (p : Path) : Decidable (w.ClearNames p) :=
  decidable_of_iff (w.Clear p ∧ (∀ s ∈ p.steps.tail, w.Agrees (s.name.nsPrefix.getD "")) ∧
      ((∃ s ∈ p.steps, s.name.nsPrefix = none) → w.CatchesNothing))
    ⟨fun h => ⟨h.1, h.2.1, h.2.2⟩, fun h => ⟨h.toClear, h.steps, h.default⟩⟩

/-! ## Names in a scope -/

/-- A name in a path is resolved by the binding of its prefix. -/
theorem resolve_eq_ok {w : FieldWriter} {unprefixed uri : Option String} {q : QName} :
    w.resolve unprefixed q = .ok uri ↔
      (q.nsPrefix = none ∧ uri = unprefixed) ∨
        ∃ x u, q.nsPrefix = some x ∧ w.namespaces.uri? x = some u ∧ uri = some u := by
  unfold resolve
  cases hp : q.nsPrefix with
  | none =>
    rw [Except.ok.injEq]
    constructor
    · exact fun h => .inl ⟨rfl, h.symm⟩
    · rintro (⟨-, rfl⟩ | ⟨x, u, hx, -⟩)
      · rfl
      · cases hx
  | some x =>
    dsimp only
    constructor
    · intro h
      split at h
      · rename_i u hu
        exact .inr ⟨x, u, rfl, hu, (Except.ok.inj h).symm⟩
      · cases h
    · rintro (⟨hx, -⟩ | ⟨y, u, hy, hu, rfl⟩)
      · cases hx
      · rw [Option.some.inj hy, hu]

/-- The namespace of a name is what its prefix is bound to, where a name without a prefix stands for
the default namespace. -/
theorem uri?_of_resolve {w : FieldWriter} {unprefixed uri : Option String} {q : QName}
    (h : w.resolve unprefixed q = .ok uri)
    (hu : q.nsPrefix ≠ none ∨ unprefixed = w.namespaces.default?) :
    w.namespaces.uri? (q.nsPrefix.getD "") = uri := by
  rcases resolve_eq_ok.1 h with ⟨hp, rfl⟩ | ⟨x, u, hx, hb, rfl⟩
  · rw [hp]
    exact (hu.resolve_left fun hne => hne hp).symm
  · rw [hx]
    exact hb

/-- What a name needs declared is what its prefix has to be declared as. -/
theorem needed?_of_resolve {w : FieldWriter} {unprefixed uri : Option String} {q : QName}
    (h : w.resolve unprefixed q = .ok uri)
    (hu : q.nsPrefix ≠ none ∨ unprefixed = w.namespaces.default?) :
    needed? q uri = w.namespaces.declaration? (q.nsPrefix.getD "") := by
  unfold needed? Namespaces.declaration?
  rw [uri?_of_resolve h hu]

end FieldWriter

section
variable {n : Namespaces} {ds : List (String × String)} {s s' : Scope}

/-- Inside the root a prefix that is declared as needed stands for what it is bound to. -/
theorem Scope.Provides.lookup (h : s.Provides n ds) {x : String}
    (hneed : ∀ u, n.uri? x = some u → x ≠ "xml" → (x, u) ∈ ds) (hnone : n.uri? x = none → x = "") :
    s.lookup x = n.uri? x := by
  cases hu : n.uri? x with
  | none =>
    obtain rfl := hnone hu
    exact h.default hu
  | some u =>
    by_cases hxml : x = "xml"
    · subst hxml
      rw [h.xml]
      exact hu
    · exact h.given (x, u) (hneed u hu hxml)

theorem Namespaces.Bindable.ne_empty (hn : n.Bindable) {x u : String} (hx : x ≠ "")
    (hu : n.uri? x = some u) : u ≠ "" := by
  by_cases hxml : x = "xml"
  · subst hxml
    rw [← Option.some.inj hu]
    decide
  · have hgives : n.Gives (x, u) := ⟨hu, hxml⟩
    exact ((hn _ hgives.mem).1.cases.resolve_left hx).2.1

/-- The prefix of declarations is never bound. -/
theorem Namespaces.Bindable.ne_xmlns (hn : n.Bindable) {x u : String} (hu : n.uri? x = some u) :
    x ≠ "xmlns" := by
  rintro rfl
  have hgives : n.Gives ("xmlns", u) := ⟨hu, by simp⟩
  obtain ⟨-, -, hne, -⟩ := (hn _ hgives.mem).1.cases.resolve_left (by simp)
  exact hne rfl

theorem Scope.resolve?_of_lookup {x u : String} (h : s.lookup x = some u) (hu : u ≠ "") :
    s.resolve? x = some u :=
  Option.filter_eq_some_iff.2 ⟨h, bne_iff_ne.2 hu⟩

theorem QName.ne_empty_of_isQualified {q : QName} (h : q.isQualified = true) {x : String}
    (hx : q.nsPrefix = some x) : x ≠ "" := by
  rintro rfl
  unfold isQualified at h
  rw [hx, Bool.and_eq_true] at h
  cases h.1

end

namespace FieldWriter

variable {w : FieldWriter} {exact : Prop}

/-- A name that was resolved does not have the prefix of declarations. -/
theorem ne_xmlns_of_resolve (hn : w.namespaces.Bindable) {unprefixed uri : Option String}
    {q : QName} (hr : w.resolve unprefixed q = .ok uri) : q.nsPrefix ≠ some "xmlns" := by
  intro hx
  rcases resolve_eq_ok.1 hr with ⟨hp, -⟩ | ⟨x, u, hx', hu, -⟩
  · rw [hx] at hp
    cases hp
  · rw [hx, Option.some.injEq] at hx'
    exact hn.ne_xmlns hu hx'.symm

theorem isDeclaration_of_resolve (hn : w.namespaces.Bindable) {unprefixed uri : Option String}
    {q : QName} (hr : w.resolve unprefixed q = .ok uri) (hq : q ≠ .plain "xmlns")
    {value : String} : (⟨q, uri, value⟩ : Attribute).isDeclaration = false :=
  isDeclaration_of_plain (ne_xmlns_of_resolve hn hr) hq

/-- An attribute means what it should where its prefix is what it is bound to. -/
theorem attributeNamespace_of_resolve (hn : w.namespaces.Bindable) {q : QName}
    {uri : Option String} (hq : q.isQualified = true) (hr : w.resolve none q = .ok uri) {s : Scope}
    (hs : ∀ x ∈ q.nsPrefix, s.lookup x = w.namespaces.uri? x) :
    s.attributeNamespace q = .ok uri := by
  rw [Scope.attributeNamespace_eq_ok]
  rcases resolve_eq_ok.1 hr with ⟨hp, rfl⟩ | ⟨x, u, hx, hu, rfl⟩
  · exact .inl ⟨.inl hp, rfl⟩
  · have hne := hn.ne_empty (QName.ne_empty_of_isQualified hq hx) hu
    exact .inr ⟨x, u, hx, hn.ne_xmlns hu, Scope.resolve?_of_lookup ((hs x hx).trans hu) hne, rfl⟩

/-- An element for a place can be read where its prefix stands for a namespace, and is in its own one
where the prefix is what it is bound to. -/
theorem meantIn_of_resolve (hn : w.namespaces.Bindable) {q : Place}
    (hq : q.name.isQualified = true)
    (hr : w.resolve w.namespaces.default? q.name = .ok q.namespaceUri) {s : Scope}
    (hsome : ∀ x ∈ q.name.nsPrefix, ∃ u, s.resolve? x = some u)
    (hexact : exact →
      s.lookup (q.name.nsPrefix.getD "") = w.namespaces.uri? (q.name.nsPrefix.getD "") ∧
        (q.name.nsPrefix = none → ∀ u, w.namespaces.default? = some u → u ≠ "")) :
    q.MeantIn exact s := by
  refine ⟨hq, ne_xmlns_of_resolve hn hr, ?_⟩
  rcases resolve_eq_ok.1 hr with ⟨hp, huri⟩ | ⟨x, u, hx, hu, huri⟩
  · refine ⟨_, Scope.elementNamespace_eq_ok.2 (.inl ⟨hp, rfl⟩), fun hx => ?_⟩
    obtain ⟨hlookup, hne⟩ := hexact hx
    rw [hp, Option.getD_none] at hlookup
    rw [huri]
    unfold Scope.resolve?
    rw [hlookup]
    show w.namespaces.default? = w.namespaces.default?.filter _
    cases hd : w.namespaces.default? with
    | none => rfl
    | some u => rw [Option.filter_some, if_pos (bne_iff_ne.2 (hne hp u hd))]
  · obtain ⟨v, hv⟩ := hsome x hx
    refine ⟨some v, Scope.elementNamespace_eq_ok.2 (.inr ⟨x, v, hx, hv, rfl⟩), fun he => ?_⟩
    obtain ⟨hlookup, -⟩ := hexact he
    rw [hx, Option.getD_some] at hlookup
    have hne := hn.ne_empty (QName.ne_empty_of_isQualified hq hx) hu
    rw [Scope.resolve?_of_lookup (hlookup.trans hu) hne] at hv
    rw [huri, hv]

/-! ## The names of a plan -/

/-- Where what a name needs is declared, its prefix stands for what it is bound to. -/
theorem lookup_of_needed {unprefixed uri : Option String} {q : QName} {s : Scope}
    {ds : List (String × String)} (hr : w.resolve unprefixed q = .ok uri)
    (hu : q.nsPrefix ≠ none ∨ unprefixed = w.namespaces.default?)
    (hneed : ∀ d ∈ needed? q uri, d ∈ ds) (hs : s.Provides w.namespaces ds) :
    s.lookup (q.nsPrefix.getD "") = w.namespaces.uri? (q.nsPrefix.getD "") := by
  have huri := uri?_of_resolve hr hu
  refine hs.lookup (fun u hb hxml => hneed _ ?_) fun hnone => ?_
  · unfold needed?
    dsimp only
    rw [if_neg hxml, ← huri, hb]
    rfl
  · rcases resolve_eq_ok.1 hr with ⟨hp, -⟩ | ⟨x, u, hx, hb, -⟩
    · rw [hp]
      rfl
    · rw [hx, Option.getD_some, hb] at hnone
      cases hnone

/-- The first place is that of the first step, and the others are those of the others. -/
theorem resolveSteps_cons_eq_ok {steps : List Step} {root : Place} {places : List Place}
    (h : w.resolveSteps steps = .ok (root :: places)) :
    ∃ s ss, steps = s :: ss ∧ w.resolveSteps ss = .ok places := by
  cases steps with
  | nil => cases h
  | cons s ss =>
    rw [resolveSteps] at h
    obtain ⟨uri, -, h⟩ := bind_eq_ok.1 h
    obtain ⟨rest, hrest, h⟩ := bind_eq_ok.1 h
    obtain ⟨-, rfl⟩ := List.cons.inj (Except.ok.inj h)
    exact ⟨s, ss, rfl, hrest⟩

variable {p : Path} {text : String} {plan : WritePlan}

/-- What the places of steps need declared. -/
theorem filterMap_needed?_of_resolveSteps {steps : List Step} {places : List Place}
    (h : w.resolveSteps steps = .ok places) :
    places.filterMap (fun q => needed? q.name q.namespaceUri) =
      (steps.map fun s => s.name.nsPrefix.getD "").filterMap w.namespaces.declaration? := by
  have hall := resolveSteps_eq_ok h
  clear h
  induction hall with
  | nil => rfl
  | cons hplace _ ih =>
    obtain ⟨hname, -, hr⟩ := hplace
    rw [List.filterMap_cons, List.map_cons, List.filterMap_cons, hname,
      needed?_of_resolve hr (.inr rfl), ih]

/-- The plan of a path declares the prefixes that are used in the path, in order. -/
theorem declarations_of_planFor (h : w.planFor p text = .ok plan) :
    plan.declarations = p.usedPrefixes.filterMap w.namespaces.declaration? := by
  obtain ⟨hresolved, hput, hdeclarations, -⟩ := planFor_eq_ok h
  rw [hdeclarations]
  unfold neededFor Path.usedPrefixes
  rw [List.filterMap_append, filterMap_needed?_of_resolveSteps hresolved]
  congr 1
  unfold payloadOf at hput
  cases hattr : p.attr with
  | none =>
    rw [hattr] at hput
    rw [← Except.ok.inj hput]
    rfl
  | some q =>
    rw [hattr] at hput
    obtain ⟨uri, hr, hok⟩ := bind_eq_ok.1 hput
    rw [← Except.ok.inj hok]
    dsimp only
    cases hq : q.nsPrefix with
    | none =>
      -- an attribute without a prefix is in no namespace
      rcases resolve_eq_ok.1 hr with ⟨-, rfl⟩ | ⟨x, u, hx, -⟩
      · simp [needed?, hq]
      · rw [hq] at hx
        cases hx
    | some x =>
      rw [needed?_of_resolve hr (.inl (hq ▸ Option.some_ne_none x)), hq]
      simp only [Option.getD_some, Option.toList_some, List.filterMap_cons, List.filterMap_nil, hq]
      cases w.namespaces.declaration? x <;> rfl

/-- What the plan of a path declares is what prefixes are bound to. -/
theorem gives_of_planFor (h : w.planFor p text = .ok plan) :
    ∀ d ∈ plan.declarations, w.namespaces.Gives d := by
  rw [declarations_of_planFor h]
  intro d hd
  obtain ⟨x, -, hx⟩ := List.mem_filterMap.1 hd
  exact (Namespaces.declaration?_eq_some.1 hx).2

/-- What is put at the end of a path declares nothing, unless the path ends in the default
declaration. -/
theorem regular_of_planFor (hn : w.namespaces.Bindable) (hp : p.attr ≠ some (.plain "xmlns"))
    (h : w.planFor p text = .ok plan) : plan.payload.Regular := by
  obtain ⟨-, hput, -⟩ := planFor_eq_ok h
  intro a ha
  unfold payloadOf at hput
  split at hput
  · rw [← Except.ok.inj hput] at ha
    cases ha
  · rename_i q hattr
    obtain ⟨uri, hr, hok⟩ := bind_eq_ok.1 hput
    rw [← Except.ok.inj hok, Payload.attr.injEq] at ha
    rw [← ha]
    exact isDeclaration_of_resolve hn hr fun hq => hp (hattr.trans (congrArg some hq))

/-- A default namespace is declared only for a step without a prefix. -/
theorem exists_plain_step_of_planFor (hp : p.Parsed) (h : w.planFor p text = .ok plan)
    (hd : "" ∈ plan.declarations.map Prod.fst) : ∃ s ∈ p.steps, s.name.nsPrefix = none := by
  obtain ⟨d, hd, hempty⟩ := List.mem_map.1 hd
  rw [declarations_of_planFor h] at hd
  obtain ⟨x, hx, hdeclared⟩ := List.mem_filterMap.1 hd
  obtain rfl : x = "" := (Namespaces.declaration?_eq_some.1 hdeclared).1.symm.trans hempty
  rcases List.mem_append.1 hx with hx | hx
  · obtain ⟨s, hs, hnone⟩ := List.mem_map.1 hx
    refine ⟨s, hs, Option.eq_none_iff_forall_ne_some.2 fun y hy => ?_⟩
    rw [hy, Option.getD_some] at hnone
    exact QName.ne_empty_of_isQualified (hp.steps s hs).1 hy hnone
  · obtain ⟨q, hq, hempty⟩ := List.mem_filterMap.1 hx
    exact absurd rfl (QName.ne_empty_of_isQualified (hp.attr q (Option.mem_toList.1 hq)) hempty)

section
variable (hn : w.namespaces.Bindable) (hp : p.Parsed) (h : w.planFor p text = .ok plan) {s : Scope}
  (hs : s.Provides w.namespaces plan.declarations)
include hn hp h hs

/-- Inside the root the prefix of a place stands for what it is bound to. -/
theorem lookup_of_planFor {q : Place} (hq : q ∈ plan.root :: plan.places) :
    q.name.isQualified = true ∧
      w.resolve w.namespaces.default? q.name = .ok q.namespaceUri ∧
      s.lookup (q.name.nsPrefix.getD "") = w.namespaces.uri? (q.name.nsPrefix.getD "") ∧
      ∀ x ∈ q.name.nsPrefix, x ≠ "" ∧ ∃ u, s.resolve? x = some u := by
  obtain ⟨hresolved, -, hdeclarations, -⟩ := planFor_eq_ok h
  obtain ⟨t, ht, hname, -, hr⟩ := exists_step_of_mem hresolved hq
  rw [← hname] at hr
  have hqualified : q.name.isQualified = true := hname ▸ (hp.steps t ht).1
  have hlookup := lookup_of_needed hr (.inr rfl) (fun d hd => by
    rw [hdeclarations]
    exact List.mem_append_left _ (List.mem_filterMap.2 ⟨q, hq, hd⟩)) hs
  refine ⟨hqualified, hr, hlookup, fun x hx => ?_⟩
  have hne := QName.ne_empty_of_isQualified hqualified hx
  rw [Option.mem_def] at hx
  rcases resolve_eq_ok.1 hr with ⟨hnone, -⟩ | ⟨y, u, hy, hu, -⟩
  · rw [hnone] at hx
    cases hx
  · rw [hy, Option.some.injEq] at hx
    subst hx
    rw [hy, Option.getD_some, hu] at hlookup
    exact ⟨hne, u, Scope.resolve?_of_lookup hlookup (hn.ne_empty hne hu)⟩

/-- What is put at the end of a path means what it should. -/
theorem payload_meantIn (htext : ∀ c ∈ text.toList, isXmlChar c = true) (hclear : w.Clear p)
    {s' : Scope} (hs' : s.Nested (· ∈ w.document.markup.declaredBelow) s') :
    plan.payload.MeantIn s' := by
  obtain ⟨-, hput, hdeclarations, -⟩ := planFor_eq_ok h
  unfold payloadOf at hput
  cases hattr : p.attr with
  | none =>
    rw [hattr] at hput
    rw [← Except.ok.inj hput]
    exact htext
  | some q =>
    rw [hattr] at hput
    obtain ⟨uri, hr, hok⟩ := bind_eq_ok.1 hput
    have hpayload : Payload.attr ⟨q, uri, text⟩ = plan.payload := Except.ok.inj hok
    rw [← hpayload]
    have hplain : q ≠ .plain "xmlns" := fun hq => hclear.plain (hattr.trans (congrArg some hq))
    have hq := hp.attr q hattr
    refine ⟨isDeclaration_of_resolve hn hr hplain, hq, htext, ?_⟩
    refine attributeNamespace_of_resolve hn hq hr fun x hx => ?_
    rw [Option.mem_def] at hx
    have hlookup := lookup_of_needed hr (.inl (hx ▸ Option.some_ne_none x)) (fun d hd => by
      rw [hdeclarations, ← hpayload]
      exact List.mem_append_right _ (Option.mem_toList.2 hd)) hs
    rw [hx, Option.getD_some] at hlookup
    have hagrees := hclear.attr q hattr x hx
    rw [← hlookup]
    exact hs'.lookup fun u hu => hlookup.trans (hagrees _ hu rfl)

/-- The names of the plan of a path can be read where they are put. -/
theorem meantIn_of_planFor (htext : ∀ c ∈ text.toList, isXmlChar c = true) (hclear : w.Clear p)
    (hnames : exact → w.ClearNames p) :
    plan.MeantIn exact (· ∈ w.document.markup.declaredBelow) s := by
  obtain ⟨hresolved, -⟩ := planFor_eq_ok h
  have hdefault : ∀ q ∈ plan.root :: plan.places, exact → q.name.nsPrefix = none →
      ∀ u, w.namespaces.default? = some u → u ≠ "" := by
    intro q hq hx hnone u hu
    obtain ⟨t, ht, hname, -⟩ := exists_step_of_mem hresolved hq
    exact ((hnames hx).default ⟨t, ht, hname ▸ hnone⟩ u hu).1
  refine ⟨?_, fun q hq s' hs' => ?_, fun s' => payload_meantIn hn hp h hs htext hclear⟩
  · obtain ⟨hqualified, hr, hlookup, hsome⟩ := lookup_of_planFor hn hp h hs List.mem_cons_self
    exact meantIn_of_resolve hn hqualified hr (fun x hx => (hsome x hx).2)
      fun hx => ⟨hlookup, hdefault _ List.mem_cons_self hx⟩
  · have hq' := List.mem_cons_of_mem plan.root hq
    obtain ⟨hqualified, hr, hlookup, hsome⟩ := lookup_of_planFor hn hp h hs hq'
    refine meantIn_of_resolve hn hqualified hr (fun x hx => ?_) fun hx => ⟨?_, hdefault q hq' hx⟩
    · obtain ⟨hne, u, hu⟩ := hsome x hx
      exact hs'.exists_resolve? hne hu
    · obtain ⟨t₀, ts, hsteps, hrest⟩ := resolveSteps_cons_eq_ok hresolved
      obtain ⟨t, ht, hname, -⟩ := exists_step_of_mem hrest hq
      have hagrees := (hnames hx).steps t (hsteps ▸ ht)
      rw [← hname] at hagrees
      rw [← hlookup]
      exact hs'.lookup fun u hu => hlookup.trans (hagrees _ hu rfl)

end

end FieldWriter

end MarkupFields
