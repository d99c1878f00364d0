import MarkupFields.Proofs.Markup.Meaning
import MarkupFields.Proofs.Writer.Built

/-
  Documents that a writer builds can be written as markup and read back. The declarations of the root
  can be made in any order they come in, and the scope that they make gives each declared prefix the
  namespace it is bound to (`ScopeGives`). In that scope every start tag is read as its element, for
  each name has the namespace of its prefix (`Element.Built.opens`). So the top level is legal
  (`legal_of_built`).
-/

namespace MarkupFields

open Text Scan

section
variable {n : Namespaces} {ds own : List (String × String)}

/-- What a prefix is bound to can be declared. -/
theorem Namespaces.Declarable.ordinary (hn : n.Declarable) {d : String × String}
    (h : n.Binds d) : OrdinaryBinding d := by
  have hmeaning := h.meaning
  unfold Namespaces.uri? at hmeaning
  rw [if_neg h.ordinary.1] at hmeaning
  obtain ⟨hne, hchars, hunreserved⟩ := hn _ (mem_of_lookup hmeaning)
  exact ⟨h.named, h.ordinary, hne, hchars, hunreserved⟩

/-! ## The scope that the declarations make -/

/-- The scope gives the declared prefixes their namespaces, and there is no default namespace in it
unless one is bound. -/
structure ScopeGives (n : Namespaces) (ds : List (String × String)) (s : Scope) : Prop where
  found : ∀ d ∈ ds, s.resolve? d.1 = some d.2
  default : n.default? = none → s.resolve? "" = none

theorem scopeGives_declared (hn : n.Declarable) (hds : n.Declares ds) :
    ScopeGives n ds (ds.reverse ++ Scope.outermost) where
  found := by
    intro d hd
    have hdistinct : (ds.reverse.map Prod.fst).Nodup := by
      rw [List.map_reverse, (List.reverse_perm _).nodup_iff]
      exact hds.distinct
    have hlookup := lookup_of_mem hdistinct (List.mem_reverse.2 hd)
    have hne := (hn.ordinary (hds.each d hd)).nonempty
    unfold Scope.resolve?
    rw [List.lookup_append, hlookup, Option.some_or, Option.filter_some, if_pos (bne_iff_ne.2 hne)]
  default := by
    intro hnone
    have hfree : ds.reverse.lookup "" = none := by
      rw [List.lookup_eq_none_iff]
      intro d hd
      rw [bne_iff_ne]
      intro he
      have hmeaning := (hds.each d (List.mem_reverse.1 hd)).meaning
      rw [← he] at hmeaning
      rw [show n.uri? "" = none from hnone] at hmeaning
      cases hmeaning
    unfold Scope.resolve?
    rw [List.lookup_append, hfree, Option.none_or]
    rfl

/-! ## Names in the scope -/

variable {s : Scope}

theorem ScopeGives.require (hs : ScopeGives n ds s) {unprefixed uri : Option String} {q : QName}
    (h : Named n ds unprefixed q uri) {p : String} (hp : q.nsPrefix = some p) :
    (s.require p).map some = .ok uri := by
  obtain ⟨-, u, rfl, hmem⟩ := h.mem_of_prefix hp
  unfold Scope.require
  rw [hs.found _ hmem]
  rfl

theorem ScopeGives.elementNamespace (hs : ScopeGives n ds s) {q : QName} {uri : Option String}
    (h : Named n ds n.default? q uri) : s.elementNamespace q = .ok uri := by
  unfold Scope.elementNamespace
  cases hp : q.nsPrefix with
  | some p => exact hs.require h hp
  | none =>
    have huri := h.plain hp
    cases hd : n.default? with
    | none =>
      rw [huri, hd]
      exact congrArg _ (hs.default hd)
    | some u =>
      rw [hd] at huri
      subst huri
      exact congrArg _ (hs.found _ (h.mem_of_plain hp))

theorem ScopeGives.attributeNamespace (hs : ScopeGives n ds s) {a : Attribute}
    (ha : a.Built n ds) : s.attributeNamespace a.name = .ok a.namespaceUri := by
  unfold Scope.attributeNamespace
  cases hp : a.name.nsPrefix with
  | none =>
    rw [ha.named.plain hp]
  | some p =>
    have hord := ha.named.ordinary.2
    rw [hp, Ne, Option.some.injEq] at hord
    dsimp only
    rw [if_neg hord]
    exact hs.require ha.named hp

/-! ## Start tags -/

variable {as : List Attribute}

/-- Attributes that are built mean what they should in a scope that gives the declared prefixes their
namespaces. -/
theorem AttributesBuilt.meant (h : AttributesBuilt n ds own as) (hn : n.Declarable)
    (ho : n.Declares own) (hs : ScopeGives n ds s) : AttributesMeant s as where
  each := by
    intro a ha
    rcases h.each a ha with hb | ⟨d, hd, rfl⟩
    · exact ⟨hb.named.qualified, hb.value, hs.attributeNamespace hb⟩
    · have hordinary := hn.ordinary (ho.each d hd)
      exact Attribute.meantIn_declaration s hordinary.named hordinary.characters
  distinct := h.distinct
  prefixes := by
    rw [← Attribute.prefixes_declarations, h.own]
    exact ho.distinct

/-- The start tag of a built element opens the element with its namespace. -/
theorem Element.Built.opens {e : Element} (h : e.Built n ds own) (hn : n.Declarable)
    (ho : n.Declares own) (hs : ScopeGives n ds (own.reverse ++ s)) :
    e.Opens s e.namespaceUri := by
  have hinside : s.inside e.attributes = own.reverse ++ s := by
    unfold Scope.inside
    rw [h.attributes.own]
  refine ⟨h.named.qualified, h.named.ordinary.2, ?_, ?_, ?_⟩
  · rw [h.attributes.own]
    exact fun d hd => (hn.ordinary (ho.each d hd)).bindable
  · rw [hinside]
    exact h.attributes.meant hn ho hs
  · rw [hinside]
    exact hs.elementNamespace h.named

/-! ## Forests -/

/-- A built forest is legal in a scope that gives the declared prefixes their namespaces. -/
theorem Forest.Built.legal (hn : n.Declarable) (hs : ScopeGives n ds s) {f : Forest Node}
    (h : f.Built n ds) (htexts : Forest.dataCount f.trees ≤ 1) :
    (f.map Node.content).Legal true s := by
  have hnone : n.Declares [] := ⟨.nil, fun d hd => absurd hd List.not_mem_nil⟩
  induction h with
  | nil => exact .nil
  | @text k text beside nonempty characters _ ih =>
    have hone : Forest.dataCount (Forest.cons ⟨k, .text text⟩ .nil beside).trees =
        Forest.dataCount beside.trees + 1 := Forest.rootCount_cons _ _ _
    rw [hone] at htexts
    refine .leaf ⟨nonempty, characters⟩ (fun _ => ?_) (ih (by omega))
    -- the one text of the level is this one
    cases beside with
    | nil => rfl
    | cons k' below' beside' =>
      have hzero : Forest.dataCount (Forest.cons k' below' beside').trees = 0 := by omega
      have := (Forest.rootCount_eq_zero _ _).1 hzero (k', below') List.mem_cons_self
      obtain ⟨h', c⟩ := k'
      cases c with
      | text t => cases this
      | _ => rfl
  | @element k e below beside built texts _ _ ihc ihr =>
    rw [Forest.trees] at htexts
    have hbeside : Forest.dataCount beside.trees ≤ 1 := by
      unfold Forest.dataCount at htexts ⊢
      rw [Forest.rootCount_cons] at htexts
      omega
    obtain ⟨hwritable, hread⟩ := (built.opens hn hnone hs).legal
    have hinside : s.inside e.attributes = s := by
      unfold Scope.inside
      rw [built.attributes.own]
      rfl
    rw [hinside] at hread
    exact .element hwritable hread (ihc texts) (ihr hbeside)

/-- The markup of a built root element is legal. -/
theorem legal_of_built (hn : n.Declarable) (hds : n.Declares ds) {r : NodeTree}
    (h : NodeTree.Built n ds ds r) :
    (⟨.absent, (Forest.single r).map Node.content⟩ : Markup).Legal true where
  version := fun v hv => by cases hv
  top := by
    cases h with
    | @intro k e below built texts content =>
      have hs := scopeGives_declared hn hds
      obtain ⟨hwritable, hread⟩ := (built.opens hn hds hs).legal
      have hinside : Scope.outermost.inside e.attributes = ds.reverse ++ Scope.outermost := by
        unfold Scope.inside
        rw [built.attributes.own]
      rw [hinside] at hread
      refine ⟨.nil, e, below.map Node.content, .nil, rfl, trivial, trivial, ?_⟩
      exact .element hwritable hread (content.legal hn hs texts) .nil

end

end MarkupFields
