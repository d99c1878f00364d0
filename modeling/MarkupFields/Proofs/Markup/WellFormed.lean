import MarkupFields.Proofs.Markup.Limits
import MarkupFields.Proofs.Markup.Meaning

/-
  Well-formedness of trees, said of each node for itself and of its neighbours, without a grammar, a
  scope or a written form: what XML and its namespaces ask of names, values, attributes and the
  inside of every kind of node. Legality follows how a tree is written and read; that every tree that
  is read with namespaces is well-formed (`wellFormed_of_parse`) follows from its legality, node by
  node.
-/

namespace MarkupFields

open Text Scan

/-! ## What is asked of each node -/

/-- Every character of the text may stand in a document. -/
def XmlText (s : String) : Prop :=
  ∀ c ∈ s.toList, isXmlChar c = true

/-- If the name has a prefix, it is bound to a namespace. -/
def Prefixed (q : QName) (uri : Option String) : Prop :=
  q.nsPrefix.isSome = true → ∃ u, uri = some u ∧ u ≠ ""

/-- Names and values are what they should be, and a prefix other than that of declarations is bound
to a namespace. -/
structure Attribute.WellFormed (a : Attribute) : Prop where
  name : a.name.isQualified = true
  value : XmlText a.value
  bound : a.name.nsPrefix ≠ some "xmlns" → Prefixed a.name a.namespaceUri

/-- The name is what it should be, its prefix is bound, and the attributes are well-formed and
distinct, by their names as well as by namespace and local name. -/
structure Element.WellFormed (e : Element) : Prop where
  name : e.name.isQualified = true
  ordinary : e.name.nsPrefix ≠ some "xmlns"
  bound : Prefixed e.name e.namespaceUri
  attributes : ∀ a ∈ e.attributes, a.WellFormed
  names : (e.attributes.map Attribute.name).Nodup
  expanded : e.attributes.Pairwise fun a b => ¬ a.SameExpanded b

/-- What stands inside the node is what its kind allows. The document node is not inside a tree. -/
def Content.WellFormed : Content → Prop
  | .document => False
  | .element e => e.WellFormed
  | .text s => s ≠ "" ∧ XmlText s
  | .cdata s => XmlText s ∧ ¬ [']', ']', '>'] <:+: s.toList
  | .comment s => XmlText s ∧ ¬ ['-', '-'] <:+: s.toList ∧ s.toList.getLast? ≠ some '-'
  | .instruction target data =>
    (XmlText target ∧ target.toList.map Char.toLower ≠ ['x', 'm', 'l']) ∧
      ∀ d ∈ data, XmlText d ∧ ¬ ['?', '>'] <:+: d.toList ∧
        ∃ c cs, d.toList = c :: cs ∧ isMarkupSpace c = false

/-! ## What is asked of trees -/

/-- All trees of a forest, at any depth, in document order. -/
def Forest.subtrees {α : Type} : Forest α → List (α × Forest α)
  | .nil => []
  | .cons a below beside => (a, below) :: (below.subtrees ++ beside.subtrees)

/-- Only elements have anything below them. -/
def Forest.LeavesBare (f : Forest Content) : Prop :=
  ∀ t ∈ f.subtrees, t.1.isElement = false → t.2 = .nil

/-- No two texts stand side by side on the top level. -/
def Forest.TextsApart (f : Forest Content) : Prop :=
  f.roots.IsChain fun c d => c.isText = true → d.isText = false

/-- The root is well-formed; something is below it only if it is an element, and no two texts stand
side by side there. -/
structure ContentTree.WellFormed (t : ContentTree) : Prop where
  root : t.1.WellFormed
  leaf : t.1.isElement = false → t.2 = .nil
  apart : t.2.TextsApart

/-- Markup with namespaces is well-formed: one element stands on the top level, with nothing but
comments and processing instructions beside it, and every tree at any depth is well-formed. -/
structure Markup.WellFormed (m : Markup) : Prop where
  single : (m.top.roots.filter Content.isElement).length = 1
  beside : ∀ c ∈ m.top.roots, c.isElement = false → c.isMiscellany = true
  trees : ∀ t ∈ m.top.subtrees, ContentTree.WellFormed t

/-! ## Names and attributes -/

/-- A prefix stands for no empty namespace. -/
theorem Scope.ne_empty_of_resolve? {s : Scope} {p u : String} (h : s.resolve? p = some u) :
    u ≠ "" :=
  bne_iff_ne.1 (Option.filter_eq_some_iff.1 h).2

theorem Scope.prefixed_of_elementNamespace {s : Scope} {q : QName} {uri : Option String}
    (h : s.elementNamespace q = .ok uri) : Prefixed q uri := by
  intro hsome
  rcases Scope.elementNamespace_eq_ok.1 h with ⟨hp, -⟩ | ⟨p, u, -, hu, rfl⟩
  · rw [hp] at hsome
    cases hsome
  · exact ⟨u, rfl, Scope.ne_empty_of_resolve? hu⟩

theorem Scope.prefixed_of_attributeNamespace {s : Scope} {q : QName} {uri : Option String}
    (hq : q.nsPrefix ≠ some "xmlns") (h : s.attributeNamespace q = .ok uri) : Prefixed q uri := by
  intro hsome
  rcases Scope.attributeNamespace_eq_ok.1 h with ⟨hp | hp, -⟩ | ⟨p, u, -, -, hu, rfl⟩
  · rw [hp] at hsome
    cases hsome
  · exact absurd hp hq
  · exact ⟨u, rfl, Scope.ne_empty_of_resolve? hu⟩

/-- A start tag that can be written and was read is well-formed. -/
theorem Element.wellFormed_of_readIn {s inside : Scope} {e : Element} (hw : e.Writable true)
    (h : e.ReadIn true s inside) : e.WellFormed := by
  obtain ⟨hopens, -⟩ := Element.opens_of_legal hw h
  have hmeant := hopens.attributes
  refine ⟨hopens.qualified, hopens.ordinary, Scope.prefixed_of_elementNamespace hopens.named,
    fun a ha => ?_, hw.distinct, hmeant.expanded⟩
  obtain ⟨hqualified, hvalue, hnamed⟩ := hmeant.each a ha
  exact ⟨hqualified, hvalue, fun hne => Scope.prefixed_of_attributeNamespace hne hnamed⟩

/-! ## Leaves -/

theorem Scan.isXmlChar_of_isNameChar {c : Char} (h : isNameChar c = true) :
    isXmlChar c = true := by
  simp only [isNameChar, isNameStart, inRanges, nameStartRanges, nameFurtherRanges, List.any_cons,
    List.any_nil, Bool.or_false, Bool.or_eq_true, Bool.and_eq_true, decide_eq_true_eq] at h
  simp only [isXmlChar, isXmlCode, inRanges, characterRanges, List.any_cons, List.any_nil,
    Bool.or_false, Bool.or_eq_true, Bool.and_eq_true, decide_eq_true_eq]
  omega

/-- The inside of a leaf that can be written is well-formed. -/
theorem Content.wellFormed_of_leaf {c : Content} (h : c.LegalLeaf) : c.WellFormed := by
  cases c with
  | document => exact h
  | element e => exact absurd h id
  | text s => exact h
  | cdata s => exact ⟨fun c hc => (h.1 c hc).1, fun hi => h.2 (hi.trans (List.infix_append' [] _ _))⟩
  | comment s =>
    refine ⟨fun c hc => (h.1 c hc).1, fun hi => h.2 (hi.trans (List.infix_append' [] _ _)), ?_⟩
    -- a hyphen at the end would stand beside the first one of the end mark
    intro hlast
    obtain ⟨init, hinit⟩ := List.getLast?_eq_some_iff.1 hlast
    refine h.2 ⟨init, [], ?_⟩
    rw [hinit, List.append_nil, List.append_assoc]
    rfl
  | instruction target data =>
    obtain ⟨⟨hname, hxml⟩, hdata⟩ := h
    refine ⟨⟨fun c hc => Scan.isXmlChar_of_isNameChar (hname.isNameChar hc), hxml⟩, ?_⟩
    intro d hd
    obtain ⟨⟨hplain, hmark⟩, hhead⟩ := hdata d hd
    exact ⟨fun c hc => (hplain c hc).1, fun hi => hmark (hi.trans (List.infix_append' [] _ _)),
      hhead⟩

/-! ## Forests -/

theorem Forest.subtrees_append {α : Type} (f g : Forest α) :
    (f ++ g).subtrees = f.subtrees ++ g.subtrees := by
  induction f with
  | nil => rfl
  | cons a below beside _ ih => simp [subtrees, ih]

namespace Forest

theorem leavesBare_nil : LeavesBare .nil :=
  fun _ ht => absurd ht List.not_mem_nil

theorem leavesBare_cons {c : Content} {below beside : Forest Content} :
    LeavesBare (.cons c below beside) ↔
      (c.isElement = false → below = .nil) ∧ below.LeavesBare ∧ beside.LeavesBare := by
  unfold LeavesBare
  rw [subtrees, List.forall_mem_cons, List.forall_mem_append]

theorem leavesBare_append {f g : Forest Content} :
    (f ++ g).LeavesBare ↔ f.LeavesBare ∧ g.LeavesBare := by
  unfold LeavesBare
  rw [subtrees_append, List.forall_mem_append]

theorem Legal.leavesBare {aware : Bool} {s : Scope} {f : Forest Content} (h : f.Legal aware s) :
    f.LeavesBare := by
  induction h with
  | nil => exact leavesBare_nil
  | element writable names content rest ihc ihr =>
    exact leavesBare_cons.2 ⟨fun hleaf => Bool.noConfusion hleaf, ihc, ihr⟩
  | leaf writable apart rest ih => exact leavesBare_cons.2 ⟨fun _ => rfl, leavesBare_nil, ih⟩

theorem Miscellaneous.leavesBare {f : Forest Content} (h : f.Miscellaneous) : f.LeavesBare := by
  induction f with
  | nil => exact leavesBare_nil
  | cons c below beside _ ih =>
    obtain ⟨⟨-, -, rfl⟩, hrest⟩ := h
    exact leavesBare_cons.2 ⟨fun _ => rfl, leavesBare_nil, ih hrest⟩

end Forest

theorem Forest.textsApart_cons {c : Content} {below beside : Forest Content}
    (h : c.isText = true → beside.startsWithText = false) (hb : beside.TextsApart) :
    (Forest.cons c below beside).TextsApart := by
  cases beside with
  | nil => exact .singleton c
  | cons d below' beside' => exact .cons_cons h hb

/-- A legal forest consists of well-formed trees, with no two texts side by side. -/
theorem Forest.Legal.wellFormed {s : Scope} {f : Forest Content} (h : f.Legal true s) :
    (∀ t ∈ f.subtrees, ContentTree.WellFormed t) ∧ f.TextsApart := by
  induction h with
  | nil => exact ⟨fun t ht => absurd ht List.not_mem_nil, .nil⟩
  | element writable names content rest ihc ihr =>
    refine ⟨fun t ht => ?_, textsApart_cons (fun he => by cases he) ihr.2⟩
    rcases List.mem_cons.1 ht with rfl | ht
    · refine ⟨Element.wellFormed_of_readIn writable names, fun he => ?_, ihc.2⟩
      cases he
    · exact (List.mem_append.1 ht).elim (ihc.1 t) (ihr.1 t)
  | leaf writable apart rest ih =>
    refine ⟨fun t ht => ?_, textsApart_cons apart ih.2⟩
    rcases List.mem_cons.1 ht with rfl | ht
    · exact ⟨Content.wellFormed_of_leaf writable, fun _ => rfl, .nil⟩
    · exact ih.1 t ht

/-- Comments and instructions that can be written are well-formed trees. -/
theorem Forest.Miscellaneous.wellFormed {f : Forest Content} (h : f.Miscellaneous) :
    (∀ t ∈ f.subtrees, ContentTree.WellFormed t) ∧ ∀ c ∈ f.roots, c.isMiscellany = true := by
  induction f with
  | nil => exact ⟨fun t ht => absurd ht List.not_mem_nil, fun c hc => absurd hc List.not_mem_nil⟩
  | cons c below beside _ ih =>
    obtain ⟨⟨hmiscellany, hleaf, rfl⟩, hrest⟩ := h
    refine ⟨fun t ht => ?_, fun d hd => ?_⟩
    · rcases List.mem_cons.1 ht with rfl | ht
      · exact ⟨Content.wellFormed_of_leaf hleaf, fun _ => rfl, .nil⟩
      · exact (ih hrest).1 t ht
    · rcases List.mem_cons.1 hd with rfl | hd
      · exact hmiscellany
      · exact (ih hrest).2 d hd

/-! ## Documents -/

/-- In legal markup only elements have anything below them. -/
theorem Markup.Legal.leavesBare {aware : Bool} {m : Markup} (h : m.Legal aware) :
    m.top.LeavesBare := by
  obtain ⟨before, e, below, behind, htop, hbefore, hbehind, hroot⟩ := h.top
  have hsplit : m.top = before ++ (.cons (.element e) below .nil ++ behind) := htop
  rw [hsplit]
  exact Forest.leavesBare_append.2
    ⟨hbefore.leavesBare, Forest.leavesBare_append.2 ⟨hroot.leavesBare, hbehind.leavesBare⟩⟩

/-- Legal markup is well-formed. -/
theorem Markup.Legal.wellFormed {m : Markup} (h : m.Legal true) : m.WellFormed := by
  obtain ⟨before, e, below, behind, htop, hbefore, hbehind, hroot⟩ := h.top
  have hroots : m.top.roots = before.roots ++ .element e :: behind.roots := by
    rw [htop, Forest.roots_append, Forest.roots]
  refine ⟨?_, fun c hc hce => ?_, fun t ht => ?_⟩
  · rw [hroots, List.filter_append, hbefore.filter_isElement, List.filter_cons_of_pos rfl,
      hbehind.filter_isElement]
    rfl
  · rw [hroots, List.mem_append, List.mem_cons] at hc
    rcases hc with hc | rfl | hc
    · exact hbefore.wellFormed.2 c hc
    · cases hce
    · exact hbehind.wellFormed.2 c hc
  · have hsplit : Forest.cons (.element e) below behind =
        .cons (.element e) below .nil ++ behind := rfl
    rw [htop, hsplit, Forest.subtrees_append, Forest.subtrees_append, List.mem_append,
      List.mem_append] at ht
    rcases ht with ht | ht | ht
    · exact hbefore.wellFormed.1 t ht
    · exact hroot.wellFormed.1 t ht
    · exact hbehind.wellFormed.1 t ht

/-- What is read with namespaces is well-formed, under any limits. -/
theorem Markup.wellFormed_of_parse {o : ReadOptions} (ha : o.namespaceAware = true) {t : String}
    {m : Markup} (h : Markup.parse o t = .ok m) : m.WellFormed := by
  have hlegal := legal_of_read h
  rw [ha] at hlegal
  exact hlegal.wellFormed

/-- Attributes that have their local name in common, and a node of each kind. -/
theorem Markup.wellFormed_of_parse_mixed :
    let m : Markup := ⟨.absent,
      .cons (.instruction "t" (some "d")) .nil
        (.cons (.element ⟨⟨some "p", "a"⟩, some "u",
            [⟨⟨some "xmlns", "p"⟩, none, "u"⟩, ⟨⟨some "p", "b"⟩, some "u", "1"⟩,
              ⟨⟨none, "b"⟩, none, "2"⟩]⟩)
          (.cons (.text "x") .nil (.cons (.cdata "]]") .nil (.cons (.text "y") .nil
            (.cons (.element ⟨⟨none, "c"⟩, none, []⟩) .nil .nil))))
          (.cons (.comment "-c") .nil .nil))⟩
    (ReadOptions.namespaceAware {} = true ∧
      Markup.parse {} ("<?t  d?><p:a xmlns:p='u' p:b='1' b='2'>x<![CDATA[]]]]>y<c/></p:a>" ++
        "<!---c-->") = .ok m) ∧
      m.WellFormed := by
  intro m
  have hparse : Markup.parse {} ("<?t  d?><p:a xmlns:p='u' p:b='1' b='2'>x<![CDATA[]]]]>" ++
      "y<c/></p:a><!---c-->") = .ok m := by
    decide +kernel
  exact ⟨⟨rfl, hparse⟩, Markup.wellFormed_of_parse rfl hparse⟩

end MarkupFields
