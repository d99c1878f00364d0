import MarkupFields.Proofs.Markup.Room

/-
  The limits of reading are exact. Legal markup within the limits is read back from its written form,
  and legal markup beyond one of them is refused (`Markup.parse_render_iff`). Its height and its names
  are those of what was read. References leave no trace in what was read, but they are counted while
  it is read: the count never passes the limit (`Scan.startTag_used`), and over what is written for a
  forest it grows by the references of the forest, so a reading that comes to an end had room for
  them (`ReadState.references_le_of_run`).
-/

namespace MarkupFields

open Text Scan

/-! ## The count of references -/

namespace Scan

variable {o : ReadOptions}

theorem referencedRun_used {front : List Char → Front} {change : Char → Char} {used used' : Nat}
    {cs v rest : List Char} (h : referencedRun o front change used cs = .ok (v, used', rest))
    (hu : used ≤ o.maxReferences) : used' ≤ o.maxReferences := by
  fun_induction referencedRun o front change used cs generalizing v with
  | case1 => exact (Prod.mk.inj (Prod.mk.inj (Except.ok.inj h)).2).1 ▸ hu
  | case2 => cases h
  | case3 => cases h
  | case4 => cases h
  | case5 => cases h
  | case6 used next hused c mid hmid hfront ih =>
    obtain ⟨⟨more, used₁, rest₁⟩, hmore, h⟩ := bind_eq_ok.1 h
    obtain ⟨-, rfl, rfl⟩ := Except.ok.inj h
    exact ih hmore (by omega)
  | case7 used c next hc hfront ih =>
    obtain ⟨first, -, h⟩ := bind_eq_ok.1 h
    obtain ⟨⟨more, used₁, rest₁⟩, hmore, h⟩ := bind_eq_ok.1 h
    obtain ⟨-, rfl, rfl⟩ := Except.ok.inj h
    exact ih hmore hu

theorem attributeValue_used {used used' : Nat} {cs v rest : List Char}
    (h : attributeValue o used cs = .ok (v, used', rest)) (hu : used ≤ o.maxReferences) :
    used' ≤ o.maxReferences := by
  cases cs with
  | nil => cases h
  | cons q cs =>
    simp only [attributeValue] at h
    split at h
    · exact referencedRun_used h hu
    · cases h

theorem attributePair_used {used used' : Nat} {cs rest : List Char} {a : Attribute}
    (h : attributePair o used cs = .ok (a, used', rest)) (hu : used ≤ o.maxReferences) :
    used' ≤ o.maxReferences := by
  obtain ⟨word, -, h⟩ := bind_eq_ok.1 h
  obtain ⟨mid, -, h⟩ := bind_eq_ok.1 h
  obtain ⟨⟨v, used₁, rest₁⟩, hv, h⟩ := bind_eq_ok.1 h
  dsimp only at h
  split at h
  · cases h
  · obtain ⟨-, rfl, rfl⟩ := Except.ok.inj h
    exact attributeValue_used hv hu

theorem attributePairs_used {earlier as : List Attribute} {used used' : Nat} {cs rest : List Char}
    (h : attributePairs o earlier used cs = .ok (as, used', rest)) (hu : used ≤ o.maxReferences) :
    used' ≤ o.maxReferences := by
  fun_induction attributePairs o earlier used cs with
  | case1 => exact (Prod.mk.inj (Prod.mk.inj (Except.ok.inj h)).2).1 ▸ hu
  | case2 => cases h
  | case3 => cases h
  | case4 => cases h
  | case5 earlier used cs hend hspace a used₁ mid hmid hnew ih =>
    exact ih h (attributePair_used hmid hu)

/-- The count of references never passes the limit. -/
theorem startTag_used {s : Scope} {used used' : Nat} {cs rest : List Char} {r : Scope × Element}
    (h : startTag o s used cs = .ok (r, used', rest)) (hu : used ≤ o.maxReferences) :
    used' ≤ o.maxReferences := by
  obtain ⟨word, -, h⟩ := bind_eq_ok.1 h
  obtain ⟨⟨as, used₁, rest₁⟩, has, h⟩ := bind_eq_ok.1 h
  obtain ⟨e, -, h⟩ := bind_eq_ok.1 h
  obtain ⟨-, rfl, rfl⟩ := Except.ok.inj h
  exact attributePairs_used has hu

end Scan

/-- Only the limit on references is another one, and it is not lower. -/
theorem ReadOptions.allows_references (o : ReadOptions) {n : Nat} (hn : o.maxReferences ≤ n) :
    o.Allows { o with maxReferences := n } :=
  ⟨rfl, rfl, Nat.le_refl _, Nat.le_refl _, hn⟩

namespace Scan

variable {o : ReadOptions}

/-- A start tag that is read back had room for the references of its element. -/
theorem references_le_of_startTag {used : Nat} (hu : used ≤ o.maxReferences) {s inside : Scope}
    {e : Element} (hw : e.Writable o.namespaceAware) (hn : e.ReadIn o.namespaceAware s inside)
    (hl : (Content.element e).NamesWithin o.maxNameLength) {tail : List Char}
    (ht : atTagEnd tail = true) {r : (Scope × Element) × Nat × List Char}
    (h : startTag o s used (e.name.written.toList ++
      (e.attributes.flatMap Render.attributePair ++ tail)) = .ok r) :
    used + (Content.element e).references ≤ o.maxReferences := by
  let o' : ReadOptions :=
    { o with maxReferences := o.maxReferences + (used + (Content.element e).references) }
  have hread := startTag_written (o := o') used hw hn hl (Nat.le_add_left _ _) ht
  have ho : o.Allows o' := o.allows_references (Nat.le_add_right _ _)
  have hsame := startTag_of_allows ho h
  rw [hread, Except.ok.injEq] at hsame
  rw [← hsame] at h
  exact startTag_used h hu

end Scan

/-! ## Forests -/

namespace ReadState

variable {o : ReadOptions} {w : WriteOptions}

theorem startTag_of_nestElement {around : List OpenElement} {used : Nat} {whole cs : List Char}
    {p : ReadProgress} (h : nestElement o around used whole cs = .ok p) :
    ∃ r, startTag o (scopeIn around) used cs = .ok r := by
  unfold nestElement at h
  split at h
  · cases h
  · obtain ⟨r, hr, -⟩ := bind_eq_ok.1 h
    exact ⟨r, hr⟩

/-- A reading that comes to an end had room for the references of the written forest it went over. -/
def Counts (o : ReadOptions) (w : WriteOptions) (depth : Nat) (s : Scope) (f : Forest Content) :
    Prop :=
  ∀ (inner : OpenElement) (around : List OpenElement) (used : Nat) (tail : List Char)
    (r : ContentTree × List Char), inner.scope = s →
    around.length + 1 + f.height ≤ o.maxDepth → used ≤ o.maxReferences → BeforeMarkup tail →
    run o ⟨inner, around, used, Render.forest w .running depth f ++ tail⟩ = .ok r →
    used + f.references ≤ o.maxReferences

/-- An element that is read from its opening bracket on, to the end, had room for its references. -/
theorem references_le_of_nestElement {depth : Nat} {s inside : Scope} {e : Element}
    {children : Forest Content} (hw : e.Writable o.namespaceAware)
    (hread : e.ReadIn o.namespaceAware s inside)
    (hn : (Content.element e).NamesWithin o.maxNameLength) (hc : Counts o w depth inside children)
    {around : List OpenElement} (ha : scopeIn around = s)
    (hd : around.length + 1 + children.height ≤ o.maxDepth) {used : Nat}
    (hu : used ≤ o.maxReferences) {whole tail : List Char} {r : ContentTree × List Char}
    (h : nestElement o around used whole
        (e.name.written.toList ++ (e.attributes.flatMap Render.attributePair ++
          (Render.inner w depth e children ++ tail))) >>= resume o = .ok r) :
    used + ((Content.element e).references + children.references) ≤ o.maxReferences := by
  subst ha
  obtain ⟨p, hp, hr⟩ := bind_eq_ok.1 h
  obtain ⟨tag, htag⟩ := startTag_of_nestElement hp
  cases children with
  | nil => exact references_le_of_startTag hu hw hread hn rfl htag
  | cons c below beside =>
    have hinner : Render.inner w depth e (.cons c below beside) ++ tail =
        '>' :: (Render.forest w .running depth (.cons c below beside) ++
          (Render.endTag e ++ tail)) := by
      simp [Render.inner]
    rw [hinner] at hp htag
    have hroom := references_le_of_startTag hu hw hread hn rfl htag
    rw [nestElement_opened hw hread hn (by omega) hroom, Except.ok.injEq] at hp
    subst hp
    rw [← Nat.add_assoc]
    exact hc ⟨e, inside, []⟩ around _ (Render.endTag e ++ tail) r rfl hd hroom (.inr ⟨_, rfl⟩) hr

theorem Counts.element (hi : w.indent = false) {depth : Nat} {s inside : Scope} {e : Element}
    {children beside : Forest Content} (writable : e.Writable o.namespaceAware)
    (names : e.ReadIn o.namespaceAware s inside)
    (hn : (Content.element e).NamesWithin o.maxNameLength)
    (read : Rereads o w (depth + 1) inside children)
    (content : Counts o w (depth + 1) inside children) (rest : Counts o w depth s beside) :
    Counts o w depth s (.cons (.element e) children beside) := by
  intro inner around used tail r hs hd hu ht h
  rw [Forest.height_element] at hd
  subst hs
  have hroom : used + ((Content.element e).references + children.references) ≤
      o.maxReferences := by
    have hnest := h
    rw [Render.forest_element_append hi, run_eq, step_startTag writable.name.isName] at hnest
    exact references_le_of_nestElement writable names hn content
      (show scopeIn (inner :: around) = inner.scope from rfl) (by rw [List.length_cons]; omega) hu
      hnest
  rw [run_element hi writable names hn read (by omega) hroom] at h
  have hbeside := rest (inner.add (.element e, children)) around _ tail r rfl (by omega) hroom ht h
  rw [Forest.references_cons]
  omega

theorem Counts.leaf (hb : o.dropBlanks = false) {depth : Nat} {s : Scope} {c : Content}
    {beside : Forest Content} (writable : c.LegalLeaf)
    (apart : c.isText = true → beside.startsWithText = false)
    (hn : c.NamesWithin o.maxNameLength) (legal : beside.Legal o.namespaceAware s)
    (rest : Counts o w depth s beside) : Counts o w depth s (.cons c .nil beside) := by
  intro inner around used tail r hs hd hu ht h
  rw [Forest.height_leaf writable.isElement] at hd
  subst hs
  have hroom : used + c.references ≤ o.maxReferences := by
    by_cases htext : c.isText = true
    · cases c with
      | text t =>
        have hmarkup := Render.beforeMarkup_forest (w := w) depth legal (apart rfl) ht
        have hstep := h
        rw [Render.forest_leaf depth rfl, List.append_assoc, run_eq] at hstep
        unfold Render.leaf at hstep
        rw [step_characterData writable.toList_ne_nil] at hstep
        obtain ⟨p, hp, -⟩ := bind_eq_ok.1 hstep
        obtain ⟨data, hdata, -⟩ := bind_eq_ok.1 hp
        exact ((characterData_written_iff hu writable.2 hmarkup data).1 hdata).1.references
      | _ => cases htext
    · rw [Bool.not_eq_true] at htext
      rw [writable.references htext]
      exact hu
  rw [run_leaf hb writable apart hn legal around hroom ht] at h
  have hbeside := rest (inner.addLeaf c) around _ tail r rfl hd hroom ht h
  rw [Forest.references_cons, Forest.references_nil]
  omega

/-- A reading that goes over a written legal forest, and comes to an end, had room for its
references. -/
theorem references_le_of_run (hi : w.indent = false) (hb : o.dropBlanks = false) {s : Scope}
    {f : Forest Content} (hf : f.Legal o.namespaceAware s)
    (hn : ∀ c ∈ f.preorder, c.NamesWithin o.maxNameLength) (depth : Nat) :
    Counts o w depth s f := by
  induction hf generalizing depth with
  | nil =>
    intro inner around used tail r _ _ hu _ _
    exact hu
  | element writable names content rest ihc ihr =>
    obtain ⟨hne, hnc, hnr⟩ := Forest.forall_mem_preorder_cons.1 hn
    exact .element hi writable names hne
      (rereads_of_legal hi hb content hnc (depth + 1)) (ihc hnc (depth + 1)) (ihr hnr depth)
  | leaf writable apart rest ih =>
    obtain ⟨hnc, -, hnr⟩ := Forest.forall_mem_preorder_cons.1 hn
    exact .leaf hb writable apart hnc rest (ih hnr depth)

end ReadState

/-! ## Documents -/

namespace Scan

variable {o : ReadOptions} {w : WriteOptions}

/-- A root element that is read back had room for its references. -/
theorem references_le_of_rootElement (hi : w.indent = false) (hb : o.dropBlanks = false)
    {e : Element} {children : Forest Content} (depth : Nat)
    (hl : (Forest.cons (.element e) children .nil).Legal o.namespaceAware Scope.outermost)
    (hn : ∀ c ∈ (Forest.cons (.element e) children .nil).preorder,
      c.NamesWithin o.maxNameLength)
    (hd : (Forest.cons (.element e) children .nil).height ≤ o.maxDepth) {tail : List Char}
    {r : ContentTree × List Char}
    (h : rootElement o
      (Render.forest w .running depth (.cons (.element e) children .nil) ++ tail) = .ok r) :
    (Forest.cons (.element e) children .nil).references ≤ o.maxReferences := by
  cases hl with
  | leaf writable => exact absurd writable id
  | @element _ inside _ _ _ writable names content rest =>
    obtain ⟨hne, hnc, -⟩ := Forest.forall_mem_preorder_cons.1 hn
    rw [Forest.height_element] at hd
    rw [Render.forest_element_append hi, rootElement_eq writable.name.isName] at h
    have hroom := ReadState.references_le_of_nestElement writable names hne
      (ReadState.references_le_of_run hi hb content hnc (depth + 1))
      (show ReadState.scopeIn [] = Scope.outermost from rfl) (by rw [List.length_nil]; omega)
      (Nat.zero_le _) h
    rw [Forest.references_cons, Forest.references_nil]
    omega

end Scan

/-- What stands around the root element writes no references. -/
theorem Forest.Miscellaneous.references {f : Forest Content} (h : f.Miscellaneous) :
    f.references = 0 := by
  induction f with
  | nil => rfl
  | cons c below beside _ ih =>
    obtain ⟨⟨hm, hleaf, rfl⟩, hrest⟩ := h
    have htext : c.isText = false := by
      cases c <;> first | rfl | cases hm
    rw [references_cons, hleaf.references htext, references_nil, ih hrest]

/-- A document that is read back had room for its references. -/
theorem Scan.references_le_of_document {o : ReadOptions} {w : WriteOptions}
    (hi : w.indent = false) (hb : o.dropBlanks = false) {m m' : Markup}
    (hl : m.Legal o.namespaceAware) (hd : m.top.height ≤ o.maxDepth)
    (hn : ∀ c ∈ m.top.preorder, c.NamesWithin o.maxNameLength)
    (h : document o (Render.forest w .running 0 m.top) = .ok m') :
    m.top.references ≤ o.maxReferences := by
  obtain ⟨hmark, hdeclaration⟩ := hl.declaration_absent (w := w)
  obtain ⟨before, e, below, behind, htop, hbefore, hbehind, hroot⟩ := hl.top
  have hsplit : m.top = before ++ (.cons (.element e) below .nil ++ behind) := htop
  rw [hsplit, Forest.height_append, Forest.height_append] at hd
  rw [hsplit, Forest.preorder_append, Forest.preorder_append] at hn
  have hwritten : Render.forest w .running 0 m.top = Render.forest w .running 0 before ++
      (Render.forest w .running 0 (.cons (.element e) below .nil) ++
        Render.forest w .running 0 behind) := by
    rw [hsplit, Render.forest_append, Render.forest_append]
  obtain ⟨hread, hno⟩ := before_written (o := o) (w := w) hi hbefore
    (fun c hc => hn c (List.mem_append_left _ hc)) hroot.isName below
    (Render.forest w .running 0 behind)
  -- nothing that is read in front of the root element takes anything of it
  unfold document at h
  rw [hmark, hdeclaration, ok_bind] at h
  dsimp only at h
  rw [hwritten, hread, ok_bind] at h
  dsimp only [afterDoctype] at h
  rw [hno, ok_bind] at h
  obtain ⟨root, hrootRead, -⟩ := bind_eq_ok.1 h
  have hroom := references_le_of_rootElement hi hb 0 hroot
    (fun c hc => hn c (List.mem_append_right _ (List.mem_append_left _ hc))) (by omega) hrootRead
  rw [hsplit, Forest.references_append, Forest.references_append, hbefore.references,
    hbehind.references]
  omega

/-- Legal markup that is read back from its written form keeps within the limits. -/
theorem Markup.within_of_parse_render {o : ReadOptions} (ha : o.namespaceAware = true)
    (hb : o.dropBlanks = false) (hname : 4 ≤ o.maxNameLength) {m m' : Markup} (hl : m.Legal true)
    (h : Markup.parse o (m.render { declaration := false }) = .ok m') : m.Within o := by
  have hm' : m' = ⟨.absent, m.top⟩ :=
    (Markup.readFrom_of_parse ha hb h).unique (Markup.readFrom_render hl)
  obtain ⟨-, hdepth, hnames⟩ := Markup.legal_of_parse hname h
  rw [hm'] at hdepth hnames
  rw [parse_eq_ok, Markup.toList_render] at h
  rw [← ha] at hl
  exact ⟨hdepth, hnames, Scan.references_le_of_document rfl hb hl hdepth hnames h⟩

/-- Legal markup is read back from its written form exactly if it keeps within the limits. -/
theorem Markup.parse_render_iff {o : ReadOptions} (ha : o.namespaceAware = true)
    (hb : o.dropBlanks = false) (hname : 4 ≤ o.maxNameLength) {m : Markup} (hl : m.Legal true) :
    (∃ m', Markup.parse o (m.render { declaration := false }) = .ok m') ↔ m.Within o := by
  refine ⟨fun ⟨m', h⟩ => within_of_parse_render ha hb hname hl h, fun h => ?_⟩
  exact ⟨_, Markup.parse_render_of_legal rfl hb (ha.symm ▸ hl) h⟩

end MarkupFields
