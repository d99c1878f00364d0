import MarkupFields.Proofs.Bindings
import MarkupFields.Proofs.Markup.Limits
import MarkupFields.Proofs.Writer.Located
import MarkupFields.Proofs.Writer.Resolved

/-
  What is read from the text of a writer, over all its runs: from any bindings and any seed, with
  bindings added and fields written in any order. As long as the attributes of paths are clear, the
  document stays lawful (`Run.lawful`), and its text is well-formed (`Run.readFrom_toXml`). As long as
  all names of paths are clear, what is read from the text is the document, with the namespaces that
  it records (`Run.markup_of_parse`).
-/

namespace MarkupFields

open Text Scan

/-! ## Bindings -/

/-- What was bound stays so, and the new binding is bound. -/
theorem Namespaces.declare_eq_ok {n n' : Namespaces} {p uri : String}
    (h : n.declare p uri = .ok n') :
    n'.uri? p = some uri ∧ (∀ q u, n.uri? q = some u → n'.uri? q = some u) ∧
      ∀ b ∈ n'.bindings, b ∈ n.bindings ∨ b = (p, uri) := by
  have hafter := uri?_eq_some_iff_of_declare h
  refine ⟨(hafter p uri).2 (.inl ⟨rfl, rfl⟩), fun q u hq => (hafter q u).2 (.inr hq),
    fun b hb => ?_⟩
  rcases declare_cases n p uri with ⟨-, hd⟩ | ⟨-, hd⟩ | ⟨v, -, -, hd⟩
  · rw [hd, Except.ok.injEq] at h
    rw [← h] at hb
    exact (List.mem_append.1 hb).imp_right List.mem_singleton.1
  · rw [hd, Except.ok.injEq] at h
    exact .inl (h ▸ hb)
  · rw [hd] at h
    cases h

theorem Namespaces.declareAll_eq_ok {n n' : Namespaces} {ds : List (String × String)}
    (h : n.declareAll ds = .ok n') :
    (∀ d ∈ ds, n'.uri? d.1 = some d.2) ∧ (∀ q u, n.uri? q = some u → n'.uri? q = some u) ∧
      ∀ b ∈ n'.bindings, b ∈ n.bindings ∨ b ∈ ds := by
  induction ds generalizing n with
  | nil =>
    rw [declareAll, Except.ok.injEq] at h
    subst h
    exact ⟨fun d hd => absurd hd List.not_mem_nil, fun _ _ hq => hq, fun _ hb => .inl hb⟩
  | cons d ds ih =>
    rw [declareAll] at h
    obtain ⟨n₁, hn₁, h⟩ := bind_eq_ok.1 h
    obtain ⟨hbound, hkept, hnew⟩ := declare_eq_ok hn₁
    obtain ⟨hall, hkept', hnew'⟩ := ih h
    refine ⟨?_, fun q u hq => hkept' q u (hkept q u hq), fun b hb => ?_⟩
    · rw [List.forall_mem_cons]
      exact ⟨hkept' _ _ hbound, hall⟩
    · rcases hnew' b hb with hb | hb
      · rcases hnew b hb with hb | rfl
        · exact .inl hb
        · exact .inr List.mem_cons_self
      · exact .inr (List.mem_cons_of_mem d hb)

theorem OrdinaryBinding.writable {d : String × String} (h : OrdinaryBinding d) :
    Scope.Bindable d ∧ ∀ c ∈ d.2.toList, isXmlChar c = true :=
  ⟨h.bindable, h.characters⟩

section
variable {exact : Prop} {n n' : Namespaces}

theorem Forest.LawfulTop.mono {top : Forest Node} (h : top.LawfulTop exact n)
    (hn : ∀ q u, n.uri? q = some u → n'.uri? q = some u) : top.LawfulTop exact n' := by
  rcases h with rfl | ⟨before, r, after, hamong, hlawful, hknows⟩
  · exact .inl rfl
  · exact .inr ⟨before, r, after, hamong, hlawful, fun d hd => hn _ _ (hknows d hd)⟩

/-! ## Seeds -/

/-- Comments and instructions of markup are comments and instructions of a document. -/
theorem Forest.Miscellaneous.trees {f : Forest Node} (h : (f.map Node.content).Miscellaneous) :
    ∀ t ∈ f.trees, NodeTree.Miscellany t := by
  induction f with
  | nil => exact fun t ht => absurd ht List.not_mem_nil
  | cons k below beside _ ih =>
    obtain ⟨⟨hkind, hleaf, hbelow⟩, hrest⟩ := h
    rw [Forest.trees, List.forall_mem_cons]
    refine ⟨⟨hkind, hleaf, ?_⟩, ih hrest⟩
    cases below with
    | nil => rfl
    | cons => cases hbelow

/-- The root element of legal markup is lawful, among comments and instructions. -/
theorem Markup.Legal.root {m : Markup} (h : m.Legal true) (exact : Prop) {top : Forest Node}
    (ht : top.map Node.content = m.top) :
    ∃ before k e below after, top.RootAmong before (⟨k, .element e⟩, below) after ∧
      NodeTree.Lawful exact Scope.outermost (⟨k, .element e⟩, below) ∧
      m.top.roots.filter Content.isElement = [.element e] := by
  obtain ⟨before, e, children, behind, htop, hbefore, hbehind, hroot⟩ := h.top
  obtain ⟨f₁, f₂, rfl, rfl, h₂⟩ := Forest.map_eq_append (ht.trans htop)
  cases f₂ with
  | nil => cases h₂
  | cons k below beside =>
    obtain ⟨k, c⟩ := k
    obtain ⟨rfl, rfl, rfl⟩ := Forest.cons.inj h₂
    refine ⟨f₁.trees, k, e, below, beside.trees, ⟨?_, hbefore.trees, hbehind.trees⟩, ?_, ?_⟩
    · rw [Forest.trees_append]
      rfl
    · exact (hroot.lawful (g := Forest.single (⟨k, .element e⟩, below)) rfl).1.tree rfl
    · rw [htop, Forest.roots_append, List.filter_append, hbefore.filter_isElement, Forest.roots,
        List.filter_cons_of_pos rfl, hbehind.filter_isElement, List.nil_append]

/-- What a lawful element declares can be declared, and written. -/
theorem NodeTree.Lawful.bindable {t : NodeTree} {s : Scope} (h : NodeTree.Lawful exact s t) :
    ∀ d ∈ Attribute.declarations t.1.content.attributes,
      Scope.Bindable d ∧ ∀ c ∈ d.2.toList, isXmlChar c = true := by
  intro d hd
  refine ⟨h.declarable d hd, ?_⟩
  cases h with
  | intro opens =>
    obtain ⟨a, ha, hdeclares⟩ := List.mem_filterMap.1 hd
    obtain ⟨p, -, rfl⟩ := Option.map_eq_some_iff.1 hdeclares
    exact (opens.attributes.each a ha).value

end

namespace FieldWriter

/-! ## Runs -/

/-- The states of a writer whose paths are as required in the state in which they are written. It is
made of ordinary bindings, with or without a seed, and only ordinary bindings are added. -/
inductive Run (required : FieldWriter → Path → Prop) : FieldWriter → Prop
  | new {maxIndex : Nat} {n : Namespaces} {seed : Option String} {w : FieldWriter}
      (ordinary : ∀ b ∈ n.bindings, OrdinaryBinding b)
      (made : FieldWriter.new maxIndex n seed = .ok w) : Run required w
  | declare {w w' : FieldWriter} {p uri : String} (before : Run required w)
      (ordinary : OrdinaryBinding (p, uri)) (declared : w.declareNamespace p uri = .ok w') :
      Run required w'
  | write {w : FieldWriter} (before : Run required w) {f : Field}
      (clear : ∀ p, Path.parse f.path = .ok p → required w p) (log : List Audit) :
      Run required (w.writeField f log).2.1

/-- A run can start without a seed. -/
theorem run_blank {required : FieldWriter → Path → Prop} (maxIndex : Nat) {n : Namespaces}
    (hn : ∀ b ∈ n.bindings, OrdinaryBinding b) : (blank maxIndex n).Run required :=
  .new hn (show FieldWriter.new maxIndex n none = .ok (blank maxIndex n) from rfl)

/-- The bindings can be declared, and the top level is lawful. -/
structure Lawful (exact : Prop) (w : FieldWriter) : Prop where
  bindable : w.namespaces.Bindable
  top : ∃ top, w.document.IsTree top ∧ top.LawfulTop exact w.namespaces

variable {exact : Prop} {w w' : FieldWriter}

/-- A writer that starts from a seed holds what is read from it, and adds what its root declares to
the bindings. -/
theorem new_eq_ok_of_seed (exact : Prop) {maxIndex : Nat} {n : Namespaces} {text : String}
    (hblank : allBlank text.toList = false)
    (h : FieldWriter.new maxIndex n (some text) = .ok w) :
    ∃ m top before k e below after, Markup.parse {} text = .ok m ∧
      w.document = Document.ofMarkup m ∧ w.document.IsTree top ∧
      top.RootAmong before (⟨k, .element e⟩, below) after ∧
      NodeTree.Lawful exact Scope.outermost (⟨k, .element e⟩, below) ∧
      n.declareAll (Attribute.declarations e.attributes) = .ok w.namespaces := by
  unfold FieldWriter.new at h
  simp only [hblank, Bool.false_eq_true, if_false] at h
  split at h
  · cases h
  · rename_i m hm
    obtain ⟨before, k, e, below, after, hamong, hlawful, hroot⟩ :=
      (Markup.legal_of_read hm).root exact
        (Document.map_content_number (Document.root + 1) m.top)
    simp only [hroot, List.head?_cons] at h
    split at h
    · cases h
    · rename_i n' hn'
      rw [Except.ok.injEq] at h
      subst h
      exact ⟨m, _, before, k, e, below, after, hm, rfl, rfl, hamong, hlawful, hn'⟩

theorem lawful_of_new {maxIndex : Nat} {n : Namespaces} {seed : Option String}
    (hn : ∀ b ∈ n.bindings, OrdinaryBinding b)
    (h : FieldWriter.new maxIndex n seed = .ok w) : w.Lawful exact := by
  have hbindable : n.Bindable := fun b hb => (hn b hb).writable
  have hempty : (blank maxIndex n).Lawful exact := ⟨hbindable, .nil, rfl, .inl rfl⟩
  cases seed with
  | none => exact Except.ok.inj h ▸ hempty
  | some text =>
    cases hblank : allBlank text.toList with
    | true =>
      unfold FieldWriter.new at h
      simp only [hblank, if_true, Except.ok.injEq] at h
      exact h ▸ hempty
    | false =>
      obtain ⟨m, top, before, k, e, below, after, -, -, htree, hamong, hlawful, hdeclared⟩ :=
        new_eq_ok_of_seed exact hblank h
      obtain ⟨hknows, -, hnew⟩ := Namespaces.declareAll_eq_ok hdeclared
      refine ⟨fun b hb => ?_, top, htree, .inr ⟨before, _, after, hamong, hlawful, hknows⟩⟩
      rcases hnew b hb with hb | hb
      · exact hbindable b hb
      · exact hlawful.bindable b hb

theorem Lawful.declare (h : w.Lawful exact) {p uri : String} (hp : OrdinaryBinding (p, uri))
    (hd : w.declareNamespace p uri = .ok w') : w'.Lawful exact := by
  unfold declareNamespace at hd
  split at hd
  · rename_i n' hn'
    rw [Except.ok.injEq] at hd
    subst hd
    obtain ⟨-, hkept, hnew⟩ := Namespaces.declare_eq_ok hn'
    obtain ⟨top, htree, htop⟩ := h.top
    refine ⟨fun b hb => ?_, top, htree, htop.mono hkept⟩
    rcases hnew b hb with hb | rfl
    · exact h.bindable b hb
    · exact hp.writable
  · cases hd

theorem markup_of_isTree {d : Document} {top : Forest Node} (h : d.IsTree top) :
    d.markup = ⟨d.declaration, top.map Node.content⟩ := by
  unfold Document.markup
  rw [h.below_root]

/-- What nodes below the top level declare is what the document declares there. -/
theorem declaresOnly_of_isTree {d : Document} {top : Forest Node} (h : d.IsTree top) :
    ∀ t ∈ top.trees, t.2.DeclaresOnly (· ∈ d.markup.declaredBelow) := by
  intro t ht m hm c hc
  rw [markup_of_isTree h]
  unfold Markup.declaredBelow Namespaces.declarationsIn
  rw [Forest.trees_map, List.mem_flatMap]
  refine ⟨_, List.mem_map_of_mem ht, List.mem_flatMap.2 ⟨m.content, ?_, hc⟩⟩
  rw [Forest.preorder_map]
  exact List.mem_map_of_mem hm

/-- Writing a field whose path is clear leaves a lawful document lawful; exactly so if all of its names
are clear. -/
theorem Lawful.writeField (h : w.Lawful exact) {f : Field}
    (hclear : ∀ p, Path.parse f.path = .ok p → w.Clear p ∧ (exact → w.ClearNames p))
    (log : List Audit) : (w.writeField f log).2.1.Lawful exact := by
  rcases w.writeField_cases f log with ⟨e, he⟩ | ⟨p, -, -, he⟩ | ⟨p, text, plan, hp, ht, hplan, he⟩
  · rw [he]
    exact h
  · rw [he]
    exact h
  · rw [he]
    have hparse := (pathOf_eq_ok hp).1
    have hparsed := Path.parsed_of_parse hparse
    obtain ⟨hpath, hnames⟩ := hclear p hparse
    have hpositions := one_le_position_of_planFor hparsed hplan
    obtain ⟨top, htree, hlawful⟩ := h.top
    obtain ⟨top₀, top', htree₀, htree', -, hwritten⟩ :=
      written_write (fun q hq => hpositions q (List.mem_cons_of_mem _ hq)) htree
    obtain rfl : top₀ = top := (Forest.cons.inj (htree₀.symm.trans htree)).2.1
    have hmarkup := markup_of_isTree htree
    have hafter := hwritten.lawful h.bindable (gives_of_planFor hplan)
      (fun s hs => meantIn_of_planFor h.bindable hparsed hplan hs (isXmlChar_of_textOf? ht) hpath
        hnames)
      hlawful (declaresOnly_of_isTree htree) fun hx hd => ?_
    · exact ⟨h.bindable, top', htree', .inr hafter⟩
    · -- a default namespace is newly declared only where it catches nothing
      have hplain := exists_plain_step_of_planFor hparsed hplan hd
      obtain ⟨d, hd, hempty⟩ := List.mem_map.1 hd
      have hbound := (gives_of_planFor hplan d hd).meaning
      rw [hempty] at hbound
      obtain ⟨-, hcatches⟩ := (hnames hx).default hplain d.2 hbound
      rw [hmarkup] at hcatches
      rcases hcatches with ⟨c, hc, hdeclares⟩ | hbare
      · rw [Forest.roots_eq_map_trees, Forest.trees_map, List.map_map, List.mem_map] at hc
        obtain ⟨t, ht, rfl⟩ := hc
        exact .inl ⟨t, ht, hdeclares⟩
      · refine .inr fun m hm => hbare m.content ?_
        rw [Forest.preorder_map]
        exact List.mem_map_of_mem hm

/-- Through a run the document stays lawful. -/
theorem Run.lawful {required : FieldWriter → Path → Prop}
    (hrequired : ∀ w p, required w p → w.Clear p ∧ (exact → w.ClearNames p))
    (h : w.Run required) : w.Lawful exact := by
  induction h with
  | new ordinary made => exact lawful_of_new ordinary made
  | declare _ ordinary declared ih => exact ih.declare ordinary declared
  | write _ clear log ih => exact ih.writeField (fun p hp => hrequired _ p (clear p hp)) log

/-! ## What is read from the text -/

/-- Comments and instructions of a document are comments and instructions of markup. -/
theorem miscellaneous_of_trees {f : Forest Node} (h : ∀ t ∈ f.trees, NodeTree.Miscellany t) :
    (f.map Node.content).Miscellaneous := by
  induction f with
  | nil => trivial
  | cons k below beside _ ih =>
    rw [Forest.trees, List.forall_mem_cons] at h
    obtain ⟨⟨hkind, hleaf, hbelow⟩, hrest⟩ := h
    refine ⟨⟨hkind, hleaf, ?_⟩, ih hrest⟩
    rw [show below = .nil from hbelow]
    rfl

/-- Markup that is the document but for the namespaces of elements is written like it. -/
theorem render_eq_toXml {m : Markup}
    (h : m.top.map Content.asWritten = w.document.markup.top.map Content.asWritten) :
    m.render { declaration := false } = w.toXml := by
  unfold toXml Document.render Markup.render Render.document
  have hleft := Render.forest_asWritten (w := { declaration := false }) rfl 0 m.top
  have hright :=
    Render.forest_asWritten (w := { declaration := false }) rfl 0 w.document.markup.top
  rw [h] at hleft
  exact congrArg String.ofList (hleft.symm.trans hright)

/-- A lawful document that is not empty is legal markup but for the namespaces of elements, and with
these if it is lawful exactly. -/
theorem Lawful.legal (h : w.Lawful exact) :
    w.document.markup.top = .nil ∨ ∃ m : Markup, m.Legal true ∧
      m.top.map Content.asWritten = w.document.markup.top.map Content.asWritten ∧
      (exact → m.top = w.document.markup.top) := by
  obtain ⟨top, htree, rfl | ⟨before, r, after, hamong, hlawful, -⟩⟩ := h.top
  · left
    rw [markup_of_isTree htree]
    rfl
  · right
    obtain ⟨e, below, hlegal, hwritten, hexact⟩ := hlawful.legal
    let f : List NodeTree → Forest Content := fun ts => (Forest.ofTrees ts).map Node.content
    let m : Markup := ⟨.absent, f before ++ .cons (.element e) below (f after)⟩
    have hmisc : ∀ ts : List NodeTree, (∀ t ∈ ts, NodeTree.Miscellany t) → (f ts).Miscellaneous :=
      fun ts hts => miscellaneous_of_trees (by rwa [Forest.trees_ofTrees])
    have hm : m.Legal true :=
      ⟨fun v hv => (nomatch hv), f before, e, below, f after, rfl, hmisc before hamong.before,
        hmisc after hamong.after, hlegal⟩
    have htop : w.document.markup.top =
        f before ++ ((Forest.single r).map Node.content ++ f after) := by
      have hsplit : top = Forest.ofTrees before ++ (Forest.single r ++ Forest.ofTrees after) := by
        apply Forest.ext_trees
        rw [hamong.split, Forest.trees_append, Forest.trees_append, Forest.trees_ofTrees,
          Forest.trees_ofTrees]
        rfl
      rw [markup_of_isTree htree, hsplit, Forest.map_append, Forest.map_append]
    have hroot : m.top = f before ++ (.cons (.element e) below .nil ++ f after) := rfl
    refine ⟨m, hm, ?_, fun hx => ?_⟩
    · rw [hroot, htop, Forest.map_append, Forest.map_append, hwritten, Forest.map_append,
        Forest.map_append]
    · rw [htop, ← hexact hx, hroot]

/-- A lawful document that is not empty is written like legal markup, which is the document if it is
lawful exactly. -/
theorem Lawful.written (h : w.Lawful exact) :
    w.document.markup.top = .nil ∨ ∃ m : Markup, m.Legal true ∧
      m.render { declaration := false } = w.toXml ∧ (exact → m.top = w.document.markup.top) :=
  h.legal.imp_right fun ⟨m, hm, hsame, hexact⟩ => ⟨m, hm, render_eq_toXml hsame, hexact⟩

/-- The text of a lawful document that is not empty can be read; what is read is the document, if it
is lawful exactly. -/
theorem Lawful.readFrom (h : w.Lawful exact) :
    w.document.markup.top = .nil ∨ ∃ m : Markup, m.ReadFrom w.toXml ∧
      (exact → m = ⟨.absent, w.document.markup.top⟩) := by
  refine h.written.imp_right fun ⟨m, hm, htext, hexact⟩ => ?_
  exact ⟨⟨.absent, m.top⟩, htext ▸ Markup.readFrom_render hm, fun hx => by rw [hexact hx]⟩

theorem toXml_of_empty (h : w.document.markup.top = .nil) : w.toXml = "" := by
  unfold toXml Document.render Markup.render Render.document
  rw [h]
  rfl

/-- The text of a writer is empty or well-formed, as long as no path writes a declaration as an
attribute, or an attribute with a prefix that an element below the root declares as something else
than the writer has it bound to. -/
theorem Run.readFrom_toXml (h : w.Run Clear) :
    w.toXml = "" ∨ ∃ m : Markup, m.ReadFrom w.toXml := by
  have hlawful : w.Lawful False := h.lawful fun _ _ hp => ⟨hp, False.elim⟩
  exact hlawful.readFrom.imp toXml_of_empty fun ⟨m, hm, _⟩ => ⟨m, hm⟩

/-- A seed that declares a prefix inside its root, and another prefix that is bound later. -/
theorem Run.readFrom_toXml_seeded :
    let m : Markup := ⟨.absent,
      .cons (.element ⟨.plain "a", none, [⟨⟨some "xmlns", "x"⟩, none, "u"⟩]⟩)
        (.cons (.element ⟨.plain "b", none, [⟨⟨some "xmlns", "y"⟩, none, "v"⟩]⟩) .nil .nil) .nil⟩
    let w : FieldWriter := ⟨10, .ofMarkup m, ⟨[("x", "u"), ("z", "w")]⟩⟩
    let w' := (w.writeField ⟨"/a/b/@z:c", some (.string "<"), none, false⟩ []).2.1
    w'.Run Clear ∧ (w'.toXml = "" ∨ ∃ m' : Markup, m'.ReadFrom w'.toXml) := by
  intro m w w'
  have hnew : FieldWriter.new 10 .empty (some "<a xmlns:x='u'><b xmlns:y='v'/></a>") =
      .ok ⟨10, .ofMarkup m, ⟨[("x", "u")]⟩⟩ := by decide +kernel
  have hordinary : OrdinaryBinding ("z", "w") := by decide +kernel
  have hw : w.Run Clear :=
    .declare (.new (fun b hb => absurd hb List.not_mem_nil) hnew) hordinary (by decide +kernel)
  have hpath : Path.parse "/a/b/@z:c" =
      .ok ⟨[⟨.plain "a", none⟩, ⟨.plain "b", none⟩], some ⟨some "z", "c"⟩⟩ := by decide
  have hw' : w'.Run Clear := by
    refine .write hw (fun p hp => ?_) []
    rw [hpath] at hp
    rw [← Except.ok.inj hp]
    decide +kernel
  exact ⟨hw', hw'.readFrom_toXml⟩

/-- A path that ends in a declaration adds an attribute with each write. -/
theorem Run.duplicate_declaration :
    let f : String → Field := fun v => ⟨"/a/@xmlns", some (.string v), none, false⟩
    let w := (((blank 10 .empty).writeField (f "u") []).2.1.writeField (f "v") []).2.1
    w.Run (fun _ _ => True) ∧ w.toXml = "<a xmlns=\"u\" xmlns=\"v\"/>" ∧
      ∀ m, Markup.parse {} w.toXml ≠ .ok m := by
  intro f w
  have hblank : (blank 10 .empty).Run (fun _ _ => True) :=
    run_blank 10 fun b hb => absurd hb List.not_mem_nil
  have hw : w.Run (fun _ _ => True) :=
    .write (.write hblank (fun _ _ => trivial) []) (fun _ _ => trivial) []
  have htext : w.toXml = "<a xmlns=\"u\" xmlns=\"v\"/>" := by decide +kernel
  have hrefused : (Markup.parse {} "<a xmlns=\"u\" xmlns=\"v\"/>").toOption = none := by
    decide +kernel
  refine ⟨hw, htext, fun m hm => ?_⟩
  rw [← htext, hm] at hrefused
  cases hrefused

/-- What is read from the text of a writer is its document, each element and attribute in the
namespace that the document records, as long as all names of paths are clear. -/
theorem Run.markup_of_parse (h : w.Run ClearNames) {o : ReadOptions}
    (ha : o.namespaceAware = true) (hb : o.dropBlanks = false) {m : Markup}
    (hm : Markup.parse o w.toXml = .ok m) : m = ⟨.absent, w.document.markup.top⟩ := by
  have hlawful : w.Lawful True := h.lawful fun _ _ hp => ⟨hp.toClear, fun _ => hp⟩
  rcases hlawful.readFrom with hempty | ⟨m', hm', hexact⟩
  · rw [toXml_of_empty hempty] at hm
    exact absurd hm (Markup.parse_empty o m)
  · rw [(Markup.readFrom_of_parse ha hb hm).unique hm']
    exact hexact trivial

/-- A default namespace that the root of the seed declares, and a prefix that is bound later and
declared on the root when it is used. -/
theorem Run.markup_of_parse_seeded :
    let m : Markup := ⟨.absent, .cons (.element ⟨.plain "a", some "d", [⟨.plain "xmlns", none, "d"⟩]⟩)
      (.cons (.element ⟨.plain "b", some "d", []⟩) .nil .nil) .nil⟩
    let w : FieldWriter := ⟨10, .ofMarkup m, ⟨[("", "d"), ("x", "u")]⟩⟩
    let w' := (w.writeField ⟨"/a/b/x:c/e", none, none, false⟩ []).2.1
    let m' : Markup := ⟨.absent,
      .cons (.element ⟨.plain "a", some "d",
          [⟨.plain "xmlns", none, "d"⟩, ⟨⟨some "xmlns", "x"⟩, none, "u"⟩]⟩)
        (.cons (.element ⟨.plain "b", some "d", []⟩)
          (.cons (.element ⟨⟨some "x", "c"⟩, some "u", []⟩)
            (.cons (.element ⟨.plain "e", some "d", []⟩) .nil .nil) .nil) .nil) .nil⟩
    w'.Run ClearNames ∧ Markup.parse {} w'.toXml = .ok m' ∧
      m' = ⟨.absent, w'.document.markup.top⟩ := by
  intro m w w' m'
  have hnew : FieldWriter.new 10 .empty (some "<a xmlns='d'><b/></a>") =
      .ok ⟨10, .ofMarkup m, ⟨[("", "d")]⟩⟩ := by decide +kernel
  have hordinary : OrdinaryBinding ("x", "u") := by decide +kernel
  have hw : w.Run ClearNames :=
    .declare (.new (fun b hb => absurd hb List.not_mem_nil) hnew) hordinary (by decide +kernel)
  have hpath : Path.parse "/a/b/x:c/e" =
      .ok ⟨[⟨.plain "a", none⟩, ⟨.plain "b", none⟩, ⟨⟨some "x", "c"⟩, none⟩, ⟨.plain "e", none⟩],
        none⟩ := by decide
  have hw' : w'.Run ClearNames := by
    refine .write hw (fun p hp => ?_) []
    rw [hpath] at hp
    rw [← Except.ok.inj hp]
    decide +kernel
  have hread : Markup.parse {} w'.toXml = .ok m' := by decide +kernel
  exact ⟨hw', hread, hw'.markup_of_parse rfl rfl hread⟩

/-- A default namespace that is declared on the root for a new element also catches one that is there
already: it is recorded in no namespace, and read in the default one. -/
theorem Run.captured_by_default :
    let w := ((blank 10 ⟨[("x", "u")]⟩).writeField ⟨"/x:a/b", none, none, false⟩ []).2.1
    let w' := (({ w with namespaces := ⟨[("x", "u"), ("", "d")]⟩ } : FieldWriter).writeField
      ⟨"/x:a/c", none, none, false⟩ []).2.1
    let top : Option String → Forest Content := fun uri =>
      .cons (.element ⟨⟨some "x", "a"⟩, some "u",
          [⟨⟨some "xmlns", "x"⟩, none, "u"⟩, ⟨.plain "xmlns", none, "d"⟩]⟩)
        (.cons (.element ⟨.plain "b", uri, []⟩) .nil
          (.cons (.element ⟨.plain "c", some "d", []⟩) .nil .nil)) .nil
    w'.Run (fun _ p => p.attr = none) ∧ w'.document.markup.top = top none ∧
      Markup.parse {} w'.toXml = .ok ⟨.absent, top (some "d")⟩ := by
  intro w w' top
  have hx : OrdinaryBinding ("x", "u") := by decide +kernel
  have hd : OrdinaryBinding ("", "d") := by decide +kernel
  have hplain : ∀ {t : String} {p : Path}, (Path.parse t).map Path.attr = .ok none →
      Path.parse t = .ok p → p.attr = none := by
    intro t p ht hp
    rw [hp] at ht
    exact Except.ok.inj ht
  have hblank : (blank 10 ⟨[("x", "u")]⟩).Run (fun _ p => p.attr = none) :=
    run_blank 10 fun b hb => List.mem_singleton.1 hb ▸ hx
  have hw : w.Run (fun _ p => p.attr = none) :=
    .write hblank (fun p => hplain (by decide)) []
  refine ⟨.write (.declare hw hd (by decide +kernel)) (fun p => hplain (by decide)) [], ?_, ?_⟩
  · decide +kernel
  · decide +kernel

end FieldWriter

end MarkupFields
