import MarkupFields.Proofs.Bindings
import MarkupFields.Proofs.Field.Matching
import MarkupFields.Proofs.Field.ReadBack
import MarkupFields.Proofs.Markup.Reread
import MarkupFields.Proofs.Writer.Located
import Mathlib.Data.List.Find

/-
  Fields that are written and read back. The text of a document that a writer built is read as the
  same tree (`load_toXml`), and the bindings that a reader takes from it are the declarations of the
  root (`ofMarkup_of_built`). The reader therefore goes down to the node that the writer filled, finds
  the text of the value there, and converts it to the value that was stored
  (`readField_of_writeField`).
-/

namespace MarkupFields

open Text Scan

section
variable {n : Namespaces} {ds own : List (String × String)}

/-! ## The bindings of a reader -/

/-- Nothing below the root is declared. -/
theorem Forest.Built.declarationsIn {f : Forest Node} (h : f.Built n ds) :
    Namespaces.declarationsIn (f.map Node.content) = [] := by
  unfold Namespaces.declarationsIn
  induction h with
  | nil => rfl
  | text nonempty characters _ ih =>
    rw [Forest.map, Forest.preorder, List.flatMap_cons, Forest.map, Forest.preorder,
      List.nil_append, ih]
    rfl
  | element built texts _ _ ihc ihr =>
    rw [Forest.map, Forest.preorder, List.flatMap_cons, List.flatMap_append, ihc, ihr]
    exact (List.append_nil _).trans built.attributes.own

theorem Namespaces.foldl_declareIfFree (bs : List (String × String)) {cs : List (String × String)}
    (hdistinct : ((bs ++ cs).map Prod.fst).Nodup) (hxml : ∀ c ∈ cs, c.1 ≠ "xml") :
    cs.foldl declareIfFree ⟨bs⟩ = ⟨bs ++ cs⟩ := by
  induction cs generalizing bs with
  | nil => rw [List.append_nil]; rfl
  | cons c cs ih =>
    have hfree : (⟨bs⟩ : Namespaces).uri? c.1 = none := by
      unfold uri?
      rw [if_neg (hxml c List.mem_cons_self), List.lookup_eq_none_iff]
      intro b hb
      rw [bne_iff_ne]
      rw [List.map_append, List.nodup_append] at hdistinct
      exact (hdistinct.2.2 b.1 (List.mem_map_of_mem hb) c.1 List.mem_cons_self).symm
    have happend : bs ++ c :: cs = bs ++ [c] ++ cs := by
      rw [List.append_assoc]
      rfl
    rw [List.foldl_cons, declareIfFree_of_none hfree, happend]
    rw [happend] at hdistinct
    exact ih (bs ++ [c]) hdistinct fun d hd => hxml d (List.mem_cons_of_mem c hd)

/-- The bindings that a reader takes from a built document are the declarations of its root. -/
theorem Namespaces.ofMarkup_of_built (hn : n.Declarable) (hds : n.Declares ds) {r : NodeTree}
    (h : NodeTree.Built n ds ds r) (d : Declaration) :
    Namespaces.ofMarkup ⟨d, (Forest.single r).map Node.content⟩ = ⟨ds⟩ := by
  have hall : Namespaces.declarationsIn ((Forest.single r).map Node.content) = ds := by
    cases h with
    | intro built texts content =>
      have hinside := content.declarationsIn
      unfold Namespaces.declarationsIn at hinside ⊢
      unfold Forest.single
      rw [Forest.map, Forest.preorder, List.flatMap_cons, List.flatMap_append, hinside]
      exact (List.append_nil _).trans built.attributes.own
  have hfilter : ds.filter (fun b => b.2 != "") = ds := by
    rw [List.filter_eq_self]
    intro b hb
    exact bne_iff_ne.2 (hn.ordinary (hds.each b hb)).nonempty
  unfold Namespaces.ofMarkup Namespaces.ofList
  rw [hall, hfilter]
  exact Namespaces.foldl_declareIfFree [] hds.distinct fun c hc =>
    (hds.each c hc).ordinary.1

/-! ## What stands at the target -/

/-- The character data below the node is directly below it. -/
def NodeTree.DirectData (t : NodeTree) : Prop :=
  ∀ u ∈ t.2.trees, ∀ k ∈ u.2.preorder, k.content.isCharacterData = false

instance (t : NodeTree) : Decidable t.DirectData :=
  inferInstanceAs (Decidable (∀ u ∈ t.2.trees, ∀ k ∈ u.2.preorder, _ = false))

theorem Content.characters_eq_empty {c : Content} (h : c.isCharacterData = false) :
    c.characters = "" := by
  cases c with
  | text s => cases h
  | cdata s => cases h
  | _ => rfl

theorem Content.join_characters {cs : List Content} (h : ∀ c ∈ cs, c.isCharacterData = false) :
    String.join (cs.map characters) = "" := by
  induction cs with
  | nil => rfl
  | cons c cs ih =>
    have hrest := ih fun d hd => h d (List.mem_cons_of_mem c hd)
    rw [List.map_cons, String.join_cons, characters_eq_empty (h c List.mem_cons_self), hrest]
    rfl

/-- After a text was put into a node its text content is the text, if nothing further down has any. -/
theorem Payload.Filled.textContent {s : String} {t t' : NodeTree} {next next' : Nat}
    (h : (Payload.text s).Filled t next t' next') (hdirect : t'.DirectData) :
    (t'.2.map Node.content).textContent = s := by
  -- the trees that were kept have no character data at all
  have hkept : ∀ old kept : Forest Node,
      kept.trees = old.trees.filter (fun u => !u.1.content.isCharacterData) →
      (∀ u ∈ kept.trees, ∀ k ∈ u.2.preorder, k.content.isCharacterData = false) →
      String.join ((kept.preorder.map Node.content).map Content.characters) = "" := by
    intro old kept htrees hinside
    refine Content.join_characters fun c hc => ?_
    obtain ⟨k, hk, rfl⟩ := List.mem_map.1 hc
    obtain ⟨u, hu, hroot | hbelow⟩ := Forest.mem_preorder.1 hk
    · rw [htrees, List.mem_filter, Bool.not_eq_true'] at hu
      rw [hroot]
      exact hu.2
    · exact hinside u hu k hbelow
  unfold Forest.textContent
  rw [Forest.preorder_map]
  cases h with
  | @emptied n old new next trees => exact hkept old new trees hdirect
  | @text _ n old new next nonempty trees =>
    have hnew : new = Forest.ofTrees (old.trees.filter fun u => !u.1.content.isCharacterData) ++
        .leaf ⟨next, .text s⟩ := by
      apply Forest.ext_trees
      rw [trees, Forest.trees_append, Forest.trees_ofTrees]
      rfl
    have hold := hkept old _ (Forest.trees_ofTrees _) fun u hu => by
      refine hdirect u ?_
      rw [Forest.trees_ofTrees] at hu
      show u ∈ new.trees
      rw [trees]
      exact List.mem_append_left _ hu
    rw [hnew, Forest.preorder_append, List.map_append, List.map_append, String.join_append, hold]
    show "" ++ ("" ++ s) = s
    rw [String.empty_append, String.empty_append]

/-- After an attribute was set the reader finds its value. -/
theorem FieldReader.attribute?_of_filled (hds : n.Declares ds) {r : FieldReader}
    {l : LoadedDocument} (hr : r.namespaces = ⟨ds⟩) (hl : l.namespaceInfo = !ds.isEmpty)
    {a : Attribute} (ha : a.Built n ds) {t t' : NodeTree} {next next' : Nat}
    (h : (Payload.attr a).Filled t next t' next') (ht : NodeTree.Built n ds own t') :
    t'.1.content.attribute? (r.attributeTest l a.name) = some a.value := by
  cases h with
  | @attr _ k e below next =>
    cases ht with
    | intro built texts content =>
      have htest : ∀ b ∈ a.set e.attributes,
          (r.attributeTest l a.name).acceptsAttribute b = Attribute.hasKey a.key b :=
        fun b hb => acceptsAttribute_attributeTest hds hr hl ha (built.attributes.each b hb)
      unfold Content.attribute?
      rw [show (Content.element { e with attributes := a.set e.attributes }).attributes =
        a.set e.attributes from rfl, List.find?_congr htest, Attribute.find?_set ha.regular]
      rfl

/-! ## Loading what was written -/

/-- The reader has loaded a document with the nodes of the root element, and knows the declarations
of that element. -/
structure FieldReader.Holds (r : FieldReader) (ds : List (String × String)) (t : NodeTree)
    (l : LoadedDocument) : Prop where
  loaded : r.loaded = some l
  namespaces : r.namespaces = ⟨ds⟩
  info : l.namespaceInfo = !ds.isEmpty
  tree : ∃ top, l.document.IsTree top ∧
    top.map Node.content = (Forest.single t).map Node.content

/-- The text of a built document is loaded as the same tree with the declarations of its root. -/
theorem FieldReader.load_toXml (hn : n.Declarable) (hds : n.Declares ds) {t : NodeTree}
    (ht : NodeTree.Built n ds ds t) {w : FieldWriter} (hw : w.document.IsTree (Forest.single t))
    (habsent : w.document.declaration = .absent) {r : FieldReader}
    (hblanks : r.options.dropBlanks = false) (hwithin : w.document.markup.Within r.options) :
    ∃ r' l, r.load w.toXml true = (r', .ok ()) ∧ r'.Holds ds t l := by
  have hmarkup : w.document.markup = ⟨.absent, (Forest.single t).map Node.content⟩ := by
    unfold Document.markup
    rw [habsent, hw.below_root]
  have hlegal := legal_of_built hn hds ht
  have hparse : Markup.parse { r.options with namespaceAware := true } w.toXml =
      .ok ⟨.absent, (Forest.single t).map Node.content⟩ := by
    have hlimits : w.document.markup.Within { r.options with namespaceAware := true } :=
      ⟨hwithin.depth, hwithin.names, hwithin.references⟩
    rw [hmarkup] at hlimits
    have hread := Markup.parse_render_of_legal (w := { declaration := false })
      (o := { r.options with namespaceAware := true }) rfl hblanks hlegal hlimits
    rw [if_neg Bool.false_ne_true] at hread
    unfold FieldWriter.toXml Document.render
    rw [hmarkup]
    exact hread
  have hnotBlank : allBlank w.toXml.toList = false := by
    unfold FieldWriter.toXml Document.render
    rw [hmarkup]
    exact hlegal.not_allBlank
  have hbindings := Namespaces.ofMarkup_of_built hn hds ht .absent
  have htree := Document.map_content_number (Document.root + 1)
    ((Forest.single t).map Node.content)
  unfold FieldReader.load
  simp only [hnotBlank, Bool.false_eq_true, if_false, hparse, hbindings]
  exact ⟨_, _, rfl, rfl, rfl, rfl, _, rfl, htree⟩

/-! ## Fields -/

/-- The value of the declared type that a value is converted to; its text where no type is
declared. -/
def Field.stored? (f : Field) (v : Value) : Option Value :=
  match f.declared with
  | none => some (.string v.render)
  | some t => (v.convert t).value?

/-- The text that is stored for a field converts to the stored value. -/
theorem Field.ofText_of_textOf? {f : Field} {v : Value} (hv : f.value = some v) {text : String}
    (h : FieldWriter.textOf? f = some text) :
    ∃ x, f.stored? v = some x ∧ Conversion.ofText text f.effectiveType = .ok x := by
  unfold FieldWriter.textOf? at h
  unfold stored? effectiveType
  rw [hv] at h
  obtain ⟨htext, -⟩ := Option.filter_eq_some_iff.1 h
  obtain ⟨y, hy, rfl⟩ := Option.map_eq_some_iff.1 htext
  cases hd : f.declared with
  | none =>
    rw [hd] at hy
    rw [← Option.some.inj hy]
    exact ⟨_, rfl, Conversion.ofText_render (.string _)⟩
  | some t =>
    rw [hd] at hy
    refine ⟨y, hy, ?_⟩
    rw [Option.getD_some, ← Value.type_of_convert hy]
    exact Conversion.ofText_render y

end

namespace FieldReader

variable {n : Namespaces} {ds : List (String × String)} {r : FieldReader} {l : LoadedDocument}

/-- The steps of a path fit the places that a writer finds for them. -/
theorem fits_of_resolveSteps (hds : n.Declares ds) (hr : r.namespaces = ⟨ds⟩)
    (hl : l.namespaceInfo = !ds.isEmpty) {w : FieldWriter} {steps : List Step}
    {places : List Place} (h : w.resolveSteps steps = .ok places)
    (hp : ∀ p ∈ places, p.Built n ds) :
    List.Forall₂ (StepTest.Fits n ds) (steps.map (r.stepTest l)) places := by
  have hall := FieldWriter.resolveSteps_eq_ok h
  clear h
  induction hall with
  | nil => exact .nil
  | @cons s p steps places hsp _ ih =>
    have hfits := fits_stepTest hds hr hl hsp.1 hsp.2.1 (hp p List.mem_cons_self)
    exact .cons hfits (ih fun q hq => hp q (List.mem_cons_of_mem p hq))

/-- The steps of the path of a write lead the reader to the node that was filled. -/
theorem locate?_of_resolveSteps (hn : n.Declarable) (hds : n.Declares ds) {t : NodeTree}
    (ht : NodeTree.Built n ds ds t) (hr : r.Holds ds t l) {d : Document}
    (hd : d.IsTree (Forest.single t)) {w : FieldWriter} {steps : List Step} {places : List Place}
    (hresolved : w.resolveSteps steps = .ok places) (hne : places ≠ [])
    (hplaces : ∀ q ∈ places, q.Built n ds) {u : NodeTree}
    (hu : d.locate? (places.map Place.stepTest) = some u) :
    ∃ v, l.document.locate? (steps.map (r.stepTest l)) = some v ∧ v.1.content = u.1.content ∧
      v.2.map Node.content = u.2.map Node.content ∧ ∃ own, NodeTree.Built n ds own u := by
  obtain ⟨top, htop, hsame⟩ := hr.tree
  have hfits := fits_of_resolveSteps hds hr.namespaces hr.info hresolved hplaces
  unfold Document.locate? at hu ⊢
  rw [hd.node?_root, Option.bind_eq_bind, Option.bind_some] at hu
  rw [htop.node?_root, Option.bind_eq_bind, Option.bind_some]
  obtain ⟨v, hv, hcontent, hbelow, hbuilt⟩ :=
    Forest.descend?_of_fits hn hfits rfl hsame (ht.onLevel hn hds) hu
  exact ⟨v, hv, hcontent, hbelow, hbuilt hne⟩

/-- The reader finds the text that was written at the path of a write. -/
theorem locate?_of_filled (hn : n.Declarable) (hds : n.Declares ds) {t : NodeTree}
    (ht : NodeTree.Built n ds ds t) (hr : r.Holds ds t l) {d : Document}
    (hd : d.IsTree (Forest.single t)) {w : FieldWriter} {p : Path} {text : String}
    {plan : WritePlan} (hplan : w.planFor p text = .ok plan)
    (hplaces : ∀ q ∈ plan.root :: plan.places, q.Built n ds) (hpayload : plan.payload.Built n ds)
    {u u' : NodeTree} {k k' : Nat}
    (hu : d.locate? ((plan.root :: plan.places).map Place.stepTest) = some u')
    (hfilled : plan.payload.Filled u k u' k') (hdirect : p.attr = none → u'.DirectData) :
    r.locate? l p = some text := by
  obtain ⟨hresolved, hput, -, -⟩ := FieldWriter.planFor_eq_ok hplan
  obtain ⟨v, hv, hcontent, hbelow, own, hbuilt⟩ :=
    locate?_of_resolveSteps hn hds ht hr hd hresolved (List.cons_ne_nil _ _) hplaces hu
  unfold locate?
  rw [hv, Option.bind_eq_bind, Option.bind_some]
  dsimp only
  rw [hcontent, hbelow]
  unfold FieldWriter.payloadOf at hput
  cases hattr : p.attr with
  | none =>
    rw [hattr] at hput
    rw [← Except.ok.inj hput] at hfilled
    have hempty : u'.1.content.characters = "" := by
      cases hbuilt with
      | intro => rfl
    simp only [hempty, hfilled.textContent (hdirect hattr), String.empty_append]
  | some q =>
    rw [hattr] at hput
    obtain ⟨uri, -, hok⟩ := bind_eq_ok.1 hput
    rw [← Except.ok.inj hok] at hfilled hpayload
    exact attribute?_of_filled hds hr.namespaces hr.info hpayload hfilled hbuilt

end FieldReader

/-- A writer that starts without a seed and is asked to write plain fields writes one more, which
is stored. Then a reader that loads the text of its document reads the field back: whatever the field
held is replaced by the stored value, and no record is added. The text of an element is all character
data below it, so for an element there must be none further down. Readers keep blank text: leaving it
out is a choice for those who read markup themselves. -/
theorem FieldReader.readField_of_writeField {n : Namespaces} (hn : n.Declarable)
    {w w' : FieldWriter} (hw : w.Grown n) {f : Field} (hf : f.Plain) {v : Value}
    (hv : f.value = some v) {log : List Audit} (h : w.writeField f log = (.ok (), w', log))
    (hdirect : ∀ p, Path.parse f.path = .ok p → p.attr = none →
      ∀ t ∈ w'.target? p.steps, NodeTree.DirectData t) :
    ∃ x, f.stored? v = some x ∧ ∀ r : FieldReader, r.options.dropBlanks = false →
      w'.document.markup.Within r.options → ∃ r', r.load w'.toXml true = (r', .ok ()) ∧
        ∀ (g : Field) (log' : List Audit), g.path = f.path → g.effectiveType = f.effectiveType →
          r'.readField g log' = (.ok (), { g with value := some x }, log') := by
  obtain ⟨p, text, plan, hp, ht, hplan, rfl⟩ := FieldWriter.plan_of_writeField h
  have hparse := (FieldWriter.pathOf_eq_ok hp).1
  obtain ⟨x, hx, hconverted⟩ := Field.ofText_of_textOf? hv ht
  obtain ⟨hbuilt, hdeclaration, top, ds, t, -, htree, -, hds, htBuilt, hgiven⟩ :=
    hw.built.written hf hp ht hplan
  obtain ⟨u, u', k, k', hu, hfilled⟩ := hw.built.located hf hp ht hplan
  have htarget : p.attr = none → NodeTree.DirectData u' := by
    intro hattr
    refine hdirect p hparse hattr u' ?_
    unfold FieldWriter.target?
    rw [FieldWriter.resolveSteps_document, (FieldWriter.planFor_eq_ok hplan).1]
    exact hu
  refine ⟨x, hx, fun r hblanks hwithin => ?_⟩
  obtain ⟨r', l, hload, hholds⟩ :=
    load_toXml hn hds htBuilt (w := { w with document := plan.write w.document }) htree
      hdeclaration hblanks hwithin
  refine ⟨r', hload, fun g log' hpath htype => ?_⟩
  have hlocate := locate?_of_filled hn hds htBuilt hholds htree hplan
    (fun q hq => (hbuilt.places q hq).mono hgiven) (hbuilt.payload.mono hgiven) hu hfilled htarget
  unfold readField fill
  simp only [hholds.loaded, hpath, hparse, hlocate, htype, hconverted]
  rfl

/-- A string that is stored as a number in the second of two elements with a namespace, beside
elements in the default namespace. -/
theorem FieldReader.readField_of_writeField_second :
    let n : Namespaces := ⟨[("", "urn:d"), ("x", "urn:x")]⟩
    let before : Field := ⟨"/a/x:b/c/@x:d", some (.string "<"), none, false⟩
    let w := ((FieldWriter.blank 10 n).writeField before []).2.1
    let f : Field := ⟨"/a/x:b[2]", some (.string " -07 "), some (.whole .byte), false⟩
    let w' := (w.writeField f []).2.1
    w.Grown n ∧ w.writeField f [] = (.ok (), w', []) ∧ ∃ r',
      (FieldReader.new {}).load w'.toXml true = (r', .ok ()) ∧
        r'.readField { f with value := none } [] =
          (.ok (), { f with value := some (.whole .byte ⟨-7, by decide, by decide⟩) }, []) := by
  intro n before w f w'
  have hn : n.Declarable := by decide +kernel
  have hbefore : before.Plain := by
    intro p hp
    have hparse : Path.parse before.path =
        .ok ⟨[⟨⟨none, "a"⟩, none⟩, ⟨⟨some "x", "b"⟩, none⟩, ⟨⟨none, "c"⟩, none⟩],
          some ⟨some "x", "d"⟩⟩ := by decide
    rw [hparse] at hp
    rw [← Except.ok.inj hp]
    exact ⟨by decide, by decide⟩
  have hparse : Path.parse f.path =
      .ok ⟨[⟨⟨none, "a"⟩, none⟩, ⟨⟨some "x", "b"⟩, some 2⟩], none⟩ := by decide
  have hf : f.Plain := by
    intro p hp
    rw [hparse] at hp
    rw [← Except.ok.inj hp]
    exact ⟨by decide, by decide⟩
  have hw : w.Grown n := .write (.new rfl) hbefore []
  have h : w.writeField f [] = (.ok (), w', []) := by decide +kernel
  have hdirect : ∀ p, Path.parse f.path = .ok p → p.attr = none →
      ∀ t ∈ w'.target? p.steps, NodeTree.DirectData t := by
    intro p hp
    rw [hparse] at hp
    rw [← Except.ok.inj hp]
    decide +kernel
  have hwithin : w'.document.markup.Within {} :=
    ⟨by decide +kernel, by decide +kernel, by decide +kernel⟩
  obtain ⟨x, hx, hread⟩ := FieldReader.readField_of_writeField hn hw hf rfl h hdirect
  have hstored : f.stored? (.string " -07 ") =
      some (.whole .byte ⟨-7, by decide, by decide⟩) := by decide +kernel
  rw [hstored] at hx
  obtain ⟨r', hload, hfield⟩ := hread (FieldReader.new {}) rfl hwithin
  refine ⟨hw, h, r', hload, ?_⟩
  rw [Option.some.inj hx]
  exact hfield { f with value := none } [] rfl rfl

end MarkupFields
