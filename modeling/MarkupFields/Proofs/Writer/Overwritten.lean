import MarkupFields.Proofs.Writer.Reordered

/-
  Two writes at one path. The second finds what the first made: no element is missing at a place, the
  prefixes are declared, the text of the first gives way to that of the second, and the attribute
  stands where it is set again. What comes of both is what comes of the second alone
  (`WrittenBelow.overwritten`, `WritePlan.markup_write_overwritten`), apart from handles: elements that
  the first write added have the handles that the second one alone would have given them, but a text is
  a new node each time. The text of the document does not show handles
  (`toXml_of_writeField_overwritten`).

  Paths that end in a declaration are left out: an attribute named xmlns is not set but added each time.
-/

namespace MarkupFields

/-! ## Trees without their handles -/

/-- The tree without the handles of its nodes. -/
def NodeTree.contents (t : NodeTree) : Content × Forest Content :=
  (t.1.content, t.2.map Node.content)

theorem Forest.map_content_of_trees {f g : Forest Node}
    (h : f.trees.map NodeTree.contents = g.trees.map NodeTree.contents) :
    f.map Node.content = g.map Node.content := by
  refine Forest.ext_trees ?_
  rw [Forest.trees_map, Forest.trees_map]
  exact h

/-! ## Payloads -/

/-- The second payload goes where the first went: both are texts, or both regular attributes with one
key. -/
inductive Payload.Overwrites : Payload → Payload → Prop
  | text (s s' : String) : Overwrites (.text s) (.text s')
  | attr {a b : Attribute} (regular : a.isDeclaration = false) (key : b.key = a.key) :
    Overwrites (.attr a) (.attr b)

theorem Payload.Overwrites.regular {first second : Payload} (h : first.Overwrites second) :
    first.Regular := by
  rintro a rfl
  cases h with
  | attr regular _ => exact regular

/-- A text is put behind what is no character data; the empty text leaves nothing there. -/
theorem Payload.Filled.of_text {s : String} {t t' : NodeTree} {next next' : Nat}
    (h : Payload.Filled (.text s) t next t' next') :
    t'.1 = t.1 ∧ ∃ last : List NodeTree,
      t'.2.trees = (t.2.trees.filter fun u => !u.1.content.isCharacterData) ++ last ∧
      last.map NodeTree.contents = if s = "" then [] else [(.text s, .nil)] := by
  cases h with
  | emptied trees => exact ⟨rfl, [], by rw [trees, List.append_nil], rfl⟩
  | text nonempty trees => exact ⟨rfl, _, trees, by rw [if_neg nonempty]; rfl⟩

/-- What is put at the end of the level is character data. -/
theorem filter_last {s : String} {last : List NodeTree}
    (h : last.map NodeTree.contents = if s = "" then [] else [(.text s, .nil)]) :
    last.filter (fun u => !u.1.content.isCharacterData) = [] := by
  rw [List.filter_eq_nil_iff]
  intro u hu
  have hmem : u.contents ∈ last.map NodeTree.contents := List.mem_map_of_mem hu
  rw [h] at hmem
  split at hmem
  · cases hmem
  · have hcontent : u.1.content = .text s := congrArg Prod.fst (List.mem_singleton.1 hmem)
    rw [hcontent]
    exact Bool.false_ne_true

/-- A payload that is put after another one leaves what it leaves alone. -/
theorem Payload.Filled.overwritten {first second : Payload} (h : first.Overwrites second)
    {t t₁ t₂ t₃ : NodeTree} {next next₁ next₂ k k' : Nat} (h₁ : first.Filled t next t₁ next₁)
    (h₂ : second.Filled t next t₂ next₂) (h₃ : second.Filled t₁ k t₃ k') :
    t₃.contents = t₂.contents := by
  cases h with
  | text s s' =>
    obtain ⟨hroot₁, last₁, htrees₁, hlast₁⟩ := h₁.of_text
    obtain ⟨hroot₂, last₂, htrees₂, hlast₂⟩ := h₂.of_text
    obtain ⟨hroot₃, last₃, htrees₃, hlast₃⟩ := h₃.of_text
    refine Prod.ext ?_ (Forest.map_content_of_trees ?_)
    · show t₃.1.content = t₂.1.content
      rw [hroot₃, hroot₁, hroot₂]
    · rw [htrees₃, htrees₁, htrees₂, List.filter_append, List.filter_filter, filter_last hlast₁,
        List.append_nil, List.map_append, List.map_append, hlast₂, hlast₃]
      simp only [Bool.and_self]
  | attr regular key =>
    cases h₁
    cases h₂
    cases h₃
    unfold NodeTree.contents
    dsimp only
    rw [Attribute.set_set regular key]

/-! ## Below the root -/

/-- What is written below a node where something was written before is what is written there alone. The
numbers from which handles are given may differ. -/
theorem WrittenBelow.overwritten {first second : Payload} (h : first.Overwrites second)
    {places : List Place} {t t₁ t₂ t₃ : NodeTree} {next next₁ next₂ k k' : Nat}
    (h₁ : WrittenBelow first places t next t₁ next₁)
    (h₂ : WrittenBelow second places t next t₂ next₂)
    (h₃ : WrittenBelow second places t₁ k t₃ k') : t₃.contents = t₂.contents := by
  induction h₁ generalizing t₂ t₃ next₂ k k' with
  | here filled =>
    cases h₂ with
    | here filled₂ =>
      cases h₃ with
      | here filled₃ => exact filled.overwritten h filled₂ filled₃
  | @step p places n old new before after u u₁ next count next' count_eq split written trees ih =>
    cases h₂ with
    | @step _ _ _ _ new₂ _ _ _ u₂ _ _ _ count_eq₂ split₂ written₂ trees₂ =>
      cases h₃ with
      | @step _ _ _ _ new₃ _ _ _ u₃ _ count₃ _ count_eq₃ split₃ written₃ trees₃ =>
        obtain rfl := count_eq₂.trans count_eq.symm
        obtain ⟨rfl, rfl, rfl⟩ := split₂.unique split
        -- after the first write the element at the position is there, and it is the one written into
        have hpasses : p.accepts u₁.1 = true := by
          rw [p.accepts_same written.extends.1]
          exact split.passes
        have hat : Forest.At p.accepts p.position new.trees _ u₁ _ := ⟨trees, hpasses, split.rank⟩
        have hcount : count₃ = 0 := by
          have hrank := split.rank
          rw [count_eq₃, trees, Forest.rootCount_append, Forest.rootCount_cons, if_pos hpasses]
          omega
        rw [hcount, show p.fresh k 0 = [] from rfl, List.append_nil] at split₃
        obtain ⟨rfl, rfl, rfl⟩ := split₃.unique hat
        refine Prod.ext rfl (Forest.map_content_of_trees ?_)
        rw [trees₂, trees₃, List.map_append, List.map_append, List.map_cons, List.map_cons,
          ih written₂ written₃]

/-! ## From the root on -/

namespace WritePlan

variable {plan : WritePlan} {second : Payload}

/-- Nothing is declared on a root where each of the prefixes is declared. -/
theorem declareOn_eq_self {n : Node}
    (h : ∀ d ∈ plan.declarations, d.1 ∈ (Attribute.declarations n.content.attributes).map Prod.fst) :
    plan.declareOn n = n := by
  obtain ⟨k, c⟩ := n
  cases c with
  | element e =>
    have hnone : Attribute.declareEach plan.declarations e.attributes = e.attributes :=
      Attribute.declareEach_of_known h
    show (⟨k, .element ⟨e.name, e.namespaceUri, Attribute.declareEach plan.declarations e.attributes⟩⟩ :
      Node) = _
    rw [hnone]
  | _ => rfl

section
variable (hsecond : plan.payload.Overwrites second) (hp : ∀ p ∈ plan.places, 1 ≤ p.position)
include hsecond hp

/-- The root element is written into twice as it is by the second write alone. -/
theorem contents_writeRoot_overwritten {r : NodeTree} (hr : r.1.content.isElement = true)
    (next k : Nat) :
    ({ plan with payload := second }.writeRoot (plan.writeRoot r next).1 k).1.contents =
      ({ plan with payload := second }.writeRoot r next).1.contents := by
  obtain ⟨⟨i, c⟩, below⟩ := r
  cases c with
  | element e =>
    let e' : Element := { e with attributes := Attribute.declareEach plan.declarations e.attributes }
    have h₁ := writtenBelow_writeBelow plan.payload hp (t := (⟨i, .element e'⟩, below)) next rfl
    have h₂ := writtenBelow_writeBelow second hp (t := (⟨i, .element e'⟩, below)) next rfl
    have hdeclared : plan.declareOn (plan.writeRoot (⟨i, .element e⟩, below) next).1.1 =
        (plan.writeRoot (⟨i, .element e⟩, below) next).1.1 := by
      refine declareOn_eq_self fun d hd => ?_
      have hkept := h₁.declarations hsecond.regular
      show d.1 ∈ (Attribute.declarations (Forest.writeBelow plan.payload plan.places
        (⟨i, .element e'⟩, below) next).1.1.content.attributes).map Prod.fst
      rw [hkept]
      exact Attribute.known_declareEach plan.declarations e.attributes d hd
    have h₃ := writtenBelow_writeBelow second hp
      (t := (plan.writeRoot (⟨i, .element e⟩, below) next).1) k
      h₁.extends.1.isElement
    show (Forest.writeBelow second plan.places
      (plan.declareOn (plan.writeRoot (⟨i, .element e⟩, below) next).1.1, _) k).1.contents = _
    rw [hdeclared]
    exact h₁.overwritten hsecond h₂ h₃
  | _ => cases hr

end

/-! ## The top level -/

/-- Where there is a root element the plan is carried out on it. -/
theorem writeTop_of_at (plan : WritePlan) {top : Forest Node} {before after : List NodeTree}
    {r : NodeTree} (next : Nat)
    (hat : Forest.At (fun n : Node => n.content.isElement) 1 top.trees before r after) :
    plan.writeTop top next =
      (.ofTrees (before ++ (plan.writeRoot r next).1 :: after), (plan.writeRoot r next).2) := by
  have hany : (top.roots.any fun n => n.content.isElement) = true := by
    refine List.any_eq_true.2 ⟨r.1, ?_, hat.passes⟩
    rw [Forest.roots_eq_map_trees]
    exact List.mem_map_of_mem hat.mem
  have hupdate := Forest.updateNth_of_at plan.writeRoot next hat
  rw [Forest.ofTrees_trees] at hupdate
  unfold writeTop
  dsimp only
  rw [if_pos hany, hupdate]

/-- A plan is carried out on a top level that has a root element, that of the given one or a new one
behind all other nodes. Which one it is does not depend on the payload. -/
theorem exists_rooted (plan : WritePlan) (top : Forest Node) (next : Nat) :
    ∃ top' next' before r after,
      Forest.At (fun n : Node => n.content.isElement) 1 top'.trees before r after ∧
      (top' = top ∨
        top.trees = before ∧ r = (⟨next, plan.root.element⟩, .nil) ∧ after = []) ∧
      ∀ payload, { plan with payload := payload }.writeTop top next =
        { plan with payload := payload }.writeTop top' next' := by
  by_cases hany : (top.roots.any fun n => n.content.isElement) = true
  · obtain ⟨n, hn, helement⟩ := List.any_eq_true.1 hany
    rw [Forest.roots_eq_map_trees] at hn
    obtain ⟨t, ht, rfl⟩ := List.mem_map.1 hn
    have hcount : 1 ≤ Forest.rootCount (fun n : Node => n.content.isElement) top.trees :=
      List.countP_pos_iff.2 ⟨t, ht, helement⟩
    obtain ⟨before, r, after, hat⟩ := Forest.exists_at top.trees (Nat.le_refl 1) hcount
    exact ⟨top, next, before, r, after, hat, .inl rfl, fun _ => rfl⟩
  · have hnone : Forest.rootCount (fun n : Node => n.content.isElement) top.trees = 0 := by
      rw [← Forest.rootCount_eq, List.length_eq_zero_iff, List.filter_eq_nil_iff]
      exact fun n hn helement => hany (List.any_eq_true.2 ⟨n, hn, helement⟩)
    let root : Node := ⟨next, plan.root.element⟩
    have hany' : ((top ++ Forest.leaf root).roots.any fun n => n.content.isElement) = true := by
      rw [Forest.roots_append, List.any_append]
      exact Bool.or_true _
    refine ⟨top ++ .leaf root, next + 1, top.trees, (root, .nil), [], ⟨?_, rfl, by rw [hnone]⟩,
      .inr ⟨rfl, rfl, rfl⟩, fun payload => ?_⟩
    · rw [Forest.trees_append]
      rfl
    · unfold writeTop
      dsimp only
      rw [if_neg hany, if_pos hany']

/-- The root that a plan was carried out on is the element that it was before. -/
theorem same_writeRoot (hp : ∀ p ∈ plan.places, 1 ≤ p.position) {r : NodeTree}
    (hr : r.1.content.isElement = true) (next : Nat) : r.1.Same (plan.writeRoot r next).1.1 :=
  (writtenRoot_writeRoot plan hp next hr).extends.1

/-- Afterwards the root element stands where it stood, as the same element, or it is new. -/
theorem exists_at_writeTop (hp : ∀ p ∈ plan.places, 1 ≤ p.position) (top : Forest Node)
    (next : Nat) :
    ∃ next' before r after,
      Forest.At (fun n : Node => n.content.isElement) 1 (plan.writeTop top next).1.trees before
        (plan.writeRoot r next').1 after ∧
      r.1.content.isElement = true ∧ r.1.Same (plan.writeRoot r next').1.1 ∧
      (Forest.At (fun n : Node => n.content.isElement) 1 top.trees before r after ∨
        r = (⟨next, plan.root.element⟩, .nil)) := by
  obtain ⟨top', next', before, r, after, hat, hroot, hstart⟩ := plan.exists_rooted top next
  have hsame := same_writeRoot hp hat.passes next'
  refine ⟨next', before, r, after, ?_, hat.passes, hsame, ?_⟩
  · rw [show plan.writeTop top next = plan.writeTop top' next' from hstart plan.payload,
      writeTop_of_at plan next' hat]
    exact ⟨Forest.trees_ofTrees _, hsame.isElement.trans hat.passes, hat.rank⟩
  · rcases hroot with rfl | ⟨-, hnew, -⟩
    · exact .inl hat
    · exact .inr hnew

section
variable (hsecond : plan.payload.Overwrites second) (hp : ∀ p ∈ plan.places, 1 ≤ p.position)
include hsecond hp

theorem contents_writeTop_overwritten (top : Forest Node) (next k : Nat) :
    ({ plan with payload := second }.writeTop (plan.writeTop top next).1 k).1.map Node.content =
      ({ plan with payload := second }.writeTop top next).1.map Node.content := by
  obtain ⟨top', next', before, r, after, hat, -, hstart⟩ := plan.exists_rooted top next
  have hfirst : plan.writeTop top next = plan.writeTop top' next' := hstart plan.payload
  have hat' : Forest.At (fun n : Node => n.content.isElement) 1
      (Forest.ofTrees (before ++ (plan.writeRoot r next').1 :: after)).trees before
      (plan.writeRoot r next').1 after := by
    refine ⟨Forest.trees_ofTrees _, ?_, hat.rank⟩
    rw [(same_writeRoot hp hat.passes next').isElement]
    exact hat.passes
  rw [hfirst, hstart second, writeTop_of_at _ _ hat, writeTop_of_at _ _ hat', writeTop_of_at _ _ hat]
  refine Forest.map_content_of_trees ?_
  rw [Forest.trees_ofTrees, Forest.trees_ofTrees, List.map_append, List.map_append, List.map_cons,
    List.map_cons, contents_writeRoot_overwritten hsecond hp hat.passes]

/-- Two plans for one place come to what the second of them comes to. -/
theorem markup_write_overwritten {d : Document} {top : Forest Node} (hd : d.IsTree top) :
    ({ plan with payload := second }.write (plan.write d)).markup =
      ({ plan with payload := second }.write d).markup := by
  have hfirst := isTree_write plan hd
  unfold Document.markup
  rw [(isTree_write { plan with payload := second } hfirst).below_root,
    (isTree_write { plan with payload := second } hd).below_root,
    contents_writeTop_overwritten hsecond hp]
  rfl

end

end WritePlan

/-! ## Fields -/

/-- The path of the field, if it can be read, does not end in an attribute that is a declaration. -/
def Field.Regular (f : Field) : Prop :=
  ∀ p, Path.parse f.path = .ok p → ∀ q ∈ p.attr, q ≠ .plain "xmlns" ∧ q.nsPrefix ≠ some "xmlns"

theorem Field.Regular.of_parse {f : Field} {p : Path} (hparse : Path.parse f.path = .ok p)
    (hp : ∀ q ∈ p.attr, q ≠ .plain "xmlns" ∧ q.nsPrefix ≠ some "xmlns") : f.Regular := by
  intro p' hparse'
  rwa [← Except.ok.inj (hparse.symm.trans hparse')]

namespace FieldWriter

variable {w : FieldWriter} {p : Path} {text text' : String} {plan plan' : WritePlan}

/-- Two texts are put at the end of a path in one place. -/
theorem overwrites_of_payloadOf {payload payload' : Payload}
    (h : w.payloadOf text p.attr = .ok payload) (h' : w.payloadOf text' p.attr = .ok payload')
    (hp : ∀ q ∈ p.attr, q ≠ .plain "xmlns" ∧ q.nsPrefix ≠ some "xmlns") :
    payload.Overwrites payload' ∧ ∀ places, neededFor places payload' = neededFor places payload := by
  cases hattr : p.attr with
  | none =>
    rw [hattr] at h h'
    obtain rfl : Payload.text text = payload := Except.ok.inj h
    obtain rfl : Payload.text text' = payload' := Except.ok.inj h'
    exact ⟨.text text text', fun _ => rfl⟩
  | some q =>
    rw [hattr] at h h'
    obtain ⟨uri, huri, hok⟩ := bind_eq_ok.1 h
    obtain ⟨uri', huri', hok'⟩ := bind_eq_ok.1 h'
    obtain rfl : uri = uri' := Except.ok.inj (huri.symm.trans huri')
    obtain rfl : Payload.attr ⟨q, uri, text⟩ = payload := Except.ok.inj hok
    obtain rfl : Payload.attr ⟨q, uri, text'⟩ = payload' := Except.ok.inj hok'
    obtain ⟨hplain, hprefix⟩ := hp q hattr
    exact ⟨.attr (isDeclaration_of_plain hprefix hplain) rfl, fun _ => rfl⟩

/-- Plans for two texts at the end of a path differ in their payloads alone. -/
theorem overwrites_of_planFor (h : w.planFor p text = .ok plan) (h' : w.planFor p text' = .ok plan')
    (hp : ∀ q ∈ p.attr, q ≠ .plain "xmlns" ∧ q.nsPrefix ≠ some "xmlns") :
    plan.payload.Overwrites plan'.payload ∧ plan' = { plan with payload := plan'.payload } := by
  obtain ⟨hplaces, hpayload, hdeclarations, -⟩ := planFor_eq_ok h
  obtain ⟨hplaces', hpayload', hdeclarations', -⟩ := planFor_eq_ok h'
  obtain ⟨hover, hneeded⟩ := overwrites_of_payloadOf hpayload hpayload' hp
  obtain ⟨hroot, hbelow⟩ := List.cons.inj (Except.ok.inj (hplaces.symm.trans hplaces'))
  rw [← hroot, ← hbelow, hneeded, ← hdeclarations] at hdeclarations'
  refine ⟨hover, ?_⟩
  obtain ⟨root, places, declarations, payload⟩ := plan'
  obtain rfl : _ = root := hroot
  obtain rfl : _ = places := hbelow
  obtain rfl : declarations = _ := hdeclarations'
  rfl

/-- After a plan was carried out its root can be written to again. -/
theorem checkRoot_write {top : Forest Node} (htree : w.document.IsTree top)
    (hp : ∀ q ∈ plan.places, 1 ≤ q.position) (h : w.checkRoot plan.root = .ok ()) :
    ({ w with document := plan.write w.document } : FieldWriter).checkRoot plan.root = .ok () := by
  obtain ⟨hposition, hfits⟩ := checkRoot_eq_ok h
  obtain ⟨next', before, r, after, hafter, -, hsame, hroot⟩ :=
    WritePlan.exists_at_writeTop hp top w.document.allocated
  refine checkRoot_of_at (isTree_write plan htree) hposition hafter ?_
  rw [plan.root.accepts_same hsame]
  rcases hroot with hat | rfl
  · exact hfits htree hat
  · exact plan.root.accepts_element w.document.allocated

/-- Writing a field and then another one at the same path is writing the second alone: the second
write goes through in the same way, and the document has the same nodes and the same text. -/
theorem toXml_of_writeField_overwritten {w₁ w₂ : FieldWriter} (hw : w.Reachable) {f g : Field}
    (hpath : g.path = f.path) (hf : f.Regular) {log log' : List Audit}
    (h₁ : w.writeField f log = (.ok (), w₁, log)) (h₂ : w.writeField g log' = (.ok (), w₂, log'))
    (log'' : List Audit) :
    ∃ w₃, w₁.writeField g log'' = (.ok (), w₃, log'') ∧ w₃.namespaces = w₂.namespaces ∧
      w₃.document.markup = w₂.document.markup ∧ w₃.toXml = w₂.toXml := by
  obtain ⟨p, text, plan, hp, -, hplan, rfl⟩ := plan_of_writeField h₁
  obtain ⟨p', text', plan', hp', htext', hplan', rfl⟩ := plan_of_writeField h₂
  have hparsed := (pathOf_eq_ok hp).1
  obtain rfl : p = p' := by
    have hparsed' := (pathOf_eq_ok hp').1
    rw [hpath, hparsed] at hparsed'
    exact Except.ok.inj hparsed'
  obtain ⟨top, htree⟩ := hw.valid.tree
  obtain ⟨hover, hplan_eq⟩ := overwrites_of_planFor hplan hplan' (hf p hparsed)
  have hpositions : ∀ q ∈ plan.places, 1 ≤ q.position := fun q hq =>
    one_le_position_of_planFor (Path.parsed_of_parse hparsed) hplan q (List.mem_cons_of_mem _ hq)
  have hroot : plan'.root = plan.root := by rw [hplan_eq]
  have hplans : w.Plans g p text' plan' := ⟨hp', htext', hplan'⟩
  have hplans₁ := hplans.document (d := plan.write w.document) (by
    rw [hroot]
    exact checkRoot_write htree hpositions (planFor_eq_ok hplan).2.2.2)
  have hmarkup : (plan'.write (plan.write w.document)).markup = (plan'.write w.document).markup := by
    rw [hplan_eq]
    exact WritePlan.markup_write_overwritten hover hpositions htree
  refine ⟨_, hplans₁.writeField log'', rfl, hmarkup, ?_⟩
  exact congrArg (Markup.render { declaration := false }) hmarkup

/-- A text that made its own element and two before it gives way to a number. -/
theorem toXml_of_writeField_overwritten_third :
    let w := ((blank 10 ⟨[("x", "urn:x")]⟩).writeField ⟨"/x:a/x:c", none, none, false⟩ []).2.1
    let f : Field := ⟨"/x:a/b[3]", some (.string "one"), none, false⟩
    let g : Field := ⟨"/x:a/b[3]", some (.string " 7 "), some (.whole .long), false⟩
    let w₁ := (w.writeField f []).2.1
    let w₂ := (w.writeField g []).2.1
    w.Reachable ∧ g.path = f.path ∧ f.Regular ∧ w.writeField f [] = (.ok (), w₁, []) ∧
      w.writeField g [] = (.ok (), w₂, []) ∧
      w₂.toXml = "<x:a xmlns:x=\"urn:x\"><x:c/><b/><b/><b>7</b></x:a>" ∧
      ∃ w₃, w₁.writeField g [] = (.ok (), w₃, []) ∧ w₃.namespaces = w₂.namespaces ∧
        w₃.document.markup = w₂.document.markup ∧ w₃.toXml = w₂.toXml := by
  intro w f g w₁ w₂
  have hnew : FieldWriter.new 10 ⟨[("x", "urn:x")]⟩ none = .ok (blank 10 ⟨[("x", "urn:x")]⟩) := rfl
  have hw : w.Reachable := .write (.new hnew) _ _
  have hpath : g.path = f.path := rfl
  have hf : f.Regular := .of_parse (p := ⟨[⟨⟨some "x", "a"⟩, none⟩, ⟨.plain "b", some 3⟩], none⟩)
    (by decide) nofun
  have h₁ : w.writeField f [] = (.ok (), w₁, []) := by decide
  have h₂ : w.writeField g [] = (.ok (), w₂, []) := by decide
  exact ⟨hw, hpath, hf, h₁, h₂, by decide +kernel,
    toXml_of_writeField_overwritten hw hpath hf h₁ h₂ []⟩

end FieldWriter

end MarkupFields
