import MarkupFields.Proofs.Writer.Faithful

/-
  Writing a text at a path where everything is there. No element is added, so the elements of the
  document are those that were there (`WrittenBelow.replaced`); the root may gain declarations, and
  it gains none if it declares all that the plan needs (`Declared.declarations_eq`). The places lead
  to the node to which they led before, and the text is put there.
-/

namespace MarkupFields

/-! ## Elements of a forest -/

namespace Forest

/-- The elements of a forest in document order. -/
def elements (f : Forest Node) : List Element :=
  f.preorder.filterMap fun n => n.content.element?

theorem elements_eq_flatMap (f : Forest Node) :
    f.elements = f.trees.flatMap fun t => t.1.content.element?.toList ++ t.2.elements := by
  induction f with
  | nil => rfl
  | cons n below beside _ ih =>
    rw [trees, List.flatMap_cons, ← ih]
    unfold elements
    rw [preorder, List.filterMap_cons, List.filterMap_append]
    cases n.content.element? <;> rfl

theorem mem_elements {f : Forest Node} {e : Element} :
    e ∈ f.elements ↔ ∃ n ∈ f.preorder, n.content = .element e := by
  unfold elements
  rw [List.mem_filterMap]
  refine exists_congr fun n => and_congr_right fun _ => ?_
  cases n.content with
  | element e' => simp [Content.element?]
  | _ => simp [Content.element?]

/-- What a forest declares is what its elements declare. -/
theorem declarationsIn_eq_flatMap (f : Forest Node) :
    Namespaces.declarationsIn (f.map Node.content) =
      f.elements.flatMap fun e => Attribute.declarations e.attributes := by
  unfold Namespaces.declarationsIn elements
  rw [preorder_map, List.flatMap_map]
  induction f.preorder with
  | nil => rfl
  | cons n ns ih =>
    rw [List.flatMap_cons, List.filterMap_cons, ih]
    cases n.content <;> rfl

end Forest

/-! ## Below the root -/

section
variable {exact : Prop} {scope : Scope} {s : String}

/-- Where character data has nothing below it, a text takes the place of nothing but such data. -/
theorem Payload.Filled.replaced {t t' : NodeTree} {next next' : Nat}
    (h : (Payload.text s).Filled t next t' next') (ht : t.2.Lawful exact scope) :
    t'.1 = t.1 ∧ t'.2.elements = t.2.elements := by
  have hkept : ∀ us : List NodeTree,
      (∀ u ∈ us, u.1.content.isElement = false → u.2 = .nil) →
      (us.filter fun u => !u.1.content.isCharacterData).flatMap
          (fun u => u.1.content.element?.toList ++ u.2.elements) =
        us.flatMap fun u => u.1.content.element?.toList ++ u.2.elements := by
    intro us hus
    induction us with
    | nil => rfl
    | cons u us ih =>
      rw [List.forall_mem_cons] at hus
      obtain ⟨⟨k, c⟩, below⟩ := u
      cases hdata : c.isCharacterData with
      | false =>
        rw [List.filter_cons_of_pos (by simp [hdata]), List.flatMap_cons, List.flatMap_cons,
          ih hus.2]
      | true =>
        have hnone : c.element? = none := by
          cases c with
          | element e => cases hdata
          | _ => rfl
        have hbelow : below = .nil := hus.1 (by simp [Content.isElement, hnone])
        rw [List.filter_cons_of_neg (by simp [hdata]), List.flatMap_cons, ih hus.2, hnone, hbelow]
        rfl
  cases h with
  | @emptied n old new next trees =>
    refine ⟨rfl, ?_⟩
    rw [Forest.elements_eq_flatMap new, trees, hkept old.trees fun u hu => (ht.of_mem hu).1,
      ← Forest.elements_eq_flatMap]
  | @text s n old new next nonempty trees =>
    refine ⟨rfl, ?_⟩
    rw [Forest.elements_eq_flatMap new, trees, List.flatMap_append,
      hkept old.trees fun u hu => (ht.of_mem hu).1, ← Forest.elements_eq_flatMap]
    exact List.append_nil _

/-- A text that is written through places which lead to a node is put there. The node that the way
starts from stays as it is, and so do the elements below it. -/
theorem WrittenBelow.replaced {places : List Place} {t t' : NodeTree} {next next' : Nat}
    (h : WrittenBelow (.text s) places t next t' next') (ht : t.2.Lawful exact scope)
    (hplaces : ∀ p ∈ places, 1 ≤ p.position) {inScope : Option String} {u : NodeTree}
    (hu : Forest.descend? (places.map Place.stepTest) inScope t = some u) :
    t'.1 = t.1 ∧ t'.2.elements = t.2.elements ∧ ∃ u' k k',
      Forest.descend? (places.map Place.stepTest) inScope t' = some u' ∧
        (Payload.text s).Filled u k u' k' := by
  induction h generalizing scope inScope with
  | @here t t' next next' filled =>
    obtain ⟨hroot, helements⟩ := filled.replaced ht
    rw [← Option.some.inj hu]
    exact ⟨hroot, helements, t', next, next', rfl, filled⟩
  | @step p places n old new before after t t' next count next' count_eq split _ trees ih =>
    rw [List.map_cons, Forest.descend?_cons_stepTest] at hu
    obtain ⟨v, hv, hdown⟩ := Option.bind_eq_some_iff.1 hu
    obtain ⟨before', after', hat⟩ :=
      (Forest.nthRoot?_eq_some_iff (hplaces p List.mem_cons_self)).1 hv
    -- nothing is missing, so nothing is added
    have hcount : count = 0 := by
      have hrank := hat.rank
      rw [count_eq, hat.split, Forest.rootCount_append, Forest.rootCount_cons, if_pos hat.passes]
      omega
    subst hcount
    have hold : old.trees ++ p.fresh next 0 = old.trees := List.append_nil _
    rw [hold] at split
    obtain ⟨rfl, rfl, rfl⟩ := hat.unique split
    have hmem : v ∈ old.trees := by
      rw [split.split]
      exact List.mem_append_right _ List.mem_cons_self
    obtain ⟨-, inner, hinner⟩ := ht.of_mem hmem
    obtain ⟨hroot, helements, u', k, k', hdescend, hfilled⟩ :=
      ih hinner (fun q hq => hplaces q (List.mem_cons_of_mem p hq)) hdown
    have hat' : Forest.At p.accepts p.position new.trees before' t' after' :=
      ⟨trees, hroot ▸ split.passes, split.rank⟩
    have hnth := Forest.nthRoot?_of_at hat'
    rw [Forest.ofTrees_trees] at hnth
    refine ⟨rfl, ?_, u', k, k', ?_, hfilled⟩
    · rw [Forest.elements_eq_flatMap new, Forest.elements_eq_flatMap old, trees, split.split,
        List.flatMap_append, List.flatMap_append, List.flatMap_cons, List.flatMap_cons, hroot,
        helements]
    · rw [List.map_cons, Forest.descend?_cons_stepTest]
      dsimp only
      rw [hnth, Option.bind_some, hroot]
      exact hdescend

end

/-! ## The whole document -/

/-- Nothing is declared anew on an element that declares all of the prefixes, each once. -/
theorem Declared.declarations_eq {ds : List (String × String)} {e e' : Element}
    (h : Declared ds e e') (honce : ((Attribute.declarations e.attributes).map Prod.fst).Nodup)
    (hknown : ∀ d ∈ ds, d.1 ∈ (Attribute.declarations e.attributes).map Prod.fst) :
    Attribute.declarations e'.attributes = Attribute.declarations e.attributes := by
  obtain ⟨new, hnew, hall⟩ := h.declarations
  cases new with
  | nil => rw [hall, List.append_nil]
  | cons d new =>
    have hnodup := h.once honce
    rw [hall, List.map_append, List.nodup_append] at hnodup
    have hd := hknown d (hnew.subset List.mem_cons_self)
    exact absurd rfl (hnodup.2.2 d.1 hd d.1 (List.mem_map_of_mem List.mem_cons_self))

/-- The default namespace inside an element depends on its declarations only. -/
theorem Element.defaultInside_congr {e e' : Element}
    (h : Attribute.declarations e'.attributes = Attribute.declarations e.attributes)
    (outside : Option String) :
    (Content.element e').defaultInside outside = (Content.element e).defaultInside outside := by
  unfold Content.defaultInside Attribute.defaultDeclared? Content.attributes
  rw [h]

/-- The top levels differ in one tree, whose root is an element that keeps its name, its namespace and
its declarations; below it the elements are the same. -/
inductive Forest.SameElements (top top' : Forest Node) : Prop
  | intro (before : List NodeTree) (k : Nat) (e e' : Element) (below below' : Forest Node)
      (after : List NodeTree) (split : top.trees = before ++ (⟨k, .element e⟩, below) :: after)
      (split' : top'.trees = before ++ (⟨k, .element e'⟩, below') :: after)
      (name : e'.name = e.name) (namespaceUri : e'.namespaceUri = e.namespaceUri)
      (declarations :
        Attribute.declarations e'.attributes = Attribute.declarations e.attributes)
      (elements : below'.elements = below.elements)

/-- The root stands at its place. -/
theorem Forest.RootAmong.nthRoot? {top : Forest Node} {before after : List NodeTree} {r : NodeTree}
    (h : top.RootAmong before r after) {p : Place} (hp : p.position = 1)
    (hr : p.accepts r.1 = true) : top.nthRoot? p.accepts p.position = some r := by
  rw [Forest.nthRoot?_eq_some_iff (by omega)]
  refine ⟨before, after, h.split, hr, ?_⟩
  rw [hp, (Forest.rootCount_eq_zero _ _).2]
  intro t ht
  rw [Bool.eq_false_iff]
  intro hpasses
  obtain ⟨e, he, -⟩ := Place.accepts_iff.1 hpasses
  have helement := (h.before t ht).isElement
  rw [he] at helement
  cases helement

/-- Where places lead does not depend on the node that they start from, but on what is below it. -/
theorem Forest.descend?_from {places : List Place} {inScope : Option String} {n : Node}
    {below : Forest Node} {u : NodeTree}
    (h : descend? (places.map Place.stepTest) inScope (n, below) = some u) (n' : Node) :
    ∃ v, descend? (places.map Place.stepTest) inScope (n', below) = some v ∧ v.2 = u.2 := by
  cases places with
  | nil =>
    have hhere : (n, below) = u := Option.some.inj h
    exact ⟨(n', below), rfl, by rw [← hhere]⟩
  | cons p places => exact ⟨u, h, rfl⟩

namespace FieldWriter

variable {exact : Prop} {w : FieldWriter} {p : Path} {text : String} {plan : WritePlan}

/-- A text that is written at a path whose places lead to a node is put there, and the elements of the
document stay, if the root declares what the plan needs. -/
theorem replaced_of_planFor (hplan : w.planFor p text = .ok plan) (hparsed : p.Parsed)
    (hattr : p.attr = none) {top : Forest Node} (htree : w.document.IsTree top)
    {before after : List NodeTree} {k : Nat} {e : Element} {below : Forest Node}
    (hamong : top.RootAmong before (⟨k, .element e⟩, below) after)
    (hlawful : NodeTree.Lawful exact Scope.outermost (⟨k, .element e⟩, below))
    (hknown : ∀ d ∈ plan.declarations, d.1 ∈ e.attributes.filterMap Attribute.declares)
    {u : NodeTree}
    (hu : w.document.locate? ((plan.root :: plan.places).map Place.stepTest) = some u) :
    ∃ top', (plan.write w.document).IsTree top' ∧ top.SameElements top' ∧ ∃ v u' m m',
      (plan.write w.document).locate? ((plan.root :: plan.places).map Place.stepTest) = some u' ∧
        v.2 = u.2 ∧ (Payload.text text).Filled v m u' m' := by
  obtain ⟨-, hput, -, hcheck⟩ := planFor_eq_ok hplan
  have hpayload : plan.payload = .text text := by
    rw [hattr] at hput
    exact (Except.ok.inj hput).symm
  have hpositions := one_le_position_of_planFor hparsed hplan
  have hplaces := fun q hq => hpositions q (List.mem_cons_of_mem _ hq)
  obtain ⟨top₀, top', htree₀, htree', -, hwritten⟩ := written_write hplaces htree
  obtain rfl : top₀ = top := (Forest.cons.inj (htree₀.symm.trans htree)).2.1
  -- the first place is that of the root
  obtain ⟨hle, hfits⟩ := checkRoot_eq_ok hcheck
  have haccepts := hfits htree (hamong.at hlawful.isElement)
  have hposition : plan.root.position = 1 := by
    have := hpositions plan.root List.mem_cons_self
    omega
  obtain ⟨r', ⟨k', e₁, e', hnode, hdeclared, hbelow⟩, htrees⟩ :=
    hwritten.of_rootAmong hamong hlawful.isElement
  rw [Node.mk.injEq, Content.element.injEq] at hnode
  obtain ⟨rfl, rfl⟩ := hnode
  cases hlawful with
  | intro opens named separate content =>
    have hsame : Attribute.declarations e'.attributes = Attribute.declarations e.attributes := by
      rw [← Attribute.prefixes_declarations] at hknown
      refine hdeclared.declarations_eq ?_ hknown
      rw [Attribute.prefixes_declarations]
      exact opens.attributes.prefixes
    unfold Document.locate? at hu ⊢
    rw [htree.node?_root, Option.bind_eq_bind, Option.bind_some, List.map_cons,
      Forest.descend?_cons_stepTest, hamong.nthRoot? hposition haccepts, Option.bind_some] at hu
    obtain ⟨v, hv, hvu⟩ := Forest.descend?_from hu ⟨k, .element e'⟩
    dsimp only at hv
    rw [← Element.defaultInside_congr hsame] at hv
    rw [hpayload] at hbelow
    obtain ⟨hroot, helements, u', m, m', hdescend, hfilled⟩ :=
      hbelow.replaced content hplaces hv
    obtain ⟨n', below'⟩ := r'
    obtain rfl : n' = ⟨k, .element e'⟩ := hroot
    have hamong' : top'.RootAmong before (⟨k, .element e'⟩, below') after :=
      ⟨htrees, hamong.before, hamong.after⟩
    have haccepts' : plan.root.accepts ⟨k, .element e'⟩ = true := by
      rw [plan.root.accepts_same (hdeclared.same k)]
      exact haccepts
    refine ⟨top', htree', .intro before k e e' below below' after hamong.split htrees
      hdeclared.name hdeclared.namespaceUri hsame helements, v, u', m, m', ?_, hvu, hfilled⟩
    rw [htree'.node?_root, Option.bind_eq_bind, Option.bind_some, List.map_cons,
      Forest.descend?_cons_stepTest, hamong'.nthRoot? hposition haccepts', Option.bind_some]
    exact hdescend

end FieldWriter

end MarkupFields
