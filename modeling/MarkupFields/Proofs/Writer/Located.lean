import MarkupFields.Proofs.Writer.Grown

/-
  The places of a plan lead to what the plan filled. Below the root each place leads to the tree that
  was written into, for this tree still stands at the position: what was written changed neither its
  name nor its namespace. The root stands at its place too: it was made there, or it was found to fit
  before anything was written.
-/

namespace MarkupFields

open Text

/-! ## Below the root -/

/-- Places lead to the tree that was filled. -/
theorem WrittenBelow.located {payload : Payload} {places : List Place} {t t' : NodeTree}
    {next next' : Nat} (h : WrittenBelow payload places t next t' next')
    (inScope : Option String) :
    ∃ u u' k k', Forest.descend? (places.map Place.stepTest) inScope t' = some u' ∧
      payload.Filled u k u' k' := by
  induction h generalizing inScope with
  | here filled => exact ⟨_, _, _, _, rfl, filled⟩
  | @step p places n old new before after t t' next count next' _ split written trees ih =>
    obtain ⟨u, u', k, k', hdescend, hfilled⟩ := ih (t'.1.content.defaultInside inScope)
    have hsame := written.extends.1
    have hpasses : p.accepts t'.1 = true := by
      rw [p.accepts_same hsame]
      exact split.passes
    have hat : Forest.At p.accepts p.position new.trees before t' after :=
      ⟨trees, hpasses, split.rank⟩
    have hnth := Forest.nthRoot?_of_at hat
    rw [Forest.ofTrees_trees] at hnth
    refine ⟨u, u', k, k', ?_, hfilled⟩
    rw [List.map_cons, Forest.descend?_cons_stepTest, hnth]
    exact hdescend

/-! ## The root -/

/-- Where the top level is one tree afterwards, a plan was carried out on its root: on the one tree
that was there before, or, where nothing was there, on a new element for the root place. -/
theorem WrittenTop.root {plan : WritePlan} {top : Forest Node} {r : NodeTree} {next next' : Nat}
    (h : WrittenTop plan top next (Forest.single r) next') :
    ∃ r₀ k k', WrittenRoot plan r₀ k r k' ∧
      (top = Forest.single r₀ ∨ top = .nil ∧ ∃ i, r₀ = (⟨i, plan.root.element⟩, .nil)) := by
  cases h with
  | present before r₀ r' after split first written trees =>
    have htrees : [r] = before ++ r' :: after := trees
    rcases List.singleton_eq_append_iff.1 htrees with ⟨rfl, hcons⟩ | ⟨-, hmore⟩
    · obtain ⟨rfl, rfl⟩ := List.cons.inj hcons
      exact ⟨r₀, _, _, written, .inl (Forest.ext_trees split)⟩
    · cases hmore
  | absent r' none written trees =>
    have htrees : [r] = top.trees ++ [r'] := trees
    rcases List.singleton_eq_append_iff.1 htrees with ⟨hempty, hcons⟩ | ⟨-, hmore⟩
    · rw [(List.cons.inj hcons).1] at written
      exact ⟨_, _, _, written, .inr ⟨Forest.ext_trees hempty, _, rfl⟩⟩
    · cases hmore

namespace FieldWriter

/-- The first element of a top level is the root of the first tree that is one. -/
theorem findSome?_element_of_at {top : Forest Node} {before after : List NodeTree} {r : NodeTree}
    (hat : Forest.At (fun n : Node => n.content.isElement) 1 top.trees before r after) {e : Element}
    (he : r.1.content = .element e) :
    (top.roots.map Node.content).findSome? Content.element? = some e := by
  have hbefore : (before.map fun t => t.1.content).findSome? Content.element? = none := by
    rw [List.findSome?_eq_none_iff]
    intro c hc
    obtain ⟨t, ht, rfl⟩ := List.mem_map.1 hc
    have hnone : t.1.content.element?.isSome = false := hat.first t ht
    rwa [Option.isSome_eq_false_iff, Option.isNone_iff_eq_none] at hnone
  rw [Forest.roots_eq_map_trees, List.map_map, hat.split, List.map_append, List.findSome?_append]
  rw [show before.map (Node.content ∘ Prod.fst) = before.map fun t => t.1.content from rfl, hbefore]
  rw [List.map_cons, Function.comp_apply, he]
  rfl

/-- A root that can be written to has its place as the first element, if there is an element. -/
theorem checkRoot_eq_ok {w : FieldWriter} {root : Place} (h : w.checkRoot root = .ok ()) :
    root.position ≤ 1 ∧ ∀ {top : Forest Node} {before after : List NodeTree} {r : NodeTree},
      w.document.IsTree top →
      Forest.At (fun n : Node => n.content.isElement) 1 top.trees before r after →
      root.accepts r.1 = true := by
  unfold checkRoot at h
  by_cases hpos : root.position > 1
  · rw [if_pos hpos] at h
    cases h
  · rw [if_neg hpos] at h
    refine ⟨by omega, fun {top before after r} htree hat => ?_⟩
    obtain ⟨⟨k, c⟩, below⟩ := r
    cases c with
    | element e =>
      rw [htree.below_root, findSome?_element_of_at hat rfl] at h
      by_cases hfits : root.test.acceptsNode none (.element e) = true
      · exact hfits
      · simp only [if_neg hfits] at h
        cases h
    | _ => cases hat.passes

/-- The root can be written to where the first element stands at its place. -/
theorem checkRoot_of_at {w : FieldWriter} {root : Place} {top : Forest Node}
    {before after : List NodeTree} {r : NodeTree} (htree : w.document.IsTree top)
    (hposition : root.position ≤ 1)
    (hat : Forest.At (fun n : Node => n.content.isElement) 1 top.trees before r after)
    (hr : root.accepts r.1 = true) : w.checkRoot root = .ok () := by
  obtain ⟨e, he, -⟩ := Place.accepts_iff.1 hr
  unfold Place.accepts at hr
  rw [he] at hr
  unfold checkRoot
  rw [if_neg (by omega), htree.below_root, findSome?_element_of_at hat he]
  simp only [hr, if_true]

/-- After the write of a plain field its places lead to the tree that was filled. -/
theorem Built.located {n : Namespaces} {w : FieldWriter} (hw : w.Built n) {f : Field}
    (hf : f.Plain) {p : Path} {text : String} {plan : WritePlan} (hp : w.pathOf f = .ok p)
    (ht : textOf? f = some text) (h : w.planFor p text = .ok plan) :
    ∃ u u' k k', (plan.write w.document).locate?
        ((plan.root :: plan.places).map Place.stepTest) = some u' ∧
      plan.payload.Filled u k u' k' := by
  obtain ⟨-, -, top, ds, r, htree, htree', hwritten, -, hr, -⟩ := hw.written hf hp ht h
  obtain ⟨hresolved, -, -, hroot⟩ := planFor_eq_ok h
  have hpos := one_le_position_of_planFor (Path.parsed_of_parse (pathOf_eq_ok hp).1) h plan.root
    List.mem_cons_self
  obtain ⟨hle, hfits⟩ := checkRoot_eq_ok hroot
  obtain ⟨r₀, next, next', hwrittenRoot, hbefore⟩ := hwritten.root
  have haccepts : plan.root.accepts r.1 = true := by
    rw [plan.root.accepts_same hwrittenRoot.extends.1]
    rcases hbefore with rfl | ⟨-, i, rfl⟩
    · have hat : Forest.At (fun n : Node => n.content.isElement) 1 [r₀] [] r₀ [] := by
        obtain ⟨k, e, -, hnode, -⟩ := hwrittenRoot
        exact ⟨rfl, by rw [hnode]; rfl, rfl⟩
      exact hfits htree hat
    · exact plan.root.accepts_element i
  obtain ⟨k, e, e', -, -, hbelow⟩ := hwrittenRoot
  obtain ⟨u, u', m, m', hdescend, hfilled⟩ :=
    hbelow.located (r.1.content.defaultInside none)
  refine ⟨u, u', m, m', ?_, hfilled⟩
  have hposition : plan.root.position = 1 := by omega
  have hnth : (Forest.single r).nthRoot? plan.root.accepts 1 = some r := by
    simp only [Forest.single, Forest.nthRoot?, if_pos haccepts, if_true]
  unfold Document.locate?
  rw [htree'.node?_root, Option.bind_eq_bind, Option.bind_some, List.map_cons,
    Forest.descend?_cons_stepTest, hposition, hnth]
  exact hdescend

end FieldWriter

end MarkupFields
