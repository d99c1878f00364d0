import MarkupFields.Proofs.Tree.Placed
import MarkupFields.Proofs.Writer.Overwritten
import MarkupFields.Proofs.Writer.Preserved

/-
  What the nodes of a document declare, each declaration with the handle of its node
  (`Forest.declared`). Where only elements have anything below them, writing below a node leaves this
  list as it is (`WrittenBelow.declared`): new elements declare nothing, what gives way is character data,
  and an attribute that is set is none of the declarations.
-/

namespace MarkupFields

open Document (hasHandle)

/-! ## Declarations and their nodes -/

/-- What the node declares, each declaration with the handle of the node. -/
def Node.declared (n : Node) : List (Nat × (String × String)) :=
  (Attribute.declarations n.content.attributes).map fun d => (n.handle, d)

/-- What the nodes of a forest declare, in document order. -/
def Forest.declared (f : Forest Node) : List (Nat × (String × String)) :=
  f.preorder.flatMap Node.declared

/-- What the nodes of a tree declare, in document order. -/
def NodeTree.declared (t : NodeTree) : List (Nat × (String × String)) :=
  t.1.declared ++ t.2.declared

namespace Forest

theorem declared_cons (n : Node) (below beside : Forest Node) :
    (cons n below beside).declared = n.declared ++ (below.declared ++ beside.declared) := by
  unfold declared
  rw [preorder, List.flatMap_cons, List.flatMap_append]

theorem declared_eq_flatMap (f : Forest Node) :
    f.declared = f.trees.flatMap NodeTree.declared := by
  induction f with
  | nil => rfl
  | cons n below beside _ ih =>
    rw [declared_cons, trees, List.flatMap_cons, ← ih, ← List.append_assoc]
    rfl

/-- Where a handle does not come nothing is declared with it. -/
theorem filter_declared_of_not_mem {f : Forest Node} {h : Nat} (hh : h ∉ f.handles) :
    f.declared.filter (fun x => x.1 == h) = [] := by
  rw [List.filter_eq_nil_iff]
  intro x hx hsame
  obtain ⟨n, hn, hx⟩ := List.mem_flatMap.1 hx
  obtain ⟨d, -, rfl⟩ := List.mem_map.1 hx
  exact hh (beq_iff_eq.1 hsame ▸ List.mem_map_of_mem hn)

end Forest

theorem Node.filter_declared_self (n : Node) :
    n.declared.filter (fun x => x.1 == n.handle) = n.declared := by
  rw [List.filter_eq_self]
  intro x hx
  obtain ⟨d, -, rfl⟩ := List.mem_map.1 hx
  exact beq_self_eq_true _

theorem Node.filter_declared_of_ne {n : Node} {h : Nat} (hn : n.handle ≠ h) :
    n.declared.filter (fun x => x.1 == h) = [] := by
  rw [List.filter_eq_nil_iff]
  intro x hx hsame
  obtain ⟨d, -, rfl⟩ := List.mem_map.1 hx
  exact hn (beq_iff_eq.1 hsame)

/-- What is declared with a handle is declared at its node. -/
theorem Forest.OnlyAt.filter_declared {f : Forest Node} {h : Nat} {t : NodeTree}
    (ht : OnlyAt h f t) : f.declared.filter (fun x => x.1 == h) = t.1.declared := by
  induction ht with
  | @here n below beside named notBelow notBeside =>
    subst named
    rw [declared_cons, List.filter_append, List.filter_append, n.filter_declared_self,
      filter_declared_of_not_mem notBelow, filter_declared_of_not_mem notBeside, List.append_nil,
      List.append_nil]
  | inside other _ notBeside ih =>
    rw [declared_cons, List.filter_append, List.filter_append, Node.filter_declared_of_ne other,
      filter_declared_of_not_mem notBeside, ih, List.append_nil, List.nil_append]
  | outside other notBelow _ ih =>
    rw [declared_cons, List.filter_append, List.filter_append, Node.filter_declared_of_ne other,
      filter_declared_of_not_mem notBelow, ih, List.nil_append, List.nil_append]

/-- The declarations of a node of a document. -/
theorem Document.declarations_attributes {d : Document} (hd : d.Valid) {top : Forest Node}
    (htree : d.IsTree top) (h : Nat) :
    Attribute.declarations (d.attributes h) =
      (top.declared.filter fun x => x.1 == h).map Prod.snd := by
  have hall : d.forest.declared = top.declared := by
    rw [show d.forest = .cons ⟨Document.root, .document⟩ top .nil from htree, Forest.declared_cons]
    exact List.append_nil _
  rw [← hall]
  unfold Document.attributes Document.content? Document.node?
  by_cases hh : h ∈ d.forest.handles
  · obtain ⟨t, ht⟩ := Forest.onlyAt_of_mem hd.nodup hh
    rw [ht.find?, ht.filter_declared]
    unfold Node.declared
    rw [List.map_map]
    exact (List.map_id _).symm
  · rw [Forest.find?_of_not_mem hh, Forest.filter_declared_of_not_mem hh]
    rfl

/-! ## Writing below the root -/

/-- Nothing but elements has anything below it. -/
def Forest.ElementsBranch : Forest Node → Prop
  | .nil => True
  | .cons n below beside =>
    (n.content.isElement = false → below = .nil) ∧ below.ElementsBranch ∧ beside.ElementsBranch

/-- Nothing but elements has anything below it in the tree. -/
structure NodeTree.ElementsBranch (t : NodeTree) : Prop where
  leaf : t.1.content.isElement = false → t.2 = .nil
  below : t.2.ElementsBranch

theorem Forest.elementsBranch_iff_trees {f : Forest Node} :
    f.ElementsBranch ↔ ∀ t ∈ f.trees, NodeTree.ElementsBranch t := by
  induction f with
  | nil => exact ⟨fun _ t ht => absurd ht List.not_mem_nil, fun _ => trivial⟩
  | cons n below beside _ ih =>
    rw [trees, List.forall_mem_cons, ← ih, ElementsBranch, ← and_assoc]
    exact and_congr_left fun _ => ⟨fun h => ⟨h.1, h.2⟩, fun h => ⟨h.leaf, h.below⟩⟩

theorem Forest.Lawful.elementsBranch {exact : Prop} {s : Scope} {f : Forest Node}
    (h : f.Lawful exact s) : f.ElementsBranch := by
  induction h with
  | nil => trivial
  | element _ _ _ _ _ ihc ihr => exact ⟨nofun, ihc, ihr⟩
  | leaf _ _ ih => exact ⟨fun _ => rfl, trivial, ih⟩

/-- Where only elements have anything below them, character data that gives way declares nothing. -/
theorem NodeTree.flatMap_declared_filter {ts : List NodeTree}
    (h : ∀ t ∈ ts, NodeTree.ElementsBranch t) :
    (ts.filter fun t => !t.1.content.isCharacterData).flatMap NodeTree.declared =
      ts.flatMap NodeTree.declared := by
  induction ts with
  | nil => rfl
  | cons t ts ih =>
    obtain ⟨ht, hts⟩ := List.forall_mem_cons.1 h
    rw [List.flatMap_cons, ← ih hts]
    cases hdata : t.1.content.isCharacterData with
    | false => rw [List.filter_cons_of_pos (by simp [hdata]), List.flatMap_cons]
    | true =>
      have helement : t.1.content.isElement = false := by
        rw [← Bool.not_eq_true]
        intro helement
        rw [Forest.isCharacterData_of_isElement helement] at hdata
        cases hdata
      have hnothing : NodeTree.declared t = [] := by
        unfold NodeTree.declared Node.declared
        rw [Content.attributes_of_not_element helement, ht.leaf helement]
        rfl
      rw [List.filter_cons_of_neg (by simp [hdata]), hnothing, List.nil_append]

namespace Payload.Filled

variable {payload : Payload} {t t' : NodeTree} {next next' : Nat}

theorem elementsBranch (h : payload.Filled t next t' next') (ht : t.2.ElementsBranch) :
    t'.2.ElementsBranch := by
  cases h with
  | emptied trees =>
    rw [Forest.elementsBranch_iff_trees] at ht ⊢
    rw [trees]
    exact fun u hu => ht u (List.mem_filter.1 hu).1
  | text nonempty trees =>
    rw [Forest.elementsBranch_iff_trees] at ht ⊢
    rw [trees]
    intro u hu
    rcases List.mem_append.1 hu with hu | hu
    · exact ht u (List.mem_filter.1 hu).1
    · rw [List.mem_singleton.1 hu]
      exact ⟨fun _ => rfl, trivial⟩
  | attr => exact ht

theorem declared (h : payload.Filled t next t' next') (ht : t.2.ElementsBranch) :
    t'.2.declared = t.2.declared := by
  cases h with
  | @emptied n old new next trees =>
    rw [Forest.declared_eq_flatMap new, trees,
      NodeTree.flatMap_declared_filter (Forest.elementsBranch_iff_trees.1 ht),
      ← Forest.declared_eq_flatMap]
  | @text s n old new next nonempty trees =>
    rw [Forest.declared_eq_flatMap new, trees, List.flatMap_append,
      NodeTree.flatMap_declared_filter (Forest.elementsBranch_iff_trees.1 ht),
      ← Forest.declared_eq_flatMap]
    exact List.append_nil _
  | attr => rfl

end Payload.Filled

/-- New elements are leaves. -/
theorem Forest.ElementsBranch.append_fresh {f : Forest Node} (h : f.ElementsBranch) (p : Place)
    (next count : Nat) : ∀ t ∈ f.trees ++ p.fresh next count, NodeTree.ElementsBranch t := by
  refine List.forall_mem_append.2 ⟨Forest.elementsBranch_iff_trees.1 h, fun t ht => ?_⟩
  obtain ⟨k, -, rfl⟩ := List.mem_map.1 ht
  exact ⟨nofun, trivial⟩

/-- New elements declare nothing. -/
theorem Place.declared_fresh (p : Place) (next count : Nat) :
    (p.fresh next count).flatMap NodeTree.declared = [] := by
  rw [List.flatMap_eq_nil_iff]
  intro t ht
  obtain ⟨k, -, rfl⟩ := List.mem_map.1 ht
  rfl

namespace WrittenBelow

variable {payload : Payload} {places : List Place} {t t' : NodeTree} {next next' : Nat}

theorem elementsBranch (h : WrittenBelow payload places t next t' next')
    (ht : t.2.ElementsBranch) : t'.2.ElementsBranch := by
  induction h with
  | here filled => exact filled.elementsBranch ht
  | @step p places n old new before after t t' next count next' _ split written trees ih =>
    have hlevel := Forest.ElementsBranch.append_fresh ht p next count
    rw [split.split, List.forall_mem_append, List.forall_mem_cons] at hlevel
    obtain ⟨hbefore, htree, hafter⟩ := hlevel
    rw [Forest.elementsBranch_iff_trees, trees, List.forall_mem_append, List.forall_mem_cons]
    refine ⟨hbefore, ⟨fun helement => ?_, ih htree.below⟩, hafter⟩
    obtain ⟨e, he, -⟩ := Place.accepts_iff.1 split.passes
    rw [written.extends.1.isElement, he] at helement
    cases helement

/-- The node that is written below declares what it declared. -/
theorem declared_node (h : WrittenBelow payload places t next t' next') (hr : payload.Regular) :
    t'.1.declared = t.1.declared := by
  unfold Node.declared
  rw [h.declarations hr, h.extends.1.handle]

/-- The nodes below declare what they declared. -/
theorem declared (h : WrittenBelow payload places t next t' next') (hr : payload.Regular)
    (ht : t.2.ElementsBranch) : t'.2.declared = t.2.declared := by
  induction h with
  | here filled => exact filled.declared ht
  | @step p places n old new before after t t' next count next' _ split written trees ih =>
    have hlevel := Forest.ElementsBranch.append_fresh ht p next count
    rw [split.split, List.forall_mem_append, List.forall_mem_cons] at hlevel
    have hold : old.declared = (old.trees ++ p.fresh next count).flatMap NodeTree.declared := by
      rw [List.flatMap_append, p.declared_fresh, List.append_nil, Forest.declared_eq_flatMap]
    have htree : NodeTree.declared t' = NodeTree.declared t := by
      unfold NodeTree.declared
      rw [written.declared_node hr, ih hlevel.2.1.below]
    show new.declared = old.declared
    rw [hold, split.split, Forest.declared_eq_flatMap, trees, List.flatMap_append,
      List.flatMap_append, List.flatMap_cons, List.flatMap_cons, htree]

end WrittenBelow

/-! ## From the root on -/

section
variable {plan : WritePlan} {next next' : Nat}

theorem WrittenRoot.isElement {r r' : NodeTree} (h : WrittenRoot plan r next r' next') :
    r'.1.content.isElement = true := by
  obtain ⟨i, e, e', -, -, hwritten⟩ := h
  exact hwritten.extends.1.isElement

theorem WrittenRoot.elementsBranch {r r' : NodeTree} (h : WrittenRoot plan r next r' next')
    (hr : r.2.ElementsBranch) : NodeTree.ElementsBranch r' := by
  have helement := h.isElement
  obtain ⟨i, e, e', -, -, hwritten⟩ := h
  refine ⟨fun hleaf => ?_, hwritten.elementsBranch hr⟩
  rw [helement] at hleaf
  cases hleaf

/-- What is declared in the tree of the root with another handle than that of the root stays. -/
theorem WrittenRoot.filter_declared {r r' : NodeTree} (h : WrittenRoot plan r next r' next')
    (hplan : plan.payload.Regular) (hr : r.2.ElementsBranch) {k : Nat} (hk : r'.1.handle ≠ k) :
    (NodeTree.declared r').filter (fun x => x.1 == k) =
      (NodeTree.declared r).filter fun x => x.1 == k := by
  have hsame := h.extends.1.handle
  obtain ⟨i, e, e', hroot, -, hwritten⟩ := h
  unfold NodeTree.declared
  rw [List.filter_append, List.filter_append, Node.filter_declared_of_ne hk,
    Node.filter_declared_of_ne (hsame ▸ hk), hwritten.declared hplan hr]

theorem WrittenTop.elementsBranch {top top' : Forest Node} (h : WrittenTop plan top next top' next')
    (ht : top.ElementsBranch) : top'.ElementsBranch := by
  rw [Forest.elementsBranch_iff_trees] at ht ⊢
  cases h with
  | present before r r' after split _ written trees =>
    rw [split, List.forall_mem_append, List.forall_mem_cons] at ht
    rw [trees, List.forall_mem_append, List.forall_mem_cons]
    exact ⟨ht.1, written.elementsBranch ht.2.1.below, ht.2.2⟩
  | absent r' _ written trees =>
    rw [trees, List.forall_mem_append, List.forall_mem_singleton]
    exact ⟨ht, written.elementsBranch trivial⟩

/-- Afterwards there is a root element. -/
theorem WrittenTop.exists_at {top top' : Forest Node} (h : WrittenTop plan top next top' next') :
    ∃ before r after, Forest.At (fun n : Node => n.content.isElement) 1 top'.trees before r after := by
  cases h with
  | present before _ r' after _ first written trees =>
    exact ⟨before, r', after, trees, written.isElement, by rw [(Forest.rootCount_eq_zero _ _).2 first]⟩
  | absent r' none written trees =>
    exact ⟨top.trees, r', [], trees, written.isElement, by rw [(Forest.rootCount_eq_zero _ _).2 none]⟩

/-- What is declared with another handle than that of the root stays. -/
theorem WrittenTop.filter_declared {top top' : Forest Node} (h : WrittenTop plan top next top' next')
    (hplan : plan.payload.Regular) (ht : top.ElementsBranch) {before after : List NodeTree}
    {r : NodeTree}
    (hat : Forest.At (fun n : Node => n.content.isElement) 1 top'.trees before r after) {k : Nat}
    (hk : r.1.handle ≠ k) :
    top'.declared.filter (fun x => x.1 == k) = top.declared.filter fun x => x.1 == k := by
  rw [Forest.elementsBranch_iff_trees] at ht
  rw [Forest.declared_eq_flatMap, Forest.declared_eq_flatMap]
  cases h with
  | present before' r₀ r' after' split first written trees =>
    obtain ⟨rfl, rfl, rfl⟩ := hat.unique
      ⟨trees, written.isElement, by rw [(Forest.rootCount_eq_zero _ _).2 first]⟩
    rw [split, List.forall_mem_append, List.forall_mem_cons] at ht
    rw [trees, split, List.flatMap_append, List.flatMap_append, List.flatMap_cons,
      List.flatMap_cons, List.filter_append, List.filter_append, List.filter_append,
      List.filter_append, written.filter_declared hplan ht.2.1.below hk]
  | absent r' none written trees =>
    obtain ⟨rfl, rfl, rfl⟩ := hat.unique
      ⟨trees, written.isElement, by rw [(Forest.rootCount_eq_zero _ _).2 none]⟩
    rw [trees, List.flatMap_append, List.flatMap_singleton, List.filter_append,
      written.filter_declared hplan trivial hk]
    exact List.append_nil _

end

end MarkupFields
