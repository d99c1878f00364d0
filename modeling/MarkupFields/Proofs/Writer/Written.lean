import MarkupFields.Proofs.Path.Parsed
import MarkupFields.Proofs.Tree.Level
import MarkupFields.Proofs.Writer.Outcome

/-
  What carrying out a plan makes of a document, said without the functions that do it. At each place
  below the root the level is the old one with the missing elements behind it, and one tree of it is
  written into; at the end of the places the payload is put; the root element may gain declarations
  (`WrittenBelow`, `Declared`, `WrittenTop`). Everything that stands before or after the tree that is
  written into appears on both sides of these relations, so it is unchanged.

  `written_write`: a plan whose positions count from one does exactly this to a document that is
  one tree.
-/

namespace MarkupFields

/-! ## Places -/

namespace Place

/-- So many trees without branches for the place, with handles from the given one on. -/
def fresh (p : Place) (next count : Nat) : List NodeTree :=
  (List.range' next count).map fun h => (⟨h, p.element⟩, .nil)

@[simp] theorem length_fresh (p : Place) (next count : Nat) :
    (p.fresh next count).length = count := by
  simp [fresh]

theorem trees_elements (p : Place) (next count : Nat) :
    (p.elements next count).trees = p.fresh next count := by
  induction count generalizing next with
  | zero => rfl
  | succ count ih =>
    rw [fresh, List.range'_succ, List.map_cons, elements, Forest.trees, ih]
    rfl

/-- A new element stands at its place. -/
theorem accepts_element (p : Place) (h : Nat) : p.accepts ⟨h, p.element⟩ = true := by
  simp [accepts, test, element, NameTest.acceptsNode, NameTest.acceptsNamespace]

/-- What stands at a place is an element with its name and namespace. -/
theorem accepts_iff {p : Place} {n : Node} :
    p.accepts n = true ↔ ∃ e, n.content = .element e ∧ e.name.localName = p.name.localName ∧
      e.namespaceUri = p.namespaceUri := by
  obtain ⟨h, c⟩ := n
  cases c with
  | element e =>
    have hc : p.namespaceUri = e.namespaceUri ↔ e.namespaceUri = p.namespaceUri := eq_comm
    simp [accepts, test, NameTest.acceptsNode, NameTest.acceptsNamespace, hc]
  | _ => simp [accepts, NameTest.acceptsNode]

theorem rootCount_fresh (p : Place) (next count : Nat) :
    Forest.rootCount p.accepts (p.fresh next count) = count := by
  unfold Forest.rootCount fresh
  rw [List.countP_map, List.countP_eq_length.2, List.length_range']
  intro h _
  exact p.accepts_element h

end Place

/-! ## The relations -/

/-- The payload was put into a tree: the character data of the level gave way to one text at its end,
or an attribute was set. The numbers are the next free handle before and after. -/
inductive Payload.Filled : Payload → NodeTree → Nat → NodeTree → Nat → Prop
  | emptied {n : Node} {old new : Forest Node} {next : Nat}
      (trees : new.trees = old.trees.filter fun t => !t.1.content.isCharacterData) :
      Filled (.text "") (n, old) next (n, new) next
  | text {s : String} {n : Node} {old new : Forest Node} {next : Nat} (nonempty : s ≠ "")
      (trees : new.trees =
        (old.trees.filter fun t => !t.1.content.isCharacterData) ++ [(⟨next, .text s⟩, .nil)]) :
      Filled (.text s) (n, old) next (n, new) (next + 1)
  | attr {a : Attribute} {h : Nat} {e : Element} {below : Forest Node} {next : Nat} :
      Filled (.attr a) (⟨h, .element e⟩, below) next
        (⟨h, .element { e with attributes := a.set e.attributes }⟩, below) next

/-- A payload was written below a node through places: each level got the elements that were missing
for its position, behind all others, and the tree at the position was written into. -/
inductive WrittenBelow (payload : Payload) : List Place → NodeTree → Nat → NodeTree → Nat → Prop
  | here {t t' : NodeTree} {next next' : Nat} (filled : payload.Filled t next t' next') :
      WrittenBelow payload [] t next t' next'
  | step {p : Place} {places : List Place} {n : Node} {old new : Forest Node}
      {before after : List NodeTree} {t t' : NodeTree} {next count next' : Nat}
      (count_eq : count = p.position - Forest.rootCount p.accepts old.trees)
      (split : Forest.At p.accepts p.position (old.trees ++ p.fresh next count) before t after)
      (written : WrittenBelow payload places t (next + count) t' next')
      (trees : new.trees = before ++ t' :: after) :
      WrittenBelow payload (p :: places) (n, old) next (n, new) next'

/-- Prefixes were declared on an element: its declarations are the old ones and behind them some of
the given ones, its other attributes are as they were. Each of the prefixes is declared afterwards,
and none twice that was not before. -/
structure Declared (ds : List (String × String)) (e e' : Element) : Prop where
  name : e'.name = e.name
  namespaceUri : e'.namespaceUri = e.namespaceUri
  regular : e'.attributes.filter (fun a => !a.isDeclaration) =
    e.attributes.filter fun a => !a.isDeclaration
  declarations : ∃ new, new.Sublist ds ∧
    Attribute.declarations e'.attributes = Attribute.declarations e.attributes ++ new
  origin : ∀ a ∈ e'.attributes, a ∈ e.attributes ∨ ∃ d ∈ ds, a = Attribute.declaration d.1 d.2
  known : ∀ d ∈ ds, d.1 ∈ (Attribute.declarations e'.attributes).map Prod.fst
  once : ((Attribute.declarations e.attributes).map Prod.fst).Nodup →
    ((Attribute.declarations e'.attributes).map Prod.fst).Nodup

/-- A plan was carried out on the root element. -/
def WrittenRoot (plan : WritePlan) (r : NodeTree) (next : Nat) (r' : NodeTree) (next' : Nat) :
    Prop :=
  ∃ h e e', r.1 = ⟨h, .element e⟩ ∧ Declared plan.declarations e e' ∧
    WrittenBelow plan.payload plan.places (⟨h, .element e'⟩, r.2) next r' next'

/-- A plan was carried out on the top level of a document. A root element was added behind the other
nodes only if there was none. -/
inductive WrittenTop (plan : WritePlan) (top : Forest Node) (next : Nat) (top' : Forest Node)
    (next' : Nat) : Prop
  | present (before : List NodeTree) (r r' : NodeTree) (after : List NodeTree)
      (split : top.trees = before ++ r :: after)
      (first : ∀ t ∈ before, t.1.content.isElement = false)
      (written : WrittenRoot plan r next r' next')
      (trees : top'.trees = before ++ r' :: after)
  | absent (r' : NodeTree) (none : ∀ t ∈ top.trees, t.1.content.isElement = false)
      (written : WrittenRoot plan (⟨next, plan.root.element⟩, .nil) (next + 1) r' next')
      (trees : top'.trees = top.trees ++ [r'])

/-- The forest of the document is one tree: the document node with the top level below it. -/
def Document.IsTree (d : Document) (top : Forest Node) : Prop :=
  d.forest = .cons ⟨Document.root, .document⟩ top .nil

/-- A plan was carried out on a document. -/
def Document.Written (plan : WritePlan) (d d' : Document) : Prop :=
  ∃ top top', d.IsTree top ∧ d'.IsTree top' ∧ d'.declaration = d.declaration ∧
    WrittenTop plan top d.allocated top' d'.allocated

/-! ## Declaring -/

namespace Attribute

theorem declarations_append (as bs : List Attribute) :
    declarations (as ++ bs) = declarations as ++ declarations bs :=
  List.filterMap_append

/-- The prefixes that are declared, attribute by attribute. -/
theorem prefixes_declarations (as : List Attribute) :
    (declarations as).map Prod.fst = as.filterMap declares := by
  unfold declarations
  rw [List.map_filterMap]
  congr 1
  funext a
  cases a.declares <;> rfl

theorem isDeclaration_declaration (p uri : String) : (declaration p uri).isDeclaration = true := by
  simp [isDeclaration]

theorem declarations_eq_nil {as : List Attribute} (h : as.any isDeclaration = false) :
    declarations as = [] := by
  rw [declarations, List.filterMap_eq_nil_iff]
  intro a ha
  have : a.isDeclaration = false := by simpa using List.any_eq_false.1 h a ha
  simpa [isDeclaration] using this

theorem value_declaration (p uri : String) : (declaration p uri).value = uri := by
  unfold declaration
  split <;> rfl

/-- A new declaration comes behind the old ones. -/
theorem declarations_insertDeclaration (p uri : String) (as : List Attribute) :
    declarations (insertDeclaration (declaration p uri) as) = declarations as ++ [(p, uri)] := by
  have hd : declarations [declaration p uri] = [(p, uri)] := by
    simp [declarations, value_declaration]
  induction as with
  | nil => exact hd
  | cons b bs ih =>
    unfold insertDeclaration
    split
    · rw [← List.singleton_append, declarations_append, ih, ← List.append_assoc,
        ← declarations_append]
      rfl
    · rename_i h
      have hn : (b :: bs).any isDeclaration = false := by simpa using h
      rw [← List.singleton_append, declarations_append, hd, declarations_eq_nil hn]
      rfl

theorem filter_insertDeclaration (p uri : String) (as : List Attribute) :
    (insertDeclaration (declaration p uri) as).filter (fun a => !a.isDeclaration) =
      as.filter fun a => !a.isDeclaration := by
  induction as with
  | nil => simp [insertDeclaration, isDeclaration_declaration]
  | cons b bs ih =>
    unfold insertDeclaration
    split
    · rw [List.filter_cons, ih, List.filter_cons]
    · rw [List.filter_cons_of_neg (by simp [isDeclaration_declaration])]

/-- Declares prefixes one after the other, each unless it is declared. -/
def declareEach (ds : List (String × String)) (as : List Attribute) : List Attribute :=
  ds.foldl (fun as d => (declare? d.1 d.2 as).getD as) as

theorem declareEach_cons (d : String × String) (ds : List (String × String))
    (as : List Attribute) :
    declareEach (d :: ds) as = declareEach ds ((declare? d.1 d.2 as).getD as) := rfl

theorem declare?_eq_some {p uri : String} {as bs : List Attribute}
    (h : declare? p uri as = some bs) : bs = insertDeclaration (declaration p uri) as := by
  unfold declare? at h
  split at h
  · simp at h
  · exact (Option.some.inj h).symm

theorem mem_insertDeclaration {d a : Attribute} {as : List Attribute}
    (h : a ∈ insertDeclaration d as) : a = d ∨ a ∈ as := by
  induction as with
  | nil => exact .inl (List.mem_singleton.1 h)
  | cons b bs ih =>
    unfold insertDeclaration at h
    split at h
    · rcases List.mem_cons.1 h with rfl | h
      · exact .inr List.mem_cons_self
      · exact (ih h).imp_right (List.mem_cons_of_mem b)
    · exact List.mem_cons.1 h

theorem filter_declareEach (ds : List (String × String)) (as : List Attribute) :
    (declareEach ds as).filter (fun a => !a.isDeclaration) =
      as.filter fun a => !a.isDeclaration := by
  induction ds generalizing as with
  | nil => rfl
  | cons d ds ih =>
    rw [declareEach_cons, ih]
    cases h : declare? d.1 d.2 as with
    | none => rfl
    | some bs => rw [declare?_eq_some h, Option.getD_some, filter_insertDeclaration]

/-- Only given declarations are added, in their order and behind those that were there. -/
theorem declarations_declareEach (ds : List (String × String)) (as : List Attribute) :
    ∃ new, new.Sublist ds ∧ declarations (declareEach ds as) = declarations as ++ new := by
  induction ds generalizing as with
  | nil => exact ⟨[], .slnil, by simp [declareEach]⟩
  | cons d ds ih =>
    rw [declareEach_cons]
    cases h : declare? d.1 d.2 as with
    | none =>
      obtain ⟨new, hs, he⟩ := ih as
      exact ⟨new, hs.cons d, he⟩
    | some bs =>
      obtain ⟨new, hs, he⟩ := ih bs
      refine ⟨d :: new, hs.cons_cons d, ?_⟩
      rw [Option.getD_some, he, declare?_eq_some h, declarations_insertDeclaration]
      simp

/-- Every attribute was there or is one of the declarations. -/
theorem mem_declareEach {ds : List (String × String)} {as : List Attribute} {a : Attribute}
    (h : a ∈ declareEach ds as) : a ∈ as ∨ ∃ d ∈ ds, a = declaration d.1 d.2 := by
  induction ds generalizing as with
  | nil => exact .inl h
  | cons d ds ih =>
    rw [declareEach_cons] at h
    rcases ih h with h | ⟨d', hd', rfl⟩
    · cases hd : declare? d.1 d.2 as with
      | none =>
        rw [hd] at h
        exact .inl h
      | some bs =>
        rw [hd, Option.getD_some, declare?_eq_some hd] at h
        rcases mem_insertDeclaration h with rfl | h
        · exact .inr ⟨d, List.mem_cons_self, rfl⟩
        · exact .inl h
    · exact .inr ⟨d', List.mem_cons_of_mem d hd', rfl⟩

/-- A prefix is free to be declared if it is not declared. -/
theorem declare?_eq_none_iff {p uri : String} {as : List Attribute} :
    declare? p uri as = none ↔ p ∈ (declarations as).map Prod.fst := by
  have hany : (as.any fun a => a.declares == some p) = true ↔
      p ∈ (declarations as).map Prod.fst := by
    rw [prefixes_declarations, List.any_eq_true, List.mem_filterMap]
    refine exists_congr fun a => and_congr_right fun _ => ?_
    rw [beq_iff_eq]
  unfold declare?
  split
  · rename_i h
    exact ⟨fun _ => hany.1 h, fun _ => rfl⟩
  · rename_i h
    exact ⟨fun hn => absurd hn (Option.some_ne_none _), fun hm => absurd (hany.2 hm) h⟩

/-- What is declared stays so. -/
theorem mem_prefixes_declareEach (ds : List (String × String)) {as : List Attribute} {p : String}
    (h : p ∈ (declarations as).map Prod.fst) :
    p ∈ (declarations (declareEach ds as)).map Prod.fst := by
  obtain ⟨new, -, he⟩ := declarations_declareEach ds as
  rw [he, List.map_append]
  exact List.mem_append_left _ h

/-- A prefix that could be declared comes behind those that were. -/
theorem prefixes_declare? {p uri : String} {as bs : List Attribute}
    (h : declare? p uri as = some bs) :
    p ∉ (declarations as).map Prod.fst ∧
      (declarations bs).map Prod.fst = (declarations as).map Prod.fst ++ [p] := by
  constructor
  · intro hm
    rw [declare?_eq_none_iff.2 hm] at h
    cases h
  · rw [declare?_eq_some h, declarations_insertDeclaration, List.map_append]
    rfl

/-- Each of the prefixes is declared afterwards. -/
theorem known_declareEach (ds : List (String × String)) (as : List Attribute) :
    ∀ d ∈ ds, d.1 ∈ (declarations (declareEach ds as)).map Prod.fst := by
  induction ds generalizing as with
  | nil => exact fun d hd => absurd hd List.not_mem_nil
  | cons d ds ih =>
    intro d' hd'
    rw [declareEach_cons]
    rcases List.mem_cons.1 hd' with rfl | hd'
    · refine mem_prefixes_declareEach ds ?_
      cases hd : declare? d'.1 d'.2 as with
      | none => exact declare?_eq_none_iff.1 hd
      | some bs =>
        rw [Option.getD_some, (prefixes_declare? hd).2]
        exact List.mem_append_right _ List.mem_cons_self
    · exact ih _ d' hd'

/-- Nothing is declared where each of the prefixes is declared already. -/
theorem declareEach_of_known {ds : List (String × String)} {as : List Attribute}
    (h : ∀ d ∈ ds, d.1 ∈ (declarations as).map Prod.fst) : declareEach ds as = as := by
  induction ds with
  | nil => rfl
  | cons d ds ih =>
    obtain ⟨hd, hds⟩ := List.forall_mem_cons.1 h
    rw [declareEach_cons, declare?_eq_none_iff.2 hd, Option.getD_none, ih hds]

/-- No prefix is declared twice that was not before. -/
theorem nodup_declareEach (ds : List (String × String)) {as : List Attribute}
    (h : ((declarations as).map Prod.fst).Nodup) :
    ((declarations (declareEach ds as)).map Prod.fst).Nodup := by
  induction ds generalizing as with
  | nil => exact h
  | cons d ds ih =>
    rw [declareEach_cons]
    refine ih ?_
    cases hd : declare? d.1 d.2 as with
    | none => exact h
    | some bs =>
      obtain ⟨hfree, hnew⟩ := prefixes_declare? hd
      rw [Option.getD_some, hnew, List.nodup_append]
      refine ⟨h, List.nodup_cons.2 ⟨List.not_mem_nil, .nil⟩, ?_⟩
      intro x hx y hy hxy
      rw [List.mem_singleton.1 hy] at hxy
      exact hfree (hxy ▸ hx)

end Attribute

theorem declared_declareEach (ds : List (String × String)) (e : Element) :
    Declared ds e { e with attributes := Attribute.declareEach ds e.attributes } where
  name := rfl
  namespaceUri := rfl
  regular := Attribute.filter_declareEach ds e.attributes
  declarations := Attribute.declarations_declareEach ds e.attributes
  origin := fun _ ha => Attribute.mem_declareEach ha
  known := Attribute.known_declareEach ds e.attributes
  once := Attribute.nodup_declareEach ds

/-! ## Carrying out a plan -/

theorem Payload.filled_put (payload : Payload) {t : NodeTree} (next : Nat)
    (ht : t.1.content.isElement = true) :
    payload.Filled t next (payload.put t next).1 (payload.put t next).2 := by
  obtain ⟨n, below⟩ := t
  cases payload with
  | text s =>
    by_cases hs : s = ""
    · simp only [Payload.put, if_pos hs]
      subst hs
      exact .emptied (Forest.trees_filterRoots _ below)
    · simp only [Payload.put, if_neg hs]
      refine .text hs ?_
      rw [Forest.trees_append, Forest.trees_filterRoots]
      rfl
  | attr a =>
    obtain ⟨h, c⟩ := n
    cases c with
    | element e => exact .attr
    | _ => simp [Content.isElement, Content.element?] at ht

/-- The missing elements make the position exist. -/
theorem position_le_rootCount (p : Place) (below : Forest Node) (next : Nat) :
    p.position ≤
      Forest.rootCount p.accepts (below ++ p.elements next (p.missing below)).trees := by
  rw [Forest.trees_append, Forest.rootCount_append, Place.trees_elements, Place.rootCount_fresh,
    Place.missing, Forest.rootCount_eq]
  omega

/-- Writing through places does what the relation says. -/
theorem writtenBelow_writeBelow (payload : Payload) {places : List Place}
    (hp : ∀ p ∈ places, 1 ≤ p.position) {t : NodeTree} (next : Nat)
    (ht : t.1.content.isElement = true) :
    WrittenBelow payload places t next (Forest.writeBelow payload places t next).1
      (Forest.writeBelow payload places t next).2 := by
  induction places generalizing t next with
  | nil => exact .here (payload.filled_put next ht)
  | cons p places ih =>
    obtain ⟨n, below⟩ := t
    obtain ⟨before, u, after, hat, htrees, hnext⟩ :=
      Forest.updateNth_eq (p := p.accepts) (Forest.writeBelow payload places)
        (below ++ p.elements next (p.missing below)) (next + p.missing below)
        (hp p (by simp)) (position_le_rootCount p below next)
    obtain ⟨e, he, -⟩ := Place.accepts_iff.1 hat.passes
    have hu : u.1.content.isElement = true := by rw [he]; rfl
    have hw := ih (fun q hq => hp q (by simp [hq])) (next + p.missing below) hu
    rw [← hnext] at hw
    rw [Forest.trees_append, Place.trees_elements] at hat
    exact .step (by rw [Place.missing, Forest.rootCount_eq]) hat hw htrees

theorem writtenRoot_writeRoot (plan : WritePlan) (hp : ∀ p ∈ plan.places, 1 ≤ p.position)
    {r : NodeTree} (next : Nat) (hr : r.1.content.isElement = true) :
    WrittenRoot plan r next (plan.writeRoot r next).1 (plan.writeRoot r next).2 := by
  obtain ⟨⟨h, c⟩, below⟩ := r
  cases c with
  | element e =>
    refine ⟨h, e, _, rfl, declared_declareEach plan.declarations e, ?_⟩
    exact writtenBelow_writeBelow plan.payload hp next rfl
  | _ => simp [Content.isElement, Content.element?] at hr

theorem writtenTop_writeTop (plan : WritePlan) (hp : ∀ p ∈ plan.places, 1 ≤ p.position)
    (top : Forest Node) (next : Nat) :
    WrittenTop plan top next (plan.writeTop top next).1 (plan.writeTop top next).2 := by
  unfold WritePlan.writeTop
  have hany : (top.roots.any fun n => n.content.isElement) = true ↔
      1 ≤ Forest.rootCount (fun n : Node => n.content.isElement) top.trees := by
    rw [Forest.roots_eq_map_trees, List.any_map, Forest.rootCount, Nat.one_le_iff_ne_zero,
      Nat.pos_iff_ne_zero.symm, List.countP_pos_iff, List.any_eq_true]
    rfl
  dsimp only
  split
  · rename_i h
    obtain ⟨before, r, after, hat, htrees, hnext⟩ :=
      Forest.updateNth_eq plan.writeRoot top next (Nat.le_refl 1) (hany.1 h)
    refine .present before r _ after hat.split hat.first ?_ htrees
    rw [hnext]
    exact writtenRoot_writeRoot plan hp next hat.passes
  · rename_i h
    have hnone : ∀ t ∈ top.trees, t.1.content.isElement = false := by
      refine (Forest.rootCount_eq_zero (fun n : Node => n.content.isElement) _).1 ?_
      have := mt hany.2 h
      omega
    let root : Node := ⟨next, plan.root.element⟩
    have hat : Forest.At (fun n : Node => n.content.isElement) 1
        (top ++ Forest.leaf root).trees top.trees (root, .nil) [] :=
      ⟨by simp [Forest.leaf, Forest.trees], rfl, by rw [(Forest.rootCount_eq_zero _ _).2 hnone]⟩
    have hu := Forest.updateNth_of_at plan.writeRoot (next + 1) hat
    rw [Forest.ofTrees_trees] at hu
    rw [hu]
    exact .absent _ hnone (writtenRoot_writeRoot plan hp (next + 1) rfl)
      (Forest.trees_ofTrees _)

/-- The top level of a document that is one tree. -/
theorem Document.IsTree.below_root {d : Document} {top : Forest Node} (h : d.IsTree top) :
    d.below Document.root = top := by
  simp [Document.below, Document.node?, show d.forest = _ from h, Forest.find?,
    Document.hasHandle]

/-- A document that is one tree stays so; the plan is carried out on its top level. -/
theorem isTree_write (plan : WritePlan) {d : Document} {top : Forest Node} (hd : d.IsTree top) :
    (plan.write d).IsTree (plan.writeTop top d.allocated).1 := by
  unfold Document.IsTree WritePlan.write
  rw [hd.below_root, show d.forest = _ from hd]
  simp [Forest.modify, Document.hasHandle]

/-- Carrying out a plan on a document that is one tree does what the relation says. -/
theorem written_write {plan : WritePlan} (hp : ∀ p ∈ plan.places, 1 ≤ p.position) {d : Document}
    {top : Forest Node} (hd : d.IsTree top) : Document.Written plan d (plan.write d) := by
  refine ⟨top, (plan.writeTop top d.allocated).1, hd, isTree_write plan hd, rfl, ?_⟩
  unfold WritePlan.write
  rw [hd.below_root]
  exact writtenTop_writeTop plan hp top d.allocated

end MarkupFields
