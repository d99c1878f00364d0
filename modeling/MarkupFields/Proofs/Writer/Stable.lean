import MarkupFields.Proofs.Writer.Written

/-
  Writing keeps what is there. A forest extends another if it holds its nodes in their order, each
  known as before (same handle, same name and namespace, perhaps other attributes) and extended in
  its turn, with new trees behind those of a level and with character data left out at most. What is
  written extends what was there, so a place that led to an element before leads to the same element
  afterwards: new elements come behind all others and shift no position.

  Handles name nodes for good: those of a document are distinct, and the new ones follow on from the
  last one given out (`Document.Valid`).
-/

namespace MarkupFields

/-! ## Nodes that are known as before -/

/-- The content without the attributes of an element. -/
def Content.bare : Content → Content
  | .element e => .element { e with attributes := [] }
  | c => c

/-- The second node is the first one, perhaps with other attributes. -/
structure Node.Same (n n' : Node) : Prop where
  handle : n'.handle = n.handle
  content : n'.content.bare = n.content.bare

theorem Node.Same.refl (n : Node) : n.Same n :=
  ⟨rfl, rfl⟩

theorem Node.Same.trans {a b c : Node} (h : a.Same b) (h' : b.Same c) : a.Same c :=
  ⟨h'.handle.trans h.handle, h'.content.trans h.content⟩

theorem Content.isCharacterData_bare (c : Content) :
    c.bare.isCharacterData = c.isCharacterData := by
  cases c <;> rfl

theorem Node.Same.isCharacterData {n n' : Node} (h : n.Same n') :
    n'.content.isCharacterData = n.content.isCharacterData := by
  rw [← Content.isCharacterData_bare, h.content, Content.isCharacterData_bare]

theorem Content.isElement_bare (c : Content) : c.bare.isElement = c.isElement := by
  cases c <;> rfl

theorem Node.Same.isElement {n n' : Node} (h : n.Same n') :
    n'.content.isElement = n.content.isElement := by
  rw [← Content.isElement_bare, h.content, Content.isElement_bare]

theorem Declared.same {ds : List (String × String)} {e e' : Element} (h : Declared ds e e')
    (k : Nat) : Node.Same ⟨k, .element e⟩ ⟨k, .element e'⟩ :=
  ⟨rfl, by simp [Content.bare, h.name, h.namespaceUri]⟩

/-! ## Forests that hold another -/

namespace Forest

/-- The second forest holds the nodes of the first, level by level and in their order, apart from
character data; what is new stands behind. -/
inductive Extends : Forest Node → Forest Node → Prop
  | nil (g : Forest Node) : Extends .nil g
  | keep {n n' : Node} {below below' beside beside' : Forest Node} (same : n.Same n')
      (inside : Extends below below') (rest : Extends beside beside') :
      Extends (.cons n below beside) (.cons n' below' beside')
  | drop {n : Node} {below beside g : Forest Node} (data : n.content.isCharacterData = true)
      (rest : Extends beside g) : Extends (.cons n below beside) g

namespace Extends

theorem refl (f : Forest Node) : Extends f f := by
  induction f with
  | nil => exact .nil _
  | cons n below beside ihb ihs => exact .keep (.refl n) ihb ihs

theorem trans {f g h : Forest Node} (hfg : Extends f g) (hgh : Extends g h) : Extends f h := by
  induction hfg generalizing h with
  | nil g => exact .nil h
  | keep same _ _ ihb ihs =>
    cases hgh with
    | keep same' inside' rest' => exact .keep (same.trans same') (ihb inside') (ihs rest')
    | drop data rest' => exact .drop (same.isCharacterData ▸ data) (ihs rest')
  | drop data _ ih => exact .drop data (ih hgh)

theorem append_right (f g : Forest Node) : Extends f (f ++ g) := by
  induction f with
  | nil => exact .nil _
  | cons n below beside _ ih => exact .keep (.refl n) (refl below) ih

theorem filterRoots (f : Forest Node) :
    Extends f (f.filterRoots fun n => !n.content.isCharacterData) := by
  induction f with
  | nil => exact .nil _
  | cons n below beside _ ih =>
    unfold Forest.filterRoots
    split
    · exact .keep (.refl n) (refl below) ih
    · rename_i h
      exact .drop (by simpa using h) ih

/-- A tree in the middle of a level is replaced by one that extends it. -/
theorem replace (before after : List NodeTree) {t t' : NodeTree} (same : t.1.Same t'.1)
    (inside : Extends t.2 t'.2) :
    Extends (ofTrees (before ++ t :: after)) (ofTrees (before ++ t' :: after)) := by
  induction before with
  | nil => exact .keep same inside (refl _)
  | cons u before ih => exact .keep (.refl u.1) (refl u.2) ih

end Extends

/-- The position of an element is the same in an extended level, and so is the element there. -/
theorem nthRoot?_extends {p : Node → Bool} (hsame : ∀ n n', Node.Same n n' → p n' = p n)
    (hdata : ∀ n : Node, n.content.isCharacterData = true → p n = false) {f g : Forest Node}
    (h : Extends f g) {k : Nat} {t : NodeTree} (ht : nthRoot? p k f = some t) :
    ∃ t', nthRoot? p k g = some t' ∧ t.1.Same t'.1 ∧ Extends t.2 t'.2 := by
  induction h generalizing k with
  | nil g => simp [nthRoot?] at ht
  | @keep n n' below below' beside beside' same inside _ _ ih =>
    simp only [nthRoot?, hsame n n' same] at ht ⊢
    split at ht
    · rename_i hn
      rw [if_pos hn]
      split at ht
      · rename_i hk
        rw [Option.some.injEq] at ht
        subst ht
        rw [if_pos hk]
        exact ⟨_, rfl, same, inside⟩
      · rename_i hk
        rw [if_neg hk]
        exact ih ht
    · rename_i hn
      rw [if_neg hn]
      exact ih ht
  | drop data _ ih =>
    simp only [nthRoot?, hdata _ data] at ht
    exact ih ht

end Forest

/-! ## What is written extends what was there -/

theorem Payload.Filled.extends {payload : Payload} {t t' : NodeTree} {next next' : Nat}
    (h : payload.Filled t next t' next') : t.1.Same t'.1 ∧ Forest.Extends t.2 t'.2 := by
  cases h with
  | @emptied n old new next trees =>
    have : new = old.filterRoots fun n => !n.content.isCharacterData := by
      apply Forest.ext_trees
      rw [trees, Forest.trees_filterRoots]
    rw [this]
    exact ⟨.refl _, .filterRoots _⟩
  | @text s n old new next nonempty trees =>
    have : new = old.filterRoots (fun n => !n.content.isCharacterData) ++
        Forest.leaf ⟨next, .text s⟩ := by
      apply Forest.ext_trees
      rw [trees, Forest.trees_append, Forest.trees_filterRoots]
      rfl
    rw [this]
    exact ⟨.refl _, (Forest.Extends.filterRoots _).trans (.append_right _ _)⟩
  | attr => exact ⟨⟨rfl, rfl⟩, .refl _⟩

theorem WrittenBelow.extends {payload : Payload} {places : List Place} {t t' : NodeTree}
    {next next' : Nat} (h : WrittenBelow payload places t next t' next') :
    t.1.Same t'.1 ∧ Forest.Extends t.2 t'.2 := by
  induction h with
  | here filled => exact filled.extends
  | @step p places n old new before after t t' next count next' _ split _ trees ih =>
    refine ⟨.refl n, ?_⟩
    have hnew : new = Forest.ofTrees (before ++ t' :: after) := by
      rw [← trees, Forest.ofTrees_trees]
    have hold : old ++ Forest.ofTrees (p.fresh next count) =
        Forest.ofTrees (before ++ t :: after) := by
      apply Forest.ext_trees
      rw [Forest.trees_append, Forest.trees_ofTrees, Forest.trees_ofTrees, split.split]
    rw [hnew]
    refine (Forest.Extends.append_right old (Forest.ofTrees (p.fresh next count))).trans ?_
    rw [hold]
    exact .replace before after ih.1 ih.2

theorem WrittenRoot.extends {plan : WritePlan} {r r' : NodeTree} {next next' : Nat}
    (h : WrittenRoot plan r next r' next') : r.1.Same r'.1 ∧ Forest.Extends r.2 r'.2 := by
  obtain ⟨k, e, e', hr, hd, hw⟩ := h
  have := hw.extends
  exact ⟨hr ▸ (hd.same k).trans this.1, this.2⟩

theorem WrittenTop.extends {plan : WritePlan} {top top' : Forest Node} {next next' : Nat}
    (h : WrittenTop plan top next top' next') : Forest.Extends top top' := by
  cases h with
  | present before r r' after split _ written trees =>
    rw [← Forest.ofTrees_trees top, ← Forest.ofTrees_trees top', split, trees]
    exact .replace before after written.extends.1 written.extends.2
  | absent r' _ _ trees =>
    have : top' = top ++ Forest.ofTrees [r'] := by
      apply Forest.ext_trees
      rw [trees, Forest.trees_append, Forest.trees_ofTrees]
    rw [this]
    exact .append_right top _

/-! ## Where places lead -/

/-- The step to the element at a place. -/
def Place.stepTest (p : Place) : StepTest :=
  ⟨p.test, p.position⟩

/-- The test for a place asks for one namespace, so the default in scope does not matter. -/
theorem Place.acceptsNode_test (p : Place) (inScope : Option String) (c : Content) :
    p.test.acceptsNode inScope c = p.test.acceptsNode none c := by
  cases c <;> rfl

theorem Place.accepts_same (p : Place) {n n' : Node} (h : n.Same n') :
    p.accepts n' = p.accepts n := by
  obtain ⟨k, c⟩ := n
  obtain ⟨k', c'⟩ := n'
  have hc := h.content
  cases c <;> cases c' <;>
    simp_all [Content.bare, Place.accepts, Place.test, NameTest.acceptsNode,
      NameTest.acceptsNamespace]

theorem Place.accepts_characterData (p : Place) {n : Node}
    (h : n.content.isCharacterData = true) : p.accepts n = false := by
  obtain ⟨k, c⟩ := n
  cases c <;> simp_all [Content.isCharacterData, Place.accepts, NameTest.acceptsNode]

/-- The tree that places lead to from a tree, each by its own name, namespace and position. -/
theorem Forest.descend?_cons_stepTest (p : Place) (steps : List StepTest)
    (inScope : Option String) (t : NodeTree) :
    Forest.descend? (p.stepTest :: steps) inScope t =
      (t.2.nthRoot? p.accepts p.position).bind fun next =>
        Forest.descend? steps (next.1.content.defaultInside inScope) next := by
  have : (fun n : Node => p.stepTest.test.acceptsNode inScope n.content) = p.accepts := by
    funext n
    exact p.acceptsNode_test inScope n.content
  simp only [Forest.descend?, this]
  rfl

theorem Forest.descend?_extends {places : List Place} {inScope inScope' : Option String}
    {t u v : NodeTree} (hsame : t.1.Same u.1) (hext : Forest.Extends t.2 u.2)
    (h : Forest.descend? (places.map Place.stepTest) inScope t = some v) :
    ∃ v', Forest.descend? (places.map Place.stepTest) inScope' u = some v' ∧ v.1.Same v'.1 := by
  induction places generalizing inScope inScope' t u with
  | nil =>
    simp only [List.map_nil, Forest.descend?, Option.some.injEq] at h ⊢
    subst h
    exact ⟨u, rfl, hsame⟩
  | cons p places ih =>
    rw [List.map_cons, Forest.descend?_cons_stepTest] at h ⊢
    obtain ⟨next, hn, hd⟩ := Option.bind_eq_some_iff.1 h
    obtain ⟨next', hn', hs, he⟩ := Forest.nthRoot?_extends (fun n n' => p.accepts_same)
      (fun n => p.accepts_characterData) hext hn
    obtain ⟨v', hv', hsv⟩ := ih hs he hd
    exact ⟨v', by rw [hn']; exact hv', hsv⟩

theorem Document.IsTree.node?_root {d : Document} {top : Forest Node} (h : d.IsTree top) :
    d.node? Document.root = some (⟨Document.root, .document⟩, top) := by
  simp [Document.node?, show d.forest = _ from h, Forest.find?, Document.hasHandle]

/-- Places that lead to a node before a plan is carried out lead to the same node afterwards. -/
theorem Document.Written.locate? {plan : WritePlan} {d d' : Document}
    (h : Document.Written plan d d') {places : List Place} {t : NodeTree}
    (ht : d.locate? (places.map Place.stepTest) = some t) :
    ∃ t', d'.locate? (places.map Place.stepTest) = some t' ∧ t.1.Same t'.1 := by
  obtain ⟨top, top', hd, hd', -, hw⟩ := h
  simp only [Document.locate?, hd.node?_root, hd'.node?_root, Option.bind_eq_bind,
    Option.bind_some] at ht ⊢
  exact Forest.descend?_extends (t := (_, top)) (.refl _) hw.extends ht

/-! ## Handles -/

namespace Forest

/-- The handles of some trees in document order. -/
def treeHandles (ts : List NodeTree) : List Nat :=
  ts.flatMap fun t => t.1.handle :: t.2.handles

theorem treeHandles_append (ts us : List NodeTree) :
    treeHandles (ts ++ us) = treeHandles ts ++ treeHandles us :=
  List.flatMap_append

theorem treeHandles_cons (t : NodeTree) (ts : List NodeTree) :
    treeHandles (t :: ts) = (t.1.handle :: t.2.handles) ++ treeHandles ts := rfl

theorem treeHandles_singleton (t : NodeTree) :
    treeHandles [t] = t.1.handle :: t.2.handles := by
  rw [treeHandles_cons]
  exact List.append_nil _

theorem handles_eq (f : Forest Node) : f.handles = treeHandles f.trees := by
  induction f with
  | nil => rfl
  | cons n below beside _ ih =>
    rw [trees, treeHandles_cons, ← ih]
    simp [handles, preorder]

theorem treeHandles_filter (p : NodeTree → Bool) (ts : List NodeTree) :
    (treeHandles (ts.filter p)).Sublist (treeHandles ts) := by
  induction ts with
  | nil => exact .slnil
  | cons t ts ih =>
    rw [treeHandles_cons]
    by_cases h : p t = true
    · rw [List.filter_cons_of_pos h, treeHandles_cons]
      exact (List.Sublist.refl _).append ih
    · rw [List.filter_cons_of_neg h]
      exact ih.trans (List.sublist_append_right _ _)

theorem treeHandles_fresh (p : Place) (next count : Nat) :
    treeHandles (p.fresh next count) = List.range' next count := by
  unfold treeHandles Place.fresh
  rw [List.flatMap_map]
  exact List.flatMap_singleton' _

end Forest

/-- Handles after a change: some of the old ones, and some from one free handle up to another. -/
def HandlesGrown (old : List Nat) (next : Nat) (new : List Nat) (next' : Nat) : Prop :=
  next ≤ next' ∧ ∃ kept fresh, kept.Sublist old ∧
    fresh.Sublist (List.range' next (next' - next)) ∧ new.Perm (kept ++ fresh)

namespace HandlesGrown

theorem of_sublist {old new : List Nat} (next : Nat) (h : new.Sublist old) :
    HandlesGrown old next new next :=
  ⟨Nat.le_refl _, new, [], h, List.nil_sublist _, by simp⟩

/-- What stands around the changed part stays. -/
theorem within {old new : List Nat} {next next' : Nat} (h : HandlesGrown old next new next')
    (before after : List Nat) :
    HandlesGrown (before ++ (old ++ after)) next (before ++ (new ++ after)) next' := by
  obtain ⟨hle, kept, fresh, hk, hf, hp⟩ := h
  refine ⟨hle, before ++ (kept ++ after), fresh,
    (List.Sublist.refl _).append (hk.append_right _), hf, ?_⟩
  rw [List.append_assoc, List.append_assoc]
  refine .append_left before ((hp.append_right after).trans ?_)
  rw [List.append_assoc]
  exact .append_left kept List.perm_append_comm

/-- Handles that are given out first count with those that are given out afterwards. -/
theorem absorb {old new : List Nat} {next count next' : Nat}
    (h : HandlesGrown (old ++ List.range' next count) (next + count) new next') :
    HandlesGrown old next new next' := by
  obtain ⟨hle, kept, fresh, hk, hf, hp⟩ := h
  obtain ⟨k₁, k₂, rfl, h₁, h₂⟩ := List.sublist_append_iff.1 hk
  refine ⟨by omega, k₁, k₂ ++ fresh, h₁, ?_, by rwa [← List.append_assoc]⟩
  have hr : List.range' next (next' - next) =
      List.range' next count ++ List.range' (next + count) (next' - (next + count)) := by
    rw [List.range'_append_1]
    congr 1
    omega
  rw [hr]
  exact h₂.append hf

/-- Distinct handles below the free one stay so. -/
theorem nodup {old new : List Nat} {next next' : Nat} (h : HandlesGrown old next new next')
    (ho : old.Nodup) (hb : ∀ k ∈ old, k < next) : new.Nodup ∧ ∀ k ∈ new, k < next' := by
  obtain ⟨hle, kept, fresh, hk, hf, hp⟩ := h
  have hrange : ∀ k ∈ fresh, next ≤ k ∧ k < next' := by
    intro k hkf
    have := List.mem_range'_1.1 (hf.subset hkf)
    omega
  constructor
  · rw [hp.nodup_iff, List.nodup_append]
    refine ⟨ho.sublist hk, hf.nodup List.nodup_range', ?_⟩
    intro a ha b hb' hab
    have := hb a (hk.subset ha)
    have := hrange b hb'
    omega
  · intro k hkn
    rcases List.mem_append.1 (hp.mem_iff.1 hkn) with hkk | hkf
    · have := hb k (hk.subset hkk)
      omega
    · exact (hrange k hkf).2

end HandlesGrown

theorem Payload.Filled.handles {payload : Payload} {t t' : NodeTree} {next next' : Nat}
    (h : payload.Filled t next t' next') :
    HandlesGrown (Forest.treeHandles [t]) next (Forest.treeHandles [t']) next' := by
  cases h with
  | @emptied n old new next trees =>
    refine .of_sublist next ?_
    rw [Forest.treeHandles_singleton, Forest.treeHandles_singleton, Forest.handles_eq old,
      Forest.handles_eq new, trees]
    exact (Forest.treeHandles_filter _ _).cons_cons _
  | @text s n old new next _ trees =>
    refine ⟨Nat.le_succ _, n.handle :: Forest.treeHandles
      (old.trees.filter fun t => !t.1.content.isCharacterData), [next], ?_, ?_, ?_⟩
    · rw [Forest.treeHandles_singleton, Forest.handles_eq old]
      exact (Forest.treeHandles_filter _ _).cons_cons _
    · simp
    · rw [Forest.treeHandles_singleton, Forest.handles_eq new, trees, Forest.treeHandles_append,
        Forest.treeHandles_singleton]
      exact .refl _
  | attr => exact .of_sublist next (List.Sublist.refl _)

theorem WrittenBelow.handles {payload : Payload} {places : List Place} {t t' : NodeTree}
    {next next' : Nat} (h : WrittenBelow payload places t next t' next') :
    HandlesGrown (Forest.treeHandles [t]) next (Forest.treeHandles [t']) next' := by
  induction h with
  | here filled => exact filled.handles
  | @step p places n old new before after t t' next count next' _ split _ trees ih =>
    have hgrown := (ih.within (n.handle :: Forest.treeHandles before) (Forest.treeHandles after))
    have hold : (n.handle :: Forest.treeHandles before) ++
        (Forest.treeHandles [t] ++ Forest.treeHandles after) =
          Forest.treeHandles [(n, old)] ++ List.range' next count := by
      have := congrArg Forest.treeHandles split.split
      rw [Forest.treeHandles_append, Forest.treeHandles_append, Forest.treeHandles_fresh] at this
      rw [Forest.treeHandles_singleton (n, old), Forest.handles_eq old, List.cons_append,
        List.cons_append, this, ← Forest.treeHandles_append]
      rfl
    have hnew : (n.handle :: Forest.treeHandles before) ++
        (Forest.treeHandles [t'] ++ Forest.treeHandles after) = Forest.treeHandles [(n, new)] := by
      rw [Forest.treeHandles_singleton (n, new), Forest.handles_eq new, trees,
        Forest.treeHandles_append, List.cons_append, ← Forest.treeHandles_append]
      rfl
    rw [hold, hnew] at hgrown
    exact hgrown.absorb

theorem WrittenRoot.handles {plan : WritePlan} {r r' : NodeTree} {next next' : Nat}
    (h : WrittenRoot plan r next r' next') :
    HandlesGrown (Forest.treeHandles [r]) next (Forest.treeHandles [r']) next' := by
  obtain ⟨k, e, e', hr, -, hw⟩ := h
  have := hw.handles
  rwa [Forest.treeHandles_singleton (_, r.2), show k = r.1.handle by rw [hr],
    ← Forest.treeHandles_singleton r] at this

theorem WrittenTop.handles {plan : WritePlan} {top top' : Forest Node} {next next' : Nat}
    (h : WrittenTop plan top next top' next') :
    HandlesGrown top.handles next top'.handles next' := by
  cases h with
  | present before r r' after split _ written trees =>
    have := written.handles.within (Forest.treeHandles before) (Forest.treeHandles after)
    rw [← Forest.treeHandles_append, ← Forest.treeHandles_append, ← Forest.treeHandles_append,
      ← Forest.treeHandles_append] at this
    rwa [Forest.handles_eq, Forest.handles_eq, split, trees]
  | absent r' _ written trees =>
    have := written.handles.within top.handles []
    rw [List.append_nil, List.append_nil, Forest.handles_eq top,
      ← Forest.treeHandles_append top.trees [r'], ← trees, ← Forest.handles_eq,
      ← Forest.handles_eq, Forest.treeHandles_singleton] at this
    have hone : HandlesGrown (top.handles ++ List.range' next 1) (next + 1) top'.handles next' := this
    exact hone.absorb

/-- The document is one tree, and no handle of it is shared or still free. -/
structure Document.Valid (d : Document) : Prop where
  tree : ∃ top, d.IsTree top
  nodup : d.forest.handles.Nodup
  given : ∀ k ∈ d.forest.handles, k < d.allocated

theorem Document.IsTree.handles {d : Document} {top : Forest Node} (h : d.IsTree top) :
    d.forest.handles = Document.root :: top.handles := by
  rw [show d.forest = _ from h]
  simp [Forest.handles, Forest.preorder]

/-- What is written has handles of its own. -/
theorem Document.Written.valid {plan : WritePlan} {d d' : Document}
    (h : Document.Written plan d d') (hv : d.Valid) : d'.Valid := by
  obtain ⟨top, top', hd, hd', -, hw⟩ := h
  have hgrown := hw.handles.within [Document.root] []
  rw [List.append_nil, List.append_nil, List.singleton_append, List.singleton_append,
    ← hd.handles, ← hd'.handles] at hgrown
  obtain ⟨h₁, h₂⟩ := hgrown.nodup hv.nodup hv.given
  exact ⟨⟨top', hd'⟩, h₁, h₂⟩

end MarkupFields
