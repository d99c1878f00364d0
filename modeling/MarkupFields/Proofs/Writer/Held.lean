import MarkupFields.Proofs.Tree.Attributes
import MarkupFields.Proofs.Writer.Located

/-
  What is held at an address. An address is what is left of a path when its prefixes are replaced by
  their namespaces and its positions are filled in: tests down to an element, and perhaps the key of
  an attribute. It holds the text below the element or the value of the attribute; where no element
  stands, an address for text holds the empty text, so that creating empty elements changes nothing.

  A write changes what is held at its own address, and, if it writes text, at those of the elements
  above (`Address.Reaches`). At any other address the same is held before and after
  (`WrittenBelow.held`), however the elements and fillers that the write created stand.
-/

namespace MarkupFields

/-- Where a value stands: the steps to an element, each a name with its namespace and a position,
and perhaps the key of an attribute. -/
structure Address where
  steps : List StepTest
  attr : Option (String × Option String)
  deriving DecidableEq, Repr

namespace Address

/-- Writing at the first address may change what is held at the second: text counts as text of every
element above it. -/
def Reaches (a b : Address) : Prop :=
  match a.attr, b.attr with
  | none, none => b.steps <+: a.steps
  | some k, some k' => b.steps = a.steps ∧ k' = k
  | _, _ => False

theorem Reaches.cons {ss ss' : List StepTest} {k k' : Option (String × Option String)}
    (h : Reaches ⟨ss, k⟩ ⟨ss', k'⟩) (s : StepTest) : Reaches ⟨s :: ss, k⟩ ⟨s :: ss', k'⟩ := by
  cases k <;> cases k'
  · exact List.cons_prefix_cons.2 ⟨rfl, h⟩
  · exact h
  · exact h
  · exact ⟨congrArg (s :: ·) h.1, h.2⟩

/-- What an address holds where nothing was written. -/
def unset (attr : Option (String × Option String)) : Option String :=
  if attr.isNone then some "" else none

end Address

/-- What the element at the end of an address holds: the text below it, or the value of its
attribute with the key. -/
def NodeTree.held (attr : Option (String × Option String)) (t : Option NodeTree) : Option String :=
  match attr with
  | none => some ((t.map fun u => (u.2.map Node.content).textContent).getD "")
  | some k => do
    let u ← t
    let a ← u.1.content.attributes.find? (Attribute.hasKey k)
    return a.value

@[simp] theorem NodeTree.held_none (attr : Option (String × Option String)) :
    held attr none = Address.unset attr := by
  cases attr <;> rfl

/-- What is held at the address in the document. -/
def Document.held (d : Document) (a : Address) : Option String :=
  NodeTree.held a.attr (d.locate? a.steps)

/-- The key of the attribute, if the payload is one. -/
def Payload.key? : Payload → Option (String × Option String)
  | .text _ => none
  | .attr a => some a.key

/-- The address that a plan writes to. -/
def WritePlan.address (plan : WritePlan) : Address :=
  ⟨(plan.root :: plan.places).map Place.stepTest, plan.payload.key?⟩

/-! ## Text of levels -/

namespace Forest

/-- New elements have no text. -/
theorem textContent_fresh (p : Place) (next count : Nat) :
    ((ofTrees (p.fresh next count)).map Node.content).textContent = "" := by
  induction count generalizing next with
  | zero => rfl
  | succ count ih =>
    unfold Place.fresh
    rw [List.range'_succ, List.map_cons, ofTrees, map, textContent_cons]
    exact ih (next + 1)

/-- Only the text of the tree in the middle of a level matters for the text of the level. -/
theorem textContent_replace (before after : List NodeTree) {t t' : NodeTree}
    (hroot : t'.1.content.characters = t.1.content.characters)
    (hbelow : (t'.2.map Node.content).textContent = (t.2.map Node.content).textContent) :
    ((ofTrees (before ++ t' :: after)).map Node.content).textContent =
      ((ofTrees (before ++ t :: after)).map Node.content).textContent := by
  induction before with
  | nil =>
    rw [List.nil_append, List.nil_append, ofTrees, ofTrees, map, map, textContent_cons,
      textContent_cons, hroot, hbelow]
  | cons u before ih =>
    rw [List.cons_append, List.cons_append, ofTrees, ofTrees, map, map, textContent_cons,
      textContent_cons, ih]

/-! ## Positions in levels -/

/-- A position in two levels side by side is one in the first, or there is none in it and what is
found stands in the second. -/
theorem nthRoot?_append {p : Node → Bool} {k : Nat} (f g : Forest Node) :
    nthRoot? p k (f ++ g) = nthRoot? p k f ∨
      nthRoot? p k f = none ∧ ∀ t, nthRoot? p k (f ++ g) = some t → t ∈ g.trees := by
  induction f generalizing k with
  | nil => exact .inr ⟨rfl, fun t ht => (nthRoot?_mem ht).1⟩
  | cons a below beside _ ih =>
    rw [cons_append]
    unfold nthRoot?
    split
    · split
      · exact .inl rfl
      · exact ih
    · exact ih

/-- Where one tree of a level is replaced by one that passes the same test, the same is found at a
position, or the tree that was replaced stands at it. -/
theorem nthRoot?_replace {p : Node → Bool} {k : Nat} (before after : List NodeTree)
    {t t' : NodeTree} (hpass : p t'.1 = p t.1) :
    nthRoot? p k (ofTrees (before ++ t' :: after)) = nthRoot? p k (ofTrees (before ++ t :: after)) ∨
      At p k (before ++ t :: after) before t after := by
  induction before generalizing k with
  | nil =>
    rw [List.nil_append, List.nil_append, ofTrees, ofTrees, nthRoot?, nthRoot?, hpass]
    by_cases hp : p t.1 = true
    · by_cases hk : k = 1
      · exact .inr ⟨rfl, hp, hk.symm⟩
      · rw [if_pos hp, if_pos hp, if_neg hk, if_neg hk]
        exact .inl rfl
    · rw [if_neg hp, if_neg hp]
      exact .inl rfl
  | cons u before ih =>
    rw [List.cons_append, List.cons_append, ofTrees, ofTrees, nthRoot?, nthRoot?]
    by_cases hp : p u.1 = true
    · rw [if_pos hp, if_pos hp]
      by_cases hk : k = 1
      · rw [if_pos hk, if_pos hk]
        exact .inl rfl
      · rw [if_neg hk, if_neg hk]
        refine ih.imp_right fun hat => ?_
        have hnext := hat.cons_of_pos hp
        rwa [show k - 1 + 1 = k by have := hat.rank; omega] at hnext
    · rw [if_neg hp, if_neg hp]
      exact ih.imp_right fun hat => hat.cons_of_neg (Bool.eq_false_iff.2 hp)

/-- Trees that do not pass do not matter for a position. -/
theorem nthRoot?_filter {p : Node → Bool} {q : NodeTree → Bool} {k : Nat} (ts : List NodeTree)
    (h : ∀ t ∈ ts, q t = false → p t.1 = false) :
    nthRoot? p k (ofTrees (ts.filter q)) = nthRoot? p k (ofTrees ts) := by
  induction ts generalizing k with
  | nil => rfl
  | cons t ts ih =>
    have hrest : ∀ k, nthRoot? p k (ofTrees (ts.filter q)) = nthRoot? p k (ofTrees ts) :=
      fun k => ih fun u hu => h u (List.mem_cons_of_mem t hu)
    by_cases hq : q t = true
    · rw [List.filter_cons_of_pos hq, ofTrees, ofTrees, nthRoot?, nthRoot?, hrest, hrest]
    · have hp := h t List.mem_cons_self (Bool.eq_false_iff.2 hq)
      rw [List.filter_cons_of_neg hq, hrest, ofTrees, nthRoot?, hp, if_neg Bool.false_ne_true]

/-- Character data does not matter for where a place is. -/
theorem nthRoot?_kept (p : Place) (k : Nat) {old new : Forest Node} {data : List NodeTree}
    (hdata : ∀ t ∈ data, t.1.content.isCharacterData = true)
    (h : new.trees = (old.trees.filter fun t => !t.1.content.isCharacterData) ++ data) :
    nthRoot? p.accepts k new = nthRoot? p.accepts k old := by
  have hnew : new = ofTrees (old.trees.filter fun t => !t.1.content.isCharacterData) ++
      ofTrees data := by
    apply ext_trees
    rw [h, trees_append, trees_ofTrees, trees_ofTrees]
  have hkept := nthRoot?_filter (p := p.accepts) (k := k)
    (q := fun t => !t.1.content.isCharacterData) old.trees fun t _ ht =>
      p.accepts_characterData (by simpa using ht)
  rw [ofTrees_trees] at hkept
  rw [hnew, ← hkept]
  rcases nthRoot?_append (p := p.accepts) (k := k)
    (ofTrees (old.trees.filter fun t => !t.1.content.isCharacterData)) (ofTrees data)
    with hsame | ⟨hnone, hmem⟩
  · exact hsame
  · rw [hnone]
    refine Option.eq_none_iff_forall_not_mem.2 fun t ht => ?_
    have hin := hmem t ht
    rw [trees_ofTrees] at hin
    have hpasses := (nthRoot?_mem ht).2
    rw [p.accepts_characterData (hdata t hin)] at hpasses
    cases hpasses

/-- The tests of places ask for one namespace each, so the default in scope does not matter. -/
theorem descend?_scope (ps : List Place) (inScope inScope' : Option String) (t : NodeTree) :
    descend? (ps.map Place.stepTest) inScope t = descend? (ps.map Place.stepTest) inScope' t := by
  induction ps generalizing inScope inScope' t with
  | nil => rfl
  | cons p ps ih =>
    rw [List.map_cons, descend?_cons_stepTest, descend?_cons_stepTest]
    congr 1
    funext next
    exact ih _ _ next

theorem descend?_places (p : Place) (ps : List Place) (t : NodeTree) :
    descend? ((p :: ps).map Place.stepTest) none t =
      (t.2.nthRoot? p.accepts p.position).bind fun next =>
        descend? (ps.map Place.stepTest) none next := by
  rw [List.map_cons, descend?_cons_stepTest]
  congr 1
  funext next
  exact descend?_scope ps _ _ next

/-! ## New elements -/

variable {k : Option (String × Option String)}

/-- A new element holds nothing anywhere. -/
theorem held_element (p : Place) (h : Nat) (ps : List Place) :
    NodeTree.held k (descend? (ps.map Place.stepTest) none (⟨h, p.element⟩, .nil)) =
      Address.unset k := by
  cases ps with
  | nil => cases k <;> rfl
  | cons q ps => rw [descend?_places]; exact NodeTree.held_none k

/-- New elements behind a level do not change what is held. -/
theorem held_append_fresh (n : Node) (old : Forest Node) (p : Place) (next count : Nat)
    (ps : List Place) :
    NodeTree.held k (descend? (ps.map Place.stepTest) none
        (n, old ++ ofTrees (p.fresh next count))) =
      NodeTree.held k (descend? (ps.map Place.stepTest) none (n, old)) := by
  cases ps with
  | nil =>
    cases k with
    | none =>
      show some ((old ++ ofTrees (p.fresh next count)).map Node.content).textContent = _
      rw [map_append, textContent_append, textContent_fresh, String.append_empty]
      rfl
    | some k => rfl
  | cons q ps =>
    rw [descend?_places, descend?_places]
    dsimp only
    rcases nthRoot?_append (p := q.accepts) (k := q.position) old
      (ofTrees (p.fresh next count)) with hsame | ⟨hnone, hnew⟩
    · rw [hsame]
    · rw [hnone, Option.bind_none, NodeTree.held_none]
      cases ht : nthRoot? q.accepts q.position (old ++ ofTrees (p.fresh next count)) with
      | none => rw [Option.bind_none, NodeTree.held_none]
      | some t =>
        have hmem := hnew t ht
        rw [trees_ofTrees] at hmem
        obtain ⟨h, -, rfl⟩ := List.mem_map.1 hmem
        exact held_element p h ps

end Forest

/-! ## Writing elsewhere -/

/-- Places at which the same node stands have the same test. -/
theorem Place.test_eq_of_accepts {p q : Place} {n : Node} (hp : p.accepts n = true)
    (hq : q.accepts n = true) : p.test = q.test := by
  obtain ⟨e, he, hname, huri⟩ := accepts_iff.1 hp
  obtain ⟨e', he', hname', huri'⟩ := accepts_iff.1 hq
  obtain rfl : e = e' := Content.element.inj (he.symm.trans he')
  unfold test
  rw [← hname, ← huri, hname', huri']

/-- Places at which the same tree of a level stands are the same step. -/
theorem Place.stepTest_eq_of_at {p q : Place} {ts before after : List NodeTree} {t : NodeTree}
    (hp : Forest.At p.accepts p.position ts before t after)
    (hq : Forest.At q.accepts q.position ts before t after) : p.stepTest = q.stepTest := by
  have htest := test_eq_of_accepts hp.passes hq.passes
  have haccepts : p.accepts = q.accepts := by
    unfold accepts
    rw [htest]
  unfold stepTest
  rw [htest, ← hp.rank, ← hq.rank, haccepts]

/-- What stands below a node that is filled stands there as before, unless it is asked for the node
itself. -/
theorem Payload.Filled.held {payload : Payload} {t t' : NodeTree} {next next' : Nat}
    (h : payload.Filled t next t' next') {k : Option (String × Option String)} {ps : List Place}
    (haway : ¬ Address.Reaches ⟨[], payload.key?⟩ ⟨ps.map Place.stepTest, k⟩) :
    NodeTree.held k (Forest.descend? (ps.map Place.stepTest) none t') =
      NodeTree.held k (Forest.descend? (ps.map Place.stepTest) none t) := by
  cases ps with
  | nil =>
    cases k with
    | none =>
      cases h with
      | emptied => exact absurd List.nil_prefix haway
      | text => exact absurd List.nil_prefix haway
      | attr => rfl
    | some k =>
      cases h with
      | emptied => rfl
      | text => rfl
      | @attr a i e below next =>
        have hk : k ≠ a.key := fun hk => haway ⟨rfl, hk⟩
        show (do let b ← (a.set e.attributes).find? (Attribute.hasKey k); return b.value) = _
        rw [Attribute.find?_set_of_ne hk]
        rfl
  | cons p ps =>
    rw [Forest.descend?_places, Forest.descend?_places]
    cases h with
    | emptied trees =>
      have hkept := Forest.nthRoot?_kept p p.position (fun t ht => absurd ht List.not_mem_nil)
        (trees.trans (List.append_nil _).symm)
      dsimp only
      rw [hkept]
    | text nonempty trees =>
      have hkept := Forest.nthRoot?_kept p p.position
        (fun t ht => by rw [List.mem_singleton.1 ht]; rfl) trees
      dsimp only
      rw [hkept]
    | attr => rfl

theorem Node.Same.characters {n n' : Node} (h : n.Same n') :
    n'.content.characters = n.content.characters := by
  have hbare : ∀ c : Content, c.bare.characters = c.characters := fun c => by cases c <;> rfl
  rw [← hbare, h.content, hbare]

/-- Writing through places changes nothing at an address that it does not reach. -/
theorem WrittenBelow.held {payload : Payload} {places : List Place} {t t' : NodeTree}
    {next next' : Nat} (h : WrittenBelow payload places t next t' next')
    {k : Option (String × Option String)} {ps : List Place}
    (haway : ¬ Address.Reaches ⟨places.map Place.stepTest, payload.key?⟩
      ⟨ps.map Place.stepTest, k⟩) :
    NodeTree.held k (Forest.descend? (ps.map Place.stepTest) none t') =
      NodeTree.held k (Forest.descend? (ps.map Place.stepTest) none t) := by
  induction h generalizing ps with
  | here filled => exact filled.held haway
  | @step q places n old new before after t t' next count next' _ split written trees ih =>
    have hsame := written.extends.1
    have hnew : new = Forest.ofTrees (before ++ t' :: after) := by
      rw [← trees, Forest.ofTrees_trees]
    have hold : old ++ Forest.ofTrees (q.fresh next count) =
        Forest.ofTrees (before ++ t :: after) := by
      apply Forest.ext_trees
      rw [Forest.trees_append, Forest.trees_ofTrees, Forest.trees_ofTrees, split.split]
    rw [← Forest.held_append_fresh n old q next count ps, hold, hnew]
    cases ps with
    | nil =>
      cases k with
      | none =>
        -- an attribute is written, and the tree that it is written into keeps its text
        have hattr : ∀ ss, ¬ Address.Reaches ⟨ss, payload.key?⟩ ⟨[], none⟩ := by
          intro ss
          cases hkey : payload.key? with
          | none =>
            rw [hkey] at haway
            exact absurd List.nil_prefix haway
          | some k => exact id
        have htext := Option.some.inj (@ih [] (hattr _))
        exact congrArg some (Forest.textContent_replace before after hsame.characters htext)
      | some k => rfl
    | cons p ps =>
      rw [Forest.descend?_places, Forest.descend?_places]
      dsimp only
      rcases Forest.nthRoot?_replace (p := p.accepts) (k := p.position) before after
        (p.accepts_same hsame) with heq | hat
      · rw [heq]
      · -- the place is the one that is written through
        have hstep := Place.stepTest_eq_of_at (split.split ▸ split) hat
        have hat' : Forest.At p.accepts p.position (before ++ t' :: after) before t' after :=
          ⟨rfl, (p.accepts_same hsame).trans hat.passes, hat.rank⟩
        rw [Forest.nthRoot?_of_at hat, Forest.nthRoot?_of_at hat', Option.bind_some,
          Option.bind_some]
        refine ih fun h => haway ?_
        have hcons := h.cons p.stepTest
        rw [List.map_cons, List.map_cons, hstep]
        exact hcons

/-! ## Writing at the address -/

/-- The value that the payload puts. -/
def Payload.value : Payload → String
  | .text s => s
  | .attr a => a.value

/-- A part of a level without text has none. -/
theorem Forest.textContent_filter (q : NodeTree → Bool) {ts : List NodeTree}
    (h : ((ofTrees ts).map Node.content).textContent = "") :
    ((ofTrees (ts.filter q)).map Node.content).textContent = "" := by
  induction ts with
  | nil => rfl
  | cons t ts ih =>
    rw [ofTrees, map, textContent_cons, String.append_eq_empty_iff] at h
    by_cases hq : q t = true
    · rw [List.filter_cons_of_pos hq, ofTrees, map, textContent_cons, h.1, ih h.2]
      rfl
    · rw [List.filter_cons_of_neg hq]
      exact ih h.2

/-- What is filled holds the value, if there was no other text. -/
theorem Payload.Filled.held_own {payload : Payload} (hr : payload.Regular) {t t' : NodeTree}
    {next next' : Nat} (h : payload.Filled t next t' next')
    (hunset : NodeTree.held payload.key? (some t) = Address.unset payload.key?) :
    NodeTree.held payload.key? (some t') = some payload.value := by
  -- without text, nothing is left of the level but the text that is put
  have hkept : ∀ old : Forest Node, (old.map Node.content).textContent = "" →
      ((Forest.ofTrees (old.trees.filter fun t => !t.1.content.isCharacterData)).map
        Node.content).textContent = "" := by
    intro old hold
    refine Forest.textContent_filter _ ?_
    rwa [Forest.ofTrees_trees]
  cases h with
  | @emptied n old new next trees =>
    refine congrArg some (Eq.trans ?_ (hkept old (Option.some.inj hunset)))
    rw [← trees, Forest.ofTrees_trees]
    rfl
  | @text s n old new next nonempty trees =>
    have hnew : new = Forest.ofTrees (old.trees.filter fun t => !t.1.content.isCharacterData) ++
        Forest.leaf ⟨next, .text s⟩ := by
      apply Forest.ext_trees
      rw [trees, Forest.trees_append, Forest.trees_ofTrees]
      rfl
    refine congrArg some ?_
    show (new.map Node.content).textContent = s
    rw [hnew, Forest.map_append, Forest.textContent_append, hkept old (Option.some.inj hunset),
      String.empty_append, Forest.leaf, Forest.map, Forest.textContent_cons]
    exact (String.append_empty).trans String.append_empty
  | @attr a i e below next =>
    show (do let b ← (a.set e.attributes).find? (Attribute.hasKey a.key); return b.value) = _
    rw [Attribute.find?_set (hr a rfl)]
    rfl

/-- What was written through places is held there, if there was no other text. -/
theorem WrittenBelow.held_own {payload : Payload} (hr : payload.Regular) {places : List Place}
    {t t' : NodeTree} {next next' : Nat} (h : WrittenBelow payload places t next t' next')
    (hunset : NodeTree.held payload.key?
      (Forest.descend? (places.map Place.stepTest) none t) = Address.unset payload.key?) :
    NodeTree.held payload.key? (Forest.descend? (places.map Place.stepTest) none t') =
      some payload.value := by
  induction h with
  | here filled => exact filled.held_own hr hunset
  | @step q places n old new before after t t' next count next' _ split written trees ih =>
    have hat' : Forest.At q.accepts q.position new.trees before t' after :=
      ⟨trees, (q.accepts_same written.extends.1).trans split.passes, split.rank⟩
    have hnth := Forest.nthRoot?_of_at split
    have hnth' := Forest.nthRoot?_of_at hat'
    rw [Forest.ofTrees_trees] at hnth'
    rw [← Forest.held_append_fresh n old q next count, Forest.descend?_places] at hunset
    have hlevel : old ++ Forest.ofTrees (q.fresh next count) =
        Forest.ofTrees (old.trees ++ q.fresh next count) := by
      apply Forest.ext_trees
      rw [Forest.trees_append, Forest.trees_ofTrees, Forest.trees_ofTrees]
    rw [Forest.descend?_places]
    dsimp only at hunset ⊢
    rw [hlevel, hnth, Option.bind_some] at hunset
    rw [hnth', Option.bind_some]
    exact ih hunset

/-! ## The root -/

/-- Declaring prefixes on an element changes nothing that is held. -/
theorem Declared.held {ds : List (String × String)} {e e' : Element} (h : Declared ds e e')
    (i : Nat) (below : Forest Node) (k : Option (String × Option String)) (ps : List Place) :
    NodeTree.held k (Forest.descend? (ps.map Place.stepTest) none (⟨i, .element e'⟩, below)) =
      NodeTree.held k (Forest.descend? (ps.map Place.stepTest) none (⟨i, .element e⟩, below)) := by
  cases ps with
  | nil =>
    cases k with
    | none => rfl
    | some k =>
      show (do let b ← e'.attributes.find? (Attribute.hasKey k); return b.value) =
        (do let b ← e.attributes.find? (Attribute.hasKey k); return b.value)
      rw [← Attribute.find?_regular, h.regular, Attribute.find?_regular]
  | cons p ps =>
    rw [Forest.descend?_places, Forest.descend?_places]

namespace WrittenRoot

variable {plan : WritePlan} {r r' : NodeTree} {next next' : Nat}
  {k : Option (String × Option String)} {ps : List Place}

theorem held (h : WrittenRoot plan r next r' next')
    (haway : ¬ Address.Reaches ⟨plan.places.map Place.stepTest, plan.payload.key?⟩
      ⟨ps.map Place.stepTest, k⟩) :
    NodeTree.held k (Forest.descend? (ps.map Place.stepTest) none r') =
      NodeTree.held k (Forest.descend? (ps.map Place.stepTest) none r) := by
  obtain ⟨i, e, e', hr, hdeclared, hwritten⟩ := h
  rw [hwritten.held haway, hdeclared.held, ← hr]

theorem held_own (h : WrittenRoot plan r next r' next') (hregular : plan.payload.Regular)
    (hunset : NodeTree.held plan.payload.key?
      (Forest.descend? (plan.places.map Place.stepTest) none r) =
        Address.unset plan.payload.key?) :
    NodeTree.held plan.payload.key? (Forest.descend? (plan.places.map Place.stepTest) none r') =
      some plan.payload.value := by
  obtain ⟨i, e, e', hr, hdeclared, hwritten⟩ := h
  refine hwritten.held_own hregular ?_
  rw [hdeclared.held, ← hr]
  exact hunset

end WrittenRoot

/-- Going down from the document node to the one root element, at which the first place stands. -/
theorem Forest.descend?_single {p : Place} {r : NodeTree} (hp : p.position = 1)
    (hr : p.accepts r.1 = true) (ps : List Place) (n : Node) :
    descend? ((p :: ps).map Place.stepTest) none (n, single r) =
      descend? (ps.map Place.stepTest) none r := by
  have hnth : (single r).nthRoot? p.accepts p.position = some r := by
    simp only [hp, single, nthRoot?, if_pos hr, if_true]
  rw [descend?_places]
  dsimp only
  rw [hnth]
  rfl

theorem Document.IsTree.held {d : Document} {top : Forest Node} (h : d.IsTree top) (a : Address) :
    d.held a = NodeTree.held a.attr
      (Forest.descend? a.steps none (⟨Document.root, .document⟩, top)) := by
  unfold Document.held Document.locate?
  rw [h.node?_root]
  rfl

/-- Where a plan was carried out on a top level with one root element at most, what is held before
it is what is held from the root element that it started with. -/
theorem WrittenTop.held_root {plan : WritePlan} {top : Forest Node} {r : NodeTree}
    {next next' : Nat} (h : WrittenTop plan top next (Forest.single r) next')
    (hroot : plan.root.accepts r.1 = true) (hposition : plan.root.position = 1) :
    ∃ r₀ m m', WrittenRoot plan r₀ m r m' ∧ ∀ (k : Option (String × Option String))
      (ps : List Place) (n : Node),
        NodeTree.held k (Forest.descend? ((plan.root :: ps).map Place.stepTest) none (n, top)) =
          NodeTree.held k (Forest.descend? (ps.map Place.stepTest) none r₀) := by
  obtain ⟨r₀, m, m', hwritten, hbefore⟩ := h.root
  refine ⟨r₀, m, m', hwritten, fun k ps n => ?_⟩
  rcases hbefore with rfl | ⟨rfl, i, rfl⟩
  · rw [Forest.descend?_single hposition]
    rw [← plan.root.accepts_same hwritten.extends.1]
    exact hroot
  · rw [Forest.held_element, Forest.descend?_places]
    exact NodeTree.held_none k

end MarkupFields
