import MarkupFields.Proofs.Path.Rendered
import MarkupFields.Proofs.Writer.Faithful

/-
  One write into an empty document. A path of steps without prefixes makes one element for each step,
  inside the element of the step before, and puts the text into the last (`writeField_nested`). No
  path is too long for that, no name too long and no text too full of what has to be escaped.
-/

namespace MarkupFields

open Text Scan

/-- The path whose steps have the names, without prefixes and positions. -/
def Path.nested (names : List String) : Path :=
  ⟨names.map fun name => ⟨.plain name, none⟩, none⟩

/-- Elements of the names, each inside the one before, with the text inside the last. -/
def Forest.nested (text : String) : List String → Forest Content
  | [] => if text = "" then .nil else .leaf (.text text)
  | name :: names => .cons (.element ⟨.plain name, none, []⟩) (nested text names) .nil

theorem Path.expressible_nested {names : List String} (hne : names ≠ [])
    (h : ∀ name ∈ names, isNCName name = true) : (Path.nested names).Expressible where
  nonempty := by
    obtain ⟨name, names, rfl⟩ := List.exists_cons_of_ne_nil hne
    exact List.cons_ne_nil _ _
  steps := by
    intro s hs
    obtain ⟨name, hname, rfl⟩ := List.mem_map.1 hs
    exact ⟨h name hname, fun n hn => (nomatch hn)⟩
  attr := fun q hq => (nomatch hq)

namespace Forest

variable (text : String) (names : List String)

theorem height_nested : (nested text names).height = names.length := by
  induction names with
  | nil =>
    unfold nested
    split
    · rfl
    · rfl
  | cons name names ih =>
    rw [nested, height_element, ih, height, Nat.max_zero, List.length_cons]

theorem references_nested :
    (nested text names).references = Scan.references Render.escapedInText text.toList := by
  induction names with
  | nil =>
    unfold nested
    split
    · rename_i ht
      rw [ht]
      rfl
    · exact references_cons ..
  | cons name names ih =>
    rw [nested, references_cons, ih, references_nil, Nat.add_zero]
    exact Nat.zero_add _

theorem mem_preorder_nested {name : String} (h : name ∈ names) :
    Content.element ⟨.plain name, none, []⟩ ∈ (nested text names).preorder := by
  induction names with
  | nil => exact absurd h List.not_mem_nil
  | cons name' names ih =>
    rw [nested, preorder, preorder, List.append_nil]
    rcases List.mem_cons.1 h with rfl | h
    · exact List.mem_cons_self
    · exact List.mem_cons_of_mem _ (ih h)

end Forest

/-- The place of a step without a prefix, where no default namespace is bound. -/
def Place.plain (name : String) : Place :=
  ⟨.plain name, none, 1⟩

namespace Forest

theorem updateNth_single {p : Node → Bool} {change : NodeTree → Nat → NodeTree × Nat} {n n' : Node}
    {below below' : Forest Node} {next next' : Nat} (hp : p n = true)
    (h : change (n, below) next = ((n', below'), next')) :
    updateNth p change 1 (.cons n below .nil) next = (.cons n' below' .nil, next') := by
  rw [updateNth, if_pos hp, if_pos rfl, h]

/-- Below a node without children the elements of all places are new, and nothing else is there. -/
theorem writeBelow_plain (text : String) (names : List String) (n : Node) (next : Nat) :
    ∃ f next', writeBelow (.text text) (names.map Place.plain) (n, .nil) next = ((n, f), next') ∧
      f.map Node.content = nested text names := by
  induction names generalizing n next with
  | nil =>
    by_cases ht : text = ""
    · refine ⟨.nil, next, ?_, ?_⟩
      · rw [ht]
        rfl
      · rw [nested, if_pos ht]
        rfl
    · refine ⟨.leaf ⟨next, .text text⟩, next + 1, ?_, ?_⟩
      · unfold writeBelow Payload.put
        rw [List.map_nil]
        dsimp only
        rw [if_neg ht]
        rfl
      · rw [nested, if_neg ht]
        rfl
  | cons name names ih =>
    obtain ⟨f, next', hwrite, hf⟩ := ih ⟨next, (Place.plain name).element⟩ (next + 1)
    refine ⟨.cons ⟨next, (Place.plain name).element⟩ f .nil, next', ?_, ?_⟩
    · have hone : (Place.plain name).missing .nil = 1 := rfl
      have hlevel := updateNth_single ((Place.plain name).accepts_element next) hwrite
      rw [List.map_cons, writeBelow, hone]
      exact congrArg (fun r : Forest Node × Nat => ((n, r.1), r.2)) hlevel
    · rw [map, hf]
      rfl

end Forest

namespace FieldWriter

theorem resolveSteps_nested (maxIndex : Nat) (names : List String) :
    (blank maxIndex .empty).resolveSteps (Path.nested names).steps =
      .ok (names.map Place.plain) := by
  induction names with
  | nil => rfl
  | cons name names ih =>
    show (blank maxIndex .empty).resolveSteps (⟨.plain name, none⟩ :: (Path.nested names).steps) = _
    rw [resolveSteps, ih]
    rfl

/-- The plan of such a path declares nothing. -/
theorem planFor_nested (maxIndex : Nat) (name : String) (names : List String) (text : String) :
    (blank maxIndex .empty).planFor (Path.nested (name :: names)) text =
      .ok ⟨Place.plain name, names.map Place.plain, [], .text text⟩ := by
  have hneeded : neededFor ((name :: names).map Place.plain) (.text text) = [] := by
    unfold neededFor
    rw [List.append_nil, List.filterMap_eq_nil_iff]
    intro p hp
    obtain ⟨name, -, rfl⟩ := List.mem_map.1 hp
    rfl
  unfold planFor
  rw [resolveSteps_nested, ok_bind]
  rw [List.map_cons] at hneeded ⊢
  show Except.ok (WritePlan.mk _ _ (neededFor _ (.text text)) _) = _
  rw [hneeded]

theorem pathOf_nested {maxIndex : Nat} (hmax : 1 ≤ maxIndex) {names : List String}
    (hne : names ≠ []) (hnames : ∀ name ∈ names, isNCName name = true) {f : Field}
    (hf : f.path = (Path.nested names).render) :
    (blank maxIndex .empty).pathOf f = .ok (Path.nested names) := by
  refine pathOf_of_parse ?_ (mt List.map_eq_nil_iff.1 hne) (fun s hs => ?_) (.inl rfl)
  · rw [hf, Path.parse_render (Path.expressible_nested hne hnames)]
  · obtain ⟨name, -, rfl⟩ := List.mem_map.1 hs
    exact hmax

/-- On a document without nodes the plan makes the elements of its places. -/
theorem writeTop_nested (name : String) (names : List String) (text : String) (next : Nat) :
    (((⟨Place.plain name, names.map Place.plain, [], .text text⟩ : WritePlan).writeTop .nil
      next).1).map Node.content = Forest.nested text (name :: names) := by
  obtain ⟨f, next', hwrite, hf⟩ :=
    Forest.writeBelow_plain text names ⟨next, (Place.plain name).element⟩ (next + 1)
  have hroot := Forest.updateNth_single (p := fun n => n.content.isElement)
    (n := ⟨next, (Place.plain name).element⟩) rfl hwrite
  rw [Forest.nested, ← hf]
  exact congrArg (fun r : Forest Node × Nat => r.1.map Node.content) hroot

/-- The document after the write is the elements of the path, with the text inside the last. -/
theorem writeField_nested {maxIndex : Nat} (hmax : 1 ≤ maxIndex) {names : List String}
    (hne : names ≠ []) (hnames : ∀ name ∈ names, isNCName name = true) {text : String}
    (htext : ∀ c ∈ text.toList, isXmlChar c = true) (log : List Audit) :
    ∃ w, (blank maxIndex .empty).writeField
        ⟨(Path.nested names).render, some (.string text), none, false⟩ log = (.ok (), w, log) ∧
      w.document.markup = ⟨.absent, Forest.nested text names⟩ := by
  have htextOf : textOf? ⟨(Path.nested names).render, some (.string text), none, false⟩ =
      some text := by
    unfold textOf?
    exact Option.filter_eq_some_iff.2 ⟨rfl, List.all_eq_true.2 htext⟩
  have hpath := pathOf_nested hmax hne hnames
    (f := ⟨(Path.nested names).render, some (.string text), none, false⟩) rfl
  obtain ⟨name, names, rfl⟩ := List.exists_cons_of_ne_nil hne
  let plan : WritePlan := ⟨Place.plain name, names.map Place.plain, [], .text text⟩
  refine ⟨{ blank maxIndex .empty with document := plan.write .empty }, ?_, ?_⟩
  · unfold writeField
    rw [hpath]
    dsimp only
    rw [htextOf]
    dsimp only
    rw [planFor_nested]
    rfl
  · have htree := isTree_write plan (show Document.empty.IsTree .nil from rfl)
    rw [markup_of_isTree htree, writeTop_nested]
    rfl

end FieldWriter

end MarkupFields
