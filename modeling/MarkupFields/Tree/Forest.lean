/-
  Ordered forests. A forest is empty, or a first tree (the label of its root and the forest below
  it) followed by the trees beside it. Document order is the preorder. The trees of one level can be
  taken out as a list and put together again, so what concerns one level is said with lists.
-/

namespace MarkupFields

/-- An ordered forest of labelled trees. -/
inductive Forest (α : Type) where
  | nil
  | cons (root : α) (below : Forest α) (beside : Forest α)
  deriving DecidableEq, Repr

namespace Forest

variable {α β : Type}

instance : Inhabited (Forest α) := ⟨nil⟩

/-- The forest of one tree without branches. -/
def leaf (a : α) : Forest α :=
  cons a nil nil

/-! ## Views -/

/-- The trees of the top level, each as its root and what is below. -/
def trees : Forest α → List (α × Forest α)
  | nil => []
  | cons a below beside => (a, below) :: beside.trees

/-- The forest of the given trees. -/
def ofTrees : List (α × Forest α) → Forest α
  | [] => nil
  | t :: ts => cons t.1 t.2 (ofTrees ts)

@[simp] theorem ofTrees_trees (f : Forest α) : ofTrees f.trees = f := by
  induction f with
  | nil => rfl
  | cons a below beside _ ih => simp [trees, ofTrees, ih]

@[simp] theorem trees_ofTrees (ts : List (α × Forest α)) : (ofTrees ts).trees = ts := by
  induction ts with
  | nil => rfl
  | cons t ts ih => simp [trees, ofTrees, ih]

/-- The labels of the top level. -/
def roots : Forest α → List α
  | nil => []
  | cons a _ beside => a :: beside.roots

theorem roots_eq_map_trees (f : Forest α) : f.roots = f.trees.map Prod.fst := by
  induction f with
  | nil => rfl
  | cons a below beside _ ih => simp [trees, roots, ih]

/-- All labels in document order: a root, what is below it, what is beside it. -/
def preorder : Forest α → List α
  | nil => []
  | cons a below beside => a :: (below.preorder ++ beside.preorder)

/-- The number of labels. -/
def size : Forest α → Nat
  | nil => 0
  | cons _ below beside => 1 + below.size + beside.size

theorem length_preorder (f : Forest α) : f.preorder.length = f.size := by
  induction f with
  | nil => rfl
  | cons a below beside ihb ihs => simp [preorder, size, ihb, ihs]; omega

/-! ## Building -/

/-- The trees of the second forest stand beside those of the first. -/
def append : Forest α → Forest α → Forest α
  | nil, g => g
  | cons a below beside, g => cons a below (beside.append g)

instance : Append (Forest α) := ⟨append⟩

@[simp] theorem nil_append (g : Forest α) : nil ++ g = g := rfl

@[simp] theorem cons_append (a : α) (below beside g : Forest α) :
    cons a below beside ++ g = cons a below (beside ++ g) := rfl

@[simp] theorem append_nil (f : Forest α) : f ++ nil = f := by
  induction f with
  | nil => rfl
  | cons a below beside _ ih => simp [ih]

theorem append_assoc (f g h : Forest α) : f ++ g ++ h = f ++ (g ++ h) := by
  induction f with
  | nil => rfl
  | cons a below beside _ ih => simp [ih]

@[simp] theorem trees_append (f g : Forest α) : (f ++ g).trees = f.trees ++ g.trees := by
  induction f with
  | nil => rfl
  | cons a below beside _ ih => simp [trees, ih]

@[simp] theorem roots_append (f g : Forest α) : (f ++ g).roots = f.roots ++ g.roots := by
  induction f with
  | nil => rfl
  | cons a below beside _ ih => simp [roots, ih]

@[simp] theorem preorder_append (f g : Forest α) :
    (f ++ g).preorder = f.preorder ++ g.preorder := by
  induction f with
  | nil => rfl
  | cons a below beside _ ih => simp [preorder, ih]

theorem forall_mem_preorder_cons {p : α → Prop} {a : α} {below beside : Forest α} :
    (∀ b ∈ (cons a below beside).preorder, p b) ↔
      p a ∧ (∀ b ∈ below.preorder, p b) ∧ ∀ b ∈ beside.preorder, p b := by
  rw [preorder, List.forall_mem_cons, List.forall_mem_append]

theorem forall_mem_preorder_append {p : α → Prop} {f g : Forest α} :
    (∀ b ∈ (f ++ g).preorder, p b) ↔ (∀ b ∈ f.preorder, p b) ∧ ∀ b ∈ g.preorder, p b := by
  rw [preorder_append, List.forall_mem_append]

/-- Every label is replaced, the shape is kept. -/
def map (m : α → β) : Forest α → Forest β
  | nil => nil
  | cons a below beside => cons (m a) (below.map m) (beside.map m)

theorem map_append (m : α → β) (f g : Forest α) : (f ++ g).map m = f.map m ++ g.map m := by
  induction f with
  | nil => rfl
  | cons a below beside _ ih => simp only [cons_append, map, ih]

/-- The trees of the top level whose roots pass the test, with all that is below them. -/
def filterRoots (p : α → Bool) : Forest α → Forest α
  | nil => nil
  | cons a below beside =>
    if p a then cons a below (beside.filterRoots p) else beside.filterRoots p

theorem trees_filterRoots (p : α → Bool) (f : Forest α) :
    (f.filterRoots p).trees = f.trees.filter fun t => p t.1 := by
  induction f with
  | nil => rfl
  | cons a below beside _ ih =>
    by_cases h : p a = true <;> simp [filterRoots, trees, h, ih]

/-! ## One node and its place -/

/-- The first label in document order that passes the test, with what is below it. -/
def find? (p : α → Bool) : Forest α → Option (α × Forest α)
  | nil => none
  | cons a below beside =>
    if p a then some (a, below) else (below.find? p).or (beside.find? p)

/-- The first label that passes the test, followed by the labels above it from the nearest to the
outermost. -/
def lineage? (p : α → Bool) : Forest α → Option (List α)
  | nil => none
  | cons a below beside =>
    if p a then some [a]
    else ((below.lineage? p).map (· ++ [a])).or (beside.lineage? p)

/-- The first level below some root on which a label passes the test: the label above it and all
labels of the level. -/
def family? (p : α → Bool) : Forest α → Option (α × List α)
  | nil => none
  | cons a below beside =>
    if below.roots.any p then some (a, below.roots)
    else (below.family? p).or (beside.family? p)

/-- Every tree whose root passes the test is replaced, with its root, what is below it given to the
replacement; what is beside it stays. -/
def modify (p : α → Bool) (m : α → Forest α → α × Forest α) : Forest α → Forest α
  | nil => nil
  | cons a below beside =>
    if p a then cons (m a below).1 (m a below).2 (beside.modify p m)
    else cons a (below.modify p m) (beside.modify p m)

/-- The forest without the trees, at any depth, whose roots pass the test. -/
def erase (p : α → Bool) : Forest α → Forest α
  | nil => nil
  | cons a below beside =>
    if p a then beside.erase p else cons a (below.erase p) (beside.erase p)

end Forest

end MarkupFields
