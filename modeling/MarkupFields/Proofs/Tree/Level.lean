import MarkupFields.Field.Writer
import Mathlib.Data.List.Basic
import Mathlib.Data.List.Count

/-
  One level of a forest as a list of trees. Selecting by position and changing at a position both
  single out the same tree: the one that passes the test after exactly one less than so many others
  (`nthRoot?_eq_some_iff`, `updateNth_eq`). The rest of the level is what stands before it and what
  stands after it, and a change leaves both as they are.
-/

namespace MarkupFields.Forest

variable {α : Type}

/-- The roots of the trees pass the test so many times. -/
def rootCount (p : α → Bool) (ts : List (α × Forest α)) : Nat :=
  ts.countP fun t => p t.1

@[simp] theorem rootCount_nil (p : α → Bool) : rootCount p [] = 0 := rfl

theorem rootCount_cons (p : α → Bool) (t : α × Forest α) (ts : List (α × Forest α)) :
    rootCount p (t :: ts) = rootCount p ts + if p t.1 then 1 else 0 :=
  List.countP_cons

theorem rootCount_append (p : α → Bool) (ts us : List (α × Forest α)) :
    rootCount p (ts ++ us) = rootCount p ts + rootCount p us :=
  List.countP_append

theorem rootCount_eq_zero (p : α → Bool) (ts : List (α × Forest α)) :
    rootCount p ts = 0 ↔ ∀ t ∈ ts, p t.1 = false := by
  simp [rootCount, List.countP_eq_zero]

theorem rootCount_eq (p : α → Bool) (f : Forest α) :
    (f.roots.filter p).length = rootCount p f.trees := by
  rw [roots_eq_map_trees, ← List.countP_eq_length_filter, List.countP_map]
  rfl

theorem ext_trees {f g : Forest α} (h : f.trees = g.trees) : f = g := by
  rw [← ofTrees_trees f, h, ofTrees_trees]

theorem preorder_map {β : Type} (m : α → β) (f : Forest α) :
    (f.map m).preorder = f.preorder.map m := by
  induction f with
  | nil => rfl
  | cons a below beside ihb ihs =>
    simp only [map, preorder, ihb, ihs, List.map_cons, List.map_append]

theorem trees_map {β : Type} (m : α → β) (f : Forest α) :
    (f.map m).trees = f.trees.map fun t => (m t.1, t.2.map m) := by
  induction f with
  | nil => rfl
  | cons a below beside _ ih => simp only [map, trees, ih, List.map_cons]

theorem roots_map {β : Type} (m : α → β) (f : Forest α) : (f.map m).roots = f.roots.map m := by
  induction f with
  | nil => rfl
  | cons a below beside _ ih => simp only [map, roots, ih, List.map_cons]

/-- A forest that becomes two side by side consists of two side by side. -/
theorem map_eq_append {β : Type} {m : α → β} {f : Forest α} {g h : Forest β}
    (hf : f.map m = g ++ h) : ∃ f₁ f₂, f = f₁ ++ f₂ ∧ f₁.map m = g ∧ f₂.map m = h := by
  induction g generalizing f with
  | nil => exact ⟨.nil, f, rfl, rfl, hf⟩
  | cons b below beside _ ih =>
    cases f with
    | nil => cases hf
    | cons a below' beside' =>
      obtain ⟨hroot, hbelow, hbeside⟩ := Forest.cons.inj hf
      obtain ⟨f₁, f₂, rfl, h₁, h₂⟩ := ih hbeside
      exact ⟨.cons a below' f₁, f₂, rfl, by rw [map, hroot, hbelow, h₁], h₂⟩

/-- A label of a forest is the root of a tree of the top level or below it. -/
theorem mem_preorder {f : Forest α} {a : α} :
    a ∈ f.preorder ↔ ∃ t ∈ f.trees, a = t.1 ∨ a ∈ t.2.preorder := by
  induction f with
  | nil => simp [preorder, trees]
  | cons b below beside _ ih =>
    rw [preorder, List.mem_cons, List.mem_append, ih, trees, List.exists_mem_cons_iff, or_assoc]

theorem mem_preorder_of_mem_roots {f : Forest α} {a : α} (h : a ∈ f.roots) : a ∈ f.preorder := by
  rw [roots_eq_map_trees] at h
  obtain ⟨t, ht, rfl⟩ := List.mem_map.1 h
  exact mem_preorder.2 ⟨t, ht, .inl rfl⟩

theorem textContent_append (f g : Forest Content) :
    (f ++ g).textContent = f.textContent ++ g.textContent := by
  unfold textContent
  rw [preorder_append, List.map_append, String.join_append]

theorem textContent_cons (c : Content) (below beside : Forest Content) :
    (cons c below beside).textContent =
      c.characters ++ below.textContent ++ beside.textContent := by
  unfold textContent
  rw [preorder, List.map_cons, List.map_append, String.join_cons, String.join_append,
    String.append_assoc]

/-- The handles of the nodes in document order. -/
def handles (f : Forest Node) : List Nat :=
  f.preorder.map Node.handle

/-! ## The tree at a position -/

/-- The tree is the one at the position: it passes the test, and so do all but one of the position
before it. -/
structure At (p : α → Bool) (n : Nat) (ts before : List (α × Forest α)) (t : α × Forest α)
    (after : List (α × Forest α)) : Prop where
  split : ts = before ++ t :: after
  passes : p t.1 = true
  rank : rootCount p before + 1 = n

/-- No tree before the first that passes does pass. -/
theorem At.mem {p : α → Bool} {n : Nat} {ts before after : List (α × Forest α)}
    {t : α × Forest α} (h : At p n ts before t after) : t ∈ ts := by
  rw [h.split]
  exact List.mem_append_right before List.mem_cons_self

theorem At.first {p : α → Bool} {ts before after : List (α × Forest α)} {t : α × Forest α}
    (h : At p 1 ts before t after) : ∀ u ∈ before, p u.1 = false :=
  (rootCount_eq_zero p before).1 (by have := h.rank; omega)

theorem At.cons_of_pos {p : α → Bool} {n : Nat} {ts before after : List (α × Forest α)}
    {t u : α × Forest α} (hu : p u.1 = true) (h : At p n ts before t after) :
    At p (n + 1) (u :: ts) (u :: before) t after where
  split := by rw [h.split]; rfl
  passes := h.passes
  rank := by rw [rootCount_cons, if_pos hu, h.rank]

theorem At.cons_of_neg {p : α → Bool} {n : Nat} {ts before after : List (α × Forest α)}
    {t u : α × Forest α} (hu : p u.1 = false) (h : At p n ts before t after) :
    At p n (u :: ts) (u :: before) t after where
  split := by rw [h.split]; rfl
  passes := h.passes
  rank := by rw [rootCount_cons, if_neg (by simp [hu])]; exact h.rank

/-- There is a tree at every position up to the number of those that pass. -/
theorem exists_at {p : α → Bool} {n : Nat} (ts : List (α × Forest α)) (hn : 1 ≤ n)
    (hc : n ≤ rootCount p ts) : ∃ before t after, At p n ts before t after := by
  induction ts generalizing n with
  | nil =>
    rw [rootCount_nil] at hc
    omega
  | cons u ts ih =>
    rw [rootCount_cons] at hc
    by_cases hu : p u.1 = true
    · rw [if_pos hu] at hc
      by_cases h1 : n = 1
      · exact ⟨[], u, ts, ⟨rfl, hu, by rw [rootCount_nil, h1]⟩⟩
      · obtain ⟨before, t, after, h⟩ := ih (n := n - 1) (by omega) (by omega)
        refine ⟨u :: before, t, after, ?_⟩
        have := h.cons_of_pos hu
        rwa [Nat.sub_add_cancel hn] at this
    · rw [if_neg hu] at hc
      obtain ⟨before, t, after, h⟩ := ih hn hc
      exact ⟨u :: before, t, after, h.cons_of_neg (by simpa using hu)⟩

theorem nthRoot?_of_at {p : α → Bool} {n : Nat} {ts before after : List (α × Forest α)}
    {t : α × Forest α} (h : At p n ts before t after) : nthRoot? p n (ofTrees ts) = some t := by
  obtain ⟨rfl, ht, hr⟩ := h
  induction before generalizing n with
  | nil =>
    rw [rootCount_nil] at hr
    simp [ofTrees, nthRoot?, ht, ← hr]
  | cons u before ih =>
    rw [rootCount_cons] at hr
    by_cases hu : p u.1 = true
    · rw [if_pos hu] at hr
      have hn : n ≠ 1 := by omega
      simp only [List.cons_append, ofTrees, nthRoot?, if_pos hu, if_neg hn]
      exact ih (by omega)
    · rw [if_neg hu] at hr
      simp only [List.cons_append, ofTrees, nthRoot?, if_neg hu]
      exact ih hr

/-- There is only one tree at a position. -/
theorem At.unique {p : α → Bool} {n : Nat} {ts before before' after after' : List (α × Forest α)}
    {t t' : α × Forest α} (h : At p n ts before t after) (h' : At p n ts before' t' after') :
    before = before' ∧ t = t' ∧ after = after' := by
  obtain ⟨rfl, ht, hr⟩ := h
  obtain ⟨hs, ht', hr'⟩ := h'
  induction before generalizing n before' with
  | nil =>
    cases before' with
    | nil =>
      obtain ⟨rfl, rfl⟩ := List.cons.inj hs
      exact ⟨rfl, rfl, rfl⟩
    | cons u before' =>
      rw [← (List.cons.inj hs).1, rootCount_cons, if_pos ht] at hr'
      rw [rootCount_nil] at hr
      omega
  | cons u before ih =>
    cases before' with
    | nil =>
      rw [(List.cons.inj hs).1, rootCount_cons, if_pos ht'] at hr
      rw [rootCount_nil] at hr'
      omega
    | cons u' before' =>
      obtain ⟨rfl, htail⟩ := List.cons.inj hs
      rw [rootCount_cons] at hr hr'
      obtain ⟨rfl, rfl, rfl⟩ := ih rfl htail (by omega)
      exact ⟨rfl, rfl, rfl⟩

/-- What is selected at a position is the tree at that position. -/
theorem nthRoot?_eq_some_iff {p : α → Bool} {n : Nat} {f : Forest α} {t : α × Forest α}
    (hn : 1 ≤ n) :
    nthRoot? p n f = some t ↔ ∃ before after, At p n f.trees before t after := by
  constructor
  · intro h
    induction f generalizing n with
    | nil => simp [nthRoot?] at h
    | cons a below beside _ ih =>
      simp only [nthRoot?] at h
      split at h
      · rename_i ha
        split at h
        · rename_i h1
          rw [Option.some.injEq] at h
          subst h h1
          exact ⟨[], beside.trees, ⟨rfl, ha, rfl⟩⟩
        · obtain ⟨before, after, hat⟩ := ih (by omega) h
          refine ⟨(a, below) :: before, after, ?_⟩
          have := hat.cons_of_pos (u := (a, below)) ha
          rwa [Nat.sub_add_cancel hn] at this
      · rename_i ha
        obtain ⟨before, after, hat⟩ := ih hn h
        exact ⟨(a, below) :: before, after, hat.cons_of_neg (by simpa using ha)⟩
  · rintro ⟨before, after, h⟩
    rw [← ofTrees_trees f]
    exact nthRoot?_of_at h

theorem nthRoot?_congr {p q : α → Bool} {f : Forest α}
    (h : ∀ t ∈ f.trees, q t.1 = p t.1) (k : Nat) : nthRoot? q k f = nthRoot? p k f := by
  induction f generalizing k with
  | nil => rfl
  | cons a below beside _ ih =>
    rw [trees, List.forall_mem_cons] at h
    simp only [nthRoot?, h.1, ih h.2]

theorem nthRoot?_mem {p : α → Bool} {k : Nat} {f : Forest α} {t : α × Forest α}
    (h : nthRoot? p k f = some t) : t ∈ f.trees ∧ p t.1 = true := by
  induction f generalizing k with
  | nil => cases h
  | cons a below beside _ ih =>
    unfold nthRoot? at h
    split at h
    · rename_i ha
      split at h
      · rw [← Option.some.inj h]
        exact ⟨List.mem_cons_self, ha⟩
      · exact (ih h).imp_left (List.mem_cons_of_mem _)
    · exact (ih h).imp_left (List.mem_cons_of_mem _)

/-! ## Changing the tree at a position -/

/-- A change at a position replaces the tree there. -/
theorem updateNth_of_at {p : Node → Bool} (change : NodeTree → Nat → NodeTree × Nat) {n : Nat}
    {ts before after : List NodeTree} {t : NodeTree} (next : Nat) (h : At p n ts before t after) :
    updateNth p change n (ofTrees ts) next =
      (ofTrees (before ++ (change t next).1 :: after), (change t next).2) := by
  obtain ⟨rfl, ht, hr⟩ := h
  induction before generalizing n with
  | nil =>
    rw [rootCount_nil] at hr
    simp [ofTrees, updateNth, ht, ← hr]
  | cons u before ih =>
    rw [rootCount_cons] at hr
    by_cases hu : p u.1 = true
    · rw [if_pos hu] at hr
      have hn : n ≠ 1 := by omega
      simp only [List.cons_append, ofTrees, updateNth, if_pos hu, if_neg hn]
      rw [ih (by omega)]
    · rw [if_neg hu] at hr
      simp only [List.cons_append, ofTrees, updateNth, if_neg hu]
      rw [ih hr]

/-- A change at a position that exists replaces the tree there and nothing else. -/
theorem updateNth_eq {p : Node → Bool} (change : NodeTree → Nat → NodeTree × Nat) {n : Nat}
    (f : Forest Node) (next : Nat) (hn : 1 ≤ n) (hc : n ≤ rootCount p f.trees) :
    ∃ before t after, At p n f.trees before t after ∧
      (updateNth p change n f next).1.trees = before ++ (change t next).1 :: after ∧
      (updateNth p change n f next).2 = (change t next).2 := by
  obtain ⟨before, t, after, h⟩ := exists_at f.trees hn hc
  have hu := updateNth_of_at change next h
  rw [ofTrees_trees] at hu
  refine ⟨before, t, after, h, ?_, ?_⟩
  · rw [hu, trees_ofTrees]
  · rw [hu]

end MarkupFields.Forest
