import MarkupFields.Proofs.Tree.Level
import Mathlib.Data.List.Nodup
import Mathlib.Data.List.Perm.Basic

/-
  One node of a forest. A handle that comes once names one tree (`Forest.OnlyAt`): it is found
  there, taking it out leaves the other handles, and a change of what is below it changes no other
  level. What a forest says about its nodes is one statement for each of them (`Forest.Shows`): what
  it is, and which children it has. The statement is kept by all that builds forests out of forests.
-/

namespace MarkupFields

open Document (hasHandle)

namespace Forest

/-! ## Handles -/

@[simp] theorem handles_nil : (nil : Forest Node).handles = [] := rfl

@[simp] theorem handles_cons (n : Node) (below beside : Forest Node) :
    (cons n below beside).handles = n.handle :: (below.handles ++ beside.handles) := by
  unfold handles
  rw [preorder, List.map_cons, List.map_append]

@[simp] theorem handles_append (f g : Forest Node) : (f ++ g).handles = f.handles ++ g.handles := by
  unfold handles
  rw [preorder_append, List.map_append]

/-- Handles that are given in document order follow one another. -/
theorem handles_number {next : Nat} {f : Forest Content} {k : Nat}
    (hk : k ∈ (Document.number next f).1.handles) : next ≤ k ∧ k < next + f.size := by
  unfold Forest.handles at hk
  rwa [Document.preorder_number, List.mem_range'_1] at hk

/-- The handles of the top level. -/
def rootHandles (f : Forest Node) : List Nat :=
  f.roots.map Node.handle

@[simp] theorem rootHandles_cons (n : Node) (below beside : Forest Node) :
    (cons n below beside).rootHandles = n.handle :: beside.rootHandles := rfl

@[simp] theorem rootHandles_append (f g : Forest Node) :
    (f ++ g).rootHandles = f.rootHandles ++ g.rootHandles := by
  unfold rootHandles
  rw [roots_append, List.map_append]

theorem mem_handles_of_mem_rootHandles {f : Forest Node} {h : Nat} (hh : h ∈ f.rootHandles) :
    h ∈ f.handles := by
  induction f with
  | nil => exact hh
  | cons n below beside _ ih =>
    rw [rootHandles_cons, List.mem_cons] at hh
    rw [handles_cons, List.mem_cons, List.mem_append]
    exact hh.imp_right fun hh => .inr (ih hh)

theorem hasHandle_iff {h : Nat} {n : Node} : hasHandle h n = true ↔ n.handle = h :=
  beq_iff_eq

/-- A level falls into the trees that pass a test and those that do not. -/
theorem preorder_filterRoots (p : Node → Bool) (f : Forest Node) :
    ((f.filterRoots p).preorder ++ (f.filterRoots fun n => !p n).preorder).Perm f.preorder := by
  rw [List.perm_iff_count]
  intro k
  induction f with
  | nil => rfl
  | cons n below beside _ ih =>
    simp only [List.count_append] at ih ⊢
    by_cases hp : p n = true
    · rw [filterRoots, if_pos hp, filterRoots, if_neg (by simp [hp])]
      simp only [preorder, List.count_append, List.count_cons]
      omega
    · rw [filterRoots, if_neg hp, filterRoots, if_pos (by simp [hp])]
      simp only [preorder, List.count_append, List.count_cons]
      omega

theorem handles_filterRoots (p : Node → Bool) (f : Forest Node) :
    ((f.filterRoots p).handles ++ (f.filterRoots fun n => !p n).handles).Perm f.handles := by
  have hnodes := (preorder_filterRoots p f).map Node.handle
  rwa [List.map_append] at hnodes

theorem not_mem_filterRoots {f : Forest Node} {h : Nat} (hh : h ∉ f.handles) (p : Node → Bool) :
    h ∉ (f.filterRoots p).handles :=
  fun hmem => hh ((handles_filterRoots p f).mem_iff.1 (List.mem_append_left _ hmem))

theorem rootHandles_filterRoots {p : Node → Bool} {q : Nat → Bool} {f : Forest Node}
    (h : ∀ n ∈ f.roots, p n = q n.handle) :
    (f.filterRoots p).rootHandles = f.rootHandles.filter q := by
  induction f with
  | nil => rfl
  | cons n below beside _ ih =>
    obtain ⟨hn, hrest⟩ := List.forall_mem_cons.1 h
    rw [rootHandles_cons, List.filter_cons, ← hn, ← ih hrest, filterRoots]
    split <;> rfl

/-! ## The tree of a handle -/

/-- The handle is that of one node of the forest, which is the root of this tree. -/
inductive OnlyAt (h : Nat) : Forest Node → NodeTree → Prop
  | here {n : Node} {below beside : Forest Node} (named : n.handle = h)
      (notBelow : h ∉ below.handles) (notBeside : h ∉ beside.handles) :
      OnlyAt h (.cons n below beside) (n, below)
  | inside {n : Node} {below beside : Forest Node} {t : NodeTree} (other : n.handle ≠ h)
      (rest : OnlyAt h below t) (notBeside : h ∉ beside.handles) :
      OnlyAt h (.cons n below beside) t
  | outside {n : Node} {below beside : Forest Node} {t : NodeTree} (other : n.handle ≠ h)
      (notBelow : h ∉ below.handles) (rest : OnlyAt h beside t) :
      OnlyAt h (.cons n below beside) t

theorem onlyAt_of_mem {f : Forest Node} {h : Nat} (hnodup : f.handles.Nodup) (hh : h ∈ f.handles) :
    ∃ t, OnlyAt h f t := by
  induction f with
  | nil => exact absurd hh List.not_mem_nil
  | cons n below beside ihb ihs =>
    rw [handles_cons] at hnodup hh
    obtain ⟨hn, hrest⟩ := List.nodup_cons.1 hnodup
    obtain ⟨hb, hs, hdisjoint⟩ := List.nodup_append.1 hrest
    rw [List.mem_append, not_or] at hn
    rcases List.mem_cons.1 hh with rfl | hh
    · exact ⟨_, .here rfl hn.1 hn.2⟩
    · have hother : n.handle ≠ h := by
        rintro rfl
        exact (List.mem_append.1 hh).elim hn.1 hn.2
      rcases List.mem_append.1 hh with hh | hh
      · obtain ⟨t, ht⟩ := ihb hb hh
        exact ⟨t, .inside hother ht fun hin => hdisjoint h hh h hin rfl⟩
      · obtain ⟨t, ht⟩ := ihs hs hh
        exact ⟨t, .outside hother (fun hin => hdisjoint h hin h hh rfl) ht⟩

theorem find?_of_not_mem {f : Forest Node} {h : Nat} (hh : h ∉ f.handles) :
    f.find? (hasHandle h) = none := by
  induction f with
  | nil => rfl
  | cons n below beside ihb ihs =>
    simp only [handles_cons, List.mem_cons, List.mem_append, not_or] at hh
    rw [find?, if_neg (fun hn => hh.1 (hasHandle_iff.1 hn).symm), ihb hh.2.1, ihs hh.2.2]
    rfl

theorem erase_of_not_mem {f : Forest Node} {h : Nat} (hh : h ∉ f.handles) :
    f.erase (hasHandle h) = f := by
  induction f with
  | nil => rfl
  | cons n below beside ihb ihs =>
    simp only [handles_cons, List.mem_cons, List.mem_append, not_or] at hh
    rw [erase, if_neg (fun hn => hh.1 (hasHandle_iff.1 hn).symm), ihb hh.2.1, ihs hh.2.2]

theorem modify_of_not_mem {f : Forest Node} {h : Nat} (hh : h ∉ f.handles)
    (m : Node → Forest Node → NodeTree) : f.modify (hasHandle h) m = f := by
  induction f with
  | nil => rfl
  | cons n below beside ihb ihs =>
    simp only [handles_cons, List.mem_cons, List.mem_append, not_or] at hh
    rw [modify, if_neg (fun hn => hh.1 (hasHandle_iff.1 hn).symm), ihb hh.2.1, ihs hh.2.2]

/-- A change that leaves the handles of the nodes leaves those of the level. -/
theorem rootHandles_modify {p : Node → Bool} {m : Node → Forest Node → NodeTree}
    (hm : ∀ n kids, (m n kids).1.handle = n.handle) (f : Forest Node) :
    (f.modify p m).rootHandles = f.rootHandles := by
  induction f with
  | nil => rfl
  | cons n below beside _ ih =>
    rw [modify]
    split
    · rw [rootHandles_cons, rootHandles_cons, hm, ih]
    · rw [rootHandles_cons, rootHandles_cons, ih]

/-- Of a level only the tree with the handle itself is taken out. -/
theorem rootHandles_erase {f : Forest Node} (hnodup : f.rootHandles.Nodup) (h : Nat) :
    (f.erase (hasHandle h)).rootHandles = f.rootHandles.erase h := by
  rw [hnodup.erase_eq_filter]
  clear hnodup
  induction f with
  | nil => rfl
  | cons n below beside _ ih =>
    rw [erase, rootHandles_cons, List.filter_cons]
    by_cases hn : n.handle = h
    · rw [if_pos (hasHandle_iff.2 hn), ih, if_neg (by simp [hn])]
    · rw [if_neg (fun hsame => hn (hasHandle_iff.1 hsame)), rootHandles_cons, ih,
        if_pos (by simpa using hn)]

namespace OnlyAt

variable {h : Nat} {f : Forest Node} {t : NodeTree}

theorem handle (ht : OnlyAt h f t) : t.1.handle = h := by
  induction ht with
  | here named => exact named
  | inside _ _ _ ih => exact ih
  | outside _ _ _ ih => exact ih

theorem not_mem (ht : OnlyAt h f t) : h ∉ t.2.handles := by
  induction ht with
  | here _ notBelow => exact notBelow
  | inside _ _ _ ih => exact ih
  | outside _ _ _ ih => exact ih

theorem find? (ht : OnlyAt h f t) : f.find? (hasHandle h) = some t := by
  induction ht with
  | here named => rw [Forest.find?, if_pos (hasHandle_iff.2 named)]
  | inside other _ _ ih =>
    rw [Forest.find?, if_neg (fun hn => other (hasHandle_iff.1 hn)), ih]
    rfl
  | outside other notBelow _ ih =>
    rw [Forest.find?, if_neg (fun hn => other (hasHandle_iff.1 hn)), find?_of_not_mem notBelow, ih]
    rfl

/-- Taking the tree out leaves the nodes that are not in it. -/
theorem preorder_erase (ht : OnlyAt h f t) :
    ((f.erase (hasHandle h)).preorder ++ t.1 :: t.2.preorder).Perm f.preorder := by
  rw [List.perm_iff_count]
  intro k
  induction ht with
  | here named _ notBeside =>
    rw [erase, if_pos (hasHandle_iff.2 named), erase_of_not_mem notBeside]
    simp only [preorder, List.count_append, List.count_cons]
    omega
  | inside other _ notBeside ih =>
    rw [erase, if_neg (fun hn => other (hasHandle_iff.1 hn)), erase_of_not_mem notBeside]
    simp only [preorder, List.count_append, List.count_cons] at ih ⊢
    omega
  | outside other notBelow _ ih =>
    rw [erase, if_neg (fun hn => other (hasHandle_iff.1 hn)), erase_of_not_mem notBelow]
    simp only [preorder, List.count_append, List.count_cons] at ih ⊢
    omega

theorem handles_erase (ht : OnlyAt h f t) :
    ((f.erase (hasHandle h)).handles ++ h :: t.2.handles).Perm f.handles := by
  have hnodes := ht.preorder_erase.map Node.handle
  rwa [List.map_append, List.map_cons, ht.handle] at hnodes

/-- In a forest of distinct handles those of a tree are distinct. -/
theorem nodup (ht : OnlyAt h f t) (hnodup : f.handles.Nodup) : (h :: t.2.handles).Nodup :=
  (List.nodup_append.1 (ht.handles_erase.nodup_iff.2 hnodup)).2.1

/-- A change of what is below the node puts other nodes in the place of those that were there. -/
theorem preorder_modify (ht : OnlyAt h f t) (g : Forest Node → Forest Node) :
    ((f.modify (hasHandle h) fun n kids => (n, g kids)).preorder ++ t.2.preorder).Perm
      (f.preorder ++ (g t.2).preorder) := by
  rw [List.perm_iff_count]
  intro k
  induction ht with
  | here named _ notBeside =>
    rw [modify, if_pos (hasHandle_iff.2 named), modify_of_not_mem notBeside]
    simp only [preorder, List.count_append, List.count_cons]
    omega
  | inside other _ notBeside ih =>
    rw [modify, if_neg (fun hn => other (hasHandle_iff.1 hn)), modify_of_not_mem notBeside]
    simp only [preorder, List.count_append, List.count_cons] at ih ⊢
    omega
  | outside other notBelow _ ih =>
    rw [modify, if_neg (fun hn => other (hasHandle_iff.1 hn)), modify_of_not_mem notBelow]
    simp only [preorder, List.count_append, List.count_cons] at ih ⊢
    omega

theorem handles_modify (ht : OnlyAt h f t) (g : Forest Node → Forest Node) :
    ((f.modify (hasHandle h) fun n kids => (n, g kids)).handles ++ t.2.handles).Perm
      (f.handles ++ (g t.2).handles) := by
  have hnodes := (ht.preorder_modify g).map Node.handle
  rwa [List.map_append, List.map_append] at hnodes

theorem mem (ht : OnlyAt h f t) : h ∈ f.handles :=
  ht.handles_erase.mem_iff.1 (List.mem_append_right _ List.mem_cons_self)

theorem mem_of_below (ht : OnlyAt h f t) {k : Nat} (hk : k ∈ t.2.handles) : k ∈ f.handles :=
  ht.handles_erase.mem_iff.1 (List.mem_append_right _ (List.mem_cons_of_mem _ hk))

/-- The tree of a handle below the node is its tree in the forest. -/
theorem trans (hnodup : f.handles.Nodup) (ht : OnlyAt h f t) {k : Nat} {u : NodeTree}
    (hu : OnlyAt k t.2 u) : OnlyAt k f u := by
  induction ht with
  | here =>
    rw [handles_cons] at hnodup
    obtain ⟨hn, hrest⟩ := List.nodup_cons.1 hnodup
    have hapart := (List.nodup_append.1 hrest).2.2
    exact .inside (fun heq => hn (heq ▸ List.mem_append_left _ hu.mem)) hu
      fun hin => hapart k hu.mem k hin rfl
  | inside _ rest _ ih =>
    rw [handles_cons] at hnodup
    obtain ⟨hn, hrest⟩ := List.nodup_cons.1 hnodup
    obtain ⟨hbelow, -, hapart⟩ := List.nodup_append.1 hrest
    have hmem := rest.mem_of_below hu.mem
    exact .inside (fun heq => hn (heq ▸ List.mem_append_left _ hmem)) (ih hbelow hu)
      fun hin => hapart k hmem k hin rfl
  | outside _ _ rest ih =>
    rw [handles_cons] at hnodup
    obtain ⟨hn, hrest⟩ := List.nodup_cons.1 hnodup
    obtain ⟨-, hbeside, hapart⟩ := List.nodup_append.1 hrest
    have hmem := rest.mem_of_below hu.mem
    exact .outside (fun heq => hn (heq ▸ List.mem_append_right _ hmem))
      (fun hin => hapart k hin k hmem rfl) (ih hbeside hu)

end OnlyAt

/-- Where handles are distinct every node is the root of the tree of its handle. -/
theorem onlyAt_of_mem_preorder {f : Forest Node} (hnodup : f.handles.Nodup) {n : Node}
    (hn : n ∈ f.preorder) : ∃ below, OnlyAt n.handle f (n, below) := by
  obtain ⟨t, ht⟩ := onlyAt_of_mem hnodup (List.mem_map_of_mem hn)
  have hmem : t.1 ∈ f.preorder :=
    ht.preorder_erase.mem_iff.1 (List.mem_append_right _ List.mem_cons_self)
  obtain rfl : t.1 = n := List.inj_on_of_nodup_map hnodup hmem hn ht.handle
  exact ⟨t.2, ht⟩

/-! ## Contents and children -/

/-- Every node of the forest is what is said of its handle, and has the children that are said to be
below it. -/
def Shows (content? : Nat → Option Content) (kids : Nat → List Nat) : Forest Node → Prop
  | .nil => True
  | .cons n below beside =>
    content? n.handle = some n.content ∧ kids n.handle = below.rootHandles ∧
      below.Shows content? kids ∧ beside.Shows content? kids

namespace Shows

variable {content? content?' : Nat → Option Content} {kids kids' : Nat → List Nat}
  {f g : Forest Node} {h : Nat}

/-- Only the handles of the forest matter. -/
theorem congr (hf : f.Shows content? kids) (hcontent : ∀ k ∈ f.handles, content?' k = content? k)
    (hkids : ∀ k ∈ f.handles, kids' k = kids k) : f.Shows content?' kids' := by
  induction f with
  | nil => trivial
  | cons n below beside ihb ihs =>
    obtain ⟨hn, hlevel, hb, hs⟩ := hf
    rw [handles_cons] at hcontent hkids
    obtain ⟨hcn, hcontent⟩ := List.forall_mem_cons.1 hcontent
    obtain ⟨hkn, hkids⟩ := List.forall_mem_cons.1 hkids
    rw [List.forall_mem_append] at hcontent hkids
    exact ⟨hcn.trans hn, hkn.trans hlevel, ihb hb hcontent.1 hkids.1, ihs hs hcontent.2 hkids.2⟩

theorem append (hf : f.Shows content? kids) (hg : g.Shows content? kids) :
    (f ++ g).Shows content? kids := by
  induction f with
  | nil => exact hg
  | cons n below beside _ ih => exact ⟨hf.1, hf.2.1, hf.2.2.1, ih hf.2.2.2⟩

theorem filterRoots (hf : f.Shows content? kids) (p : Node → Bool) :
    (f.filterRoots p).Shows content? kids := by
  induction f with
  | nil => trivial
  | cons n below beside _ ih =>
    obtain ⟨hn, hlevel, hb, hs⟩ := hf
    rw [Forest.filterRoots]
    split
    · exact ⟨hn, hlevel, hb, ih hs⟩
    · exact ih hs

theorem content_of_mem_roots (hf : f.Shows content? kids) {n : Node} (hn : n ∈ f.roots) :
    content? n.handle = some n.content := by
  induction f with
  | nil => exact absurd hn List.not_mem_nil
  | cons m below beside _ ih =>
    obtain ⟨hm, -, -, hs⟩ := hf
    rcases List.mem_cons.1 hn with rfl | hn
    · exact hm
    · exact ih hs hn

theorem tree (hf : f.Shows content? kids) {t : NodeTree} (ht : OnlyAt h f t) :
    content? h = some t.1.content ∧ kids h = t.2.rootHandles ∧ t.2.Shows content? kids := by
  induction ht with
  | here named => exact named ▸ ⟨hf.1, hf.2.1, hf.2.2.1⟩
  | inside _ _ _ ih => exact ih hf.2.2.1
  | outside _ _ _ ih => exact ih hf.2.2.2

/-- Taking a tree out takes its handle from the lists of children. -/
theorem erase (hf : f.Shows content? kids) (hnodup : ∀ k, (kids k).Nodup) (h : Nat) :
    (f.erase (hasHandle h)).Shows content? fun k => (kids k).erase h := by
  induction f with
  | nil => trivial
  | cons n below beside ihb ihs =>
    obtain ⟨hn, hlevel, hb, hs⟩ := hf
    rw [Forest.erase]
    split
    · exact ihs hs
    · have hbelow : below.rootHandles.Nodup := hlevel ▸ hnodup n.handle
      refine ⟨hn, ?_, ihb hb, ihs hs⟩
      rw [rootHandles_erase hbelow, ← hlevel]

/-- The children of a node elsewhere do not matter. -/
theorem update (hf : f.Shows content? kids) (hh : h ∉ f.handles) (level : List Nat) :
    f.Shows content? (Function.update kids h level) :=
  hf.congr (fun _ _ => rfl) fun _ hk => Function.update_of_ne (ne_of_mem_of_not_mem hk hh) _ _

/-- A change of one node and of what is below it changes its content and the list of its children,
and nothing that is said of any other. -/
theorem replace (hf : f.Shows content? kids) {t : NodeTree} (ht : OnlyAt h f t)
    {m : Node → Forest Node → NodeTree} (hhandle : ∀ n kids, (m n kids).1.handle = n.handle)
    (hm : (m t.1 t.2).2.Shows content? kids) (haway : h ∉ (m t.1 t.2).2.handles) :
    (f.modify (hasHandle h) m).Shows
      (Function.update content? h (some (m t.1 t.2).1.content))
      (Function.update kids h (m t.1 t.2).2.rootHandles) := by
  have helsewhere : ∀ {u : NodeTree} {g : Forest Node}, g.Shows content? kids → h ∉ g.handles →
      g.Shows (Function.update content? h (some u.1.content))
        (Function.update kids h u.2.rootHandles) := fun hg hh =>
    hg.congr (fun _ hk => Function.update_of_ne (ne_of_mem_of_not_mem hk hh) _ _)
      fun _ hk => Function.update_of_ne (ne_of_mem_of_not_mem hk hh) _ _
  induction ht with
  | here named _ notBeside =>
    rw [Forest.modify, if_pos (hasHandle_iff.2 named), modify_of_not_mem notBeside]
    refine ⟨?_, ?_, helsewhere hm haway, helsewhere hf.2.2.2 notBeside⟩
    · rw [hhandle, named, Function.update_self]
    · rw [hhandle, named, Function.update_self]
  | inside other _ notBeside ih =>
    obtain ⟨hn, hlevel, hb, hs⟩ := hf
    rw [Forest.modify, if_neg (fun hn => other (hasHandle_iff.1 hn)), modify_of_not_mem notBeside]
    refine ⟨?_, ?_, ih hb hm haway, helsewhere hs notBeside⟩
    · rw [Function.update_of_ne other, hn]
    · rw [rootHandles_modify hhandle, Function.update_of_ne other, hlevel]
  | outside other notBelow _ ih =>
    obtain ⟨hn, hlevel, hb, hs⟩ := hf
    rw [Forest.modify, if_neg (fun hn => other (hasHandle_iff.1 hn)), modify_of_not_mem notBelow]
    refine ⟨?_, ?_, helsewhere hb notBelow, ih hs hm haway⟩
    · rw [Function.update_of_ne other, hn]
    · rw [Function.update_of_ne other, hlevel]

/-- A change of what is below one node changes the list of its children and no other. -/
theorem modify (hf : f.Shows content? kids) {t : NodeTree} (ht : OnlyAt h f t)
    {g : Forest Node → Forest Node} (hg : (g t.2).Shows content? kids)
    (haway : h ∉ (g t.2).handles) :
    (f.modify (hasHandle h) fun n below => (n, g below)).Shows content?
      (Function.update kids h (g t.2).rootHandles) := by
  have hshows := hf.replace ht (m := fun n below => (n, g below)) (fun _ _ => rfl) hg haway
  rwa [Function.update_eq_self_iff.2 (hf.tree ht).1.symm] at hshows

/-- A change of what one node is leaves the lists of children. -/
theorem relabel (hf : f.Shows content? kids) {t : NodeTree} (ht : OnlyAt h f t)
    (g : Content → Content) :
    (f.modify (hasHandle h) fun n below => ({ n with content := g n.content }, below)).Shows
      (Function.update content? h (some (g t.1.content))) kids := by
  obtain ⟨-, hlevel, hshows⟩ := hf.tree ht
  have hreplaced := hf.replace ht (m := fun n below => ({ n with content := g n.content }, below))
    (fun _ _ => rfl) hshows ht.not_mem
  rwa [← hlevel, Function.update_eq_self] at hreplaced

/-- The level of a node is the list of children of the node above it. -/
theorem family?_eq_some (hf : f.Shows content? kids) {n : Node} {level : List Node}
    (hfamily : f.family? (hasHandle h) = some (n, level)) :
    h ∈ kids n.handle ∧ level.map Node.handle = kids n.handle := by
  induction f with
  | nil => cases hfamily
  | cons m below beside ihb ihs =>
    obtain ⟨-, hlevel, hb, hs⟩ := hf
    unfold family? at hfamily
    split at hfamily
    next hany =>
      obtain ⟨rfl, rfl⟩ := Prod.mk.inj (Option.some.inj hfamily)
      obtain ⟨k, hk, hsame⟩ := List.any_eq_true.1 hany
      rw [hlevel]
      exact ⟨hasHandle_iff.1 hsame ▸ List.mem_map_of_mem hk, rfl⟩
    next =>
      rcases Option.or_eq_some_iff.1 hfamily with hfamily | ⟨-, hfamily⟩
      · exact ihb hb hfamily
      · exact ihs hs hfamily

theorem family?_eq_none (hf : f.Shows content? kids) (hfamily : f.family? (hasHandle h) = none) :
    ∀ k ∈ f.handles, h ∉ kids k := by
  induction f with
  | nil => exact fun k hk => absurd hk List.not_mem_nil
  | cons n below beside ihb ihs =>
    obtain ⟨-, hlevel, hb, hs⟩ := hf
    unfold family? at hfamily
    split at hfamily
    next => cases hfamily
    next hany =>
      rw [Option.or_eq_none_iff] at hfamily
      rw [handles_cons, List.forall_mem_cons, List.forall_mem_append]
      refine ⟨fun hmem => hany ?_, ihb hb hfamily.1, ihs hs hfamily.2⟩
      rw [hlevel] at hmem
      obtain ⟨m, hm, hsame⟩ := List.mem_map.1 hmem
      exact List.any_eq_true.2 ⟨m, hm, hasHandle_iff.2 hsame⟩

end Shows

end Forest

end MarkupFields
