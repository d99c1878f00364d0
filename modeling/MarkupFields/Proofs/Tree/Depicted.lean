import MarkupFields.Proofs.Tree.Changed

/-
  The forest of a document and the links of an arena tell the same. `Document.Depicts` says so:
  every handle stands once in the forest, with the content and the children that it has in the
  arena. A document depicts the arena of the same markup (`depicts_ofMarkup`), and legal changes
  keep that up, one by one (`Depicts.apply`) and in a row (`Depicts.applyAll`). So what a document
  reads off its forest about the place of a node is what the arena has links for
  (`Depicts.children`, `Depicts.parent?`, `Depicts.next?`, `Depicts.previous?`).
-/

namespace MarkupFields

open Document (hasHandle)

/-- The forest holds every node of the arena once, with its content and its children. -/
structure Document.Depicts (d : Document) (a : Arena) (kids : Nat → List Nat) : Prop where
  linked : a.Linked kids
  declaration : d.declaration = a.declaration
  allocated : d.allocated = a.size
  handles : d.forest.handles.Perm (List.range a.size)
  nodes : d.forest.Shows a.content? kids

namespace Document.Depicts

variable {d : Document} {a : Arena} {kids : Nat → List Nat}

theorem nodup (hd : d.Depicts a kids) : d.forest.handles.Nodup :=
  hd.handles.nodup_iff.2 List.nodup_range

theorem mem_iff (hd : d.Depicts a kids) {h : Nat} : h ∈ d.forest.handles ↔ h < a.size := by
  rw [hd.handles.mem_iff, List.mem_range]

/-- The tree of a handle, as the document finds it. -/
theorem exists_tree (hd : d.Depicts a kids) {h : Nat} (hh : h < a.size) :
    ∃ t, d.forest.OnlyAt h t ∧ d.node? h = some t := by
  obtain ⟨t, ht⟩ := Forest.onlyAt_of_mem hd.nodup (hd.mem_iff.2 hh)
  exact ⟨t, ht, ht.find?⟩

/-- Every node of a forest is a root or stands below one. -/
theorem above_of_mem {f : Forest Node} (hk : a.Linked kids) (hf : f.Shows a.content? kids) {k : Nat}
    (hmem : k ∈ f.handles) : ∃ h ∈ f.rootHandles, Relation.ReflTransGen a.IsParent h k := by
  induction f with
  | nil => exact absurd hmem List.not_mem_nil
  | cons n below beside ihb ihs =>
    obtain ⟨-, hlevel, hb, hs⟩ := hf
    rw [Forest.handles_cons, List.mem_cons, List.mem_append] at hmem
    rw [Forest.rootHandles_cons]
    rcases hmem with rfl | hmem | hmem
    · exact ⟨_, List.mem_cons_self, .refl⟩
    · obtain ⟨h, hh, habove⟩ := ihb hb hmem
      rw [← hlevel, ← hk.parent] at hh
      exact ⟨_, List.mem_cons_self, .head hh habove⟩
    · obtain ⟨h, hh, habove⟩ := ihs hs hmem
      exact ⟨h, List.mem_cons_of_mem _ hh, habove⟩

/-- What stands below a node in the forest is below it in the arena. -/
theorem above_of_mem_tree (hd : d.Depicts a kids) {h k : Nat} {t : NodeTree}
    (ht : d.forest.OnlyAt h t) (hmem : k ∈ t.2.handles) : Relation.ReflTransGen a.IsParent h k := by
  obtain ⟨-, hlevel, hbelow⟩ := hd.nodes.tree ht
  obtain ⟨x, hx, habove⟩ := above_of_mem hd.linked hbelow hmem
  rw [← hlevel, ← hd.linked.parent] at hx
  exact .head hx habove

/-! ## Changes -/

/-- A document with another forest of the same nodes, and an arena with other links between them. -/
theorem relinked (hd : d.Depicts a kids) {a' : Arena} {kids' : Nat → List Nat}
    (hlinked : a'.Linked kids') (hcontents : a'.contents = a.contents)
    (hdeclaration : a'.declaration = a.declaration) {f : Forest Node}
    (hhandles : f.handles.Perm d.forest.handles) (hnodes : f.Shows a.content? kids') :
    Document.Depicts { d with forest := f } a' kids' where
  linked := hlinked
  declaration := hd.declaration.trans hdeclaration.symm
  allocated := hd.allocated.trans (Arena.size_eq_of_contents hcontents).symm
  handles := by
    rw [Arena.size_eq_of_contents hcontents]
    exact hhandles.trans hd.handles
  nodes := by
    refine hnodes.congr (fun k _ => ?_) fun _ _ => rfl
    rw [Arena.content?_eq, hcontents, Arena.content?_eq]

theorem create (hd : d.Depicts a kids) (c : Content) :
    (d.create c).1.Depicts (a.create c).1 kids ∧ (d.create c).2 = (a.create c).2 := by
  have hold : ∀ k ∈ d.forest.handles, (a.create c).1.content? k = a.content? k :=
    fun k hk => Arena.content?_of_contents (Arena.contents_create a c) (hd.mem_iff.1 hk)
  have hnew : (a.create c).1.content? a.size = some c := by
    rw [Arena.content?_eq, Arena.contents_create, ← Arena.length_contents,
      List.getElem?_concat_length]
  refine ⟨⟨hd.linked.create c, hd.declaration, ?_, ?_, ?_⟩, hd.allocated⟩
  · rw [Arena.size_create, ← hd.allocated]
    rfl
  · rw [Arena.size_create, List.range_succ, ← hd.allocated]
    show (d.forest ++ Forest.leaf (⟨d.allocated, c⟩ : Node)).handles.Perm _
    rw [Forest.handles_append, hd.allocated]
    exact hd.handles.append_right _
  · have hleaf : (Forest.leaf (⟨a.size, c⟩ : Node)).Shows (a.create c).1.content? kids :=
      ⟨hnew, hd.linked.eq_nil_of_size_le (Nat.le_refl _), trivial, trivial⟩
    show (d.forest ++ Forest.leaf (⟨d.allocated, c⟩ : Node)).Shows _ _
    rw [hd.allocated]
    exact (hd.nodes.congr hold fun _ _ => rfl).append hleaf

/-- Taking out a node that hangs nowhere changes no list of children, and leaves the nodes that are
not below it. -/
theorem without (hd : d.Depicts a kids) {p c : Nat} (hp : p < a.size) {t : NodeTree}
    (ht : d.forest.OnlyAt c t) (hfree : a.link .parent c = none) (hcp : p ≠ c)
    (hbelow : p ∉ t.2.handles) :
    (d.forest.erase (hasHandle c)).Shows a.content? kids ∧
      ∃ u, (d.forest.erase (hasHandle c)).OnlyAt p u := by
  have hperm := ht.handles_erase
  refine ⟨(hd.nodes.erase hd.linked.nodup c).congr (fun _ _ => rfl) fun k _ =>
      (List.erase_of_not_mem (hd.linked.not_mem_of_loose hfree k)).symm, ?_⟩
  have hnodup : (d.forest.erase (hasHandle c)).handles.Nodup :=
    (List.nodup_append.1 (hperm.nodup_iff.2 hd.nodup)).1
  have hin := hperm.mem_iff.2 (hd.mem_iff.2 hp)
  rw [List.mem_append, List.mem_cons] at hin
  exact Forest.onlyAt_of_mem hnodup (hin.resolve_right (not_or.2 ⟨hcp, hbelow⟩))

theorem appendChild (hd : d.Depicts a kids) {p c : Nat} (hp : p < a.size) (hc : c < a.size)
    (hfree : a.link .parent c = none) (habove : ¬ Relation.ReflTransGen a.IsParent c p) :
    (d.appendChild p c).Depicts (a.appendChild p c)
      (Function.update kids p (kids p ++ [c])) := by
  obtain ⟨t, ht, hfind⟩ := hd.exists_tree hc
  have hcp : p ≠ c := fun heq => habove (heq ▸ .refl)
  have hbelow : p ∉ t.2.handles := fun hmem => habove (hd.above_of_mem_tree ht hmem)
  obtain ⟨hothers, u, hu⟩ := hd.without hp ht hfree hcp hbelow
  obtain ⟨hcontent, hlevel, hshows⟩ := hd.nodes.tree ht
  obtain ⟨-, hlevelP, hshowsP⟩ := hothers.tree hu
  have hchild : (Forest.cons t.1 t.2 .nil).Shows a.content? kids :=
    ⟨ht.handle ▸ hcontent, ht.handle ▸ hlevel, hshows, trivial⟩
  have hdocument : d.appendChild p c = { d with
      forest := (d.forest.erase (hasHandle c)).modify (hasHandle p) fun n below =>
        (n, below ++ .cons t.1 t.2 .nil) } := by
    unfold Document.appendChild
    rw [hfind]
    dsimp only
    rw [hu.find?]
  rw [hdocument]
  refine hd.relinked (hd.linked.appendChild hp hc hfree habove) (Arena.contents_appendChild a p c)
    (Arena.declaration_appendChild a p c) ?_ ?_
  · have herase := ht.handles_erase
    have hmodify := hu.handles_modify fun below => below ++ .cons t.1 t.2 .nil
    rw [List.perm_iff_count] at herase hmodify ⊢
    intro k
    have hk := herase k
    have hk' := hmodify k
    simp only [Forest.handles_append, Forest.handles_cons, Forest.handles_nil, List.count_append,
      List.count_cons, List.count_nil, ht.handle] at hk hk' ⊢
    omega
  · have haway : p ∉ (u.2 ++ Forest.cons t.1 t.2 .nil).handles := by
      simp [ht.handle, hu.not_mem, hcp, hbelow]
    have hroots : (u.2 ++ Forest.cons t.1 t.2 .nil).rootHandles = kids p ++ [c] := by
      rw [Forest.rootHandles_append, hlevelP, Forest.rootHandles_cons, ht.handle]
      rfl
    have hmodified := hothers.modify hu (g := fun below => below ++ .cons t.1 t.2 .nil)
      (hshowsP.append hchild) haway
    rwa [hroots] at hmodified

/-- A new node is appended last. -/
theorem appendNew (hd : d.Depicts a kids) (c : Content) {p : Nat} (hp : p < a.size) :
    ((d.create c).1.appendChild p (d.create c).2).Depicts ((a.create c).1.appendChild p a.size)
      (Function.update kids p (kids p ++ [a.size])) := by
  obtain ⟨hd', hhandle⟩ := hd.create c
  rw [hhandle]
  refine hd'.appendChild ?_ ?_ ?_ (hd.linked.not_above_new c hp)
  · rw [Arena.size_create]
    exact Nat.lt_succ_of_lt hp
  · rw [Arena.size_create]
    exact Nat.lt_succ_self _
  · rw [Arena.link_create]
    exact Arena.link_eq_none (Nat.le_refl _) .parent

theorem detach (hd : d.Depicts a kids) {h : Nat} (hh : h < a.size) :
    (d.detach h).Depicts (a.detach h) fun k => (kids k).erase h := by
  obtain ⟨t, ht, hfind⟩ := hd.exists_tree hh
  obtain ⟨hcontent, hlevel, hshows⟩ := hd.nodes.tree ht
  have hdocument : d.detach h =
      { d with forest := d.forest.erase (hasHandle h) ++ .cons t.1 t.2 .nil } := by
    unfold Document.detach
    rw [hfind]
  rw [hdocument]
  -- what is below the node does not hold it
  have hbelow := hshows.erase hd.linked.nodup h
  rw [Forest.erase_of_not_mem ht.not_mem] at hbelow
  have hroots : (kids h).erase h = t.2.rootHandles := by
    rw [hlevel]
    exact List.erase_of_not_mem fun hmem => ht.not_mem (Forest.mem_handles_of_mem_rootHandles hmem)
  refine hd.relinked (hd.linked.detach h) (Arena.contents_detach a h)
    (Arena.declaration_detach a h) ?_ ?_
  · rw [Forest.handles_append, Forest.handles_cons, Forest.handles_nil, List.append_nil, ht.handle]
    exact ht.handles_erase
  · have htree : (Forest.cons t.1 t.2 .nil).Shows a.content? fun k => (kids k).erase h :=
      ⟨ht.handle ▸ hcontent, ht.handle ▸ hroots, hbelow, trivial⟩
    exact (hd.nodes.erase hd.linked.nodup h).append htree

/-- The text and CDATA children of a node, taken from their place one by one or all at once. -/
theorem clear (hd : d.Depicts a kids) {h : Nat} (hh : h < a.size) :
    Document.Depicts { d with
        forest := (d.forest.modify (hasHandle h) fun n below =>
            (n, below.filterRoots fun k => !k.content.isCharacterData)) ++
          (d.below h).filterRoots fun k => k.content.isCharacterData }
      (((kids h).filter a.isCharacterData).foldl Arena.detach a)
      (Function.update kids h ((kids h).filter fun k => !a.isCharacterData k)) := by
  obtain ⟨t, ht, hfind⟩ := hd.exists_tree hh
  obtain ⟨hcontent, hlevel, hshows⟩ := hd.nodes.tree ht
  have hbelow : d.below h = t.2 := by
    unfold Document.below
    rw [hfind]
  rw [hbelow]
  have hlinked := hd.linked.foldl_detach ((kids h).filter a.isCharacterData)
  rw [hd.linked.filter_children] at hlinked
  refine hd.relinked hlinked (Arena.contents_foldl_detach a _)
    (Arena.declaration_foldl_detach a _) ?_ ?_
  · have hmodify := ht.handles_modify fun below =>
      below.filterRoots fun k => !k.content.isCharacterData
    have hfilter := t.2.handles_filterRoots fun k => k.content.isCharacterData
    rw [List.perm_iff_count] at hmodify hfilter ⊢
    intro k
    have hk := hmodify k
    have hk' := hfilter k
    simp only [Forest.handles_append, List.count_append] at hk hk' ⊢
    omega
  · have hroots : (t.2.filterRoots fun k => !k.content.isCharacterData).rootHandles =
        (kids h).filter fun k => !a.isCharacterData k := by
      rw [hlevel]
      refine Forest.rootHandles_filterRoots fun n hn => ?_
      unfold Arena.isCharacterData
      rw [hshows.content_of_mem_roots hn]
      rfl
    have hmodified := hd.nodes.modify ht
      (g := fun below => below.filterRoots fun k => !k.content.isCharacterData)
      (hshows.filterRoots _) (Forest.not_mem_filterRoots ht.not_mem _)
    rw [hroots] at hmodified
    have hstale := (hshows.filterRoots fun k => k.content.isCharacterData).update
      (Forest.not_mem_filterRoots ht.not_mem _) ((kids h).filter fun k => !a.isCharacterData k)
    exact hmodified.append hstale

/-- A legal change does the same to the document and to the arena, and gives the same handle. -/
theorem apply (hd : d.Depicts a kids) {x : Change} (hx : x.Legal a) :
    ∃ a', a.apply x = some (a', (d.apply x).2) ∧ (d.apply x).1.Depicts a' (x.lists a kids) := by
  cases x with
  | create c =>
    obtain ⟨hd', hhandle⟩ := hd.create c
    exact ⟨_, congrArg (fun h => some ((a.create c).1, some h)) hhandle.symm, hd'⟩
  | appendElement p name uri =>
    exact ⟨_, congrArg (fun h => some ((a.appendElement p name uri).1, some h)) hd.allocated.symm,
      hd.appendNew _ hx⟩
  | appendChild p c =>
    obtain ⟨hp, hc, hfree, habove⟩ := hx
    exact ⟨_, rfl, hd.appendChild hp hc hfree habove⟩
  | detach h => exact ⟨_, rfl, hd.detach hx⟩
  | setText h text =>
    have hclear := hd.clear hx
    have hcontents := Arena.contents_foldl_detach a ((kids h).filter a.isCharacterData)
    have hsize := Arena.size_eq_of_contents hcontents
    unfold Arena.apply Arena.setText Change.lists Document.apply Document.setText
    dsimp only
    rw [hd.linked.children, funext a.isNotText_eq]
    by_cases htext : text = ""
    · simp only [htext, ↓reduceIte, List.append_nil]
      exact ⟨_, rfl, hclear⟩
    · simp only [htext, ↓reduceIte]
      have hnew := hclear.appendNew (.text text) (p := h) (by rw [hsize]; exact hx)
      rw [Function.update_self, Function.update_idem, hsize] at hnew
      refine ⟨_, ?_, hnew⟩
      refine congrArg some (Prod.ext ?_ ?_)
      · exact congrArg (Arena.appendChild _ h) hsize
      · exact congrArg some (hsize.trans hd.allocated.symm)

/-! ## Where a node stands -/

theorem content? (hd : d.Depicts a kids) {h : Nat} (hh : h < a.size) :
    d.content? h = a.content? h := by
  obtain ⟨t, ht, hfind⟩ := hd.exists_tree hh
  rw [(hd.nodes.tree ht).1]
  unfold Document.content?
  rw [hfind]
  rfl

theorem children (hd : d.Depicts a kids) {h : Nat} (hh : h < a.size) :
    a.children h = some (d.children h) := by
  obtain ⟨t, ht, hfind⟩ := hd.exists_tree hh
  rw [hd.linked.children, (hd.nodes.tree ht).2.1]
  unfold Document.children Document.below
  rw [hfind]
  rfl

/-- The document finds the level of a node below the parent that it has in the arena. -/
theorem family (hd : d.Depicts a kids) (h : Nat) :
    d.parent? h = a.link .parent h ∧ d.siblings h = ((a.link .parent h).map kids).getD [] := by
  unfold Document.parent? Document.siblings
  cases hfamily : d.forest.family? (hasHandle h) with
  | none =>
    have hnone : a.link .parent h = none := by
      cases hparent : a.link .parent h with
      | none => rfl
      | some p =>
        have hmem := (hd.linked.parent h p).1 hparent
        exact absurd hmem
          (hd.nodes.family?_eq_none hfamily p (hd.mem_iff.2 (hd.linked.parent_lt hmem)))
    rw [hnone]
    exact ⟨rfl, rfl⟩
  | some found =>
    obtain ⟨n, level⟩ := found
    obtain ⟨hmem, hlevel⟩ := hd.nodes.family?_eq_some hfamily
    rw [(hd.linked.parent h n.handle).2 hmem]
    exact ⟨rfl, hlevel⟩

theorem parent? (hd : d.Depicts a kids) (h : Nat) : d.parent? h = a.link .parent h :=
  (hd.family h).1

/-- The siblings around a node, and the links to them; a node that hangs nowhere has neither. -/
theorem siblings (hd : d.Depicts a kids) (h : Nat) :
    d.siblings h = [] ∧ a.link .next h = none ∧ a.link .previous h = none ∨
      ∃ before after, d.siblings h = before ++ h :: after ∧ h ∉ before ∧
        a.link .next h = after.head? ∧ a.link .previous h = before.getLast? := by
  rw [(hd.family h).2]
  cases hparent : a.link .parent h with
  | none => exact .inl ⟨rfl, hd.linked.loose h hparent⟩
  | some p =>
    obtain ⟨before, after, hsplit⟩ := List.append_of_mem ((hd.linked.parent h p).1 hparent)
    have hnodup := hsplit ▸ hd.linked.nodup p
    exact .inr ⟨before, after, hsplit,
      fun hmem => (List.nodup_append.1 hnodup).2.2 h hmem h List.mem_cons_self rfl,
      hd.linked.next p before h after hsplit, hd.linked.previous p before h after hsplit⟩

theorem next? (hd : d.Depicts a kids) (h : Nat) : d.next? h = a.link .next h := by
  unfold Document.next?
  obtain ⟨hnone, hnext, -⟩ | ⟨before, after, hsplit, hnew, hnext, -⟩ := hd.siblings h
  · rw [hnone, hnext]
    rfl
  · have hbefore : ∀ k ∈ before, (k != h) = true :=
      fun k hk => bne_iff_ne.2 (ne_of_mem_of_not_mem hk hnew)
    rw [hsplit, hnext, List.dropWhile_append_of_pos hbefore, List.dropWhile_cons_of_neg (by simp)]
    rfl

theorem previous? (hd : d.Depicts a kids) (h : Nat) : d.previous? h = a.link .previous h := by
  unfold Document.previous?
  obtain ⟨hnone, -, hprevious⟩ | ⟨before, after, hsplit, hnew, -, hprevious⟩ := hd.siblings h
  · rw [hnone, hprevious]
    rfl
  · have hbefore : ∀ k ∈ before, (k != h) = true :=
      fun k hk => bne_iff_ne.2 (ne_of_mem_of_not_mem hk hnew)
    rw [hsplit, hprevious, List.takeWhile_append_of_pos hbefore,
      List.takeWhile_cons_of_neg (by simp), List.append_nil]

end Document.Depicts

/-! ## Runs -/

/-- The document of a piece of markup depicts its arena. -/
theorem Document.depicts_ofMarkup (m : Markup) :
    ∃ kids, (Document.ofMarkup m).Depicts (Arena.ofMarkup m) kids := by
  obtain ⟨kids, hk, hcontents, hdeclaration, hself, -, hshows⟩ :=
    (Arena.linked_empty m.declaration).graft (p := Document.root) Nat.zero_lt_one rfl m.top
  have hsize : (Arena.ofMarkup m).size = 1 + m.top.size := by
    rw [← Arena.length_contents]
    show ((Arena.graft { Arena.empty with declaration := m.declaration } Document.root
      m.top).contents).length = _
    rw [hcontents, List.length_append, Forest.length_preorder]
    rfl
  refine ⟨kids, hk, hdeclaration.symm, ?_, ?_, ?_⟩
  · rw [hsize]
    exact Document.number_snd _ _
  · rw [hsize, List.range_eq_range', Nat.add_comm, List.range'_succ]
    show (Forest.cons (⟨Document.root, .document⟩ : Node)
      (Document.number (Document.root + 1) m.top).1 .nil).handles.Perm _
    rw [Forest.handles_cons, Forest.handles_nil, List.append_nil, Forest.handles,
      Document.preorder_number]
    rfl
  · have hroot : (Arena.ofMarkup m).content? Document.root = some .document :=
      (Arena.content?_of_contents hcontents Nat.zero_lt_one).trans rfl
    exact ⟨hroot, hself, hshows, trivial⟩

/-- The changes are legal one after the other, and lead from one arena to the other. -/
inductive Arena.Changes : Arena → List Change → Arena → Prop
  | nil {a : Arena} : Changes a [] a
  | cons {a b c : Arena} {x : Change} {xs : List Change} {created : Option Nat} (legal : x.Legal a)
      (first : a.apply x = some (b, created)) (rest : Changes b xs c) : Changes a (x :: xs) c

/-- The changes made to a document one after the other. -/
def Document.applyAll (d : Document) (xs : List Change) : Document :=
  xs.foldl (fun d x => (d.apply x).1) d

/-- Legal changes lead a document and its arena to a document and its arena. -/
theorem Document.Depicts.applyAll {d : Document} {a b : Arena} {kids : Nat → List Nat}
    {xs : List Change} (hd : d.Depicts a kids) (h : a.Changes xs b) :
    ∃ kids', (d.applyAll xs).Depicts b kids' := by
  induction h generalizing d kids with
  | nil => exact ⟨kids, hd⟩
  | cons legal first _ ih =>
    obtain ⟨a', happly, hd'⟩ := hd.apply legal
    rw [first] at happly
    obtain ⟨rfl, -⟩ := Prod.mk.inj (Option.some.inj happly)
    exact ih hd'

end MarkupFields
