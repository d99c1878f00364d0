import MarkupFields.Proofs.Markup.Limits
import MarkupFields.Proofs.Tree.Depicted
import MarkupFields.Proofs.Writer.Reachable

/-
  Documents that are put together node by node. Whatever is done to a document, its document node
  stays what it is and no handle comes to be shared (`Document.Built.sound`): every change moves
  nodes, adds one with a new handle or changes attributes. So what a document says about its root
  element is what the forest below the document node says about it
  (`Document.Sound.rootElement?`).
-/

namespace MarkupFields

open Document (hasHandle)

/-- The documents that are made by changes to a new one or a parsed one. -/
inductive Document.Built : Document → Prop
  | new : Built .empty
  | parsed {o : ReadOptions} {text : String} {m : Markup} (h : Markup.parse o text = .ok m) :
      Built (.ofMarkup m)
  | change {d : Document} (before : Built d) (x : Change) : Built (d.apply x).1
  | setAttribute {d : Document} (before : Built d) (h : Nat) (a : Attribute) :
      Built (d.setAttribute h a)
  | declareNamespace {d : Document} (before : Built d) (h : Nat) (nsPrefix uri : String) :
      Built (d.declareNamespace h nsPrefix uri).1

theorem Document.Built.applyAll {d : Document} (h : d.Built) (xs : List Change) :
    (d.applyAll xs).Built := by
  induction xs generalizing d with
  | nil => exact h
  | cons x xs ih => exact ih (h.change x)

/-- The document node has its handle, no handle is shared, and none is still free. -/
structure Document.Sound (d : Document) : Prop where
  root : ⟨Document.root, .document⟩ ∈ d.forest.preorder
  nodup : d.forest.handles.Nodup
  given : ∀ k ∈ d.forest.handles, k < d.allocated

/-! ## Nodes of forests -/

namespace Forest

/-- What is found for a handle has it. -/
theorem mem_of_find? {f : Forest Node} {h : Nat} {t : NodeTree}
    (ht : f.find? (hasHandle h) = some t) : h ∈ f.handles := by
  by_contra hh
  rw [find?_of_not_mem hh] at ht
  cases ht

/-- The root of a tree on the top level is found there. -/
theorem onlyAt_append_cons {f g below : Forest Node} {n : Node}
    (hnodup : (f ++ .cons n below g).handles.Nodup) :
    OnlyAt n.handle (f ++ .cons n below g) (n, below) := by
  induction f with
  | nil =>
    rw [nil_append, handles_cons] at hnodup
    obtain ⟨hn, -⟩ := List.nodup_cons.1 hnodup
    rw [List.mem_append, not_or] at hn
    exact .here rfl hn.1 hn.2
  | cons m below' beside _ ih =>
    rw [cons_append, handles_cons] at hnodup
    obtain ⟨hm, hrest⟩ := List.nodup_cons.1 hnodup
    obtain ⟨-, hbeside, hapart⟩ := List.nodup_append.1 hrest
    have hfound := ih hbeside
    exact .outside (fun heq => hm (heq ▸ List.mem_append_right _ hfound.mem))
      (fun hin => hapart _ hin _ hfound.mem rfl) hfound

section
variable {p : Node → Bool} {m : Node → Forest Node → NodeTree}
  (hbelow : ∀ n kids, (m n kids).2 = kids)
include hbelow

/-- A change of labels that leaves handles leaves all of them. -/
theorem handles_modify_labels (hm : ∀ n kids, (m n kids).1.handle = n.handle) (f : Forest Node) :
    (f.modify p m).handles = f.handles := by
  induction f with
  | nil => rfl
  | cons n below beside ihb ihs =>
    rw [modify]
    split
    · rw [handles_cons, handles_cons, hm, hbelow, ihs]
    · rw [handles_cons, handles_cons, ihb, ihs]

/-- A node that the change leaves as it is stays. -/
theorem mem_modify_labels {n : Node} (hn : ∀ kids, (m n kids).1 = n) {f : Forest Node}
    (hmem : n ∈ f.preorder) : n ∈ (f.modify p m).preorder := by
  induction f with
  | nil => exact hmem
  | cons k below beside ihb ihs =>
    rw [preorder, List.mem_cons, List.mem_append] at hmem
    rw [modify]
    split
    · rw [preorder, List.mem_cons, List.mem_append, hbelow]
      rcases hmem with rfl | hmem | hmem
      · exact .inl (hn below).symm
      · exact .inr (.inl hmem)
      · exact .inr (.inr (ihs hmem))
    · rw [preorder, List.mem_cons, List.mem_append]
      exact hmem.imp_right (Or.imp ihb ihs)

end

end Forest

namespace Document

/-! ## What changes keep -/

theorem Valid.sound {d : Document} (h : d.Valid) : d.Sound := by
  obtain ⟨top, htop⟩ := h.tree
  refine ⟨?_, h.nodup, h.given⟩
  rw [show d.forest = .cons ⟨Document.root, .document⟩ top .nil from htop]
  exact List.mem_cons_self

namespace Sound

variable {d : Document}

/-- The tree that is found for a handle is the one that has it. -/
theorem onlyAt (hd : d.Sound) {h : Nat} {t : NodeTree} (ht : d.node? h = some t) :
    d.forest.OnlyAt h t := by
  obtain ⟨u, hu⟩ := Forest.onlyAt_of_mem hd.nodup (Forest.mem_of_find? ht)
  have hfound : d.node? h = some u := hu.find?
  rw [hfound, Option.some.injEq] at ht
  exact ht ▸ hu

/-- The same nodes in another order. -/
theorem relinked (hd : d.Sound) {f : Forest Node} (hf : f.preorder.Perm d.forest.preorder) :
    Document.Sound { d with forest := f } where
  root := hf.mem_iff.2 hd.root
  nodup := (hf.map Node.handle).nodup_iff.2 hd.nodup
  given := fun k hk => hd.given k ((hf.map Node.handle).mem_iff.1 hk)

theorem create (hd : d.Sound) (c : Content) : (d.create c).1.Sound := by
  have hforest : (d.create c).1.forest = d.forest ++ .cons ⟨d.allocated, c⟩ .nil .nil := rfl
  have hnext : (d.create c).1.allocated = d.allocated + 1 := rfl
  have hhandles : (d.create c).1.forest.handles = d.forest.handles ++ [d.allocated] := by
    rw [hforest, Forest.handles_append]
    rfl
  refine ⟨?_, ?_, fun k hk => ?_⟩
  · rw [hforest, Forest.preorder_append]
    exact List.mem_append_left _ hd.root
  · rw [hhandles, List.nodup_append]
    refine ⟨hd.nodup, by simp, fun k hk k' hk' => ?_⟩
    rw [List.mem_singleton.1 hk']
    exact Nat.ne_of_lt (hd.given k hk)
  · rw [hhandles, List.mem_append, List.mem_singleton] at hk
    rw [hnext]
    rcases hk with hk | rfl
    · exact Nat.lt_succ_of_lt (hd.given k hk)
    · exact Nat.lt_succ_self _

theorem appendChild (hd : d.Sound) (p c : Nat) : (d.appendChild p c).Sound := by
  unfold Document.appendChild
  cases hc : d.node? c with
  | none => exact hd
  | some t =>
    have ht := hd.onlyAt hc
    have hothers : (d.forest.erase (hasHandle c)).handles.Nodup :=
      (List.nodup_append.1 (ht.handles_erase.nodup_iff.2 hd.nodup)).1
    dsimp only
    cases hp : (d.forest.erase (hasHandle c)).find? (hasHandle p) with
    | none => exact hd
    | some u =>
      obtain ⟨v, hv⟩ := Forest.onlyAt_of_mem hothers (Forest.mem_of_find? hp)
      have herase := ht.preorder_erase
      have hmodify := hv.preorder_modify fun kids => kids ++ .cons t.1 t.2 .nil
      refine hd.relinked ?_
      rw [List.perm_iff_count] at herase hmodify ⊢
      intro k
      have hk := herase k
      have hk' := hmodify k
      simp only [Forest.preorder_append, Forest.preorder, List.count_append, List.count_cons,
        List.count_nil] at hk hk' ⊢
      omega

theorem detach (hd : d.Sound) (h : Nat) : (d.detach h).Sound := by
  unfold Document.detach
  cases hh : d.node? h with
  | none => exact hd
  | some t =>
    refine hd.relinked ?_
    rw [Forest.preorder_append, Forest.preorder, Forest.preorder, List.append_nil]
    exact (hd.onlyAt hh).preorder_erase

/-- Children that pass a test are taken from their place. -/
theorem clear (hd : d.Sound) (h : Nat) (p : Node → Bool) :
    Document.Sound { d with
      forest := (d.forest.modify (hasHandle h) fun n kids => (n, kids.filterRoots fun k => !p k)) ++
        (d.below h).filterRoots p } := by
  refine hd.relinked ?_
  unfold Document.below
  cases hh : d.node? h with
  | none =>
    have hmem : h ∉ d.forest.handles := by
      intro hmem
      obtain ⟨t, ht⟩ := Forest.onlyAt_of_mem hd.nodup hmem
      have hfound : d.node? h = some t := ht.find?
      rw [hfound] at hh
      cases hh
    rw [Forest.modify_of_not_mem hmem, Forest.filterRoots, Forest.append_nil]
  | some t =>
    have hmodify := (hd.onlyAt hh).preorder_modify fun kids => kids.filterRoots fun k => !p k
    have hfilter := t.2.preorder_filterRoots p
    rw [List.perm_iff_count] at hmodify hfilter ⊢
    intro k
    have hk := hmodify k
    have hk' := hfilter k
    simp only [Forest.preorder_append, List.count_append] at hk hk' ⊢
    omega

theorem setText (hd : d.Sound) (h : Nat) (text : String) : (d.setText h text).1.Sound := by
  have hcleared := hd.clear h fun n => n.content.isCharacterData
  unfold Document.setText
  dsimp only
  split
  · exact hcleared
  · exact (hcleared.create (.text text)).appendChild h _

theorem apply (hd : d.Sound) (x : Change) : (d.apply x).1.Sound := by
  cases x with
  | create c => exact hd.create c
  | appendElement p name uri => exact (hd.create _).appendChild p _
  | appendChild p c => exact hd.appendChild p c
  | detach h => exact hd.detach h
  | setText h text => exact hd.setText h text

theorem modifyAttributes (hd : d.Sound) (h : Nat) (f : List Attribute → List Attribute) :
    (d.modifyAttributes h f).Sound := by
  have hhandles : (d.modifyAttributes h f).forest.handles = d.forest.handles := by
    refine Forest.handles_modify_labels (fun n kids => ?_) (fun n kids => ?_) d.forest
    · split <;> rfl
    · split <;> rfl
  refine ⟨?_, hhandles ▸ hd.nodup, fun k hk => hd.given k (hhandles ▸ hk)⟩
  refine Forest.mem_modify_labels (fun n kids => ?_) (fun kids => rfl) hd.root
  split <;> rfl

end Sound

/-- Every document that is built is sound. -/
theorem Built.sound {d : Document} (h : d.Built) : d.Sound := by
  induction h with
  | new => exact valid_empty.sound
  | parsed _ => exact (valid_ofMarkup _).sound
  | change _ x ih => exact ih.apply x
  | setAttribute _ h a ih => exact ih.modifyAttributes h _
  | declareNamespace _ h nsPrefix uri ih =>
    unfold Document.declareNamespace
    split
    · split
      · rename_i as _
        exact ih.modifyAttributes h fun _ => as
      · exact ih
    · exact ih

/-- A change leaves the declaration as it is. -/
theorem declaration_apply (d : Document) (x : Change) :
    (d.apply x).1.declaration = d.declaration := by
  have happend : ∀ (d : Document) (p c : Nat), (d.appendChild p c).declaration = d.declaration := by
    intro d p c
    unfold Document.appendChild
    split
    · rfl
    · dsimp only
      split <;> rfl
  cases x with
  | create c => rfl
  | appendElement p name uri => exact happend _ _ _
  | appendChild p c => exact happend _ _ _
  | detach h =>
    show (d.detach h).declaration = _
    unfold Document.detach
    split <;> rfl
  | setText h text =>
    show (d.setText h text).1.declaration = _
    unfold Document.setText
    dsimp only
    split
    · rfl
    · exact happend _ _ _

/-- The version that a document that is built declares is one that was read, if there is one. -/
theorem Built.version {d : Document} (h : d.Built) :
    ∀ v ∈ d.declaration.version, Scan.isVersion v.toList = true := by
  induction h with
  | new => exact fun v hv => absurd hv (Option.not_mem_none v)
  | parsed h => exact (Markup.legal_of_read h).version
  | change _ x ih => rwa [declaration_apply]
  | setAttribute _ h a ih => exact ih
  | declareNamespace _ h nsPrefix uri ih =>
    unfold Document.declareNamespace
    split
    · split
      · exact ih
      · exact ih
    · exact ih

/-! ## The root element -/

namespace Sound

variable {d : Document}

/-- The document node is found with the top level below it. -/
theorem node?_root (hd : d.Sound) :
    ∃ top, d.node? Document.root = some (⟨Document.root, .document⟩, top) ∧
      d.forest.OnlyAt Document.root (⟨Document.root, .document⟩, top) ∧ top.handles.Nodup := by
  obtain ⟨top, ht⟩ := Forest.onlyAt_of_mem_preorder hd.nodup hd.root
  exact ⟨top, ht.find?, ht, (List.nodup_cons.1 (ht.nodup hd.nodup)).2⟩

/-- The first element on the top level is the root element, and its text is the text below it. -/
theorem rootElement? (hd : d.Sound) {before below behind : Forest Content} {e : Element}
    (htop : d.markup.top = before ++ .cons (.element e) below behind)
    (hbefore : ∀ c ∈ before.roots, c.isElement = false) :
    ∃ r, d.rootElement? = some r ∧ d.textContent r = below.textContent := by
  obtain ⟨top, hroot, honly, hnodup⟩ := hd.node?_root
  have hbelow : d.below Document.root = top := by
    unfold Document.below
    rw [hroot]
  have hmap : top.map Node.content = before ++ .cons (.element e) below behind := by
    rw [← htop, ← hbelow]
    rfl
  obtain ⟨f, g, rfl, hf, hg⟩ := Forest.map_eq_append hmap
  cases g with
  | nil => cases hg
  | cons n kids beside =>
    obtain ⟨hn, hkids, -⟩ := Forest.cons.inj hg
    have hfound : d.node? n.handle = some (n, kids) :=
      (honly.trans hd.nodup (Forest.onlyAt_append_cons hnodup)).find?
    refine ⟨n.handle, ?_, ?_⟩
    · have hnone : f.roots.filter (fun k => k.content.isElement) = [] := by
        refine List.filter_eq_nil_iff.2 fun k hk => ?_
        rw [hbefore k.content]
        · exact Bool.false_ne_true
        · rw [← hf, Forest.roots_map]
          exact List.mem_map_of_mem hk
      unfold Document.rootElement? Document.elementChildren
      rw [hbelow, Forest.roots_append, List.filter_append, hnone, Forest.roots, List.nil_append,
        List.filter_cons_of_pos (by rw [hn]; rfl)]
      rfl
    · unfold Document.textContent
      rw [hfound]
      dsimp only
      rw [hn, hkids]
      exact String.empty_append

end Sound

end Document

end MarkupFields
