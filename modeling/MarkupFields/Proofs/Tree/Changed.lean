import MarkupFields.Proofs.Tree.Linked
import MarkupFields.Proofs.Tree.Placed
import Mathlib.Data.List.Basic

/-
  What the changes of an arena do to the lists of children, and what holds of every arena that is
  reached by them. A run starts with the bare document node or with what a parser has built, which
  is itself built by creating nodes and appending them. One step keeps `Arena.Linked`, and so does a
  run by induction (`Arena.Reached.linked`).
-/

namespace MarkupFields

namespace Arena

/-! ## Contents -/

/-- What all nodes are, in the order of creation. -/
def contents (a : Arena) : List Content :=
  a.entries.toList.map Entry.content

theorem content?_eq (a : Arena) (h : Nat) : a.content? h = a.contents[h]? := by
  unfold content? contents
  rw [List.getElem?_map, Array.getElem?_toList]

@[simp] theorem contents_setLink (a : Arena) (l : Link) (h : Nat) (target : Option Nat) :
    (a.setLink l h target).contents = a.contents := by
  refine List.ext_getElem? fun k => ?_
  rw [← content?_eq, ← content?_eq, content?_setLink]

@[simp] theorem length_contents (a : Arena) : a.contents.length = a.size := by
  unfold contents size
  rw [List.length_map, Array.length_toList]

@[simp] theorem contents_create (a : Arena) (c : Content) :
    (a.create c).1.contents = a.contents ++ [c] := by
  unfold create contents
  rw [Array.toList_push, List.map_append]
  rfl

@[simp] theorem contents_appendChild (a : Arena) (p c : Nat) :
    (a.appendChild p c).contents = a.contents := by
  unfold appendChild
  dsimp only
  split <;> simp only [contents_setLink]

@[simp] theorem contents_detach (a : Arena) (h : Nat) : (a.detach h).contents = a.contents := by
  unfold detach
  split
  · rfl
  · dsimp only
    split <;> split <;> simp only [contents_setLink]

/-- A new node that is appended. -/
theorem contents_appendNew (a : Arena) (p : Nat) (c : Content) :
    ((a.create c).1.appendChild p a.size).contents = a.contents ++ [c] := by
  rw [contents_appendChild, contents_create]

theorem size_appendNew (a : Arena) (p : Nat) (c : Content) :
    ((a.create c).1.appendChild p a.size).size = a.size + 1 := by
  rw [← length_contents, contents_appendNew, List.length_append, length_contents]
  rfl

theorem contents_foldl_detach (a : Arena) (stale : List Nat) :
    (stale.foldl Arena.detach a).contents = a.contents := by
  induction stale generalizing a with
  | nil => rfl
  | cons k stale ih => rw [List.foldl_cons, ih, contents_detach]

/-- Contents that are added leave those of the nodes that there were. -/
theorem content?_of_contents {a a' : Arena} {added : List Content}
    (h : a'.contents = a.contents ++ added) {k : Nat} (hk : k < a.size) :
    a'.content? k = a.content? k := by
  rw [content?_eq, h, content?_eq, List.getElem?_append_left]
  rwa [length_contents]

theorem size_eq_of_contents {a a' : Arena} (h : a'.contents = a.contents) : a'.size = a.size := by
  rw [← length_contents, h, length_contents]

@[simp] theorem declaration_setLink (a : Arena) (l : Link) (h : Nat) (target : Option Nat) :
    (a.setLink l h target).declaration = a.declaration := rfl

@[simp] theorem declaration_appendChild (a : Arena) (p c : Nat) :
    (a.appendChild p c).declaration = a.declaration := by
  unfold appendChild
  dsimp only
  split <;> simp only [declaration_setLink]

@[simp] theorem declaration_detach (a : Arena) (h : Nat) :
    (a.detach h).declaration = a.declaration := by
  unfold detach
  split
  · rfl
  · dsimp only
    split <;> split <;> simp only [declaration_setLink]

theorem declaration_foldl_detach (a : Arena) (stale : List Nat) :
    (stale.foldl Arena.detach a).declaration = a.declaration := by
  induction stale generalizing a with
  | nil => rfl
  | cons k stale ih => rw [List.foldl_cons, ih, declaration_detach]

/-! ## One change -/

namespace Linked

variable {a : Arena} {kids : Nat → List Nat}

/-- A new node is above no other. -/
theorem not_above_new (hk : a.Linked kids) (c : Content) {h : Nat} (hh : h < a.size) :
    ¬ Relation.ReflTransGen (a.create c).1.IsParent a.size h := by
  intro habove
  rcases Relation.ReflTransGen.cases_head habove with rfl | ⟨k, hstep, -⟩
  · exact Nat.lt_irrefl _ hh
  · unfold IsParent at hstep
    rw [link_create] at hstep
    exact Nat.lt_irrefl _ (hk.parent_lt ((hk.parent k _).1 hstep))

/-- A new node is appended last. -/
theorem appendNew (hk : a.Linked kids) (c : Content) {p : Nat} (hp : p < a.size) :
    ((a.create c).1.appendChild p a.size).Linked
      (Function.update kids p (kids p ++ [a.size])) := by
  refine (hk.create c).appendChild ?_ ?_ ?_ (hk.not_above_new c hp)
  · rw [size_create]
    exact Nat.lt_succ_of_lt hp
  · rw [size_create]
    exact Nat.lt_succ_self _
  · rw [link_create]
    exact link_eq_none (Nat.le_refl _) .parent

theorem foldl_detach (hk : a.Linked kids) (stale : List Nat) :
    (stale.foldl Arena.detach a).Linked fun x => (kids x).filter fun k => !stale.contains k := by
  induction stale generalizing a kids with
  | nil =>
    have hall : (fun x => (kids x).filter fun k => !([] : List Nat).contains k) = kids := by
      funext x
      exact List.filter_eq_self.2 fun k _ => rfl
    rw [hall]
    exact hk
  | cons s stale ih =>
    have hstep : (fun x => ((kids x).erase s).filter fun k => !stale.contains k) =
        fun x => (kids x).filter fun k => !(s :: stale).contains k := by
      funext x
      rw [(hk.nodup x).erase_eq_filter, List.filter_filter]
      refine List.filter_congr fun k _ => ?_
      rw [List.contains_cons, Bool.not_or, Bool.and_comm]
      rfl
    rw [← hstep]
    exact ih (hk.detach s)

/-- Detaching the children of one node that pass a test leaves those that do not; no other list
changes. -/
theorem filter_children (hk : a.Linked kids) (h : Nat) (q : Nat → Bool) :
    (fun x => (kids x).filter fun k => !((kids h).filter q).contains k) =
      Function.update kids h ((kids h).filter fun k => !q k) := by
  funext x
  by_cases hx : x = h
  · subst hx
    rw [Function.update_self]
    refine List.filter_congr fun k hmem => ?_
    cases hq : q k <;> simp [hmem, hq]
  · rw [Function.update_of_ne hx]
    refine List.filter_eq_self.2 fun k hmem => ?_
    have haway : k ∉ (kids h).filter q :=
      fun hin => hx (hk.parent_unique hmem (List.mem_of_mem_filter hin))
    rw [List.contains_eq_mem, decide_eq_false haway]
    rfl

end Linked

/-- The node of the handle holds neither text nor CDATA. -/
def isNotText (a : Arena) (h : Nat) : Bool :=
  match a.content? h with
  | some (.text _) => false
  | some (.cdata _) => false
  | _ => true

theorem isNotText_eq (a : Arena) (h : Nat) : a.isNotText h = !a.isCharacterData h := by
  unfold isNotText isCharacterData
  cases a.content? h with
  | none => rfl
  | some c => cases c <;> rfl

end Arena

namespace Change

/-- The change is legal use: every node is there, and what is appended hangs nowhere and is neither
the new parent nor above it. -/
def Legal (a : Arena) : Change → Prop
  | create _ => True
  | appendElement p _ _ => p < a.size
  | appendChild p c => p < a.size ∧ c < a.size ∧ a.link .parent c = none ∧
      ¬ Relation.ReflTransGen a.IsParent c p
  | detach h => h < a.size
  | setText h _ => h < a.size

/-- The change on the lists of children. Setting a text takes away the children that are text or CDATA
and puts one text behind the others, if there is any. -/
def lists (a : Arena) (kids : Nat → List Nat) : Change → Nat → List Nat
  | create _ => kids
  | appendElement p _ _ => Function.update kids p (kids p ++ [a.size])
  | appendChild p c => Function.update kids p (kids p ++ [c])
  | detach h => fun x => (kids x).erase h
  | setText h text => Function.update kids h
      ((kids h).filter a.isNotText ++ if text = "" then [] else [a.size])

/-- The node that the change creates, if it creates one. -/
def created? : Change → Option Content
  | create c => some c
  | appendElement _ name uri => some (.element ⟨name, uri, []⟩)
  | appendChild _ _ => none
  | detach _ => none
  | setText _ text => if text = "" then none else some (.text text)

end Change

namespace Arena

/-- A legal change of an arena succeeds and is the operation on lists that it names; nodes keep what
they are. -/
theorem Linked.apply {a : Arena} {kids : Nat → List Nat} (hk : a.Linked kids) {x : Change}
    (hx : x.Legal a) :
    ∃ a', a.apply x = some (a', x.created?.map fun _ => a.size) ∧ a'.Linked (x.lists a kids) ∧
      a'.contents = a.contents ++ x.created?.toList ∧ a'.declaration = a.declaration := by
  cases x with
  | create c => exact ⟨_, rfl, hk.create c, contents_create a c, rfl⟩
  | appendElement p name uri =>
    refine ⟨_, rfl, hk.appendNew _ hx, ?_, ?_⟩
    · exact (contents_appendChild _ _ _).trans (contents_create a _)
    · exact declaration_appendChild _ _ _
  | appendChild p c =>
    obtain ⟨hp, hc, hfree, habove⟩ := hx
    refine ⟨_, rfl, hk.appendChild hp hc hfree habove, ?_, declaration_appendChild _ _ _⟩
    exact (contents_appendChild _ _ _).trans (List.append_nil _).symm
  | detach h =>
    refine ⟨_, rfl, hk.detach h, ?_, declaration_detach _ _⟩
    exact (contents_detach _ _).trans (List.append_nil _).symm
  | setText h text =>
    have hcleared := hk.foldl_detach ((kids h).filter a.isCharacterData)
    have hsame := contents_foldl_detach a ((kids h).filter a.isCharacterData)
    have hdeclaration := declaration_foldl_detach a ((kids h).filter a.isCharacterData)
    rw [hk.filter_children] at hcleared
    have hsize := size_eq_of_contents hsame
    unfold Arena.apply Arena.setText Change.lists Change.created?
    dsimp only
    rw [hk.children, funext a.isNotText_eq]
    by_cases htext : text = ""
    · simp only [htext, ↓reduceIte, List.append_nil]
      exact ⟨_, rfl, hcleared, hsame.trans (List.append_nil _).symm, hdeclaration⟩
    · simp only [htext, ↓reduceIte]
      have happended := hcleared.appendNew (.text text) (p := h) (by rw [hsize]; exact hx)
      rw [hsize, Function.update_self, Function.update_idem] at happended
      refine ⟨_, ?_, happended, ?_, ?_⟩
      · refine congrArg some (Prod.ext ?_ ?_)
        · exact congrArg (Arena.appendChild _ h) hsize
        · exact congrArg some hsize
      · rw [contents_appendChild, contents_create, hsame]
        rfl
      · rw [declaration_appendChild]
        exact hdeclaration

/-! ## Runs -/

/-- The arenas that are reached from a new document or a parsed one by legal changes. -/
inductive Reached : Arena → Prop
  | new : Reached empty
  | parsed {o : ReadOptions} {text : String} {m : Markup} (h : Markup.parse o text = .ok m) :
      Reached (ofMarkup m)
  | change {a a' : Arena} {x : Change} {created : Option Nat} (ha : Reached a) (hx : x.Legal a)
      (h : a.apply x = some (a', created)) : Reached a'

theorem graft_cons (a : Arena) (p : Nat) (c : Content) (below beside : Forest Content) :
    a.graft p (.cons c below beside) =
      (((a.create c).1.appendChild p a.size).graft a.size below).graft p beside := rfl

/-- A forest that is built below a node is the forest with handles given in document order. -/
theorem Linked.graft {a : Arena} {kids : Nat → List Nat} (hk : a.Linked kids) {p next : Nat}
    (hp : p < a.size) (hnext : a.size = next) (f : Forest Content) :
    ∃ kids', (a.graft p f).Linked kids' ∧ (a.graft p f).contents = a.contents ++ f.preorder ∧
      (a.graft p f).declaration = a.declaration ∧
      kids' p = kids p ++ (Document.number next f).1.rootHandles ∧
      (∀ k, k < next → k ≠ p → kids' k = kids k) ∧
      (Document.number next f).1.Shows (a.graft p f).content? kids' := by
  induction f generalizing a kids p next with
  | nil =>
    exact ⟨kids, hk, (List.append_nil _).symm, rfl, (List.append_nil _).symm, fun _ _ _ => rfl,
      trivial⟩
  | cons c below beside ihb ihs =>
    -- the node, then what is below it, then what is beside it
    subst hnext
    have hnew := hk.appendNew c hp
    have hcontents := contents_appendNew a p c
    have hsize := size_appendNew a p c
    obtain ⟨kids₁, hk₁, hcontents₁, hdeclaration₁, hself₁, hother₁, hshows₁⟩ :=
      ihb hnew (p := a.size) (by omega) hsize
    have hsize₁ : (((a.create c).1.appendChild p a.size).graft a.size below).size =
        (Document.number (a.size + 1) below).2 := by
      rw [← length_contents, hcontents₁, List.length_append, length_contents, hsize,
        Forest.length_preorder, Document.number_snd]
    have hle : a.size + 1 ≤ (Document.number (a.size + 1) below).2 := by
      rw [Document.number_snd]
      omega
    obtain ⟨kids₂, hk₂, hcontents₂, hdeclaration₂, hself₂, hother₂, hshows₂⟩ :=
      ihs hk₁ (p := p) (by omega) hsize₁
    have hchain : ∀ k, k < a.size → kids₁ k = Function.update kids p (kids p ++ [a.size]) k :=
      fun k hlt => hother₁ k (by omega) (by omega)
    refine ⟨kids₂, hk₂, ?_, ?_, ?_, ?_, ?_, ?_, ?_, hshows₂⟩
    · rw [graft_cons, hcontents₂, hcontents₁, hcontents, Forest.preorder]
      simp only [List.append_assoc, List.cons_append, List.nil_append]
    · exact hdeclaration₂.trans (hdeclaration₁.trans (declaration_appendChild _ _ _))
    · rw [hself₂, hchain p hp, Function.update_self, List.append_assoc]
      rfl
    · intro k hlt hne
      rw [hother₂ k (by omega) hne, hchain k hlt, Function.update_of_ne hne]
    · show (a.graft p (.cons c below beside)).content? a.size = some c
      rw [graft_cons, content?_of_contents hcontents₂ (by omega),
        content?_of_contents hcontents₁ (by omega), content?_eq, hcontents, ← length_contents,
        List.getElem?_concat_length]
    · show kids₂ a.size = (Document.number (a.size + 1) below).1.rootHandles
      rw [hother₂ a.size (by omega) (by omega), hself₁, Function.update_of_ne (by omega),
        hk.eq_nil_of_size_le (Nat.le_refl _)]
      rfl
    · refine hshows₁.congr (fun k hmem => ?_) fun k hmem => ?_
      · have hbounds := Forest.handles_number hmem
        exact content?_of_contents hcontents₂ (by rw [hsize₁, Document.number_snd]; omega)
      · have hbounds := Forest.handles_number hmem
        exact hother₂ k (by rw [Document.number_snd]; omega) (by omega)

theorem linked_ofMarkup (m : Markup) : ∃ kids, (ofMarkup m).Linked kids := by
  obtain ⟨kids, hk, -⟩ :=
    (linked_empty m.declaration).graft (p := Document.root) Nat.zero_lt_one rfl m.top
  exact ⟨kids, hk⟩

theorem Reached.linked {a : Arena} (h : Reached a) : ∃ kids, a.Linked kids := by
  induction h with
  | new => exact ⟨_, linked_empty Declaration.absent⟩
  | parsed _ => exact linked_ofMarkup _
  | change _ hx h ih =>
    obtain ⟨kids, hk⟩ := ih
    obtain ⟨a', happly, hk', -⟩ := hk.apply hx
    rw [happly] at h
    obtain ⟨rfl, -⟩ := Prod.mk.inj (Option.some.inj h)
    exact ⟨_, hk'⟩

/-! ## The forest -/

/-- The arena is an ordered forest with these lists of children: from the first child on, the links
to the next sibling give the list and come to its end, and those to the previous sibling give it
backwards from the last; the nodes of a list are those whose parent has it, each once; no node is
above itself. -/
structure IsForest (a : Arena) (kids : Nat → List Nat) : Prop where
  children : ∀ h, a.children h = some (kids h)
  mirrored : ∀ h, a.chain .previous (a.link .last h) = some (kids h).reverse
  parent : ∀ h k, k ∈ kids h ↔ a.link .parent k = some h
  once : ∀ h, (kids h).Nodup
  alone : ∀ k, a.link .parent k = none → a.link .next k = none ∧ a.link .previous k = none
  acyclic : ∀ h, ¬ Relation.TransGen a.IsParent h h

theorem Linked.forest {a : Arena} {kids : Nat → List Nat} (hk : a.Linked kids) :
    a.IsForest kids where
  children := hk.children
  mirrored h := by
    rw [hk.last]
    exact chain_eq_some_iff.2 (hk.chain_previous (r := []) (List.append_nil _).symm)
  parent h k := (hk.parent k h).symm
  once := hk.nodup
  alone := hk.loose
  acyclic := hk.acyclic

/-- Every arena that is reached by legal changes is an ordered forest, and every legal change of it
succeeds, is on that forest the operation on lists of children that it names, and keeps what the
nodes are. -/
theorem Reached.isForest {a : Arena} (h : Reached a) :
    ∃ kids, a.IsForest kids ∧ ∀ x : Change, x.Legal a →
      ∃ a', a.apply x = some (a', x.created?.map fun _ => a.size) ∧ a'.IsForest (x.lists a kids) ∧
        a'.contents = a.contents ++ x.created?.toList ∧ a'.declaration = a.declaration := by
  obtain ⟨kids, hk⟩ := h.linked
  refine ⟨kids, hk.forest, fun x hx => ?_⟩
  obtain ⟨a', happly, hk', hcontents⟩ := hk.apply hx
  exact ⟨a', happly, hk'.forest, hcontents⟩

/-- Three nodes below one element, the second of which is detached. -/
theorem Reached.isForest_detached :
    let m : Markup := ⟨.absent, .cons (.element ⟨⟨none, "r"⟩, none, []⟩)
      (.cons (.element ⟨⟨none, "a"⟩, none, []⟩) .nil
        (.cons (.text "t") .nil (.leaf (.element ⟨⟨none, "b"⟩, none, []⟩)))) .nil⟩
    let a := (ofMarkup m).detach 3
    Reached a ∧ ∃ kids, a.IsForest kids ∧ ∀ x : Change, x.Legal a →
      ∃ a', a.apply x = some (a', x.created?.map fun _ => a.size) ∧ a'.IsForest (x.lists a kids) ∧
        a'.contents = a.contents ++ x.created?.toList ∧ a'.declaration = a.declaration := by
  intro m a
  have hparse : Markup.parse {} "<r><a/>t<b/></r>" = .ok m := by
    decide +kernel
  have hlegal : (Change.detach 3).Legal (ofMarkup m) := by
    show 3 < (ofMarkup m).size
    decide
  have hreached : Reached a := .change (.parsed hparse) hlegal rfl
  exact ⟨hreached, hreached.isForest⟩

end Arena

end MarkupFields
