import MarkupFields.Proofs.Tree.Assembled

/-
  The walk through all that is below a node. It goes down to the first child, and from a node
  without children it climbs until there is a sibling to go on with. That it ends where it should is
  said of one level at a time (`Walk.level`): if climbing from the parent goes on with some node
  outside of the level, then the walk from the first node of the level passes all that is on the
  level and below it, in document order, and goes on with that same node. The top of the walk is a
  parent from which climbing goes on with nothing. Both bounds are met: a way up is a chain of
  parents, and a walk passes no node twice.

  What is below a node is said once more without any forest (`Traversed`), by the lists of children
  and the links to parents; it holds in every arena that comes about (`Arena.Built`).
-/

namespace MarkupFields

open Document (hasHandle)

/-! ## The way up and the walk -/

namespace Arena

/-- Climbing from the node leads to this sibling beside the way; to none if the top comes first. -/
inductive Climbs (a : Arena) (top : Nat) : Nat → Option Nat → Prop
  | top : Climbs a top top none
  | beside {h s : Nat} (hne : h ≠ top) (hs : a.link .next h = some s) : Climbs a top h (some s)
  | above {h p : Nat} {r : Option Nat} (hne : h ≠ top) (hnone : a.link .next h = none)
      (hp : a.link .parent h = some p) (hr : Climbs a top p r) : Climbs a top h r

/-- A bound that is enough for a chain is enough to follow the first of its links. -/
theorem Chain.exists_rest {a : Arena} {l : Link} {h : Nat} {ks : List Nat}
    (hks : a.Chain l (some h) ks) {bound : Nat} (hbound : ks.length ≤ bound) :
    ∃ rest n, a.Chain l (a.link l h) rest ∧ bound = n + 1 ∧ rest.length ≤ n := by
  cases hks with
  | @cons _ rest hrest =>
    obtain ⟨n, rfl⟩ := Nat.exists_eq_add_of_le' (Nat.lt_of_lt_of_le (Nat.succ_pos _) hbound)
    exact ⟨rest, n, hrest, rfl, Nat.le_of_succ_le_succ hbound⟩

/-- A bound that is enough for all nodes above is enough for the way up. -/
theorem Climbs.climbUpTo_eq {a : Arena} {top h : Nat} {r : Option Nat} (hr : a.Climbs top h r)
    {ks : List Nat} (hks : a.Chain .parent (some h) ks) {bound : Nat} (hbound : ks.length ≤ bound) :
    a.climbUpTo top bound (some h) = some r := by
  induction hr generalizing ks bound with
  | top =>
    obtain ⟨_, _, -, rfl, -⟩ := hks.exists_rest hbound
    rw [climbUpTo, if_pos rfl]
  | beside hne hs =>
    obtain ⟨_, _, -, rfl, -⟩ := hks.exists_rest hbound
    rw [climbUpTo, if_neg hne, hs]
  | above hne hnone hp _ ih =>
    obtain ⟨rest, n, hrest, rfl, hn⟩ := hks.exists_rest hbound
    rw [hp] at hrest
    rw [climbUpTo, if_neg hne, hnone, hp]
    exact ih hrest hn

/-- The nodes that a walk below the top passes from the given one on. -/
inductive Walk (a : Arena) (top : Nat) : Option Nat → List Nat → Prop
  | nil : Walk a top none []
  | cons {h : Nat} {next : Option Nat} {ks : List Nat} (hnext : a.following top h = some next)
      (rest : Walk a top next ks) : Walk a top (some h) (h :: ks)

theorem Walk.walkUpTo_eq {a : Arena} {top : Nat} {start : Option Nat} {ks : List Nat}
    (h : a.Walk top start ks) {bound : Nat} (hbound : ks.length ≤ bound) :
    a.walkUpTo top bound start = some ks := by
  induction h generalizing bound with
  | nil => cases bound <;> rfl
  | cons hnext _ ih =>
    obtain ⟨bound, rfl⟩ := Nat.exists_eq_add_of_le' (Nat.lt_of_lt_of_le (Nat.succ_pos _) hbound)
    rw [walkUpTo, hnext, Option.bind_eq_bind, Option.bind_some,
      ih (Nat.le_of_succ_le_succ hbound)]
    rfl

namespace Linked

variable {a : Arena} {kids : Nat → List Nat}

/-- There is an end to the nodes above. -/
theorem chain_parent (hk : a.Linked kids) (h : Nat) : ∃ ks, a.Chain .parent (some h) ks := by
  induction h using hk.grounded.induction with
  | _ h ih =>
    cases hp : a.link .parent h with
    | none => exact ⟨[h], .cons (hp ▸ .nil)⟩
    | some p =>
      obtain ⟨ks, hks⟩ := ih p hp
      exact ⟨h :: ks, .cons (hp ▸ hks)⟩

/-- After a node comes its first child, or else what climbing leads to. -/
theorem following (hk : a.Linked kids) {top h : Nat} {r : Option Nat} (hr : a.Climbs top h r) :
    a.following top h = some ((kids h).head?.or r) := by
  unfold Arena.following
  rw [hk.first]
  cases (kids h).head? with
  | some c => rfl
  | none =>
    obtain ⟨ks, hks⟩ := hk.chain_parent h
    exact hr.climbUpTo_eq hks hks.length_le

end Linked

/-- The walk through a level, or the rest of one, and on to where climbing from the parent leads. -/
theorem Walk.level {a : Arena} {kids : Nat → List Nat} (hk : a.Linked kids) {f : Forest Node}
    (hf : f.Shows a.content? kids) {top p : Nat} (before : List Nat)
    (hlevel : kids p = before ++ f.rootHandles) (htop : top ∉ f.handles) {r : Option Nat}
    (hclimb : a.Climbs top p r) {ks : List Nat} (hrest : a.Walk top r ks) :
    a.Walk top (f.rootHandles.head?.or r) (f.handles ++ ks) := by
  induction f generalizing p before r ks with
  | nil => exact hrest
  | cons n below beside ihb ihs =>
    obtain ⟨-, hbelow, hb, hs⟩ := hf
    rw [Forest.handles_cons, List.mem_cons, List.mem_append, not_or, not_or] at htop
    obtain ⟨hne, hnotBelow, hnotBeside⟩ := htop
    rw [Forest.rootHandles_cons] at hlevel
    have hmem : n.handle ∈ kids p := by
      rw [hlevel]
      exact List.mem_append_right before List.mem_cons_self
    have hnext := hk.next p before n.handle beside.rootHandles hlevel
    -- climbing from the node leads to its sibling if it has one, else to where the parent leads
    have hclimb' : a.Climbs top n.handle (beside.rootHandles.head?.or r) := by
      cases hsibling : beside.rootHandles.head? with
      | some s => exact .beside (Ne.symm hne) (hnext.trans hsibling)
      | none =>
        exact .above (Ne.symm hne) (hnext.trans hsibling) ((hk.parent n.handle p).2 hmem) hclimb
    have hafter := ihs hs (before ++ [n.handle]) (by rw [hlevel, List.append_assoc]; rfl)
      hnotBeside hclimb hrest
    have hwhole := ihb hb [] hbelow hnotBelow hclimb' hafter
    rw [← hbelow] at hwhole
    rw [Forest.handles_cons, List.cons_append, List.append_assoc]
    exact .cons (hk.following hclimb') hwhole

end Arena

/-! ## Forests of distinct handles -/

namespace Forest

/-- The root of a tree on the top level has that tree. -/
theorem onlyAt_of_mem_trees {f : Forest Node} (hnodup : f.handles.Nodup) {t : NodeTree}
    (ht : t ∈ f.trees) : OnlyAt t.1.handle f t := by
  obtain ⟨us, vs, hsplit⟩ := List.append_of_mem ht
  have hf : f = ofTrees us ++ .cons t.1 t.2 (ofTrees vs) :=
    ext_trees (by rw [hsplit, trees_append, trees, trees_ofTrees, trees_ofTrees])
  rw [hf] at hnodup ⊢
  exact onlyAt_append_cons hnodup

/-- Document order, level by level: each root is followed by what is below it. -/
theorem handles_eq_flatMap {f : Forest Node} {below : Nat → List Nat}
    (h : ∀ t ∈ f.trees, below t.1.handle = t.2.handles) :
    f.handles = f.rootHandles.flatMap fun c => c :: below c := by
  rw [handles_eq, rootHandles, roots_eq_map_trees, List.map_map, List.flatMap_map]
  refine List.flatMap_congr fun t ht => ?_
  exact congrArg (t.1.handle :: ·) (h t ht).symm

end Forest

/-! ## Changes of attributes -/

/-- The content with its attributes changed, if it is an element. -/
def Content.mapAttributes (f : List Attribute → List Attribute) : Content → Content
  | element e => element { e with attributes := f e.attributes }
  | c => c

theorem Document.modifyAttributes_eq (d : Document) (h : Nat)
    (f : List Attribute → List Attribute) :
    d.modifyAttributes h f = { d with
      forest := d.forest.modify (hasHandle h) fun n kids =>
        ({ n with content := n.content.mapAttributes f }, kids) } := by
  unfold Document.modifyAttributes
  congr
  funext n kids
  obtain ⟨k, c⟩ := n
  cases c <;> rfl

namespace Arena

variable (a : Arena) (h : Nat) (f : List Attribute → List Attribute)

theorem modifyAttributes_eq : a.modifyAttributes h f = { a with
    entries := a.entries.modify h fun entry =>
      { entry with content := entry.content.mapAttributes f } } := by
  unfold modifyAttributes
  congr
  funext entry
  obtain ⟨c, parent, first, last, next, previous⟩ := entry
  cases c <;> rfl

theorem link_modifyAttributes (l : Link) (k : Nat) :
    (a.modifyAttributes h f).link l k = a.link l k := by
  rw [modifyAttributes_eq]
  unfold link
  rw [Array.getElem?_modify]
  split
  · cases a.entries[k]? with
    | none => rfl
    | some entry => cases l <;> rfl
  · rfl

theorem size_modifyAttributes : (a.modifyAttributes h f).size = a.size := by
  unfold modifyAttributes size
  exact Array.size_modify

theorem content?_modifyAttributes {c : Content} (hc : a.content? h = some c) :
    (a.modifyAttributes h f).content? =
      Function.update a.content? h (some (c.mapAttributes f)) := by
  rw [modifyAttributes_eq]
  funext k
  unfold content? at hc ⊢
  rw [Array.getElem?_modify]
  by_cases hk : h = k
  · subst hk
    obtain ⟨entry, hentry, rfl⟩ := Option.map_eq_some_iff.1 hc
    rw [if_pos rfl, Function.update_self, hentry]
    rfl
  · rw [if_neg hk, Function.update_of_ne (Ne.symm hk)]

end Arena

namespace Document.Depicts

variable {d : Document} {a : Arena} {kids : Nat → List Nat} {h : Nat}

theorem modifyAttributes (hd : d.Depicts a kids) (hh : h < a.size)
    (f : List Attribute → List Attribute) :
    (d.modifyAttributes h f).Depicts (a.modifyAttributes h f) kids := by
  obtain ⟨t, ht, -⟩ := hd.exists_tree hh
  have hsize := a.size_modifyAttributes h f
  rw [Document.modifyAttributes_eq]
  refine ⟨hd.linked.congr (a.link_modifyAttributes h f), hd.declaration,
    hd.allocated.trans hsize.symm, ?_, ?_⟩
  · rw [hsize]
    refine (List.Perm.of_eq (Forest.handles_modify_labels ?_ ?_ d.forest)).trans hd.handles
    · exact fun _ _ => rfl
    · exact fun _ _ => rfl
  · rw [a.content?_modifyAttributes h f (hd.nodes.tree ht).1]
    exact hd.nodes.relabel ht (Content.mapAttributes f)

theorem declareNamespace (hd : d.Depicts a kids) (hh : h < a.size) (nsPrefix uri : String) :
    (d.declareNamespace h nsPrefix uri).1.Depicts (a.declareNamespace h nsPrefix uri).1 kids := by
  unfold Document.declareNamespace Arena.declareNamespace
  rw [hd.content? hh]
  cases a.content? h with
  | none => exact hd
  | some c =>
    cases c with
    | element e =>
      dsimp only
      cases Attribute.declare? nsPrefix uri e.attributes with
      | none => exact hd
      | some as => exact hd.modifyAttributes hh fun _ => as
    | _ => exact hd

/-! ## Walks -/

/-- The walk below a node passes all that is below it in the forest, in document order. -/
theorem walk (hd : d.Depicts a kids) {t : NodeTree} (ht : d.forest.OnlyAt h t) :
    a.descendants h = some t.2.handles := by
  obtain ⟨-, hlevel, hshows⟩ := hd.nodes.tree ht
  have hwalk := Arena.Walk.level hd.linked hshows [] hlevel ht.not_mem .top .nil
  rw [Option.or_none, List.append_nil, ← hlevel, ← hd.linked.first] at hwalk
  refine hwalk.walkUpTo_eq ?_
  have hlength := (ht.handles_erase.trans hd.handles).length_eq
  rw [List.length_append, List.length_cons, List.length_range] at hlength
  omega

theorem descendants_eq {t : NodeTree} (ht : d.forest.OnlyAt h t) :
    d.descendants h = t.2.handles := by
  have hfind : d.node? h = some t := ht.find?
  unfold Document.descendants Document.below
  rw [hfind]
  rfl

theorem descendants (hd : d.Depicts a kids) (hh : h < a.size) :
    a.descendants h = some (d.descendants h) := by
  obtain ⟨t, ht, -⟩ := hd.exists_tree hh
  rw [hd.walk ht, descendants_eq ht]

/-- What the forest has below a node is what has the node above it by the links to parents. -/
theorem mem_below (hd : d.Depicts a kids) {t : NodeTree} (ht : d.forest.OnlyAt h t) {k : Nat} :
    k ∈ t.2.handles ↔ Relation.TransGen a.IsParent h k := by
  obtain ⟨-, hlevel, hshows⟩ := hd.nodes.tree ht
  constructor
  · intro hk
    obtain ⟨c, hc, habove⟩ := above_of_mem hd.linked hshows hk
    rw [← hlevel, ← hd.linked.parent] at hc
    exact .head' hc habove
  · intro hk
    induction hk with
    | single hc =>
      rw [Arena.IsParent, hd.linked.parent, hlevel] at hc
      exact Forest.mem_handles_of_mem_rootHandles hc
    | tail _ hc ih =>
      obtain ⟨u, hu⟩ := Forest.onlyAt_of_mem (List.nodup_cons.1 (ht.nodup hd.nodup)).2 ih
      rw [Arena.IsParent, hd.linked.parent, (hshows.tree hu).2.1] at hc
      exact hu.mem_of_below (Forest.mem_handles_of_mem_rootHandles hc)

end Document.Depicts

/-! ## Without a forest -/

/-- What a node contributes to a text: what it holds if it is text or CDATA, and nothing otherwise. -/
inductive Arena.Contributes (a : Arena) (h : Nat) : String → Prop
  | text {s : String} (content : a.content? h = some (.text s)) : Contributes a h s
  | cdata {s : String} (content : a.content? h = some (.cdata s)) : Contributes a h s
  | nothing {c : Content} (content : a.content? h = some c) (notText : ∀ s, c ≠ .text s)
      (notCdata : ∀ s, c ≠ .cdata s) : Contributes a h ""

/-- What is passed on the walk below a node, said of all nodes at once: the children come in order,
each followed by what is below it; what is passed is all that has the node above it, each once and
not the node itself; and its text is what the node and what is passed contribute, in this order. -/
structure Arena.Traversed (a : Arena) (below : Nat → List Nat) (h : Nat) : Prop where
  descendants : a.descendants h = some (below h)
  ordered : ∃ children, a.children h = some children ∧
    below h = children.flatMap fun c => c :: below c
  proper : ∀ k, k ∈ below h ↔ Relation.TransGen a.IsParent h k
  once : (h :: below h).Nodup
  textContent : ∃ parts, a.textContent h = some (String.join parts) ∧
    List.Forall₂ a.Contributes (h :: below h) parts

theorem Arena.characters_eq {a : Arena} {h : Nat} {c : Content} (hc : a.content? h = some c) :
    a.characters h = c.characters := by
  unfold Arena.characters
  rw [hc]

/-- The characters of a node are what it contributes. -/
theorem Arena.contributes_characters {a : Arena} {h : Nat} (hh : h < a.size) :
    a.Contributes h (a.characters h) := by
  obtain ⟨c, hc⟩ : ∃ c, a.content? h = some c := by
    rw [← length_contents] at hh
    exact ⟨_, (content?_eq a h).trans (List.getElem?_eq_getElem hh)⟩
  rw [characters_eq hc]
  cases c with
  | text s => exact .text hc
  | cdata s => exact .cdata hc
  | _ => exact .nothing hc nofun nofun

namespace Document.Depicts

variable {d : Document} {a : Arena} {kids : Nat → List Nat} {h : Nat}

/-- The characters of the node and of what is below it are put together. -/
theorem textContent_eq (hd : d.Depicts a kids) (hh : h < a.size) :
    a.textContent h = some (String.join ((h :: d.descendants h).map a.characters)) := by
  unfold Arena.textContent
  rw [hd.descendants hh, Option.bind_eq_bind, Option.bind_some, List.map_cons]
  refine congrArg some ?_
  show _ = List.foldl (· ++ ·) ("" ++ a.characters h) ((d.descendants h).map a.characters)
  rw [List.foldl_map, String.empty_append]

theorem traversed (hd : d.Depicts a kids) (hh : h < a.size) : a.Traversed d.descendants h := by
  obtain ⟨t, ht, hfind⟩ := hd.exists_tree hh
  have hnodup := ht.nodup hd.nodup
  refine ⟨hd.descendants hh, ⟨d.children h, hd.children hh, ?_⟩, ?_, ?_,
    ⟨_, hd.textContent_eq hh, ?_⟩⟩
  · have hchildren : d.children h = t.2.rootHandles := by
      unfold Document.children Document.below
      rw [hfind]
      rfl
    rw [descendants_eq ht, hchildren]
    refine Forest.handles_eq_flatMap fun u hu => descendants_eq ?_
    exact ht.trans hd.nodup (Forest.onlyAt_of_mem_trees (List.nodup_cons.1 hnodup).2 hu)
  · rw [descendants_eq ht]
    exact fun k => hd.mem_below ht
  · rw [descendants_eq ht]
    exact hnodup
  · rw [List.forall₂_map_right_iff, List.forall₂_same, List.forall_mem_cons, descendants_eq ht]
    refine ⟨Arena.contributes_characters hh, fun k hk => Arena.contributes_characters ?_⟩
    exact hd.mem_iff.1 (ht.mem_of_below hk)

/-- The characters that are come by are those of the forest. -/
theorem map_characters {f : Forest Node} (hf : f.Shows a.content? kids) :
    f.handles.map a.characters = (f.map Node.content).preorder.map Content.characters := by
  induction f with
  | nil => rfl
  | cons n below beside ihb ihs =>
    obtain ⟨hn, -, hb, hs⟩ := hf
    rw [Forest.handles_cons, List.map_cons, List.map_append, Arena.characters_eq hn, ihb hb,
      ihs hs, Forest.map, Forest.preorder, List.map_cons, List.map_append]

/-- The document reads the same text off its forest. -/
theorem textContent (hd : d.Depicts a kids) (hh : h < a.size) :
    a.textContent h = some (d.textContent h) := by
  obtain ⟨t, ht, hfind⟩ := hd.exists_tree hh
  obtain ⟨hcontent, -, hshows⟩ := hd.nodes.tree ht
  rw [hd.textContent_eq hh, descendants_eq ht, List.map_cons, String.join_cons,
    Arena.characters_eq hcontent, map_characters hshows]
  unfold Document.textContent
  rw [hfind]
  rfl

end Document.Depicts

namespace Arena

/-- The arenas that are made by legal changes to a new one or a parsed one. -/
inductive Built : Arena → Prop
  | new : Built empty
  | parsed {o : ReadOptions} {text : String} {m : Markup} (h : Markup.parse o text = .ok m) :
      Built (ofMarkup m)
  | change {a a' : Arena} {x : Change} {created : Option Nat} (before : Built a) (hx : x.Legal a)
      (h : a.apply x = some (a', created)) : Built a'
  | setAttribute {a : Arena} (before : Built a) {h : Nat} (hh : h < a.size) (x : Attribute) :
      Built (a.setAttribute h x)
  | declareNamespace {a : Arena} (before : Built a) {h : Nat} (hh : h < a.size)
      (nsPrefix uri : String) : Built (a.declareNamespace h nsPrefix uri).1
  | declaration {a : Arena} (before : Built a) (x : Declaration) : Built { a with declaration := x }

theorem Built.depicted {a : Arena} (h : a.Built) :
    ∃ (d : Document) (kids : Nat → List Nat), d.Depicts a kids := by
  induction h with
  | new => exact ⟨_, Document.depicts_ofMarkup ⟨.absent, .nil⟩⟩
  | parsed _ => exact ⟨_, Document.depicts_ofMarkup _⟩
  | change _ hx h ih =>
    obtain ⟨d, kids, hd⟩ := ih
    obtain ⟨a', happly, hd'⟩ := hd.apply hx
    rw [happly] at h
    obtain ⟨rfl, -⟩ := Prod.mk.inj (Option.some.inj h)
    exact ⟨_, _, hd'⟩
  | setAttribute _ hh x ih =>
    obtain ⟨d, kids, hd⟩ := ih
    exact ⟨_, _, hd.modifyAttributes hh x.set⟩
  | declareNamespace _ hh nsPrefix uri ih =>
    obtain ⟨d, kids, hd⟩ := ih
    exact ⟨_, _, hd.declareNamespace hh nsPrefix uri⟩
  | declaration _ x ih =>
    obtain ⟨d, kids, hd⟩ := ih
    exact ⟨{ d with declaration := x }, kids, hd.linked.congr fun _ _ => rfl, rfl, hd.allocated,
      hd.handles, hd.nodes⟩

/-- Nodes are created in document order, so the walk below the document node counts them. -/
theorem descendants_ofMarkup (m : Markup) :
    (ofMarkup m).size = 1 + m.top.size ∧
      (ofMarkup m).descendants Document.root = some (List.range' 1 m.top.size) := by
  obtain ⟨kids, hd⟩ := Document.depicts_ofMarkup m
  have hsize : (ofMarkup m).size = 1 + m.top.size :=
    hd.allocated.symm.trans (Document.number_snd (Document.root + 1) m.top)
  refine ⟨hsize, ?_⟩
  rw [hd.descendants (by rw [hsize]; exact Nat.lt_add_right _ Nat.zero_lt_one)]
  exact congrArg some (Document.preorder_number (Document.root + 1) m.top)

/-- In every arena that is built the walk below a node ends, wherever the node hangs, and passes
what is below the node and nothing else. In an arena that was just parsed the walk below the
document node passes all other nodes, in the order of their handles. -/
theorem Built.walks_below :
    (∀ a : Arena, a.Built → ∃ below, ∀ h < a.size, a.Traversed below h) ∧
      ∀ (o : ReadOptions) (text : String) (m : Markup), Markup.parse o text = .ok m →
        ∃ n, (ofMarkup m).size = 1 + n ∧
          (ofMarkup m).descendants Document.root = some (List.range' 1 n) := by
  refine ⟨fun a ha => ?_, fun o text m _ => ⟨_, descendants_ofMarkup m⟩⟩
  obtain ⟨d, kids, hd⟩ := ha.depicted
  exact ⟨d.descendants, fun h hh => hd.traversed hh⟩

/-- An element with two nodes below it is detached: it has them still, and its parent has what stood
beside it. -/
theorem Built.walks_below_detached :
    let m : Markup := ⟨.absent, .cons (.element ⟨⟨none, "r"⟩, none, []⟩)
      (.cons (.element ⟨⟨none, "a"⟩, none, []⟩)
        (.cons (.element ⟨⟨none, "c"⟩, none, []⟩) .nil (.leaf (.text "t")))
        (.leaf (.element ⟨⟨none, "b"⟩, none, []⟩))) .nil⟩
    let a := (ofMarkup m).detach 2
    (∃ below, (∀ h < a.size, a.Traversed below h) ∧ below 1 = [5] ∧ below 2 = [3, 4]) ∧
      (ofMarkup m).descendants Document.root = some (List.range' 1 5) := by
  intro m a
  have hparse : Markup.parse {} "<r><a><c/>t</a><b/></r>" = .ok m := by
    decide +kernel
  have hsize : (ofMarkup m).size = 6 := by decide
  have hlegal : (Change.detach 2).Legal (ofMarkup m) := by
    show 2 < (ofMarkup m).size
    rw [hsize]
    decide
  have hbuilt : a.Built := .change (.parsed hparse) hlegal rfl
  obtain ⟨below, hbelow⟩ := Built.walks_below.1 a hbuilt
  obtain ⟨n, hn, hwalk⟩ := Built.walks_below.2 {} _ m hparse
  have hbeside : a.descendants 1 = some [5] := by decide
  have hinside : a.descendants 2 = some [3, 4] := by decide
  refine ⟨⟨below, hbelow, ?_, ?_⟩, ?_⟩
  · exact Option.some.inj ((hbelow 1 (by decide)).descendants.symm.trans hbeside)
  · exact Option.some.inj ((hbelow 2 (by decide)).descendants.symm.trans hinside)
  · obtain rfl : n = 5 := by omega
    exact hwalk

end Arena

end MarkupFields
