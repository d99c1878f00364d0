import MarkupFields.Tree.Arena
import Mathlib.Data.List.Induction
import Mathlib.Data.List.Nodup
import Mathlib.Data.List.Perm.Subperm
import Mathlib.Logic.Function.Basic
import Mathlib.Logic.Relation
import Mathlib.Order.WellFounded

/-
  The arena is an ordered forest. `Arena.Linked` says what the links mean: to every handle belongs a
  list of children, its first and last are linked from above, and each child is linked to the one
  above it and to the two beside it; following the links to parents comes to an end. Every change
  keeps this and acts on the lists as the list operation that it names. Following links one by one
  is bounded by the number of nodes, which is bound enough for every chain that ends
  (`chain_eq_some_iff`).
-/

namespace MarkupFields

namespace Arena

/-! ## Links after a change -/

/-- The node is the parent of the other one. -/
def IsParent (a : Arena) (parent child : Nat) : Prop :=
  a.link .parent child = some parent

@[simp] theorem size_setLink (a : Arena) (l : Link) (h : Nat) (target : Option Nat) :
    (a.setLink l h target).size = a.size := by
  unfold setLink size
  exact Array.size_modify

@[simp] theorem content?_setLink (a : Arena) (l : Link) (h : Nat) (target : Option Nat) (k : Nat) :
    (a.setLink l h target).content? k = a.content? k := by
  unfold setLink content?
  rw [Array.getElem?_modify]
  split
  · rw [Option.map_map]
    congr 1
    funext e
    exact Entry.content_withLink l target e
  · rfl

theorem link_setLink {a : Arena} {h : Nat} (hh : h < a.size) (l : Link) (target : Option Nat)
    (l' : Link) (k : Nat) :
    (a.setLink l h target).link l' k = if l' = l ∧ k = h then target else a.link l' k := by
  unfold setLink link
  rw [Array.getElem?_modify]
  by_cases hk : h = k
  · subst hk
    have hsome : ∃ e, a.entries[h]? = some e := ⟨_, Array.getElem?_eq_getElem hh⟩
    obtain ⟨e, he⟩ := hsome
    simp only [he, ↓reduceIte, Option.map_some, Option.bind_some, Entry.link_withLink, and_true]
  · rw [if_neg hk, if_neg fun hboth => hk hboth.2.symm]

/-- Nodes that are not there are linked nowhere. -/
theorem link_eq_none {a : Arena} {h : Nat} (hh : a.size ≤ h) (l : Link) : a.link l h = none := by
  unfold link
  rw [Array.getElem?_eq_none hh]
  rfl

theorem lt_size_of_link {a : Arena} {l : Link} {h k : Nat} (hk : a.link l h = some k) :
    h < a.size := by
  by_contra hge
  rw [link_eq_none (Nat.le_of_not_lt hge) l] at hk
  cases hk

/-! ## Following links -/

/-- The handles are linked in this order, and the last one to none. -/
inductive Chain (a : Arena) (l : Link) : Option Nat → List Nat → Prop
  | nil : Chain a l none []
  | cons {h : Nat} {rest : List Nat} (chain : Chain a l (a.link l h) rest) :
    Chain a l (some h) (h :: rest)

namespace Chain

variable {a : Arena} {l : Link} {start : Option Nat} {ks ks' : List Nat}

theorem unique (h : a.Chain l start ks) (h' : a.Chain l start ks') : ks = ks' := by
  induction h generalizing ks' with
  | nil =>
    cases h'
    rfl
  | cons _ ih =>
    cases h' with
    | cons rest => rw [ih rest]

/-- From a handle on, the chain is the chain of that handle. -/
theorem of_split {before after : List Nat} {k : Nat} (h : a.Chain l start (before ++ k :: after)) :
    a.Chain l (some k) (k :: after) := by
  induction before generalizing start with
  | nil =>
    cases h with
    | cons rest => exact .cons rest
  | cons k' before ih =>
    cases h with
    | cons rest => exact ih rest

/-- No handle comes twice: there would be no end. -/
theorem nodup (h : a.Chain l start ks) : ks.Nodup := by
  induction h with
  | nil => exact List.nodup_nil
  | @cons k rest hrest ih =>
    refine List.nodup_cons.2 ⟨fun hmem => ?_, ih⟩
    obtain ⟨before, after, rfl⟩ := List.append_of_mem hmem
    have hsame := congrArg List.length (hrest.of_split.unique (.cons hrest))
    simp only [List.length_cons, List.length_append] at hsame
    omega

/-- Every handle but the last names a node. -/
theorem lt_size (h : a.Chain l start ks) : ∀ k ∈ ks.dropLast, k < a.size := by
  induction h with
  | nil => exact fun k hk => absurd hk List.not_mem_nil
  | @cons k rest hrest ih =>
    cases hlink : a.link l k with
    | none =>
      rw [hlink] at hrest
      cases hrest
      exact fun k hk => absurd hk List.not_mem_nil
    | some k' =>
      rw [hlink] at hrest
      cases hrest with
      | cons _ =>
        rw [List.dropLast_cons_cons]
        exact List.forall_mem_cons.2 ⟨lt_size_of_link hlink, ih⟩

theorem length_le (h : a.Chain l start ks) : ks.length ≤ a.size + 1 := by
  have hnodup : ks.dropLast.Nodup := h.nodup.sublist (List.dropLast_sublist ks)
  have hsubset : ks.dropLast ⊆ List.range a.size :=
    fun k hk => List.mem_range.2 (h.lt_size k hk)
  have hle := (List.subperm_of_subset hnodup hsubset).length_le
  rw [List.length_dropLast, List.length_range] at hle
  omega

end Chain

theorem chain_of_chainUpTo {a : Arena} {l : Link} {bound : Nat} {start : Option Nat} {ks : List Nat}
    (h : a.chainUpTo l bound start = some ks) : a.Chain l start ks := by
  induction bound generalizing start ks with
  | zero =>
    cases start with
    | none => exact Option.some.inj h ▸ .nil
    | some k => cases h
  | succ bound ih =>
    cases start with
    | none => exact Option.some.inj h ▸ .nil
    | some k =>
      obtain ⟨rest, hrest, heq⟩ := Option.bind_eq_some_iff.1 h
      exact Option.some.inj heq ▸ .cons (ih hrest)

theorem Chain.chainUpTo_eq {a : Arena} {l : Link} {start : Option Nat} {ks : List Nat}
    (h : a.Chain l start ks) {bound : Nat} (hbound : ks.length ≤ bound) :
    a.chainUpTo l bound start = some ks := by
  induction h generalizing bound with
  | nil => cases bound <;> rfl
  | cons _ ih =>
    obtain ⟨bound, rfl⟩ := Nat.exists_eq_add_of_le' (Nat.lt_of_lt_of_le (Nat.succ_pos _) hbound)
    rw [chainUpTo, ih (Nat.le_of_succ_le_succ hbound)]
    rfl

/-- What is found by following links up to the bound is what the links lead to: a chain that ends is
found, however long it is. -/
theorem chain_eq_some_iff {a : Arena} {l : Link} {start : Option Nat} {ks : List Nat} :
    a.chain l start = some ks ↔ a.Chain l start ks :=
  ⟨chain_of_chainUpTo, fun h => h.chainUpTo_eq h.length_le⟩

/-! ## What the links mean -/

/-- To every handle belongs a list of children, and the links are those of the lists. -/
structure Linked (a : Arena) (kids : Nat → List Nat) : Prop where
  first : ∀ h, a.link .first h = (kids h).head?
  last : ∀ h, a.link .last h = (kids h).getLast?
  parent : ∀ k h, a.link .parent k = some h ↔ k ∈ kids h
  next : ∀ h l k r, kids h = l ++ k :: r → a.link .next k = r.head?
  previous : ∀ h l k r, kids h = l ++ k :: r → a.link .previous k = l.getLast?
  loose : ∀ k, a.link .parent k = none → a.link .next k = none ∧ a.link .previous k = none
  nodup : ∀ h, (kids h).Nodup
  grounded : WellFounded a.IsParent

namespace Linked

variable {a a' : Arena} {kids : Nat → List Nat}

theorem child_lt (hk : a.Linked kids) {h k : Nat} (hmem : k ∈ kids h) : k < a.size :=
  lt_size_of_link ((hk.parent k h).2 hmem)

theorem parent_lt (hk : a.Linked kids) {h k : Nat} (hmem : k ∈ kids h) : h < a.size := by
  cases hkids : kids h with
  | nil =>
    rw [hkids] at hmem
    exact absurd hmem List.not_mem_nil
  | cons x xs =>
    refine lt_size_of_link (l := .first) (k := x) ?_
    rw [hk.first, hkids]
    rfl

/-- What is not there has no children. -/
theorem eq_nil_of_size_le (hk : a.Linked kids) {h : Nat} (hh : a.size ≤ h) : kids h = [] :=
  List.eq_nil_iff_forall_not_mem.2 fun _ hmem => Nat.not_lt_of_le hh (hk.parent_lt hmem)

/-- No node has two parents. -/
theorem parent_unique (hk : a.Linked kids) {h h' k : Nat} (hmem : k ∈ kids h)
    (hmem' : k ∈ kids h') : h = h' := by
  have := (hk.parent k h).2 hmem
  rw [(hk.parent k h').2 hmem'] at this
  exact (Option.some.inj this).symm

/-- Only the links matter. -/
theorem congr (hk : a.Linked kids) (hlink : ∀ l h, a'.link l h = a.link l h) : a'.Linked kids where
  first h := by rw [hlink, hk.first]
  last h := by rw [hlink, hk.last]
  parent k h := by rw [hlink, hk.parent]
  next h l k r hsplit := by rw [hlink, hk.next h l k r hsplit]
  previous h l k r hsplit := by rw [hlink, hk.previous h l k r hsplit]
  loose k hnone := by
    rw [hlink] at hnone
    rw [hlink, hlink]
    exact hk.loose k hnone
  nodup := hk.nodup
  grounded := by
    have hsame : a'.IsParent = a.IsParent := by
      funext p k
      unfold IsParent
      rw [hlink]
    rw [hsame]
    exact hk.grounded

/-! ## Lists of children -/

/-- The links to the next sibling from inside a list of children lead through the rest of it. -/
theorem chain_next (hk : a.Linked kids) {h : Nat} {l r : List Nat} (hsplit : kids h = l ++ r) :
    a.Chain .next r.head? r := by
  induction r generalizing l with
  | nil => exact .nil
  | cons k r ih =>
    have hrest := ih (l := l ++ [k]) (by rw [hsplit, List.append_assoc]; rfl)
    rw [← hk.next h l k r hsplit] at hrest
    exact .cons hrest

/-- The links to the previous sibling lead through what stands before, backwards. -/
theorem chain_previous (hk : a.Linked kids) {h : Nat} {l r : List Nat}
    (hsplit : kids h = l ++ r) : a.Chain .previous l.getLast? l.reverse := by
  induction l using List.reverseRecOn generalizing r with
  | nil => exact .nil
  | append_singleton l k ih =>
    rw [List.append_assoc] at hsplit
    have hrest := ih hsplit
    rw [← hk.previous h l k r hsplit] at hrest
    rw [List.getLast?_concat, List.reverse_concat]
    exact .cons hrest

theorem children (hk : a.Linked kids) (h : Nat) : a.children h = some (kids h) := by
  unfold Arena.children
  rw [hk.first]
  exact chain_eq_some_iff.2 (hk.chain_next (l := []) rfl)

/-- No node is above itself. -/
theorem acyclic (hk : a.Linked kids) (h : Nat) : ¬ Relation.TransGen a.IsParent h h :=
  fun hloop => hk.grounded.transGen.irrefl.irrefl h hloop

end Linked

/-! ## New nodes -/

theorem linked_empty (d : Declaration) : Linked { empty with declaration := d } fun _ => [] := by
  have hnone : ∀ l h, link { empty with declaration := d } l h = none := by
    intro l h
    cases h with
    | zero => exact Entry.link_loose _ l
    | succ h => rfl
  have hsplits : ∀ (l : List Nat) k r, [] ≠ l ++ k :: r := by simp
  refine ⟨hnone .first, hnone .last, fun k h => ⟨fun hp => ?_, fun hmem => ?_⟩, ?_, ?_,
    fun k _ => ⟨hnone .next k, hnone .previous k⟩, fun _ => List.nodup_nil, ⟨fun k => ⟨k, ?_⟩⟩⟩
  · rw [hnone] at hp
    cases hp
  · exact absurd hmem List.not_mem_nil
  · exact fun _ l k r hsplit => absurd hsplit (hsplits l k r)
  · exact fun _ l k r hsplit => absurd hsplit (hsplits l k r)
  · intro p hp
    unfold IsParent at hp
    rw [hnone] at hp
    cases hp

@[simp] theorem size_create (a : Arena) (c : Content) : (a.create c).1.size = a.size + 1 := by
  unfold create size
  exact Array.size_push _

@[simp] theorem link_create (a : Arena) (c : Content) (l : Link) (h : Nat) :
    (a.create c).1.link l h = a.link l h := by
  unfold create link
  rw [Array.getElem?_push]
  split
  next heq =>
    rw [heq, Array.getElem?_eq_none (Nat.le_refl _), Option.bind_some, Entry.link_loose]
    rfl
  next => rfl

theorem Linked.create {a : Arena} {kids : Nat → List Nat} (hk : a.Linked kids) (c : Content) :
    (a.create c).1.Linked kids :=
  hk.congr (link_create a c)

/-! ## Places in a list -/

/-- A member of two joined lists is in the first or in the second. -/
theorem split_append {α : Type} {l r before after : List α} {x : α}
    (h : l ++ r = before ++ x :: after) :
    (∃ m, l = before ++ x :: m ∧ after = m ++ r) ∨ ∃ m, before = l ++ m ∧ r = m ++ x :: after := by
  rcases List.append_eq_append_iff.1 h with ⟨m, rfl, hr⟩ | ⟨m, rfl, hr⟩
  · exact .inr ⟨m, rfl, hr⟩
  · cases m with
    | nil => exact .inr ⟨[], (List.append_nil _).symm ▸ by simp, hr.symm⟩
    | cons y m =>
      obtain ⟨rfl, rfl⟩ := List.cons.inj hr
      exact .inl ⟨m, rfl, rfl⟩

/-- The last of a list without repetition has nothing after it. -/
theorem getLast?_split_iff {α : Type} {before after : List α} {x : α}
    (h : (before ++ x :: after).Nodup) :
    (before ++ x :: after).getLast? = some x ↔ after = [] := by
  constructor
  · intro hlast
    cases after with
    | nil => rfl
    | cons y after =>
      rw [List.getLast?_append_cons, List.getLast?_cons_cons] at hlast
      have hx : x ∉ y :: after := (List.nodup_cons.1 (List.nodup_append.1 h).2.1).1
      exact absurd (List.mem_of_getLast? hlast) hx
  · rintro rfl
    exact List.getLast?_concat

/-- The first of a list without repetition has nothing before it. -/
theorem head?_split_iff {α : Type} {before after : List α} {x : α}
    (h : (before ++ x :: after).Nodup) : (before ++ x :: after).head? = some x ↔ before = [] := by
  constructor
  · intro hhead
    cases before with
    | nil => rfl
    | cons y before =>
      obtain rfl := Option.some.inj hhead
      exact absurd (List.mem_append_right before List.mem_cons_self) (List.nodup_cons.1 h).1
  · rintro rfl
    rfl

/-! ## Appending -/

/-- The links that appending a node sets: below the parent it comes after the children so far. -/
structure Appended (a a' : Arena) (p c : Nat) (before : List Nat) : Prop where
  parent : ∀ h, a'.link .parent h = if h = c then some p else a.link .parent h
  first : ∀ h, a'.link .first h = if h = p then (before ++ [c]).head? else a.link .first h
  last : ∀ h, a'.link .last h = if h = p then some c else a.link .last h
  next : ∀ h, a'.link .next h = if before.getLast? = some h then some c else a.link .next h
  previous : ∀ h, a'.link .previous h = if h = c then before.getLast? else a.link .previous h

namespace Linked

variable {a a' : Arena} {kids : Nat → List Nat} {p c k : Nat}

theorem not_mem_of_loose (hk : a.Linked kids) (hfree : a.link .parent c = none) (h : Nat) :
    c ∉ kids h := by
  intro hmem
  rw [(hk.parent c h).2 hmem] at hfree
  cases hfree

theorem appended (hk : a.Linked kids) (hp : p < a.size) (hc : c < a.size)
    (hfree : a.link .parent c = none) : a.Appended (a.appendChild p c) p c (kids p) := by
  have hlast : (a.setLink .parent c (some p)).link .last p = (kids p).getLast? := by
    rw [link_setLink hc, if_neg (by simp), hk.last]
  unfold appendChild
  dsimp only
  rw [hlast]
  rcases List.eq_nil_or_concat' (kids p) with hnil | ⟨before, k, hconcat⟩
  · -- the first child has no previous sibling, and had none before
    have hprevious : ∀ h, h = c → a.link .previous h = none :=
      fun h heq => heq ▸ (hk.loose c hfree).2
    rw [hnil]
    constructor <;> intro h <;> simp [link_setLink, hp, hc]
    exact hprevious h
  · have hmem : k ∈ kids p := by
      rw [hconcat]
      exact List.mem_append_right before List.mem_cons_self
    have hklt := hk.child_lt hmem
    have hfirst : ∀ h, h = p → a.link .first h = some (before.head?.getD k) := by
      rintro h rfl
      rw [hk.first, hconcat]
      cases before <;> rfl
    rw [hconcat]
    constructor <;> intro h <;> simp [link_setLink, hp, hc, hklt, eq_comm (a := k)]
    exact hfirst h

theorem next_of_appended (hk : a.Linked kids) (h : a.Appended a' p c (kids p))
    (hfree : a.link .parent c = none) {l r : List Nat} (hsplit : kids p ++ [c] = l ++ k :: r) :
    a'.link .next k = r.head? := by
  rw [h.next]
  rcases split_append hsplit with ⟨m, hm, rfl⟩ | ⟨m, rfl, hm⟩
  · have hlast := getLast?_split_iff (hm ▸ hk.nodup p)
    rw [← hm] at hlast
    cases m with
    | nil =>
      rw [if_pos (hlast.2 rfl)]
      rfl
    | cons y m =>
      rw [if_neg fun hsome => List.cons_ne_nil y m (hlast.1 hsome), hk.next p l k (y :: m) hm]
      rfl
  · obtain ⟨rfl, rfl, rfl⟩ : m = [] ∧ c = k ∧ r = [] := by
      cases m <;> simp_all
    have hnew := hk.not_mem_of_loose hfree p
    rw [if_neg fun hlast => hnew (List.mem_of_getLast? hlast), (hk.loose c hfree).1]
    rfl

theorem previous_of_appended (hk : a.Linked kids) (h : a.Appended a' p c (kids p))
    (hfree : a.link .parent c = none) {l r : List Nat} (hsplit : kids p ++ [c] = l ++ k :: r) :
    a'.link .previous k = l.getLast? := by
  rw [h.previous]
  rcases split_append hsplit with ⟨m, hm, rfl⟩ | ⟨m, rfl, hm⟩
  · have hmem : k ∈ kids p := hm ▸ List.mem_append_right l List.mem_cons_self
    rw [if_neg (ne_of_mem_of_not_mem hmem (hk.not_mem_of_loose hfree p)), hk.previous p l k m hm]
  · obtain ⟨rfl, rfl, rfl⟩ : m = [] ∧ c = k ∧ r = [] := by
      cases m <;> simp_all
    rw [if_pos rfl, List.append_nil]

theorem parent_of_appended (hk : a.Linked kids) (h : a.Appended a' p c (kids p))
    (hfree : a.link .parent c = none) (k x : Nat) :
    a'.link .parent k = some x ↔ k ∈ Function.update kids p (kids p ++ [c]) x := by
  rw [h.parent]
  by_cases hkc : k = c
  · by_cases hx : x = p
    · simp [hkc, hx]
    · simp [hkc, hx, hk.not_mem_of_loose hfree x, Ne.symm hx]
  · rw [if_neg hkc, hk.parent]
    by_cases hx : x = p
    · simp [hx, hkc]
    · simp [hx]

/-- What hangs nowhere after a node was appended is another node, and hung nowhere before. -/
theorem loose_of_appended (hk : a.Linked kids) (h : a.Appended a' p c (kids p))
    (hnone : a'.link .parent k = none) : a'.link .next k = none ∧ a'.link .previous k = none := by
  rw [h.parent] at hnone
  have hother : k ≠ c := by
    intro heq
    rw [if_pos heq] at hnone
    cases hnone
  rw [if_neg hother] at hnone
  have hlast : (kids p).getLast? ≠ some k :=
    fun hlast => hk.not_mem_of_loose hnone p (List.mem_of_getLast? hlast)
  rw [h.next, h.previous, if_neg hother, if_neg hlast]
  exact hk.loose k hnone

/-- Appending below a node that is not below what is appended makes no loop. -/
theorem grounded_of_appended (hk : a.Linked kids) (h : a.Appended a' p c (kids p))
    (hfree : a.link .parent c = none) (habove : ¬ Relation.ReflTransGen a.IsParent c p) :
    WellFounded a'.IsParent := by
  have hparent : ∀ {x k}, a'.IsParent x k → a.IsParent x k ∨ x = p ∧ k = c := by
    intro x k hx
    unfold IsParent at hx
    rw [h.parent] at hx
    split at hx
    next heq => exact .inr ⟨(Option.some.inj hx).symm, heq⟩
    next => exact .inl hx
  -- what is not below the new child has the ancestors it had
  have haway : ∀ k, ¬ Relation.ReflTransGen a.IsParent c k → Acc a'.IsParent k := by
    intro k
    induction k using hk.grounded.induction with
    | _ k ih =>
      refine fun hk => ⟨k, fun x hx => ?_⟩
      rcases hparent hx with hx | ⟨-, rfl⟩
      · exact ih x hx fun hc => hk (hc.tail hx)
      · exact absurd .refl hk
  have hchild : Acc a'.IsParent c := by
    refine ⟨c, fun x hx => ?_⟩
    rcases hparent hx with hx | ⟨rfl, -⟩
    · unfold IsParent at hx
      rw [hfree] at hx
      cases hx
    · exact haway x habove
  refine ⟨fun k => ?_⟩
  induction k using hk.grounded.induction with
  | _ k ih =>
    refine ⟨k, fun x hx => ?_⟩
    rcases hparent hx with hx' | ⟨-, rfl⟩
    · exact ih x hx'
    · exact hchild.inv hx

/-- Appending a node adds it last to the list of its new parent. -/
theorem of_appended (hk : a.Linked kids) (h : a.Appended a' p c (kids p))
    (hfree : a.link .parent c = none) (habove : ¬ Relation.ReflTransGen a.IsParent c p) :
    a'.Linked (Function.update kids p (kids p ++ [c])) := by
  have hnew := hk.not_mem_of_loose hfree
  refine ⟨fun x => ?_, fun x => ?_, hk.parent_of_appended h hfree, fun x l k r hsplit => ?_,
    fun x l k r hsplit => ?_, fun k hnone => hk.loose_of_appended h hnone, fun x => ?_,
    hk.grounded_of_appended h hfree habove⟩
  · rw [h.first]
    by_cases hx : x = p
    · rw [if_pos hx, hx, Function.update_self]
    · rw [if_neg hx, Function.update_of_ne hx, hk.first]
  · rw [h.last]
    by_cases hx : x = p
    · rw [if_pos hx, hx, Function.update_self, List.getLast?_concat]
    · rw [if_neg hx, Function.update_of_ne hx, hk.last]
  · by_cases hx : x = p
    · rw [hx, Function.update_self] at hsplit
      exact hk.next_of_appended h hfree hsplit
    · rw [Function.update_of_ne hx] at hsplit
      have hmem : k ∈ kids x := hsplit ▸ List.mem_append_right l List.mem_cons_self
      rw [h.next, hk.next x l k r hsplit,
        if_neg fun hlast => hx (hk.parent_unique hmem (List.mem_of_getLast? hlast))]
  · by_cases hx : x = p
    · rw [hx, Function.update_self] at hsplit
      exact hk.previous_of_appended h hfree hsplit
    · rw [Function.update_of_ne hx] at hsplit
      have hmem : k ∈ kids x := hsplit ▸ List.mem_append_right l List.mem_cons_self
      rw [h.previous, if_neg (ne_of_mem_of_not_mem hmem (hnew x)), hk.previous x l k r hsplit]
  · by_cases hx : x = p
    · rw [hx, Function.update_self, ← List.concat_eq_append]
      exact (hk.nodup p).concat (hnew p)
    · rw [Function.update_of_ne hx]
      exact hk.nodup x

theorem appendChild (hk : a.Linked kids) (hp : p < a.size) (hc : c < a.size)
    (hfree : a.link .parent c = none) (habove : ¬ Relation.ReflTransGen a.IsParent c p) :
    (a.appendChild p c).Linked (Function.update kids p (kids p ++ [c])) :=
  hk.of_appended (hk.appended hp hc hfree) hfree habove

end Linked

/-! ## Detaching -/

/-- The links that detaching a child sets: what stood before it and what stood after it stand side
by side. -/
structure Detached (a a' : Arena) (p k : Nat) (before after : List Nat) : Prop where
  parent : ∀ h, a'.link .parent h = if h = k then none else a.link .parent h
  first : ∀ h, a'.link .first h = if h = p then (before ++ after).head? else a.link .first h
  last : ∀ h, a'.link .last h = if h = p then (before ++ after).getLast? else a.link .last h
  next : ∀ h, a'.link .next h =
    if h = k then none else if before.getLast? = some h then after.head? else a.link .next h
  previous : ∀ h, a'.link .previous h =
    if h = k then none else if after.head? = some h then before.getLast? else a.link .previous h

namespace Linked

variable {a a' : Arena} {kids : Nat → List Nat} {p k : Nat} {before after : List Nat}

theorem detached (hk : a.Linked kids) (hsplit : kids p = before ++ k :: after) :
    a.Detached (a.detach k) p k before after := by
  have hmem : k ∈ kids p := hsplit ▸ List.mem_append_right before List.mem_cons_self
  have hp := hk.parent_lt hmem
  have hklt := hk.child_lt hmem
  have hfirst : ∀ h, h = p → a.link .first h = (before ++ k :: after).head? := by
    rintro h rfl
    rw [hk.first, hsplit]
  have hlast : ∀ h, h = p → a.link .last h = (before ++ k :: after).getLast? := by
    rintro h rfl
    rw [hk.last, hsplit]
  unfold detach
  rw [(hk.parent k p).2 hmem, hk.previous p before k after hsplit, hk.next p before k after hsplit]
  dsimp only
  -- the sibling on each side takes the link over, or the parent does where there is none
  rcases List.eq_nil_or_concat' before with rfl | ⟨before, x, rfl⟩
  · cases after with
    | nil => constructor <;> intro h <;> simp [link_setLink, hp, hklt]
    | cons y after =>
      have hy : y < a.size := hk.child_lt (h := p) (by simp [hsplit])
      constructor <;> intro h <;> simp [link_setLink, hp, hklt, hy, eq_comm (a := y)]
      exact fun heq => (hlast h heq).trans (by simp)
  · have hx : x < a.size := hk.child_lt (h := p) (by simp [hsplit])
    cases after with
    | nil =>
      constructor <;> intro h <;> simp [link_setLink, hp, hklt, hx, eq_comm (a := x)]
      exact fun heq => (hfirst h heq).trans (by simp)
    | cons y after =>
      have hy : y < a.size := hk.child_lt (h := p) (by simp [hsplit])
      constructor <;> intro h <;>
        simp [link_setLink, hklt, hx, hy, eq_comm (a := x), eq_comm (a := y)]
      · exact fun heq => (hfirst h heq).trans (by simp)
      · exact fun heq => (hlast h heq).trans (by simp)

theorem next_of_detached (hk : a.Linked kids) (h : a.Detached a' p k before after)
    (hsplit : kids p = before ++ k :: after) {l r : List Nat} {c : Nat} (hck : c ≠ k)
    (hc : before ++ after = l ++ c :: r) : a'.link .next c = r.head? := by
  have hnodup := hk.nodup p
  rw [hsplit] at hnodup
  rw [h.next, if_neg hck]
  rcases split_append hc with ⟨m, rfl, rfl⟩ | ⟨m, rfl, rfl⟩
  · have hlast := getLast?_split_iff (List.nodup_append.1 hnodup).1
    cases m with
    | nil =>
      rw [if_pos (hlast.2 rfl)]
      rfl
    | cons y m =>
      rw [if_neg fun hsome => List.cons_ne_nil y m (hlast.1 hsome),
        hk.next p l c (y :: m ++ k :: after) (by simp [hsplit])]
      rfl
  · have hlast : before.getLast? ≠ some c := fun hlast =>
      (List.nodup_append.1 hnodup).2.2 c (List.mem_of_getLast? hlast) c (by simp) rfl
    rw [if_neg hlast, hk.next p (before ++ k :: m) c r (by simp [hsplit])]

theorem previous_of_detached (hk : a.Linked kids) (h : a.Detached a' p k before after)
    (hsplit : kids p = before ++ k :: after) {l r : List Nat} {c : Nat} (hck : c ≠ k)
    (hc : before ++ after = l ++ c :: r) : a'.link .previous c = l.getLast? := by
  have hnodup := hk.nodup p
  rw [hsplit] at hnodup
  rw [h.previous, if_neg hck]
  rcases split_append hc with ⟨m, rfl, rfl⟩ | ⟨m, rfl, rfl⟩
  · have hhead : after.head? ≠ some c := fun hhead =>
      (List.nodup_append.1 hnodup).2.2 c (by simp) c
        (List.mem_cons_of_mem k (List.mem_of_mem_head? hhead)) rfl
    rw [if_neg hhead, hk.previous p l c (m ++ k :: after) (by simp [hsplit])]
  · have hhead := head?_split_iff (List.nodup_cons.1 (List.nodup_append.1 hnodup).2.1).2
    cases m with
    | nil => rw [if_pos (hhead.2 rfl), List.append_nil]
    | cons y m =>
      rw [if_neg fun hsome => List.cons_ne_nil y m (hhead.1 hsome),
        hk.previous p (before ++ k :: y :: m) c r (by simp [hsplit])]
      simp

/-- What hangs nowhere after a child was detached is the child, or hung nowhere before. -/
theorem loose_of_detached (hk : a.Linked kids) (h : a.Detached a' p k before after)
    (hsplit : kids p = before ++ k :: after) {c : Nat} (hnone : a'.link .parent c = none) :
    a'.link .next c = none ∧ a'.link .previous c = none := by
  rw [h.parent] at hnone
  rw [h.next, h.previous]
  by_cases hck : c = k
  · rw [if_pos hck, if_pos hck]
    exact ⟨rfl, rfl⟩
  · rw [if_neg hck] at hnone
    have hnew := hk.not_mem_of_loose hnone p
    rw [hsplit] at hnew
    have hlast : before.getLast? ≠ some c :=
      fun hlast => hnew (List.mem_append_left _ (List.mem_of_getLast? hlast))
    have hhead : after.head? ≠ some c := fun hhead =>
      hnew (List.mem_append_right _ (List.mem_cons_of_mem k (List.mem_of_mem_head? hhead)))
    rw [if_neg hck, if_neg hck, if_neg hlast, if_neg hhead]
    exact hk.loose c hnone

/-- A child is taken out of one list only. -/
theorem erase_child (hk : a.Linked kids) (hsplit : kids p = before ++ k :: after) (x : Nat) :
    (kids x).erase k = if x = p then before ++ after else kids x := by
  split
  next hx =>
    have hbefore : k ∉ before := fun hin =>
      (List.nodup_append.1 (hsplit ▸ hk.nodup p)).2.2 k hin k List.mem_cons_self rfl
    rw [hx, hsplit, List.erase_append_right _ hbefore, List.erase_cons_head]
  next hx =>
    have hmem : k ∈ kids p := hsplit ▸ List.mem_append_right before List.mem_cons_self
    exact List.erase_of_not_mem fun hin => hx (hk.parent_unique hin hmem)

/-- Detaching a child takes it out of the list that it was in. -/
theorem of_detached (hk : a.Linked kids) (h : a.Detached a' p k before after)
    (hsplit : kids p = before ++ k :: after) : a'.Linked fun x => (kids x).erase k := by
  have hkept : ∀ {x l c r}, (kids x).erase k = l ++ c :: r → c ≠ k := by
    rintro x l c r hc rfl
    exact (hk.nodup x).not_mem_erase (hc ▸ List.mem_append_right l List.mem_cons_self)
  refine ⟨fun x => ?_, fun x => ?_, fun c x => ?_, fun x l c r hc => ?_, fun x l c r hc => ?_,
    fun c hnone => hk.loose_of_detached h hsplit hnone, fun x => (hk.nodup x).erase k, ?_⟩
  · rw [h.first, hk.erase_child hsplit, hk.first]
    split <;> rfl
  · rw [h.last, hk.erase_child hsplit, hk.last]
    split <;> rfl
  · rw [h.parent, (hk.nodup x).mem_erase_iff, ← hk.parent]
    by_cases hc : c = k
    · simp [hc]
    · simp [hc]
  · have hck := hkept hc
    rw [hk.erase_child hsplit] at hc
    by_cases hx : x = p
    · rw [if_pos hx] at hc
      exact hk.next_of_detached h hsplit hck hc
    · rw [if_neg hx] at hc
      have hin : c ∈ kids x := hc ▸ List.mem_append_right l List.mem_cons_self
      have hlast : before.getLast? ≠ some c := fun hlast => hx (hk.parent_unique hin
        (hsplit ▸ List.mem_append_left _ (List.mem_of_getLast? hlast)))
      rw [h.next, if_neg hck, if_neg hlast, hk.next x l c r hc]
  · have hck := hkept hc
    rw [hk.erase_child hsplit] at hc
    by_cases hx : x = p
    · rw [if_pos hx] at hc
      exact hk.previous_of_detached h hsplit hck hc
    · rw [if_neg hx] at hc
      have hin : c ∈ kids x := hc ▸ List.mem_append_right l List.mem_cons_self
      have hhead : after.head? ≠ some c := fun hhead => hx (hk.parent_unique hin
        (hsplit ▸ List.mem_append_right _ (List.mem_cons_of_mem k (List.mem_of_mem_head? hhead))))
      rw [h.previous, if_neg hck, if_neg hhead, hk.previous x l c r hc]
  · refine Subrelation.wf (fun {x y} hxy => ?_) hk.grounded
    unfold IsParent at hxy ⊢
    rw [h.parent] at hxy
    split at hxy
    next => cases hxy
    next => exact hxy

theorem detach (hk : a.Linked kids) (k : Nat) : (a.detach k).Linked fun x => (kids x).erase k := by
  cases hparent : a.link .parent k with
  | none =>
    have hkept : ∀ x, (kids x).erase k = kids x :=
      fun x => List.erase_of_not_mem (hk.not_mem_of_loose hparent x)
    rw [show a.detach k = a by unfold Arena.detach; rw [hparent]]
    simp only [hkept]
    exact hk
  | some p =>
    obtain ⟨before, after, hsplit⟩ := List.append_of_mem ((hk.parent k p).1 hparent)
    exact hk.of_detached (hk.detached hsplit) hsplit

end Linked

end Arena
end MarkupFields
