import MarkupFields.Proofs.Field.Unprefixed
import MarkupFields.Proofs.Tree.Walk
import MarkupFields.Proofs.Writer.Declaring

/-
  The attributes of an element while it is written to. Regular attributes and declarations share one
  list. No two regular attributes of a parsed element have one key, and no prefix is declared twice on
  it (`Attribute.Apart`). Setting an attribute and declaring a prefix keep that, in whatever order
  they come (`Document.Tended.keeps_apart`). So what is found for a key is what was set last for it
  (`find?_setEach`), and attributes with different keys may be set in any order.

  That order does show in the list, where an attribute that is new comes last and one that is set
  again keeps its place. An attribute in no namespace that is named like a prefix has nothing to do
  with the declaration of that prefix.
-/

namespace MarkupFields

open Document (hasHandle)

namespace Attribute

/-! ## Attributes that are told apart -/

/-- No two regular attributes have one key, and no prefix is declared twice. -/
structure Apart (as : List Attribute) : Prop where
  keys : (keys as).Nodup
  prefixes : ((declarations as).map Prod.fst).Nodup

/-- An attribute stands where the one with its key stood, or behind all others if none had it. -/
inductive SetIn (a : Attribute) : List Attribute → List Attribute → Prop
  | inPlace (before : List Attribute) {b : Attribute} (after : List Attribute)
      (regular : b.isDeclaration = false) (same : b.key = a.key) :
      SetIn a (before ++ b :: after) (before ++ a :: after)
  | last {as : List Attribute} (free : a.key ∉ keys as) : SetIn a as (as ++ [a])

/-- A prefix that was not declared is declared behind the last declaration, or before all attributes
if there was none. -/
structure DeclaredIn (nsPrefix uri : String) (as as' : List Attribute) : Prop where
  free : nsPrefix ∉ (declarations as).map Prod.fst
  placed : ∃ front rest, SplitBehindLast as front rest ∧
    as' = front ++ declaration nsPrefix uri :: rest

theorem Apart.nil : Apart [] :=
  ⟨.nil, .nil⟩

theorem Apart.set {a : Attribute} (ha : a.isDeclaration = false) {as : List Attribute}
    (h : Apart as) : Apart (a.set as) := by
  refine ⟨nodup_keys_set ha h.keys, ?_⟩
  rw [declarations_set ha]
  exact h.prefixes

theorem Apart.declare? {p uri : String} {as bs : List Attribute} (h : Apart as)
    (hbs : declare? p uri as = some bs) : Apart bs := by
  obtain ⟨hfree, hprefixes⟩ := prefixes_declare? hbs
  constructor
  · have hkeys : Attribute.keys bs = Attribute.keys as := by
      unfold Attribute.keys
      rw [declare?_eq_some hbs, filter_insertDeclaration]
    rw [hkeys]
    exact h.keys
  · rw [hprefixes, ← List.concat_eq_append]
    exact h.prefixes.concat hfree

/-- The attributes of an element that opens are told apart. -/
theorem Apart.of_meant {s : Scope} {as : List Attribute} (h : AttributesMeant s as) : Apart as := by
  refine ⟨h.distinct, ?_⟩
  rw [prefixes_declarations]
  exact h.prefixes

/-- What stands before all others with another key, or is a declaration, stays where it is. -/
theorem SetIn.cons {a b : Attribute} {as as' : List Attribute} (hb : ¬ hasKey a.key b = true)
    (h : SetIn a as as') : SetIn a (b :: as) (b :: as') := by
  cases h with
  | inPlace before after regular same => exact .inPlace (b :: before) after regular same
  | last free =>
    refine .last fun hmem => ?_
    cases hdeclaration : b.isDeclaration with
    | true => exact free (keys_cons_of_declaration hdeclaration as ▸ hmem)
    | false =>
      rw [keys_cons_of_regular hdeclaration, List.mem_cons] at hmem
      exact hmem.elim (fun hkey => hb (hasKey_iff.2 ⟨hdeclaration, hkey.symm⟩)) free

/-- The attribute takes the place of the first with its key. -/
theorem setIn_set (a : Attribute) (as : List Attribute) : SetIn a as (a.set as) := by
  induction as with
  | nil => exact .last List.not_mem_nil
  | cons b bs ih =>
    rw [set_cons]
    split
    · rename_i hb
      obtain ⟨hregular, hkey⟩ := hasKey_iff.1 hb
      exact .inPlace [] bs hregular hkey
    · rename_i hb
      exact ih.cons hb

theorem declaredIn_of_declare? {p uri : String} {as bs : List Attribute}
    (h : declare? p uri as = some bs) : DeclaredIn p uri as bs := by
  obtain ⟨front, rest, hsplit⟩ := exists_splitBehindLast as
  refine ⟨(prefixes_declare? h).1, front, rest, hsplit, ?_⟩
  rw [declare?_eq_some h, insertDeclaration_of_split hsplit]

/-! ## Attributes that are set one after the other -/

/-- Sets attributes one after the other. -/
def setEach (xs as : List Attribute) : List Attribute :=
  xs.foldl (fun as a => a.set as) as

/-- For a key there is what was set last for it, or what there was before. -/
theorem find?_setEach {xs : List Attribute} (hxs : ∀ x ∈ xs, x.isDeclaration = false)
    (as : List Attribute) (k : String × Option String) :
    (setEach xs as).find? (hasKey k) = (xs.reverse.find? (hasKey k)).or (as.find? (hasKey k)) := by
  induction xs generalizing as with
  | nil => rfl
  | cons x xs ih =>
    obtain ⟨hx, hrest⟩ := List.forall_mem_cons.1 hxs
    show (setEach xs (x.set as)).find? (hasKey k) = _
    rw [ih hrest, List.reverse_cons, List.find?_append, Option.or_assoc]
    congr 1
    by_cases hk : k = x.key
    · subst hk
      rw [find?_set hx, List.find?_cons_of_pos (hasKey_iff.2 ⟨hx, rfl⟩)]
      rfl
    · have hne : ¬ hasKey k x = true := fun h => hk (hasKey_iff.1 h).2.symm
      rw [find?_set_of_ne hk, List.find?_cons_of_neg hne]
      rfl

/-- Among attributes with different keys the one with a key is found in any order. -/
theorem find?_eq_some_iff_of_nodup {xs : List Attribute} (hnodup : (xs.map key).Nodup)
    {k : String × Option String} {a : Attribute} :
    xs.find? (hasKey k) = some a ↔ a ∈ xs ∧ hasKey k a = true := by
  constructor
  · exact fun h => ⟨List.mem_of_find?_eq_some h, List.find?_some h⟩
  · rintro ⟨hmem, ha⟩
    cases hfind : xs.find? (hasKey k) with
    | none => exact absurd ha (List.find?_eq_none.1 hfind a hmem)
    | some b =>
      have hkey : b.key = a.key :=
        (hasKey_iff.1 (List.find?_some hfind)).2.trans (hasKey_iff.1 ha).2.symm
      rw [List.inj_on_of_nodup_map hnodup (List.mem_of_find?_eq_some hfind) hmem hkey]

/-- Attributes with different keys may be set in any order. -/
theorem find?_setEach_perm {xs ys : List Attribute} (hperm : xs.Perm ys)
    (hnodup : (xs.map key).Nodup) (hxs : ∀ x ∈ xs, x.isDeclaration = false)
    (as : List Attribute) (k : String × Option String) :
    (setEach xs as).find? (hasKey k) = (setEach ys as).find? (hasKey k) := by
  have hreverse : ∀ {zs : List Attribute}, zs.Perm xs →
      (zs.reverse.find? (hasKey k)) = xs.find? (hasKey k) := by
    intro zs hzs
    have hzs' : zs.reverse.Perm xs := (List.reverse_perm zs).trans hzs
    have hnodup' : (zs.reverse.map key).Nodup := (hzs'.map key).nodup_iff.2 hnodup
    refine Option.ext fun a => ?_
    rw [find?_eq_some_iff_of_nodup hnodup, find?_eq_some_iff_of_nodup hnodup', hzs'.mem_iff]
  rw [find?_setEach hxs, find?_setEach fun y hy => hxs y (hperm.mem_iff.2 hy),
    hreverse (.refl xs), hreverse hperm.symm]

end Attribute

/-! ## Elements of a document -/

namespace Forest

/-- What is found stands in the forest. -/
theorem mem_preorder_of_find? {α : Type} {p : α → Bool} {f : Forest α} {t : α × Forest α}
    (h : f.find? p = some t) : t.1 ∈ f.preorder := by
  induction f with
  | nil => cases h
  | cons a below beside ihb ihs =>
    rw [preorder, List.mem_cons, List.mem_append]
    unfold find? at h
    split at h
    · exact .inl (congrArg Prod.fst (Option.some.inj h)).symm
    · rcases Option.or_eq_some_iff.1 h with h | ⟨-, h⟩
      · exact .inr (.inl (ihb h))
      · exact .inr (.inr (ihs h))

/-- A change of the content at a handle is found there and nowhere else. -/
theorem content_modify (f : Forest Node) (h k : Nat) (g : Content → Content) :
    ((f.modify (hasHandle h) fun n kids => ({ n with content := g n.content }, kids)).find?
        (hasHandle k)).map (fun t => t.1.content) =
      (f.find? (hasHandle k)).map fun t => if k = h then g t.1.content else t.1.content := by
  induction f with
  | nil => rfl
  | cons n below beside ihb ihs =>
    by_cases hh : n.handle = h
    · by_cases hk : h = k
      · simp [modify, find?, hasHandle, hh, hk]
      · -- nothing below is changed, and it is asked for another handle
        simp only [Ne.symm hk, if_false] at ihs ⊢
        simp [modify, find?, hasHandle, hh, hk, Option.map_or, ihs]
    · by_cases hk : n.handle = k
      · have hne : k ≠ h := fun heq => hh (hk.trans heq)
        simp [modify, find?, hasHandle, hk, hne]
      · simp [modify, find?, hasHandle, hh, hk, Option.map_or, ihb, ihs]

end Forest

namespace Document

variable {d : Document} {h : Nat} {c : Content} {e : Element}

/-- A change of attributes is seen at its node and nowhere else. -/
theorem content?_modifyAttributes (hc : d.content? h = some c)
    (f : List Attribute → List Attribute) :
    (d.modifyAttributes h f).content? =
      Function.update d.content? h (some (c.mapAttributes f)) := by
  rw [modifyAttributes_eq]
  funext k
  have hmodify := Forest.content_modify d.forest h k (Content.mapAttributes f)
  unfold content? node? at hc ⊢
  rw [hmodify]
  by_cases hk : k = h
  · subst hk
    obtain ⟨t, ht, rfl⟩ := Option.map_eq_some_iff.1 hc
    rw [Function.update_self, ht, Option.map_some, if_pos rfl]
  · rw [Function.update_of_ne hk]
    simp only [if_neg hk]

theorem content?_setAttribute (hc : d.content? h = some (.element e)) (a : Attribute) :
    (d.setAttribute h a).content? =
      Function.update d.content? h
        (some (.element { e with attributes := a.set e.attributes })) :=
  content?_modifyAttributes hc a.set

/-- A prefix is declared on an element unless it is declared there. -/
theorem declareNamespace_cases (hc : d.content? h = some (.element e)) (p uri : String) :
    (p ∈ (Attribute.declarations e.attributes).map Prod.fst ∧
      d.declareNamespace h p uri = (d, false)) ∨
    ∃ as d', Attribute.declare? p uri e.attributes = some as ∧
      d.declareNamespace h p uri = (d', true) ∧
      d'.content? =
        Function.update d.content? h (some (.element { e with attributes := as })) := by
  unfold declareNamespace
  rw [hc]
  dsimp only
  cases has : Attribute.declare? p uri e.attributes with
  | none => exact .inl ⟨Attribute.declare?_eq_none_iff.1 has, rfl⟩
  | some as => exact .inr ⟨as, _, rfl, rfl, content?_modifyAttributes hc fun _ => as⟩

/-- Sets attributes of an element one after the other. -/
def setAttributes (d : Document) (h : Nat) (xs : List Attribute) : Document :=
  xs.foldl (fun d a => d.setAttribute h a) d

theorem attributes_setAttributes (hc : d.content? h = some (.element e)) (xs : List Attribute) :
    (d.setAttributes h xs).attributes h = Attribute.setEach xs e.attributes := by
  induction xs generalizing d e with
  | nil =>
    show d.attributes h = e.attributes
    unfold attributes
    rw [hc]
    rfl
  | cons x xs ih =>
    have hx : (d.setAttribute h x).content? h =
        some (.element { e with attributes := x.set e.attributes }) := by
      rw [content?_setAttribute hc, Function.update_self]
    exact ih hx

/-- The node is an element that had no attributes or was read with namespaces, and since then
attributes were set and prefixes were declared on it, while other nodes may have changed. -/
inductive Tended (h : Nat) : Document → Prop
  | bare {d : Document} {e : Element} (there : d.content? h = some (.element e))
      (none : e.attributes = []) : Tended h d
  | read {o : ReadOptions} {text : String} {m : Markup} {e : Element}
      (parsed : Markup.parse o text = .ok m) (aware : o.namespaceAware = true)
      (there : (ofMarkup m).content? h = some (.element e)) : Tended h (ofMarkup m)
  | setAttribute {d : Document} (before : Tended h d) {a : Attribute}
      (regular : a.isDeclaration = false) : Tended h (d.setAttribute h a)
  | declareNamespace {d : Document} (before : Tended h d) (nsPrefix uri : String) :
      Tended h (d.declareNamespace h nsPrefix uri).1
  | elsewhere {d d' : Document} (before : Tended h d) (same : d'.content? h = d.content? h) :
      Tended h d'

/-- The attributes of an element that was read with namespaces are told apart. -/
theorem apart_of_parse {o : ReadOptions} {text : String} {m : Markup}
    (hparse : Markup.parse o text = .ok m) (haware : o.namespaceAware = true)
    (hc : (ofMarkup m).content? h = some (.element e)) : Attribute.Apart e.attributes := by
  have hlegal := (Markup.legal_of_read hparse).forest
  rw [haware] at hlegal
  obtain ⟨t, ht, hte⟩ := Option.map_eq_some_iff.1 hc
  have hmap := map_content_number (root + 1) m.top
  have hmem : .element e ∈ m.top.preorder := by
    have hin : t.1 ∈ (ofMarkup m).forest.preorder := Forest.mem_preorder_of_find? ht
    rw [← hmap, Forest.preorder_map, ← hte]
    refine List.mem_map_of_mem ?_
    rcases List.mem_cons.1 hin with hroot | hbelow
    · rw [hroot] at hte
      cases hte
    · exact (List.append_nil _).subst hbelow
  obtain ⟨s, -, hopens⟩ := hlegal.opens_in (P := fun _ => True) trivial (fun _ _ _ _ => trivial)
    hmem
  exact .of_meant hopens.attributes

theorem Tended.apart (hd : d.Tended h) :
    ∃ e, d.content? h = some (.element e) ∧ Attribute.Apart e.attributes := by
  induction hd with
  | bare there none => exact ⟨_, there, none ▸ .nil⟩
  | read parsed aware there => exact ⟨_, there, apart_of_parse parsed aware there⟩
  | setAttribute _ regular ih =>
    obtain ⟨e, hc, hapart⟩ := ih
    refine ⟨{ e with attributes := _ }, ?_, hapart.set regular⟩
    rw [content?_setAttribute hc, Function.update_self]
  | declareNamespace _ p uri ih =>
    obtain ⟨e, hc, hapart⟩ := ih
    obtain ⟨-, hsame⟩ | ⟨as, d', has, hnew, hcontent⟩ := declareNamespace_cases hc p uri
    · exact ⟨e, hsame ▸ hc, hapart⟩
    · refine ⟨{ e with attributes := as }, ?_, hapart.declare? has⟩
      rw [hnew, hcontent, Function.update_self]
  | elsewhere _ same ih =>
    obtain ⟨e, hc, hapart⟩ := ih
    exact ⟨e, same.trans hc, hapart⟩

/-- What it does to a document to set attributes of an element or to declare prefixes on it. No other
content changes, the attributes stay apart, all but the one that is set or added stand as they stood,
and attributes with different keys may be set in any order. -/
structure Kept (d : Document) (h : Nat) (e : Element) : Prop where
  apart : Attribute.Apart e.attributes
  set : ∀ a : Attribute, a.isDeclaration = false → ∃ as, Attribute.SetIn a e.attributes as ∧
    as.find? (Attribute.hasKey a.key) = some a ∧ Attribute.Apart as ∧
    (d.setAttribute h a).content? =
      Function.update d.content? h (some (.element { e with attributes := as }))
  declare : ∀ nsPrefix uri,
    (nsPrefix ∈ (Attribute.declarations e.attributes).map Prod.fst ∧
      d.declareNamespace h nsPrefix uri = (d, false)) ∨
    ∃ as d', d.declareNamespace h nsPrefix uri = (d', true) ∧
      Attribute.DeclaredIn nsPrefix uri e.attributes as ∧ Attribute.Apart as ∧
      d'.content? = Function.update d.content? h (some (.element { e with attributes := as }))
  commute : ∀ xs ys : List Attribute, xs.Perm ys → (xs.map Attribute.key).Nodup →
    (∀ x ∈ xs, x.isDeclaration = false) → ∀ k,
      ((d.setAttributes h xs).attributes h).find? (Attribute.hasKey k) =
        ((d.setAttributes h ys).attributes h).find? (Attribute.hasKey k)

/-- Attributes of an element stay apart whatever is set and declared on it. -/
theorem Tended.keeps_apart (hd : d.Tended h) : ∃ e, d.content? h = some (.element e) ∧ d.Kept h e := by
  obtain ⟨e, hc, hapart⟩ := hd.apart
  refine ⟨e, hc, hapart, fun a ha => ?_, fun p uri => ?_, fun xs ys hperm hnodup hxs k => ?_⟩
  · exact ⟨a.set e.attributes, Attribute.setIn_set a e.attributes, Attribute.find?_set ha _,
      hapart.set ha, content?_setAttribute hc a⟩
  · refine (declareNamespace_cases hc p uri).imp_right ?_
    rintro ⟨as, d', has, hnew, hcontent⟩
    exact ⟨as, d', hnew, Attribute.declaredIn_of_declare? has, hapart.declare? has, hcontent⟩
  · rw [attributes_setAttributes hc, attributes_setAttributes hc]
    exact Attribute.find?_setEach_perm hperm hnodup hxs e.attributes k

/-- An attribute in no namespace is set that is named like a declared prefix, and another prefix is
declared: the attribute has its new value in the old place and the declarations stand before it. -/
theorem Tended.keeps_apart_named_like_prefix :
    let m : Markup := ⟨.absent, .leaf (.element ⟨⟨none, "r"⟩, none,
      [⟨⟨some "xmlns", "p"⟩, none, "u"⟩, ⟨⟨none, "p"⟩, none, "1"⟩,
        ⟨⟨some "p", "p"⟩, some "u", "2"⟩]⟩)⟩
    let d := (((ofMarkup m).setAttribute 1 ⟨⟨none, "p"⟩, none, "3"⟩).declareNamespace 1 "q" "v").1
    Markup.parse {} "<r xmlns:p='u' p='1' p:p='2'/>" = .ok m ∧ d.Tended 1 ∧
      ∃ e, d.content? 1 = some (.element e) ∧ d.Kept 1 e ∧ e.attributes =
        [⟨⟨some "xmlns", "p"⟩, none, "u"⟩, ⟨⟨some "xmlns", "q"⟩, none, "v"⟩,
          ⟨⟨none, "p"⟩, none, "3"⟩, ⟨⟨some "p", "p"⟩, some "u", "2"⟩] := by
  intro m d
  have hparse : Markup.parse {} "<r xmlns:p='u' p='1' p:p='2'/>" = .ok m := by
    decide +kernel
  have hread : (ofMarkup m).Tended 1 := .read hparse rfl rfl
  have htended : d.Tended 1 :=
    .declareNamespace (.setAttribute hread rfl) "q" "v"
  obtain ⟨e, hc, hkept⟩ := Tended.keeps_apart htended
  have hattributes : d.attributes 1 =
      [⟨⟨some "xmlns", "p"⟩, none, "u"⟩, ⟨⟨some "xmlns", "q"⟩, none, "v"⟩,
        ⟨⟨none, "p"⟩, none, "3"⟩, ⟨⟨some "p", "p"⟩, some "u", "2"⟩] := by
    decide
  unfold attributes at hattributes
  rw [hc] at hattributes
  exact ⟨hparse, htended, e, hc, hkept, hattributes⟩

end Document

end MarkupFields
