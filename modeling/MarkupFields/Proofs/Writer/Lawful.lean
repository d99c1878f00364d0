import Mathlib.Data.List.Chain
import MarkupFields.Proofs.Markup.Content
import MarkupFields.Proofs.Markup.Meaning
import MarkupFields.Proofs.Writer.Built

/-
  Forests of a document that markup can express, up to the namespaces of elements. In a lawful forest
  every start tag can be written and read in its scope; the namespace that is read is the one that
  the element has if the forest is to be exact, and may be another one if it is not. What was read is
  lawful and exact (`Forest.Legal.lawful`); what is lawful is written like something legal, and like
  itself if it is exact (`Forest.Lawful.legal`). A scope may grow around a lawful forest
  (`Forest.Lawful.grow`).
-/

namespace MarkupFields

open Text Scan

/-! ## What is written of a node -/

/-- Forests that are the same without their namespaces are written alike. -/
theorem Render.forest_asWritten {w : WriteOptions} (hi : w.indent = false) (depth : Nat)
    (f : Forest Content) :
    Render.forest w .running depth (f.map Content.asWritten) = Render.forest w .running depth f := by
  have hpairs : ∀ as : List Attribute,
      (as.map Attribute.asWritten).flatMap attributePair = as.flatMap attributePair := by
    intro as
    rw [List.flatMap_map]
    rfl
  have htag : ∀ e : Element, startTag e.asWritten = startTag e := fun e => by
    unfold startTag Element.asWritten
    rw [hpairs]
  induction f generalizing depth with
  | nil => rfl
  | cons c below beside ihb ihs =>
    by_cases hc : c.isElement = true
    · cases c with
      | element e =>
        rw [Forest.map, Content.asWritten, forest_element hi, forest_element hi, htag, ihs]
        congr 2
        unfold inner
        cases below with
        | nil => rfl
        | cons c' below' beside' =>
          have hbelow := ihb (depth + 1)
          rw [Forest.map] at hbelow ⊢
          simp only [hbelow]
          rfl
      | _ => cases hc
    · rw [Bool.not_eq_true] at hc
      have hsame : c.asWritten = c := by
        cases c with
        | element e => cases hc
        | _ => rfl
      rw [Forest.map, hsame, forest_leaf depth hc, forest_leaf depth hc, ihs]

namespace Forest

theorem startsWithText_asWritten (f : Forest Content) :
    (f.map Content.asWritten).startsWithText = f.startsWithText := by
  cases f with
  | nil => rfl
  | cons c below beside =>
    cases c with
    | _ => rfl

/-! ## Texts apart -/

/-- No two texts stand side by side. -/
def Separate (ts : List NodeTree) : Prop :=
  (ts.map fun t => t.1.content.isText).IsChain fun a b => a = true → b = false

theorem separate_of_noText {ts : List NodeTree} (h : ∀ t ∈ ts, t.1.content.isText = false) :
    Separate ts := by
  unfold Separate
  induction ts with
  | nil => exact .nil
  | cons t ts ih =>
    rw [List.map_cons]
    refine (ih fun u hu => h u (List.mem_cons_of_mem t hu)).cons fun b _ ht => ?_
    rw [h t List.mem_cons_self] at ht
    cases ht

/-- Levels one of which has no texts can stand side by side. -/
theorem Separate.append {ts us : List NodeTree} (ht : Separate ts) (hu : Separate us)
    (h : (∀ t ∈ ts, t.1.content.isText = false) ∨ ∀ u ∈ us, u.1.content.isText = false) :
    Separate (ts ++ us) := by
  unfold Separate at ht hu ⊢
  rw [List.map_append]
  refine ht.append hu fun a ha b hb hat => ?_
  obtain ⟨t, htm, rfl⟩ := List.mem_map.1 (List.mem_of_getLast? ha)
  obtain ⟨u, hum, rfl⟩ := List.mem_map.1 (List.mem_of_head? hb)
  rcases h with h | h
  · rw [h t htm] at hat
    cases hat
  · exact h u hum

/-- A tree gives way to another one. -/
theorem Separate.replace {before after : List NodeTree} {t t' : NodeTree}
    (h : Separate (before ++ t :: after))
    (ht : t'.1.content.isText = t.1.content.isText) : Separate (before ++ t' :: after) := by
  unfold Separate at h ⊢
  rw [List.map_append, List.map_cons] at h ⊢
  rwa [ht]

theorem isText_of_not_characterData {c : Content} (h : c.isCharacterData = false) :
    c.isText = false := by
  cases c with
  | text s => cases h
  | _ => rfl

end Forest

/-! ## Lawful forests -/

/-- Every start tag can be written and read in its scope; where the forest is to be exact, it is read
in the namespace that the element has. -/
inductive Forest.Lawful (exact : Prop) : Scope → Forest Node → Prop
  | nil {s : Scope} : Lawful exact s .nil
  | element {s : Scope} {h : Nat} {e : Element} {below beside : Forest Node}
      {uri : Option String} (opens : e.Opens s uri) (named : exact → e.namespaceUri = uri)
      (separate : Separate below.trees) (content : Lawful exact (s.inside e.attributes) below)
      (rest : Lawful exact s beside) : Lawful exact s (.cons ⟨h, .element e⟩ below beside)
  | leaf {s : Scope} {h : Nat} {c : Content} {beside : Forest Node} (writable : c.LegalLeaf)
      (rest : Lawful exact s beside) : Lawful exact s (.cons ⟨h, c⟩ .nil beside)

/-- An element whose tree is lawful. -/
inductive NodeTree.Lawful (exact : Prop) (s : Scope) : NodeTree → Prop
  | intro {h : Nat} {e : Element} {below : Forest Node} {uri : Option String}
      (opens : e.Opens s uri) (named : exact → e.namespaceUri = uri)
      (separate : Forest.Separate below.trees)
      (content : Forest.Lawful exact (s.inside e.attributes) below) :
      NodeTree.Lawful exact s (⟨h, .element e⟩, below)

section
variable {exact : Prop} {s : Scope}

/-- A forest is lawful tree by tree. -/
theorem Forest.lawful_iff_trees {f : Forest Node} :
    f.Lawful exact s ↔ ∀ t ∈ f.trees, (single t).Lawful exact s := by
  induction f with
  | nil => exact ⟨fun _ t ht => absurd ht List.not_mem_nil, fun _ => .nil⟩
  | cons k below beside _ ih =>
    rw [trees, List.forall_mem_cons, ← ih]
    constructor
    · intro h
      cases h with
      | element opens named separate content rest =>
        exact ⟨.element opens named separate content .nil, rest⟩
      | leaf writable rest => exact ⟨.leaf writable .nil, rest⟩
    · rintro ⟨h, rest⟩
      cases h with
      | element opens named separate content _ =>
        exact .element opens named separate content rest
      | leaf writable _ => exact .leaf writable rest

/-- Only elements of a lawful forest have anything below them, and that is lawful. -/
theorem Forest.Lawful.of_mem {f : Forest Node} (h : f.Lawful exact s) {t : NodeTree}
    (ht : t ∈ f.trees) :
    (t.1.content.isElement = false → t.2 = .nil) ∧ ∃ s', t.2.Lawful exact s' := by
  have htree := lawful_iff_trees.1 h t ht
  obtain ⟨n, below⟩ := t
  cases htree with
  | element opens named separate content _ =>
    exact ⟨fun hn => (nomatch hn), _, content⟩
  | leaf writable _ => exact ⟨fun _ => rfl, s, .nil⟩

theorem NodeTree.Lawful.single {t : NodeTree} (h : NodeTree.Lawful exact s t) :
    (Forest.single t).Lawful exact s := by
  cases h with
  | intro opens named separate content => exact .element opens named separate content .nil

theorem NodeTree.Lawful.isElement {t : NodeTree} (h : NodeTree.Lawful exact s t) :
    t.1.content.isElement = true := by
  cases h with
  | intro => rfl

theorem Forest.Lawful.tree {t : NodeTree} (h : (Forest.single t).Lawful exact s)
    (ht : t.1.content.isElement = true) : NodeTree.Lawful exact s t := by
  obtain ⟨k, below⟩ := t
  cases h with
  | element opens named separate content => exact .intro opens named separate content
  | @leaf _ _ c _ writable =>
    cases c with
    | element e => exact absurd writable id
    | _ => cases ht

/-! ## Legality -/

/-- What is legal is lawful, with the namespaces that it has. -/
theorem Forest.Legal.lawful {f : Forest Content} (h : f.Legal true s) {g : Forest Node}
    (hg : g.map Node.content = f) : g.Lawful exact s ∧ Separate g.trees := by
  induction h generalizing g with
  | nil =>
    cases g with
    | nil => exact ⟨.nil, .nil⟩
    | cons => cases hg
  | @element s inside e children beside writable names content rest ihc ihr =>
    cases g with
    | nil => cases hg
    | cons n below' beside' =>
      obtain ⟨k, c⟩ := n
      obtain ⟨rfl, hbelow, hbeside⟩ := Forest.cons.inj hg
      obtain ⟨hopens, rfl⟩ := Element.opens_of_legal writable names
      obtain ⟨hcontent, hapart⟩ := ihc hbelow
      obtain ⟨hrest, hbesideApart⟩ := ihr hbeside
      refine ⟨.element hopens (fun _ => rfl) hapart hcontent hrest, ?_⟩
      have hnoText : ∀ t ∈ [((⟨k, .element e⟩, below') : NodeTree)], t.1.content.isText = false :=
        fun t ht => List.mem_singleton.1 ht ▸ rfl
      exact (separate_of_noText hnoText).append hbesideApart (.inl hnoText)
  | @leaf s c beside writable apart rest ih =>
    cases g with
    | nil => cases hg
    | cons n below' beside' =>
      obtain ⟨k, d⟩ := n
      obtain ⟨rfl, hbelow, hbeside⟩ := Forest.cons.inj hg
      have hnil : below' = .nil := by
        cases below' with
        | nil => rfl
        | cons => cases hbelow
      subst hnil
      obtain ⟨hrest, hbesideApart⟩ := ih hbeside
      refine ⟨.leaf writable hrest, ?_⟩
      show List.IsChain _ (_ :: _)
      refine List.IsChain.cons hbesideApart fun b hb hc => ?_
      have hstart := apart hc
      rw [← hbeside] at hstart
      cases beside' with
      | nil => cases hb
      | cons m below beside =>
        rw [← Option.some.inj hb]
        exact hstart

/-- What is lawful is written like something legal, and like itself if it is to be exact. -/
theorem Forest.Lawful.legal {f : Forest Node} (h : f.Lawful exact s) (hs : Separate f.trees) :
    ∃ g : Forest Content, g.Legal true s ∧
      g.map Content.asWritten = (f.map Node.content).map Content.asWritten ∧
      (exact → g = f.map Node.content) := by
  induction h with
  | nil => exact ⟨.nil, .nil, rfl, fun _ => rfl⟩
  | @element s k e below beside uri opens named separate content rest ihc ihr =>
    obtain ⟨g, hg, hwritten, hexact⟩ := ihc separate
    obtain ⟨g', hg', hwritten', hexact'⟩ := ihr (List.IsChain.tail hs)
    obtain ⟨hwritable, hread⟩ := opens.legal
    refine ⟨.cons (.element { e with namespaceUri := uri }) g g',
      .element hwritable hread hg hg', ?_, ?_⟩
    · rw [map, map, map, hwritten, hwritten']
      rfl
    · intro hx
      rw [map, hexact hx, hexact' hx, ← named hx]
  | @leaf s k c beside writable rest ih =>
    obtain ⟨g, hg, hwritten, hexact⟩ := ih (List.IsChain.tail hs)
    refine ⟨.cons c .nil g, .leaf writable (fun hc => ?_) hg, ?_, fun hx => ?_⟩
    · rw [← startsWithText_asWritten g, hwritten, startsWithText_asWritten]
      cases beside with
      | nil => rfl
      | cons m below' beside' => exact List.IsChain.rel hs hc
    · rw [map, map, map, hwritten]
      rfl
    · rw [map, hexact hx]
      rfl

/-- A lawful element is written like a legal one, and is it if it is to be exact. -/
theorem NodeTree.Lawful.legal {t : NodeTree} (h : NodeTree.Lawful exact s t) :
    ∃ e below, (Forest.cons (.element e) below .nil).Legal true s ∧
      (Forest.cons (.element e) below .nil).map Content.asWritten =
        ((Forest.single t).map Node.content).map Content.asWritten ∧
      (exact → .cons (.element e) below .nil = (Forest.single t).map Node.content) := by
  cases h with
  | @intro k e below uri opens named separate content =>
    obtain ⟨g, hg, hwritten, hexact⟩ := content.legal separate
    obtain ⟨hwritable, hread⟩ := opens.legal
    refine ⟨{ e with namespaceUri := uri }, g, .element hwritable hread hg .nil, ?_, fun hx => ?_⟩
    · rw [Forest.map, hwritten]
      rfl
    · rw [hexact hx, ← named hx]
      rfl

/-! ## Growing scopes -/

/-- The node is an element with neither a prefix nor a namespace. -/
def Content.Bare : Content → Prop
  | .element e => e.name.nsPrefix = none ∧ e.namespaceUri = none
  | _ => False

instance : DecidablePred Content.Bare
  | .element e => inferInstanceAs (Decidable (e.name.nsPrefix = none ∧ e.namespaceUri = none))
  | .document | .text _ | .cdata _ | .comment _ | .instruction _ _ => isFalse id

/-- An element that is read in the namespace that it has is in one, unless it is bare. -/
theorem Element.ne_none_of_not_bare {e : Element} {uri : Option String}
    (h : s.elementNamespace e.name = .ok uri) (hn : e.namespaceUri = uri)
    (hb : ¬ (Content.element e).Bare) : uri ≠ none := by
  rintro rfl
  rcases Scope.elementNamespace_eq_ok.1 h with ⟨hp, -⟩ | ⟨p, u, -, -, hu⟩
  · exact hb ⟨hp, hn⟩
  · cases hu

/-- A lawful forest is lawful in a scope that knows no less; exactly so if the default namespace is
the same or no element is without prefix and namespace. -/
theorem Forest.Lawful.grow {s' : Scope} {f : Forest Node} (h : f.Lawful exact s)
    (hs : s.Grows s')
    (hd : exact → s'.lookup "" = s.lookup "" ∨ ∀ n ∈ f.preorder, ¬ n.content.Bare) :
    f.Lawful exact s' := by
  induction h generalizing s' with
  | nil => exact .nil
  | @element s k e below beside uri opens named separate content rest ihc ihr =>
    obtain ⟨uri', hopens, hsame⟩ := opens.grow hs
    refine .element hopens (fun hx => ?_) separate (ihc (hs.inside e.attributes) fun hx => ?_)
      (ihr hs fun hx => ?_)
    · rw [named hx]
      refine (hsame ?_).symm
      rcases hd hx with hd | hd
      · exact .inr hd
      · exact .inl (Element.ne_none_of_not_bare opens.named (named hx) (hd _ List.mem_cons_self))
    · rcases hd hx with hd | hd
      · left
        rw [Scope.lookup_inside, Scope.lookup_inside, hd]
      · right
        exact fun n hn => hd n (List.mem_cons_of_mem _ (List.mem_append_left _ hn))
    · rcases hd hx with hd | hd
      · exact .inl hd
      · right
        exact fun n hn => hd n (List.mem_cons_of_mem _ (List.mem_append_right _ hn))
  | @leaf s k c beside writable rest ih =>
    refine .leaf writable (ih hs fun hx => ?_)
    rcases hd hx with hd | hd
    · exact .inl hd
    · exact .inr fun n hn => hd n (List.mem_cons_of_mem _ hn)

end

end MarkupFields
