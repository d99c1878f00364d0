import MarkupFields.Proofs.Field.Agreement
import MarkupFields.Proofs.Markup.Ancestors
import MarkupFields.Proofs.Path.Rendered

/-
  Every element has a path. Going down from the document node to an element, each step is given the
  local name of the element it goes to, a prefix of its namespace if it is in one, and the number of
  the trees of the level that pass the test of the step up to it (`Forest.Leads`). The test without
  a prefix asks for the default namespace at the candidate; an element in no namespace passes it,
  since it has no prefix and so is in the default namespace that holds at it. So a reader goes
  exactly to the element (`exists_path_of_load`).
-/

namespace MarkupFields

open Text

/-! ## Lines of trees -/

namespace Forest

/-- The trees lie inside each other: the first is on the top level of the forest, and each of the
others on the top level of what is below the one before it. -/
inductive Line {α : Type} : Forest α → List (α × Forest α) → Prop
  | nil {f : Forest α} : Line f []
  | cons {f : Forest α} {t : α × Forest α} {ts : List (α × Forest α)} (mem : t ∈ f.trees)
      (rest : Line t.2 ts) : Line f (t :: ts)

/-- What is found lies at the end of a line of trees. -/
theorem exists_line_of_find? {α : Type} {q : α → Bool} {f : Forest α} {t : α × Forest α}
    (h : f.find? q = some t) : ∃ ts, f.Line ts ∧ ts.getLast? = some t := by
  induction f with
  | nil => cases h
  | cons a below beside ihb ihs =>
    unfold find? at h
    split at h
    · exact ⟨[(a, below)], .cons List.mem_cons_self .nil, h⟩
    · rcases Option.or_eq_some_iff.1 h with h | ⟨-, h⟩
      · obtain ⟨ts, hline, hlast⟩ := ihb h
        refine ⟨(a, below) :: ts, .cons List.mem_cons_self hline, ?_⟩
        rw [List.getLast?_cons, hlast]
        rfl
      · obtain ⟨ts, hline, hlast⟩ := ihs h
        cases hline with
        | nil => cases hlast
        | cons mem rest => exact ⟨_, .cons (List.mem_cons_of_mem _ mem) rest, hlast⟩

/-- The steps lead down a line of trees: each tree passes the test of its step, the default
namespace around it given, and the position of the step is its rank among the trees of the level
that pass. -/
inductive Leads : List StepTest → Option String → Forest Node → List NodeTree → Prop
  | here {inScope : Option String} {f : Forest Node} : Leads [] inScope f []
  | step {s : StepTest} {steps : List StepTest} {inScope : Option String} {f : Forest Node}
      {before after ts : List NodeTree} {t : NodeTree}
      (ranked : At (fun n => s.test.acceptsNode inScope n.content) s.position f.trees before t after)
      (rest : Leads steps (t.1.content.defaultInside inScope) t.2 ts) :
      Leads (s :: steps) inScope f (t :: ts)

/-- Steps that lead down a line lead to its last tree. -/
theorem Leads.descend? {steps : List StepTest} {inScope : Option String} {f : Forest Node}
    {ts : List NodeTree} (h : Leads steps inScope f ts) (a : Node) :
    descend? steps inScope (a, f) = some (ts.getLastD (a, f)) := by
  induction h generalizing a with
  | here => rfl
  | @step s steps inScope f before after ts t ranked _ ih =>
    have hnth := nthRoot?_of_at ranked
    rw [ofTrees_trees] at hnth
    unfold Forest.descend?
    rw [Option.bind_eq_bind, hnth, Option.bind_some, ih t.1]
    cases ts <;> rfl

end Forest

/-- Steps that lead down a line from the document node lead to its last tree. -/
theorem Forest.Leads.locate? {d : Document} {top : Forest Node} (htree : d.IsTree top)
    {steps : List StepTest} {ts : List NodeTree} (h : Leads steps none top ts) {t : NodeTree}
    (hlast : ts.getLast? = some t) : d.locate? steps = some t := by
  have hdescend := h.descend? ⟨Document.root, .document⟩
  rw [List.getLastD_eq_getLast?, hlast, Option.getD_some] at hdescend
  unfold Document.locate?
  rw [htree.node?_root, Option.bind_eq_bind, Option.bind_some]
  exact hdescend

/-- An element is found below the document node. -/
theorem Document.IsTree.find?_of_isElement {d : Document} {top : Forest Node} (htree : d.IsTree top)
    {k : Nat} {t : NodeTree} (ht : d.node? k = some t) (helement : t.1.content.isElement = true) :
    top.find? (hasHandle k) = some t := by
  unfold node? at ht
  rw [show d.forest = _ from htree, Forest.find?] at ht
  split at ht
  · rw [← Option.some.inj ht] at helement
    cases helement
  · rwa [Forest.find?, Option.or_none] at ht

/-! ## Levels of a legal forest -/

/-- An element of a legal forest opens in the scope of the forest, and what is below it is legal in
the scope inside it. -/
theorem Forest.Legal.opens_of_mem {s : Scope} {f : Forest Content} (h : f.Legal true s)
    {e : Element} {children : Forest Content} (ht : (.element e, children) ∈ f.trees) :
    e.Opens s e.namespaceUri ∧ children.Legal true (s.inside e.attributes) := by
  induction h with
  | nil => exact absurd ht List.not_mem_nil
  | element writable names content rest _ ih =>
    rcases List.mem_cons.1 ht with heq | ht
    · obtain ⟨hroot, rfl⟩ := Prod.mk.inj heq
      obtain rfl := Content.element.inj hroot
      obtain ⟨hopens, hinside⟩ := Element.opens_of_legal writable names
      exact ⟨hopens, hinside ▸ content⟩
    · exact ih ht
  | leaf writable apart rest ih =>
    rcases List.mem_cons.1 ht with heq | ht
    · obtain ⟨hroot, -⟩ := Prod.mk.inj heq
      rw [← hroot] at writable
      exact absurd writable id
    · exact ih ht

/-- Only elements of a legal forest have anything below them. -/
theorem Forest.Legal.isElement_of_mem {s : Scope} {f : Forest Content} (h : f.Legal true s)
    {t : ContentTree} (ht : t ∈ f.trees) (hne : t.2 ≠ .nil) : t.1.isElement = true := by
  induction h with
  | nil => exact absurd ht List.not_mem_nil
  | element writable names content rest _ ih =>
    rcases List.mem_cons.1 ht with rfl | ht
    · rfl
    · exact ih ht
  | leaf writable apart rest ih =>
    rcases List.mem_cons.1 ht with rfl | ht
    · exact absurd rfl hne
    · exact ih ht

/-- A line that ends at an element goes through elements only. -/
theorem Forest.Legal.exists_element_of_line {s : Scope} {g : Forest Node}
    (hg : (g.map Node.content).Legal true s) {t : NodeTree} {ts : List NodeTree}
    (hline : g.Line (t :: ts))
    (hlast : ∀ u, (t :: ts).getLast? = some u → u.1.content.isElement = true) :
    ∃ e, t.1.content = .element e ∧
      (.element e, t.2.map Node.content) ∈ (g.map Node.content).trees := by
  cases hline with
  | cons mem rest =>
    have hmem : (t.1.content, t.2.map Node.content) ∈ (g.map Node.content).trees := by
      rw [Forest.trees_map]
      exact List.mem_map_of_mem mem
    have helement : t.1.content.isElement = true := by
      cases rest with
      | nil => exact hlast t rfl
      | cons mem' rest' =>
        -- something lies below it
        refine hg.isElement_of_mem hmem fun hnil => ?_
        have hbelow : t.2 = .nil := by
          cases hb : t.2 with
          | nil => rfl
          | cons a below beside =>
            rw [hb] at hnil
            cases hnil
        rw [hbelow] at mem'
        exact absurd mem' List.not_mem_nil
    cases hc : t.1.content with
    | element e => exact ⟨e, rfl, hc ▸ hmem⟩
    | _ =>
      rw [hc] at helement
      cases helement

/-- The default namespace inside a node is the one along the line that begins with it. -/
theorem Document.defaultAlong_cons (c : Content) (line : List Content) :
    defaultAlong (c :: line) = c.defaultInside (defaultAlong line) := by
  unfold defaultAlong Content.defaultInside
  rw [List.findSome?_cons]
  cases Attribute.defaultDeclared? c.attributes <;> rfl

/-- An element in no namespace is in the default namespace that holds at it. -/
theorem Element.Opens.defaultAlong_eq_none {s : Scope} {outer : List Content} {e : Element}
    (he : e.Opens s e.namespaceUri) (hs : s.Follows outer) (hnone : e.namespaceUri = none) :
    Document.defaultAlong (.element e :: outer) = none := by
  have hnamed := he.namespacedBy hs
  cases hp : e.name.nsPrefix with
  | none => rw [← hnamed.plain hp, hnone]
  | some p =>
    obtain ⟨u, -, hu⟩ := hnamed.prefixed p hp
    rw [hnone] at hu
    cases hu

/-! ## The way to an element -/

namespace FieldReader

variable {r : FieldReader} {l : LoadedDocument}

/-- A reader takes an element at the step with its local name and a prefix of its namespace, or none
if it is in none. -/
theorem acceptsNode_stepTest {s : Scope} {outer : List Content} {e : Element}
    (he : e.Opens s e.namespaceUri) (hs : s.Follows outer) {nsPrefix : Option String}
    (hchosen : ∀ p, nsPrefix = some p → ∃ u, r.namespaces.uri? p = some u ∧ e.namespaceUri = some u)
    (hplain : nsPrefix = none → e.namespaceUri = none) (index : Option Nat) :
    (r.stepTest l ⟨⟨nsPrefix, e.name.localName⟩, index⟩).test.acceptsNode
      (Document.defaultAlong outer) (.element e) = true := by
  unfold stepTest namespaceTest NameTest.acceptsNode NameTest.acceptsNamespace
  dsimp only
  rw [beq_self_eq_true, Bool.true_and]
  cases hinfo : l.namespaceInfo with
  | false => rfl
  | true =>
    rw [Bool.not_true, if_neg Bool.false_ne_true]
    cases nsPrefix with
    | none =>
      have hnone := hplain rfl
      have hdefault := he.defaultAlong_eq_none hs hnone
      rw [Document.defaultAlong_cons] at hdefault
      dsimp only
      rw [hdefault, hnone]
      rfl
    | some p =>
      obtain ⟨u, hu, huri⟩ := hchosen p rfl
      dsimp only
      rw [hu, huri]
      exact beq_self_eq_true _

end FieldReader

/-- Every namespace that an element of the forest is in has a prefix that is an NCName. -/
def Namespaces.Reaches (n : Namespaces) (f : Forest Node) : Prop :=
  ∀ e ∈ f.elements, ∀ u, e.namespaceUri = some u → ∃ p, isNCName p = true ∧ n.uri? p = some u

/-- The step goes to the root of the tree by its local name, with a bound prefix or without one. -/
structure Step.GoesTo (n : Namespaces) (s : Step) (t : NodeTree) : Prop where
  name : t.1.content.name? = some s.name.localName
  bound : ∀ p, s.name.nsPrefix = some p → isNCName p = true ∧ (n.uri? p).isSome = true

theorem Forest.length_trees_le_size {α : Type} (f : Forest α) : f.trees.length ≤ f.size := by
  induction f with
  | nil => exact Nat.le_refl 0
  | cons a below beside _ ih =>
    rw [trees, List.length_cons, size]
    omega

theorem Forest.size_lt_of_mem {α : Type} {f : Forest α} {t : α × Forest α} (ht : t ∈ f.trees) :
    t.2.size < f.size := by
  induction f with
  | nil => exact absurd ht List.not_mem_nil
  | cons a below beside _ ih =>
    rw [size]
    rcases List.mem_cons.1 ht with rfl | ht
    · show below.size < _
      omega
    · have := ih ht
      omega

theorem Forest.size_map {α β : Type} (m : α → β) (f : Forest α) : (f.map m).size = f.size := by
  induction f with
  | nil => rfl
  | cons a below beside ihb ihs => rw [map, size, size, ihb, ihs]

theorem Namespaces.Reaches.below {n : Namespaces} {f : Forest Node} (h : n.Reaches f)
    {t : NodeTree} (ht : t ∈ f.trees) : n.Reaches t.2 :=
  fun e he => h e (Forest.mem_elements_of_mem ht (.inr he))

/-- There is a prefix of the namespace of an element, or it is in none. -/
theorem Namespaces.Reaches.exists_prefix {n : Namespaces} {f : Forest Node} (h : n.Reaches f)
    {e : Element} (he : e ∈ f.elements) :
    ∃ nsPrefix : Option String,
      (∀ p, nsPrefix = some p → isNCName p = true ∧
        ∃ u, n.uri? p = some u ∧ e.namespaceUri = some u) ∧
      (nsPrefix = none → e.namespaceUri = none) := by
  cases huri : e.namespaceUri with
  | none =>
    refine ⟨none, fun p hp => ?_, fun _ => rfl⟩
    cases hp
  | some u =>
    obtain ⟨p, hname, hp⟩ := h e he u huri
    refine ⟨some p, fun p' hp' => ?_, fun hnone => ?_⟩
    · rw [← Option.some.inj hp']
      exact ⟨hname, u, hp, rfl⟩
    · cases hnone

/-- To an element among the trees of a level there is a step that can be written. -/
theorem FieldReader.exists_step {r : FieldReader} (l : LoadedDocument) {g : Forest Node}
    {s : Scope} {outer : List Content} (hs : s.Follows outer) (hreaches : r.namespaces.Reaches g)
    (hsize : g.size < Path.indexBound) {t : NodeTree} (ht : t ∈ g.trees) {e : Element}
    (he : t.1.content = .element e) (hopens : e.Opens s e.namespaceUri) :
    ∃ (x : Step) (before after : List NodeTree), x.Expressible ∧ x.GoesTo r.namespaces t ∧
      Forest.At (fun n => (r.stepTest l x).test.acceptsNode (Document.defaultAlong outer) n.content)
        x.position g.trees before t after := by
  obtain ⟨nsPrefix, hchosen, hplain⟩ :=
    hreaches.exists_prefix (Forest.mem_elements_of_mem ht (.inl he))
  obtain ⟨before, after, hsplit⟩ := List.append_of_mem ht
  let name : QName := ⟨nsPrefix, e.name.localName⟩
  let passes : Node → Bool := fun n =>
    (r.stepTest l ⟨name, none⟩).test.acceptsNode (Document.defaultAlong outer) n.content
  have hrank : Forest.rootCount passes before + 1 ≤ g.size := by
    have hcount : Forest.rootCount passes before ≤ before.length := List.countP_le_length
    have hlength := congrArg List.length hsplit
    have hsizes := g.length_trees_le_size
    rw [List.length_append, List.length_cons] at hlength
    omega
  have hlocal : isNCName e.name.localName = true :=
    (Bool.and_eq_true_iff.1 hopens.qualified).2
  refine ⟨⟨name, some (Forest.rootCount passes before + 1)⟩, before, after, ⟨?_, ?_⟩, ⟨?_, ?_⟩,
    ⟨hsplit, ?_, rfl⟩⟩
  · show (nsPrefix.all isNCName && isNCName e.name.localName) = true
    rw [hlocal, Bool.and_true]
    cases nsPrefix with
    | none => rfl
    | some p => exact (hchosen p rfl).1
  · intro n hn
    rw [← Option.some.inj hn]
    omega
  · rw [he]
    rfl
  · intro p hp
    obtain ⟨hname, u, hu, -⟩ := hchosen p hp
    exact ⟨hname, Option.isSome_iff_exists.2 ⟨u, hu⟩⟩
  · show NameTest.acceptsNode _ _ t.1.content = true
    rw [he]
    exact acceptsNode_stepTest hopens hs (fun p hp => (hchosen p hp).2) hplain _

/-- Down a line of trees to an element there are steps that can be written. -/
theorem FieldReader.exists_steps {r : FieldReader} (l : LoadedDocument) {g : Forest Node}
    {s : Scope} (hg : (g.map Node.content).Legal true s) {outer : List Content}
    (hs : s.Follows outer) (hreaches : r.namespaces.Reaches g) (hsize : g.size < Path.indexBound)
    {ts : List NodeTree} (hline : g.Line ts)
    (hlast : ∀ t, ts.getLast? = some t → t.1.content.isElement = true) :
    ∃ steps : List Step, (∀ x ∈ steps, x.Expressible) ∧
      List.Forall₂ (Step.GoesTo r.namespaces) steps ts ∧
      Forest.Leads (steps.map (r.stepTest l)) (Document.defaultAlong outer) g ts := by
  induction hline generalizing s outer with
  | nil => exact ⟨[], fun x hx => absurd hx List.not_mem_nil, .nil, .here⟩
  | @cons g t ts mem rest ih =>
    obtain ⟨e, he, hmem⟩ := hg.exists_element_of_line (.cons mem rest) hlast
    obtain ⟨hopens, hcontent⟩ := hg.opens_of_mem hmem
    obtain ⟨x, before, after, hx, hgoes, hranked⟩ :=
      exists_step l hs hreaches hsize mem he hopens
    have hrest : ∀ u, ts.getLast? = some u → u.1.content.isElement = true := by
      intro u hu
      refine hlast u ?_
      rw [List.getLast?_cons, hu]
      rfl
    obtain ⟨steps, hsteps, hall, hleads⟩ := ih hcontent (hs.inside hopens) (hreaches.below mem)
      (Nat.lt_trans (Forest.size_lt_of_mem mem) hsize) hrest
    refine ⟨x :: steps, ?_, .cons hgoes hall, .step hranked ?_⟩
    · intro y hy
      rcases List.mem_cons.1 hy with rfl | hy
      · exact hx
      · exact hsteps y hy
    · rw [he, ← Document.defaultAlong_cons]
      exact hleads

/-! ## Paths -/

/-- A reader has loaded a document with namespaces and is given bindings, which have a prefix for
every namespace that an element of the document is in. Then there is a path for every element: an
expression that is read as steps, each with the local name of the element or of one of its
ancestors, with a bound prefix or none, and with the rank among the siblings that pass its test. The
reader goes exactly to the element, and finds its text. There are no more nodes than a position can
count. -/
theorem FieldReader.exists_path_of_load {text : String} {r₀ r : FieldReader} {l : LoadedDocument}
    (hload : r₀.load text true = (r, .ok ())) (hl : r.loaded = some l) {n : Namespaces}
    (hreaches : n.Reaches l.document.forest) (hsize : l.document.allocated ≤ Path.indexBound)
    {k : Nat} {t : NodeTree} (ht : l.document.node? k = some t)
    (helement : t.1.content.isElement = true) :
    ∃ expression p top ts, Path.parse expression = .ok p ∧ p.attr = none ∧
      l.document.IsTree top ∧ ts.getLast? = some t ∧
      List.Forall₂ (Step.GoesTo n) p.steps ts ∧
      Forest.Leads (p.steps.map ((r.withNamespaces n).stepTest l)) none top ts ∧
      l.document.locate? (p.steps.map ((r.withNamespaces n).stepTest l)) = some t ∧
      (r.withNamespaces n).extract p = .ok (some (l.document.textContent k)) := by
  obtain ⟨-, m, hparse, rfl⟩ := load_eq_ok hload hl
  have hlegal := (Markup.legal_of_read hparse).forest
  obtain ⟨top, htree, hmap⟩ : ∃ top, (Document.ofMarkup m).IsTree top ∧
      top.map Node.content = m.top :=
    ⟨_, rfl, Document.map_content_number (Document.root + 1) m.top⟩
  rw [← hmap] at hlegal
  have hfind := htree.find?_of_isElement ht helement
  obtain ⟨ts, hline, hlast⟩ := Forest.exists_line_of_find? hfind
  have htop : n.Reaches top := by
    refine hreaches.below (t := (⟨Document.root, .document⟩, top)) ?_
    rw [show (Document.ofMarkup m).forest = _ from htree]
    exact List.mem_cons_self
  have htopsize : top.size < Path.indexBound := by
    have hnext : (Document.ofMarkup m).allocated = Document.root + 1 + m.top.size :=
      Document.number_snd _ _
    have hsame : m.top.size = top.size := by rw [← hmap, Forest.size_map]
    have hbound : (Document.ofMarkup m).allocated ≤ Path.indexBound := hsize
    rw [Document.root] at hnext
    omega
  have hlastElement : ∀ u, ts.getLast? = some u → u.1.content.isElement = true := by
    intro u hu
    rw [hlast, Option.some.injEq] at hu
    exact hu ▸ helement
  obtain ⟨steps, hsteps, hgoes, hleads⟩ :=
    exists_steps (r := r.withNamespaces n)
      ⟨Document.ofMarkup m, !(Namespaces.ofMarkup m).isEmpty⟩ hlegal
      (Scope.follows_outermost fun c hc => absurd hc List.not_mem_nil) htop htopsize hline
      hlastElement
  have hlocate := hleads.locate? htree hlast
  have hpath : Path.Expressible ⟨steps, none⟩ := by
    refine ⟨fun hnil => ?_, hsteps, fun q hq => ?_⟩
    · have hempty : steps = [] := by simpa [Path.segments] using hnil
      subst hempty
      cases hgoes
      cases hlast
    · cases hq
  refine ⟨_, _, top, ts, Path.parse_render hpath, rfl, htree, hlast, hgoes, hleads, hlocate, ?_⟩
  unfold extract locate? Document.textContent
  rw [show (r.withNamespaces n).loaded = r.loaded from rfl, hl]
  dsimp only
  rw [hlocate, ht]
  rfl

/-- The third of four elements with one local name, one of which has a prefix of the default
namespace and another of which is in a namespace of its own. It is in none. -/
theorem FieldReader.exists_path_of_load_among :
    let text := "<a xmlns='d' xmlns:p='d'><b xmlns=''/><p:b/><b xmlns=''>x</b><b xmlns='u'/></a>"
    let n : Namespaces := ⟨[("q", "d"), ("v", "u")]⟩
    ∃ r l t, (FieldReader.new {}).load text true = (r, .ok ()) ∧ r.loaded = some l ∧
      n.Reaches l.document.forest ∧ l.document.allocated ≤ Path.indexBound ∧
      l.document.node? 4 = some t ∧ t.1.content.isElement = true ∧
      ∃ expression p top ts, Path.parse expression = .ok p ∧ p.attr = none ∧
        l.document.IsTree top ∧ ts.getLast? = some t ∧
        List.Forall₂ (Step.GoesTo n) p.steps ts ∧
        Forest.Leads (p.steps.map ((r.withNamespaces n).stepTest l)) none top ts ∧
        l.document.locate? (p.steps.map ((r.withNamespaces n).stepTest l)) = some t ∧
        (r.withNamespaces n).extract p = .ok (some (l.document.textContent 4)) := by
  intro text n
  let undeclared : Attribute := ⟨⟨none, "xmlns"⟩, none, ""⟩
  let root : Element := ⟨⟨none, "a"⟩, some "d",
    [⟨⟨none, "xmlns"⟩, none, "d"⟩, ⟨⟨some "xmlns", "p"⟩, none, "d"⟩]⟩
  let plain : Element := ⟨⟨none, "b"⟩, none, [undeclared]⟩
  let prefixed : Element := ⟨⟨some "p", "b"⟩, some "d", []⟩
  let other : Element := ⟨⟨none, "b"⟩, some "u", [⟨⟨none, "xmlns"⟩, none, "u"⟩]⟩
  let m : Markup := ⟨.absent, .cons (.element root) (.cons (.element plain) .nil
    (.cons (.element prefixed) .nil (.cons (.element plain) (.leaf (.text "x"))
      (.leaf (.element other))))) .nil⟩
  let l : LoadedDocument := ⟨Document.ofMarkup m, true⟩
  let r : FieldReader := ⟨{}, some l, ⟨[("", "d"), ("p", "d")]⟩⟩
  have hload : (FieldReader.new {}).load text true = (r, .ok ()) := by
    decide +kernel
  have hreaches : n.Reaches l.document.forest := by
    have helements : l.document.forest.elements = [root, plain, prefixed, plain, other] := rfl
    intro e he u hu
    rw [helements] at he
    have hd : ∃ p, isNCName p = true ∧ n.uri? p = some "d" := ⟨"q", by decide, by decide⟩
    have hother : ∃ p, isNCName p = true ∧ n.uri? p = some "u" := ⟨"v", by decide, by decide⟩
    simp only [List.mem_cons, List.not_mem_nil, or_false] at he
    rcases he with rfl | rfl | rfl | rfl | rfl
    · exact Option.some.inj hu ▸ hd
    · cases hu
    · exact Option.some.inj hu ▸ hd
    · cases hu
    · exact Option.some.inj hu ▸ hother
  have ht : l.document.node? 4 = some (⟨4, .element plain⟩, .leaf ⟨5, .text "x"⟩) := by
    decide +kernel
  have hsize : l.document.allocated ≤ Path.indexBound := by
    decide +kernel
  exact ⟨r, l, _, hload, rfl, hreaches, hsize, ht, rfl,
    FieldReader.exists_path_of_load hload rfl hreaches hsize ht rfl⟩

end MarkupFields
