import Mathlib.Data.List.Nodup
import MarkupFields.Proofs.Markup.WellFormed

/-
  Namespaces read off the finished tree. While markup is read, a scope is handed down to each
  element; in the tree that comes of it, a prefix can be looked up along the line of ancestors,
  where the nearest that declares it decides. Both ways give every name the same namespace
  (`namespacedBy_of_parse`): the scope inside an element follows the line from the element upwards
  (`Scope.Follows`), since each start tag puts its declarations in front of both, and what stands
  beside an element touches neither.
-/

namespace MarkupFields

open Text Scan

/-! ## Looking a prefix up along a line of ancestors -/

namespace Document

/-- What the nearest node of a line that declares the prefix declares it as. The nearest node of the
line comes first. -/
def declaredAlong (p : String) (line : List Content) : Option String :=
  line.findSome? fun c => (Attribute.declarations c.attributes).lookup p

/-- The namespace that a prefix stands for at the end of a line of ancestors. The prefix of the
language attributes always stands for the same. -/
def namespaceAlong (p : String) (line : List Content) : Option String :=
  if p = "xml" then some xmlNamespace else declaredAlong p line

/-- The namespace that a prefix stands for at the node. -/
def namespaceAt? (d : Document) (h : Nat) (p : String) : Option String :=
  (d.forest.lineage? (hasHandle h)).bind fun line => namespaceAlong p (line.map Node.content)

theorem declaredAlong_cons (p : String) (c : Content) (line : List Content) :
    declaredAlong p (c :: line) =
      ((Attribute.declarations c.attributes).lookup p).or (declaredAlong p line) := by
  unfold declaredAlong
  rw [List.findSome?_cons]
  cases (Attribute.declarations c.attributes).lookup p <;> rfl

end Document

/-- Given the default namespace and what prefixes stand for: the name of the element is in the
namespace of its prefix, or in the default namespace, and each attribute is in the namespace of its
prefix, or in none. Declarations are in none. -/
structure Element.NamespacedBy (default : Option String) (uri? : String → Option String)
    (e : Element) : Prop where
  plain : e.name.nsPrefix = none → e.namespaceUri = default
  prefixed : ∀ p, e.name.nsPrefix = some p → ∃ u, uri? p = some u ∧ e.namespaceUri = some u
  bare : ∀ a ∈ e.attributes, a.isDeclaration = true ∨ a.name.nsPrefix = none →
    a.namespaceUri = none
  attributes : ∀ a ∈ e.attributes, ∀ p, a.name.nsPrefix = some p → p ≠ "xmlns" →
    ∃ u, uri? p = some u ∧ a.namespaceUri = some u

/-! ## Scopes that follow a line of ancestors -/

theorem find?_fst_eq_lookup (l : List (String × String)) (k : String) :
    (l.find? fun d => d.1 == k).map Prod.snd = l.lookup k := by
  induction l with
  | nil => rfl
  | cons d l ih =>
    by_cases h : d.1 = k
    · subst h
      rw [List.find?_cons_of_pos (by simp), List.lookup_cons_self]
      rfl
    · have hk : (k == d.1) = false := beq_eq_false_iff_ne.2 (Ne.symm h)
      rw [List.find?_cons_of_neg (by simpa using h), ih, List.lookup_cons, hk]

/-- Where no prefix is declared twice, the order of declarations makes no difference. -/
theorem lookup_reverse {l : List (String × String)} (h : (l.map Prod.fst).Nodup) (k : String) :
    l.reverse.lookup k = l.lookup k := by
  have hreverse : (l.reverse.map Prod.fst).Nodup := by
    rw [List.map_reverse]
    exact List.nodup_reverse.2 h
  apply Option.ext
  intro v
  constructor
  · intro hv
    exact lookup_of_mem h (List.mem_reverse.1 (mem_of_lookup hv))
  · intro hv
    exact lookup_of_mem hreverse (List.mem_reverse.2 (mem_of_lookup hv))

/-- The default namespace along a line is what the empty prefix is declared as, unless that takes it
back. -/
theorem Document.defaultAlong_eq (line : List Content) :
    defaultAlong line = (declaredAlong "" line).filter (· != "") := by
  have hline : (line.findSome? fun c => Attribute.defaultDeclared? c.attributes) =
      declaredAlong "" line := by
    unfold declaredAlong Attribute.defaultDeclared?
    simp only [find?_fst_eq_lookup]
  unfold defaultAlong
  rw [hline]
  cases declaredAlong "" line with
  | none => rfl
  | some uri =>
    by_cases h : uri = "" <;> simp [h, Option.filter_some]

namespace Scope

open Document

/-- The scope knows of each prefix what the line declares it as, and of the prefix of the language
attributes what it always stands for. -/
structure Follows (s : Scope) (line : List Content) : Prop where
  lookup : ∀ p, s.lookup p = (declaredAlong p line).or (outermost.lookup p)
  language : ∀ u, declaredAlong "xml" line = some u → u = xmlNamespace

/-- Outside the root element nothing is declared. -/
theorem follows_outermost {line : List Content} (h : ∀ c ∈ line, c.attributes = []) :
    outermost.Follows line := by
  have hnone : ∀ p, declaredAlong p line = none := by
    intro p
    refine List.findSome?_eq_none_iff.2 fun c hc => ?_
    rw [h c hc]
    rfl
  refine ⟨fun p => ?_, fun u hu => ?_⟩
  · rw [hnone p, Option.none_or]
  · rw [hnone "xml"] at hu
    cases hu

variable {s : Scope} {line : List Content}

/-- A start tag puts its declarations before the scope and its element before the line. -/
theorem Follows.inside (h : s.Follows line) {e : Element} {uri : Option String}
    (he : e.Opens s uri) : (s.inside e.attributes).Follows (.element e :: line) := by
  have hnodup : ((Attribute.declarations e.attributes).map Prod.fst).Nodup := by
    have hprefixes := he.attributes.prefixes
    unfold Attribute.declarations
    rw [List.map_filterMap]
    simpa only [Option.map_map, Function.comp_def, Option.map_id'] using hprefixes
  refine ⟨fun p => ?_, fun u hu => ?_⟩
  · rw [lookup_inside, lookup_reverse hnodup, h.lookup p, declaredAlong_cons, Option.or_assoc]
    rfl
  · rw [declaredAlong_cons, Option.or_eq_some_iff] at hu
    rcases hu with hu | ⟨-, hu⟩
    · rcases (he.declarable _ (mem_of_lookup hu)).cases with hempty | ⟨-, -, -, hxml⟩
      · have hxml : "xml" = "" := hempty
        exact absurd hxml (by decide)
      · exact hxml rfl
    · exact h.language u hu

/-- What a prefix stands for in the scope it stands for along the line. -/
theorem Follows.namespaceAlong (h : s.Follows line) {p u : String} (hu : s.resolve? p = some u) :
    Document.namespaceAlong p line = some u := by
  have hfound := (Option.filter_eq_some_iff.1 hu).1
  rw [h.lookup p, Option.or_eq_some_iff] at hfound
  unfold Document.namespaceAlong
  by_cases hp : p = "xml"
  · subst hp
    rw [if_pos rfl]
    rcases hfound with hdeclared | ⟨-, houter⟩
    · rw [h.language u hdeclared]
    · exact houter
  · rw [if_neg hp]
    rcases hfound with hdeclared | ⟨-, houter⟩
    · exact hdeclared
    · have hne : (p == "xml") = false := beq_eq_false_iff_ne.2 hp
      rw [outermost, List.lookup_cons, hne] at houter
      cases houter

/-- The default namespace of the scope is that of the line. -/
theorem Follows.resolve?_empty (h : s.Follows line) : s.resolve? "" = defaultAlong line := by
  rw [defaultAlong_eq, resolve?, h.lookup ""]
  exact congrArg _ Option.or_none

end Scope

/-- A start tag that opens its element in the namespace that it has names it, and its attributes, as
the line from the element upwards says. -/
theorem Element.Opens.namespacedBy {s : Scope} {line : List Content} {e : Element}
    (he : e.Opens s e.namespaceUri) (hs : s.Follows line) :
    e.NamespacedBy (Document.defaultAlong (.element e :: line))
      fun p => Document.namespaceAlong p (.element e :: line) := by
  have hinside := hs.inside he
  refine ⟨fun hp => ?_, fun p hp => ?_, fun a ha hbare => ?_, fun a ha p hp hx => ?_⟩
  · rcases Scope.elementNamespace_eq_ok.1 he.named with ⟨-, huri⟩ | ⟨p, u, hsome, -⟩
    · rw [huri, hinside.resolve?_empty]
    · rw [hp] at hsome
      cases hsome
  · rcases Scope.elementNamespace_eq_ok.1 he.named with ⟨hnone, -⟩ | ⟨p', u, hsome, hu, huri⟩
    · rw [hp] at hnone
      cases hnone
    · rw [hp, Option.some.injEq] at hsome
      exact ⟨u, hinside.namespaceAlong (hsome ▸ hu), huri⟩
  · have hmeant := he.attributes.each a ha
    rcases hbare with hdeclares | hnone
    · obtain ⟨p, hp⟩ := Option.isSome_iff_exists.1 hdeclares
      exact hmeant.namespaceUri_of_declares hp
    · rcases Scope.attributeNamespace_eq_ok.1 hmeant.named with ⟨-, huri⟩ | ⟨p, u, hsome, -⟩
      · exact huri
      · rw [hnone] at hsome
        cases hsome
  · rcases Scope.attributeNamespace_eq_ok.1 (he.attributes.each a ha).named with
      ⟨hnone | hxmlns, -⟩ | ⟨p', u, hsome, -, hu, huri⟩
    · rw [hp] at hnone
      cases hnone
    · rw [hp, Option.some.injEq] at hxmlns
      exact absurd hxmlns hx
    · rw [hp, Option.some.injEq] at hsome
      exact ⟨u, hinside.namespaceAlong (hsome ▸ hu), huri⟩

/-! ## The stack of open elements -/

namespace ReadState

variable {o : ReadOptions}

/-- The states that the reading of a root element comes through. -/
inductive Reached (o : ReadOptions) : ReadState → Prop
  | start {whole cs : List Char} {s : ReadState}
      (begun : nestElement o [] 0 whole cs = .ok (.going s)) : Reached o s
  | step {s s' : ReadState} (before : Reached o s) (taken : s.step o = .ok (.going s')) :
      Reached o s'

theorem Reached.of_allows {o' : ReadOptions} (ho : o.Allows o') {s : ReadState}
    (h : Reached o s) : Reached o' s := by
  induction h with
  | start begun => exact .start (nestElement_of_allows ho begun)
  | step _ taken ih => exact .step ih (step_of_allows ho taken)

theorem Reached.sound (hname : 4 ≤ o.maxNameLength) {s : ReadState} (h : Reached o s) :
    s.Sound o := by
  have hempty : SoundChain o [] := trivial
  induction h with
  | start begun => exact hempty.nestElement hname begun
  | step _ taken ih => exact ih.step hname taken

/-- The scope inside open elements follows the line of these elements. -/
theorem SoundChain.follows (ha : o.namespaceAware = true) {chain : List OpenElement}
    (h : SoundChain o chain) :
    (scopeIn chain).Follows (chain.map fun x => .element x.element) := by
  induction chain with
  | nil => exact Scope.follows_outermost fun c hc => absurd hc List.not_mem_nil
  | cons x around ih =>
    have hread : x.element.ReadIn true (scopeIn around) x.scope := ha ▸ h.1.names
    have hwritable : x.element.Writable true := ha ▸ h.1.writable
    obtain ⟨hopens, hscope⟩ := Element.opens_of_legal hwritable hread
    show Scope.Follows x.scope _
    rw [hscope]
    exact (ih h.2).inside hopens

/-- At every point of reading with namespaces, whatever has been read and closed before, the scope
inside the innermost open element is what the open elements declare. -/
theorem Reached.follows (ha : o.namespaceAware = true) {s : ReadState} (h : Reached o s) :
    s.innermost.scope.Follows
      ((s.innermost :: s.enclosing).map fun x => .element x.element) := by
  -- with a limit on names that lets the names of all entities through
  let o' : ReadOptions := { o with maxNameLength := max 4 o.maxNameLength }
  have ho : o.Allows o' :=
    ⟨rfl, rfl, Nat.le_refl _, Nat.le_max_right 4 o.maxNameLength, Nat.le_refl _⟩
  have hsound : s.Sound o' := (h.of_allows ho).sound (Nat.le_max_left 4 _)
  have haware : o'.namespaceAware = true := ha
  exact hsound.chain.follows haware

end ReadState

/-! ## Lines of ancestors in a forest -/

namespace Forest

variable {α : Type} {q : α → Bool}

theorem lineage?_ne_nil {f : Forest α} {line : List α} (h : f.lineage? q = some line) :
    line ≠ [] := by
  induction f generalizing line with
  | nil => cases h
  | cons a below beside ihb ihs =>
    unfold lineage? at h
    split at h
    · rw [← Option.some.inj h]
      exact List.cons_ne_nil a []
    · rcases Option.or_eq_some_iff.1 h with h | ⟨-, h⟩
      · obtain ⟨inner, -, rfl⟩ := Option.map_eq_some_iff.1 h
        exact List.append_ne_nil_of_right_ne_nil inner (List.cons_ne_nil a [])
      · exact ihs h

/-- There is no line of ancestors to what is not found. -/
theorem lineage?_eq_none {f : Forest α} (h : f.find? q = none) : f.lineage? q = none := by
  induction f with
  | nil => rfl
  | cons a below beside ihb ihs =>
    unfold find? at h
    unfold lineage?
    split at h
    · cases h
    · rename_i hq
      rw [Option.or_eq_none_iff] at h
      rw [if_neg hq, ihb h.1, ihs h.2]
      rfl

/-- What is found stands at the end of its line of ancestors. -/
theorem lineage?_of_find? {f : Forest α} {t : α × Forest α} (h : f.find? q = some t) :
    ∃ line, f.lineage? q = some (t.1 :: line) := by
  induction f with
  | nil => cases h
  | cons a below beside ihb ihs =>
    unfold find? at h
    unfold lineage?
    split at h
    · rename_i hq
      rw [if_pos hq, ← Option.some.inj h]
      exact ⟨[], rfl⟩
    · rename_i hq
      rw [if_neg hq]
      rcases Option.or_eq_some_iff.1 h with h | ⟨hbelow, h⟩
      · obtain ⟨line, hline⟩ := ihb h
        rw [hline]
        exact ⟨line ++ [a], rfl⟩
      · obtain ⟨line, hline⟩ := ihs h
        rw [lineage?_eq_none hbelow, hline]
        exact ⟨line, rfl⟩

/-- Every element of a legal forest is named as its line of ancestors says, if the scope around the
forest follows the nodes around it. -/
theorem Legal.namespacedBy {s : Scope} {f : Forest Content} (h : f.Legal true s)
    {outer : List Content} (hs : s.Follows outer) {g : Forest Node}
    (hg : g.map Node.content = f) {test : Node → Bool} {k : Nat} {e : Element}
    {line : List Node} (hline : g.lineage? test = some (⟨k, .element e⟩ :: line)) :
    e.NamespacedBy (Document.defaultAlong (.element e :: (line.map Node.content ++ outer)))
      fun p => Document.namespaceAlong p (.element e :: (line.map Node.content ++ outer)) := by
  induction h generalizing outer g line with
  | nil =>
    cases g with
    | nil => cases hline
    | cons n below beside => cases hg
  | @element s inside e' children beside writable names content rest ihc ihr =>
    cases g with
    | nil => cases hg
    | cons n below beside' =>
      obtain ⟨hroot, hbelow, hbeside⟩ := Forest.cons.inj hg
      obtain ⟨hopens, hinside⟩ := Element.opens_of_legal writable names
      unfold lineage? at hline
      split at hline
      · obtain ⟨rfl, rfl⟩ := List.cons.inj (Option.some.inj hline)
        obtain rfl : e = e' := Content.element.inj hroot
        exact hopens.namespacedBy hs
      · rcases Option.or_eq_some_iff.1 hline with hline | ⟨-, hline⟩
        · -- the line goes on with the element and then with what is around it
          obtain ⟨inner, hinner, happend⟩ := Option.map_eq_some_iff.1 hline
          obtain ⟨first, inner, rfl⟩ := List.exists_cons_of_ne_nil (lineage?_ne_nil hinner)
          obtain ⟨rfl, hrest⟩ := List.cons.inj happend
          have hfollows := hs.inside hopens
          rw [← hinside] at hfollows
          have hnamed := ihc hfollows hbelow hinner
          have houter : line.map Node.content ++ outer =
              inner.map Node.content ++ .element e' :: outer := by
            rw [← hrest, ← hroot, List.append_eq, List.map_append, List.append_assoc]
            rfl
          rwa [houter]
        · exact ihr hs hbeside hline
  | @leaf s c beside writable apart rest ih =>
    cases g with
    | nil => cases hg
    | cons n below beside' =>
      obtain ⟨hroot, hbelow, hbeside⟩ := Forest.cons.inj hg
      unfold lineage? at hline
      split at hline
      · obtain ⟨rfl, rfl⟩ := List.cons.inj (Option.some.inj hline)
        rw [← hroot] at writable
        exact absurd writable id
      · rcases Option.or_eq_some_iff.1 hline with hline | ⟨-, hline⟩
        · cases below with
          | nil => cases hline
          | cons m below beside => cases hbelow
        · exact ih hs hbeside hline

theorem isText_of_isMiscellany {c : Content} (h : c.isMiscellany = true) : c.isText = false := by
  cases c with
  | text s => cases h
  | _ => rfl

/-- Comments and instructions can stand anywhere. -/
theorem Miscellaneous.legal {f : Forest Content} (h : f.Miscellaneous) (aware : Bool)
    (s : Scope) : f.Legal aware s := by
  induction f with
  | nil => exact .nil
  | cons c below beside _ ih =>
    obtain ⟨⟨hmiscellany, hleaf, rfl⟩, hrest⟩ := h
    refine .leaf hleaf (fun htext => ?_) (ih hrest)
    rw [isText_of_isMiscellany hmiscellany] at htext
    cases htext

theorem Miscellaneous.endsWithText {f : Forest Content} (h : f.Miscellaneous) :
    f.endsWithText = false := by
  unfold Forest.endsWithText
  cases hlast : f.roots.getLast? with
  | none => rfl
  | some c => exact isText_of_isMiscellany (h.wellFormed.2 c (List.mem_of_getLast? hlast))

end Forest

/-- The whole top level of legal markup is legal. -/
theorem Markup.Legal.forest {aware : Bool} {m : Markup} (h : m.Legal aware) :
    m.top.Legal aware Scope.outermost := by
  obtain ⟨before, e, below, behind, htop, hbefore, hbehind, hroot⟩ := h.top
  rw [htop]
  refine (hbefore.legal aware _).append (hroot.append (hbehind.legal aware _) ?_) ?_
  · intro he
    cases he
  · intro he
    rw [hbefore.endsWithText] at he
    cases he

/-! ## Documents -/

/-- Every element of a document that was read with namespaces is named as the tree says: its name
and the names of its attributes are in the namespaces that their prefixes are declared as by the
nearest of the element and its ancestors, an element name without a prefix is in the default
namespace that holds at the element, and attributes without a prefix, as well as declarations, are
in none. -/
theorem Markup.namespacedBy_of_parse {o : ReadOptions} (ha : o.namespaceAware = true) {t : String}
    {m : Markup} (h : Markup.parse o t = .ok m) {k : Nat} {e : Element}
    (he : (Document.ofMarkup m).content? k = some (.element e)) :
    e.NamespacedBy ((Document.ofMarkup m).defaultNamespace? k)
      ((Document.ofMarkup m).namespaceAt? k) := by
  have hlegal := legal_of_read h
  rw [ha] at hlegal
  have hmap := Document.map_content_number (Document.root + 1) m.top
  obtain ⟨⟨⟨k', c⟩, below⟩, hfind, rfl⟩ := Option.map_eq_some_iff.1 he
  obtain ⟨line, hline⟩ := Forest.lineage?_of_find? hfind
  have houtside : Scope.outermost.Follows [.document] := by
    refine Scope.follows_outermost fun c hc => ?_
    rw [List.mem_singleton.1 hc]
    rfl
  have hnamed : e.NamespacedBy (Document.defaultAlong (.element e :: line.map Node.content))
      fun p => Document.namespaceAlong p (.element e :: line.map Node.content) := by
    have hdocument := hline
    unfold Document.ofMarkup Forest.lineage? at hdocument
    dsimp only at hdocument
    split at hdocument
    · cases (Option.some.inj hdocument)
    · rcases Option.or_eq_some_iff.1 hdocument with hbelow | ⟨-, hnil⟩
      · obtain ⟨inner, hinner, happend⟩ := Option.map_eq_some_iff.1 hbelow
        obtain ⟨first, inner, rfl⟩ :=
          List.exists_cons_of_ne_nil (Forest.lineage?_ne_nil hinner)
        obtain ⟨rfl, rfl⟩ := List.cons.inj happend
        rw [List.append_eq, List.map_append]
        exact hlegal.forest.namespacedBy houtside hmap hinner
      · cases hnil
  have hdefault : (Document.ofMarkup m).defaultNamespace? k =
      Document.defaultAlong (.element e :: line.map Node.content) := by
    unfold Document.defaultNamespace?
    rw [hline]
    rfl
  have hprefixes : (Document.ofMarkup m).namespaceAt? k =
      fun p => Document.namespaceAlong p (.element e :: line.map Node.content) := by
    funext p
    unfold Document.namespaceAt?
    rw [hline]
    rfl
  rw [hdefault, hprefixes]
  exact hnamed

/-- An element behind one that binds its prefix anew and takes the default namespace back: it is
named by the root. -/
theorem Markup.namespacedBy_of_parse_behind :
    let t := "<a xmlns='u' xmlns:p='1'><p:b xmlns:p='2' xmlns=''><c p:x=''/></p:b>" ++
      "<p:c p:x='' xml:lang='d'/></a>"
    let e : Element := ⟨⟨some "p", "c"⟩, some "1",
      [⟨⟨some "p", "x"⟩, some "1", ""⟩, ⟨⟨some "xml", "lang"⟩, some xmlNamespace, "d"⟩]⟩
    ∃ m, ReadOptions.namespaceAware {} = true ∧ Markup.parse {} t = .ok m ∧
      (Document.ofMarkup m).content? 4 = some (.element e) ∧
      e.NamespacedBy ((Document.ofMarkup m).defaultNamespace? 4)
        ((Document.ofMarkup m).namespaceAt? 4) := by
  intro t e
  let inner : Element := ⟨⟨none, "c"⟩, none, [⟨⟨some "p", "x"⟩, some "2", ""⟩]⟩
  let first : Element := ⟨⟨some "p", "b"⟩, some "2",
    [⟨⟨some "xmlns", "p"⟩, none, "2"⟩, ⟨⟨none, "xmlns"⟩, none, ""⟩]⟩
  let root : Element := ⟨⟨none, "a"⟩, some "u",
    [⟨⟨none, "xmlns"⟩, none, "u"⟩, ⟨⟨some "xmlns", "p"⟩, none, "1"⟩]⟩
  let m : Markup := ⟨.absent, .cons (.element root)
    (.cons (.element first) (.leaf (.element inner)) (.leaf (.element e))) .nil⟩
  have hparse : Markup.parse {} t = .ok m := by
    decide +kernel
  have he : (Document.ofMarkup m).content? 4 = some (.element e) := by
    decide +kernel
  exact ⟨m, rfl, hparse, he, Markup.namespacedBy_of_parse rfl hparse he⟩

end MarkupFields
