import MarkupFields.Markup.Prolog
import MarkupFields.Markup.Scope
import MarkupFields.Proofs.Markup.Escapes
import Mathlib.Algebra.Ring.Nat

/-
  Forests that markup can express. A legal forest is one that its own written form reads back to:
  names are names and split where they were put together, characters may stand in a document, the
  inside of each leaf is free of its end mark, no two texts stand side by side, and the namespaces
  are those that the written names have in their scope. What a legal forest takes of the limits of
  reading is measured apart: its height, the names it writes and the references it writes.

  Less is asked of a single node for it to be read at all: that its names and characters can be
  written (`Content.Spelled`) and that nothing inside it ends it (`Content.Contained`). What it is
  read as is then `Content.asRead`; a legal leaf is read as it is.
-/

namespace MarkupFields

open Text Scan

/-! ## Names and attributes -/

/-- The name is written as a name of markup, and its first colon ends its prefix. -/
structure QName.Writable (q : QName) : Prop where
  isName : IsName q.written.toList
  split : QName.ofChars q.written.toList = q

theorem QName.writable_ofChars {word : List Char} (h : IsName word) :
    (QName.ofChars word).Writable := by
  have hw : (QName.ofChars word).written.toList = word := by
    rw [QName.written_ofChars, String.toList_ofList]
  exact ⟨hw.symm ▸ h, by rw [hw]⟩

theorem isName_of_isNCNameChars {cs : List Char} (h : isNCNameChars cs = true) :
    IsName cs ∧ ':' ∉ cs := by
  cases cs with
  | nil => cases h
  | cons c cs =>
    unfold isNCNameChars at h
    rw [Bool.and_eq_true, Bool.and_eq_true, List.all_eq_true, bne_iff_ne] at h
    obtain ⟨⟨hc, hstart⟩, hrest⟩ := h
    refine ⟨⟨c, cs, rfl, hstart, fun d hd => ?_⟩, ?_⟩
    · exact (Bool.and_eq_true_iff.1 (hrest d hd)).2
    · intro hm
      rcases List.mem_cons.1 hm with he | hm
      · exact hc he.symm
      · have := (Bool.and_eq_true_iff.1 (hrest ':' hm)).1
        cases this

theorem QName.ofChars_of_not_mem {cs : List Char} (h : ':' ∉ cs) :
    ofChars cs = ⟨none, String.ofList cs⟩ := by
  have hdrop : cs.dropWhile (· != ':') = [] := by
    rw [List.dropWhile_eq_nil_iff]
    intro c hc
    rw [bne_iff_ne]
    rintro rfl
    exact h hc
  unfold ofChars
  rw [hdrop]

theorem QName.ofChars_append {cs rest : List Char} (h : ':' ∉ cs) :
    ofChars (cs ++ ':' :: rest) = ⟨some (String.ofList cs), String.ofList rest⟩ := by
  have hne : ∀ c ∈ cs, (c != ':') = true := by
    intro c hc
    rw [bne_iff_ne]
    rintro rfl
    exact h hc
  have hdrop : (cs ++ ':' :: rest).dropWhile (· != ':') = ':' :: rest := by
    rw [List.dropWhile_append_of_pos hne]
    rfl
  have htake : (cs ++ ':' :: rest).takeWhile (· != ':') = cs := by
    rw [List.takeWhile_append_of_pos hne, List.takeWhile_cons_of_neg (by decide), List.append_nil]
  unfold ofChars
  rw [hdrop, htake]

/-- A qualified name is written as a name, and its colon ends its prefix. -/
theorem QName.writable_of_isQualified {q : QName} (h : q.isQualified = true) : q.Writable := by
  obtain ⟨nsPrefix, localName⟩ := q
  unfold isQualified at h
  rw [Bool.and_eq_true] at h
  obtain ⟨hlocal, hcolon⟩ := isName_of_isNCNameChars h.2
  cases nsPrefix with
  | none =>
    refine ⟨hlocal, ?_⟩
    show ofChars localName.toList = _
    rw [ofChars_of_not_mem hcolon, String.ofList_toList]
  | some p =>
    obtain ⟨hp, hpcolon⟩ := isName_of_isNCNameChars h.1
    have hwritten : (QName.written ⟨some p, localName⟩).toList =
        p.toList ++ ':' :: localName.toList := by
      show (p ++ ":" ++ localName).toList = _
      rw [String.toList_append, String.toList_append, List.append_assoc]
      rfl
    refine ⟨?_, ?_⟩
    · obtain ⟨c, cs, hc, hstart, hrest⟩ := hp
      obtain ⟨d, ds, hd, hstart', hrest'⟩ := hlocal
      rw [hwritten, hc, hd]
      refine ⟨c, cs ++ ':' :: d :: ds, rfl, hstart, ?_⟩
      intro x hx
      rcases List.mem_append.1 hx with hx | hx
      · exact hrest x hx
      · rcases List.mem_cons.1 hx with rfl | hx
        · decide
        · rcases List.mem_cons.1 hx with rfl | hx
          · exact isNameChar_of_isNameStart hstart'
          · exact hrest' x hx
    · rw [hwritten, ofChars_append hpcolon, String.ofList_toList, String.ofList_toList]

/-- The attribute can be written; where namespaces count, its name is a qualified name. -/
structure Attribute.Writable (aware : Bool) (a : Attribute) : Prop where
  name : a.name.Writable
  value : ∀ c ∈ a.value.toList, isXmlChar c = true
  qualified : aware = true → a.name.isQualified = true

/-- The attribute as markup shows it, without a namespace. -/
def Attribute.asWritten (a : Attribute) : Attribute :=
  { a with namespaceUri := none }

/-- The element as its start tag shows it, without namespaces. -/
def Element.asWritten (e : Element) : Element :=
  ⟨e.name, none, e.attributes.map Attribute.asWritten⟩

/-- The node as markup shows it, without namespaces. -/
def Content.asWritten : Content → Content
  | .element e => .element e.asWritten
  | c => c

/-- The start tag of the element can be written. -/
structure Element.Writable (aware : Bool) (e : Element) : Prop where
  name : e.name.Writable
  attributes : ∀ a ∈ e.attributes, a.Writable aware
  distinct : (e.attributes.map Attribute.name).Nodup

/-- The start tag of the element, read in a scope, gives the element; with the scope inside it. -/
def Element.ReadIn (aware : Bool) (s : Scope) (e : Element) (inside : Scope) : Prop :=
  if aware then s.enter e.asWritten = .ok (inside, e) else inside = s ∧ e.asWritten = e

/-! ## Forests -/

/-- The node is a text. -/
def Content.isText : Content → Bool
  | .text _ => true
  | _ => false

/-- A node without anything below it that can be written. -/
def Content.LegalLeaf : Content → Prop
  | .text s => s ≠ "" ∧ ∀ c ∈ s.toList, isXmlChar c = true
  | .cdata s => Ended [']', ']'] '>' s.toList
  | .comment s => CommentText s.toList
  | .instruction target data => IsTarget target.toList ∧ ∀ d ∈ data, InstructionText d.toList
  | .element _ => False
  | .document => False

/-- The node is written between marks of its own. -/
def Content.isEnclosed : Content → Bool
  | .cdata _ => true
  | .comment _ => true
  | .instruction _ _ => true
  | _ => false

/-- Names are names, those of attributes are distinct, and every character may stand in a document. -/
def Content.Spelled : Content → Prop
  | .document => True
  | .element e =>
    e.name.isQualified = true ∧ (e.attributes.map Attribute.name).Nodup ∧
      ∀ a ∈ e.attributes, a.name.isQualified = true ∧ ∀ c ∈ a.value.toList, isXmlChar c = true
  | .text s => ∀ c ∈ s.toList, isXmlChar c = true
  | .cdata s => ∀ c ∈ s.toList, isXmlChar c = true
  | .comment s => ∀ c ∈ s.toList, isXmlChar c = true
  | .instruction target data =>
    IsTarget target.toList ∧ ∀ d ∈ data, ∀ c ∈ d.toList, isXmlChar c = true

/-- Nothing inside the node ends it before its end mark. -/
def Content.Contained : Content → Prop
  | .cdata s => ¬ cdataClose <:+: s.toList
  | .comment s => ¬ ['-', '-'] <:+: s.toList ++ ['-']
  | .instruction _ data => ∀ d ∈ data, ¬ instructionClose <:+: d.toList
  | _ => True

/-- The node as it is read from what is written for it: between marks line ends are made equal, and
an instruction loses the space in front of its data. -/
def Content.asRead : Content → Content
  | .cdata s => .cdata (String.ofList (lineEnds s.toList))
  | .comment s => .comment (String.ofList (lineEnds s.toList))
  | .instruction target data =>
    .instruction target (data.bind fun d => (readData d.toList).map String.ofList)
  | c => c.asWritten

theorem Content.LegalLeaf.toList_ne_nil {s : String} (h : (Content.text s).LegalLeaf) :
    s.toList ≠ [] :=
  fun he => h.1 (String.toList_injective he)

theorem Content.LegalLeaf.isElement {c : Content} (h : c.LegalLeaf) : c.isElement = false := by
  cases c with
  | element e => exact absurd h id
  | _ => rfl

theorem Content.LegalLeaf.isEnclosed {c : Content} (h : c.LegalLeaf) (ht : c.isText = false) :
    c.isEnclosed = true := by
  cases c with
  | document => exact absurd h id
  | element e => exact absurd h id
  | text s => cases ht
  | _ => rfl

theorem Content.LegalLeaf.spelled {c : Content} (h : c.LegalLeaf) : c.Spelled := by
  cases c with
  | document => trivial
  | element e => exact absurd h id
  | text s => exact h.2
  | cdata s => exact fun d hd => (h.1 d hd).1
  | comment s => exact fun d hd => (h.1 d hd).1
  | instruction target data => exact ⟨h.1, fun d hd c hc => ((h.2 d hd).1.1 c hc).1⟩

theorem Content.LegalLeaf.contained {c : Content} (h : c.LegalLeaf) : c.Contained := by
  cases c with
  | cdata s => exact fun hi => h.2 (hi.trans (List.prefix_append _ [']', ']']).isInfix)
  | comment s => exact h.2
  | instruction target data =>
    exact fun d hd hi => (h.2 d hd).1.2 (hi.trans (List.prefix_append _ ['?']).isInfix)
  | _ => trivial

/-- A leaf that was read is read as it is. -/
theorem Content.LegalLeaf.asRead {c : Content} (h : c.LegalLeaf) : c.asRead = c := by
  cases c with
  | element e => exact absurd h id
  | cdata s => rw [Content.asRead, lineEnds_of_not_mem h.1.not_mem, String.ofList_toList]
  | comment s => rw [Content.asRead, lineEnds_of_not_mem h.1.not_mem, String.ofList_toList]
  | instruction target data =>
    cases data with
    | none => rfl
    | some d =>
      have hd : readData d.toList = some d.toList := (h.2 d rfl).readData_eq
      simp only [Content.asRead, Option.bind_some, hd, Option.map_some, String.ofList_toList]
  | document => rfl
  | text s => rfl

namespace Forest

/-- The first tree is a text. -/
def startsWithText (f : Forest Content) : Bool :=
  f.roots.head?.any Content.isText

/-- The last tree is a text. -/
def endsWithText (f : Forest Content) : Bool :=
  f.roots.getLast?.any Content.isText

/-- The forest can be written, and its written form read in the scope is the forest. -/
inductive Legal (aware : Bool) : Scope → Forest Content → Prop
  | nil {s : Scope} : Legal aware s .nil
  | element {s inside : Scope} {e : Element} {children beside : Forest Content}
      (writable : e.Writable aware) (names : e.ReadIn aware s inside)
      (content : Legal aware inside children) (rest : Legal aware s beside) :
      Legal aware s (.cons (.element e) children beside)
  | leaf {s : Scope} {c : Content} {beside : Forest Content} (writable : c.LegalLeaf)
      (apart : c.isText = true → beside.startsWithText = false) (rest : Legal aware s beside) :
      Legal aware s (.cons c .nil beside)

/-- A legal element has a name. -/
theorem Legal.isName {aware : Bool} {s : Scope} {e : Element} {below beside : Forest Content}
    (h : (Forest.cons (.element e) below beside).Legal aware s) : IsName e.name.written.toList := by
  cases h with
  | element writable => exact writable.name.isName
  | leaf writable => exact absurd writable id

theorem startsWithText_append {f g : Forest Content} (hf : f.startsWithText = false)
    (hg : f = .nil → g.startsWithText = false) : (f ++ g).startsWithText = false := by
  cases f with
  | nil => exact hg rfl
  | cons c below beside => exact hf

/-- Legal forests stand side by side, unless a text would stand beside a text. -/
theorem Legal.append {aware : Bool} {s : Scope} {f g : Forest Content} (hf : f.Legal aware s)
    (hg : g.Legal aware s) (h : f.endsWithText = true → g.startsWithText = false) :
    (f ++ g).Legal aware s := by
  induction hf with
  | nil => exact hg
  | element writable names content rest ihc ihr =>
    refine .element writable names content (ihr hg ?_)
    intro he
    refine h ?_
    rename_i beside
    cases beside with
    | nil => cases he
    | cons c below beside => exact he
  | leaf writable apart rest ih =>
    rename_i s c beside
    have hrest : beside.endsWithText = true → g.startsWithText = false := by
      intro he
      refine h ?_
      cases beside with
      | nil => cases he
      | cons c below beside => exact he
    refine .leaf writable ?_ (ih hg hrest)
    intro hc
    refine startsWithText_append (apart hc) ?_
    rintro rfl
    exact h hc

/-! ## What a forest takes of the limits -/

/-- The number of elements that lie inside each other, at most. -/
def height : Forest Content → Nat
  | nil => 0
  | cons c below beside => max (if c.isElement then below.height + 1 else 0) beside.height

theorem height_element (e : Element) (below beside : Forest Content) :
    height (.cons (.element e) below beside) = max (below.height + 1) beside.height := rfl

theorem height_leaf {c : Content} (hc : c.isElement = false) (below beside : Forest Content) :
    height (.cons c below beside) = beside.height := by
  rw [height, hc, if_neg Bool.false_ne_true, Nat.zero_max]

@[simp] theorem height_append (f g : Forest Content) :
    (f ++ g).height = max f.height g.height := by
  induction f with
  | nil => simp [height]
  | cons c below beside _ ih => simp only [cons_append, height, ih, Nat.max_assoc]

end Forest

/-- No name that the node writes is longer than the limit, the names of entities included. -/
def Content.NamesWithin (limit : Nat) : Content → Prop
  | .element e =>
    utf8Length e.name.written.toList ≤ limit ∧
      ∀ a ∈ e.attributes, utf8Length a.name.written.toList ≤ limit ∧
        ∀ c ∈ a.value.toList, entityLength (Render.escapedInValue c) ≤ limit
  | .text s => ∀ c ∈ s.toList, entityLength (Render.escapedInText c) ≤ limit
  | .instruction target _ => utf8Length target.toList ≤ limit
  | _ => True

instance (limit : Nat) : (c : Content) → Decidable (c.NamesWithin limit)
  | .element e =>
    letI := fun a : Attribute => List.decidableBAll
      (fun c => entityLength (Render.escapedInValue c) ≤ limit) a.value.toList
    inferInstanceAs (Decidable (_ ∧ ∀ a ∈ e.attributes, _ ∧ ∀ c ∈ a.value.toList, _))
  | .text s =>
    List.decidableBAll (fun c => entityLength (Render.escapedInText c) ≤ limit) s.toList
  | .instruction _ _ => inferInstanceAs (Decidable (_ ≤ limit))
  | .document => .isTrue trivial
  | .cdata _ => .isTrue trivial
  | .comment _ => .isTrue trivial

/-- The number of references that the value of the attribute is written with. -/
def Attribute.references (a : Attribute) : Nat :=
  Scan.references Render.escapedInValue a.value.toList

/-- The number of references that the node writes. -/
def Content.references : Content → Nat
  | .element e => (e.attributes.map Attribute.references).sum
  | .text s => Scan.references Render.escapedInText s.toList
  | _ => 0

/-- Among the leaves only texts write references. -/
theorem Content.LegalLeaf.references {c : Content} (h : c.LegalLeaf) (ht : c.isText = false) :
    c.references = 0 := by
  cases c with
  | element e => exact absurd h id
  | text s => cases ht
  | _ => rfl

/-- The number of references that the forest writes. -/
def Forest.references (f : Forest Content) : Nat :=
  (f.preorder.map Content.references).sum

@[simp] theorem Forest.references_nil : Forest.references .nil = 0 := rfl

@[simp] theorem Forest.references_cons (c : Content) (below beside : Forest Content) :
    Forest.references (.cons c below beside) =
      c.references + (below.references + beside.references) := by
  simp [Forest.references, Forest.preorder]

@[simp] theorem Forest.references_append (f g : Forest Content) :
    (f ++ g).references = f.references + g.references := by
  simp [Forest.references]

/-- Markup keeps within the limits of reading: its height, its names and its references. -/
structure Markup.Within (o : ReadOptions) (m : Markup) : Prop where
  depth : m.top.height ≤ o.maxDepth
  names : ∀ c ∈ m.top.preorder, c.NamesWithin o.maxNameLength
  references : m.top.references ≤ o.maxReferences

/-! ## Documents -/

/-- The node is a comment or a processing instruction. -/
def Content.isMiscellany : Content → Bool
  | .comment _ => true
  | .instruction _ _ => true
  | _ => false

theorem Content.isElement_of_isMiscellany {c : Content} (h : c.isMiscellany = true) :
    c.isElement = false := by
  cases c with
  | element e => cases h
  | _ => rfl

/-- The forest consists of comments and processing instructions that can be written. -/
def Forest.Miscellaneous : Forest Content → Prop
  | .nil => True
  | .cons c below beside =>
    (c.isMiscellany = true ∧ c.LegalLeaf ∧ below = .nil) ∧ beside.Miscellaneous

theorem Forest.Miscellaneous.roots {f : Forest Content} (h : f.Miscellaneous) :
    ∀ c ∈ f.roots, c.isMiscellany = true ∧ c.Spelled := by
  induction f with
  | nil => exact fun c hc => absurd hc List.not_mem_nil
  | cons c below beside _ ih => exact List.forall_mem_cons.2 ⟨⟨h.1.1, h.1.2.1.spelled⟩, ih h.2⟩

theorem Forest.Miscellaneous.append {f g : Forest Content} (hf : f.Miscellaneous)
    (hg : g.Miscellaneous) : (f ++ g).Miscellaneous := by
  induction f with
  | nil => exact hg
  | cons c below beside _ ih => exact ⟨hf.1, ih hf.2⟩

theorem Forest.Miscellaneous.filter_isElement {f : Forest Content} (h : f.Miscellaneous) :
    f.roots.filter Content.isElement = [] := by
  induction f with
  | nil => rfl
  | cons c below beside _ ih =>
    have hc := Content.isElement_of_isMiscellany h.1.1
    rw [Forest.roots, List.filter_cons_of_neg (by simp [hc]), ih h.2]

/-- Markup that can be written and read back: one element, with comments and processing instructions
around it; a version, if there is one, is some version 1. -/
structure Markup.Legal (aware : Bool) (m : Markup) : Prop where
  version : ∀ v ∈ m.declaration.version, isVersion v.toList = true
  top : ∃ before e below behind, m.top = before ++ .cons (.element e) below behind ∧
    before.Miscellaneous ∧ behind.Miscellaneous ∧
    (Forest.cons (.element e) below .nil).Legal aware Scope.outermost

end MarkupFields
