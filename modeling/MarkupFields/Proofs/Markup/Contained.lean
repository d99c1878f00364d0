import MarkupFields.Proofs.Markup.Unaware
import MarkupFields.Proofs.Markup.WellFormed
import MarkupFields.Proofs.Tree.Assembled

/-
  Documents that are put together, written and read. Text and attribute values are escaped, so they
  may hold anything. CDATA, comments and instructions are written as they are: what they hold is
  read back up to its end only if their end mark is not in it, and otherwise breaks out of its node
  (`Document.not_parse_render_spelled`). A document in which no node holds its own end mark is read
  back as it is, but for what markup has no way to say: texts that stand side by side become one,
  empty ones are gone, line ends between marks are made equal (`Document.parse_render_contained`).
-/

namespace MarkupFields

open Text Scan

variable {o : ReadOptions} {w : WriteOptions}

/-! ## Documents to be written -/

/-- There is one element on the top level, with nothing but comments and processing instructions
beside it; names are names, and all characters may stand in a document. -/
structure Markup.Spelled (m : Markup) : Prop where
  single : (m.top.roots.filter Content.isElement).length = 1
  beside : ∀ c ∈ m.top.roots, c.isElement = false → c.isMiscellany = true
  nodes : ∀ c ∈ m.top.preorder, c.Spelled

/-- Nothing breaks out of its node: only elements have anything below them, no node holds its own end
mark, and no CDATA a carriage return. -/
structure Markup.Contained (m : Markup) : Prop where
  leaves : m.top.LeavesBare
  nodes : ∀ c ∈ m.top.preorder, c.Contained
  returns : ∀ s, Content.cdata s ∈ m.top.preorder → '\r' ∉ s.toList

namespace Forest

/-- The trees with a text in front of them, if it is not empty. -/
def behindText (text : String) (f : Forest Content) : Forest Content :=
  if text = "" then f else .cons (.text text) .nil f

/-- The forest with a text in front of it, as it is read from what is written for both: texts that
stand side by side become one, and empty ones are gone. -/
def settled : String → Forest Content → Forest Content
  | text, .nil => behindText text .nil
  | text, .cons c below beside =>
    match c with
    | .text s => settled (text ++ s) beside
    | .document => settled text beside
    | c => behindText text (.cons c.asRead (settled "" below) (settled "" beside))

theorem settled_cons {c : Content} (ht : c.isText = false) (hd : c ≠ .document) (text : String)
    (below beside : Forest Content) :
    settled text (.cons c below beside) =
      behindText text (.cons c.asRead (settled "" below) (settled "" beside)) := by
  cases c with
  | text s => cases ht
  | document => exact absurd rfl hd
  | _ => rfl

/-! ## The text of what is read -/

theorem textContent_behindText (text : String) (f : Forest Content) :
    (behindText text f).textContent = text ++ f.textContent := by
  unfold behindText
  split
  · rename_i h
    rw [h, String.empty_append]
  · rw [textContent_cons]
    exact congrArg (· ++ f.textContent) String.append_empty

theorem characters_asRead {c : Content} (ht : c.isText = false)
    (hr : ∀ s, c = .cdata s → '\r' ∉ s.toList) : c.asRead.characters = c.characters := by
  cases c with
  | text s => cases ht
  | cdata s =>
    show String.ofList (lineEnds s.toList) = s
    rw [lineEnds_of_not_mem (hr s rfl), String.ofList_toList]
  | _ => rfl

/-- Nothing of the text is lost, and nothing comes to it. -/
theorem textContent_settled {f : Forest Content} (hl : f.LeavesBare)
    (hr : ∀ s, Content.cdata s ∈ f.preorder → '\r' ∉ s.toList) (text : String) :
    (f.settled text).textContent = text ++ f.textContent := by
  induction f generalizing text with
  | nil => exact textContent_behindText text .nil
  | cons c below beside ihb ihs =>
    obtain ⟨hleaf, hlbelow, hlbeside⟩ := leavesBare_cons.1 hl
    have hbelow := ihb hlbelow fun s hs => hr s (List.mem_cons_of_mem _ (List.mem_append_left _ hs))
    have hbeside := ihs hlbeside
      fun s hs => hr s (List.mem_cons_of_mem _ (List.mem_append_right _ hs))
    cases hc : c with
    | text s =>
      obtain rfl := hleaf (hc ▸ rfl)
      show (settled (text ++ s) beside).textContent = _
      rw [hbeside, textContent_cons, String.append_assoc]
      exact congrArg (fun t => text ++ (t ++ beside.textContent)) String.append_empty.symm
    | document =>
      obtain rfl := hleaf (hc ▸ rfl)
      show (settled text beside).textContent = _
      rw [hbeside, textContent_cons]
      exact congrArg (text ++ ·) String.empty_append.symm
    | _ =>
      have ht : c.isText = false := hc ▸ rfl
      have hd : c ≠ .document := hc ▸ Content.noConfusion
      rw [← hc, settled_cons ht hd, textContent_behindText, textContent_cons, textContent_cons,
        hbelow, hbeside, String.empty_append, String.empty_append,
        characters_asRead ht fun s hs => hr s (hs ▸ List.mem_cons_self)]

/-! ## Forests that are read as they are settled -/

/-- Nothing in the forest breaks out of its node, and no name in it is longer than the limit. -/
structure Settles (limit : Nat) (f : Forest Content) : Prop where
  leaves : f.LeavesBare
  spelled : ∀ c ∈ f.preorder, c.Spelled
  contained : ∀ c ∈ f.preorder, c.Contained
  names : ∀ c ∈ f.preorder, c.NamesWithin limit

theorem Settles.of_cons {limit : Nat} {c : Content} {below beside : Forest Content}
    (h : (cons c below beside).Settles limit) :
    ((c.isElement = false → below = .nil) ∧ c.Spelled ∧ c.Contained ∧ c.NamesWithin limit) ∧
      below.Settles limit ∧ beside.Settles limit := by
  obtain ⟨hl, hs, hk, hn⟩ := h
  obtain ⟨hleaf, hlbelow, hlbeside⟩ := leavesBare_cons.1 hl
  rw [forall_mem_preorder_cons] at hs hk hn
  exact ⟨⟨hleaf, hs.1, hk.1, hn.1⟩, ⟨hlbelow, hs.2.1, hk.2.1, hn.2.1⟩,
    ⟨hlbeside, hs.2.2, hk.2.2, hn.2.2⟩⟩

theorem Settles.of_append {limit : Nat} {f g : Forest Content} (h : (f ++ g).Settles limit) :
    f.Settles limit ∧ g.Settles limit := by
  obtain ⟨hl, hs, hk, hn⟩ := h
  obtain ⟨hlf, hlg⟩ := leavesBare_append.1 hl
  rw [forall_mem_preorder_append] at hs hk hn
  exact ⟨⟨hlf, hs.1, hk.1, hn.1⟩, ⟨hlg, hs.2, hk.2, hn.2⟩⟩

end Forest

/-! ## Elements without namespaces -/

namespace Element

variable {e : Element}

/-- A start tag does not show namespaces. -/
theorem startTag_asWritten (e : Element) : Render.startTag e.asWritten = Render.startTag e := by
  unfold Render.startTag asWritten
  rw [List.flatMap_map]
  rfl

theorem asWritten_asWritten (e : Element) : e.asWritten.asWritten = e.asWritten := by
  unfold asWritten
  rw [List.map_map]
  rfl

theorem writable_asWritten (h : (Content.element e).Spelled) (aware : Bool) :
    e.asWritten.Writable aware := by
  obtain ⟨hname, hdistinct, hattributes⟩ := h
  refine ⟨QName.writable_of_isQualified hname, fun a ha' => ?_, ?_⟩
  · obtain ⟨b, hb, rfl⟩ := List.mem_map.1 ha'
    obtain ⟨hb, hvalue⟩ := hattributes b hb
    exact ⟨QName.writable_of_isQualified hb, hvalue, fun _ => hb⟩
  · unfold asWritten
    rw [List.map_map]
    exact hdistinct

theorem readIn_asWritten (ha : o.namespaceAware = false) (s : Scope) (e : Element) :
    e.asWritten.ReadIn o.namespaceAware s s := by
  unfold ReadIn
  rw [ha]
  exact ⟨rfl, e.asWritten_asWritten⟩

theorem namesWithin_asWritten {limit : Nat} (h : (Content.element e).NamesWithin limit) :
    (Content.element e.asWritten).NamesWithin limit := by
  refine ⟨h.1, fun a ha => ?_⟩
  obtain ⟨b, hb, rfl⟩ := List.mem_map.1 ha
  exact h.2 b hb

end Element

/-! ## Reading what is written -/

namespace ReadState

theorem stepsOver_enclosed {c : Content} (hc : c.isEnclosed = true) (hs : c.Spelled)
    (hk : c.Contained) (hn : c.NamesWithin o.maxNameLength) (rest : List Char) :
    StepsOver o (Render.leaf c) c.asRead rest := by
  intro inner around used tail _ _
  have hreferences : c.asRead.references = 0 := by
    cases c with
    | cdata s => rfl
    | comment s => rfl
    | instruction target data => rfl
    | _ => cases hc
  rw [step_enclosed hc hs hk hn, hreferences, Nat.add_zero]

/-- What is written behind the attributes of an element encloses its children as they are settled. -/
theorem GoesOver.encloses_settled {s : Scope} {depth : Nat} {children : Forest Content}
    (h : GoesOver o s (Render.forest w .running depth children) (children.settled "")) (e : Element) :
    Encloses o s e.asWritten (Render.inner w depth e children) (children.settled "") := by
  cases children with
  | nil => exact .closed
  | cons c below beside => exact .opened h

variable (hb : o.dropBlanks = false) (hname : 4 ≤ o.maxNameLength)
include hb hname

/-- Reading goes over a text and over what is behind it, if that begins with markup. -/
theorem GoesOver.behindText {s : Scope} {text : String} (ht : ∀ c ∈ text.toList, isXmlChar c = true)
    {rest : List Char} {f : Forest Content}
    (hmarkup : ∀ tail, BeforeMarkup tail → BeforeMarkup (rest ++ tail)) (more : GoesOver o s rest f) :
    GoesOver o s (Render.text text.toList ++ rest) (f.behindText text) := by
  unfold Forest.behindText
  split
  · rename_i h
    subst h
    exact more
  · rename_i h
    have hnames : (Content.text text).NamesWithin o.maxNameLength :=
      fun c _ => Nat.le_trans (entityLength_escapedInText c) hname
    exact .leaf rfl (stepsOver_leaf hb (c := .text text) ⟨h, ht⟩ hnames fun _ => hmarkup) more

/-- What is written for a forest, with a text in front of it, is read as the forest is settled behind
the text. -/
theorem goesOver_settled (ha : o.namespaceAware = false) {s : Scope} {f : Forest Content}
    (hf : f.Settles o.maxNameLength) (hi : w.indent = false) {text : String}
    (ht : ∀ c ∈ text.toList, isXmlChar c = true) (depth : Nat) :
    GoesOver o s (Render.text text.toList ++ Render.forest w .running depth f)
      (f.settled text) := by
  -- a text is not read before the node behind it is reached, so it is carried along to that node
  induction f generalizing text depth with
  | nil => exact .behindText hb hname ht (fun tail ht => ht) .nil
  | cons c below beside ihb ihs =>
    obtain ⟨⟨hleaf, hspelled, hcontained, hn⟩, hsbelow, hsbeside⟩ := hf.of_cons
    have hempty : ∀ c ∈ "".toList, isXmlChar c = true := fun c hc => absurd hc List.not_mem_nil
    have hbeside := fun {text : String} ht => @ihs hsbeside text ht depth
    cases c with
    | text t =>
      rw [Render.forest_leaf depth rfl, ← List.append_assoc]
      have hboth : Render.text text.toList ++ Render.leaf (.text t) =
          Render.text (text ++ t).toList := by
        unfold Render.leaf Render.text
        rw [String.toList_append, List.flatMap_append]
      rw [hboth]
      refine hbeside fun c hc => ?_
      rw [String.toList_append, List.mem_append] at hc
      exact hc.elim (ht c) (hspelled c)
    | document => exact hbeside ht
    | element e =>
      have hbelow := ihb hsbelow hempty (depth + 1)
      have hitem := GoesOver.element (Element.writable_asWritten hspelled _)
        (Element.namesWithin_asWritten hn) (e.readIn_asWritten ha s) (hbelow.encloses_settled e)
        (hbeside hempty)
      rw [e.startTag_asWritten] at hitem
      rw [Render.forest_element hi, Forest.settled_cons rfl Content.noConfusion]
      exact .behindText hb hname ht (fun tail _ => .inr ⟨_, rfl⟩) hitem
    | _ =>
      have hstep := stepsOver_enclosed rfl hspelled hcontained hn
        (Render.forest w .running depth beside)
      obtain rfl := hleaf rfl
      rw [Render.forest_leaf depth rfl, Forest.settled_cons rfl Content.noConfusion]
      exact .behindText hb hname ht (fun tail _ => .inr ⟨_, rfl⟩)
        (GoesOver.leaf rfl hstep (hbeside hempty))

end ReadState

/-! ## Documents -/

namespace Forest

/-- On a level with one element and nothing but comments and instructions beside it, they stand in
front of it and behind it. -/
theorem exists_single {f : Forest Content} (hone : (f.roots.filter Content.isElement).length = 1)
    (hrest : ∀ c ∈ f.roots, c.isElement = false → c.isMiscellany = true) :
    ∃ before e below behind, f = before ++ .cons (.element e) below behind ∧
      (∀ c ∈ before.roots, c.isMiscellany = true) ∧ ∀ c ∈ behind.roots, c.isMiscellany = true := by
  induction f with
  | nil => cases hone
  | cons c below beside _ ih =>
    obtain ⟨hc, hlevel⟩ := List.forall_mem_cons.1 hrest
    cases c with
    | element e =>
      rw [roots, List.filter_cons_of_pos rfl, List.length_cons, Nat.add_eq_right,
        List.length_eq_zero_iff, List.filter_eq_nil_iff] at hone
      refine ⟨.nil, e, below, beside, rfl, fun c hc => absurd hc List.not_mem_nil, fun c hc => ?_⟩
      exact hlevel c hc (Bool.not_eq_true _ ▸ hone c hc)
    | _ =>
      rw [roots, List.filter_cons_of_neg Bool.false_ne_true] at hone
      obtain ⟨before, e, below', behind, rfl, hbefore, hbehind⟩ := ih hone hlevel
      exact ⟨.cons _ below before, e, below', behind, rfl,
        List.forall_mem_cons.2 ⟨hc rfl, hbefore⟩, hbehind⟩

/-- Comments and instructions in front of a forest are read one by one. -/
theorem settled_append {f : Forest Content} (hf : ∀ c ∈ f.roots, c.isMiscellany = true)
    (g : Forest Content) : settled "" (f ++ g) = settled "" f ++ settled "" g := by
  induction f with
  | nil => rfl
  | cons c below beside _ ih =>
    obtain ⟨hc, hrest⟩ := List.forall_mem_cons.1 hf
    have ht : c.isText = false := by
      cases c <;> first | rfl | cases hc
    have hd : c ≠ .document := by
      rintro rfl
      cases hc
    rw [cons_append, settled_cons ht hd, settled_cons ht hd, ih hrest]
    rfl

/-- The element stays between what is in front of it and what is behind it. -/
theorem settled_around {before : Forest Content} (h : ∀ c ∈ before.roots, c.isMiscellany = true)
    (e : Element) (below behind : Forest Content) :
    settled "" (before ++ .cons (.element e) below behind) =
      before.settled "" ++ .cons (.element e.asWritten) (below.settled "") (behind.settled "") := by
  rw [settled_append h, settled_cons rfl Content.noConfusion]
  rfl

theorem roots_settled {f : Forest Content} (hf : ∀ c ∈ f.roots, c.isMiscellany = true) :
    ∀ c ∈ (f.settled "").roots, c.isElement = false := by
  induction f with
  | nil => exact fun c hc => absurd hc List.not_mem_nil
  | cons c below beside _ ih =>
    obtain ⟨hc, hrest⟩ := List.forall_mem_cons.1 hf
    cases c with
    | comment s => exact List.forall_mem_cons.2 ⟨rfl, ih hrest⟩
    | instruction target data => exact List.forall_mem_cons.2 ⟨rfl, ih hrest⟩
    | _ => cases hc

end Forest

namespace Scan

/-- What is written around the root element is read, if nothing breaks out of its node. -/
theorem surrounds_settled {f : Forest Content} (hf : ∀ c ∈ f.roots, c.isMiscellany = true)
    (hs : f.Settles o.maxNameLength) :
    Surrounds o (Render.forest w .running 0 f) (f.settled "") := by
  induction f with
  | nil => exact .nil
  | cons c below beside _ ih =>
    obtain ⟨⟨hleaf, hspelled, hcontained, hn⟩, -, hsbeside⟩ := hs.of_cons
    obtain ⟨hc, hrest⟩ := List.forall_mem_cons.1 hf
    have hmore := ih hrest hsbeside
    cases c with
    | comment s =>
      obtain rfl := hleaf rfl
      exact .enclosed rfl hspelled hcontained hn hmore
    | instruction target data =>
      obtain rfl := hleaf rfl
      exact .enclosed rfl hspelled hcontained hn hmore
    | _ => cases hc

end Scan

/-- A document in which nothing breaks out of its node is read without namespaces as it is settled. -/
theorem Markup.parse_settled (hi : w.indent = false) (hb : o.dropBlanks = false)
    (ha : o.namespaceAware = false) (hname : 4 ≤ o.maxNameLength) {m : Markup}
    (hv : ∀ v ∈ m.declaration.version, isVersion v.toList = true) (hs : m.Spelled)
    (hk : m.Contained) (hn : ∀ c ∈ m.top.preorder, c.NamesWithin o.maxNameLength)
    (hd : (m.top.settled "").height ≤ o.maxDepth)
    (hu : (m.top.settled "").references ≤ o.maxReferences) :
    Markup.parse o (m.render w) =
      .ok ⟨if w.declaration then m.declaration.asWritten else .absent, m.top.settled ""⟩ := by
  obtain ⟨before, e, below, behind, htop, hbefore, hbehind⟩ :=
    Forest.exists_single hs.single hs.beside
  have hsettles : m.top.Settles o.maxNameLength := ⟨hk.leaves, hs.nodes, hk.nodes, hn⟩
  have hsettled : m.top.settled "" =
      before.settled "" ++ .cons (.element e.asWritten) (below.settled "") (behind.settled "") := by
    rw [htop, Forest.settled_around hbefore]
  have hwritten : Render.forest w .running 0 m.top = Render.forest w .running 0 before ++
      (Render.startTag e.asWritten ++ Render.inner w 1 e below ++
        Render.forest w .running 0 behind) := by
    rw [htop, Render.forest_append, Render.forest_element hi, e.startTag_asWritten]
  rw [htop] at hsettles
  obtain ⟨hsbefore, hsroot⟩ := hsettles.of_append
  obtain ⟨⟨-, hspelled, -, hnroot⟩, hsbelow, hsbehind⟩ := hsroot.of_cons
  rw [hsettled] at hd hu
  rw [Forest.height_append, Forest.height_element] at hd
  rw [Forest.references_append, Forest.references_cons] at hu
  have hwritable := Element.writable_asWritten hspelled o.namespaceAware
  have hcontent := ReadState.goesOver_settled hb hname ha (s := Scope.outermost) hsbelow hi
    (fun c (hc : c ∈ "".toList) => absurd hc List.not_mem_nil) 1
  rw [parse_eq_ok, hsettled]
  unfold Markup.render Render.document
  rw [String.toList_ofList, hi, if_neg Bool.false_ne_true]
  refine document_declared ?_ hv (fun hmark hdeclared hskip => ?_) w.declaration
  · rw [htop]
    have hname : IsName e.name.written.toList := hwritable.name.isName
    exact undeclared_written (fun c hc =>
      ⟨hbefore c hc, hsbefore.spelled c (Forest.mem_preorder_of_mem_roots hc)⟩) hname below behind 0
  · exact document_surrounds (surrounds_settled hbefore hsbefore)
      (surrounds_settled hbehind hsbehind) hwritable (e.readIn_asWritten ha _)
      (Element.namesWithin_asWritten hnroot) (hcontent.encloses_settled e) (by omega) (by omega)
      hmark hdeclared (hwritten ▸ hskip)

namespace Document

/-- Every document that is put together from names that are names and characters that may stand in a
document, and in which nothing breaks out of its node, is read from its written form without
namespaces, under limits that are high enough. What is read is the document but for texts side by
side, empty texts, line ends between marks and the space in front of the data of instructions, and
the text of its root element is the same. -/
theorem parse_render_contained {d : Document} (hd : d.Built) (hs : d.markup.Spelled)
    (hk : d.markup.Contained) (hi : w.indent = false) :
    ∃ (m : Markup) (limit : Nat), m.top = d.markup.top.settled "" ∧
      (∀ o : ReadOptions, o.Lifted limit → Markup.parse o.unaware (d.render w) = .ok m) ∧
      ∃ r r', d.rootElement? = some r ∧ (ofMarkup m).rootElement? = some r' ∧
        (ofMarkup m).textContent r' = d.textContent r := by
  obtain ⟨n, hn⟩ := exists_common_bound (P := fun n (c : Content) => c.NamesWithin n)
    (fun hmn hc => hc.mono hmn) (l := d.markup.top.preorder) (fun c _ => c.exists_namesWithin)
  let m : Markup := ⟨if w.declaration then d.markup.declaration.asWritten else .absent,
    d.markup.top.settled ""⟩
  refine ⟨m, max 4 (max n (max m.top.height m.top.references)), rfl, fun o ho => ?_, ?_⟩
  · have hdepth := ho.depth
    have hnames := ho.names
    have hreferences := ho.references
    have hfour : 4 ≤ o.maxNameLength := by omega
    exact Markup.parse_settled (o := o.unaware) hi ho.blanks rfl hfour hd.version hs hk
      (fun c hc => (hn c hc).mono (show n ≤ o.maxNameLength by omega))
      (show m.top.height ≤ o.maxDepth by omega)
      (show m.top.references ≤ o.maxReferences by omega)
  · obtain ⟨before, e, below, behind, htop, hbefore, -⟩ := Forest.exists_single hs.single hs.beside
    have hsettled : (ofMarkup m).markup.top = before.settled "" ++
        .cons (.element e.asWritten) (below.settled "") (behind.settled "") := by
      rw [markup_ofMarkup, ← Forest.settled_around hbefore, ← htop]
    have hleaves := hk.leaves
    have hreturns := hk.returns
    rw [htop, Forest.leavesBare_append, Forest.leavesBare_cons] at hleaves
    rw [htop, Forest.preorder_append, Forest.preorder] at hreturns
    have hbelow := Forest.textContent_settled hleaves.2.2.1 (fun s hs => hreturns s
      (List.mem_append_right _ (List.mem_cons_of_mem _ (List.mem_append_left _ hs)))) ""
    obtain ⟨r, hr, htext⟩ := hd.sound.rootElement? htop
      fun c hc => Content.isElement_of_isMiscellany (hbefore c hc)
    obtain ⟨r', hr', htext'⟩ := (valid_ofMarkup m).sound.rootElement? hsettled
      (Forest.roots_settled hbefore)
    refine ⟨r, r', hr, hr', ?_⟩
    rw [htext', htext, hbelow, String.empty_append]

/-- Texts side by side, one of them empty, with a mark of each kind in them; data with space in front
of it, and CDATA and a comment that hold a part of their end marks. -/
theorem parse_render_contained_marks :
    let w : WriteOptions := {}
    let d := (Document.empty.applyAll [.create (.instruction "t" (some " \rd")), .appendChild 0 1,
      .appendElement 0 ⟨none, "a"⟩ none, .create (.text "]]>"), .appendChild 2 3,
      .create (.text ""), .appendChild 2 4, .create (.text "-->?>\r"), .appendChild 2 5,
      .create (.cdata "<b>]]"), .appendChild 2 6, .create (.comment "-\r"),
      .appendChild 2 7]).setAttribute 2 ⟨⟨none, "x"⟩, none, "\"/>\n"⟩
    (d.Built ∧ d.markup.Spelled ∧ d.markup.Contained ∧ w.indent = false) ∧
      ∃ (m : Markup) (limit : Nat), m.top = d.markup.top.settled "" ∧
        (∀ o : ReadOptions, o.Lifted limit → Markup.parse o.unaware (d.render w) = .ok m) ∧
        ∃ r r', d.rootElement? = some r ∧ (ofMarkup m).rootElement? = some r' ∧
          (ofMarkup m).textContent r' = d.textContent r := by
  intro w d
  have hbuilt : d.Built := .setAttribute (Built.new.applyAll _) 2 _
  have htop : d.markup.top = .cons (.instruction "t" (some " \rd")) .nil
      (.cons (.element ⟨⟨none, "a"⟩, none, [⟨⟨none, "x"⟩, none, "\"/>\n"⟩]⟩)
        (.cons (.text "]]>") .nil (.cons (.text "") .nil (.cons (.text "-->?>\r") .nil
          (.cons (.cdata "<b>]]") .nil (.leaf (.comment "-\r")))))) .nil) := by
    decide +kernel
  have hspelled : d.markup.Spelled := by
    have htarget : IsTarget "t".toList := ⟨(isName_of_isNCNameChars (by decide)).1, by decide⟩
    have hstrings : ∀ s ∈ [" \rd", "\"/>\n", "]]>", "", "-->?>\r", "<b>]]", "-\r"],
        s.toList.all isXmlChar = true := by
      decide
    refine ⟨by rw [htop]; rfl, by rw [htop]; decide, ?_⟩
    rw [htop]
    simp only [Forest.preorder, Forest.leaf, List.nil_append, List.append_nil,
      List.forall_mem_cons, List.all_eq_true] at hstrings ⊢
    obtain ⟨hdata, hvalue, h₁, h₂, h₃, h₄, h₅, -⟩ := hstrings
    exact ⟨⟨htarget, fun v hv => Option.some.inj hv ▸ hdata⟩,
      ⟨rfl, by decide, fun a ha => List.mem_singleton.1 ha ▸ ⟨rfl, hvalue⟩⟩, h₁, h₂, h₃, h₄, h₅,
      fun _ hc => absurd hc List.not_mem_nil⟩
  have hcontained : d.markup.Contained := by
    have hcdata : ¬ cdataClose <:+: "<b>]]".toList := by decide
    have hcomment : ¬ ['-', '-'] <:+: "-\r".toList ++ ['-'] := by decide
    have hdata : ¬ instructionClose <:+: " \rd".toList := by decide
    constructor
    · rw [htop]
      unfold Forest.LeavesBare
      decide
    · rw [htop]
      simp only [Forest.preorder, Forest.leaf, List.nil_append, List.append_nil,
        List.forall_mem_cons]
      exact ⟨fun v hv => Option.some.inj hv ▸ hdata, trivial, trivial, trivial, trivial, hcdata,
        hcomment, fun _ hc => absurd hc List.not_mem_nil⟩
    · intro s hs
      rw [htop] at hs
      obtain rfl : s = "<b>]]" := by simpa [Forest.preorder, Forest.leaf] using hs
      decide
  exact ⟨⟨hbuilt, hspelled, hcontained, rfl⟩,
    parse_render_contained hbuilt hspelled hcontained rfl⟩

/-- Content may break out of its node: CDATA that holds its end mark and opens another comes back as
an element between two empty sections. -/
theorem not_parse_render_spelled :
    ¬ ∀ d : Document, d.Built → d.markup.Spelled →
      ∃ (m : Markup) (limit : Nat),
        (∀ o : ReadOptions, o.Lifted limit → Markup.parse o.unaware (d.render {}) = .ok m) ∧
        ∃ r r', d.rootElement? = some r ∧ (ofMarkup m).rootElement? = some r' ∧
          (ofMarkup m).textContent r' = d.textContent r := by
  intro h
  let d := Document.empty.applyAll [.appendElement 0 ⟨none, "a"⟩ none,
    .create (.cdata "]]><b/><![CDATA["), .appendChild 1 2]
  have htop : d.markup.top = .cons (.element ⟨⟨none, "a"⟩, none, []⟩)
      (.leaf (.cdata "]]><b/><![CDATA[")) .nil := by
    decide +kernel
  have hspelled : d.markup.Spelled := by
    have hcdata : ∀ c ∈ "]]><b/><![CDATA[".toList, isXmlChar c = true :=
      List.all_eq_true.1 (by decide)
    refine ⟨by rw [htop]; rfl, by rw [htop]; decide, ?_⟩
    rw [htop]
    simp only [Forest.preorder, Forest.leaf, List.append_nil, List.forall_mem_cons]
    exact ⟨⟨rfl, List.nodup_nil, fun _ ha => absurd ha List.not_mem_nil⟩, hcdata,
      fun _ hc => absurd hc List.not_mem_nil⟩
  obtain ⟨m, limit, hread, r, r', hr, hr', htext⟩ := h d (Built.new.applyAll _) hspelled
  let broken : Markup := ⟨⟨some "1.0", some "UTF-8", none⟩,
    .cons (.element ⟨⟨none, "a"⟩, none, []⟩) (.cons (.cdata "") .nil
      (.cons (.element ⟨⟨none, "b"⟩, none, []⟩) .nil (.leaf (.cdata "")))) .nil⟩
  have hbroken : Markup.parse ({} : ReadOptions).unaware (d.render {}) = .ok broken := by
    decide +kernel
  let o : ReadOptions := ⟨true, false, max 256 limit, max 50000 limit, max 10000 limit⟩
  have hallows : ({} : ReadOptions).unaware.Allows o.unaware :=
    ⟨rfl, rfl, Nat.le_max_left 256 limit, Nat.le_max_left 50000 limit, Nat.le_max_left 10000 limit⟩
  have hlifted : o.Lifted limit :=
    ⟨rfl, rfl, Nat.le_max_right 256 limit, Nat.le_max_right 50000 limit,
      Nat.le_max_right 10000 limit⟩
  have hm : m = broken :=
    Except.ok.inj ((hread o hlifted).symm.trans (Markup.parse_of_allows hallows hbroken))
  have hroot : d.rootElement? = some 1 := by decide +kernel
  have hroot' : (ofMarkup broken).rootElement? = some 1 := by decide +kernel
  rw [hm, hroot', Option.some.injEq] at hr'
  rw [hroot, Option.some.injEq] at hr
  rw [hm, ← hr, ← hr'] at htext
  exact absurd htext (by decide +kernel)

end Document

end MarkupFields
