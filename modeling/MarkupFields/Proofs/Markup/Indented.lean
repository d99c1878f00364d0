import MarkupFields.Proofs.Markup.Blanks

/-
  Indented markup read again. Where nodes stand on lines of their own they are read with line breaks
  between them, which are blank texts, and the blank texts that were there are gone; everything else
  is read back (`Forest.laidOut`, `Markup.parse_laidOut`). So nothing but blank texts comes and goes
  (`Markup.parse_indented`).
-/

namespace MarkupFields

open Text Scan

variable {o : ReadOptions} {w : WriteOptions}

/-! ## What indented markup is read as -/

/-- The line break, with the indentation of a depth behind it, as it is read; there is one only where
nodes stand on lines of their own inside an element. -/
def Render.Place.lineBreak (w : WriteOptions) (depth : Nat) : Render.Place → Forest Content
  | .lines => .leaf (.text (String.ofList (lineEnds ('\n' :: Render.padding w depth))))
  | _ => .nil

/-- The forest as it is read from what is written for it at a place: on lines of their own, blank
texts are left out and a line break comes before each node and before the end tag around them. -/
def Forest.laidOut (w : WriteOptions) : Render.Place → Nat → Forest Content → Forest Content
  | _, _, .nil => .nil
  | place, depth, .cons c below beside =>
    let inside := Render.Place.inside w below.roots
    if place.leavesOut c then laidOut w place depth beside
    else
      place.lineBreak w depth ++
        .cons c (laidOut w inside (depth + 1) below ++ inside.lineBreak w depth)
          (laidOut w place depth beside)

/-! ## Space -/

namespace Scan

theorem isBlank_of_isMarkupSpace {c : Char} (h : isMarkupSpace c = true) : isBlank c = true := by
  simp only [isMarkupSpace, Bool.or_eq_true, beq_iff_eq] at h
  rcases h with ((h | h) | h) | h <;> subst h <;> decide

theorem isMarkupSpace_of_mem_lineEnds {cs : List Char} (h : ∀ c ∈ cs, isMarkupSpace c = true)
    {c : Char} (hc : c ∈ lineEnds cs) : isMarkupSpace c = true := by
  rcases (mem_lineEnds hc).2 with hc | rfl
  · exact h c hc
  · rfl

/-- Space without carriage returns is written without references. -/
theorem references_space {cs : List Char} (h : ∀ c ∈ cs, isMarkupSpace c = true) :
    references Render.escapedInText (lineEnds cs) = 0 := by
  unfold references
  rw [List.countP_eq_zero]
  intro c hc
  have hspace := isMarkupSpace_of_mem_lineEnds h hc
  have hreturn := (mem_lineEnds hc).1
  simp only [isMarkupSpace, Bool.or_eq_true, beq_iff_eq] at hspace
  rcases hspace with ((hc | hc) | hc) | hc
  · subst hc
    decide
  · subst hc
    decide
  · exact absurd hc hreturn
  · subst hc
    decide

end Scan

theorem Content.references_ofList (cs : List Char) :
    (Content.text (String.ofList cs)).references = Scan.references Render.escapedInText cs :=
  congrArg (Scan.references Render.escapedInText) String.toList_ofList

/-- Space becomes a text in one step, if markup follows it. -/
theorem ReadState.stepsOver_space (hb : o.dropBlanks = false) {c : Char} {cs rest : List Char}
    (hc : c ≠ '\r') (hs : ∀ d ∈ c :: cs, isMarkupSpace d = true)
    (hmarkup : ∀ tail, BeforeMarkup tail → BeforeMarkup (rest ++ tail)) :
    StepsOver o (c :: cs) (.text (String.ofList (lineEnds (c :: cs)))) rest := by
  intro inner around used tail _ ht
  have hbracket : c ≠ '<' := by
    rintro rfl
    exact absurd (hs '<' List.mem_cons_self) (by decide)
  have hdata : characterData o used (c :: cs ++ (rest ++ tail)) =
      .ok (lineEnds (c :: cs), used, rest ++ tail) :=
    characterData_space used hs (hmarkup tail ht)
  have hadd : inner.addText o (lineEnds (c :: cs)) =
      inner.addLeaf (.text (String.ofList (lineEnds (c :: cs)))) := by
    unfold OpenElement.addText
    rw [hb, lineEnds, if_neg hc]
    rfl
  rw [List.cons_append] at hdata ⊢
  rw [step_characters hbracket, hdata, ok_bind, hadd, Content.references_ofList,
    references_space hs, Nat.add_zero]

/-! ## What is laid out -/

/-- On lines of their own, nodes that are no character data stand between an indentation and a line
feed. -/
theorem Render.line_lines {c : Content} (hc : c.isCharacterData = false) (hd : c ≠ .document)
    (depth : Nat) (written : List Char) :
    line w .lines depth c written = padding w depth ++ written ++ ['\n'] := by
  unfold line
  rw [hc, if_pos]
  simp [Render.Place.ownLines, hd]

/-- Children that are not element-only are running content. -/
theorem Render.Place.inside_unbroken {level : List Content} (h : isElementOnly level = false) :
    Render.Place.inside w level = .running := by
  unfold Render.Place.inside
  rw [h, Bool.and_false]
  rfl

theorem Render.Place.inside_nil : Render.Place.inside w [] = .running :=
  inside_unbroken rfl

namespace Forest

open Render

theorem laidOut_of_leavesOut {place : Render.Place} {c : Content} (h : place.leavesOut c = true)
    (depth : Nat) (below beside : Forest Content) :
    laidOut w place depth (.cons c below beside) = laidOut w place depth beside := by
  rw [laidOut, if_pos h]

theorem laidOut_cons {place : Render.Place} {c : Content} (h : place.leavesOut c = false)
    (depth : Nat) (below beside : Forest Content) :
    laidOut w place depth (.cons c below beside) =
      place.lineBreak w depth ++
        .cons c (laidOut w (Render.Place.inside w below.roots) (depth + 1) below ++
            (Render.Place.inside w below.roots).lineBreak w depth)
          (laidOut w place depth beside) := by
  rw [laidOut, if_neg (Bool.eq_false_iff.1 h)]

/-- Without children there is nothing to break. -/
theorem laidOut_cons_nil {place : Render.Place} {c : Content} (h : place.leavesOut c = false)
    (depth : Nat) (beside : Forest Content) :
    laidOut w place depth (.cons c .nil beside) =
      place.lineBreak w depth ++ .cons c .nil (laidOut w place depth beside) := by
  rw [laidOut_cons h, show (nil : Forest Content).roots = [] from rfl, Render.Place.inside_nil]
  rfl

theorem laidOut_append (place : Render.Place) (depth : Nat) (f g : Forest Content) :
    laidOut w place depth (f ++ g) = laidOut w place depth f ++ laidOut w place depth g := by
  induction f with
  | nil => rfl
  | cons c below beside _ ih =>
    rw [cons_append]
    by_cases h : place.leavesOut c = true
    · rw [laidOut_of_leavesOut h, laidOut_of_leavesOut h, ih]
    · rw [Bool.not_eq_true] at h
      rw [laidOut_cons h, laidOut_cons h, ih, append_assoc, cons_append]

/-- Around the root element nothing is changed. -/
theorem Miscellaneous.laidOut {f : Forest Content} (h : f.Miscellaneous) (depth : Nat) :
    f.laidOut w .outermost depth = f := by
  induction f with
  | nil => rfl
  | cons c below beside _ ih =>
    obtain ⟨⟨-, -, rfl⟩, hrest⟩ := h
    rw [laidOut_cons_nil rfl, ih hrest]
    rfl

/-- The nodes lie inside each other as before. -/
theorem height_laidOut (place : Render.Place) (depth : Nat) (f : Forest Content) :
    (f.laidOut w place depth).height = f.height := by
  have hbreak : ∀ (place : Render.Place) (depth : Nat), (place.lineBreak w depth).height = 0 := by
    intro place depth
    cases place <;> rfl
  induction f generalizing place depth with
  | nil => rfl
  | cons c below beside ihb ihs =>
    by_cases h : place.leavesOut c = true
    · have hc : c.isElement = false := by
        cases place <;> cases c <;> first | rfl | cases h
      rw [laidOut_of_leavesOut h, height_leaf hc, ihs]
    · rw [Bool.not_eq_true] at h
      rw [laidOut_cons h, height_append, hbreak, height, height, height_append, hbreak, ihb, ihs]
      simp

end Forest

namespace ReadState

open Render

/-- Reading goes over what is written for a forest in running content, and over what is written for
it on lines of their own if it has no characters but blanks; there a last line break follows it, with
any indentation. -/
structure LaysOut (o : ReadOptions) (w : WriteOptions) (s : Scope) (f : Forest Content) : Prop where
  running : ∀ depth, GoesOver o s (forest w .running depth f) (f.laidOut w .running depth)
  lines : (∀ c ∈ f.roots, c.isCharacterData = true → isBlankText c = true) → ∀ depth outer,
    GoesOver o s ('\n' :: (forest w .lines depth f ++ padding w outer))
      (f.laidOut w .lines depth ++ Render.Place.lineBreak w outer .lines)

/-- An element encloses its children as they are laid out. -/
theorem LaysOut.encloses {inside : Scope} {children : Forest Content}
    (h : LaysOut o w inside children) (depth : Nat) (e : Element) :
    Encloses o inside e (contents w depth e children)
      (children.laidOut w (Render.Place.inside w children.roots) (depth + 1) ++
        (Render.Place.inside w children.roots).lineBreak w depth) := by
  cases children with
  | nil =>
    rw [show (Forest.nil : Forest Content).roots = [] from rfl, Render.Place.inside_nil]
    exact .closed
  | cons c below beside =>
    show Encloses o inside e (body w depth e _ _) _
    unfold Render.Place.inside
    split
    · rename_i hlines
      have honly := (Bool.and_eq_true_iff.1 (Bool.and_eq_true_iff.1 hlines).2).2
      refine .opened (h.lines (fun d hd hdata => ?_) (depth + 1) depth)
      have hd := List.all_eq_true.1 honly d hd
      rw [hdata] at hd
      exact hd
    · rw [show Render.Place.lineBreak w depth .running = .nil from rfl, Forest.append_nil]
      exact .opened (h.running (depth + 1))

end ReadState

/-! ## Blank texts that come and go -/

section
variable (hspace : ∀ c ∈ w.indentation.toList, isMarkupSpace c = true)
include hspace

namespace Render

theorem isMarkupSpace_of_mem_break (depth : Nat) :
    ∀ c ∈ '\n' :: padding w depth, isMarkupSpace c = true := by
  refine List.forall_mem_cons.2 ⟨rfl, fun c hc => ?_⟩
  obtain ⟨cs, hcs, hc⟩ := List.mem_flatten.1 hc
  rw [List.eq_of_mem_replicate hcs] at hc
  exact hspace c hc

theorem Place.withoutBlanks_lineBreak (place : Place) (depth : Nat) :
    (place.lineBreak w depth).withoutBlanks = .nil := by
  cases place with
  | lines =>
    have hblank : allBlank (lineEnds ('\n' :: padding w depth)) = true :=
      List.all_eq_true.2 fun c hc => isBlank_of_isMarkupSpace
        (isMarkupSpace_of_mem_lineEnds (isMarkupSpace_of_mem_break hspace depth) hc)
    unfold lineBreak Forest.withoutBlanks Forest.leaf
    rw [Forest.erase, isBlankText_ofList, if_pos hblank]
    rfl
  | _ => rfl

theorem Place.references_lineBreak (place : Place) (depth : Nat) :
    (place.lineBreak w depth).references = 0 := by
  cases place with
  | lines =>
    unfold lineBreak Forest.leaf
    rw [Forest.references_cons, Forest.references_nil, Content.references_ofList,
      references_space (isMarkupSpace_of_mem_break hspace depth)]
  | _ => rfl

end Render

namespace Forest

open Render

/-- Blank texts come and go, everything else stays. -/
theorem withoutBlanks_laidOut (place : Render.Place) (depth : Nat) (f : Forest Content) :
    (f.laidOut w place depth).withoutBlanks = f.withoutBlanks := by
  induction f generalizing place depth with
  | nil => rfl
  | cons c below beside ihb ihs =>
    by_cases h : place.leavesOut c = true
    · have hc : isBlankText c = true := by
        cases place with
        | lines => exact h
        | _ => cases h
      rw [laidOut_of_leavesOut h, ihs]
      unfold withoutBlanks
      rw [erase, if_pos hc]
    · rw [Bool.not_eq_true] at h
      rw [laidOut_cons h, withoutBlanks_append, Render.Place.withoutBlanks_lineBreak hspace,
        nil_append]
      have hbelow : (laidOut w (Render.Place.inside w below.roots) (depth + 1) below ++
          (Render.Place.inside w below.roots).lineBreak w depth).withoutBlanks =
            below.withoutBlanks := by
        rw [withoutBlanks_append, ihb, Render.Place.withoutBlanks_lineBreak hspace, append_nil]
      have hbeside := ihs place depth
      unfold withoutBlanks at hbelow hbeside ⊢
      rw [erase, erase, hbelow, hbeside]

/-- What is laid out is written with no more references. -/
theorem references_laidOut_le (place : Render.Place) (depth : Nat) (f : Forest Content) :
    (f.laidOut w place depth).references ≤ f.references := by
  induction f generalizing place depth with
  | nil => exact Nat.le_refl _
  | cons c below beside ihb ihs =>
    have hbeside := ihs place depth
    have hbelow := ihb (Render.Place.inside w below.roots) (depth + 1)
    rw [references_cons]
    by_cases h : place.leavesOut c = true
    · rw [laidOut_of_leavesOut h]
      omega
    · rw [Bool.not_eq_true] at h
      rw [laidOut_cons h, references_append, references_cons, references_append,
        Render.Place.references_lineBreak hspace, Render.Place.references_lineBreak hspace]
      omega

end Forest

/-! ## Reading over indented content -/

namespace ReadState

open Render

variable (hb : o.dropBlanks = false)
include hb

/-- Reading goes over a line break and over what stands behind it. -/
theorem GoesOver.lineBreak {s : Scope} (depth : Nat) {rest : List Char} {beside : Forest Content}
    (hmarkup : ∀ tail, BeforeMarkup tail → BeforeMarkup (rest ++ tail))
    (more : GoesOver o s rest beside) :
    GoesOver o s ('\n' :: (padding w depth ++ rest))
      (Render.Place.lineBreak w depth .lines ++ beside) :=
  .leaf rfl (stepsOver_space hb (by decide) (isMarkupSpace_of_mem_break hspace depth) hmarkup) more

/-- What is written for a legal forest is read as it is laid out. -/
theorem laysOut_of_legal {s : Scope} {f : Forest Content} (hf : f.Legal o.namespaceAware s)
    (hn : ∀ c ∈ f.preorder, c.NamesWithin o.maxNameLength) : LaysOut o w s f := by
  induction hf with
  | @nil s =>
    refine ⟨fun depth => .nil, fun _ depth outer => ?_⟩
    have hlast : GoesOver o s ('\n' :: (padding w outer ++ []))
        (Render.Place.lineBreak w outer .lines ++ .nil) :=
      .lineBreak hspace hb outer (fun tail ht => ht) .nil
    rwa [List.append_nil, Forest.append_nil] at hlast
  | @element s inside e children beside writable names content rest ihc ihr =>
    obtain ⟨hne, hnbelow, hnbeside⟩ := Forest.forall_mem_preorder_cons.1 hn
    have hcontent := ihc hnbelow
    have hbeside := ihr hnbeside
    refine ⟨fun depth => ?_, fun hblank depth outer => ?_⟩
    · rw [forest_cons_element, line_running, Forest.laidOut_cons rfl]
      exact .element writable hne names (hcontent.encloses depth e) (hbeside.running depth)
    · have hmore := hbeside.lines (fun c hc => hblank c (List.mem_cons_of_mem _ hc)) depth outer
      have hitem := GoesOver.element writable hne names (hcontent.encloses depth e) hmore
      have hbroken := GoesOver.lineBreak hspace hb depth (fun tail _ => .inr ⟨_, rfl⟩) hitem
      rw [forest_cons_element, Forest.laidOut_cons rfl, Forest.append_assoc, Forest.cons_append,
        line_lines rfl Content.noConfusion]
      simpa using hbroken
  | @leaf s c beside writable apart rest ih =>
    obtain ⟨hnc, -, hnbeside⟩ := Forest.forall_mem_preorder_cons.1 hn
    have hbeside := ih hnbeside
    refine ⟨fun depth => ?_, fun hblank depth outer => ?_⟩
    · rw [forest_leaf depth writable.isElement, Forest.laidOut_cons_nil rfl]
      exact .leaf writable.isElement (stepsOver_leaf hb writable hnc
        fun htext _ => beforeMarkup_forest depth rest (apart htext)) (hbeside.running depth)
    · have hmore := hbeside.lines (fun c hc => hblank c (List.mem_cons_of_mem _ hc)) depth outer
      rw [forest_cons_leaf _ _ writable.isElement]
      cases hleft : Render.Place.lines.leavesOut c with
      | true =>
        rw [Forest.laidOut_of_leavesOut hleft]
        exact hmore
      | false =>
        have hdata : c.isCharacterData = false := by
          refine Bool.eq_false_iff.2 fun hdata => ?_
          rw [show Render.Place.lines.leavesOut c = isBlankText c from rfl,
            hblank c List.mem_cons_self hdata] at hleft
          cases hleft
        have htext : c.isText = false := by
          cases c with
          | text s => cases hdata
          | _ => rfl
        have hitem := GoesOver.leaf writable.isElement (stepsOver_leaf hb writable hnc
          fun ht => absurd (htext.symm.trans ht) Bool.false_ne_true) hmore
        have hbroken := GoesOver.lineBreak hspace hb depth (fun tail _ => by
          rw [List.append_assoc]
          exact beforeMarkup_leaf writable htext _) hitem
        have hne : c ≠ .document := by
          rintro rfl
          exact writable
        rw [Forest.laidOut_cons_nil hleft, Forest.append_assoc, Forest.cons_append,
          if_neg Bool.false_ne_true, line_lines hdata hne]
        simpa using hbroken

end ReadState

end

/-! ## Documents -/

namespace Render

/-- Outside of all elements a node is not indented, and a line feed follows it. -/
theorem line_outermost {c : Content} (hc : c.isCharacterData = false) (hd : c ≠ .document)
    (written : List Char) : line w .outermost 0 c written = written ++ ['\n'] := by
  unfold line
  rw [hc, if_pos]
  · rfl
  · simp [Place.ownLines, hd]

theorem forest_outermost_element (e : Element) (below beside : Forest Content) :
    forest w .outermost 0 (.cons (.element e) below beside) =
      startTag e ++ contents w 0 e below ++ '\n' :: forest w .outermost 0 beside := by
  rw [forest_cons_element, line_outermost rfl Content.noConfusion, List.append_assoc _ ['\n']]
  rfl

theorem forest_outermost_leaf {c : Content} (hm : c.isMiscellany = true)
    (below beside : Forest Content) :
    forest w .outermost 0 (.cons c below beside) =
      leaf c ++ '\n' :: forest w .outermost 0 beside := by
  have hline : line w .outermost 0 c (leaf c) = leaf c ++ ['\n'] := by
    cases c <;> first | exact line_outermost rfl Content.noConfusion _ | cases hm
  rw [forest_cons_leaf _ _ (Content.isElement_of_isMiscellany hm),
    show Place.outermost.leavesOut c = false from rfl, if_neg Bool.false_ne_true, hline,
    List.append_assoc]
  rfl

end Render

namespace Scan

open Render

/-- What is written around the root element, each node on its line, is read back. -/
theorem surrounds_outermost {f : Forest Content} (hf : f.Miscellaneous)
    (hn : ∀ c ∈ f.preorder, c.NamesWithin o.maxNameLength) :
    Surrounds o (Render.forest w .outermost 0 f) f := by
  induction f with
  | nil => exact .nil
  | cons c below beside _ ih =>
    obtain ⟨⟨hm, hleaf, rfl⟩, hrest⟩ := hf
    have hmore := ih hrest fun d hd => hn d (List.mem_cons_of_mem _ hd)
    rw [forest_outermost_leaf hm]
    exact .leaf hm hleaf (hn _ List.mem_cons_self) hmore.lineFeed

/-- Nothing that is written in front of the root element is taken for a declaration. -/
theorem undeclared_outermost {f : Forest Content} (hf : f.Miscellaneous) {e : Element}
    (he : IsName e.name.written.toList) (below behind : Forest Content) :
    Undeclared (Render.forest w .outermost 0 (f ++ .cons (.element e) below behind)) := by
  rw [forest_append]
  cases f with
  | nil =>
    rw [forest_outermost_element, Render.forest, List.nil_append, List.append_assoc]
    exact undeclared_startTag he _
  | cons c below' beside =>
    obtain ⟨⟨hm, hleaf, rfl⟩, -⟩ := hf
    rw [forest_outermost_leaf hm, List.append_assoc]
    exact undeclared_leaf hm hleaf.spelled _

end Scan

/-- Legal markup within the limits is read from its indented form as it is laid out. -/
theorem Markup.parse_laidOut (hi : w.indent = true)
    (hspace : ∀ c ∈ w.indentation.toList, isMarkupSpace c = true) (hb : o.dropBlanks = false)
    {m : Markup} (hl : m.Legal o.namespaceAware) (hw : m.Within o) :
    Markup.parse o (m.render w) =
      .ok ⟨if w.declaration then m.declaration.asWritten else .absent,
        m.top.laidOut w .outermost 0⟩ := by
  obtain ⟨before, e, below, behind, htop, hbefore, hbehind, hroot⟩ := hl.top
  have hdepth := hw.depth
  have hnames := hw.names
  have hreferences := Nat.le_trans (Forest.references_laidOut_le hspace .outermost 0 m.top)
    hw.references
  rw [← Forest.height_laidOut (w := w) .outermost 0] at hdepth
  have hlaid : m.top.laidOut w .outermost 0 = before ++ .cons (.element e)
      (below.laidOut w (Render.Place.inside w below.roots) (0 + 1) ++
        (Render.Place.inside w below.roots).lineBreak w 0) behind := by
    rw [htop, Forest.laidOut_append, hbefore.laidOut, Forest.laidOut_cons rfl, hbehind.laidOut]
    rfl
  rw [hlaid] at hdepth hreferences
  rw [Forest.height_append, Forest.height_element] at hdepth
  rw [Forest.references_append, Forest.references_cons] at hreferences
  rw [htop] at hnames
  obtain ⟨hnbefore, hninside⟩ := Forest.forall_mem_preorder_append.1 hnames
  obtain ⟨hnroot, hnbelow, hnbehind⟩ := Forest.forall_mem_preorder_cons.1 hninside
  cases hroot with
  | leaf writable => exact absurd writable id
  | element writable names content rest =>
    have hcontent := ReadState.laysOut_of_legal (w := w) hspace hb content hnbelow
    have hsurrounds := surrounds_outermost (o := o) (w := w) hbehind hnbehind
    have hwritten : Render.forest w .outermost 0 m.top = Render.forest w .outermost 0 before ++
        (Render.startTag e ++ Render.contents w 0 e below ++
          ('\n' :: Render.forest w .outermost 0 behind)) := by
      rw [htop, Render.forest_append, Render.forest_outermost_element]
    rw [parse_eq_ok, hlaid]
    unfold Markup.render Render.document
    rw [String.toList_ofList, hi, if_pos rfl]
    refine document_declared ?_ hl.version (fun hmark hdeclared hs => ?_) w.declaration
    · rw [htop]
      exact undeclared_outermost hbefore writable.name.isName below behind
    · exact document_surrounds (surrounds_outermost hbefore hnbefore) hsurrounds.lineFeed writable
        names hnroot (hcontent.encloses 0 e) (by omega) (by omega) hmark hdeclared (hwritten ▸ hs)

/-- The second options let through what is written for markup that was read under the first: prefixes
are resolved alike, no limit is lower, the limit on names lets the names of entities through, of which
the longest has four letters, and the limit on references all that are written. -/
structure ReadOptions.LetsThrough (o o' : ReadOptions) (m : Markup) : Prop where
  aware : o'.namespaceAware = o.namespaceAware
  depth : o.maxDepth ≤ o'.maxDepth
  names : max 4 o.maxNameLength ≤ o'.maxNameLength
  references : m.top.references ≤ o'.maxReferences

/-- Markup that was read is read from its indented form as it is laid out. -/
theorem Markup.parse_laidOut_of_parse {o o' : ReadOptions} {t : String} {m : Markup}
    (h : Markup.parse o t = .ok m) (hi : w.indent = true)
    (hspace : ∀ c ∈ w.indentation.toList, isMarkupSpace c = true) (ho : o.LetsThrough o' m)
    (hb : o'.dropBlanks = false) :
    Markup.parse o' ((Document.ofMarkup m).render w) =
      .ok ⟨if w.declaration then m.declaration.asWritten else .absent,
        m.top.laidOut w .outermost 0⟩ := by
  obtain ⟨hlegal, hdepth, hnames⟩ := within_of_parse h
  have hwithin : m.Within o' :=
    ⟨Nat.le_trans hdepth ho.depth, fun c hc => (hnames c hc).mono ho.names, ho.references⟩
  rw [← ho.aware] at hlegal
  unfold Document.render
  rw [Document.markup_ofMarkup]
  exact parse_laidOut hi hspace hb hlegal hwithin

/-- Indentation adds and drops blank texts and nothing else: markup that was read, written with any
indentation of space, is read with blank text dropped as the markup without its blank texts. -/
theorem Markup.parse_indented {o o' : ReadOptions} {t : String} {m : Markup}
    (h : Markup.parse o t = .ok m) (hi : w.indent = true)
    (hspace : ∀ c ∈ w.indentation.toList, isMarkupSpace c = true) (ho : o.LetsThrough o' m)
    (hb : o'.dropBlanks = true) :
    Markup.parse o' ((Document.ofMarkup m).render w) =
      .ok ⟨if w.declaration then m.declaration.asWritten else .absent, m.top.withoutBlanks⟩ := by
  have hdropping : o'.dropping = o' := by
    unfold ReadOptions.dropping
    rw [← hb]
  have hkeeping : o.LetsThrough o'.keeping m := ⟨ho.aware, ho.depth, ho.names, ho.references⟩
  have hkept := parse_laidOut_of_parse h hi hspace hkeeping rfl
  rw [← hdropping, parse_dropping, hkept, Except.map, withoutBlanks,
    Forest.withoutBlanks_laidOut hspace]

/-- Mixed content around element-only content, a comment and an instruction on lines of their own, and
blank texts that are spelled by references. -/
theorem Markup.parse_indented_mixed :
    let w : WriteOptions := ⟨true, true, "\r\t"⟩
    let t := "<r><a>x<b>&#160;<c/>&#13;<!--d--> </b> </a><?p  e?><f/></r>"
    let outside : Forest Content → Forest Content → Markup := fun inside behind =>
      ⟨.absent, .cons (.element ⟨⟨none, "r"⟩, none, []⟩)
        (.cons (.element ⟨⟨none, "a"⟩, none, []⟩)
          (.cons (.text "x") .nil (.cons (.element ⟨⟨none, "b"⟩, none, []⟩) inside behind))
          (.cons (.instruction "p" (some "e")) .nil
            (.leaf (.element ⟨⟨none, "f"⟩, none, []⟩)))) .nil⟩
    let m := outside (.cons (.text "\u00a0") .nil (.cons (.element ⟨⟨none, "c"⟩, none, []⟩) .nil
      (.cons (.text "\r") .nil (.cons (.comment "d") .nil (.leaf (.text " ")))))) (.leaf (.text " "))
    let o : ReadOptions := { dropBlanks := true, maxReferences := 1 }
    (Markup.parse {} t = .ok m ∧ w.indent = true ∧
        (∀ c ∈ w.indentation.toList, isMarkupSpace c = true) ∧ ({} : ReadOptions).LetsThrough o m ∧
        o.dropBlanks = true) ∧
      Markup.parse o ((Document.ofMarkup m).render w) =
        .ok ⟨m.declaration.asWritten, (outside (.cons (.element ⟨⟨none, "c"⟩, none, []⟩) .nil
          (.leaf (.comment "d"))) .nil).top⟩ := by
  intro w t outside m o
  have hparse : Markup.parse {} t = .ok m := by decide +kernel
  have hspace : ∀ c ∈ w.indentation.toList, isMarkupSpace c = true :=
    List.all_eq_true.1 (by decide)
  have ho : ({} : ReadOptions).LetsThrough o m :=
    ⟨rfl, by decide, by decide, by decide⟩
  exact ⟨⟨hparse, rfl, hspace, ho, rfl⟩, Markup.parse_indented hparse rfl hspace ho rfl⟩

end MarkupFields
