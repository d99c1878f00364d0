import MarkupFields.Proofs.Markup.Accepted

/-
  Content written and read back. What is written for a legal forest, without indentation, is read
  back inside any open element whose scope the forest is legal in: after it the reader stands before
  what follows, with the trees of the forest complete in the innermost open element. The proof is an
  induction over the forest, with one step of reading for each leaf and for each start tag. The step
  over a node between marks of its own does not ask for a legal one, only that nothing inside the
  node ends it (`step_enclosed`).
-/

namespace MarkupFields

open Text Scan

/-! ## What begins at written markup -/

namespace Scan

theorem itemAt_cdata (rest : List Char) : itemAt (cdataOpen ++ rest) = (.cdata, rest) := by
  simp [itemAt, Item.marked, Item.mark, cdataOpen, after?]

theorem itemAt_comment (rest : List Char) : itemAt (commentOpen ++ rest) = (.comment, rest) := by
  simp [itemAt, Item.marked, Item.mark, cdataOpen, commentOpen, after?]

theorem itemAt_instruction (rest : List Char) :
    itemAt (instructionOpen ++ rest) = (.instruction, rest) := by
  simp [itemAt, Item.marked, Item.mark, cdataOpen, commentOpen, instructionOpen, after?]

theorem itemAt_endTag (rest : List Char) : itemAt ('<' :: '/' :: rest) = (.endTag, rest) := by
  simp [itemAt, Item.marked, Item.mark, after?]

theorem itemAt_characters {c : Char} (h : c ≠ '<') (next : List Char) :
    itemAt (c :: next) = (.text, c :: next) := by
  simp [itemAt, Item.marked, Item.mark, cdataOpen, commentOpen, instructionOpen, after?, h.symm]

/-- A bracket before a name opens an element. -/
theorem itemAt_startTag {word : List Char} (h : IsName word) (rest : List Char) :
    itemAt ('<' :: (word ++ rest)) = (.startTag, word ++ rest) := by
  obtain ⟨c, cs, rfl, hc, -⟩ := h
  have hslash : '/' ≠ c := by
    rintro rfl
    exact absurd hc (by decide)
  have hbang : '!' ≠ c := by
    rintro rfl
    exact absurd hc (by decide)
  have hquestion : '?' ≠ c := by
    rintro rfl
    exact absurd hc (by decide)
  simp [itemAt, Item.marked, Item.mark, cdataOpen, commentOpen, instructionOpen, after?, hslash,
    hbang, hquestion]

end Scan

/-! ## Written forests -/

namespace Render

variable {w : WriteOptions}

/-- What is written behind the attributes of an element: its children with its end tag, or the mark
of an element without children. -/
def contents (w : WriteOptions) (depth : Nat) (e : Element) : Forest Content → List Char
  | .nil => ['/', '>']
  | f =>
    body w depth e (Place.inside w f.roots) (forest w (Place.inside w f.roots) (depth + 1) f)

theorem line_running (depth : Nat) (c : Content) (written : List Char) :
    line w .running depth c written = written := rfl

theorem forest_cons_element (place : Place) (depth : Nat) (e : Element)
    (below beside : Forest Content) :
    forest w place depth (.cons (.element e) below beside) =
      line w place depth (.element e) (startTag e ++ contents w depth e below) ++
        forest w place depth beside := by
  cases below with
  | nil => rfl
  | cons c below' beside' =>
    rw [forest]
    · rfl
    · intro h
      cases h

theorem forest_cons_leaf (place : Place) (depth : Nat) {c : Content} (hc : c.isElement = false)
    (below beside : Forest Content) :
    forest w place depth (.cons c below beside) =
      (if place.leavesOut c then [] else line w place depth c (leaf c)) ++
        forest w place depth beside := by
  cases c with
  | element e => cases hc
  | _ => rfl

theorem forest_append (place : Place) (depth : Nat) (f g : Forest Content) :
    forest w place depth (f ++ g) = forest w place depth f ++ forest w place depth g := by
  induction f with
  | nil => rfl
  | cons c below beside _ ih =>
    rw [Forest.cons_append]
    by_cases hc : c.isElement = true
    · cases c with
      | element e => rw [forest_cons_element, forest_cons_element, ih, List.append_assoc]
      | _ => cases hc
    · rw [Bool.not_eq_true] at hc
      rw [forest_cons_leaf _ _ hc, forest_cons_leaf _ _ hc, ih, List.append_assoc]

theorem inside_running (hi : w.indent = false) (level : List Content) :
    Place.inside w level = .running := by
  unfold Place.inside
  rw [hi]
  rfl

/-- The children of an element with its end tag, or the mark of an element without children. -/
def inner (w : WriteOptions) (depth : Nat) (e : Element) : Forest Content → List Char
  | .nil => ['/', '>']
  | f => '>' :: (forest w .running depth f ++ endTag e)

theorem contents_running (hi : w.indent = false) (depth : Nat) (e : Element) (f : Forest Content) :
    contents w depth e f = inner w (depth + 1) e f := by
  cases f with
  | nil => rfl
  | cons c below beside =>
    simp only [contents, inside_running hi]
    rfl

theorem forest_element (hi : w.indent = false) (depth : Nat) (e : Element)
    (below beside : Forest Content) :
    forest w .running depth (.cons (.element e) below beside) =
      startTag e ++ inner w (depth + 1) e below ++ forest w .running depth beside := by
  rw [forest_cons_element, contents_running hi, line_running]

/-- What begins with an element begins with the bracket before its name. -/
theorem forest_element_append (hi : w.indent = false) (depth : Nat) (e : Element)
    (below beside : Forest Content) (tail : List Char) :
    forest w .running depth (.cons (.element e) below beside) ++ tail =
      '<' :: (e.name.written.toList ++ (e.attributes.flatMap attributePair ++
        (inner w (depth + 1) e below ++ (forest w .running depth beside ++ tail)))) := by
  simp [forest_element hi, startTag]

theorem forest_leaf (depth : Nat) {c : Content} (hc : c.isElement = false)
    (below beside : Forest Content) :
    forest w .running depth (.cons c below beside) =
      leaf c ++ forest w .running depth beside := by
  rw [forest_cons_leaf _ _ hc]
  rfl

/-- A written leaf is markup, unless it is a text. -/
theorem beforeMarkup_leaf {c : Content} (hc : c.LegalLeaf) (ht : c.isText = false)
    (tail : List Char) : BeforeMarkup (leaf c ++ tail) := by
  cases c with
  | element e => exact absurd hc id
  | document => exact absurd hc id
  | text s => cases ht
  | cdata s => exact .inr ⟨_, rfl⟩
  | comment s => exact .inr ⟨_, rfl⟩
  | instruction target data => exact .inr ⟨_, rfl⟩

/-- What a forest is written as begins with markup, unless it begins with a text. -/
theorem beforeMarkup_forest (depth : Nat) {f : Forest Content} {aware : Bool} {s : Scope}
    {tail : List Char} (hf : f.Legal aware s) (hs : f.startsWithText = false)
    (ht : BeforeMarkup tail) : BeforeMarkup (forest w .running depth f ++ tail) := by
  cases hf with
  | nil => exact ht
  | element writable names content rest =>
    rw [forest_cons_element]
    exact .inr ⟨_, rfl⟩
  | @leaf _ c beside writable apart rest =>
    rw [forest_leaf depth writable.isElement, List.append_assoc]
    exact beforeMarkup_leaf writable hs _

end Render

/-! ## Reading written content -/

namespace OpenElement

/-- The trees of a forest are complete, after those that were. -/
def addAll (e : OpenElement) (f : Forest Content) : OpenElement :=
  { e with complete := f.trees.reverse ++ e.complete }

theorem addAll_cons (e : OpenElement) (c : Content) (below beside : Forest Content) :
    e.addAll (.cons c below beside) = (e.add (c, below)).addAll beside := by
  unfold addAll add
  rw [Forest.trees, List.reverse_cons, List.append_assoc, List.singleton_append]

theorem tree_addAll (e : Element) (s : Scope) (f : Forest Content) :
    ((⟨e, s, []⟩ : OpenElement).addAll f).tree = (.element e, f) := by
  unfold tree addAll
  rw [List.append_nil, List.reverse_reverse, Forest.ofTrees_trees]

end OpenElement

namespace ReadState

variable {o : ReadOptions} {w : WriteOptions}

/-- Goes on until the root element is complete. -/
def resume (o : ReadOptions) : ReadProgress → Except Halt (ContentTree × List Char)
  | .going s => s.run o
  | .complete root rest => .ok (root, rest)

theorem run_eq (s : ReadState) : s.run o = s.step o >>= resume o := by
  rw [run]
  split
  · rename_i e he
    rw [he]
    rfl
  · rename_i root rest he
    rw [he]
    rfl
  · rename_i s' he
    rw [he]
    rfl

/-- One step over what is written between marks, if nothing ends it before. -/
theorem step_enclosed {inner : OpenElement} {around : List OpenElement} {used : Nat} {c : Content}
    (hc : c.isEnclosed = true) (hs : c.Spelled) (hk : c.Contained)
    (hn : c.NamesWithin o.maxNameLength) (tail : List Char) :
    step o ⟨inner, around, used, Render.leaf c ++ tail⟩ =
      .ok (.going ⟨inner.addLeaf c.asRead, around, used, tail⟩) := by
  cases c with
  | cdata s =>
    unfold step Render.leaf
    simp only [List.append_assoc, itemAt_cdata, cdata_raw hs hk tail, ok_bind, Content.asRead]
  | comment s =>
    unfold step Render.leaf
    simp only [List.append_assoc, itemAt_comment, comment_raw hs hk tail, ok_bind, commentContent,
      Content.asRead]
  | instruction target data =>
    cases data with
    | none =>
      unfold step Render.leaf
      simp only [List.append_assoc, itemAt_instruction, List.nil_append,
        instruction_written_bare hs.1 hn tail, ok_bind, instructionContent, String.ofList_toList,
        Option.map_none, Content.asRead, Option.bind_none]
    | some d =>
      unfold step Render.leaf
      simp only [List.append_assoc, itemAt_instruction, List.cons_append,
        instruction_raw hs.1 hn (hs.2 d rfl) (hk d rfl) tail, ok_bind, instructionContent,
        String.ofList_toList, Content.asRead, Option.bind_some]
  | _ => cases hc

/-- One step over a written leaf other than text. -/
theorem step_leaf {inner : OpenElement} {around : List OpenElement} {used : Nat} {c : Content}
    (hc : c.LegalLeaf) (ht : c.isText = false) (hn : c.NamesWithin o.maxNameLength)
    (tail : List Char) :
    step o ⟨inner, around, used, Render.leaf c ++ tail⟩ =
      .ok (.going ⟨inner.addLeaf c, around, used, tail⟩) := by
  rw [step_enclosed (hc.isEnclosed ht) hc.spelled hc.contained hn, hc.asRead]

/-- At anything but a bracket character data is read. -/
theorem step_characters {c : Char} (hc : c ≠ '<') (inner : OpenElement) (around : List OpenElement)
    (used : Nat) (next : List Char) :
    step o ⟨inner, around, used, c :: next⟩ =
      characterData o used (c :: next) >>= fun r =>
        .ok (.going ⟨inner.addText o r.1, around, r.2.1, r.2.2⟩) := by
  unfold step
  simp only [itemAt_characters hc]

/-- At a written text character data is read. -/
theorem step_characterData {cs : List Char} (hne : cs ≠ []) (inner : OpenElement)
    (around : List OpenElement) (used : Nat) (tail : List Char) :
    step o ⟨inner, around, used, Render.text cs ++ tail⟩ =
      characterData o used (Render.text cs ++ tail) >>= fun r =>
        .ok (.going ⟨inner.addText o r.1, around, r.2.1, r.2.2⟩) := by
  cases cs with
  | nil => exact absurd rfl hne
  | cons c cs =>
    obtain ⟨d, l, he, hd, -⟩ := head_escapedInText c
    unfold Render.text
    rw [List.flatMap_cons, he, List.cons_append, List.cons_append]
    exact step_characters hd inner around used _

/-- One step over a written text. -/
theorem step_text (hb : o.dropBlanks = false) {inner : OpenElement} {around : List OpenElement}
    {used : Nat} {t : String} (hc : (Content.text t).LegalLeaf)
    (hn : (Content.text t).NamesWithin o.maxNameLength)
    (hu : used + (Content.text t).references ≤ o.maxReferences) {tail : List Char}
    (ht : BeforeMarkup tail) :
    step o ⟨inner, around, used, Render.leaf (.text t) ++ tail⟩ =
      .ok (.going ⟨inner.addLeaf (.text t), around, used + (Content.text t).references, tail⟩) := by
  have hne : t.toList ≠ [] := hc.toList_ne_nil
  have hdata : characterData o used (Render.text t.toList ++ tail) =
      .ok (t.toList, used + (Content.text t).references, tail) :=
    characterData_written (fun c hm => ⟨hc.2 c hm, hn c hm⟩) hu ht
  have hadd : inner.addText o t.toList = inner.addLeaf (.text t) := by
    unfold OpenElement.addText
    rw [hb, Bool.false_and, Bool.or_false, List.isEmpty_eq_false_iff.2 hne, String.ofList_toList]
    rfl
  unfold Render.leaf
  rw [step_characterData hne, hdata, ok_bind, hadd]

/-- Inside any open element with the scope, reading goes over the characters and comes to stand before
what follows them, which has to be markup; the trees of the forest are complete then. -/
def GoesOver (o : ReadOptions) (s : Scope) (cs : List Char) (f : Forest Content) : Prop :=
  ∀ (inner : OpenElement) (around : List OpenElement) (used : Nat) (tail : List Char),
    inner.scope = s → around.length + 1 + f.height ≤ o.maxDepth →
    used + f.references ≤ o.maxReferences → BeforeMarkup tail →
    run o ⟨inner, around, used, cs ++ tail⟩ =
      run o ⟨inner.addAll f, around, used + f.references, tail⟩

/-- Behind the attributes of an element the characters close it at once, or hold its children up to
its end tag. -/
inductive Encloses (o : ReadOptions) (inside : Scope) (e : Element) :
    List Char → Forest Content → Prop
  | closed : Encloses o inside e ['/', '>'] .nil
  | opened {cs : List Char} {children : Forest Content} (content : GoesOver o inside cs children) :
    Encloses o inside e ('>' :: (cs ++ Render.endTag e)) children

/-- Reading goes over the written forest inside any open element whose scope it is legal in, and
comes to stand before what follows it. -/
def Rereads (o : ReadOptions) (w : WriteOptions) (depth : Nat) (s : Scope) (f : Forest Content) :
    Prop :=
  GoesOver o s (Render.forest w .running depth f) f

/-- The end tag of the innermost element completes its tree. -/
theorem run_endTag {inner : OpenElement} (around : List OpenElement) (used : Nat)
    (hw : inner.element.name.Writable)
    (hl : utf8Length inner.element.name.written.toList ≤ o.maxNameLength) (tail : List Char) :
    run o ⟨inner, around, used, Render.endTag inner.element ++ tail⟩ =
      resume o (place inner.tree used tail around) := by
  have hgt : EndsName ('>' :: tail) := by
    intro d hd
    rw [← Option.some.inj hd]
    decide
  have hname := name_written hw.isName hl hgt
  have hexpect : expect '>' (skipSpace ('>' :: tail)) = .ok tail := expect_eq_ok_iff.2 rfl
  have hsame : ¬ String.ofList inner.element.name.written.toList ≠ inner.element.name.written := by
    rw [String.ofList_toList]
    exact fun h => h rfl
  have hrest : Render.endTag inner.element ++ tail =
      '<' :: '/' :: (inner.element.name.written.toList ++ '>' :: tail) := by
    simp [Render.endTag]
  rw [run_eq, hrest]
  unfold step
  simp only [itemAt_endTag]
  unfold closeElement
  simp only [hname, ok_bind, if_neg hsame, hexpect]

section
variable {inside : Scope} {e : Element} {around : List OpenElement} {used : Nat}
  (hw : e.Writable o.namespaceAware) (hread : e.ReadIn o.namespaceAware (scopeIn around) inside)
  (hn : (Content.element e).NamesWithin o.maxNameLength) (hd : around.length + 1 ≤ o.maxDepth)
  (hu : used + (Content.element e).references ≤ o.maxReferences) (whole tail : List Char)
include hw hread hn hd hu

/-- The start tag of an element without children completes its tree. -/
theorem nestElement_closed :
    nestElement o around used whole (e.name.written.toList ++
        (e.attributes.flatMap Render.attributePair ++ (['/', '>'] ++ tail))) =
      .ok (place (.element e, .nil) (used + (Content.element e).references) tail around) := by
  have hend : atTagEnd (['/', '>'] ++ tail) = true := rfl
  have htag := startTag_written used hw hread hn hu hend
  have hclose : after? ['/', '>'] (['/', '>'] ++ tail) = some tail := after?_append _ _
  unfold nestElement
  rw [if_neg (by omega)]
  unfold openElement
  simp only [htag, ok_bind, hclose]

/-- Behind any other start tag the reader stands inside its element. -/
theorem nestElement_opened :
    nestElement o around used whole (e.name.written.toList ++
        (e.attributes.flatMap Render.attributePair ++ '>' :: tail)) =
      .ok (.going ⟨⟨e, inside, []⟩, around, used + (Content.element e).references, tail⟩) := by
  have hend : atTagEnd ('>' :: tail) = true := rfl
  have htag := startTag_written used hw hread hn hu hend
  have hopen : after? ['/', '>'] ('>' :: tail) = none := rfl
  have hexpect : expect '>' ('>' :: tail) = .ok tail := expect_eq_ok_iff.2 rfl
  unfold nestElement
  rw [if_neg (by omega)]
  unfold openElement
  simp only [htag, ok_bind, hopen, hexpect]

end

/-- An element is read from its opening bracket on, if what it encloses is. -/
theorem nestElement_encloses {s inside : Scope} {e : Element} {cs : List Char}
    {children : Forest Content} (hw : e.Writable o.namespaceAware)
    (hread : e.ReadIn o.namespaceAware s inside)
    (hn : (Content.element e).NamesWithin o.maxNameLength) (hc : Encloses o inside e cs children)
    {around : List OpenElement} (ha : scopeIn around = s)
    (hd : around.length + 1 + children.height ≤ o.maxDepth) (used : Nat)
    (hu : used + ((Content.element e).references + children.references) ≤ o.maxReferences)
    (whole tail : List Char) :
    nestElement o around used whole
        (e.name.written.toList ++ (e.attributes.flatMap Render.attributePair ++ (cs ++ tail))) >>=
          resume o =
      resume o (place (.element e, children)
        (used + ((Content.element e).references + children.references)) tail around) := by
  subst ha
  cases hc with
  | closed =>
    rw [Forest.references_nil, Nat.add_zero,
      nestElement_closed hw hread hn (by omega) (by omega) whole tail, ok_bind]
  | @opened cs children content =>
    have hend : BeforeMarkup (Render.endTag e ++ tail) := .inr ⟨_, rfl⟩
    have hcontent := content ⟨e, inside, []⟩ around (used + (Content.element e).references)
      (Render.endTag e ++ tail) rfl hd (by omega) hend
    let filled : OpenElement := (⟨e, inside, []⟩ : OpenElement).addAll children
    have hname : filled.element.name.Writable := hw.name
    have hclose := run_endTag around
      (used + (Content.element e).references + children.references) hname hn.1 tail
    rw [OpenElement.tree_addAll] at hclose
    rw [List.cons_append, List.append_assoc,
      nestElement_opened hw hread hn (by omega) (by omega) whole, ok_bind]
    show run o _ = _
    rw [hcontent, ← Nat.add_assoc]
    exact hclose

/-- What is written behind the attributes of an element encloses its children, if they are read
back. -/
theorem Rereads.encloses {depth : Nat} {inside : Scope} {children : Forest Content}
    (hc : Rereads o w depth inside children) (e : Element) :
    Encloses o inside e (Render.inner w depth e children) children := by
  cases children with
  | nil => exact .closed
  | cons c below beside => exact .opened hc

/-- At the start tag of an element the element is read. -/
theorem step_startTag {word : List Char} (h : IsName word) (inner : OpenElement)
    (around : List OpenElement) (used : Nat) (cs : List Char) :
    step o ⟨inner, around, used, '<' :: (word ++ cs)⟩ =
      nestElement o (inner :: around) used ('<' :: (word ++ cs)) (word ++ cs) := by
  unfold step
  simp only [itemAt_startTag h]

theorem GoesOver.nil {s : Scope} : GoesOver o s [] .nil :=
  fun _ _ _ _ _ _ _ _ => rfl

section
variable {inside : Scope} {e : Element} (writable : e.Writable o.namespaceAware)
  (hn : (Content.element e).NamesWithin o.maxNameLength)
include writable hn

/-- Reading goes over an element that encloses its children. -/
theorem run_encloses {cs : List Char} {children : Forest Content} {inner : OpenElement}
    (names : e.ReadIn o.namespaceAware inner.scope inside)
    (content : Encloses o inside e cs children) {around : List OpenElement}
    (hd : around.length + 1 + (children.height + 1) ≤ o.maxDepth) {used : Nat}
    (hu : used + ((Content.element e).references + children.references) ≤ o.maxReferences)
    (tail : List Char) :
    run o ⟨inner, around, used, Render.startTag e ++ cs ++ tail⟩ =
      run o ⟨inner.add (.element e, children), around,
        used + ((Content.element e).references + children.references), tail⟩ := by
  have hwritten : Render.startTag e ++ cs ++ tail = '<' :: (e.name.written.toList ++
      (e.attributes.flatMap Render.attributePair ++ (cs ++ tail))) := by
    simp [Render.startTag]
  rw [hwritten, run_eq, step_startTag writable.name.isName]
  exact nestElement_encloses writable names hn content rfl
    (by rw [List.length_cons]; omega) used hu _ _

/-- Reading goes over an element that encloses its children, and over what stands beside it. -/
theorem GoesOver.element {s : Scope} {cs rest : List Char} {children beside : Forest Content}
    (names : e.ReadIn o.namespaceAware s inside) (content : Encloses o inside e cs children)
    (more : GoesOver o s rest beside) :
    GoesOver o s (Render.startTag e ++ cs ++ rest) (.cons (.element e) children beside) := by
  intro inner around used tail hs hd hu ht
  rw [Forest.height_element] at hd
  rw [Forest.references_cons] at hu
  subst hs
  have hbeside := more (inner.add (.element e, children)) around
    (used + ((Content.element e).references + children.references)) tail rfl (by omega)
    (by omega) ht
  rw [List.append_assoc _ rest, run_encloses writable hn names content (by omega) (by omega),
    OpenElement.addAll_cons, Forest.references_cons,
    ← Nat.add_assoc (Content.references _) (Forest.references _), ← Nat.add_assoc used (_ + _)]
  exact hbeside

end

/-- One step takes the characters as the leaf, if what is behind them is markup. -/
def StepsOver (o : ReadOptions) (cs : List Char) (c : Content) (rest : List Char) : Prop :=
  ∀ (inner : OpenElement) (around : List OpenElement) (used : Nat) (tail : List Char),
    used + c.references ≤ o.maxReferences → BeforeMarkup tail →
    step o ⟨inner, around, used, cs ++ (rest ++ tail)⟩ =
      .ok (.going ⟨inner.addLeaf c, around, used + c.references, rest ++ tail⟩)

/-- Reading goes over a leaf and over what stands beside it. -/
theorem GoesOver.leaf {s : Scope} {c : Content} (hc : c.isElement = false) {cs rest : List Char}
    {beside : Forest Content} (hstep : StepsOver o cs c rest) (more : GoesOver o s rest beside) :
    GoesOver o s (cs ++ rest) (.cons c .nil beside) := by
  intro inner around used tail hs hd hu ht
  rw [Forest.height_leaf hc] at hd
  rw [Forest.references_cons, Forest.references_nil, Nat.zero_add] at hu ⊢
  subst hs
  have hbeside := more (inner.addLeaf c) around (used + c.references) tail rfl hd (by omega) ht
  rw [List.append_assoc, run_eq, hstep inner around used tail (by omega) ht, ok_bind,
    OpenElement.addAll_cons, ← Nat.add_assoc]
  exact hbeside

/-- A written leaf is read back in one step, unless a text would follow a text. -/
theorem stepsOver_leaf (hb : o.dropBlanks = false) {c : Content} (writable : c.LegalLeaf)
    (hn : c.NamesWithin o.maxNameLength) {rest : List Char}
    (hmarkup : c.isText = true → ∀ tail, BeforeMarkup tail → BeforeMarkup (rest ++ tail)) :
    StepsOver o (Render.leaf c) c rest := by
  intro inner around used tail hu ht
  by_cases htext : c.isText = true
  · cases c with
    | text t => exact step_text hb writable hn hu (hmarkup rfl tail ht)
    | _ => cases htext
  · rw [Bool.not_eq_true] at htext
    rw [step_leaf writable htext hn, writable.references htext, Nat.add_zero]

/-- Reading goes over an element whose content is read back. -/
theorem run_element (hi : w.indent = false) {depth : Nat} {inside : Scope} {e : Element}
    {children : Forest Content} {inner : OpenElement} (writable : e.Writable o.namespaceAware)
    (names : e.ReadIn o.namespaceAware inner.scope inside)
    (hn : (Content.element e).NamesWithin o.maxNameLength)
    (content : Rereads o w (depth + 1) inside children) {around : List OpenElement}
    (hd : around.length + 1 + (children.height + 1) ≤ o.maxDepth) {used : Nat}
    (hu : used + ((Content.element e).references + children.references) ≤ o.maxReferences)
    (beside : Forest Content) (tail : List Char) :
    run o ⟨inner, around, used,
        Render.forest w .running depth (.cons (.element e) children beside) ++ tail⟩ =
      run o ⟨inner.add (.element e, children), around,
        used + ((Content.element e).references + children.references),
        Render.forest w .running depth beside ++ tail⟩ := by
  rw [Render.forest_element hi, List.append_assoc]
  exact run_encloses writable hn names (content.encloses e) hd hu _

/-- Reading goes over a leaf, unless a text would follow a text. -/
theorem run_leaf (hb : o.dropBlanks = false) {depth : Nat} {c : Content}
    {beside : Forest Content} {inner : OpenElement} (writable : c.LegalLeaf)
    (apart : c.isText = true → beside.startsWithText = false)
    (hn : c.NamesWithin o.maxNameLength) (legal : beside.Legal o.namespaceAware inner.scope)
    (around : List OpenElement) {used : Nat} (hu : used + c.references ≤ o.maxReferences)
    {tail : List Char} (ht : BeforeMarkup tail) :
    run o ⟨inner, around, used, Render.forest w .running depth (.cons c .nil beside) ++ tail⟩ =
      run o ⟨inner.addLeaf c, around, used + c.references,
        Render.forest w .running depth beside ++ tail⟩ := by
  have hstep : StepsOver o (Render.leaf c) c (Render.forest w .running depth beside) :=
    stepsOver_leaf hb writable hn fun htext _ => Render.beforeMarkup_forest depth legal (apart htext)
  rw [Render.forest_leaf depth writable.isElement, List.append_assoc, run_eq,
    hstep inner around used tail hu ht]
  rfl

/-- Every legal forest within the limits of names is read back. -/
theorem rereads_of_legal (hi : w.indent = false) (hb : o.dropBlanks = false) {s : Scope}
    {f : Forest Content} (hf : f.Legal o.namespaceAware s)
    (hn : ∀ c ∈ f.preorder, c.NamesWithin o.maxNameLength) (depth : Nat) :
    Rereads o w depth s f := by
  induction hf generalizing depth with
  | nil => exact .nil
  | element writable names content rest ihc ihr =>
    obtain ⟨hne, hnc, hnr⟩ := Forest.forall_mem_preorder_cons.1 hn
    unfold Rereads
    rw [Render.forest_element hi]
    exact .element writable hne names ((ihc hnc (depth + 1)).encloses _) (ihr hnr depth)
  | leaf writable apart rest ih =>
    obtain ⟨hnc, -, hnr⟩ := Forest.forall_mem_preorder_cons.1 hn
    unfold Rereads
    rw [Render.forest_leaf depth writable.isElement]
    exact .leaf writable.isElement
      (stepsOver_leaf hb writable hnc
        fun htext _ => Render.beforeMarkup_forest depth rest (apart htext)) (ih hnr depth)

end ReadState

end MarkupFields
