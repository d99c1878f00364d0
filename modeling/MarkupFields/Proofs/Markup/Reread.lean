import MarkupFields.Proofs.Markup.Content

/-
  Documents written and read back. The declaration, what stands around the root element and the root
  element itself are read back from what is written for them, one after the other; nothing that is
  written in front of the root element is taken for something else. So legal markup within the limits
  of reading is read back as it was. Markup that was read is legal: what was read once is read back
  from its written form, with the limits it was read under.
-/

namespace MarkupFields

open Text Scan

/-! ## Around the root element -/

namespace Scan

variable {o : ReadOptions} {w : WriteOptions}

/-- A root element is read like any other element, from its name on. -/
theorem rootElement_nested {c : Char} (hc : ¬ (c = '!' ∨ c = '?')) (rest : List Char) :
    rootElement o ('<' :: c :: rest) =
      ReadState.nestElement o [] 0 ('<' :: c :: rest) (c :: rest) >>= ReadState.resume o := by
  simp only [rootElement, if_neg hc]
  cases ReadState.nestElement o [] 0 ('<' :: c :: rest) (c :: rest) with
  | error e => rfl
  | ok p =>
    cases p with
    | going s => rfl
    | complete root rest => rfl

theorem rootElement_eq {word : List Char} (h : IsName word) (cs : List Char) :
    rootElement o ('<' :: (word ++ cs)) =
      ReadState.nestElement o [] 0 ('<' :: (word ++ cs)) (word ++ cs) >>= ReadState.resume o := by
  obtain ⟨c, word, rfl, hc, -⟩ := h
  refine rootElement_nested ?_ (word ++ cs)
  rintro (rfl | rfl)
  · exact absurd hc (by decide)
  · exact absurd hc (by decide)

/-- The root element is read, if what it encloses is. -/
theorem rootElement_encloses {inside : Scope} {e : Element} {cs : List Char}
    {children : Forest Content} (writable : e.Writable o.namespaceAware)
    (names : e.ReadIn o.namespaceAware Scope.outermost inside)
    (hn : (Content.element e).NamesWithin o.maxNameLength)
    (content : ReadState.Encloses o inside e cs children) (hd : children.height + 1 ≤ o.maxDepth)
    (hu : (Content.element e).references + children.references ≤ o.maxReferences)
    (tail : List Char) :
    rootElement o (Render.startTag e ++ cs ++ tail) = .ok ((.element e, children), tail) := by
  have hwritten : Render.startTag e ++ cs ++ tail = '<' :: (e.name.written.toList ++
      (e.attributes.flatMap Render.attributePair ++ (cs ++ tail))) := by
    simp [Render.startTag]
  rw [hwritten, rootElement_eq writable.name.isName,
    ReadState.nestElement_encloses writable names hn content
      (show ReadState.scopeIn [] = Scope.outermost from rfl) (by rw [List.length_nil]; omega) 0
      (by omega)]
  rfl

/-- Space in front makes no difference to what stands around the root element. -/
theorem miscellany_skip {cs cs' : List Char} (h : skipSpace cs = skipSpace cs') :
    miscellany o cs = miscellany o cs' := by
  rw [miscellany, miscellany, h]

/-- A comment comes next around the root element, and other nodes after it. -/
theorem miscellany_comment {cs inside : List Char}
    (hi : itemAt (skipSpace cs) = (.comment, inside)) :
    miscellany o cs = comment inside >>= fun r => miscellany o r.2 >>= fun more =>
      .ok (.cons (commentContent r.1) .nil more.1, more.2) := by
  rw [miscellany, hi]
  dsimp only
  split
  · rename_i e he
    rw [he]
    rfl
  · rename_i v rest hv
    rw [hv]
    rfl

/-- An instruction comes next around the root element, and other nodes after it. -/
theorem miscellany_instruction {cs inside : List Char}
    (hi : itemAt (skipSpace cs) = (.instruction, inside)) :
    miscellany o cs = instruction o.maxNameLength inside >>= fun r =>
      miscellany o r.2 >>= fun more =>
        .ok (.cons (instructionContent r.1) .nil more.1, more.2) := by
  rw [miscellany, hi]
  dsimp only
  split
  · rename_i e he
    rw [he]
    rfl
  · rename_i p rest hp
    rw [hp]
    rfl

/-- Neither comes next around the root element. -/
theorem miscellany_ends {cs : List Char}
    (hc : ∀ inside, itemAt (skipSpace cs) ≠ (.comment, inside))
    (hp : ∀ inside, itemAt (skipSpace cs) ≠ (.instruction, inside)) :
    miscellany o cs = .ok (.nil, skipSpace cs) := by
  rw [miscellany]
  split
  · rename_i inside hitem
    exact absurd hitem (hc inside)
  · rename_i inside hitem
    exact absurd hitem (hp inside)
  · rfl

/-- A comment or an instruction around the root element is read, if nothing ends it before its end
mark, and what stands behind it. -/
theorem miscellany_enclosed {c : Content} (hm : c.isMiscellany = true) (hs : c.Spelled)
    (hk : c.Contained) (hn : c.NamesWithin o.maxNameLength) {rest rest' : List Char}
    {more : Forest Content} (hmore : miscellany o rest = .ok (more, rest')) :
    miscellany o (Render.leaf c ++ rest) = .ok (.cons c.asRead .nil more, rest') := by
  cases c with
  | comment s =>
    have hitem : itemAt (skipSpace (Render.leaf (.comment s) ++ rest)) =
        (.comment, s.toList ++ (commentClose ++ rest)) := by
      rw [← itemAt_comment]
      simp [Render.leaf, commentOpen, skipSpace, isMarkupSpace]
    rw [miscellany_comment hitem, comment_raw hs hk, ok_bind, hmore]
    rfl
  | instruction target data =>
    cases data with
    | none =>
      have hitem : itemAt (skipSpace (Render.leaf (.instruction target none) ++ rest)) =
          (.instruction, target.toList ++ (instructionClose ++ rest)) := by
        rw [← itemAt_instruction]
        simp [Render.leaf, instructionOpen, skipSpace, isMarkupSpace]
      rw [miscellany_instruction hitem, instruction_written_bare hs.1 hn, ok_bind, hmore, ok_bind,
        instructionContent, String.ofList_toList]
      rfl
    | some d =>
      have hitem : itemAt (skipSpace (Render.leaf (.instruction target (some d)) ++ rest)) =
          (.instruction, target.toList ++ ' ' :: (d.toList ++ (instructionClose ++ rest))) := by
        rw [← itemAt_instruction]
        simp [Render.leaf, instructionOpen, skipSpace, isMarkupSpace]
      rw [miscellany_instruction hitem, instruction_raw hs.1 hn (hs.2 d rfl) (hk d rfl), ok_bind,
        hmore, ok_bind, instructionContent, String.ofList_toList]
      rfl
  | _ => cases hm

/-- Nothing but space comes before what is neither a comment nor an instruction. -/
theorem miscellany_nil {tail : List Char} (hs : skipSpace tail = tail)
    (hc : (itemAt tail).1 ≠ .comment) (hp : (itemAt tail).1 ≠ .instruction) :
    miscellany o tail = .ok (.nil, tail) := by
  have hends : miscellany o tail = .ok (.nil, skipSpace tail) := miscellany_ends
    (fun inside hitem => hc (hs ▸ congrArg Prod.fst hitem))
    (fun inside hitem => hp (hs ▸ congrArg Prod.fst hitem))
  rwa [hs] at hends

/-- Reading goes over the characters around the root element, with the forest of comments and
instructions among them. -/
def Surrounds (o : ReadOptions) (cs : List Char) (f : Forest Content) : Prop :=
  ∀ tail rest, miscellany o tail = .ok (.nil, rest) → miscellany o (cs ++ tail) = .ok (f, rest)

theorem Surrounds.nil : Surrounds o [] .nil :=
  fun _ _ h => h

/-- A line feed around the root element makes no difference. -/
theorem Surrounds.lineFeed {cs : List Char} {f : Forest Content} (h : Surrounds o cs f) :
    Surrounds o ('\n' :: cs) f := by
  intro tail rest htail
  rw [miscellany_skip (show skipSpace ('\n' :: cs ++ tail) = skipSpace (cs ++ tail) from rfl)]
  exact h tail rest htail

theorem Surrounds.enclosed {c : Content} (hm : c.isMiscellany = true) (hs : c.Spelled)
    (hk : c.Contained) (hn : c.NamesWithin o.maxNameLength) {cs : List Char}
    {more : Forest Content} (h : Surrounds o cs more) :
    Surrounds o (Render.leaf c ++ cs) (.cons c.asRead .nil more) := by
  intro tail rest htail
  rw [List.append_assoc]
  exact miscellany_enclosed hm hs hk hn (h tail rest htail)

theorem Surrounds.leaf {c : Content} (hm : c.isMiscellany = true) (hleaf : c.LegalLeaf)
    (hn : c.NamesWithin o.maxNameLength) {cs : List Char} {more : Forest Content}
    (h : Surrounds o cs more) : Surrounds o (Render.leaf c ++ cs) (.cons c .nil more) := by
  have hread := h.enclosed hm hleaf.spelled hleaf.contained hn
  rwa [hleaf.asRead] at hread

/-- What stands around the root element is read back. -/
theorem surrounds_written {f : Forest Content} (hf : f.Miscellaneous)
    (hn : ∀ c ∈ f.preorder, c.NamesWithin o.maxNameLength) (depth : Nat) :
    Surrounds o (Render.forest w .running depth f) f := by
  induction f with
  | nil => exact .nil
  | cons c below beside _ ih =>
    obtain ⟨⟨hm, hleaf, rfl⟩, hrest⟩ := hf
    have hmore := ih hrest fun d hd => hn d (List.mem_cons_of_mem _ hd)
    rw [Render.forest_leaf depth hleaf.isElement]
    exact .leaf hm hleaf (hn _ List.mem_cons_self) hmore

/-! ## The declaration -/

/-- The character stands for itself between quotation marks. -/
def standsQuoted (c : Char) : Bool :=
  isXmlChar c && c != '\r' && c != '"'

theorem standsQuoted_iff {c : Char} :
    standsQuoted c = true ↔ (isXmlChar c = true ∧ c ≠ '\r') ∧ c ≠ '"' := by
  unfold standsQuoted
  rw [Bool.and_eq_true, Bool.and_eq_true, bne_iff_ne, bne_iff_ne]

theorem standsQuoted_of_isDigit {c : Char} (h : c.isDigit = true) : standsQuoted c = true := by
  have hle : 48 ≤ c.toNat ∧ c.toNat ≤ 57 := by
    simp only [Char.isDigit, Bool.and_eq_true, decide_eq_true_eq] at h
    exact ⟨UInt32.le_iff_toNat_le.1 h.1, UInt32.le_iff_toNat_le.1 h.2⟩
  refine standsQuoted_iff.2 ⟨⟨?_, ?_⟩, ?_⟩
  · simp only [isXmlChar, isXmlCode, inRanges, characterRanges, List.any_cons, List.any_nil,
      Bool.or_false, Bool.or_eq_true, Bool.and_eq_true, decide_eq_true_eq]
    omega
  · rintro rfl
    exact absurd hle.1 (by decide)
  · rintro rfl
    exact absurd hle.1 (by decide)

theorem ended_quote {v : List Char} (h : v.all standsQuoted = true) : Ended [] '"' v := by
  have hall : ∀ c ∈ v, (isXmlChar c = true ∧ c ≠ '\r') ∧ c ≠ '"' := fun c hc =>
    standsQuoted_iff.1 (List.all_eq_true.1 h c hc)
  refine ⟨fun c hc => (hall c hc).1, ?_⟩
  rw [List.append_nil, List.nil_append]
  intro hi
  exact (hall '"' (hi.subset List.mem_cons_self)).2 rfl

theorem ended_of_isVersion {v : List Char} (h : isVersion v = true) : Ended [] '"' v := by
  unfold isVersion at h
  split at h
  · rename_i minor
    rw [Bool.and_eq_true, List.all_eq_true] at h
    refine ended_quote (List.all_eq_true.2 ?_)
    intro c hc
    rw [List.mem_cons, List.mem_cons] at hc
    rcases hc with rfl | rfl | hc
    · decide
    · decide
    · exact standsQuoted_of_isDigit (h.2 c hc)
  · cases h

theorem assigned_written {v : List Char} (h : Ended [] '"' v) (rest : List Char) :
    assigned ('=' :: '"' :: (v ++ '"' :: rest)) = .ok (v, rest) := by
  have hskip : skipSpace ('=' :: '"' :: (v ++ '"' :: rest)) = '=' :: '"' :: (v ++ '"' :: rest) :=
    rfl
  have hexpect : expect '=' ('=' :: '"' :: (v ++ '"' :: rest)) = .ok ('"' :: (v ++ '"' :: rest)) :=
    expect_eq_ok_iff.2 rfl
  have hquote : skipSpace ('"' :: (v ++ '"' :: rest)) = '"' :: (v ++ '"' :: rest) := rfl
  have hrun : run (upTo ['"'] .endOfText) (v ++ '"' :: rest) = .ok (v, rest) :=
    run_upTo_written (u := []) h rest
  unfold assigned
  rw [hskip, hexpect, ok_bind, hquote]
  simp only [quoted, true_or, ↓reduceIte, hrun]

theorem spacedWord?_written (word rest : List Char)
    (h : skipSpace (word ++ rest) = word ++ rest) :
    spacedWord? word (' ' :: (word ++ rest)) = some rest := by
  have hspace : startsWithSpace (' ' :: (word ++ rest)) = true := rfl
  unfold spacedWord?
  rw [hspace, if_pos rfl, skipSpace_blank, h, after?_append]

/-- The word on external declarations, as the declaration writes it. -/
def standaloneText : Option Bool → List Char
  | some true => " standalone=\"yes\"".toList
  | some false => " standalone=\"no\"".toList
  | none => []

theorem standalonePart_written (b : Option Bool) (rest : List Char) :
    standalonePart (standaloneText b ++ (instructionClose ++ rest)) =
      .ok (b, instructionClose ++ rest) := by
  cases b with
  | none => rfl
  | some b =>
    cases b with
    | true =>
      have hword := spacedWord?_written standaloneWord
        ('=' :: '"' :: (['y', 'e', 's'] ++ '"' :: (instructionClose ++ rest))) rfl
      have hyes := assigned_written (v := ['y', 'e', 's']) (ended_quote (by decide))
        (instructionClose ++ rest)
      show standalonePart (' ' :: (standaloneWord ++
        ('=' :: '"' :: (['y', 'e', 's'] ++ '"' :: (instructionClose ++ rest))))) = _
      unfold standalonePart
      rw [hword]
      simp only [hyes, ok_bind, ↓reduceIte]
    | false =>
      have hword := spacedWord?_written standaloneWord
        ('=' :: '"' :: (['n', 'o'] ++ '"' :: (instructionClose ++ rest))) rfl
      have hno := assigned_written (v := ['n', 'o']) (ended_quote (by decide))
        (instructionClose ++ rest)
      show standalonePart (' ' :: (standaloneWord ++
        ('=' :: '"' :: (['n', 'o'] ++ '"' :: (instructionClose ++ rest))))) = _
      unfold standalonePart
      rw [hword]
      simp only [hno, ok_bind, ↓reduceIte]
      rfl

theorem render_declaration (d : Declaration) :
    Render.declaration d = "<?xml version=\"".toList ++ (d.version.getD "1.0").toList ++
      "\" encoding=\"UTF-8\"".toList ++ standaloneText d.standalone ++ "?>\n".toList := by
  unfold Render.declaration
  cases d.standalone with
  | none => rfl
  | some b => cases b <;> rfl

end Scan

/-- What a declaration says once it has been written. -/
def Declaration.asWritten (d : Declaration) : Declaration :=
  ⟨some (d.version.getD "1.0"), some "UTF-8", d.standalone⟩

namespace Scan

/-- The declaration that is written is read back, up to the line feed after it. -/
theorem declaration_written {d : Declaration}
    (h : ∀ v ∈ d.version, isVersion v.toList = true) (rest : List Char) :
    declaration (Render.declaration d ++ rest) = .ok (d.asWritten, '\n' :: rest) := by
  have hversion : isVersion (d.version.getD "1.0").toList = true := by
    cases hv : d.version with
    | none => decide
    | some v => exact h v hv
  have hwritten : Render.declaration d ++ rest = declarationOpen ++ ' ' :: (versionWord ++
      ('=' :: '"' :: ((d.version.getD "1.0").toList ++ '"' :: (' ' :: (encodingWord ++
        ('=' :: '"' :: ("UTF-8".toList ++ '"' :: (standaloneText d.standalone ++
          (instructionClose ++ '\n' :: rest)))))))))  := by
    rw [render_declaration]
    simp only [List.append_assoc]
    rfl
  have hbody : declarationBody? (declarationOpen ++ ' ' :: (versionWord ++
      ('=' :: '"' :: ((d.version.getD "1.0").toList ++ '"' :: (' ' :: (encodingWord ++
        ('=' :: '"' :: ("UTF-8".toList ++ '"' :: (standaloneText d.standalone ++
          (instructionClose ++ '\n' :: rest))))))))))  = some (' ' :: (versionWord ++
      ('=' :: '"' :: ((d.version.getD "1.0").toList ++ '"' :: (' ' :: (encodingWord ++
        ('=' :: '"' :: ("UTF-8".toList ++ '"' :: (standaloneText d.standalone ++
          (instructionClose ++ '\n' :: rest)))))))))) := by
    unfold declarationBody?
    rw [after?_append]
    rfl
  have hword : ∀ cs, expectAll versionWord (skipSpace (' ' :: (versionWord ++ cs))) = .ok cs :=
    fun cs => expectAll_eq_ok_iff.2 rfl
  have hencoding : ∀ cs, spacedWord? encodingWord (' ' :: (encodingWord ++ cs)) = some cs :=
    fun cs => spacedWord?_written encodingWord cs rfl
  have hutf : Ended [] '"' "UTF-8".toList := ended_quote (by decide)
  have hname : isEncodingName "UTF-8".toList = true := by decide
  have hclose : expectAll instructionClose (skipSpace (instructionClose ++ '\n' :: rest)) =
      .ok ('\n' :: rest) := expectAll_eq_ok_iff.2 rfl
  unfold declaration
  rw [hwritten, hbody]
  simp only [versionPart, hword, ok_bind, assigned_written (ended_of_isVersion hversion),
    if_pos hversion, encodingPart, hencoding, assigned_written hutf, if_pos hname,
    standalonePart_written, hclose, String.ofList_toList]
  rfl

/-! ## Whole documents -/

/-- The characters begin with a bracket, but not with a declaration. -/
def Undeclared (cs : List Char) : Prop :=
  (∃ rest, cs = '<' :: rest) ∧ declarationBody? cs = none

/-- An instruction is not taken for a declaration. -/
theorem declarationBody?_instruction {target : List Char} (h : IsTarget target) {rest : List Char}
    (hr : EndsName rest) : declarationBody? (instructionOpen ++ (target ++ rest)) = none := by
  have hreserved : target ≠ ['x', 'm', 'l'] := by
    rintro rfl
    exact h.2 rfl
  unfold declarationBody?
  split
  · rename_i body hbody
    rw [after?_eq_some_iff] at hbody
    have hxml : target ++ rest = ['x', 'm', 'l'] ++ body := by
      simpa [instructionOpen, declarationOpen] using hbody
    rw [List.append_eq_append_iff] at hxml
    rcases hxml with ⟨as, htarget, hrest⟩ | ⟨as, htarget, hrest⟩
    · cases as with
      | nil =>
        rw [List.append_nil] at htarget
        exact absurd htarget.symm hreserved
      | cons c as =>
        have hc : isNameChar c = false := hr c (by rw [hrest]; rfl)
        have hmem : c ∈ ['x', 'm', 'l'] := by
          rw [htarget]
          exact List.mem_append_right _ List.mem_cons_self
        have hall : ∀ d ∈ ['x', 'm', 'l'], isNameChar d = true :=
          List.all_eq_true.1 (by decide)
        rw [hall c hmem] at hc
        cases hc
    · cases as with
      | nil =>
        rw [List.append_nil] at htarget
        exact absurd htarget hreserved
      | cons c as =>
        have hc : isNameChar c = true :=
          h.1.isNameChar (by rw [htarget]; exact List.mem_append_right _ List.mem_cons_self)
        have hspace : startsWithSpace body = false := by
          rw [hrest, List.cons_append]
          show isMarkupSpace c = false
          by_contra hs
          rw [Bool.not_eq_false] at hs
          rw [isNameChar_of_isMarkupSpace hs] at hc
          cases hc
        rw [hspace]
        rfl
  · rfl

/-- A start tag is not taken for a declaration. -/
theorem undeclared_startTag {e : Element} (he : IsName e.name.written.toList) (rest : List Char) :
    Undeclared (Render.startTag e ++ rest) := by
  refine ⟨⟨_, rfl⟩, ?_⟩
  obtain ⟨c, cs, hname, hc, -⟩ := he
  have hq : '?' ≠ c := by
    rintro rfl
    exact absurd hc (by decide)
  rw [Render.startTag, hname]
  simp [declarationBody?, declarationOpen, after?, hq]

/-- Neither a comment nor an instruction is taken for a declaration. -/
theorem undeclared_leaf {c : Content} (hm : c.isMiscellany = true) (hs : c.Spelled)
    (rest : List Char) : Undeclared (Render.leaf c ++ rest) := by
  cases c with
  | comment s =>
    refine ⟨⟨_, rfl⟩, ?_⟩
    simp [Render.leaf, commentOpen, declarationBody?, declarationOpen, after?]
  | instruction target data =>
    refine ⟨⟨_, rfl⟩, ?_⟩
    cases data with
    | none =>
      have hr : EndsName (instructionClose ++ rest) := by
        intro d hd
        rw [← Option.some.inj hd]
        decide
      have hnone := declarationBody?_instruction hs.1 hr
      simpa [Render.leaf] using hnone
    | some d =>
      have hr : EndsName (' ' :: (d.toList ++ (instructionClose ++ rest))) := by
        intro d hd
        rw [← Option.some.inj hd]
        decide
      have hnone := declarationBody?_instruction hs.1 hr
      simpa [Render.leaf] using hnone
  | _ => cases hm

/-- Nothing that is written in front of the root element is taken for a declaration. -/
theorem undeclared_written {f : Forest Content}
    (hf : ∀ c ∈ f.roots, c.isMiscellany = true ∧ c.Spelled) {e : Element}
    (he : IsName e.name.written.toList) (below behind : Forest Content) (depth : Nat) :
    Undeclared (Render.forest w .running depth (f ++ .cons (.element e) below behind)) := by
  rw [Render.forest_append]
  cases f with
  | nil =>
    rw [Render.forest_cons_element, Render.line_running, Render.forest, List.nil_append,
      List.append_assoc]
    exact undeclared_startTag he _
  | cons c below' beside =>
    obtain ⟨hm, hs⟩ := hf c List.mem_cons_self
    rw [Render.forest_leaf depth (Content.isElement_of_isMiscellany hm), List.append_assoc]
    exact undeclared_leaf hm hs _

/-- What is read one after the other makes up a document without a document type declaration. -/
theorem document_of_parts {cs cs1 cs2 cs3 : List Char} {d : Declaration}
    {before behind : Forest Content} {root : ContentTree} (hm : skipMark cs = cs)
    (hd : declaration cs = .ok (d, cs1)) (hbefore : miscellany o cs1 = .ok (before, cs2))
    (hno : after? doctypeOpen cs2 = none) (hroot : rootElement o cs2 = .ok (root, cs3))
    (hbehind : miscellany o cs3 = .ok (behind, [])) :
    document o cs = .ok ⟨d, before ++ .cons root.1 root.2 behind⟩ := by
  have hbetween : afterDoctype o cs2 = .ok (.nil, cs2) := by
    unfold afterDoctype
    rw [hno]
  unfold document
  simp only [hm, hd, hbefore, hbetween, hroot, hbehind, ok_bind, Forest.append_nil]
  rfl

/-- At a start tag nothing is read that may stand around the root element. -/
theorem miscellany_startTag {e : Element} (he : IsName e.name.written.toList) (rest : List Char) :
    miscellany o (Render.startTag e ++ rest) = .ok (.nil, Render.startTag e ++ rest) ∧
      after? doctypeOpen (Render.startTag e ++ rest) = none := by
  have hwritten : Render.startTag e ++ rest = '<' :: (e.name.written.toList ++
      (e.attributes.flatMap Render.attributePair ++ rest)) := by
    simp [Render.startTag]
  have hitem : (itemAt (Render.startTag e ++ rest)).1 = .startTag := by
    rw [hwritten, itemAt_startTag he]
  refine ⟨miscellany_nil (hwritten ▸ rfl) (by rw [hitem]; exact Item.noConfusion)
    (by rw [hitem]; exact Item.noConfusion), ?_⟩
  rw [after?_eq_none_iff, hwritten]
  rintro ⟨l, hl⟩
  refine he.head_ne (c := '!') (by decide) (e.attributes.flatMap Render.attributePair ++ rest) ?_
  have htail := congrArg List.tail hl
  rw [List.tail_cons] at htail
  rw [← htail]
  rfl

/-- What stands in front of the root element is read back, and no document type declaration follows
it. -/
theorem before_written (hi : w.indent = false) {before : Forest Content}
    (hbefore : before.Miscellaneous)
    (hn : ∀ c ∈ before.preorder, c.NamesWithin o.maxNameLength) {e : Element}
    (he : IsName e.name.written.toList) (below : Forest Content) (tail : List Char) :
    let root := Render.forest w .running 0 (.cons (.element e) below .nil) ++ tail
    miscellany o (Render.forest w .running 0 before ++ root) = .ok (before, root) ∧
      after? doctypeOpen root = none := by
  intro root
  have hwritten : root = Render.startTag e ++ (Render.inner w 1 e below ++ tail) := by
    show Render.forest w .running 0 _ ++ tail = _
    rw [Render.forest_element hi, Render.forest, List.append_nil, List.append_assoc]
  obtain ⟨hnone, hno⟩ := miscellany_startTag (o := o) he (Render.inner w 1 e below ++ tail)
  rw [hwritten]
  exact ⟨surrounds_written hbefore hn 0 _ _ hnone, hno⟩

/-- An element with what surrounds it is read as a document, after any declaration. -/
theorem document_surrounds {bs cs ds : List Char} {before behind children : Forest Content}
    {inside : Scope} {e : Element} (hbefore : Surrounds o bs before)
    (hbehind : Surrounds o ds behind) (writable : e.Writable o.namespaceAware)
    (names : e.ReadIn o.namespaceAware Scope.outermost inside)
    (hn : (Content.element e).NamesWithin o.maxNameLength)
    (content : ReadState.Encloses o inside e cs children) (hd : children.height + 1 ≤ o.maxDepth)
    (hu : (Content.element e).references + children.references ≤ o.maxReferences)
    {text text1 : List Char} {d : Declaration} (hmark : skipMark text = text)
    (hdeclared : declaration text = .ok (d, text1))
    (hs : skipSpace text1 = skipSpace (bs ++ (Render.startTag e ++ cs ++ ds))) :
    document o text = .ok ⟨d, before ++ .cons (.element e) children behind⟩ := by
  obtain ⟨hnone, hno⟩ := miscellany_startTag (o := o) writable.name.isName (cs ++ ds)
  rw [← List.append_assoc] at hnone hno
  have hbehindRead := hbehind [] [] (miscellany_nil rfl (by decide) (by decide))
  rw [List.append_nil] at hbehindRead
  have hbeforeRead := hbefore _ _ hnone
  rw [← miscellany_skip hs] at hbeforeRead
  exact document_of_parts hmark hdeclared hbeforeRead hno
    (rootElement_encloses writable names hn content hd hu ds) hbehindRead

/-- With or without a declaration in front of it, a document is read that is read behind one. -/
theorem document_declared {cs : List Char} (hcs : Undeclared cs) {d : Declaration}
    (hd : ∀ v ∈ d.version, isVersion v.toList = true) {top : Forest Content}
    (hread : ∀ {text text1 : List Char} {d' : Declaration}, skipMark text = text →
      declaration text = .ok (d', text1) → skipSpace text1 = skipSpace cs →
      document o text = .ok ⟨d', top⟩) (declared : Bool) :
    document o ((if declared then Render.declaration d else []) ++ cs) =
      .ok ⟨if declared then d.asWritten else .absent, top⟩ := by
  obtain ⟨⟨rest, hrest⟩, hbody⟩ := hcs
  cases declared with
  | true =>
    refine hread ?_ (declaration_written hd cs) rfl
    rw [if_pos rfl, render_declaration]
    rfl
  | false =>
    refine @hread _ cs _ ?_ ?_ rfl
    · rw [if_neg Bool.false_ne_true, hrest]
      rfl
    · rw [if_neg Bool.false_ne_true, if_neg Bool.false_ne_true, List.nil_append]
      unfold declaration
      rw [hbody]

/-- Legal forests of a document, within the limits, are read back after any declaration. -/
theorem document_written (hi : w.indent = false) (hb : o.dropBlanks = false) {m : Markup}
    (hl : m.Legal o.namespaceAware) (hw : m.Within o) {cs cs1 : List Char} {d : Declaration}
    (hm : skipMark cs = cs) (hd : declaration cs = .ok (d, cs1))
    (hs : skipSpace cs1 = skipSpace (Render.forest w .running 0 m.top)) :
    document o cs = .ok ⟨d, m.top⟩ := by
  obtain ⟨before, e, below, behind, htop, hbefore, hbehind, hroot⟩ := hl.top
  have hdepth := hw.depth
  have hnames := hw.names
  have hreferences := hw.references
  rw [htop] at hdepth hnames hreferences
  rw [Forest.height_append, Forest.height_element] at hdepth
  rw [Forest.references_append, Forest.references_cons] at hreferences
  obtain ⟨hnbefore, hninside⟩ := Forest.forall_mem_preorder_append.1 hnames
  obtain ⟨hnroot, hnbelow, hnbehind⟩ := Forest.forall_mem_preorder_cons.1 hninside
  have hsplit : Render.forest w .running 0 m.top = Render.forest w .running 0 before ++
      (Render.startTag e ++ Render.inner w 1 e below ++ Render.forest w .running 0 behind) := by
    rw [htop, Render.forest_append, Render.forest_element hi]
  cases hroot with
  | leaf writable => exact absurd writable id
  | element writable names content rest =>
    have hcontent := ReadState.rereads_of_legal (w := w) hi hb content hnbelow 1
    rw [htop]
    exact document_surrounds (surrounds_written hbefore hnbefore 0)
      (surrounds_written hbehind hnbehind 0) writable names hnroot (hcontent.encloses e)
      (by omega) (by omega) hm hd (hsplit ▸ hs)

end Scan

theorem Markup.toList_render (m : Markup) :
    (m.render { declaration := false }).toList =
      Render.forest { declaration := false } .running 0 m.top := by
  unfold Markup.render
  rw [String.toList_ofList]
  rfl

/-- What is written of legal markup is not blank. -/
theorem Markup.Legal.not_allBlank {aware : Bool} {m : Markup} (h : m.Legal aware) :
    allBlank (m.render { declaration := false }).toList = false := by
  obtain ⟨before, e, below, behind, htop, hbefore, -, hroot⟩ := h.top
  obtain ⟨⟨cs, hcs⟩, -⟩ := undeclared_written (w := { declaration := false }) hbefore.roots
    hroot.isName below behind 0
  rw [Markup.toList_render, htop, hcs]
  rfl

/-- At what is written of legal markup without a declaration none is read. -/
theorem Markup.Legal.declaration_absent {aware : Bool} {w : WriteOptions} {m : Markup}
    (hl : m.Legal aware) :
    skipMark (Render.forest w .running 0 m.top) = Render.forest w .running 0 m.top ∧
      Scan.declaration (Render.forest w .running 0 m.top) =
        .ok (.absent, Render.forest w .running 0 m.top) := by
  obtain ⟨before, e, below, behind, htop, hbefore, -, hroot⟩ := hl.top
  obtain ⟨⟨cs, hcs⟩, hbody⟩ := undeclared_written (w := w) hbefore.roots hroot.isName below behind 0
  rw [htop]
  refine ⟨hcs ▸ rfl, ?_⟩
  unfold Scan.declaration
  rw [hbody]

/-- Legal markup within the limits of reading is read back from its written form. -/
theorem Markup.parse_render_of_legal {o : ReadOptions} {w : WriteOptions} (hi : w.indent = false)
    (hb : o.dropBlanks = false) {m : Markup} (hl : m.Legal o.namespaceAware) (hw : m.Within o) :
    Markup.parse o (m.render w) =
      .ok ⟨if w.declaration then m.declaration.asWritten else .absent, m.top⟩ := by
  obtain ⟨before, e, below, behind, htop, hbefore, -, hroot⟩ := hl.top
  rw [parse_eq_ok]
  unfold Markup.render Render.document
  rw [String.toList_ofList, hi, if_neg Bool.false_ne_true]
  refine document_declared ?_ hl.version (document_written hi hb hl hw) w.declaration
  rw [htop]
  exact undeclared_written hbefore.roots hroot.isName below behind 0

/-- Markup that was read is read back from the written form of its document, with or without a
declaration, under the limits it was read under, once the limit on references lets through what is
written. The limit on names also holds for the names of the entities that are written, of which the
longest has four letters. -/
theorem Markup.parse_render_of_parse {o : ReadOptions} (hb : o.dropBlanks = false)
    (hname : 4 ≤ o.maxNameLength) {t : String} {m : Markup} (h : Markup.parse o t = .ok m) {n : Nat}
    (hn : m.top.references ≤ n) :
    Markup.parse { o with maxReferences := n } ((Document.ofMarkup m).render {}) =
        .ok ⟨⟨some (m.declaration.version.getD "1.0"), some "UTF-8", m.declaration.standalone⟩,
          m.top⟩ ∧
      Markup.parse { o with maxReferences := n }
          ((Document.ofMarkup m).render { declaration := false }) =
        .ok ⟨.absent, m.top⟩ := by
  obtain ⟨hlegal, hdepth, hnames⟩ := Markup.legal_of_parse hname h
  have hwithin : m.Within { o with maxReferences := n } := ⟨hdepth, hnames, hn⟩
  unfold Document.render
  rw [Document.markup_ofMarkup]
  have hb' : ({ o with maxReferences := n } : ReadOptions).dropBlanks = false := hb
  have hfull := Markup.parse_render_of_legal (w := {}) rfl hb' hlegal hwithin
  have hbare := Markup.parse_render_of_legal (w := { declaration := false }) rfl hb' hlegal hwithin
  rw [if_pos rfl] at hfull
  rw [if_neg Bool.false_ne_true] at hbare
  exact ⟨hfull, hbare⟩

/-- Markup with a declaration, each kind of node, a namespace and references of both kinds. -/
theorem Markup.parse_render_of_parse_mixed :
    let m : Markup := ⟨⟨some "1.1", none, some true⟩,
      .cons (.comment "c") .nil
        (.cons (.element ⟨⟨none, "a"⟩, none,
            [⟨⟨none, "b"⟩, none, "1\n<"⟩, ⟨⟨some "xmlns", "p"⟩, none, "u"⟩]⟩)
          (.cons (.text "x & \r]") .nil
            (.cons (.instruction "p" (some "d")) .nil
              (.cons (.element ⟨⟨some "p", "q"⟩, some "u", []⟩) .nil
                (.cons (.cdata "") .nil .nil)))) .nil)⟩
    Markup.parse {} ("<?xml version='1.1' standalone='yes'?><!--c--><a b='1&#xA;&lt;' xmlns:p='u'>" ++
        "x &amp; &#13;]<?p  d?><p:q/><![CDATA[]]></a>") = .ok m ∧
      m.top.references ≤ 4 ∧
      Markup.parse { maxReferences := 4 } ((Document.ofMarkup m).render {}) =
        .ok ⟨⟨some "1.1", some "UTF-8", some true⟩, m.top⟩ ∧
      Markup.parse { maxReferences := 4 } ((Document.ofMarkup m).render { declaration := false }) =
        .ok ⟨.absent, m.top⟩ := by
  intro m
  have hparse : Markup.parse {} ("<?xml version='1.1' standalone='yes'?><!--c-->" ++
      "<a b='1&#xA;&lt;' xmlns:p='u'>x &amp; &#13;]<?p  d?><p:q/><![CDATA[]]></a>") = .ok m := by
    decide +kernel
  have hreferences : m.top.references ≤ 4 := by decide
  exact ⟨hparse, hreferences, Markup.parse_render_of_parse rfl (by decide) hparse hreferences⟩

/-- Under a limit of two letters a character that was spelled by its number is read, but not the
entity that is written for it. -/
theorem Markup.not_parse_render_of_short_limit :
    ¬ ∀ (o : ReadOptions) (t : String) (m : Markup) (n : Nat), o.dropBlanks = false →
      Markup.parse o t = .ok m → m.top.references ≤ n →
      Markup.parse { o with maxReferences := n } ((Document.ofMarkup m).render {}) =
          .ok ⟨⟨some (m.declaration.version.getD "1.0"), some "UTF-8", m.declaration.standalone⟩,
            m.top⟩ ∧
        Markup.parse { o with maxReferences := n }
            ((Document.ofMarkup m).render { declaration := false }) =
          .ok ⟨.absent, m.top⟩ := by
  intro h
  let o : ReadOptions := { maxNameLength := 2 }
  let m : Markup :=
    ⟨.absent, .cons (.element ⟨⟨none, "a"⟩, none, []⟩) (.leaf (.text "&")) .nil⟩
  have hparse : Markup.parse o "<a>&#38;</a>" = .ok m := by decide +kernel
  have hboth := h o "<a>&#38;</a>" m 1 rfl hparse (by decide)
  have hrefused : Markup.parse { o with maxReferences := 1 }
      ((Document.ofMarkup m).render { declaration := false }) ≠ .ok ⟨.absent, m.top⟩ := by
    decide +kernel
  exact hrefused hboth.2

end MarkupFields
