import MarkupFields.Markup.Cursor
import MarkupFields.Markup.Parse

/-
  Reading markup from a cursor. References are counted by the cursor, and so are open elements, which
  are kept on a stack as in the reading of a list of characters; one step reads one item of content and
  takes at least one byte.
-/

namespace MarkupFields

open Text Powers

namespace Cursor

variable {input : ByteArray}

/-! ## References -/

/-- Takes the digits and the end of a character reference. -/
def characterReference (base : Nat) (isDigit : Char → Bool) (bad : Fault) (c : Cursor input) :
    Except ParseError (Char × Cursor input) :=
  let (digits, c) := c.takeWhile isDigit
  let code := numeral base digits
  if digits = [] ∨ 2 ^ (32 : Nat) ≤ code then c.fail bad
  else do
    let c ← c.expect ';'
    if Scan.isXmlCode code then .ok (Char.ofNat code, c)
    else c.fail (.referenceToNoCharacter code)

/-- Takes the name and the end of an entity reference. -/
def entityReference (limit : Nat) (c : Cursor input) : Except ParseError (Char × Cursor input) := do
  let (word, c) ← c.name limit
  let c ← c.expect ';'
  match Scan.entity? word with
  | some ch => .ok (ch, c)
  | none => c.fail (.unknownEntity (String.ofList word))

/-- Counts a reference and takes it. -/
def reference (o : ReadOptions) (c : Cursor input) : Except ParseError (Char × Cursor input) :=
  let c := { c with references := c.references + 1 }
  if c.references > o.maxReferences then c.fail (.tooManyReferences o.maxReferences)
  else do
    let c ← c.expect '&'
    if c.isAt '#' then
      let c := c.advance 1
      if c.isAt 'x' then (c.advance 1).characterReference 16 isHexDigit .badHexReference
      else c.characterReference 10 Char.isDigit .badDecimalReference
    else c.entityReference o.maxNameLength

theorem left_takeWhile_le (p : Char → Bool) (c : Cursor input) :
    (c.takeWhile p).2.left ≤ c.left :=
  left_skipWhile_le p c

theorem characterReference_leaves (base : Nat) (isDigit : Char → Bool) (bad : Fault)
    (c : Cursor input) :
    Leaves (c.left + 1) Prod.snd (c.characterReference base isDigit bad) := by
  refine .ite .error (.bind (p := id) ?_ fun c' => .ite (.ok (Nat.lt_succ_self _)) .error)
  exact (expect_leaves ';' _).mono (Nat.le_succ_of_le (left_takeWhile_le isDigit c))

theorem entityReference_leaves (limit : Nat) (c : Cursor input) :
    Leaves c.left Prod.snd (c.entityReference limit) := by
  refine (name_leaves limit c).bind fun p => ?_
  refine ((expect_leaves ';' p.2).mono (Nat.le_succ _)).bind fun c' => ?_
  split
  · exact .ok (Nat.lt_succ_self _)
  · exact .error

theorem reference_leaves (o : ReadOptions) (c : Cursor input) :
    Leaves c.left Prod.snd (c.reference o) := by
  refine .ite .error ((expect_leaves '&' { c with references := c.references + 1 }).bind fun c' => ?_)
  have h1 := left_advance_le 1 c'
  have h2 := left_advance_le 1 (c'.advance 1)
  refine .ite (.ite ?_ ?_) ((entityReference_leaves _ c').mono (Nat.le_succ _))
  · exact (characterReference_leaves _ _ _ _).mono (Nat.succ_le_succ (Nat.le_trans h2 h1))
  · exact (characterReference_leaves _ _ _ _).mono (Nat.succ_le_succ h1)

/-! ## Text with references -/

/-- Takes text up to its end, resolving references; what is written out passes through the given
change. -/
def referencedRun (o : ReadOptions) (ahead : Cursor input → Ahead) (change : Char → Char)
    (c : Cursor input) : Except ParseError (List Char × Cursor input) :=
  match ahead c with
  | .ends width => .ok ([], c.advance width)
  | .refused fault => c.fail fault
  | .further =>
    if c.isAt '&' then
      match _taken : c.reference o with
      | .error e => .error e
      | .ok (ch, c') => do
        let (more, c'') ← referencedRun o ahead change c'
        .ok (ch :: more, c'')
    else
      match _taken : c.nextChar with
      | .error e => .error e
      | .ok (ch, c') => do
        let (more, c'') ← referencedRun o ahead change c'
        .ok (change ch :: more, c'')
termination_by c.left
decreasing_by
  · exact reference_leaves o c _ _taken
  · exact nextChar_leaves c _ _taken

/-- The inside of an attribute value between quotes of one kind. -/
def attributeAhead (quote : UInt8) (c : Cursor input) : Ahead :=
  match c.peek? with
  | none => .refused (.endInside .attributeValue)
  | some b =>
    if b = quote then .ends 1
    else if b = '<'.toUInt8 then .refused .lessThanInAttribute
    else .further

/-- Takes an attribute value with its quotes. -/
def attributeValue (o : ReadOptions) (c : Cursor input) :
    Except ParseError (List Char × Cursor input) := do
  let (quote, c) ← c.nextByte
  if quote = '"'.toUInt8 ∨ quote = '\''.toUInt8 then
    c.referencedRun o (attributeAhead quote) Scan.attributeBlank
  else c.fail .unquotedAttribute

/-- Character data goes on to the next markup or to the end of the text; the end mark of CDATA may
not stand in it. -/
def textAhead (c : Cursor input) : Ahead :=
  match c.peek? with
  | none => .ends 0
  | some b =>
    if b = '<'.toUInt8 then .ends 0
    else if c.lookingAt Scan.cdataClose then .refused .cdataEndInText
    else .further

/-- Takes character data. -/
def characterData (o : ReadOptions) (c : Cursor input) :
    Except ParseError (List Char × Cursor input) :=
  c.referencedRun o textAhead id

theorem referencedRun_leaves (o : ReadOptions) (ahead : Cursor input → Ahead) (change : Char → Char)
    (c : Cursor input) : Leaves (c.left + 1) Prod.snd (c.referencedRun o ahead change) := by
  fun_induction referencedRun o ahead change c with
  | case1 c width h => exact .ok (Nat.lt_succ_of_le (left_advance_le width c))
  | case2 => exact .error
  | case3 => exact .error
  | case4 c h hat ch c' htaken ih =>
    refine .mono (Nat.le_succ_of_le (reference_leaves o c _ htaken)) ?_
    exact ih.bind fun _ => .ok (Nat.lt_succ_self _)
  | case5 => exact .error
  | case6 c h hat ch c' htaken ih =>
    refine .mono (Nat.le_succ_of_le (nextChar_leaves c _ htaken)) ?_
    exact ih.bind fun _ => .ok (Nat.lt_succ_self _)

theorem attributeValue_leaves (o : ReadOptions) (c : Cursor input) :
    Leaves c.left Prod.snd (c.attributeValue o) :=
  (nextByte_leaves c).bind fun p => .ite (referencedRun_leaves o _ _ p.2) .error

/-- Character data that does not begin with markup takes at least one byte. -/
theorem characterData_leaves (o : ReadOptions) {c : Cursor input} (hend : c.atEnd = false)
    (hat : c.isAt '<' = false) : Leaves c.left Prod.snd (c.characterData o) := by
  have hmore (d : Cursor input) (change : Char → Char) (ch : Char) : Leaves (d.left + 1) Prod.snd
      (do let (more, c'') ← d.referencedRun o textAhead id; .ok (change ch :: more, c'')) :=
    (referencedRun_leaves o textAhead id d).bind fun _ => .ok (Nat.lt_succ_self _)
  unfold characterData referencedRun
  split
  · rename_i width h
    unfold textAhead at h
    split at h
    · rename_i hpeek
      have hlt : c.byteOffset < input.size := Nat.lt_of_not_le (of_decide_eq_false hend)
      exact absurd hpeek (by unfold peek? peekAt?; simp [hlt])
    · rename_i b hpeek
      split at h
      · rename_i hb
        unfold isAt at hat
        rw [hpeek, hb] at hat
        simp at hat
      · split at h <;> cases h
  · exact .error
  · split
    · split
      · exact .error
      · rename_i ch c' htaken
        exact (hmore c' id ch).mono (reference_leaves o c _ htaken)
    · split
      · exact .error
      · rename_i ch c' htaken
        exact (hmore c' id ch).mono (nextChar_leaves c _ htaken)

/-! ## The XML declaration -/

/-- Takes an equals sign and a quoted value, with space before either. -/
def assigned (c : Cursor input) : Except ParseError (List Char × Cursor input) := do
  let c ← c.skipSpace.expect '='
  c.skipSpace.quoted

/-- Takes the encoding and the word on external declarations, in this order and each at most once,
as long as space comes before them. -/
def pseudoAttributes (encoding : Option String) (standalone : Option Bool) (c : Cursor input) :
    Except ParseError ((Option String × Option Bool) × Cursor input) :=
  if !c.space.1 then .ok ((encoding, standalone), c.space.2)
  else if c.space.2.lookingAt Scan.encodingWord ∧ encoding = none ∧ standalone = none then do
    let c ← c.space.2.expectAll Scan.encodingWord
    let (e, c) ← c.assigned
    if Scan.isEncodingName e then c.pseudoAttributes (some (String.ofList e)) standalone
    else c.fail (.badEncodingName (String.ofList e))
  else if c.space.2.lookingAt Scan.standaloneWord ∧ standalone = none then do
    let c ← c.space.2.expectAll Scan.standaloneWord
    let (s, c) ← c.assigned
    if s = ['y', 'e', 's'] then c.pseudoAttributes encoding (some true)
    else if s = ['n', 'o'] then c.pseudoAttributes encoding (some false)
    else c.fail .badStandalone
  else .ok ((encoding, standalone), c.space.2)
termination_by (if encoding = none then 1 else 0) + (if standalone = none then 1 else 0)
decreasing_by all_goals simp_all

/-- Takes the XML declaration. -/
def declaration (c : Cursor input) : Except ParseError (Declaration × Cursor input) := do
  let c ← c.expectAll Scan.declarationOpen
  let c ← c.expectSpace
  let c ← c.expectAll Scan.versionWord
  let (version, c) ← c.assigned
  if Scan.isVersion version then
    let ((encoding, standalone), c) ← c.pseudoAttributes none none
    let c ← c.expectAll Scan.instructionClose
    .ok (⟨some (String.ofList version), encoding, standalone⟩, c)
  else c.fail (.badVersion (String.ofList version))

/-! ## The document type declaration -/

/-- Passes over a document type declaration of which the opening has been read, inside of so many
square brackets. -/
def doctypeInside (brackets : Nat) (c : Cursor input) : Except ParseError (Cursor input) :=
  match _at : c.peek? with
  | none => c.fail (.endInside .doctype)
  | some b =>
    if b = '"'.toUInt8 ∨ b = '\''.toUInt8 then
      match _taken : c.quoted with
      | .error e => .error e
      | .ok (_, c') => c'.doctypeInside brackets
    else if b = '['.toUInt8 then (c.advance 1).doctypeInside (brackets + 1)
    else if b = ']'.toUInt8 then (c.advance 1).doctypeInside (brackets - 1)
    else if c.lookingAt Scan.commentOpen then
      match _taken : c.comment with
      | .error e => .error e
      | .ok (_, c') => c'.doctypeInside brackets
    else if b = '>'.toUInt8 ∧ brackets = 0 then .ok (c.advance 1)
    else
      match _taken : c.nextChar with
      | .error e => .error e
      | .ok (_, c') => c'.doctypeInside brackets
termination_by c.left
decreasing_by
  · exact quoted_leaves c _ _taken
  · exact left_advanceByte_lt _at
  · exact left_advanceByte_lt _at
  · exact comment_leaves c _ _taken
  · exact nextChar_leaves c _ _taken

/-- Passes over a document type declaration. -/
def doctype (c : Cursor input) : Except ParseError (Cursor input) := do
  let c ← c.expectAll Scan.doctypeOpen
  c.doctypeInside 0

/-! ## Comments and processing instructions around the root -/

/-- Takes comments and processing instructions, with space between them. -/
def miscellany (o : ReadOptions) (c : Cursor input) :
    Except ParseError (Forest Content × Cursor input) :=
  if c.skipSpace.lookingAt Scan.commentOpen then
    match _taken : c.skipSpace.comment with
    | .error e => .error e
    | .ok (text, c') => do
      let (more, c'') ← c'.miscellany o
      .ok (.cons (Scan.commentContent text) .nil more, c'')
  else if c.skipSpace.lookingAt Scan.instructionOpen then
    match _taken : c.skipSpace.instruction o.maxNameLength with
    | .error e => .error e
    | .ok (p, c') => do
      let (more, c'') ← c'.miscellany o
      .ok (.cons (Scan.instructionContent p) .nil more, c'')
  else .ok (.nil, c.skipSpace)
termination_by c.left
decreasing_by
  · exact Nat.lt_of_lt_of_le (comment_leaves _ _ _taken) (left_skipWhile_le _ c)
  · exact Nat.lt_of_lt_of_le (instruction_leaves _ _ _ _taken) (left_skipWhile_le _ c)

/-! ## Start tags -/

/-- Takes one attribute with its value. -/
def attributePair (o : ReadOptions) (c : Cursor input) :
    Except ParseError (Attribute × Cursor input) := do
  let (word, c) ← c.name o.maxNameLength
  let c ← c.skipSpace.expect '='
  let (value, c) ← c.skipSpace.attributeValue o
  let q := QName.ofChars word
  if o.namespaceAware && !q.isQualified then c.fail (.badAttributeName (String.ofList word))
  else .ok (⟨q, none, String.ofList value⟩, c)

theorem attributePair_leaves (o : ReadOptions) (c : Cursor input) :
    Leaves c.left Prod.snd (c.attributePair o) := by
  refine (name_leaves o.maxNameLength c).bind fun word => ?_
  have hword := Nat.le_succ_of_le (left_skipWhile_le isMarkupSpace word.2)
  refine ((expect_leaves '=' word.2.skipSpace).mono hword).bind fun c' => ?_
  have hc := Nat.le_succ_of_le (left_skipWhile_le isMarkupSpace c')
  refine ((attributeValue_leaves o c'.skipSpace).mono hc).bind fun value => ?_
  exact .ite .error (.ok (Nat.lt_succ_self _))

/-- Takes attributes up to the end of the tag, which is left. No two have the same prefix and local
name. -/
def attributePairs (o : ReadOptions) (earlier : List Attribute) (c : Cursor input) :
    Except ParseError (List Attribute × Cursor input) :=
  if c.space.2.isAt '>' || c.space.2.lookingAt ['/', '>'] then .ok (earlier, c.space.2)
  else if !c.space.1 then c.space.2.fail .missingAttributeSpace
  else
    match _taken : c.space.2.attributePair o with
    | .error e => .error e
    | .ok (a, c') =>
      if earlier.any fun b => b.name == a.name then c'.fail (.duplicateAttribute a.name.shown)
      else c'.attributePairs o (earlier ++ [a])
termination_by c.left
decreasing_by exact Nat.lt_of_lt_of_le (attributePair_leaves o _ _ _taken) (left_skipWhile_le _ c)

theorem attributePairs_leaves (o : ReadOptions) (earlier : List Attribute) (c : Cursor input) :
    Leaves (c.left + 1) Prod.snd (c.attributePairs o earlier) := by
  fun_induction attributePairs o earlier c with
  | case1 earlier c => exact .ok (Nat.lt_succ_of_le (left_skipWhile_le _ c))
  | case2 => exact .error
  | case3 => exact .error
  | case4 => exact .error
  | case5 earlier c _ _ a c' htaken _ ih =>
    have hlt := attributePair_leaves o _ _ htaken
    exact ih.mono (Nat.le_succ_of_le (Nat.lt_of_lt_of_le hlt (left_skipWhile_le _ c)))

/-- The names of an element read in a scope, if prefixes are resolved at all. -/
def readNames (o : ReadOptions) (s : Scope) (e : Element) (c : Cursor input) :
    Except ParseError (Scope × Element) :=
  if o.namespaceAware then
    match s.enter e with
    | .ok r => .ok r
    | .error fault => c.fail fault
  else .ok (s, e)

/-- One more element is open, unless it is nested too deep. -/
def enter (o : ReadOptions) (c : Cursor input) : Except ParseError (Cursor input) :=
  let c := { c with depth := c.depth + 1 }
  if c.depth > o.maxDepth then c.fail (.tooDeep o.maxDepth) else .ok c

/-- One element less is open. -/
def leave (c : Cursor input) : Cursor input :=
  { c with depth := c.depth - 1 }

end Cursor

/-! ## Open elements -/

/-- Where the reading of the root element stands: the innermost open element, those around it from
the inside out, and the cursor. -/
structure ParseState (input : ByteArray) where
  innermost : OpenElement
  enclosing : List OpenElement
  cursor : Cursor input
  deriving DecidableEq, Repr

/-- After a step: the reading goes on, or the root element is complete. -/
inductive ParseProgress (input : ByteArray) where
  | going (s : ParseState input)
  | complete (root : ContentTree) (c : Cursor input)
  deriving DecidableEq, Repr

namespace ParseProgress

variable {input : ByteArray}

/-- The cursor after the step. -/
def cursor : ParseProgress input → Cursor input
  | going s => s.cursor
  | complete _ c => c

/-- A complete tree goes to the innermost open element; without one it is the root. -/
def place (t : ContentTree) (c : Cursor input) : List OpenElement → ParseProgress input
  | [] => .complete t c
  | e :: enclosing => .going ⟨e.add t, enclosing, c⟩

theorem cursor_place (t : ContentTree) (c : Cursor input) (around : List OpenElement) :
    (place t c around).cursor = c := by
  cases around <;> rfl

end ParseProgress

namespace ParseState

open Cursor ParseProgress

variable {input : ByteArray}

/-- Reads the start tag of an element inside the open ones. An element that closes itself is complete
at once. -/
def openElement (o : ReadOptions) (around : List OpenElement) (c : Cursor input) :
    Except ParseError (ParseProgress input) := do
  let c ← c.enter o
  let c ← c.expect '<'
  let (word, c) ← c.name o.maxNameLength
  let (as, c) ← c.attributePairs o []
  let (scope, e) ← c.readNames o (ReadState.scopeIn around) ⟨QName.ofChars word, none, as⟩
  if c.lookingAt ['/', '>'] then .ok (place (.element e, .nil) (c.advance 2).leave around)
  else
    let c ← c.expect '>'
    .ok (.going ⟨⟨e, scope, []⟩, around, c⟩)

/-- Reads the end tag of the innermost element. -/
def closeElement (o : ReadOptions) (s : ParseState input) :
    Except ParseError (ParseProgress input) := do
  let c ← s.cursor.expectAll Scan.Item.endTag.mark
  let (word, c) ← c.name o.maxNameLength
  let expected := s.innermost.element.name.written
  if String.ofList word ≠ expected then
    c.fail (.mismatchedEndTag expected (String.ofList word))
  else
    let c ← c.skipSpace.expect '>'
    .ok (place s.innermost.tree c.leave s.enclosing)

/-- Reads one item of the content of the innermost open element. -/
def step (o : ReadOptions) (s : ParseState input) : Except ParseError (ParseProgress input) :=
  if s.cursor.atEnd then s.cursor.fail (.endInside .content)
  else if s.cursor.lookingAt Scan.Item.endTag.mark then s.closeElement o
  else if s.cursor.lookingAt Scan.cdataOpen then do
    let (text, c) ← s.cursor.cdata
    .ok (.going { s with innermost := s.innermost.addLeaf (.cdata (String.ofList text)), cursor := c })
  else if s.cursor.lookingAt Scan.commentOpen then do
    let (text, c) ← s.cursor.comment
    .ok (.going { s with innermost := s.innermost.addLeaf (Scan.commentContent text), cursor := c })
  else if s.cursor.lookingAt Scan.instructionOpen then do
    let (p, c) ← s.cursor.instruction o.maxNameLength
    .ok (.going { s with innermost := s.innermost.addLeaf (Scan.instructionContent p), cursor := c })
  else if s.cursor.isAt '<' then openElement o (s.innermost :: s.enclosing) s.cursor
  else do
    let (text, c) ← s.cursor.characterData o
    .ok (.going { s with innermost := s.innermost.addText o text, cursor := c })

/-! ## Every step takes something -/

theorem left_of_enter {o : ReadOptions} {c c' : Cursor input} (h : c.enter o = .ok c') :
    c'.left = c.left := by
  unfold enter at h
  dsimp only at h
  split at h
  · cases h
  · cases h
    rfl

theorem openElement_leaves (o : ReadOptions) (around : List OpenElement) (c : Cursor input) :
    Leaves c.left ParseProgress.cursor (openElement o around c) := by
  refine .bind_of fun c' henter => ?_
  rw [← left_of_enter henter]
  refine (expect_leaves '<' c').bind fun c' => ?_
  refine ((name_leaves o.maxNameLength c').mono (Nat.le_succ _)).bind fun word => ?_
  refine (attributePairs_leaves o [] word.2).bind fun as => .bind_of fun e _ => ?_
  refine .ite (.ok ?_) (.bind (p := id) ?_ fun c' => .ok (Nat.lt_succ_self _))
  · rw [cursor_place]
    exact Nat.lt_succ_of_le (left_advance_le 2 as.2)
  · exact (expect_leaves '>' as.2).mono (Nat.le_succ _)

theorem closeElement_leaves (o : ReadOptions) (s : ParseState input) :
    Leaves s.cursor.left ParseProgress.cursor (s.closeElement o) := by
  refine .bind (p := id) ((expect_leaves '<' s.cursor).bind fun c' =>
    expectAll_leaves ['/'] c') fun c' => ?_
  refine ((name_leaves o.maxNameLength c').mono (Nat.le_succ _)).bind fun word => ?_
  refine .ite .error (.bind (p := id) ?_ fun c' => .ok ?_)
  · exact (expect_leaves '>' _).mono (Nat.le_succ_of_le (left_skipWhile_le _ word.2))
  · rw [cursor_place]
    exact Nat.lt_succ_self _

/-- A step leaves fewer bytes than there were. -/
theorem step_leaves (o : ReadOptions) (s : ParseState input) :
    Leaves s.cursor.left ParseProgress.cursor (s.step o) := by
  unfold step
  split
  · exact .error
  · rename_i hend
    refine .ite (closeElement_leaves o s) (.ite ?_ (.ite ?_ (.ite ?_ ?_)))
    · exact (cdata_leaves s.cursor).bind fun _ => .ok (Nat.lt_succ_self _)
    · exact (comment_leaves s.cursor).bind fun _ => .ok (Nat.lt_succ_self _)
    · exact (instruction_leaves _ s.cursor).bind fun _ => .ok (Nat.lt_succ_self _)
    · split
      · exact openElement_leaves o _ s.cursor
      · rename_i hat
        refine (characterData_leaves o (Bool.eq_false_iff.2 hend)
          (Bool.eq_false_iff.2 hat)).bind fun _ => .ok (Nat.lt_succ_self _)

/-! ## Runs -/

/-- Reads items until the root element is complete. -/
def run (o : ReadOptions) (s : ParseState input) :
    Except ParseError (ContentTree × Cursor input) :=
  match _stepped : s.step o with
  | .error e => .error e
  | .ok (.complete root c) => .ok (root, c)
  | .ok (.going s') => run o s'
termination_by s.cursor.left
decreasing_by exact step_leaves o s _ _stepped

end ParseState

/-! ## Documents -/

namespace Cursor

variable {input : ByteArray}

/-- Reads the root element, which has to begin with a bracket that opens neither a declaration nor an
instruction. -/
def rootElement (o : ReadOptions) (c : Cursor input) :
    Except ParseError (ContentTree × Cursor input) :=
  if c.isAt '<' ∧ (c.peekAt? 1).any fun b => b ≠ '!'.toUInt8 ∧ b ≠ '?'.toUInt8 then do
    match ← ParseState.openElement o [] c with
    | .complete root c => .ok (root, c)
    | .going s => s.run o
  else c.fail .missingRoot

/-- The cursor behind a byte order mark at it, if there is one. -/
def skipMark (c : Cursor input) : Cursor input :=
  if c.lookingAt ['\uFEFF'] then c.advance 3 else c

/-- Takes the XML declaration, if there is one. -/
def prologue (c : Cursor input) : Except ParseError (Declaration × Cursor input) :=
  if c.lookingAt Scan.declarationOpen ∧ (c.peekAt? 5).any (fun b => isMarkupSpace (Char.ofUInt8 b))
    then c.declaration
  else .ok (.absent, c)

/-- Passes over the document type declaration, if there is one, and takes what stands between it and
the root element. -/
def afterDoctype (o : ReadOptions) (c : Cursor input) :
    Except ParseError (Forest Content × Cursor input) :=
  if c.lookingAt Scan.doctypeOpen then do
    let c ← c.doctype
    c.miscellany o
  else .ok (.nil, c)

/-- Reads a whole document. -/
def document (o : ReadOptions) (c : Cursor input) : Except ParseError Markup := do
  let (declaration, c) ← c.skipMark.prologue
  let (before, c) ← c.miscellany o
  let (between, c) ← c.afterDoctype o
  let (root, c) ← c.rootElement o
  let (behind, c) ← c.miscellany o
  if c.atEnd then .ok ⟨declaration, before ++ between ++ .cons root.1 root.2 behind⟩
  else c.fail .trailingContent

end Cursor

/-- Reads a text as markup; an error tells the place in the text. -/
def Markup.parse (o : ReadOptions) (text : String) : Except ParseError Markup :=
  (Cursor.start text.toUTF8).document o

end MarkupFields
