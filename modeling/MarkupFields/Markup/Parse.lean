import MarkupFields.Markup.Prolog
import MarkupFields.Markup.Reference
import MarkupFields.Markup.Scope

/-
  Reading markup from a list of characters. Elements are read with a stack: the innermost open element,
  and around it those that enclose it, each with the trees that are already complete inside it. One step
  reads one item; every step takes at least one character, which bounds the number of steps.
-/

namespace MarkupFields

open Text

namespace Scan

/-! ## Start tags -/

/-- Takes one attribute with its value. -/
def attributePair (o : ReadOptions) (used : Nat) (cs : List Char) :
    Except Halt (Attribute × Nat × List Char) := do
  let (word, cs) ← name o.maxNameLength cs
  let cs ← expect '=' (skipSpace cs)
  let (value, used, cs) ← attributeValue o used (skipSpace cs)
  let q := QName.ofChars word
  if o.namespaceAware && !q.isQualified then haltAt (.badAttributeName (String.ofList word)) cs
  else .ok (⟨q, none, String.ofList value⟩, used, cs)

theorem attributePair_lt {o : ReadOptions} {used used' : Nat} {cs rest : List Char} {a : Attribute}
    (h : attributePair o used cs = .ok (a, used', rest)) : rest.length < cs.length := by
  simp only [attributePair, bind, Except.bind] at h
  split at h
  · simp at h
  · rename_i w hw
    obtain ⟨hcs, hne⟩ := name_eq_ok hw
    split at h
    · simp at h
    · rename_i r hr
      rw [expect_eq_ok_iff] at hr
      split at h
      · simp at h
      · rename_i v hv
        have h1 := (attributeValue_suffix hv).length_le
        have h2 := (skipSpace_suffix r).length_le
        have h3 := (skipSpace_suffix w.2).length_le
        have h4 := congrArg List.length hcs
        rw [hr, List.length_cons] at h3
        rw [List.length_append] at h4
        have h5 := List.length_pos_iff.2 hne
        split at h
        · simp [haltAt] at h
        · simp only [Except.ok.injEq, Prod.mk.injEq] at h
          rw [← h.2.2]
          omega

/-- The characters begin with the end of a start tag. -/
def atTagEnd (cs : List Char) : Bool :=
  (after? ['>'] cs).isSome || (after? ['/', '>'] cs).isSome

/-- Takes attributes up to the end of the tag, which is left. No two have the same prefix and local
name. -/
def attributePairs (o : ReadOptions) (earlier : List Attribute) (used : Nat) (cs : List Char) :
    Except Halt (List Attribute × Nat × List Char) :=
  if atTagEnd (skipSpace cs) then .ok (earlier, used, skipSpace cs)
  else if !startsWithSpace cs then haltAt .missingAttributeSpace (skipSpace cs)
  else
    match _taken : attributePair o used (skipSpace cs) with
    | .error e => .error e
    | .ok (a, used, rest) =>
      if earlier.any fun b => b.name == a.name then
        haltAt (.duplicateAttribute a.name.shown) rest
      else attributePairs o (earlier ++ [a]) used rest
termination_by cs.length
decreasing_by
  exact Nat.lt_of_lt_of_le (attributePair_lt _taken) (skipSpace_suffix cs).length_le

theorem attributePairs_length {o : ReadOptions} {earlier as : List Attribute} {used used' : Nat}
    {cs rest : List Char} (h : attributePairs o earlier used cs = .ok (as, used', rest)) :
    rest.length ≤ cs.length := by
  fun_induction attributePairs o earlier used cs with
  | case1 earlier used cs _ =>
    simp only [Except.ok.injEq, Prod.mk.injEq] at h
    exact h.2.2 ▸ (skipSpace_suffix cs).length_le
  | case2 => simp [haltAt] at h
  | case3 => simp at h
  | case4 => simp [haltAt] at h
  | case5 earlier used cs _ _ a used1 mid hmid _ ih =>
    have h1 := attributePair_lt hmid
    have h2 := (skipSpace_suffix cs).length_le
    have h3 := ih h
    omega

/-- The names of an element read in a scope, if prefixes are resolved at all. -/
def readNames (o : ReadOptions) (s : Scope) (e : Element) (cs : List Char) :
    Except Halt (Scope × Element) :=
  if o.namespaceAware then
    match s.enter e with
    | .ok r => .ok r
    | .error fault => haltAt fault cs
  else .ok (s, e)

/-- Takes the name and the attributes of a start tag, up to its end, which is left. With the scope
inside the element. -/
def startTag (o : ReadOptions) (s : Scope) (used : Nat) (cs : List Char) :
    Except Halt ((Scope × Element) × Nat × List Char) := do
  let (word, cs) ← name o.maxNameLength cs
  let (as, used, cs) ← attributePairs o [] used cs
  let e ← readNames o s ⟨QName.ofChars word, none, as⟩ cs
  .ok (e, used, cs)

end Scan

/-! ## Open elements -/

/-- A tree: its root and what is below. -/
abbrev ContentTree := Content × Forest Content

/-- An element whose end tag has not been read: the scope inside it and the trees that are complete
inside it, the latest first. -/
structure OpenElement where
  element : Element
  scope : Scope
  complete : List ContentTree
  deriving DecidableEq, Repr

namespace OpenElement

/-- One more tree is complete. -/
def add (e : OpenElement) (t : ContentTree) : OpenElement :=
  { e with complete := t :: e.complete }

/-- One more node without branches is complete. -/
def addLeaf (e : OpenElement) (c : Content) : OpenElement :=
  e.add (c, .nil)

/-- Character data becomes a node unless it is empty, or blank where blank text is dropped. -/
def addText (o : ReadOptions) (e : OpenElement) (cs : List Char) : OpenElement :=
  if cs.isEmpty || (o.dropBlanks && allBlank cs) then e else e.addLeaf (.text (String.ofList cs))

/-- The tree of the element once its end tag has been read. -/
def tree (e : OpenElement) : ContentTree :=
  (.element e.element, Forest.ofTrees e.complete.reverse)

end OpenElement

/-- Where the reading of the root element stands: the innermost open element, those around it from
the inside out, the references read so far and the rest of the characters. -/
structure ReadState where
  innermost : OpenElement
  enclosing : List OpenElement
  used : Nat
  rest : List Char
  deriving DecidableEq, Repr

/-- After a step: the reading goes on, or the root element is complete. -/
inductive ReadProgress where
  | going (s : ReadState)
  | complete (root : ContentTree) (rest : List Char)
  deriving DecidableEq, Repr

namespace ReadState

open Scan

/-- The scope inside the innermost of the open elements. -/
def scopeIn : List OpenElement → Scope
  | [] => Scope.outermost
  | e :: _ => e.scope

/-- A complete tree goes to the innermost open element; without one it is the root. -/
def place (t : ContentTree) (used : Nat) (rest : List Char) : List OpenElement → ReadProgress
  | [] => .complete t rest
  | e :: enclosing => .going ⟨e.add t, enclosing, used, rest⟩

/-- Reads the start tag of an element inside the open ones, of which the opening bracket has been
read. An element that closes itself is complete at once. -/
def openElement (o : ReadOptions) (around : List OpenElement) (used : Nat) (cs : List Char) :
    Except Halt ReadProgress := do
  let ((scope, e), used, cs) ← startTag o (scopeIn around) used cs
  match after? ['/', '>'] cs with
  | some rest => .ok (place (.element e, .nil) used rest around)
  | none =>
    let rest ← expect '>' cs
    .ok (.going ⟨⟨e, scope, []⟩, around, used, rest⟩)

/-- Reads an element inside the open ones, unless it is nested too deep. The characters with the
opening bracket are given for the place of the fault. -/
def nestElement (o : ReadOptions) (around : List OpenElement) (used : Nat)
    (whole cs : List Char) : Except Halt ReadProgress :=
  if around.length + 1 > o.maxDepth then haltAt (.tooDeep o.maxDepth) whole
  else openElement o around used cs

/-- Reads the end tag of the innermost element, of which the opening mark has been read. -/
def closeElement (o : ReadOptions) (s : ReadState) (cs : List Char) : Except Halt ReadProgress := do
  let (word, cs) ← name o.maxNameLength cs
  let expected := s.innermost.element.name.written
  if String.ofList word ≠ expected then
    haltAt (.mismatchedEndTag expected (String.ofList word)) cs
  else
    let rest ← expect '>' (skipSpace cs)
    .ok (place s.innermost.tree s.used rest s.enclosing)

/-- Reads one item of the content of the innermost open element. -/
def step (o : ReadOptions) (s : ReadState) : Except Halt ReadProgress :=
  match itemAt s.rest with
  | (.nothing, _) => haltAt (.endInside .content) []
  | (.endTag, cs) => s.closeElement o cs
  | (.cdata, cs) => do
    let (c, rest) ← cdata cs
    .ok (.going { s with innermost := s.innermost.addLeaf (.cdata (String.ofList c)), rest := rest })
  | (.comment, cs) => do
    let (c, rest) ← comment cs
    .ok (.going { s with innermost := s.innermost.addLeaf (commentContent c), rest := rest })
  | (.instruction, cs) => do
    let (p, rest) ← instruction o.maxNameLength cs
    .ok (.going { s with innermost := s.innermost.addLeaf (instructionContent p), rest := rest })
  | (.startTag, cs) => nestElement o (s.innermost :: s.enclosing) s.used s.rest cs
  | (.text, _) => do
    let (c, used, rest) ← characterData o s.used s.rest
    .ok (.going { s with innermost := s.innermost.addText o c, used := used, rest := rest })

/-! ## Every step takes something -/

/-- The characters that are left. -/
def remaining : ReadProgress → List Char
  | .going s => s.rest
  | .complete _ rest => rest

theorem remaining_place (t : ContentTree) (used : Nat) (rest : List Char)
    (around : List OpenElement) : remaining (place t used rest around) = rest := by
  cases around <;> rfl

theorem openElement_lt {o : ReadOptions} {around : List OpenElement} {used : Nat} {cs : List Char}
    {p : ReadProgress} (h : openElement o around used cs = .ok p) :
    (remaining p).length < cs.length := by
  simp only [openElement, startTag, bind, Except.bind] at h
  split at h
  · simp at h
  · rename_i tag htag
    split at htag
    · simp at htag
    · rename_i w hw
      obtain ⟨hcs, hne⟩ := name_eq_ok hw
      have h1 := congrArg List.length hcs
      rw [List.length_append] at h1
      have h2 := List.length_pos_iff.2 hne
      split at htag
      · simp at htag
      · rename_i as has
        have h3 := attributePairs_length has
        split at htag
        · simp at htag
        · simp only [Except.ok.injEq] at htag
          subst htag
          split at h
          · rename_i r hr
            rw [after?_eq_some_iff] at hr
            simp only [Except.ok.injEq] at h
            rw [← h, remaining_place]
            simp only at hr
            rw [hr, List.length_append] at h3
            omega
          · split at h
            · simp at h
            · rename_i r hr
              rw [expect_eq_ok_iff] at hr
              simp only [Except.ok.injEq] at h
              rw [← h]
              simp only at hr
              rw [hr, List.length_cons] at h3
              simp only [remaining]
              omega

theorem closeElement_lt {o : ReadOptions} {s : ReadState} {cs : List Char} {p : ReadProgress}
    (h : s.closeElement o cs = .ok p) : (remaining p).length < cs.length := by
  simp only [closeElement, bind, Except.bind] at h
  split at h
  · simp at h
  · rename_i w hw
    obtain ⟨hcs, hne⟩ := name_eq_ok hw
    have h1 := congrArg List.length hcs
    rw [List.length_append] at h1
    have h2 := List.length_pos_iff.2 hne
    split at h
    · simp [haltAt] at h
    · split at h
      · simp at h
      · rename_i r hr
        rw [expect_eq_ok_iff] at hr
        simp only [Except.ok.injEq] at h
        have h3 := (skipSpace_suffix w.2).length_le
        rw [hr, List.length_cons] at h3
        rw [← h, remaining_place]
        omega

/-- A step leaves fewer characters than there were. -/
theorem step_lt {o : ReadOptions} {s : ReadState} {p : ReadProgress} (h : s.step o = .ok p) :
    (remaining p).length < s.rest.length := by
  simp only [step] at h
  split at h
  · simp [haltAt] at h
  · rename_i cs hi
    exact Nat.lt_trans (closeElement_lt h) (itemAt_lt hi rfl)
  · rename_i cs hi
    simp only [bind, Except.bind] at h
    split at h
    · simp at h
    · rename_i c hc
      simp only [Except.ok.injEq] at h
      rw [← h]
      exact Nat.lt_of_le_of_lt (cdata_suffix hc).length_le (itemAt_lt hi rfl)
  · rename_i cs hi
    simp only [bind, Except.bind] at h
    split at h
    · simp at h
    · rename_i c hc
      simp only [Except.ok.injEq] at h
      rw [← h]
      exact Nat.lt_of_le_of_lt (comment_suffix hc).length_le (itemAt_lt hi rfl)
  · rename_i cs hi
    simp only [bind, Except.bind] at h
    split at h
    · simp at h
    · rename_i c hc
      simp only [Except.ok.injEq] at h
      rw [← h]
      exact Nat.lt_of_le_of_lt (instruction_suffix hc).length_le (itemAt_lt hi rfl)
  · rename_i cs hi
    simp only [nestElement] at h
    split at h
    · simp [haltAt] at h
    · exact Nat.lt_trans (openElement_lt h) (itemAt_lt hi rfl)
  · rename_i cs hi
    simp only [bind, Except.bind] at h
    split at h
    · simp at h
    · rename_i c hc
      simp only [Except.ok.injEq] at h
      rw [← h]
      obtain ⟨d, next, he, hd⟩ := itemAt_text hi
      rw [he] at hc ⊢
      exact characterData_lt hd hc

/-! ## Runs -/

/-- Reads items until the root element is complete. -/
def run (o : ReadOptions) (s : ReadState) : Except Halt (ContentTree × List Char) :=
  match _stepped : s.step o with
  | .error e => .error e
  | .ok (.complete root rest) => .ok (root, rest)
  | .ok (.going s') => run o s'
termination_by s.rest.length
decreasing_by exact step_lt _stepped

end ReadState

/-! ## Documents -/

namespace Scan

/-- Reads the root element, which has to begin with a bracket that opens neither a declaration nor an
instruction. -/
def rootElement (o : ReadOptions) (cs : List Char) : Except Halt (ContentTree × List Char) :=
  match cs with
  | '<' :: c :: rest =>
    if c = '!' ∨ c = '?' then haltAt .missingRoot cs
    else
      match ReadState.nestElement o [] 0 cs (c :: rest) with
      | .error e => .error e
      | .ok (.complete root rest) => .ok (root, rest)
      | .ok (.going s) => s.run o
  | _ => haltAt .missingRoot cs

/-- What follows a byte order mark at the front, if there is one. -/
def skipMark (cs : List Char) : List Char :=
  if cs.head? = some '\uFEFF' then cs.tail else cs

/-- Passes over the document type declaration, if there is one, and takes what stands between it and
the root element. -/
def afterDoctype (o : ReadOptions) (cs : List Char) : Except Halt (Forest Content × List Char) :=
  match after? doctypeOpen cs with
  | none => .ok (.nil, cs)
  | some cs => do
    let cs ← doctype 0 cs
    miscellany o cs

/-- Reads a whole document. -/
def document (o : ReadOptions) (cs : List Char) : Except Halt Markup := do
  let (declaration, cs) ← declaration (skipMark cs)
  let (before, cs) ← miscellany o cs
  let (between, cs) ← afterDoctype o cs
  let (root, cs) ← rootElement o cs
  let (behind, cs) ← miscellany o cs
  if cs.isEmpty then
    .ok ⟨declaration, before ++ between ++ .cons root.1 root.2 behind⟩
  else haltAt .trailingContent cs

end Scan

end MarkupFields
