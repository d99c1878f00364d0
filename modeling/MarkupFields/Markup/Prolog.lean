import MarkupFields.Markup.Item
import MarkupFields.Markup.Options
import MarkupFields.Tree.Document

/-
  What stands around the root element: the XML declaration, the document type declaration, which is
  passed over, and comments and processing instructions. A document type declaration ends at the
  first closing angle bracket outside of quotes, comments and square brackets.
-/

namespace MarkupFields.Scan

open Text

/-! ## The XML declaration -/

def declarationOpen : List Char := ['<', '?', 'x', 'm', 'l']
def versionWord : List Char := ['v', 'e', 'r', 's', 'i', 'o', 'n']
def encodingWord : List Char := ['e', 'n', 'c', 'o', 'd', 'i', 'n', 'g']
def standaloneWord : List Char := ['s', 't', 'a', 'n', 'd', 'a', 'l', 'o', 'n', 'e']

/-- The version is 1 with some minor number. -/
def isVersion : List Char → Bool
  | '1' :: '.' :: minor => !minor.isEmpty && minor.all Char.isDigit
  | _ => false

/-- A letter, then letters, digits and a few marks, all ASCII. -/
def isEncodingName : List Char → Bool
  | [] => false
  | c :: cs =>
    c.isAlpha && cs.all fun d => d.isAlphanum || d == '.' || d == '_' || d == '-'

/-- Takes an equals sign and a quoted value, with space before either. -/
def assigned (cs : List Char) : Except Halt (List Char × List Char) := do
  let cs ← expect '=' (skipSpace cs)
  quoted (skipSpace cs)

/-- What follows a word that stands after space. -/
def spacedWord? (word cs : List Char) : Option (List Char) :=
  if startsWithSpace cs then after? word (skipSpace cs) else none

/-- Takes the version, which has to be there. -/
def versionPart (cs : List Char) : Except Halt (List Char × List Char) := do
  let cs ← expectAll versionWord (skipSpace cs)
  let (v, cs) ← assigned cs
  if isVersion v then .ok (v, cs) else haltAt (.badVersion (String.ofList v)) cs

/-- Takes the encoding, if it comes next. -/
def encodingPart (cs : List Char) : Except Halt (Option String × List Char) :=
  match spacedWord? encodingWord cs with
  | none => .ok (none, cs)
  | some cs => do
    let (e, cs) ← assigned cs
    if isEncodingName e then .ok (some (String.ofList e), cs)
    else haltAt (.badEncodingName (String.ofList e)) cs

/-- Takes the word on external declarations, if it comes next. -/
def standalonePart (cs : List Char) : Except Halt (Option Bool × List Char) :=
  match spacedWord? standaloneWord cs with
  | none => .ok (none, cs)
  | some cs => do
    let (s, cs) ← assigned cs
    if s = ['y', 'e', 's'] then .ok (some true, cs)
    else if s = ['n', 'o'] then .ok (some false, cs)
    else haltAt .badStandalone cs

/-- What follows the opening of an XML declaration, if the characters begin with one. -/
def declarationBody? (cs : List Char) : Option (List Char) :=
  match after? declarationOpen cs with
  | some rest => if startsWithSpace rest then some rest else none
  | none => none

/-- Takes the XML declaration, if there is one. -/
def declaration (cs : List Char) : Except Halt (Declaration × List Char) :=
  match declarationBody? cs with
  | none => .ok (.absent, cs)
  | some cs => do
    let (version, cs) ← versionPart cs
    let (encoding, cs) ← encodingPart cs
    let (standalone, cs) ← standalonePart cs
    let cs ← expectAll instructionClose (skipSpace cs)
    .ok (⟨some (String.ofList version), encoding, standalone⟩, cs)

/-! ## The document type declaration -/

/-- Passes over a document type declaration of which the opening has been read, inside of so many
square brackets. -/
def doctype (brackets : Nat) (cs : List Char) : Except Halt (List Char) :=
  match cs with
  | [] => haltAt (.endInside .doctype) []
  | c :: next =>
    if c = '"' ∨ c = '\'' then
      match _taken : quoted (c :: next) with
      | .error e => .error e
      | .ok (_, rest) => doctype brackets rest
    else if c = '[' then doctype (brackets + 1) next
    else if c = ']' then doctype (brackets - 1) next
    else if c = '>' ∧ brackets = 0 then .ok next
    else
      match _opened : after? commentOpen (c :: next) with
      | some inside =>
        match _taken : comment inside with
        | .error e => .error e
        | .ok (_, rest) => doctype brackets rest
      | none => do
        let _ ← contribution c next
        doctype brackets next
termination_by cs.length
decreasing_by
  · exact quoted_lt _taken
  · simp
  · simp
  · have h := (comment_suffix _taken).length_le
    have ho := congrArg List.length (after?_eq_some_iff.1 _opened)
    simp only [List.length_append, commentOpen, List.length_cons, List.length_nil] at ho ⊢
    omega
  · simp

/-! ## Comments and processing instructions around the root -/

/-- Takes comments and processing instructions, with space between them. -/
def miscellany (o : ReadOptions) (cs : List Char) : Except Halt (Forest Content × List Char) :=
  match _found : itemAt (skipSpace cs) with
  | (.comment, inside) =>
    match _taken : comment inside with
    | .error e => .error e
    | .ok (c, rest) => do
      let (more, rest) ← miscellany o rest
      .ok (.cons (commentContent c) .nil more, rest)
  | (.instruction, inside) =>
    match _taken : instruction o.maxNameLength inside with
    | .error e => .error e
    | .ok (p, rest) => do
      let (more, rest) ← miscellany o rest
      .ok (.cons (instructionContent p) .nil more, rest)
  | _ => .ok (.nil, skipSpace cs)
termination_by cs.length
decreasing_by
  · exact Nat.lt_of_le_of_lt (comment_suffix _taken).length_le
      (Nat.lt_of_lt_of_le (itemAt_lt _found rfl) (skipSpace_suffix cs).length_le)
  · exact Nat.lt_of_le_of_lt (instruction_suffix _taken).length_le
      (Nat.lt_of_lt_of_le (itemAt_lt _found rfl) (skipSpace_suffix cs).length_le)

end MarkupFields.Scan
