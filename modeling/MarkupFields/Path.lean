import MarkupFields.Name
import MarkupFields.Text.Numeral

/-
  Paths. A path names one scalar of a document: element steps from the root downwards, each with a
  name and perhaps a position among the matching siblings, and at the end perhaps an attribute. A
  path is read from its expression segment by segment; what is wrong with an expression is reported
  with the byte at which it was seen.
-/

namespace MarkupFields

open Text Powers

/-- A step to an element: its name and, if one was written, its position from one. -/
structure Step where
  name : QName
  index : Option Nat
  deriving DecidableEq, Repr

/-- The element that the step selects among those that match: the first unless another was asked
for. -/
def Step.position (s : Step) : Nat :=
  s.index.getD 1

/-- A path: steps from the root, and perhaps an attribute at the end. -/
structure Path where
  steps : List Step
  attr : Option QName
  deriving DecidableEq, Repr

/-- A segment of a path expression. -/
inductive Segment where
  | element (s : Step)
  | attr (name : QName)
  deriving DecidableEq, Repr

/-! ## Expressions -/

/-- A segment as it is written in an expression. -/
def Segment.render : Segment → String
  | element s =>
    match s.index with
    | some n => s.name.written ++ "[" ++ toString n ++ "]"
    | none => s.name.written
  | attr q => "@" ++ q.written

namespace Path

/-- The segments of the path, the attribute last. -/
def segments (p : Path) : List Segment :=
  p.steps.map .element ++ p.attr.toList.map .attr

/-- The expression of the path. -/
def render (p : Path) : String :=
  String.join (p.segments.map fun s => "/" ++ s.render)

/-- The prefixes that the path uses, in order and with repeats. -/
def prefixes (p : Path) : List String :=
  (p.steps.map Step.name ++ p.attr.toList).filterMap QName.nsPrefix

end Path

/-! ## Faults -/

/-- What is wrong with a path expression. -/
inductive PathFault where
  | missingSlash
  | emptySegment
  | misplacedAttribute
  | indexOnAttribute
  | unclosedIndex
  | strayBracket
  | badIndex (digits : String)
  | zeroIndex
  | hugeIndex (digits : String)
  | emptyPrefix
  | badPrefix (nsPrefix : String)
  | emptyName
  | badName (name : String)
  | lonelyAttribute
  deriving DecidableEq, Repr

/-- The wording of each fault. -/
def PathFault.message : PathFault → String
  | missingSlash => "path must start with '/'"
  | emptySegment => "empty path segment"
  | misplacedAttribute => "attribute segment must be the last segment"
  | indexOnAttribute => "attribute segment cannot carry an index"
  | unclosedIndex => "missing ']' after index"
  | strayBracket => "unexpected ']'"
  | badIndex digits => "index '" ++ digits ++ "' is not a positive integer"
  | zeroIndex => "index must be 1 or greater"
  | hugeIndex digits => "index '" ++ digits ++ "' is too large"
  | emptyPrefix => "empty namespace prefix"
  | badPrefix p => "invalid namespace prefix '" ++ p ++ "'"
  | emptyName => "empty name"
  | badName name => "invalid name '" ++ name ++ "'"
  | lonelyAttribute => "an attribute needs an element to belong to"

/-- A fault with the byte of the expression at which it was seen. -/
structure PathError where
  fault : PathFault
  position : Nat
  deriving DecidableEq, Repr

/-- The wording of an error, with its position. -/
def PathError.message (e : PathError) : String :=
  "path syntax error at position " ++ toString e.position ++ ": " ++ e.fault.message

/-! ## Reading expressions -/

namespace Path

/-- Positions are below this number. -/
def indexBound : Nat := 2 ^ (64 : Nat)

/-- The text between slashes, in order. -/
def parts : List Char → List (List Char)
  | [] => [[]]
  | c :: cs =>
    if c = '/' then [] :: parts cs
    else
      match parts cs with
      | [] => [[c]]
      | p :: ps => (c :: p) :: ps

/-- Reads a position: ASCII digits that denote a number from one. -/
def readIndex (pos : Nat) (digits : List Char) : Except PathError Nat :=
  if digits.isEmpty || !digits.all Char.isDigit then
    .error ⟨.badIndex (String.ofList digits), pos⟩
  else if numeral 10 digits = 0 then .error ⟨.zeroIndex, pos⟩
  else if numeral 10 digits ≥ indexBound then .error ⟨.hugeIndex (String.ofList digits), pos⟩
  else .ok (numeral 10 digits)

/-- Reads a name with a prefix or without; neither may be empty. -/
def readName (pos : Nat) (cs : List Char) : Except PathError QName :=
  let q := QName.ofChars cs
  match q.nsPrefix with
  | none => checkName pos q
  | some p =>
    if p = "" then .error ⟨.emptyPrefix, pos⟩
    else if !isNCName p then .error ⟨.badPrefix p, pos⟩
    else checkName (pos + p.utf8ByteSize + 1) q
where
  /-- The local name, which begins at the given byte, is an NCName. -/
  checkName (pos : Nat) (q : QName) : Except PathError QName :=
    if q.localName = "" then .error ⟨.emptyName, pos⟩
    else if !isNCName q.localName then .error ⟨.badName q.localName, pos⟩
    else .ok q

/-- Reads an attribute, of which the mark has been read. -/
def readAttribute (pos : Nat) (cs : List Char) : Except PathError Segment :=
  let front := cs.takeWhile (· != '[')
  if front.length < cs.length then .error ⟨.indexOnAttribute, pos + utf8Length front⟩
  else if ']' ∈ cs then .error ⟨.strayBracket, pos + utf8Length (cs.takeWhile (· != ']'))⟩
  else do
    let q ← readName pos cs
    .ok (.attr q)

/-- Reads a step: a name and perhaps a position in square brackets. -/
def readStep (pos : Nat) (cs : List Char) : Except PathError Segment :=
  let front := cs.takeWhile (· != '[')
  match cs.dropWhile (· != '[') with
  | _ :: inside =>
    if inside.getLast? = some ']' then do
      let n ← readIndex (pos + utf8Length front + 1) inside.dropLast
      let q ← readName pos front
      .ok (.element ⟨q, some n⟩)
    else .error ⟨.unclosedIndex, pos + utf8Length cs⟩
  | [] =>
    if ']' ∈ cs then .error ⟨.strayBracket, pos + utf8Length (cs.takeWhile (· != ']'))⟩
    else do
      let q ← readName pos cs
      .ok (.element ⟨q, none⟩)

/-- Reads one segment, which begins at the given byte. -/
def readSegment (pos : Nat) : List Char → Except PathError Segment
  | [] => .error ⟨.emptySegment, pos⟩
  | '@' :: cs => readAttribute (pos + 1) cs
  | cs => readStep pos cs

/-- Reads the segments, the first of which begins at the given byte. Nothing follows an attribute. -/
def readSegments (pos : Nat) : List (List Char) → Except PathError Path
  | [] => .ok ⟨[], none⟩
  | part :: more => do
    match ← readSegment pos part with
    | .attr q =>
      if more.isEmpty then .ok ⟨[], some q⟩ else .error ⟨.misplacedAttribute, pos⟩
    | .element s =>
      let p ← readSegments (pos + utf8Length part + 1) more
      .ok { p with steps := s :: p.steps }

/-- Reads a path expression. -/
def parse (expression : String) : Except PathError Path :=
  match expression.toList with
  | '/' :: body => readSegments 1 (parts body)
  | _ => .error ⟨.missingSlash, 0⟩

end Path

end MarkupFields
