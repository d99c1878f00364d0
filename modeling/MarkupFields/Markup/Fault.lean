import MarkupFields.Text.Blank

/-
  What can be wrong with markup, and where. Places are counted as a text is read, either by bytes or by
  characters. A reader of a list of characters keeps no count: it stops with a fault and with what it
  had not taken yet, and the place is that of the rest in the text.
-/

namespace MarkupFields

/-! ## Places in a text -/

/-- A place: line and column from one, and the bytes before it. Columns count characters. -/
structure Location where
  line : Nat
  column : Nat
  byteOffset : Nat
  deriving DecidableEq, Repr

namespace Location

/-- The first place of a text. -/
def start : Location :=
  ⟨1, 1, 0⟩

/-- The place after one more character. A line feed starts a line. -/
def advance (l : Location) (c : Char) : Location :=
  if c = '\n' then ⟨l.line + 1, 1, l.byteOffset + c.utf8Size⟩
  else ⟨l.line, l.column + 1, l.byteOffset + c.utf8Size⟩

/-- The place after one more byte. A line feed starts a line; a byte that goes on with a character does
not count for the column. -/
def advanceByte (l : Location) (b : UInt8) : Location :=
  if b = 10 then ⟨l.line + 1, 1, l.byteOffset + 1⟩
  else if b &&& 0xC0 ≠ 0x80 then ⟨l.line, l.column + 1, l.byteOffset + 1⟩
  else { l with byteOffset := l.byteOffset + 1 }

/-- The place after the characters. -/
def after (cs : List Char) : Location :=
  cs.foldl advance start

end Location

/-! ## Faults -/

/-- The parts of markup that the end of the text can cut off with a message of its own. -/
inductive Construct where
  | comment
  | cdata
  | instruction
  | doctype
  | attributeValue
  | content
  deriving DecidableEq, Repr

/-- The name of the part in messages. -/
def Construct.name : Construct → String
  | comment => "comment"
  | cdata => "CDATA section"
  | instruction => "processing instruction"
  | doctype => "DOCTYPE"
  | attributeValue => "attribute value"
  | content => "element content"

/-- What is wrong with a piece of markup. -/
inductive Fault where
  | endOfText
  | endInside (c : Construct)
  | unexpected (expected found : Char)
  | invalidCharacter (c : Char)
  | missingSpace
  | missingName
  | badNameStart (c : Char)
  | nameTooLong (length limit : Nat)
  | brokenName
  | tooManyReferences (limit : Nat)
  | badHexReference
  | badDecimalReference
  | referenceToNoCharacter (code : Nat)
  | unknownEntity (name : String)
  | unquotedAttribute
  | lessThanInAttribute
  | unquotedValue
  | doubleHyphen
  | reservedTarget
  | badVersion (version : String)
  | badEncodingName (name : String)
  | badStandalone
  | missingRoot
  | trailingContent
  | tooDeep (limit : Nat)
  | missingAttributeSpace
  | duplicateAttribute (name : String)
  | badAttributeName (name : String)
  | reservedDefaultNamespace
  | badDeclaredPrefix (nsPrefix : String)
  | undeclaredPrefix (nsPrefix : String)
  | xmlnsDeclared
  | xmlMisbound
  | badElementName (name : String)
  | xmlnsElement
  | unboundPrefix (nsPrefix : String)
  | duplicateExpandedName (name : String)
  | mismatchedEndTag (expected found : String)
  | cdataEndInText
  deriving DecidableEq, Repr

/-- The number in capital hexadecimal digits, at least as many as the width. -/
def hexadecimal (width n : Nat) : String :=
  let digits := (Nat.toDigits 16 n).map Char.toUpper
  String.ofList (List.replicate (width - digits.length) '0' ++ digits)

/-- The wording of each fault. -/
def Fault.message : Fault → String
  | endOfText => "unexpected end of input"
  | endInside c => "unexpected end of input in " ++ c.name
  | unexpected e f => "expected '" ++ e.toString ++ "', found '" ++ f.toString ++ "'"
  | invalidCharacter c => "invalid XML character: U+" ++ hexadecimal 4 c.toNat
  | missingSpace => "whitespace required"
  | missingName => "expected name, found end of input"
  | badNameStart c => "invalid name start character: '" ++ c.toString ++ "'"
  | nameTooLong n limit =>
    "name length (" ++ toString n ++ ") exceeds maximum (" ++ toString limit ++ ")"
  | brokenName => "invalid UTF-8 in name"
  | tooManyReferences limit => "entity expansion limit exceeded (" ++ toString limit ++ ")"
  | badHexReference => "invalid hex character reference"
  | badDecimalReference => "invalid decimal character reference"
  | referenceToNoCharacter n =>
    "character reference &#x" ++ hexadecimal 0 n ++ "; does not refer to a valid XML character"
  | unknownEntity name => "unknown entity reference: &" ++ name ++ ";"
  | unquotedAttribute => "attribute value must be quoted"
  | lessThanInAttribute => "'<' not allowed in attribute values"
  | unquotedValue => "expected quoted value"
  | doubleHyphen => "'--' not allowed inside comments"
  | reservedTarget => "PI target 'xml' is reserved"
  | badVersion v => "invalid version number: '" ++ v ++ "'"
  | badEncodingName e => "invalid encoding name: '" ++ e ++ "'"
  | badStandalone => "standalone must be 'yes' or 'no'"
  | missingRoot => "missing root element"
  | trailingContent => "content after document element"
  | tooDeep limit => "maximum nesting depth exceeded (" ++ toString limit ++ ")"
  | missingAttributeSpace => "whitespace required between attributes"
  | duplicateAttribute name => "duplicate attribute: '" ++ name ++ "'"
  | badAttributeName name => "invalid attribute name '" ++ name ++ "'"
  | reservedDefaultNamespace =>
    "reserved namespace must not be declared as the default namespace"
  | badDeclaredPrefix p => "invalid namespace prefix '" ++ p ++ "'"
  | undeclaredPrefix p => "namespace prefix '" ++ p ++ "' cannot be undeclared in XML 1.0"
  | xmlnsDeclared => "the 'xmlns' prefix must not be declared"
  | xmlMisbound => "the 'xml' prefix must be bound to the XML namespace and only it"
  | badElementName name => "invalid QName '" ++ name ++ "'"
  | xmlnsElement => "elements must not have the prefix 'xmlns'"
  | unboundPrefix p => "unbound namespace prefix '" ++ p ++ "'"
  | duplicateExpandedName name => "namespace-aware duplicate attribute: '" ++ name ++ "'"
  | mismatchedEndTag e f => "mismatched end tag: expected </" ++ e ++ ">, found </" ++ f ++ ">"
  | cdataEndInText => "']]>' not allowed in character data"

/-! ## Stopping -/

/-- Where a reader stopped: before the rest, or one byte into the first character of it. -/
structure Halt where
  fault : Fault
  rest : List Char
  insideNext : Bool
  deriving DecidableEq, Repr

/-- Stops before the rest. -/
def haltAt {α : Type} (fault : Fault) (rest : List Char) : Except Halt α :=
  .error ⟨fault, rest, false⟩

/-- Stops one byte into the rest. -/
def haltInside {α : Type} (fault : Fault) (rest : List Char) : Except Halt α :=
  .error ⟨fault, rest, true⟩

/-- A fault with its place in the text. -/
structure ParseError where
  fault : Fault
  location : Location
  deriving DecidableEq, Repr

namespace Halt

/-- The place in a text at which a reader of it stopped. -/
def location (text : List Char) (h : Halt) : Location :=
  let here := Location.after (text.take (text.length - h.rest.length))
  match h.insideNext, h.rest with
  | true, c :: _ => { here.advance c with byteOffset := here.byteOffset + 1 }
  | _, _ => here

/-- The error that a reader of the text reports. -/
def toError (text : List Char) (h : Halt) : ParseError :=
  ⟨h.fault, h.location text⟩

end Halt

/-- The wording of an error, with line and column. -/
def ParseError.message (e : ParseError) : String :=
  "parse error at " ++ toString e.location.line ++ ":" ++ toString e.location.column ++ ": "
    ++ e.fault.message

end MarkupFields
