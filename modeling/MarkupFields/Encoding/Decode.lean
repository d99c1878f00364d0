import MarkupFields.Encoding.Charsets
import MarkupFields.Text.Blank
import MarkupFields.Text.Mark
import MarkupFields.Text.Numeral

/-
  Decoding bytes. A byte order mark decides the encoding and is taken away; without one, an XML
  declaration that names an encoding does, if it is near enough to the start; all else is UTF-8.
  Decoding is strict: one byte that has no meaning makes the whole input malformed.
-/

namespace MarkupFields

open Text

/-- Why bytes are not decoded: the label asks for nothing known, or the bytes are wrong. -/
inductive EncodingError where
  | unsupported (label : String)
  | malformed (e : Encoding)
  deriving DecidableEq, Repr

/-- The wording of each error. -/
def EncodingError.message : EncodingError → String
  | unsupported label => "unsupported encoding: " ++ label
  | malformed e => "malformed " ++ e.name ++ " input"

namespace Encoding

/-! ## Decoders -/

/-- The units of two bytes each, given the order of the bytes. -/
def units? (unit : UInt8 → UInt8 → Nat) : List UInt8 → Option (List Nat)
  | [] => some []
  | [_] => none
  | a :: b :: rest => (units? unit rest).map (unit a b :: ·)

/-- A unit that begins a pair. -/
def isHighSurrogate (u : Nat) : Bool :=
  decide (0xD800 ≤ u) && decide (u < 0xDC00)

/-- A unit that ends a pair. -/
def isLowSurrogate (u : Nat) : Bool :=
  decide (0xDC00 ≤ u) && decide (u < 0xE000)

/-- The characters of UTF-16 units; surrogates have to stand in pairs. -/
def ofUnits? : List Nat → Option (List Char)
  | [] => some []
  | [u] => (charOfCode? u).map ([·])
  | u :: v :: rest =>
    if isHighSurrogate u then
      if isLowSurrogate v then do
        let c ← charOfCode? (0x10000 + (u - 0xD800) * 0x400 + (v - 0xDC00))
        let cs ← ofUnits? rest
        some (c :: cs)
      else none
    else do
      let c ← charOfCode? u
      let cs ← ofUnits? (v :: rest)
      some (c :: cs)

/-- The text that the bytes are in the encoding. -/
def decode? (charsets : Charsets) (e : Encoding) (bytes : List UInt8) : Option String :=
  match e with
  | utf8 => String.fromUTF8? bytes.toByteArray
  | utf16le =>
    ((units? (fun a b => a.toNat + b.toNat * 0x100) bytes).bind ofUnits?).map String.ofList
  | utf16be =>
    ((units? (fun a b => a.toNat * 0x100 + b.toNat) bytes).bind ofUnits?).map String.ofList
  | other name => charsets.decode? name bytes

/-- The text that the bytes are in the encoding, or the error. -/
def decode (charsets : Charsets) (e : Encoding) (bytes : List UInt8) :
    Except EncodingError String :=
  match e.decode? charsets bytes with
  | some s => .ok s
  | none => .error (.malformed e)

/-- Decodes with the encoding that a label asks for. -/
def decodeAs (charsets : Charsets) (label : String) (bytes : List UInt8) :
    Except EncodingError String :=
  match charsets.ofLabel? label with
  | some e => e.decode charsets bytes
  | none => .error (.unsupported label)

/-! ## Which encoding -/

/-- The encoding of a byte order mark at the front, and the bytes after it. -/
def afterMark? : List UInt8 → Option (Encoding × List UInt8)
  | 0xEF :: 0xBB :: 0xBF :: rest => some (utf8, rest)
  | 0xFE :: 0xFF :: rest => some (utf16be, rest)
  | 0xFF :: 0xFE :: rest => some (utf16le, rest)
  | _ => none

/-- The encoding that the first bytes show, and how many of them are its mark. -/
def detect (bytes : List UInt8) : Encoding × Nat :=
  match afterMark? bytes with
  | some (e, rest) => (e, bytes.length - rest.length)
  | none => (utf8, 0)

/-- The bytes of ASCII text. -/
def asciiBytes (s : String) : List UInt8 :=
  s.toList.map fun c => c.toNat.toUInt8

/-- A byte of space in markup. -/
def isSpaceByte (b : UInt8) : Bool :=
  b == 0x20 || b == 0x09 || b == 0x0D || b == 0x0A

/-- A declaration is looked for in so many bytes. -/
def sniffedLength : Nat := 200

/-- The value after an equals sign, between quotes of one kind. -/
def assignedValue? (bytes : List UInt8) : Option (List UInt8) :=
  match bytes.dropWhile isSpaceByte with
  | 0x3D :: rest =>
    match rest.dropWhile isSpaceByte with
    | q :: rest =>
      if q = 0x22 ∨ q = 0x27 then (around? [q] rest).map Prod.fst else none
    | [] => none
  | _ => none

/-- The label that an XML declaration at the front names, as far as it stands in the first bytes. -/
def declaredLabel? (bytes : List UInt8) : Option String := do
  let head := bytes.take sniffedLength
  let _ ← after? (asciiBytes "<?xml") head
  let (declaration, _) ← around? (asciiBytes "?>") head
  let (_, rest) ← around? (asciiBytes "encoding") declaration
  let value ← assignedValue? rest
  String.fromUTF8? value.toByteArray

/-- The label names UTF-8 in the usual spelling. -/
def isUtf8Label (label : String) : Bool :=
  sameIgnoringCase label "UTF-8" || sameIgnoringCase label "UTF8"

/-- Decodes the bytes of a document. The encoding of a mark is asked for by its name. -/
def decodeDocument (charsets : Charsets) (bytes : List UInt8) : Except EncodingError String :=
  match afterMark? bytes with
  | some (e, rest) => decodeAs charsets e.name rest
  | none =>
    match declaredLabel? bytes with
    | some label =>
      if isUtf8Label label then utf8.decode charsets bytes else decodeAs charsets label bytes
    | none => utf8.decode charsets bytes

end Encoding

end MarkupFields
