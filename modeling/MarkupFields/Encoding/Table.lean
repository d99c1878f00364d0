import MarkupFields.Encoding.Charsets
import MarkupFields.Text.Blank
import MarkupFields.Text.Numeral

/-
  Encodings that write one character in one byte, as tables. Below 128 every such table is ASCII; above,
  a byte stands for a code point or for nothing. There are more encodings than these; the replacement
  encoding stands for those that are refused unless there is nothing to decode.
-/

namespace MarkupFields

open Text

namespace Charsets

/-! ## Tables -/

/-- The code points of the bytes 0x80 to 0x9F in windows-1252. -/
def windows1252Controls : List Nat :=
  [0x20AC, 0x81, 0x201A, 0x0192, 0x201E, 0x2026, 0x2020, 0x2021, 0x02C6, 0x2030, 0x0160, 0x2039,
    0x0152, 0x8D, 0x017D, 0x8F, 0x90, 0x2018, 0x2019, 0x201C, 0x201D, 0x2022, 0x2013, 0x2014,
    0x02DC, 0x2122, 0x0161, 0x203A, 0x0153, 0x9D, 0x017E, 0x0178]

/-- Where ISO-8859-15 differs from Latin-1. -/
def iso8859p15Differences : List (Nat × Nat) :=
  [(0xA4, 0x20AC), (0xA6, 0x0160), (0xA8, 0x0161), (0xB4, 0x017D), (0xB8, 0x017E), (0xBC, 0x0152),
    (0xBD, 0x0153), (0xBE, 0x0178)]

/-- The Hebrew table: Latin-1 with some signs exchanged, the letters, two marks of direction, and
gaps. -/
def hebrew? (b : Nat) : Option Nat :=
  if b ≤ 0xA0 then some b
  else if b = 0xA1 then none
  else if b = 0xAA then some 0xD7
  else if b = 0xBA then some 0xF7
  else if b ≤ 0xBE then some b
  else if b < 0xDF then none
  else if b = 0xDF then some 0x2017
  else if b ≤ 0xFA then some (0x05D0 + (b - 0xE0))
  else if b = 0xFD then some 0x200E
  else if b = 0xFE then some 0x200F
  else none

/-- The encodings of one byte for each character, with the code points of the bytes from 128 up. -/
def tables : List (String × (Nat → Option Nat)) :=
  [("windows-1252", fun b => some (windows1252Controls.getD (b - 0x80) b)),
    ("ISO-8859-15", fun b => some ((iso8859p15Differences.lookup b).getD b)),
    ("ISO-8859-8", hebrew?),
    ("ISO-8859-8-I", hebrew?),
    ("x-user-defined", fun b => some (0xF700 + b))]

/-- The character of one byte. -/
def byteChar? (upper? : Nat → Option Nat) (b : UInt8) : Option Char :=
  if b.toNat < 0x80 then charOfCode? b.toNat else (upper? b.toNat).bind charOfCode?

/-! ## Labels -/

/-- The labels of each encoding, in lower case. -/
def labels : List (Encoding × List String) :=
  [(.utf8, ["utf8", "utf-8", "unicode20utf8", "unicode11utf8", "x-unicode20utf8",
      "unicode-1-1-utf-8"]),
    (.utf16le, ["ucs-2", "utf-16", "unicode", "utf-16le", "csunicode", "unicodefeff",
      "iso-10646-ucs-2"]),
    (.utf16be, ["utf-16be", "unicodefffe"]),
    (.other "windows-1252", ["l1", "cp819", "ascii", "latin1", "cp1252", "ibm819", "iso88591",
      "x-cp1252", "us-ascii", "iso8859-1", "iso-ir-100", "iso-8859-1", "iso_8859-1", "csisolatin1",
      "windows-1252", "ansi_x3.4-1968", "iso_8859-1:1987"]),
    (.other "ISO-8859-15", ["l9", "iso885915", "iso8859-15", "iso-8859-15", "iso_8859-15",
      "csisolatin9"]),
    (.other "ISO-8859-8", ["visual", "hebrew", "iso88598", "iso8859-8", "iso-8859-8", "iso_8859-8",
      "iso-ir-138", "csiso88598e", "iso-8859-8-e", "iso_8859-8:1988", "csisolatinhebrew"]),
    (.other "ISO-8859-8-I", ["logical", "csiso88598i", "iso-8859-8-i"]),
    (.other "x-user-defined", ["x-user-defined"]),
    (.other "replacement", ["hz-gb-2312", "iso-2022-cn", "iso-2022-kr", "csiso2022kr",
      "replacement", "iso-2022-cn-ext"])]

/-- The encodings that have tables here. A label is taken in any letter case and with ASCII spaces
around it. -/
def tabulated : Charsets where
  ofLabel? label :=
    let word := String.ofList ((trim isAsciiSpace label.toList).map Char.toLower)
    (labels.find? fun l => l.2.contains word).map Prod.fst
  decode? name bytes :=
    match tables.lookup name with
    | some upper? => (bytes.mapM (byteChar? upper?)).map String.ofList
    | none => if bytes.isEmpty then some "" else none
  ofLabel?_utf8 := by decide +kernel
  ofLabel?_utf16le := by decide +kernel
  ofLabel?_utf16be := by decide +kernel

end Charsets

end MarkupFields
