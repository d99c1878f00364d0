/-
  Character encodings, their names and the labels that ask for them. UTF-8 and the two orders of UTF-16
  are read here; what other encodings there are, how their bytes are read and which labels ask for them
  is given from outside (`Charsets`).
-/

namespace MarkupFields

/-- The encodings, those that are given from outside by their names. -/
inductive Encoding where
  | utf8
  | utf16le
  | utf16be
  | other (name : String)
  deriving DecidableEq, Repr

/-- The name of an encoding in messages. -/
def Encoding.name : Encoding → String
  | utf8 => "UTF-8"
  | utf16le => "UTF-16LE"
  | utf16be => "UTF-16BE"
  | other name => name

/-- The encoding that each label asks for, and the texts that bytes are in the encodings of other
names. The names of the encodings that are known here ask for these. -/
structure Charsets where
  ofLabel? : String → Option Encoding
  decode? : String → List UInt8 → Option String
  ofLabel?_utf8 : ofLabel? Encoding.utf8.name = some .utf8
  ofLabel?_utf16le : ofLabel? Encoding.utf16le.name = some .utf16le
  ofLabel?_utf16be : ofLabel? Encoding.utf16be.name = some .utf16be

end MarkupFields
