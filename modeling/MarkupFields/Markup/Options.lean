/-
  What may be chosen when markup is read: whether prefixes are resolved, whether blank text is kept,
  and how much nesting, how long a name and how many references are allowed.
-/

namespace MarkupFields

/-- The choices and limits of reading. -/
structure ReadOptions where
  namespaceAware : Bool := true
  dropBlanks : Bool := false
  maxDepth : Nat := 256
  maxNameLength : Nat := 50000
  maxReferences : Nat := 10000
  deriving DecidableEq, Repr, Inhabited

end MarkupFields
