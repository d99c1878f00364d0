import MarkupFields.Markup.Options
import MarkupFields.Markup.Scan
import MarkupFields.Text.Numeral

/-
  References and the two kinds of text that may hold them: attribute values and character data. A
  reference gives exactly one character, which is taken as it is; line ends and, in attribute values,
  tabs are changed only where they are written out. The references of a document are counted.
-/

namespace MarkupFields.Scan

open Text Powers

/-! ## One reference -/

/-- The character of each predefined entity. -/
def entity? (name : List Char) : Option Char :=
  match name with
  | ['a', 'm', 'p'] => some '&'
  | ['l', 't'] => some '<'
  | ['g', 't'] => some '>'
  | ['a', 'p', 'o', 's'] => some '\''
  | ['q', 'u', 'o', 't'] => some '"'
  | _ => none

/-- Takes the digits and the end of a character reference. -/
def characterReference (base : Nat) (isDigit : Char → Bool) (bad : Fault) (cs : List Char) :
    Except Halt (Char × List Char) :=
  let digits := cs.takeWhile isDigit
  let rest := cs.dropWhile isDigit
  let code := numeral base digits
  if digits = [] ∨ 2 ^ (32 : Nat) ≤ code then haltAt bad rest
  else do
    let rest ← expect ';' rest
    if isXmlCode code then .ok (Char.ofNat code, rest)
    else haltAt (.referenceToNoCharacter code) rest

/-- Takes the name and the end of an entity reference. -/
def entityReference (limit : Nat) (cs : List Char) : Except Halt (Char × List Char) := do
  let (word, rest) ← name limit cs
  let rest ← expect ';' rest
  match entity? word with
  | some c => .ok (c, rest)
  | none => haltAt (.unknownEntity (String.ofList word)) rest

/-- Takes a reference of which the ampersand has been read. -/
def reference (limit : Nat) (cs : List Char) : Except Halt (Char × List Char) :=
  match after? ['#', 'x'] cs with
  | some rest => characterReference 16 isHexDigit .badHexReference rest
  | none =>
    match after? ['#'] cs with
    | some rest => characterReference 10 Char.isDigit .badDecimalReference rest
    | none => entityReference limit cs

/-! ## What is left is shorter -/

theorem characterReference_suffix {base : Nat} {isDigit : Char → Bool} {bad : Fault}
    {cs rest : List Char} {c : Char}
    (h : characterReference base isDigit bad cs = .ok (c, rest)) : rest <:+ cs := by
  simp only [characterReference] at h
  split at h
  · simp [haltAt] at h
  · simp only [bind, Except.bind] at h
    split at h
    · simp at h
    · rename_i r hr
      rw [expect_eq_ok_iff] at hr
      split at h
      · simp only [Except.ok.injEq, Prod.mk.injEq] at h
        obtain ⟨-, rfl⟩ := h
        exact (List.suffix_cons _ _).trans (hr ▸ List.dropWhile_suffix isDigit)
      · simp [haltAt] at h

theorem entityReference_suffix {limit : Nat} {cs rest : List Char} {c : Char}
    (h : entityReference limit cs = .ok (c, rest)) : rest <:+ cs := by
  simp only [entityReference, bind, Except.bind] at h
  split at h
  · simp at h
  · rename_i p hp
    split at h
    · simp at h
    · rename_i r hr
      rw [expect_eq_ok_iff] at hr
      have hn := (name_eq_ok hp).1
      split at h
      · simp only [Except.ok.injEq, Prod.mk.injEq] at h
        obtain ⟨-, rfl⟩ := h
        rw [hn, hr]
        exact (List.suffix_cons _ _).trans (List.suffix_append _ _)
      · simp [haltAt] at h

theorem reference_suffix {limit : Nat} {cs rest : List Char} {c : Char}
    (h : reference limit cs = .ok (c, rest)) : rest <:+ cs := by
  simp only [reference] at h
  split at h
  · rename_i r hr
    rw [after?_eq_some_iff] at hr
    exact hr ▸ (characterReference_suffix h).trans (List.suffix_append _ _)
  · split at h
    · rename_i r hr
      rw [after?_eq_some_iff] at hr
      exact hr ▸ (characterReference_suffix h).trans (List.suffix_append _ _)
    · exact entityReference_suffix h

/-! ## Text with references -/

/-- Takes text up to its end, resolving references; what is written out passes through the given
change. With the number of references read so far. -/
def referencedRun (o : ReadOptions) (front : List Char → Front) (change : Char → Char) (used : Nat)
    (cs : List Char) : Except Halt (List Char × Nat × List Char) :=
  match front cs with
  | .ends rest => .ok ([], used, rest)
  | .refused fault => haltAt fault cs
  | .further =>
    match cs with
    | [] => haltAt .endOfText []
    | c :: next =>
      if c = '&' then
        if used + 1 > o.maxReferences then haltAt (.tooManyReferences o.maxReferences) (c :: next)
        else
          match _taken : reference o.maxNameLength next with
          | .error e => .error e
          | .ok (r, rest) => do
            let (more, used, rest) ← referencedRun o front change (used + 1) rest
            .ok (r :: more, used, rest)
      else do
        let first ← contribution c next
        let (more, used, rest) ← referencedRun o front change used next
        .ok (first.map change ++ more, used, rest)
termination_by cs.length
decreasing_by
  · have := (reference_suffix _taken).length_le
    simp only [List.length_cons]
    omega
  · simp

/-- The inside of an attribute value between quotes of one kind. -/
def attributeFront (quote : Char) (cs : List Char) : Front :=
  match cs with
  | [] => .refused (.endInside .attributeValue)
  | c :: rest =>
    if c = quote then .ends rest
    else if c = '<' then .refused .lessThanInAttribute
    else .further

/-- A line feed or tab that is written out in an attribute value is a blank. -/
def attributeBlank (c : Char) : Char :=
  if c = '\n' ∨ c = '\t' then ' ' else c

/-- Takes an attribute value with its quotes. -/
def attributeValue (o : ReadOptions) (used : Nat) :
    List Char → Except Halt (List Char × Nat × List Char)
  | [] => haltAt .endOfText []
  | q :: cs =>
    if q = '"' ∨ q = '\'' then referencedRun o (attributeFront q) attributeBlank used cs
    else haltInside .unquotedAttribute (q :: cs)

/-- Character data goes on to the next markup or to the end of the text; the end mark of CDATA may
not stand in it. -/
def textFront (cs : List Char) : Front :=
  match cs with
  | [] => .ends []
  | c :: rest =>
    if c = '<' then .ends (c :: rest)
    else if (after? cdataClose (c :: rest)).isSome then .refused .cdataEndInText
    else .further

/-- Takes character data. -/
def characterData (o : ReadOptions) (used : Nat) (cs : List Char) :
    Except Halt (List Char × Nat × List Char) :=
  referencedRun o textFront id used cs

/-! ## What is left of text -/

theorem leavesSuffix_attributeFront (quote : Char) : LeavesSuffix (attributeFront quote) := by
  intro cs rest h
  cases cs with
  | nil => simp [attributeFront] at h
  | cons c cs =>
    simp only [attributeFront] at h
    split at h
    · simp only [Front.ends.injEq] at h
      exact h ▸ List.suffix_cons _ _
    · split at h <;> simp at h

theorem leavesSuffix_textFront : LeavesSuffix textFront := by
  intro cs rest h
  cases cs with
  | nil =>
    simp only [textFront, Front.ends.injEq] at h
    exact h ▸ List.nil_suffix
  | cons c cs =>
    simp only [textFront] at h
    split at h
    · simp only [Front.ends.injEq] at h
      exact h ▸ List.suffix_refl _
    · split at h <;> simp at h

theorem referencedRun_suffix {o : ReadOptions} {front : List Char → Front} {change : Char → Char}
    (hf : LeavesSuffix front) {used used' : Nat} {cs v rest : List Char}
    (h : referencedRun o front change used cs = .ok (v, used', rest)) : rest <:+ cs := by
  fun_induction referencedRun o front change used cs generalizing v used' rest with
  | case1 used cs r hr =>
    simp only [Except.ok.injEq, Prod.mk.injEq] at h
    exact h.2.2 ▸ hf _ _ hr
  | case2 => simp [haltAt] at h
  | case3 => simp [haltAt] at h
  | case4 => simp [haltAt] at h
  | case5 => simp at h
  | case6 used next hused r mid hmid hfront ih =>
    simp only [bind, Except.bind] at h
    split at h
    · simp at h
    · rename_i p hp
      simp only [Except.ok.injEq, Prod.mk.injEq] at h
      exact h.2.2 ▸ ((ih hp).trans (reference_suffix hmid)).trans (List.suffix_cons _ _)
  | case7 used c next hc hfront ih =>
    simp only [bind, Except.bind] at h
    split at h
    · simp at h
    · split at h
      · simp at h
      · rename_i p hp
        simp only [Except.ok.injEq, Prod.mk.injEq] at h
        exact h.2.2 ▸ (ih hp).trans (List.suffix_cons _ _)

/-- Character data that does not begin with markup takes at least one character. -/
theorem characterData_lt {o : ReadOptions} {used used' : Nat} {c : Char} {v rest next : List Char}
    (hc : c ≠ '<') (h : characterData o used (c :: next) = .ok (v, used', rest)) :
    rest.length < (c :: next).length := by
  unfold characterData referencedRun at h
  refine Nat.lt_succ_of_le ?_
  split at h
  · rename_i r hr
    simp only [textFront, if_neg hc] at hr
    split at hr <;> simp at hr
  · simp [haltAt] at h
  · simp only [bind, Except.bind] at h
    split at h
    · split at h
      · simp [haltAt] at h
      · split at h
        · simp at h
        · rename_i hr
          split at h
          · simp at h
          · rename_i p hp
            simp only [Except.ok.injEq, Prod.mk.injEq] at h
            exact h.2.2 ▸ ((referencedRun_suffix leavesSuffix_textFront hp).trans
              (reference_suffix hr)).length_le
    · split at h
      · simp at h
      · split at h
        · simp at h
        · rename_i p hp
          simp only [Except.ok.injEq, Prod.mk.injEq] at h
          exact h.2.2 ▸ (referencedRun_suffix leavesSuffix_textFront hp).length_le

theorem attributeValue_suffix {o : ReadOptions} {used used' : Nat} {cs v rest : List Char}
    (h : attributeValue o used cs = .ok (v, used', rest)) : rest <:+ cs := by
  cases cs with
  | nil => simp [attributeValue, haltAt] at h
  | cons q cs =>
    simp only [attributeValue] at h
    split at h
    · exact (referencedRun_suffix (leavesSuffix_attributeFront q) h).trans (List.suffix_cons _ _)
    · simp [haltInside] at h

end MarkupFields.Scan
