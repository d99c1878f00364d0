import MarkupFields.Proofs.Path.Rendered

/-
  One expression for each path. All that an expression is free in is the zeros in front of its
  positions: what is rendered for a path that was read is the expression without them
  (`Spelled.render_eq`), and it is read as the same path. So two expressions are rendered alike
  exactly if they are read alike (`parse_canonical`).
-/

namespace MarkupFields

/-! ## Numerals of one number -/

namespace Text

/-- The value of a digit is below ten, and the digit is its numeral. -/
theorem toDigits_digit {c : Char} (h : c.isDigit = true) :
    c.toNat - '0'.toNat < 10 ∧ Nat.toDigits 10 (c.toNat - '0'.toNat) = [c] := by
  have hzero : '0'.toNat = 48 := rfl
  have hnine : '9'.toNat = 57 := rfl
  rw [Char.isDigit_iff_toNat] at h
  have hlt : c.toNat - '0'.toNat < 10 := by omega
  refine ⟨hlt, ?_⟩
  rw [Nat.toDigits_of_lt_base hlt, List.cons.injEq, ← Char.toNat_inj,
    Nat.toNat_digitChar_of_lt_ten hlt]
  exact ⟨by omega, rfl⟩

/-- Digits go on the numeral of a number above zero. -/
theorem toDigits_append {digits : List Char} (h : ∀ c ∈ digits, c.isDigit = true) {n : Nat}
    (hn : 0 < n) :
    Nat.toDigits 10 n ++ digits = Nat.toDigits 10 (Nat.ofDigitChars 10 digits n) := by
  induction digits generalizing n with
  | nil => rw [List.append_nil, Nat.ofDigitChars_nil]
  | cons c digits ih =>
    obtain ⟨hc, hdigits⟩ := List.forall_mem_cons.1 h
    obtain ⟨hlt, hlast⟩ := toDigits_digit hc
    rw [Nat.ofDigitChars_cons, ← ih hdigits (by omega),
      ← Nat.toDigits_append_toDigits (by decide) hn hlt, hlast, List.append_assoc,
      List.singleton_append]

/-- The numeral of a number above zero is any other one of it without the zeros in front. -/
theorem toDigits_ofDigitChars {digits : List Char} (h : ∀ c ∈ digits, c.isDigit = true)
    (hpos : 0 < Nat.ofDigitChars 10 digits 0) :
    Nat.toDigits 10 (Nat.ofDigitChars 10 digits 0) = digits.dropWhile (· == '0') := by
  induction digits with
  | nil => exact absurd hpos (Nat.lt_irrefl 0)
  | cons c digits ih =>
    obtain ⟨hc, hdigits⟩ := List.forall_mem_cons.1 h
    rw [Nat.ofDigitChars_cons] at hpos ⊢
    by_cases hzero : c = '0'
    · subst hzero
      rw [List.dropWhile_cons_of_pos rfl]
      exact ih hdigits hpos
    · have hvalue : 0 < c.toNat - '0'.toNat := by
        have hlow := (Char.isDigit_iff_toNat.1 hc).1
        have hne := mt Char.toNat_inj.1 hzero
        omega
      rw [List.dropWhile_cons_of_neg (by simpa using hzero), Nat.mul_zero, Nat.zero_add,
        ← toDigits_append hdigits hvalue, (toDigits_digit hc).2, List.singleton_append]

end Text

namespace Path

open Text

/-! ## Zeros in front of positions -/

/-- The characters without the zeros in front of positions; whether nothing but zeros stands between
an opening bracket and the first character is given. -/
def unpaddedFrom (opened : Bool) : List Char → List Char
  | [] => []
  | c :: cs => if opened && c == '0' then unpaddedFrom true cs else c :: unpaddedFrom (c == '[') cs

/-- The characters of an expression without the zeros in front of its positions. -/
def unpadded (cs : List Char) : List Char :=
  unpaddedFrom false cs

theorem unpadded_cons {c : Char} (hc : c ≠ '[') (cs : List Char) :
    unpadded (c :: cs) = c :: unpadded cs := by
  have hopened : (c == '[') = false := beq_eq_false_iff_ne.2 hc
  show c :: unpaddedFrom (c == '[') cs = _
  rw [hopened]
  rfl

/-- Where no position begins, nothing is left out. -/
theorem unpadded_append {cs : List Char} (h : '[' ∉ cs) (rest : List Char) :
    unpadded (cs ++ rest) = cs ++ unpadded rest := by
  induction cs with
  | nil => rfl
  | cons c cs ih =>
    obtain ⟨hc, hcs⟩ := not_or.1 (mt List.mem_cons.2 h)
    rw [List.cons_append, unpadded_cons (Ne.symm hc), ih hcs, List.cons_append]

/-- A position loses the zeros in front of it. -/
theorem unpaddedFrom_digits {digits : List Char} (h : '[' ∉ digits) (rest : List Char) :
    unpaddedFrom true (digits ++ ']' :: rest) =
      digits.dropWhile (· == '0') ++ ']' :: unpadded rest := by
  induction digits with
  | nil => rfl
  | cons c digits ih =>
    obtain ⟨hc, hdigits⟩ := not_or.1 (mt List.mem_cons.2 h)
    by_cases hzero : c = '0'
    · rw [hzero, List.dropWhile_cons_of_pos rfl, ← ih hdigits]
      rfl
    · have hfirst : (c == '0') = false := beq_eq_false_iff_ne.2 hzero
      have hopened : (c == '[') = false := beq_eq_false_iff_ne.2 (Ne.symm hc)
      rw [List.dropWhile_cons_of_neg (by simpa using hzero), List.cons_append, unpaddedFrom, hfirst,
        Bool.and_false, if_neg Bool.false_ne_true, hopened, List.cons_append]
      exact congrArg (c :: ·) (unpadded_append hdigits (']' :: rest))

/-- A position in range is written as any spelling of it is without the zeros in front. -/
theorem SpelledIndex.toDigits_eq {digits : List Char} {n : Nat} (h : SpelledIndex digits n) :
    Nat.toDigits 10 n = digits.dropWhile (· == '0') := by
  have hpos := h.range.1
  rw [← h.denotes] at hpos ⊢
  exact toDigits_ofDigitChars h.all hpos

/-! ## What is rendered -/

/-- A segment is rendered as it is spelled, without the zeros in front of its position. -/
theorem SpelledSegment.unpadded_append {cs : List Char} {segment : Segment}
    (h : SpelledSegment cs segment) (rest : List Char) :
    unpadded (cs ++ rest) = segment.render.toList ++ unpadded rest := by
  have hname : ∀ {cs : List Char} {q : QName}, SpelledName cs q → '[' ∉ cs := fun hq =>
    not_mem_name hq.isName (by decide)
  cases h with
  | element step =>
    cases step with
    | first name =>
      rw [Path.unpadded_append (hname name), ← (spelledName_iff.1 name).2]
      rfl
    | @indexed cs digits q n name index =>
      have hdigits : '[' ∉ digits := index.not_mem (by decide)
      rw [toList_render_indexed, (spelledName_iff.1 name).2, index.toDigits_eq, List.append_assoc,
        Path.unpadded_append (hname name), List.append_assoc, List.cons_append, List.cons_append,
        List.append_assoc, List.append_assoc]
      exact congrArg (fun more => cs ++ '[' :: more) (unpaddedFrom_digits hdigits rest)
  | @attr cs q name =>
    rw [toList_render_attr, (spelledName_iff.1 name).2, List.cons_append,
      unpadded_cons (by decide), Path.unpadded_append (hname name), List.cons_append]

/-- What is rendered for a path is any expression of it without the zeros in front of its
positions. -/
theorem Spelled.render_eq {cs : List Char} {p : Path} (h : Spelled cs p) :
    p.render.toList = unpadded cs := by
  obtain ⟨texts, -, rfl, hall⟩ := h
  rw [toList_render]
  generalize p.segments = segments at hall
  induction hall with
  | nil => rfl
  | @cons text segment texts segments htext _ ih =>
    rw [List.flatMap_cons, List.cons_append, unpadded_cons (by decide), htext.unpadded_append,
      List.map_cons, List.flatMap_cons, ih, List.cons_append]

/-- The expression that is rendered for a path that was read is read as the same path, and it is the
expression that was read without the zeros in front of its positions. Two expressions are rendered
alike exactly if they are read as the same path. -/
theorem parse_canonical {s : String} {p : Path} (h : parse s = .ok p) :
    parse p.render = .ok p ∧ p.render.toList = unpadded s.toList ∧
      ∀ (t : String) (q : Path), parse t = .ok q → (q.render = p.render ↔ q = p) := by
  have hspelled := spelled_of_parse h
  have hread := parse_render hspelled.expressible
  refine ⟨hread, hspelled.render_eq, fun t q ht => ⟨fun hsame => ?_, congrArg render⟩⟩
  have hread' := parse_render (spelled_of_parse ht).expressible
  rw [hsame, hread, Except.ok.injEq] at hread'
  exact hread'.symm

/-- Zeros in front of a position are left out, those inside it and in names are not. -/
theorem parse_canonical_padded :
    let s := "/x:é0[00700]/b[1]/@y:c00"
    let p : Path := ⟨[⟨⟨some "x", "é0"⟩, some 700⟩, ⟨.plain "b", some 1⟩], some ⟨some "y", "c00"⟩⟩
    parse s = .ok p ∧ p.render = "/x:é0[700]/b[1]/@y:c00" ∧
      (parse p.render = .ok p ∧ p.render.toList = unpadded s.toList ∧
        ∀ (t : String) (q : Path), parse t = .ok q → (q.render = p.render ↔ q = p)) := by
  intro s p
  have h : parse s = .ok p := by decide
  exact ⟨h, by decide, parse_canonical h⟩

end Path

end MarkupFields
