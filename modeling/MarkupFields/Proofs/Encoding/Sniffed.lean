import MarkupFields.Encoding.Table
import MarkupFields.Proofs.Encoding.Bytes
import MarkupFields.Proofs.Markup.Accepted
import MarkupFields.Proofs.Markup.Declared

/-
  The encoding that is looked for in the first bytes, against the one that a reader of the text takes
  from the XML declaration. What is found among the bytes of a text can be said of its characters
  (`declaredLabel?_utf8Bytes`). For a text that is read with a declaration, or without anything that
  looks like one, it is the encoding of the declaration, as long as the whole declaration is among the
  first bytes (`declaredLabel?_of_parse`). So such a text is decoded from its bytes if it declares UTF-8
  or nothing.
-/

namespace MarkupFields

open Text Scan

namespace Encoding

/-! ## Bytes of space and of values -/

/-- A character below 128 is one byte; any other begins with a byte from 192 up, but below 248. -/
theorem utf8EncodeChar_cases (c : Char) :
    (c.toNat < 128 ∧ String.utf8EncodeChar c = [UInt8.ofNat c.toNat]) ∨
      128 ≤ c.toNat ∧ ∃ n more, String.utf8EncodeChar c = UInt8.ofNat n :: more ∧
        192 ≤ n ∧ n < 248 := by
  unfold String.utf8EncodeChar
  have hval : c.val.toNat = c.toNat := rfl
  dsimp only
  rw [hval]
  split
  · exact .inl ⟨by omega, rfl⟩
  · refine .inr ⟨by omega, ?_⟩
    split
    · exact ⟨_, _, rfl, by omega, by omega⟩
    · split
      · exact ⟨_, _, rfl, by omega, by omega⟩
      · exact ⟨_, _, rfl, by omega, by omega⟩

/-- Space is skipped in the bytes as it is in the text. -/
theorem dropWhile_utf8Bytes (cs : List Char) :
    (utf8Bytes cs).dropWhile isSpaceByte = utf8Bytes (skipSpace cs) := by
  have hascii : ∀ n < 128, isSpaceByte (UInt8.ofNat n) = isMarkupSpace (Char.ofNat n) := by decide
  have hhigh : ∀ k < 56, isSpaceByte (UInt8.ofNat (192 + k)) = false := by decide
  unfold skipSpace
  induction cs with
  | nil => rfl
  | cons c cs ih =>
    rw [utf8Bytes_cons]
    rcases utf8EncodeChar_cases c with ⟨hc, hbytes⟩ | ⟨hc, n, more, hbytes, hn, hlt⟩
    · have hspace := hascii c.toNat hc
      rw [Char.ofNat_toNat] at hspace
      rw [hbytes, List.singleton_append, List.dropWhile_cons, List.dropWhile_cons, hspace, ih]
      split
      · rfl
      · rw [utf8Bytes_cons, hbytes]
        rfl
    · have hspace : isMarkupSpace c = false := by
        rw [← Bool.not_eq_true]
        intro h
        have := Cursor.isMarkupSpace_ascii c h
        omega
      have hbyte := hhigh (n - 192) (by omega)
      rw [Nat.add_sub_cancel' hn] at hbyte
      rw [hbytes, List.cons_append, List.dropWhile_cons_of_neg (by rw [hbyte]; decide),
        List.dropWhile_cons_of_neg (by rw [hspace]; decide), utf8Bytes_cons, hbytes]
      rfl

theorem assignedValue?_of_dropWhile {bytes rest value : List UInt8} {q : UInt8}
    (hequals : bytes.dropWhile isSpaceByte = 0x3D :: rest)
    (hquote : rest.dropWhile isSpaceByte = q :: value) (hq : q = 0x22 ∨ q = 0x27) :
    assignedValue? bytes = (around? [q] value).map Prod.fst := by
  unfold assignedValue?
  rw [hequals]
  simp only [hquote, if_pos hq]

/-- The value that the bytes of an assignment assign. -/
theorem assignedValue?_utf8Bytes {text v : List Char} (h : Assigns text v) (rest : List Char) :
    assignedValue? (utf8Bytes (text ++ rest)) = some (utf8Bytes v) := by
  obtain ⟨s, s', q, rfl, hs, hs', hq, hv⟩ := h
  have hquote : isMarkupSpace q = false ∧ ∃ b, String.utf8EncodeChar q = [b] ∧
      (b = 0x22 ∨ b = 0x27) := by
    rcases hq with rfl | rfl
    · exact ⟨by decide, _, rfl, .inl rfl⟩
    · exact ⟨by decide, _, rfl, .inr rfl⟩
  obtain ⟨hq', b, hb, hb'⟩ := hquote
  have hne : ∀ a ∈ v, a ≠ q := by
    rintro a ha rfl
    exact hv ha
  have hvalue : around? [q] (v ++ ([q] ++ rest)) = some (v, rest) := by
    rw [around?_append_of_forall_ne hne, around?_of_after? (after?_eq_some_iff.2 rfl),
      Option.map_some, List.append_nil]
  have hfound := around?_utf8Bytes (List.cons_ne_nil q []) (v ++ ([q] ++ rest))
  have hequals : utf8Bytes ['='] = [0x3D] := by decide
  rw [hvalue, Option.map_some] at hfound
  have hfront : (utf8Bytes (s ++ '=' :: (s' ++ q :: (v ++ [q])) ++ rest)).dropWhile isSpaceByte =
      0x3D :: utf8Bytes (s' ++ q :: (v ++ ([q] ++ rest))) := by
    rw [List.append_assoc, List.cons_append, dropWhile_utf8Bytes, skipSpace_append hs (by decide),
      ← List.singleton_append, utf8Bytes_append, hequals]
    simp only [List.append_assoc, List.cons_append, List.nil_append]
  have hback : (utf8Bytes (s' ++ q :: (v ++ ([q] ++ rest)))).dropWhile isSpaceByte =
      b :: utf8Bytes (v ++ ([q] ++ rest)) := by
    rw [dropWhile_utf8Bytes, skipSpace_append hs' hq', utf8Bytes_cons, hb]
    rfl
  have hsingle : utf8Bytes [q] = [b] := by
    rw [utf8Bytes_cons, hb]
    rfl
  rw [hsingle] at hfound
  rw [assignedValue?_of_dropWhile hfront hback hb', hfound]
  rfl

/-! ## Marks of byte order -/

/-- Without a byte order mark in the text there is none in its bytes. -/
theorem afterMark?_utf8Bytes {cs : List Char} (h : cs.head? ≠ some '\uFEFF') :
    afterMark? (utf8Bytes cs) = none := by
  have hfirst : ∀ {b : UInt8} {more : List UInt8}, utf8Bytes cs = b :: more → b.toNat < 248 := by
    intro b more hb
    cases cs with
    | nil => cases hb
    | cons c cs =>
      rw [utf8Bytes_cons] at hb
      rcases utf8EncodeChar_cases c with ⟨hc, hbytes⟩ | ⟨hc, n, more', hbytes, -, hn⟩
      · rw [hbytes, List.singleton_append, List.cons.injEq] at hb
        rw [← hb.1, UInt8.toNat_ofNat']
        omega
      · rw [hbytes, List.cons_append, List.cons.injEq] at hb
        rw [← hb.1, UInt8.toNat_ofNat']
        omega
  unfold afterMark?
  split
  · rename_i rest hmark
    have hfront := after?_utf8Bytes ['\uFEFF'] cs
    have hbytes : utf8Bytes ['\uFEFF'] = [0xEF, 0xBB, 0xBF] := by decide
    rw [hbytes, hmark, show after? [0xEF, 0xBB, 0xBF] (0xEF :: 0xBB :: 0xBF :: rest) = some rest from
      after?_eq_some_iff.2 rfl] at hfront
    obtain ⟨more, hmore, -⟩ := Option.map_eq_some_iff.1 hfront.symm
    rw [after?_eq_some_iff] at hmore
    rw [hmore] at h
    exact absurd rfl h
  · rename_i hmark
    exact absurd (hfirst hmark) (by decide)
  · rename_i hmark
    exact absurd (hfirst hmark) (by decide)
  · rfl

/-! ## What is found in the bytes of a text -/

/-- The bytes that a text takes up to the end of its declaration, if there is one. -/
def declarationLength (cs : List Char) : Nat :=
  ((around? instructionClose cs).map fun p => (utf8Bytes p.1).length + 2).getD 0

/-- The label that the bytes after the word for the encoding assign. -/
def assignedLabel? (cs : List Char) : Option String :=
  (assignedValue? (utf8Bytes cs)).bind fun v => String.fromUTF8? v.toByteArray

/-- The label in the bytes of a text, in terms of its characters. -/
theorem declaredLabel?_utf8Bytes (cs : List Char) :
    declaredLabel? (utf8Bytes cs) =
      (after? declarationOpen cs).bind fun _ =>
        (around? instructionClose cs).bind fun p =>
          if (utf8Bytes p.1).length + 2 ≤ sniffedLength then
            (around? encodingWord p.1).bind fun q => assignedLabel? q.2
          else none := by
  have hopen : asciiBytes "<?xml" = utf8Bytes declarationOpen := by decide
  have hclose : asciiBytes "?>" = utf8Bytes instructionClose := by decide
  have hword : asciiBytes "encoding" = utf8Bytes encodingWord := by decide
  have hfront : ∀ l, after? (utf8Bytes declarationOpen) (l.take sniffedLength) =
      (after? (utf8Bytes declarationOpen) l).map fun rest => rest.take (sniffedLength - 5) :=
    after?_take (by decide)
  have hend := around?_take (utf8Bytes instructionClose) (utf8Bytes cs) sniffedLength
  rw [around?_utf8Bytes (by decide)] at hend
  unfold declaredLabel?
  dsimp only
  rw [hopen, hclose, hword, hfront, after?_utf8Bytes, hend]
  cases after? declarationOpen cs with
  | none => rfl
  | some rest =>
    cases around? instructionClose cs with
    | none => rfl
    | some p =>
      simp only [Option.map_some, Option.bind_eq_bind, Option.bind_some]
      have hlen : (utf8Bytes instructionClose).length = 2 := by decide
      rw [hlen]
      split
      · simp only [Option.bind_some, around?_utf8Bytes (show encodingWord ≠ [] by decide)]
        rw [Option.bind_map]
        rfl
      · rfl

/-- The text begins with an instruction that is no XML declaration but whose target begins like one,
and the word for the encoding stands in it. -/
def misleads (cs : List Char) : Bool :=
  (declarationBody? cs).isNone && (after? declarationOpen cs).isSome &&
    (around? instructionClose cs).any fun p => (around? encodingWord p.1).isSome

/-- Without a declaration, and without anything that looks like one, there is no label. -/
theorem declaredLabel?_of_not_misleads {cs : List Char} (hbody : declarationBody? cs = none)
    (hm : misleads cs = false) : declaredLabel? (utf8Bytes cs) = none := by
  rw [declaredLabel?_utf8Bytes]
  unfold misleads at hm
  rw [hbody] at hm
  cases hopen : after? declarationOpen cs with
  | none => rfl
  | some body =>
    cases hclose : around? instructionClose cs with
    | none => rfl
    | some p =>
      rw [hopen, hclose] at hm
      have hword : around? encodingWord p.1 = none := by
        simpa using hm
      rw [Option.bind_some, Option.bind_some, hword, Option.bind_none, ite_self]

/-- The declaration ends at the first end mark of an instruction. -/
theorem around?_instructionClose {inside : List Char} (h : '?' ∉ inside) (rest : List Char) :
    around? instructionClose (declarationOpen ++ inside ++ instructionClose ++ rest) =
      some (declarationOpen ++ inside, rest) := by
  have hne : ∀ a ∈ ['x', 'm', 'l'] ++ inside, a ≠ '?' := by
    rintro a ha rfl
    have hletters : '?' ∉ ['x', 'm', 'l'] := by decide
    exact (List.mem_append.1 ha).elim hletters h
  have hend : around? instructionClose (instructionClose ++ rest) = some ([], rest) :=
    around?_of_after? (after?_eq_some_iff.2 rfl)
  -- the question mark of the opening has a letter behind it
  have hletter : after? instructionClose
      ('?' :: (['x', 'm', 'l'] ++ inside ++ (instructionClose ++ rest))) = none := rfl
  have hbracket : after? instructionClose
      ('<' :: '?' :: (['x', 'm', 'l'] ++ inside ++ (instructionClose ++ rest))) = none := rfl
  rw [List.append_assoc]
  show around? instructionClose
    ('<' :: '?' :: (['x', 'm', 'l'] ++ inside ++ (instructionClose ++ rest))) = _
  rw [around?_cons hbracket, around?_cons hletter]
  unfold instructionClose at hend ⊢
  rw [around?_append_of_forall_ne hne, hend]
  simp only [Option.map_some, List.append_nil]
  rfl

/-- What is found in the characters of a declaration is the encoding that it names. -/
theorem assignedLabel?_of_encodingText {e : Option String} {front named back : List Char}
    (h : EncodingText e named) (hfront : 'c' ∉ front) (hback : 'c' ∉ back) :
    ((around? encodingWord (front ++ named ++ back)).bind fun q => assignedLabel? q.2) = e := by
  cases h with
  | absent =>
    have hnone : around? encodingWord (front ++ [] ++ back) = none := by
      refine around?_eq_none_of_notMem (x := 'c') (by decide) ?_
      rw [List.append_nil, List.mem_append, not_or]
      exact ⟨hfront, hback⟩
    rw [hnone]
    rfl
  | @named s text e y hspace hassigns hname =>
    have hc : 'c' ∉ s ++ [y] := notMem_of_spaces hspace (by decide)
    have hy : y ∉ encodingWord := by
      intro hm
      have hletters : encodingWord.any isMarkupSpace = false := by decide
      exact List.any_eq_false.1 hletters y hm (hspace y List.mem_concat_self)
    have hbefore : around? encodingWord (front ++ s ++ [y]) = none := by
      refine around?_eq_none_of_notMem (x := 'c') (by decide) ?_
      rw [List.append_assoc, List.mem_append, not_or]
      exact ⟨hfront, hc⟩
    have hfound := around?_append_of_notMem hy hbefore (text ++ back)
    have hsame : front ++ (s ++ [y] ++ encodingWord ++ text) ++ back =
        front ++ s ++ [y] ++ encodingWord ++ (text ++ back) := by
      simp only [List.append_assoc]
    rw [hsame, hfound, Option.bind_some]
    unfold assignedLabel?
    rw [assignedValue?_utf8Bytes hassigns, Option.bind_some, fromUTF8?_utf8Bytes]

/-- The label in the bytes of a text is the encoding that its declaration names, if the whole
declaration is among the first bytes. -/
theorem declaredLabel?_of_declaration {cs rest : List Char} {d : Declaration}
    (h : declaration cs = .ok (d, rest)) (hm : misleads cs = false) :
    declaredLabel? (utf8Bytes cs) =
      if declarationLength cs ≤ sniffedLength then d.encoding else none := by
  cases hbody : declarationBody? cs with
  | none =>
    have hd : d.encoding = none := by
      unfold declaration at h
      rw [hbody, Except.ok.injEq, Prod.mk.injEq] at h
      rw [← h.1]
      rfl
    rw [hd, ite_self]
    exact declaredLabel?_of_not_misleads hbody hm
  | some body =>
    obtain ⟨front, named, back, rfl, hplain, hfront, hback, htext⟩ :=
      declaration_eq_ok h (by rw [hbody]; rfl)
    have hclose := around?_instructionClose hplain rest
    have hfront' : 'c' ∉ declarationOpen ++ front := by
      rw [List.mem_append, not_or]
      exact ⟨by decide, hfront⟩
    have hlabel := assignedLabel?_of_encodingText htext hfront' hback
    have hopen : after? declarationOpen (declarationOpen ++ (front ++ named ++ back) ++
        instructionClose ++ rest) = some (front ++ named ++ back ++ instructionClose ++ rest) := by
      rw [after?_eq_some_iff]
      simp only [List.append_assoc]
    unfold declarationLength
    rw [declaredLabel?_utf8Bytes, hopen, hclose, Option.bind_some, Option.bind_some, Option.map_some, Option.getD_some]
    rw [List.append_assoc declarationOpen, List.append_assoc declarationOpen] at hlabel
    rw [hlabel]

/-! ## Whole texts -/

/-- The bytes of a text without a byte order mark are decoded to it, if the label that is found in
them is one of UTF-8 or there is none. -/
theorem decodeDocument_utf8Bytes {charsets : Charsets} {cs : List Char}
    (hmark : cs.head? ≠ some '\uFEFF')
    (hlabel : ∀ e ∈ declaredLabel? (utf8Bytes cs),
      isUtf8Label e = true ∨ charsets.ofLabel? e = some .utf8) :
    decodeDocument charsets (utf8Bytes cs) = .ok (String.ofList cs) := by
  have hdecode : utf8.decode charsets (utf8Bytes cs) = .ok (String.ofList cs) := by
    unfold decode decode?
    rw [fromUTF8?_utf8Bytes]
  unfold decodeDocument
  rw [afterMark?_utf8Bytes hmark]
  dsimp only
  cases hfound : declaredLabel? (utf8Bytes cs) with
  | none => exact hdecode
  | some e =>
    dsimp only
    split
    · exact hdecode
    · rename_i hspelled
      unfold decodeAs
      rw [(hlabel e hfound).resolve_left hspelled]
      exact hdecode

theorem declaration_of_parse {o : ReadOptions} {t : String} {m : Markup}
    (h : Markup.parse o t = .ok m) :
    ∃ rest, declaration (skipMark t.toList) = .ok (m.declaration, rest) := by
  have hdoc := Markup.parse_eq_ok.1 h
  unfold document at hdoc
  obtain ⟨⟨d, rest⟩, hd, hdoc⟩ := bind_eq_ok.1 hdoc
  obtain ⟨before, -, hdoc⟩ := bind_eq_ok.1 hdoc
  obtain ⟨between, -, hdoc⟩ := bind_eq_ok.1 hdoc
  obtain ⟨root, -, hdoc⟩ := bind_eq_ok.1 hdoc
  obtain ⟨behind, -, hdoc⟩ := bind_eq_ok.1 hdoc
  dsimp only at hdoc
  split at hdoc
  · rw [Except.ok.injEq] at hdoc
    rw [← hdoc]
    exact ⟨rest, hd⟩
  · cases hdoc

/-- For a text that is read, without a byte order mark and without a misleading instruction in front:
the label in its bytes is the encoding that its declaration names, if the whole declaration is among
the first bytes, and there is no label otherwise. If that encoding is UTF-8, or none is named, the
bytes are decoded to the text. -/
theorem declaredLabel?_of_parse (charsets : Charsets) {o : ReadOptions} {t : String} {m : Markup}
    (h : Markup.parse o t = .ok m) (hmark : t.toList.head? ≠ some '\uFEFF')
    (hm : misleads t.toList = false) :
    declaredLabel? t.toUTF8.data.toList =
        (if declarationLength t.toList ≤ sniffedLength then m.declaration.encoding else none) ∧
      ((∀ e ∈ m.declaration.encoding, isUtf8Label e = true ∨ charsets.ofLabel? e = some .utf8) →
        decodeDocument charsets t.toUTF8.data.toList = .ok t) := by
  obtain ⟨rest, hd⟩ := declaration_of_parse h
  rw [show skipMark t.toList = t.toList from if_neg hmark] at hd
  have hlabel := declaredLabel?_of_declaration hd hm
  rw [toUTF8_data]
  refine ⟨hlabel, fun hutf8 => ?_⟩
  have hdecoded : decodeDocument charsets (utf8Bytes t.toList) = .ok (String.ofList t.toList) := by
    refine decodeDocument_utf8Bytes hmark fun e he => hutf8 e ?_
    rw [hlabel] at he
    split at he
    · exact he
    · cases he
  rw [hdecoded, String.ofList_toList]

/-- A declaration that names UTF-8 in front of text that is not ASCII. -/
theorem declaredLabel?_of_parse_utf8 :
    let t := "<?xml version='1.0' encoding = \"UTF-8\"?><a>é</a>"
    let m : Markup := ⟨⟨some "1.0", some "UTF-8", none⟩,
      .cons (.element ⟨.plain "a", none, []⟩) (.leaf (.text "é")) .nil⟩
    Markup.parse {} t = .ok m ∧ t.toList.head? ≠ some '\uFEFF' ∧ misleads t.toList = false ∧
      declaredLabel? t.toUTF8.data.toList = some "UTF-8" ∧
      decodeDocument .tabulated t.toUTF8.data.toList = .ok t := by
  intro t m
  have hread : Markup.parse {} t = .ok m := by decide +kernel
  have hmark : t.toList.head? ≠ some '\uFEFF' := by decide
  have hm : misleads t.toList = false := by decide +kernel
  have hlength : declarationLength t.toList ≤ sniffedLength := by decide +kernel
  obtain ⟨hlabel, hdecode⟩ := declaredLabel?_of_parse .tabulated hread hmark hm
  rw [if_pos hlength] at hlabel
  refine ⟨hread, hmark, hm, hlabel, hdecode fun e he => .inl ?_⟩
  rw [← Option.some.inj he]
  decide

/-- Neither is the label the encoding of the declaration in every text that is read: a long
declaration is not seen to its end, and an instruction that only begins like a declaration is taken
for one. -/
theorem declaredLabel?_misses :
    let long := "<?xml version='1.0'" ++ String.ofList (List.replicate 200 ' ') ++
      "encoding='latin1'?><a>é</a>"
    let instruction := "<?xml-style encoding='latin1'?><a>é</a>"
    let encoding : String → Option (Option String) := fun t =>
      (Markup.parse {} t).toOption.map fun m => m.declaration.encoding
    encoding long = some (some "latin1") ∧ declaredLabel? long.toUTF8.data.toList = none ∧
      encoding instruction = some none ∧
      declaredLabel? instruction.toUTF8.data.toList = some "latin1" ∧
      decodeDocument .tabulated instruction.toUTF8.data.toList =
        .ok "<?xml-style encoding='latin1'?><a>Ã©</a>" := by
  intro long instruction encoding
  have hchars : long.toList = "<?xml version='1.0'".toList ++ List.replicate 200 ' ' ++
      "encoding='latin1'?><a>é</a>".toList := by
    have hspaces : (String.ofList (List.replicate 200 ' ')).toList = List.replicate 200 ' ' :=
      String.toList_ofList
    rw [String.toList_append, String.toList_append, hspaces]
  have hlong : encoding long = some (some "latin1") := by
    dsimp only [encoding]
    rw [Markup.parse_eq, hchars]
    decide +kernel
  exact ⟨hlong, by decide +kernel⟩

end Encoding

end MarkupFields
