import MarkupFields.Markup.Prolog
import MarkupFields.Proofs.Markup.Runs

/-
  The characters of an XML declaration that was read. Its parts stand one after the other: the version,
  the encoding if there is one, the word on external declarations if there is one. Values without a line
  feed are in the text as they were read. No part holds a question mark, so the declaration ends at the
  first end mark of an instruction; and none but the one that names the encoding holds a c, so the word
  for it stands nowhere else (`declaration_eq_ok`).
-/

namespace MarkupFields.Scan

open Text

/-! ## Values as they stand -/

/-- A run without a line feed in it was read as it stands, up to its end mark. -/
theorem run_plain {front : List Char → Front} {mark cs v rest : List Char} (he : EndsAt front mark)
    (hne : mark ≠ []) (hm : '\n' ∉ mark) (hv : '\n' ∉ v) (h : run front cs = .ok (v, rest)) :
    cs = v ++ mark ++ rest := by
  induction cs generalizing v with
  | nil =>
    rcases run_eq_ok h with ⟨rfl, hends⟩ | ⟨c, next, first, more, hc, -⟩
    · exact he _ _ hends
    · cases hc
  | cons c cs ih =>
    rcases run_eq_ok h with ⟨rfl, hends⟩ | ⟨d, next, first, more, hc, -, hfirst, hmore, rfl⟩
    · exact he _ _ hends
    · rw [List.cons.injEq] at hc
      obtain ⟨rfl, rfl⟩ := hc
      rw [List.mem_append, not_or] at hv
      rcases contribution_eq_ok hfirst with ⟨rfl, -⟩ | ⟨rfl, -⟩ | ⟨rfl, -, hn⟩
      · rw [ih hv.2 hmore, List.singleton_append, List.cons_append, List.cons_append]
      · exact absurd List.mem_cons_self hv.1
      · -- a carriage return that counts for nothing stands before a line feed, which counts
        have he' : EndsAt front (mark ++ []) := by rwa [List.append_nil]
        obtain ⟨x, xs, hx⟩ := List.exists_cons_of_ne_nil (List.append_ne_nil_of_right_ne_nil more hne)
        have hfront : x :: xs <+: more ++ mark := hx ▸ List.prefix_refl (more ++ mark)
        have hline := head_of_run he' hn hmore hfront
        have hmem : '\n' ∈ more ++ mark := by
          rw [hx, hline]
          exact List.mem_cons_self
        rcases List.mem_append.1 hmem with hmem | hmem
        · exact absurd hmem hv.2
        · exact absurd hmem hm

theorem exists_skipSpace (cs : List Char) :
    ∃ s, cs = s ++ skipSpace cs ∧ ∀ c ∈ s, isMarkupSpace c = true :=
  ⟨cs.takeWhile isMarkupSpace, List.takeWhile_append_dropWhile.symm,
    List.all_eq_true.1 List.all_takeWhile⟩

theorem notMem_of_spaces {s : List Char} (h : ∀ c ∈ s, isMarkupSpace c = true) {x : Char}
    (hx : isMarkupSpace x = false) : x ∉ s := by
  intro hm
  rw [h x hm] at hx
  cases hx

/-- The text assigns the value: an equals sign and the value in quotes, with space before either. -/
def Assigns (text v : List Char) : Prop :=
  ∃ s s' q, text = s ++ '=' :: (s' ++ q :: (v ++ [q])) ∧ (∀ c ∈ s, isMarkupSpace c = true) ∧
    (∀ c ∈ s', isMarkupSpace c = true) ∧ (q = '"' ∨ q = '\'') ∧ q ∉ v

/-- A character that is no space, no equals sign, no quote and not in the value is not in the text. -/
theorem Assigns.notMem {text v : List Char} (h : Assigns text v) {x : Char}
    (hs : isMarkupSpace x = false) (hx : x ∉ ['=', '"', '\'']) (hv : x ∉ v) : x ∉ text := by
  obtain ⟨s, s', q, rfl, hs1, hs2, hq, -⟩ := h
  have hquote : x ≠ q := by
    rintro rfl
    rcases hq with rfl | rfl
    · exact hx (by decide)
    · exact hx (by decide)
  have hequals : x ≠ '=' := by
    rintro rfl
    exact hx (by decide)
  simp only [List.mem_append, List.mem_cons, List.not_mem_nil, not_or, or_false]
  exact ⟨notMem_of_spaces hs1 hs, hequals, notMem_of_spaces hs2 hs, hquote, hv, hquote⟩

/-- Such a character is not in an assignment to a word either, with space before the word. -/
theorem Assigns.notMem_named {s word text v : List Char} (hs : ∀ c ∈ s, isMarkupSpace c = true)
    (h : Assigns text v) {x : Char} (hx : isMarkupSpace x = false) (hmark : x ∉ ['=', '"', '\''])
    (hword : x ∉ word) (hv : x ∉ v) : x ∉ s ++ word ++ text := by
  rw [List.mem_append, List.mem_append, not_or, not_or]
  exact ⟨⟨notMem_of_spaces hs hx, hword⟩, h.notMem hx hmark hv⟩

theorem quoted_eq_ok {cs v rest : List Char} (h : quoted cs = .ok (v, rest)) (hv : '\n' ∉ v) :
    ∃ q, cs = q :: (v ++ [q]) ++ rest ∧ (q = '"' ∨ q = '\'') ∧ q ∉ v := by
  unfold quoted at h
  split at h
  · cases h
  · rename_i q inside
    split at h
    · rename_i hq
      have hline : '\n' ∉ [q] := by
        rcases hq with rfl | rfl <;> decide
      have hinside := run_plain (endsAt_upTo [q] _) (List.cons_ne_nil q []) hline hv h
      have hend := (ended_of_run (u := []) (z := q) hline h).2
      rw [List.append_nil, List.nil_append] at hend
      refine ⟨q, by rw [hinside]; rfl, hq, fun hmem => hend ?_⟩
      obtain ⟨a, b, rfl⟩ := List.append_of_mem hmem
      exact ⟨a, b, by rw [List.append_assoc]; rfl⟩
    · cases h

theorem assigned_eq_ok {cs v rest : List Char} (h : assigned cs = .ok (v, rest)) (hv : '\n' ∉ v) :
    ∃ text, cs = text ++ rest ∧ Assigns text v := by
  unfold assigned at h
  obtain ⟨next, hequals, h⟩ := bind_eq_ok.1 h
  rw [expect_eq_ok_iff] at hequals
  obtain ⟨s, hs, hs1⟩ := exists_skipSpace cs
  obtain ⟨s', hs', hs2⟩ := exists_skipSpace next
  obtain ⟨q, hquoted, hq, hmem⟩ := quoted_eq_ok h hv
  refine ⟨s ++ '=' :: (s' ++ q :: (v ++ [q])), ?_, s, s', q, rfl, hs1, hs2, hq, hmem⟩
  rw [hequals, hs', hquoted] at hs
  rw [hs]
  simp only [List.append_assoc, List.cons_append]

/-! ## The parts of the declaration -/

theorem notMem_of_isVersion {v : List Char} (h : isVersion v = true) {x : Char}
    (hd : x.isDigit = false) (hx : x ≠ '.') : x ∉ v := by
  unfold isVersion at h
  split at h
  · rename_i minor
    rw [Bool.and_eq_true, List.all_eq_true] at h
    rw [List.mem_cons, List.mem_cons, not_or, not_or]
    refine ⟨?_, hx, fun hm => ?_⟩
    · rintro rfl
      cases hd
    · rw [h.2 x hm] at hd
      cases hd
  · cases h

theorem notMem_of_isEncodingName {v : List Char} (h : isEncodingName v = true) {x : Char}
    (ha : x.isAlphanum = false) (hx : x ∉ ['.', '_', '-']) : x ∉ v := by
  unfold isEncodingName at h
  split at h
  · cases h
  · rename_i c cs
    rw [Bool.and_eq_true, List.all_eq_true] at h
    simp only [List.mem_cons, List.not_mem_nil, or_false, not_or] at hx
    rw [List.mem_cons, not_or]
    refine ⟨?_, fun hm => ?_⟩
    · rintro rfl
      rw [Char.isAlphanum, h.1] at ha
      cases ha
    · have := h.2 x hm
      simp only [ha, Bool.false_or, Bool.or_eq_true, beq_iff_eq] at this
      rcases this with (rfl | rfl) | rfl
      · exact hx.1 rfl
      · exact hx.2.1 rfl
      · exact hx.2.2 rfl

/-- The version is one part of the text, with neither a question mark nor a c in it. -/
theorem versionPart_eq_ok {cs v rest : List Char} (h : versionPart cs = .ok (v, rest)) :
    ∃ text, cs = text ++ rest ∧ '?' ∉ text ∧ 'c' ∉ text := by
  unfold versionPart at h
  obtain ⟨next, hword, h⟩ := bind_eq_ok.1 h
  obtain ⟨⟨v', rest'⟩, hvalue, h⟩ := bind_eq_ok.1 h
  rw [expectAll_eq_ok_iff] at hword
  dsimp only at h
  split at h
  · rename_i hversion
    rw [Except.ok.injEq, Prod.mk.injEq] at h
    obtain ⟨rfl, rfl⟩ := h
    obtain ⟨s, hs, hspace⟩ := exists_skipSpace cs
    obtain ⟨text, htext, hassigns⟩ :=
      assigned_eq_ok hvalue (notMem_of_isVersion hversion (by decide) (by decide))
    refine ⟨s ++ versionWord ++ text, ?_, ?_, ?_⟩
    · rw [hs, hword, htext]
      simp only [List.append_assoc]
    · exact hassigns.notMem_named hspace (by decide) (by decide) (by decide)
        (notMem_of_isVersion hversion (by decide) (by decide))
    · exact hassigns.notMem_named hspace (by decide) (by decide) (by decide)
        (notMem_of_isVersion hversion (by decide) (by decide))
  · cases h

/-- A word that stands after space: the space is not empty. -/
theorem spacedWord?_eq_some {word cs rest : List Char} (h : spacedWord? word cs = some rest) :
    ∃ s y, cs = s ++ [y] ++ word ++ rest ∧ ∀ c ∈ s ++ [y], isMarkupSpace c = true := by
  unfold spacedWord? startsWithSpace at h
  split at h
  · rename_i hstarts
    rw [after?_eq_some_iff] at h
    cases cs with
    | nil => cases hstarts
    | cons c cs =>
      have hc : isMarkupSpace c = true := hstarts
      obtain ⟨s, hs, hspace⟩ := exists_skipSpace cs
      have hskip : skipSpace (c :: cs) = skipSpace cs := List.dropWhile_cons_of_pos hc
      have hlast := List.dropLast_concat_getLast (List.cons_ne_nil c s)
      refine ⟨(c :: s).dropLast, (c :: s).getLast (List.cons_ne_nil c s), ?_, ?_⟩
      · rw [hlast, List.append_assoc, ← h, hskip, List.cons_append, ← hs]
      · rw [hlast]
        intro d hd
        rcases List.mem_cons.1 hd with rfl | hd
        · exact hc
        · exact hspace d hd
  · cases h

/-- The word on external declarations has neither a question mark nor a c in it. -/
theorem standalonePart_eq_ok {cs rest : List Char} {s : Option Bool}
    (h : standalonePart cs = .ok (s, rest)) : ∃ text, cs = text ++ rest ∧ '?' ∉ text ∧ 'c' ∉ text := by
  unfold standalonePart at h
  split at h
  · rw [Except.ok.injEq, Prod.mk.injEq] at h
    exact ⟨[], h.2, List.not_mem_nil, List.not_mem_nil⟩
  · rename_i next hword
    obtain ⟨⟨v, rest'⟩, hvalue, h⟩ := bind_eq_ok.1 h
    obtain ⟨front, y, hfront, hspace⟩ := spacedWord?_eq_some hword
    have hv : rest' = rest ∧ (v = ['y', 'e', 's'] ∨ v = ['n', 'o']) := by
      dsimp only at h
      split at h
      · rename_i hyes
        rw [Except.ok.injEq, Prod.mk.injEq] at h
        exact ⟨h.2, .inl hyes⟩
      · split at h
        · rename_i hno
          rw [Except.ok.injEq, Prod.mk.injEq] at h
          exact ⟨h.2, .inr hno⟩
        · cases h
    obtain ⟨rfl, hv⟩ := hv
    have hplain : ∀ x ∈ ['\n', '?', 'c'], x ∉ v := by
      rcases hv with rfl | rfl <;> simp
    obtain ⟨text, htext, hassigns⟩ := assigned_eq_ok hvalue (hplain _ (by decide))
    refine ⟨front ++ [y] ++ standaloneWord ++ text, ?_, ?_, ?_⟩
    · rw [hfront, htext]
      simp only [List.append_assoc]
    · exact hassigns.notMem_named hspace (by decide) (by decide) (by decide)
        (hplain _ (by decide))
    · exact hassigns.notMem_named hspace (by decide) (by decide) (by decide)
        (hplain _ (by decide))

/-- What names the encoding: nothing, or the word after space and the value that is assigned. -/
inductive EncodingText : Option String → List Char → Prop
  | absent : EncodingText none []
  | named {s text e : List Char} {y : Char} (space : ∀ c ∈ s ++ [y], isMarkupSpace c = true)
      (assigns : Assigns text e) (name : isEncodingName e = true) :
      EncodingText (some (String.ofList e)) (s ++ [y] ++ encodingWord ++ text)

theorem encodingPart_eq_ok {cs rest : List Char} {e : Option String}
    (h : encodingPart cs = .ok (e, rest)) : ∃ text, cs = text ++ rest ∧ EncodingText e text := by
  unfold encodingPart at h
  split at h
  · rw [Except.ok.injEq, Prod.mk.injEq] at h
    obtain ⟨rfl, rfl⟩ := h
    exact ⟨[], rfl, .absent⟩
  · rename_i next hword
    obtain ⟨⟨v, rest'⟩, hvalue, h⟩ := bind_eq_ok.1 h
    obtain ⟨s, y, hs, hspace⟩ := spacedWord?_eq_some hword
    dsimp only at h
    split at h
    · rename_i hname
      rw [Except.ok.injEq, Prod.mk.injEq] at h
      obtain ⟨rfl, rfl⟩ := h
      obtain ⟨text, htext, hassigns⟩ :=
        assigned_eq_ok hvalue (notMem_of_isEncodingName hname (by decide) (by decide))
      refine ⟨_, ?_, .named hspace hassigns hname⟩
      rw [hs, htext]
      simp only [List.append_assoc]
    · cases h

theorem EncodingText.notMem {e : Option String} {text : List Char} (h : EncodingText e text) :
    '?' ∉ text := by
  cases h with
  | absent => exact List.not_mem_nil
  | named hspace hassigns hname =>
    exact hassigns.notMem_named hspace (by decide) (by decide) (by decide)
      (notMem_of_isEncodingName hname (by decide) (by decide))

/-! ## The whole declaration -/

/-- A declaration that was read: before and behind what names the encoding stands no c, and no
question mark stands anywhere up to the end mark. -/
theorem declaration_eq_ok {cs rest : List Char} {d : Declaration}
    (h : declaration cs = .ok (d, rest)) (hbody : (declarationBody? cs).isSome = true) :
    ∃ front named back, cs = declarationOpen ++ (front ++ named ++ back) ++ instructionClose ++ rest ∧
      '?' ∉ front ++ named ++ back ∧ 'c' ∉ front ∧ 'c' ∉ back ∧ EncodingText d.encoding named := by
  unfold declaration at h
  split at h
  · rename_i hnone
    rw [hnone] at hbody
    cases hbody
  · rename_i body hsome
    obtain ⟨⟨version, cs1⟩, hversion, h⟩ := bind_eq_ok.1 h
    obtain ⟨⟨encoding, cs2⟩, hencoding, h⟩ := bind_eq_ok.1 h
    obtain ⟨⟨standalone, cs3⟩, hstandalone, h⟩ := bind_eq_ok.1 h
    obtain ⟨cs4, hclose, h⟩ := bind_eq_ok.1 h
    rw [Except.ok.injEq, Prod.mk.injEq] at h
    obtain ⟨rfl, rfl⟩ := h
    have hopen : cs = declarationOpen ++ body := by
      unfold declarationBody? at hsome
      split at hsome
      · rename_i rest' hrest
        split at hsome
        · rw [after?_eq_some_iff.1 hrest, Option.some.inj hsome]
        · cases hsome
      · cases hsome
    obtain ⟨front, hfront, hfront1, hfront2⟩ := versionPart_eq_ok hversion
    obtain ⟨named, hnamed, htext⟩ := encodingPart_eq_ok hencoding
    obtain ⟨back, hback, hback1, hback2⟩ := standalonePart_eq_ok hstandalone
    obtain ⟨s, hs, hspace⟩ := exists_skipSpace cs3
    rw [expectAll_eq_ok_iff] at hclose
    refine ⟨front, named, back ++ s, ?_, ?_, hfront2, ?_, htext⟩
    · rw [hopen, hfront, hnamed, hback, hs, hclose]
      simp only [List.append_assoc]
    · simp only [List.mem_append, not_or]
      exact ⟨⟨hfront1, htext.notMem⟩, hback1, notMem_of_spaces hspace (by decide)⟩
    · rw [List.mem_append, not_or]
      exact ⟨hback2, notMem_of_spaces hspace (by decide)⟩

end MarkupFields.Scan
