import MarkupFields.Proofs.Markup.Doctype
import MarkupFields.Proofs.Markup.LineEnds

/-
  A text and the same text with its line ends made equal are read alike: both are refused, or both
  are accepted as the same markup. The readers of whole constructs keep to this since the readers of
  their parts do; only the document type declaration, which is read character by character, and the
  steps through the root element need an induction of their own.
-/

namespace MarkupFields

open Text Scan

namespace Scan

/-! ## Around the root element -/

theorem assigned_lineEnds (cs : List Char) :
    Agree (Prod.map id lineEnds) (assigned cs) (assigned (lineEnds cs)) := by
  unfold assigned
  rw [skipSpace_lineEnds]
  refine (expect_lineEnds (by decide) (by decide) _).bind fun rest => ?_
  rw [skipSpace_lineEnds]
  exact quoted_lineEnds _

theorem spacedWord?_lineEnds {word : List Char} (hr : '\r' ∉ word) (hn : '\n' ∉ word)
    (cs : List Char) : spacedWord? word (lineEnds cs) = (spacedWord? word cs).map lineEnds := by
  unfold spacedWord?
  rw [startsWithSpace_lineEnds, skipSpace_lineEnds, after?_lineEnds hr hn]
  cases startsWithSpace cs with
  | true => rfl
  | false => rfl

theorem versionPart_lineEnds (cs : List Char) :
    Agree (Prod.map id lineEnds) (versionPart cs) (versionPart (lineEnds cs)) := by
  unfold versionPart
  rw [skipSpace_lineEnds]
  refine (expectAll_lineEnds (by decide) (by decide) _).bind fun rest => ?_
  refine (assigned_lineEnds rest).bind fun v => ?_
  exact .ite Iff.rfl (.ok _) (.halt _ _ _ _)

theorem encodingPart_lineEnds (cs : List Char) :
    Agree (Prod.map id lineEnds) (encodingPart cs) (encodingPart (lineEnds cs)) := by
  unfold encodingPart
  rw [spacedWord?_lineEnds (by decide) (by decide)]
  cases spacedWord? encodingWord cs with
  | none => exact .ok (none, cs)
  | some rest =>
    refine (assigned_lineEnds rest).bind fun e => ?_
    exact .ite Iff.rfl (.ok (some (String.ofList e.1), e.2)) (.halt _ _ _ _)

theorem standalonePart_lineEnds (cs : List Char) :
    Agree (Prod.map id lineEnds) (standalonePart cs) (standalonePart (lineEnds cs)) := by
  unfold standalonePart
  rw [spacedWord?_lineEnds (by decide) (by decide)]
  cases spacedWord? standaloneWord cs with
  | none => exact .ok (none, cs)
  | some rest =>
    refine (assigned_lineEnds rest).bind fun s => ?_
    refine .ite Iff.rfl (.ok (some true, s.2)) (.ite Iff.rfl (.ok (some false, s.2)) ?_)
    exact .halt _ _ _ _

theorem declaration_lineEnds (cs : List Char) :
    Agree (Prod.map id lineEnds) (declaration cs) (declaration (lineEnds cs)) := by
  have hbody : declarationBody? (lineEnds cs) = (declarationBody? cs).map lineEnds := by
    unfold declarationBody?
    rw [after?_lineEnds (by decide) (by decide)]
    cases after? declarationOpen cs with
    | none => rfl
    | some rest =>
      dsimp only [Option.map_some]
      rw [startsWithSpace_lineEnds]
      cases startsWithSpace rest with
      | true => rfl
      | false => rfl
  unfold declaration
  rw [hbody]
  cases declarationBody? cs with
  | none => exact .ok (Declaration.absent, cs)
  | some rest =>
    refine (versionPart_lineEnds rest).bind fun version => ?_
    refine (encodingPart_lineEnds _).bind fun encoding => ?_
    refine (standalonePart_lineEnds _).bind fun standalone => ?_
    dsimp only [Prod.map_fst, Prod.map_snd, id]
    rw [skipSpace_lineEnds]
    refine (expectAll_lineEnds (by decide) (by decide) _).bind fun rest => ?_
    exact .ok (_, rest)

theorem lineEnds_commentOpen {cs inside : List Char} (h : after? commentOpen cs = some inside) :
    lineEnds cs = commentOpen ++ lineEnds inside := by
  rw [← after?_eq_some_iff, after?_lineEnds (by decide) (by decide), h, Option.map_some]

theorem doctype_lineEnds (brackets : Nat) (cs : List Char) :
    Agree lineEnds (doctype brackets cs) (doctype brackets (lineEnds cs)) := by
  fun_induction doctype brackets cs with
  | case1 brackets =>
    rw [lineEnds, doctype]
    exact .halt _ _ _ _
  | case2 brackets c next hc e he =>
    have hquoted := quoted_lineEnds (c :: next)
    rw [he] at hquoted
    have hr : c ≠ '\r' := by
      rintro rfl
      exact absurd hc (by decide)
    rw [lineEnds_cons hr] at hquoted ⊢
    rw [doctype_quote hc]
    exact hquoted.error_bind _
  | case3 brackets c next hc v rest hv ih =>
    have hquoted := quoted_lineEnds (c :: next)
    rw [hv] at hquoted
    have hr : c ≠ '\r' := by
      rintro rfl
      exact absurd hc (by decide)
    rw [lineEnds_cons hr] at hquoted ⊢
    rw [doctype_quote hc, hquoted.eq_ok, ok_bind]
    exact ih
  | case4 brackets next hc ih =>
    rw [lineEnds_cons (by decide), doctype_open]
    exact ih
  | case5 brackets next hc ho ih =>
    rw [lineEnds_cons (by decide), doctype_close]
    exact ih
  | case6 brackets c next hc ho hx hend =>
    obtain ⟨rfl, rfl⟩ := hend
    rw [lineEnds_cons (by decide), doctype_end]
    exact .ok next
  | case7 brackets c next hc ho hx hend inside hinside e he =>
    have hcomment := comment_lineEnds inside
    rw [he] at hcomment
    rw [lineEnds_commentOpen hinside, doctype_comment]
    exact hcomment.error_bind _
  | case8 brackets c next hc ho hx hend inside hinside v rest hv ih =>
    have hcomment := comment_lineEnds inside
    rw [hv] at hcomment
    rw [lineEnds_commentOpen hinside, doctype_comment, hcomment.eq_ok, ok_bind]
    exact ih
  | case9 brackets c next hc ho hx hend hnone ih =>
    have hplain : ∀ x : Except Halt (List Char), (x >>= fun r => .ok r) = x := bind_pure
    have hcomment : after? commentOpen (lineEnds (c :: next)) =
        (after? commentOpen (c :: next)).map lineEnds :=
      after?_lineEnds (by decide) (by decide) (c :: next)
    have hone := contribution_lineEnds (c := c) (fun _ r => r) (fun _ => rfl)
      (fun _ _ => rfl) (fun d hd => ?_) ih
    · simp only [hplain] at hone
      exact hone
    · rw [hnone, hd] at hcomment
      rw [hplain]
      rcases eq_or_eq_of_lineEnds_cons hd with rfl | rfl
      · exact doctype_other hc ho hx hend hcomment
      · exact doctype_other (by decide) (by decide) (by decide) (by simp) hcomment

theorem miscellany_lineEnds (o : ReadOptions) (cs : List Char) :
    Agree (Prod.map id lineEnds) (miscellany o cs) (miscellany o (lineEnds cs)) := by
  have hnext : ∀ {cs inside : List Char} {i : Item}, itemAt (skipSpace cs) = (i, inside) →
      itemAt (skipSpace (lineEnds cs)) = (i, lineEnds inside) := by
    intro cs inside i hi
    rw [skipSpace_lineEnds, itemAt_lineEnds, hi]
  fun_induction miscellany o cs with
  | case1 cs inside hitem e he =>
    have hcomment := comment_lineEnds inside
    rw [he] at hcomment
    rw [miscellany_comment (hnext hitem)]
    exact hcomment.error_bind _
  | case2 cs inside hitem v mid hv ih =>
    have hcomment := comment_lineEnds inside
    rw [hv] at hcomment
    rw [miscellany_comment (hnext hitem), hcomment.eq_ok, ok_bind]
    exact ih.bind fun more => .ok (_, more.2)
  | case3 cs inside hitem e he =>
    have hinstruction := instruction_lineEnds o.maxNameLength inside
    rw [he] at hinstruction
    rw [miscellany_instruction (hnext hitem)]
    exact hinstruction.error_bind _
  | case4 cs inside hitem p mid hp ih =>
    have hinstruction := instruction_lineEnds o.maxNameLength inside
    rw [hp] at hinstruction
    rw [miscellany_instruction (hnext hitem), hinstruction.eq_ok, ok_bind]
    exact ih.bind fun more => .ok (_, more.2)
  | case5 cs hcomment hinstruction =>
    have hnone : ∀ {i : Item}, (∀ inside, itemAt (skipSpace cs) ≠ (i, inside)) →
        ∀ inside, itemAt (skipSpace (lineEnds cs)) ≠ (i, inside) := by
      intro i hi inside h
      rw [skipSpace_lineEnds, itemAt_lineEnds, Prod.mk.injEq] at h
      exact hi (itemAt (skipSpace cs)).2 (Prod.ext h.1 rfl)
    rw [miscellany_ends (hnone hcomment) (hnone hinstruction), skipSpace_lineEnds]
    exact .ok (_, skipSpace cs)

theorem afterDoctype_lineEnds (o : ReadOptions) (cs : List Char) :
    Agree (Prod.map id lineEnds) (afterDoctype o cs) (afterDoctype o (lineEnds cs)) := by
  unfold afterDoctype
  rw [after?_lineEnds (by decide) (by decide)]
  cases after? doctypeOpen cs with
  | none => exact .ok (_, cs)
  | some rest => exact (doctype_lineEnds 0 rest).bind fun rest => miscellany_lineEnds o rest

end Scan

/-! ## The root element -/

/-- The same state of reading, with the line ends of the rest made equal. -/
def ReadState.withLineEnds (s : ReadState) : ReadState :=
  { s with rest := Scan.lineEnds s.rest }

/-- The same progress, with the line ends of the rest made equal. -/
def ReadProgress.withLineEnds : ReadProgress → ReadProgress
  | going s => .going s.withLineEnds
  | complete root rest => .complete root (Scan.lineEnds rest)

namespace ReadState

theorem place_lineEnds (t : ContentTree) (used : Nat) (rest : List Char)
    (around : List OpenElement) :
    place t used (lineEnds rest) around = (place t used rest around).withLineEnds := by
  cases around with
  | nil => rfl
  | cons e enclosing => rfl

theorem openElement_lineEnds (o : ReadOptions) (around : List OpenElement) (used : Nat)
    (cs : List Char) :
    Agree ReadProgress.withLineEnds (openElement o around used cs)
      (openElement o around used (lineEnds cs)) := by
  refine (startTag_lineEnds o (scopeIn around) used cs).bind fun tag => ?_
  obtain ⟨⟨scope, e⟩, used', rest⟩ := tag
  dsimp only [Prod.map_apply, id]
  rw [after?_lineEnds (by decide) (by decide)]
  cases after? ['/', '>'] rest with
  | some rest =>
    dsimp only [Option.map_some]
    rw [place_lineEnds]
    exact .ok _
  | none =>
    refine (expect_lineEnds (by decide) (by decide) rest).bind fun rest => ?_
    exact .ok (ReadProgress.going ⟨⟨e, scope, []⟩, around, used', rest⟩)

theorem nestElement_lineEnds (o : ReadOptions) (around : List OpenElement) (used : Nat)
    (whole cs : List Char) :
    Agree ReadProgress.withLineEnds (nestElement o around used whole cs)
      (nestElement o around used (lineEnds whole) (lineEnds cs)) :=
  .ite Iff.rfl (.halt _ _ _ _) (openElement_lineEnds o around used cs)

theorem closeElement_lineEnds (o : ReadOptions) (s : ReadState) (cs : List Char) :
    Agree ReadProgress.withLineEnds (s.closeElement o cs)
      (s.withLineEnds.closeElement o (lineEnds cs)) := by
  refine (name_lineEnds o.maxNameLength cs).bind fun word => .ite Iff.rfl (.halt _ _ _ _) ?_
  show Agree _ _ (expect '>' (skipSpace (lineEnds word.2)) >>= _)
  rw [skipSpace_lineEnds]
  refine (expect_lineEnds (by decide) (by decide) _).bind fun rest => ?_
  rw [place_lineEnds]
  exact .ok _

theorem step_lineEnds (o : ReadOptions) (s : ReadState) :
    Agree ReadProgress.withLineEnds (s.step o) (s.withLineEnds.step o) := by
  unfold step
  rw [show s.withLineEnds.rest = lineEnds s.rest from rfl, itemAt_lineEnds]
  obtain ⟨i, cs⟩ := itemAt s.rest
  cases i with
  | nothing => exact .halt _ _ _ _
  | endTag => exact closeElement_lineEnds o s cs
  | cdata =>
    refine (cdata_lineEnds cs).bind fun r => ?_
    exact .ok (ReadProgress.going { s with innermost := _, rest := r.2 })
  | comment =>
    refine (comment_lineEnds cs).bind fun r => ?_
    exact .ok (ReadProgress.going { s with innermost := _, rest := r.2 })
  | instruction =>
    refine (instruction_lineEnds o.maxNameLength cs).bind fun r => ?_
    exact .ok (ReadProgress.going { s with innermost := _, rest := r.2 })
  | startTag => exact nestElement_lineEnds o (s.innermost :: s.enclosing) s.used s.rest cs
  | text =>
    refine (referencedRun_lineEnds o ignoresLineEnds_textFront id s.used s.rest).bind fun r => ?_
    exact .ok (ReadProgress.going { s with innermost := _, used := r.2.1, rest := r.2.2 })

theorem run_lineEnds (o : ReadOptions) (s : ReadState) :
    Agree (Prod.map id lineEnds) (s.run o) (s.withLineEnds.run o) := by
  rw [run_eq s.withLineEnds]
  fun_induction run o s with
  | case1 s e he =>
    have hstep := step_lineEnds o s
    rw [he] at hstep
    exact hstep.error_bind _
  | case2 s root rest hs =>
    have hstep := step_lineEnds o s
    rw [hs] at hstep
    rw [hstep.eq_ok, ok_bind]
    exact .ok (root, rest)
  | case3 s s' hs ih =>
    have hstep := step_lineEnds o s
    rw [hs] at hstep
    rw [hstep.eq_ok, ok_bind]
    show Agree _ (s'.run o) (s'.withLineEnds.run o)
    rw [run_eq s'.withLineEnds]
    exact ih

end ReadState

namespace Scan

theorem rootElement_missing {o : ReadOptions} {cs : List Char}
    (h : ∀ c rest, cs ≠ '<' :: c :: rest) : rootElement o cs = haltAt .missingRoot cs := by
  unfold rootElement
  split
  · exact absurd rfl (h _ _)
  · rfl

theorem rootElement_lineEnds (o : ReadOptions) (cs : List Char) :
    Agree (Prod.map id lineEnds) (rootElement o cs) (rootElement o (lineEnds cs)) := by
  by_cases hcs : ∃ c rest, cs = '<' :: c :: rest
  · obtain ⟨c, rest, rfl⟩ := hcs
    have hwhole := lineEnds_cons (c := '<') (by decide) (c :: rest)
    by_cases hc : c = '!' ∨ c = '?'
    · have hr : c ≠ '\r' := by
        rintro rfl
        exact absurd hc (by decide)
      rw [hwhole, lineEnds_cons hr, rootElement, rootElement, if_pos hc, if_pos hc]
      exact .halt _ _ _ _
    · have hnest := ReadState.nestElement_lineEnds o [] 0 ('<' :: c :: rest) (c :: rest)
      cases htail : lineEnds (c :: rest) with
      | nil =>
        have hempty := isEmpty_lineEnds (c :: rest)
        rw [htail] at hempty
        cases hempty
      | cons d tail =>
        have hd : ¬ (d = '!' ∨ d = '?') := by
          rcases eq_or_eq_of_lineEnds_cons htail with rfl | rfl
          · exact hc
          · decide
        rw [hwhole, htail] at hnest ⊢
        rw [rootElement_nested hc, rootElement_nested hd]
        refine hnest.bind fun p => ?_
        cases p with
        | going s => exact ReadState.run_lineEnds o s
        | complete root rest => exact .ok (root, rest)
  · have hends : ∀ c rest, lineEnds cs ≠ '<' :: c :: rest := by
      intro c rest h
      cases cs with
      | nil => cases h
      | cons d ds =>
        rcases eq_or_eq_of_lineEnds_cons h with rfl | hd
        · rw [lineEnds_cons (by decide), List.cons.injEq] at h
          cases ds with
          | nil => cases h.2
          | cons d ds => exact hcs ⟨d, ds, rfl⟩
        · exact absurd hd (by decide)
    rw [rootElement_missing hends, rootElement_missing fun c rest h => hcs ⟨c, rest, h⟩]
    exact .halt _ _ _ _

theorem skipMark_lineEnds (cs : List Char) : skipMark (lineEnds cs) = lineEnds (skipMark cs) := by
  unfold skipMark
  cases cs with
  | nil => rfl
  | cons c cs =>
    by_cases hc : c = '\r'
    · subst hc
      obtain ⟨tail, h⟩ := exists_lineEnds_return cs
      rw [h, if_neg (by simp), if_neg (by simp), h]
    · rw [lineEnds_cons hc, List.head?_cons, List.head?_cons]
      split
      · rfl
      · rw [lineEnds_cons hc]

/-- A document is read alike whatever its line ends are. -/
theorem document_lineEnds (o : ReadOptions) (cs : List Char) :
    Agree id (document o cs) (document o (lineEnds cs)) := by
  unfold document
  rw [skipMark_lineEnds]
  refine (declaration_lineEnds _).bind fun d => ?_
  refine (miscellany_lineEnds o _).bind fun before => ?_
  refine (afterDoctype_lineEnds o _).bind fun between => ?_
  refine (rootElement_lineEnds o _).bind fun root => ?_
  refine (miscellany_lineEnds o _).bind fun behind => ?_
  refine .ite ?_ (.ok _) (.halt _ _ _ _)
  exact iff_of_eq (congrArg (· = true) (isEmpty_lineEnds behind.2).symm)

end Scan

/-- A text with its line ends made equal is accepted exactly if the text is, as the same markup. -/
theorem Markup.parse_lineEnds (o : ReadOptions) (t : String) (m : Markup) :
    Markup.parse o (String.ofList (lineEnds t.toList)) = .ok m ↔ Markup.parse o t = .ok m := by
  rw [parse_eq_ok, parse_eq_ok, String.toList_ofList, (Scan.document_lineEnds o t.toList).eq_ok_iff]
  exact exists_eq_right

example : lineEnds "a\r\nb\rc\n\rd".toList = "a\nb\nc\n\nd".toList := by decide

end MarkupFields
