import MarkupFields.Proofs.Markup.WellFormed
import MarkupFields.Proofs.Tree.Outline

/-
  Reading that drops blank text against reading that keeps it. Whether blank text is dropped is asked
  at one place, where character data becomes a node; the way through the text does not depend on it.
  So the two readings take the same steps over the same states but for the blank texts, stop at the
  same places with the same faults, and what the one reads is what the other reads without the blank
  texts (`Markup.parse_dropping`). Text is a leaf, so node by node nothing but these texts is missing
  (`Markup.parse_dropping_outline`).
-/

namespace MarkupFields

open Text Scan

/-- The same choices and limits, but blank text is dropped. -/
def ReadOptions.dropping (o : ReadOptions) : ReadOptions :=
  { o with dropBlanks := true }

/-- The same choices and limits, but blank text is kept. -/
def ReadOptions.keeping (o : ReadOptions) : ReadOptions :=
  { o with dropBlanks := false }

/-! ## Blank texts left out -/

theorem Render.isBlankText_ofList (cs : List Char) :
    isBlankText (.text (String.ofList cs)) = allBlank cs :=
  congrArg allBlank String.toList_ofList

/-- The forest without blank texts. -/
def Forest.withoutBlanks (f : Forest Content) : Forest Content :=
  f.erase Render.isBlankText

namespace Forest

variable {α : Type}

theorem erase_ofTrees (p : α → Bool) (ts : List (α × Forest α)) :
    (ofTrees ts).erase p =
      ofTrees ((ts.filter fun t => !p t.1).map fun t => (t.1, t.2.erase p)) := by
  induction ts with
  | nil => rfl
  | cons t ts ih =>
    rw [ofTrees, erase, ih]
    by_cases h : p t.1 = true
    · rw [if_pos h, List.filter_cons_of_neg (by simp [h])]
    · rw [if_neg h, List.filter_cons_of_pos (by simp [h]), List.map_cons, ofTrees]

theorem erase_append (p : α → Bool) (f g : Forest α) :
    (f ++ g).erase p = f.erase p ++ g.erase p := by
  induction f with
  | nil => rfl
  | cons a below beside _ ih =>
    rw [cons_append, erase, erase, ih]
    split
    · rfl
    · rfl

end Forest

theorem Forest.withoutBlanks_append (f g : Forest Content) :
    (f ++ g).withoutBlanks = f.withoutBlanks ++ g.withoutBlanks :=
  erase_append _ f g

theorem Forest.withoutBlanks_element (e : Element) (below beside : Forest Content) :
    withoutBlanks (.cons (.element e) below beside) =
      .cons (.element e) below.withoutBlanks beside.withoutBlanks := rfl

/-- The tree without blank texts below its root. -/
def ContentTree.withoutBlanks (t : ContentTree) : ContentTree :=
  (t.1, t.2.withoutBlanks)

/-- The markup without blank texts. -/
def Markup.withoutBlanks (m : Markup) : Markup :=
  ⟨m.declaration, m.top.withoutBlanks⟩

/-- The open element without the blank texts inside it. -/
def OpenElement.withoutBlanks (e : OpenElement) : OpenElement :=
  ⟨e.element, e.scope,
    (e.complete.filter fun t => !Render.isBlankText t.1).map ContentTree.withoutBlanks⟩

namespace OpenElement

theorem withoutBlanks_add (e : OpenElement) {t : ContentTree}
    (h : Render.isBlankText t.1 = false) :
    (e.add t).withoutBlanks = e.withoutBlanks.add (ContentTree.withoutBlanks t) := by
  unfold withoutBlanks add
  rw [List.filter_cons_of_pos (by simp [h]), List.map_cons]

theorem withoutBlanks_tree (e : OpenElement) :
    ContentTree.withoutBlanks e.tree = e.withoutBlanks.tree := by
  unfold tree ContentTree.withoutBlanks withoutBlanks Forest.withoutBlanks
  rw [Forest.erase_ofTrees, List.filter_reverse, List.map_reverse]
  rfl

/-- Character data that is kept and then left out, or dropped at once. -/
theorem withoutBlanks_addText (o : ReadOptions) (e : OpenElement) (cs : List Char) :
    (e.addText o.keeping cs).withoutBlanks = e.withoutBlanks.addText o.dropping cs := by
  have hblank := Render.isBlankText_ofList cs
  unfold addText ReadOptions.keeping ReadOptions.dropping
  rw [Bool.false_and, Bool.or_false, Bool.true_and]
  cases cs.isEmpty with
  | true => rfl
  | false =>
    rw [Bool.false_or, if_neg Bool.false_ne_true]
    cases hall : allBlank cs with
    | true =>
      rw [if_pos rfl]
      unfold addLeaf add withoutBlanks
      rw [List.filter_cons_of_neg (by simp [hblank, hall])]
    | false =>
      rw [if_neg Bool.false_ne_true]
      exact withoutBlanks_add e (hblank.trans hall)

end OpenElement

/-- The state without blank texts. -/
def ReadState.withoutBlanks (s : ReadState) : ReadState :=
  ⟨s.innermost.withoutBlanks, s.enclosing.map OpenElement.withoutBlanks, s.used, s.rest⟩

/-- What a step comes to, without blank texts. -/
def ReadProgress.withoutBlanks : ReadProgress → ReadProgress
  | .going s => .going s.withoutBlanks
  | .complete root rest => .complete (ContentTree.withoutBlanks root) rest

theorem ReadState.scopeIn_withoutBlanks (around : List OpenElement) :
    scopeIn (around.map OpenElement.withoutBlanks) = scopeIn around := by
  cases around with
  | nil => rfl
  | cons e around => rfl

/-- An element that is complete is no blank text. -/
theorem ReadState.withoutBlanks_place {t : ContentTree} (h : Render.isBlankText t.1 = false)
    (used : Nat) (rest : List Char) (around : List OpenElement) :
    (place t used rest around).withoutBlanks =
      place (ContentTree.withoutBlanks t) used rest (around.map OpenElement.withoutBlanks) := by
  cases around with
  | nil => rfl
  | cons e around =>
    show ReadProgress.going ⟨(e.add t).withoutBlanks, _, _, _⟩ = _
    rw [OpenElement.withoutBlanks_add e h]
    rfl

/-! ## The root element -/

namespace ReadState

variable (o : ReadOptions)

theorem openElement_dropping (around : List OpenElement) (used : Nat) (cs : List Char) :
    openElement o.dropping (around.map OpenElement.withoutBlanks) used cs =
      (openElement o.keeping around used cs).map ReadProgress.withoutBlanks := by
  unfold openElement
  rw [scopeIn_withoutBlanks,
    startTag_congr (o := o.keeping) (q := o.dropping) rfl rfl rfl (scopeIn around) used cs]
  cases startTag o.keeping (scopeIn around) used cs with
  | error e => rfl
  | ok tag =>
    rw [ok_bind, ok_bind]
    dsimp only
    split
    · rw [Except.map, withoutBlanks_place rfl]
      rfl
    · cases expect '>' tag.2.2 with
      | error e => rfl
      | ok rest => rfl

theorem nestElement_dropping (around : List OpenElement) (used : Nat) (whole cs : List Char) :
    nestElement o.dropping (around.map OpenElement.withoutBlanks) used whole cs =
      (nestElement o.keeping around used whole cs).map ReadProgress.withoutBlanks := by
  unfold nestElement
  rw [List.length_map, openElement_dropping, show o.dropping.maxDepth = o.keeping.maxDepth from rfl]
  split
  · rfl
  · rfl

theorem closeElement_dropping (s : ReadState) (cs : List Char) :
    s.withoutBlanks.closeElement o.dropping cs =
      (s.closeElement o.keeping cs).map ReadProgress.withoutBlanks := by
  unfold closeElement
  show name o.maxNameLength cs >>= _ = Except.map _ (name o.maxNameLength cs >>= _)
  cases name o.maxNameLength cs with
  | error e => rfl
  | ok word =>
    rw [ok_bind, ok_bind]
    dsimp only
    show (if String.ofList word.1 ≠ s.innermost.element.name.written then _ else _) = _
    split
    · rfl
    · cases expect '>' (skipSpace word.2) with
      | error e => rfl
      | ok rest =>
        rw [ok_bind, ok_bind, Except.map, withoutBlanks_place rfl, OpenElement.withoutBlanks_tree]
        rfl

/-- A step from the state without blank texts that drops blank text comes to the same, or stops with
the same fault. -/
theorem step_dropping (s : ReadState) :
    s.withoutBlanks.step o.dropping = (s.step o.keeping).map ReadProgress.withoutBlanks := by
  unfold step
  rw [show s.withoutBlanks.rest = s.rest from rfl]
  split
  · rfl
  · exact closeElement_dropping o s _
  · rename_i cs hitem
    cases cdata cs with
    | error e => rfl
    | ok r => rfl
  · rename_i cs hitem
    cases comment cs with
    | error e => rfl
    | ok r => rfl
  · rename_i cs hitem
    show instruction o.maxNameLength cs >>= _ =
      Except.map _ (instruction o.maxNameLength cs >>= _)
    cases instruction o.maxNameLength cs with
    | error e => rfl
    | ok r => rfl
  · exact nestElement_dropping o (s.innermost :: s.enclosing) s.used s.rest _
  · show characterData o.dropping s.used s.rest >>= _ = _
    unfold characterData
    rw [referencedRun_congr (o := o.keeping) (q := o.dropping) rfl rfl]
    cases referencedRun o.keeping textFront id s.used s.rest with
    | error e => rfl
    | ok r =>
      rw [ok_bind, ok_bind, Except.map]
      dsimp only [ReadProgress.withoutBlanks, ReadState.withoutBlanks]
      rw [OpenElement.withoutBlanks_addText]

theorem run_dropping (s : ReadState) :
    s.withoutBlanks.run o.dropping =
      (s.run o.keeping).map fun r => (ContentTree.withoutBlanks r.1, r.2) := by
  fun_induction run o.keeping s with
  | case1 s e hstep =>
    rw [run_eq, step_dropping, hstep]
    rfl
  | case2 s root rest hstep =>
    rw [run_eq, step_dropping, hstep]
    rfl
  | case3 s s' hstep ih =>
    rw [run_eq, step_dropping, hstep]
    exact ih

end ReadState

/-! ## Documents -/

/-- Around the root element there is no text. -/
theorem Forest.Miscellaneous.withoutBlanks {f : Forest Content} (h : f.Miscellaneous) :
    f.withoutBlanks = f := by
  unfold Forest.withoutBlanks
  induction f with
  | nil => rfl
  | cons c below beside _ ih =>
    obtain ⟨⟨hc, -, rfl⟩, hrest⟩ := h
    have hkept : ¬ Render.isBlankText c = true := by
      cases c with
      | text s => cases hc
      | _ => exact Bool.false_ne_true
    rw [erase, if_neg hkept, ih hrest, erase]

namespace Scan

variable (o : ReadOptions)

theorem rootElement_dropping (cs : List Char) :
    rootElement o.dropping cs =
      (rootElement o.keeping cs).map fun r => (ContentTree.withoutBlanks r.1, r.2) := by
  unfold rootElement
  split
  · rename_i c rest
    split
    · rfl
    · have hnest := ReadState.nestElement_dropping o [] 0 ('<' :: c :: rest) (c :: rest)
      rw [List.map_nil] at hnest
      rw [hnest]
      cases ReadState.nestElement o.keeping [] 0 ('<' :: c :: rest) (c :: rest) with
      | error e => rfl
      | ok p =>
        cases p with
        | complete root rest' => rfl
        | going s => exact ReadState.run_dropping o s
  · rfl

/-- The root is an element, whatever the limits. -/
theorem isElement_of_rootElement {cs rest : List Char} {root : ContentTree}
    (h : rootElement o cs = .ok (root, rest)) : ∃ e, root.1 = .element e := by
  let o' : ReadOptions := { o with maxNameLength := max 4 o.maxNameLength }
  have ho : o.Allows o' :=
    ⟨rfl, rfl, Nat.le_refl _, Nat.le_max_right 4 o.maxNameLength, Nat.le_refl _⟩
  obtain ⟨e, he, -⟩ := soundProgress_of_rootElement (o := o') (Nat.le_max_left 4 _)
    (rootElement_of_allows ho h)
  exact ⟨e, he⟩

theorem document_dropping (cs : List Char) :
    document o.dropping cs = (document o.keeping cs).map Markup.withoutBlanks := by
  unfold document
  cases declaration (skipMark cs) with
  | error e => rfl
  | ok d =>
    simp only [ok_bind]
    rw [miscellany_congr (o := o.keeping) (q := o.dropping) rfl]
    cases hbefore : miscellany o.keeping d.2 with
    | error e => rfl
    | ok before =>
      simp only [ok_bind]
      rw [afterDoctype_congr (o := o.keeping) (q := o.dropping) rfl]
      cases hbetween : afterDoctype o.keeping before.2 with
      | error e => rfl
      | ok between =>
        simp only [ok_bind]
        rw [rootElement_dropping]
        cases hroot : rootElement o.keeping between.2 with
        | error e => rfl
        | ok root =>
          simp only [Except.map, ok_bind]
          rw [miscellany_congr (o := o.keeping) (q := o.dropping) rfl]
          cases hbehind : miscellany o.keeping root.2 with
          | error e => rfl
          | ok behind =>
            obtain ⟨e, he⟩ := isElement_of_rootElement o.keeping hroot
            simp only [ok_bind]
            split
            · unfold Markup.withoutBlanks ContentTree.withoutBlanks
              simp only [Forest.withoutBlanks_append, he, Forest.withoutBlanks_element,
                (soundMiscellany_of_miscellany hbefore).1.withoutBlanks,
                (soundMiscellany_of_afterDoctype hbetween).1.withoutBlanks,
                (soundMiscellany_of_miscellany hbehind).1.withoutBlanks]
            · rfl

end Scan

/-- What is read with blank text dropped is what is read with it, without the blank texts; and if the
one reading fails, the other does, with the same error. -/
theorem Markup.parse_dropping (o : ReadOptions) (t : String) :
    Markup.parse o.dropping t = (Markup.parse o.keeping t).map Markup.withoutBlanks := by
  rw [Markup.parse_eq, Markup.parse_eq, Scan.document_dropping]
  cases Scan.document o.keeping t.toList with
  | error e => rfl
  | ok m => rfl

/-! ## Node by node -/

/-- Blank texts that have nothing below them leave the outline, and nothing else changes in it. -/
theorem Forest.outline_withoutBlanks {f : Forest Content} (h : f.LeavesBare) (depth : Nat) :
    f.withoutBlanks.outline depth =
      (f.outline depth).filter fun x => !Render.isBlankText x.2 := by
  unfold withoutBlanks
  induction f generalizing depth with
  | nil => rfl
  | cons c below beside ihb ihs =>
    obtain ⟨hleaf, hbelow, hbeside⟩ := leavesBare_cons.1 h
    rw [erase, outline]
    cases hc : Render.isBlankText c with
    | true =>
      have hnil : below = .nil := by
        cases c with
        | text s => exact hleaf rfl
        | _ => cases hc
      rw [if_pos rfl, List.filter_cons_of_neg (by simp [hc]), hnil, outline, List.nil_append,
        ihs hbeside]
    | false =>
      rw [if_neg Bool.false_ne_true, List.filter_cons_of_pos (by simp [hc]), List.filter_append,
        outline, ihb hbelow, ihs hbeside]

/-- Dropping blank text decides about nothing but blank text. A text is read with it dropped exactly
if it is read with it kept; then there are the same nodes in the same order at the same depths, all of
them but the texts of blanks only; and if it is not read, the same fault is found at the same
place. -/
theorem Markup.parse_dropping_outline (o : ReadOptions) (t : String) :
    ((∃ m', Markup.parse o.dropping t = .ok m') ↔ ∃ m, Markup.parse o.keeping t = .ok m) ∧
      (∀ m m', Markup.parse o.keeping t = .ok m →
        (Markup.parse o.dropping t = .ok m' ↔ m'.declaration = m.declaration ∧
          m'.top.outline 1 = (m.top.outline 1).filter fun x => !Render.isBlankText x.2)) ∧
      ∀ e, Markup.parse o.dropping t = .error e ↔ Markup.parse o.keeping t = .error e := by
  rw [parse_dropping]
  cases h : Markup.parse o.keeping t with
  | error e =>
    exact ⟨iff_of_false nofun nofun, nofun, fun e' => Iff.rfl⟩
  | ok m =>
    refine ⟨iff_of_true ⟨_, rfl⟩ ⟨m, rfl⟩, fun m₁ m' hm => ?_, fun e => iff_of_false nofun nofun⟩
    obtain rfl := Except.ok.inj hm
    have houtline := Forest.outline_withoutBlanks (legal_of_read h).leavesBare 1
    rw [Except.map, Except.ok.injEq, ← houtline]
    constructor
    · rintro rfl
      exact ⟨rfl, rfl⟩
    · rintro ⟨hdeclaration, htop⟩
      exact congr (congrArg Markup.mk hdeclaration.symm) (Forest.outline_injective htop).symm

/-- Blank texts between a reference, a comment and CDATA, which are no part of them. -/
theorem Markup.parse_dropping_outline_split :
    let o : ReadOptions := {}
    let t := "<r> <a>x<!--c-->\t</a>&#x2003;<![CDATA[ ]]>&#32;y</r>"
    let r : Content := .element ⟨⟨none, "r"⟩, none, []⟩
    let a : Content := .element ⟨⟨none, "a"⟩, none, []⟩
    let m : Markup := ⟨.absent, .cons r (.cons (.text " ") .nil
      (.cons a (.cons (.text "x") .nil (.cons (.comment "c") .nil (.leaf (.text "\t"))))
        (.cons (.text "\u2003") .nil (.cons (.cdata " ") .nil (.leaf (.text " y")))))) .nil⟩
    let m' : Markup := ⟨.absent, .cons r
      (.cons a (.cons (.text "x") .nil (.leaf (.comment "c")))
        (.cons (.cdata " ") .nil (.leaf (.text " y")))) .nil⟩
    Markup.parse o.keeping t = .ok m ∧
      m'.top.outline 1 = (m.top.outline 1).filter (fun x => !Render.isBlankText x.2) ∧
      Markup.parse o.dropping t = .ok m' := by
  intro o t r a m m'
  have hparse : Markup.parse o.keeping t = .ok m := by decide +kernel
  have houtline : m'.top.outline 1 =
      (m.top.outline 1).filter (fun x => !Render.isBlankText x.2) := by
    decide +kernel
  obtain ⟨-, hread, -⟩ := Markup.parse_dropping_outline o t
  exact ⟨hparse, houtline, (hread m m' hparse).2 ⟨rfl, houtline⟩⟩

end MarkupFields
