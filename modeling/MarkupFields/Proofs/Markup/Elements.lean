import MarkupFields.Proofs.Markup.Productions
import MarkupFields.Proofs.Markup.Scopes

/-
  Elements and whole documents. Open elements are counted by the cursor and kept on a stack on both
  sides, so each step with a cursor follows a step on the list (`ParseState.step_follows`), and so do
  runs. So a whole text is read with a cursor as it is read from the list of its characters
  (`Markup.parse_eq`), and an error tells the place where that reading stopped.
-/

namespace MarkupFields

open Text Scan Powers

namespace Cursor

variable {text : String} {c : Cursor text.toUTF8} {d n : Nat} {ch : Char} {cs rest : List Char}

/-! ## Start tags -/

theorem attributePair_follows (o : ReadOptions) (h : c.Stands d n cs) :
    Follows text (Counted d) (c.attributePair o) (Scan.attributePair o n cs) := by
  refine (name_follows o.maxNameLength h).bind ?_
  rintro ⟨_, rest⟩ ⟨word, c'⟩ ⟨rfl, h'⟩
  refine (expect_follows (by decide) (skipSpace_stands h')).bind fun rest c' h' => ?_
  refine (attributeValue_follows o (skipSpace_stands h')).bind ?_
  rintro ⟨_, n', rest⟩ ⟨value, c''⟩ ⟨rfl, h''⟩
  exact .ite Iff.rfl (fun _ => .stop h'' rfl) fun _ => .ok ⟨rfl, h''⟩

theorem attributePairs_eq {input : ByteArray} (o : ReadOptions) (earlier : List Attribute)
    (c : Cursor input) :
    c.attributePairs o earlier = (
      if c.space.2.isAt '>' || c.space.2.lookingAt ['/', '>'] then .ok (earlier, c.space.2)
      else if !c.space.1 then c.space.2.fail .missingAttributeSpace
      else do
        let (a, c') ← c.space.2.attributePair o
        if earlier.any fun b => b.name == a.name then c'.fail (.duplicateAttribute a.name.shown)
        else c'.attributePairs o (earlier ++ [a])) := by
  rw [attributePairs]
  refine if_congr Iff.rfl rfl (if_congr Iff.rfl rfl ?_)
  split <;> rename_i h <;> rw [h] <;> rfl

/-- The tag ends behind space for the cursor where it does for the list. -/
theorem atTagEnd_eq (h : c.Stands d n cs) :
    (c.space.2.isAt '>' || c.space.2.lookingAt ['/', '>']) = atTagEnd (Scan.skipSpace cs) := by
  have hspace := space_stands h
  have hat : c.space.2.isAt '>' = (after? ['>'] (Scan.skipSpace cs)).isSome := by
    rw [Bool.eq_iff_iff, hspace.isAt (by decide), List.head?_eq_some_iff, Option.isSome_iff_exists]
    exact exists_congr fun tail => by rw [after?_eq_some_iff, List.singleton_append]
  unfold atTagEnd
  rw [hat, hspace.lookingAt]

theorem attributePairs_follows (o : ReadOptions) {earlier : List Attribute} (h : c.Stands d n cs) :
    Follows text (Counted d) (c.attributePairs o earlier) (Scan.attributePairs o earlier n cs) := by
  fun_induction Scan.attributePairs o earlier n cs generalizing c with
  | case1 earlier n cs htag =>
    rw [attributePairs_eq, atTagEnd_eq h, if_pos htag]
    exact .ok ⟨rfl, space_stands h⟩
  | case2 earlier n cs htag hspace =>
    rw [attributePairs_eq, atTagEnd_eq h, if_neg htag, space_eq h, if_pos hspace]
    exact .stop (space_stands h) rfl
  | case3 earlier n cs htag hspace e he =>
    have hpair := attributePair_follows o (space_stands h)
    rw [he] at hpair
    rw [attributePairs_eq, atTagEnd_eq h, if_neg htag, space_eq h, if_neg hspace]
    exact hpair.error_bind
  | case4 earlier n cs htag hspace a n' mid hmid hsame =>
    obtain ⟨⟨_, c'⟩, hx, rfl, h'⟩ := hmid ▸ attributePair_follows o (space_stands h)
    rw [attributePairs_eq, atTagEnd_eq h, if_neg htag, space_eq h, if_neg hspace, hx]
    show Follows text _ (if _ then _ else _) _
    rw [if_pos hsame]
    exact .stop h' rfl
  | case5 earlier n cs htag hspace a n' mid hmid hnew ih =>
    obtain ⟨⟨_, c'⟩, hx, rfl, h'⟩ := hmid ▸ attributePair_follows o (space_stands h)
    rw [attributePairs_eq, atTagEnd_eq h, if_neg htag, space_eq h, if_neg hspace, hx]
    show Follows text _ (if _ then _ else _) _
    rw [if_neg hnew]
    exact ih h'

/-- What is wrong with names is never that the text has ended. -/
def SaysNoEnd {α : Type} (x : Except Fault α) : Prop :=
  ∀ fault, x = .error fault → fault.isEnd = false

namespace SaysNoEnd

variable {α β : Type} {x y : Except Fault α}

theorem ok (a : α) : SaysNoEnd (.ok a) := nofun

theorem error {fault : Fault} (h : fault.isEnd = false) : SaysNoEnd (α := α) (.error fault) := by
  intro fault' he
  cases he
  exact h

theorem bind {next : α → Except Fault β} (hx : SaysNoEnd x) (hnext : ∀ a, SaysNoEnd (next a)) :
    SaysNoEnd (x >>= next) := by
  cases x with
  | error fault => exact .error (hx fault rfl)
  | ok a => exact hnext a

theorem ite {p : Prop} [Decidable p] (hx : SaysNoEnd x) (hy : SaysNoEnd y) :
    SaysNoEnd (if p then x else y) := by
  split
  · exact hx
  · exact hy

end SaysNoEnd

theorem saysNoEnd_bindAll (s : Scope) (ds : List (String × String)) :
    SaysNoEnd (s.bindAll ds) := by
  induction ds generalizing s with
  | nil => exact .ok s
  | cons d ds ih =>
    refine .bind ?_ fun s' => ih s'
    exact .ite (.ite (.error rfl) (.ok _)) (.ite (.error rfl) (.ite (.error rfl)
      (.ite (.error rfl) (.ite (.error rfl) (.ok _)))))

theorem saysNoEnd_require (s : Scope) (p : String) : SaysNoEnd (s.require p) := by
  unfold Scope.require
  split
  · exact .ok _
  · exact .error rfl

theorem saysNoEnd_attributeNamespace (s : Scope) (q : QName) :
    SaysNoEnd (s.attributeNamespace q) := by
  unfold Scope.attributeNamespace
  split
  · exact .ok none
  · exact .ite (.ok none) ((saysNoEnd_require s _).bind fun uri => .ok (some uri))

theorem saysNoEnd_resolveAttributes (s : Scope) (as : List Attribute) :
    SaysNoEnd (s.resolveAttributes as) := by
  induction as with
  | nil => exact .ok []
  | cons a as ih =>
    rw [Scope.resolveAttributes_cons]
    exact (saysNoEnd_attributeNamespace s a.name).bind fun uri => ih.bind fun as => .ok _

theorem saysNoEnd_enter (s : Scope) (e : Element) : SaysNoEnd (s.enter e) := by
  refine (saysNoEnd_bindAll s _).bind fun s => .ite (.error rfl) (.ite (.error rfl) ?_)
  refine (saysNoEnd_resolveAttributes s e.attributes).bind fun as => ?_
  split
  · exact .error rfl
  · refine .bind ?_ fun uri => .ok _
    unfold Scope.elementNamespace
    split
    · exact (saysNoEnd_require s _).bind fun uri => .ok (some uri)
    · exact .ok _

theorem readNames_follows (o : ReadOptions) (s : Scope) (e : Element) (h : c.Stands d n cs) :
    Follows text Eq (c.readNames o s e) (Scan.readNames o s e cs) := by
  refine .ite Iff.rfl (fun _ => ?_) fun _ => .ok rfl
  cases henter : s.enter e with
  | ok r => exact .ok rfl
  | error fault => exact .stop h (saysNoEnd_enter s e fault henter)

end Cursor

/-! ## The root element -/

namespace ParseState

open Cursor ParseProgress

variable {text : String} {c : Cursor text.toUTF8} {n : Nat} {cs rest : List Char}

/-- The cursor stands before the rest, inside of as many elements as are on the stack. -/
structure Agrees (b : ReadState) (a : ParseState text.toUTF8) : Prop where
  innermost : a.innermost = b.innermost
  enclosing : a.enclosing = b.enclosing
  cursor : a.cursor.Stands (b.enclosing.length + 1) b.used b.rest

/-- After a step the same elements are open or the same root is complete. -/
def Progresses : ReadProgress → ParseProgress text.toUTF8 → Prop
  | .going b, .going a => Agrees b a
  | .complete root rest, .complete root' c => root' = root ∧ ∃ n, c.Stands 0 n rest
  | _, _ => False

theorem place_progresses {t : ContentTree} {around : List OpenElement}
    (h : c.Stands around.length n rest) :
    Progresses (ReadState.place t n rest around) (place t c around) := by
  cases around with
  | nil => exact ⟨rfl, n, h⟩
  | cons e around => exact ⟨rfl, rfl, h⟩

theorem leave_stands {d : Nat} (h : c.Stands (d + 1) n rest) : c.leave.Stands d n rest :=
  ⟨congrArg (· - 1) h.depth, h.references, h.place⟩

theorem enter_follows (o : ReadOptions) {d : Nat} (h : c.Stands d n cs) :
    Follows text (fun _ c' => c'.Stands (d + 1) n cs) (c.enter o)
      (if d + 1 > o.maxDepth then haltAt (.tooDeep o.maxDepth) cs else .ok ()) := by
  have hdeeper : Stands { c with depth := c.depth + 1 } (d + 1) n cs :=
    ⟨congrArg (· + 1) h.depth, h.references, h.place⟩
  exact .ite (by rw [← h.depth]) (fun _ => .stop hdeeper rfl) fun _ => .ok hdeeper

theorem openElement_follows (o : ReadOptions) {around : List OpenElement}
    (h : c.Stands around.length n cs) :
    Follows text Progresses (openElement o around c) (do
      if around.length + 1 > o.maxDepth then haltAt (.tooDeep o.maxDepth) cs
      else
        let cs ← Scan.expect '<' cs
        ReadState.openElement o around n cs) := by
  have hlist : (do
      if around.length + 1 > o.maxDepth then haltAt (.tooDeep o.maxDepth) cs
      else
        let cs ← Scan.expect '<' cs
        ReadState.openElement o around n cs) =
      ((if around.length + 1 > o.maxDepth then haltAt (.tooDeep o.maxDepth) cs else .ok ()) >>=
        fun _ => Scan.expect '<' cs >>= ReadState.openElement o around n) := by
    split <;> rfl
  rw [hlist]
  refine (enter_follows o h).bind fun _ c h => ?_
  refine (expect_follows (by decide) h).bind fun cs c h => ?_
  unfold ReadState.openElement startTag
  rw [bind_assoc]
  refine (name_follows o.maxNameLength h).bind ?_
  rintro ⟨_, cs⟩ ⟨word, c⟩ ⟨rfl, h⟩
  dsimp only
  rw [bind_assoc]
  refine (attributePairs_follows o h).bind ?_
  rintro ⟨_, n, cs⟩ ⟨as, c⟩ ⟨rfl, h⟩
  dsimp only
  rw [bind_assoc]
  refine (readNames_follows o _ _ h).bind ?_
  rintro ⟨scope, e⟩ _ rfl
  dsimp only [bind, Except.bind]
  cases hclosed : after? ['/', '>'] cs with
  | some rest =>
    rw [after?_eq_some_iff.1 hclosed] at h
    rw [if_pos h.lookingAt_mark]
    exact .ok (place_progresses (leave_stands (h.advance_ascii (by decide))))
  | none =>
    rw [if_neg (by rw [h.lookingAt, hclosed]; decide)]
    exact (expect_follows (by decide) h).bind fun rest c h => .ok ⟨rfl, rfl, h⟩

/-- An element of which the cursor stands before the opening bracket. -/
theorem nestElement_follows (o : ReadOptions) {around : List OpenElement}
    (h : c.Stands around.length n ('<' :: cs)) :
    Follows text Progresses (openElement o around c)
      (ReadState.nestElement o around n ('<' :: cs) cs) :=
  openElement_follows o h

theorem closeElement_follows (o : ReadOptions) {b : ReadState} {a : ParseState text.toUTF8}
    (h : Agrees b a) :
    Follows text Progresses (a.closeElement o)
      (Scan.expectAll Item.endTag.mark b.rest >>= b.closeElement o) := by
  obtain ⟨innermost, enclosing, c⟩ := a
  obtain ⟨innermost', enclosing', n, cs⟩ := b
  obtain ⟨rfl, rfl, h⟩ := h
  refine (expectAll_follows (by decide) h).bind fun cs c h => ?_
  refine (name_follows o.maxNameLength h).bind ?_
  rintro ⟨_, cs⟩ ⟨word, c⟩ ⟨rfl, h⟩
  refine .ite Iff.rfl (fun _ => .stop h rfl) fun _ => ?_
  exact (expect_follows (by decide) (skipSpace_stands h)).bind fun rest c h =>
    .ok (place_progresses (leave_stands h))

/-- What begins at a place is found by trying one mark after the other. -/
theorem itemAt_eq_match (cs : List Char) : itemAt cs =
    match after? Item.endTag.mark cs with
    | some rest => (.endTag, rest)
    | none =>
      match after? cdataOpen cs with
      | some rest => (.cdata, rest)
      | none =>
        match after? commentOpen cs with
        | some rest => (.comment, rest)
        | none =>
          match after? instructionOpen cs with
          | some rest => (.instruction, rest)
          | none =>
            match after? ['<'] cs with
            | some rest => (.startTag, rest)
            | none => (if cs.isEmpty then .nothing else .text, cs) := by
  have hmarked : Item.marked = [.endTag, .cdata, .comment, .instruction, .startTag] := rfl
  have hmarks : Item.cdata.mark = cdataOpen ∧ Item.comment.mark = commentOpen ∧
      Item.instruction.mark = instructionOpen ∧ Item.startTag.mark = ['<'] := ⟨rfl, rfl, rfl, rfl⟩
  obtain ⟨hcdata, hcomment, hinstruction, hstart⟩ := hmarks
  unfold itemAt
  simp only [hmarked, List.findSome?_cons, List.findSome?_nil, hcdata, hcomment, hinstruction, hstart]
  cases after? Item.endTag.mark cs with
  | some rest => rfl
  | none =>
    cases after? cdataOpen cs with
    | some rest => rfl
    | none =>
      cases after? commentOpen cs with
      | some rest => rfl
      | none =>
        cases after? instructionOpen cs with
        | some rest => rfl
        | none => cases after? ['<'] cs <;> rfl

/-- An item that is a leaf is added to the innermost element. -/
theorem leaf_follows {α : Type} {x : Except ParseError (α × Cursor text.toUTF8)}
    {y : Except Halt (α × List Char)} {innermost : OpenElement} {enclosing : List OpenElement}
    (h : Follows text (Same (enclosing.length + 1) n) x y) (leaf : α → Content) :
    Follows text Progresses
      (x >>= fun a => .ok (.going ⟨innermost.addLeaf (leaf a.1), enclosing, a.2⟩))
      (y >>= fun b => .ok (.going ⟨innermost.addLeaf (leaf b.1), enclosing, n, b.2⟩)) := by
  refine h.bind ?_
  rintro ⟨_, rest⟩ ⟨v, c⟩ ⟨rfl, h⟩
  exact .ok ⟨rfl, rfl, h⟩

theorem step_follows (o : ReadOptions) {b : ReadState} {a : ParseState text.toUTF8}
    (h : Agrees b a) : Follows text Progresses (a.step o) (b.step o) := by
  have hclose := closeElement_follows o h
  obtain ⟨innermost, enclosing, c⟩ := a
  obtain ⟨innermost', enclosing', n, cs⟩ := b
  obtain ⟨rfl, rfl, h⟩ := h
  unfold ParseState.step ReadState.step
  dsimp only at h hclose ⊢
  cases cs with
  | nil =>
    rw [if_pos (show c.atEnd = true from h.atEnd)]
    exact .fail h fun _ => rfl
  | cons ch next =>
    rw [if_neg (by rw [h.atEnd]; exact Bool.false_ne_true), h.lookingAt, h.lookingAt, h.lookingAt,
      h.lookingAt, itemAt_eq_match]
    -- the marks are tried in the same order
    cases hend : after? Item.endTag.mark (ch :: next) with
    | some rest =>
      exact behind_mark hclose (after?_eq_some_iff.1 hend)
    | none =>
      cases hcdata : after? cdataOpen (ch :: next) with
      | some rest =>
        have hread := behind_mark (cdata_follows h) (after?_eq_some_iff.1 hcdata)
        exact leaf_follows hread fun v => .cdata (String.ofList v)
      | none =>
        cases hcomment : after? commentOpen (ch :: next) with
        | some rest =>
          have hread := behind_mark (comment_follows h) (after?_eq_some_iff.1 hcomment)
          exact leaf_follows hread commentContent
        | none =>
          cases hinstruction : after? instructionOpen (ch :: next) with
          | some rest =>
            have hread := instruction_follows o.maxNameLength h
            exact leaf_follows (behind_mark hread (after?_eq_some_iff.1 hinstruction))
              instructionContent
          | none =>
            cases hstart : after? ['<'] (ch :: next) with
            | some rest =>
              have hwhole := after?_eq_some_iff.1 hstart
              rw [hwhole] at h ⊢
              have hat : c.isAt '<' = true := (h.isAt (by decide)).2 rfl
              show Follows text Progresses (if c.isAt '<' = true then _ else _) _
              rw [if_pos hat]
              exact nestElement_follows o h
            | none =>
              have hat : ¬ c.isAt '<' = true := by
                rw [h.isAt (by decide)]
                intro hhead
                obtain rfl : ch = '<' := Option.some.inj hhead
                cases hstart
              show Follows text Progresses (if c.isAt '<' = true then _ else _) _
              rw [if_neg hat]
              refine (characterData_follows o h).bind ?_
              rintro ⟨_, n, rest⟩ ⟨v, c⟩ ⟨rfl, h⟩
              exact .ok ⟨rfl, rfl, h⟩

theorem run_eq {input : ByteArray} (o : ReadOptions) (a : ParseState input) :
    a.run o = (a.step o >>= fun p => match p with
      | .complete root c => .ok (root, c)
      | .going a' => a'.run o) := by
  rw [run]
  split <;> rename_i h <;> rw [h] <;> rfl

theorem run_follows (o : ReadOptions) {b : ReadState} {a : ParseState text.toUTF8}
    (h : Agrees b a) :
    Follows text (fun r r' => r'.1 = r.1 ∧ ∃ n, r'.2.Stands 0 n r.2) (a.run o) (b.run o) := by
  fun_induction ReadState.run o b generalizing a with
  | case1 b e he =>
    rw [run_eq]
    exact (he ▸ step_follows o h).error_bind
  | case2 b root rest hb =>
    obtain ⟨p, hx, hp⟩ := hb ▸ step_follows o h
    rw [run_eq, hx]
    cases p with
    | going a' => exact hp.elim
    | complete root' c => exact .ok hp
  | case3 b b' hb ih =>
    obtain ⟨p, hx, hp⟩ := hb ▸ step_follows o h
    rw [run_eq, hx]
    cases p with
    | going a' => exact ih hp
    | complete root' c => exact hp.elim

end ParseState

/-! ## Documents -/

namespace Cursor

variable {text : String} {c : Cursor text.toUTF8} {d n : Nat} {cs rest : List Char}

/-- Behind a mark of ASCII characters one looks at the byte that the cursor comes to over it. -/
theorem Stands.peekAt?_ascii {mark : List Char} (h : c.Stands d n (mark ++ rest))
    (hmark : allAscii mark = true) :
    c.peekAt? mark.length = (c.advance mark.length).peek? := by
  rw [peekAt?_eq, peek?_eq, h.remaining, (h.advance_ascii hmark).remaining, utf8Bytes_append,
    ← length_utf8Bytes_ascii hmark, List.getElem?_append_right (Nat.le_refl _), Nat.sub_self,
    List.head?_eq_getElem?]

theorem Stands.peekAt?_one {ch : Char} (h : c.Stands d n (ch :: cs)) (hch : ch.toNat < 128) :
    c.peekAt? 1 = (c.advance 1).peek? := by
  have hmark : c.Stands d n ([ch] ++ cs) := h
  exact hmark.peekAt?_ascii (allAscii_singleton hch)

/-- A bracket that opens neither a declaration nor an instruction. -/
theorem opensElement_iff (h : c.Stands d n cs) :
    (c.isAt '<' = true ∧
        ((c.peekAt? 1).any fun b => b ≠ '!'.toUInt8 ∧ b ≠ '?'.toUInt8) = true) ↔
      ∃ ch next, cs = '<' :: ch :: next ∧ ¬ (ch = '!' ∨ ch = '?') := by
  rw [h.isAt (by decide)]
  constructor
  · rintro ⟨hhead, hsecond⟩
    obtain ⟨next, rfl⟩ := List.head?_eq_some_iff.1 hhead
    have hnext := h.advance_one (by decide)
    rw [h.peekAt?_one (by decide)] at hsecond
    cases next with
    | nil =>
      rw [hnext.peek?_nil] at hsecond
      cases hsecond
    | cons ch next =>
      obtain ⟨b, hpeek, hb⟩ := hnext.exists_peek?
      rw [hpeek, Option.any_some, decide_eq_true_iff] at hsecond
      refine ⟨ch, next, rfl, ?_⟩
      rintro (rfl | rfl)
      · exact hsecond.1 ((hb (by decide)).2 rfl)
      · exact hsecond.2 ((hb (by decide)).2 rfl)
  · rintro ⟨ch, next, rfl, hch⟩
    obtain ⟨b, hpeek, hb⟩ := (h.advance_one (by decide)).exists_peek?
    rw [h.peekAt?_one (by decide), hpeek, Option.any_some, decide_eq_true_iff]
    exact ⟨rfl, fun he => hch (.inl ((hb (by decide)).1 he)),
      fun he => hch (.inr ((hb (by decide)).1 he))⟩

theorem rootElement_follows (o : ReadOptions) (h : c.Stands 0 0 cs) :
    Follows text (fun r r' => r'.1 = r.1 ∧ ∃ n, r'.2.Stands 0 n r.2) (c.rootElement o)
      (Scan.rootElement o cs) := by
  have hopens := opensElement_iff h
  unfold Cursor.rootElement
  by_cases hp : c.isAt '<' = true ∧
      ((c.peekAt? 1).any fun b => b ≠ '!'.toUInt8 ∧ b ≠ '?'.toUInt8) = true
  · obtain ⟨ch, next, rfl, hch⟩ := hopens.1 hp
    have hnest : Follows text ParseState.Progresses (ParseState.openElement o [] c)
        (ReadState.nestElement o [] 0 ('<' :: ch :: next) (ch :: next)) :=
      ParseState.nestElement_follows o h
    rw [if_pos hp]
    change Follows text _ _ (if ch = '!' ∨ ch = '?' then _ else _)
    rw [if_neg hch]
    cases hy : ReadState.nestElement o [] 0 ('<' :: ch :: next) (ch :: next) with
    | error e =>
      rw [hy] at hnest
      exact hnest.error_bind
    | ok b =>
      rw [hy] at hnest
      obtain ⟨a, hx, hprogress⟩ := hnest
      rw [hx]
      cases b with
      | going b =>
        cases a with
        | going a => exact ParseState.run_follows o hprogress
        | complete root c => exact hprogress.elim
      | complete root rest =>
        cases a with
        | going a => exact hprogress.elim
        | complete root' c => exact .ok hprogress
  · have hstop : Scan.rootElement o cs = haltAt .missingRoot cs := by
      unfold Scan.rootElement
      split
      · rename_i ch next
        split
        · rfl
        · rename_i hch
          exact absurd (hopens.2 ⟨ch, next, rfl, hch⟩) hp
      · rfl
    rw [if_neg hp, hstop]
    exact .stop h rfl

theorem skipMark_stands (h : c.Stands d n cs) :
    c.skipMark.Stands d n (Scan.skipMark cs) := by
  unfold Cursor.skipMark Scan.skipMark
  cases cs with
  | nil =>
    rw [if_neg (by rw [h.lookingAt]; decide)]
    exact h
  | cons ch cs =>
    by_cases hch : ch = '\uFEFF'
    · subst hch
      have hmark : c.Stands d n (['\uFEFF'] ++ cs) := h
      rw [if_pos hmark.lookingAt_mark, List.head?_cons, if_pos rfl]
      exact hmark.advance
    · rw [List.head?_cons, if_neg fun hhead => hch (Option.some.inj hhead), if_neg fun hlook => ?_]
      · exact h
      · obtain ⟨tail, htail⟩ := (h.lookingAt_iff _).1 hlook
        exact hch (List.cons.inj htail).1

/-- An XML declaration is one if space follows its opening. -/
theorem declares_iff (h : c.Stands d n cs) :
    (c.lookingAt declarationOpen = true ∧
        ((c.peekAt? 5).any fun b => isMarkupSpace (Char.ofUInt8 b)) = true) ↔
      ∃ rest, cs = declarationOpen ++ rest ∧ startsWithSpace rest = true := by
  have hspace {rest : List Char} (h : c.Stands d n (declarationOpen ++ rest)) :
      ((c.peekAt? 5).any fun b => isMarkupSpace (Char.ofUInt8 b)) = startsWithSpace rest := by
    have hnext := h.advance_ascii (by decide)
    have hpeek := h.peekAt?_ascii (by decide)
    rw [show declarationOpen.length = 5 from rfl] at hnext hpeek
    rw [hpeek]
    unfold startsWithSpace
    cases rest with
    | nil =>
      rw [hnext.peek?_nil]
      rfl
    | cons ch rest =>
      obtain ⟨b, more, hbytes, hb⟩ := hnext.peek?_cons
      rw [hb]
      exact test_first isMarkupSpace_ascii hbytes
  rw [h.lookingAt_iff]
  constructor
  · rintro ⟨⟨rest, rfl⟩, hany⟩
    exact ⟨rest, rfl, hspace h ▸ hany⟩
  · rintro ⟨rest, rfl, hs⟩
    exact ⟨⟨rest, rfl⟩, (hspace h).trans hs⟩

theorem declarationBody?_eq_some_iff :
    declarationBody? cs = some rest ↔ cs = declarationOpen ++ rest ∧ startsWithSpace rest = true := by
  unfold declarationBody?
  rw [← after?_eq_some_iff]
  cases after? declarationOpen cs with
  | none => exact iff_of_false nofun nofun
  | some more =>
    dsimp only
    split
    · rename_i hs
      exact ⟨fun he => ⟨he, Option.some.inj he ▸ hs⟩, And.left⟩
    · rename_i hs
      exact iff_of_false nofun fun he => hs (Option.some.inj he.1 ▸ he.2)

theorem prologue_follows (h : c.Stands d n cs) :
    Follows text (Same d n) c.prologue (Scan.declaration cs) := by
  have hdeclares := declares_iff h
  unfold Cursor.prologue Scan.declaration
  cases hbody : declarationBody? cs with
  | none =>
    rw [if_neg fun hp => ?_]
    · exact .ok ⟨rfl, h⟩
    · obtain ⟨rest, hrest⟩ := hdeclares.1 hp
      rw [declarationBody?_eq_some_iff.2 hrest] at hbody
      cases hbody
  | some rest =>
    obtain ⟨rfl, hs⟩ := declarationBody?_eq_some_iff.1 hbody
    have hfollows := behind_mark (declaration_follows h) rfl
    rw [if_pos (hdeclares.2 ⟨rest, rfl, hs⟩)]
    rwa [if_pos hs] at hfollows

theorem afterDoctype_follows (o : ReadOptions) (h : c.Stands d n cs) :
    Follows text (Same d n) (c.afterDoctype o) (Scan.afterDoctype o cs) := by
  unfold Cursor.afterDoctype Scan.afterDoctype
  rw [h.lookingAt]
  cases hopen : after? doctypeOpen cs with
  | none => exact .ok ⟨rfl, h⟩
  | some rest =>
    exact (behind_mark (doctype_follows h) (after?_eq_some_iff.1 hopen)).bind
      fun _ _ h => miscellany_follows o h

theorem document_follows (o : ReadOptions) (h : c.Stands 0 0 cs) :
    Follows text Eq (c.document o) (Scan.document o cs) := by
  refine (prologue_follows (skipMark_stands h)).bind ?_
  rintro ⟨declaration, cs⟩ ⟨_, c⟩ ⟨rfl, h⟩
  refine (miscellany_follows o h).bind ?_
  rintro ⟨before, cs⟩ ⟨_, c⟩ ⟨rfl, h⟩
  refine (afterDoctype_follows o h).bind ?_
  rintro ⟨between, cs⟩ ⟨_, c⟩ ⟨rfl, h⟩
  refine (rootElement_follows o h).bind ?_
  rintro ⟨root, cs⟩ ⟨_, c⟩ ⟨rfl, n, h⟩
  refine (miscellany_follows o h).bind ?_
  rintro ⟨behind, cs⟩ ⟨_, c⟩ ⟨rfl, h⟩
  exact .ite (by rw [h.atEnd]) (fun _ => .ok rfl) fun _ => .stop h rfl

end Cursor

/-- A whole text is read with a cursor as it is read from the list of its characters. -/
theorem Markup.parse_follows (o : ReadOptions) (text : String) :
    Follows text Eq (Markup.parse o text) (Scan.document o text.toList) :=
  Cursor.document_follows o Cursor.stands_start

/-- Reading with a cursor is reading the characters, the faults with their places. -/
theorem Markup.parse_eq (o : ReadOptions) (text : String) :
    Markup.parse o text = (Scan.document o text.toList).mapError (Halt.toError text.toList) := by
  have hfollows := Markup.parse_follows o text
  cases hy : Scan.document o text.toList with
  | error h =>
    rw [hy] at hfollows
    exact hfollows.1
  | ok m =>
    rw [hy] at hfollows
    obtain ⟨_, hx, rfl⟩ := hfollows
    exact hx

end MarkupFields
