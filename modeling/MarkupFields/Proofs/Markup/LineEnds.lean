import MarkupFields.Proofs.Markup.Choices

/-
  The kind of line ends does not matter to the readers of parts. Making the line ends of a text
  equal (`lineEnds`) moves what stands behind them, so a reader of the equal text is at another
  place than a reader of the text; but it is at the place where the line ends of what is left are
  equal. Every reader keeps to this (`Agree`): it succeeds on both or on neither, reads the same,
  and leaves the one rest with its line ends made equal. Where readers follow one another this is
  passed on (`Agree.bind`), so it has to be shown of single characters, of spaces and of marks only.
  The faults are not compared: one that shows a carriage return shows a line feed instead.
-/

namespace MarkupFields

open Text Scan

/-! ## Readings that agree -/

/-- The second reading gives something exactly if the first does, and it is that with the change. -/
def Agree {α β : Type} (change : α → β) (x : Except Halt α) (y : Except Halt β) : Prop :=
  y.toOption = x.toOption.map change

namespace Agree

variable {α β γ δ : Type} {f : α → β} {g : γ → δ}

theorem ok (a : α) : Agree f (.ok a) (.ok (f a)) := rfl

theorem halt (fault fault' : Fault) (rest rest' : List Char) :
    Agree f (haltAt fault rest) (haltAt fault' rest') := rfl

theorem error (e e' : Halt) : Agree f (.error e) (.error e') := rfl

/-- Readings that follow one another agree if each part does. -/
theorem bind {x : Except Halt α} {y : Except Halt β} {next : α → Except Halt γ}
    {next' : β → Except Halt δ} (h : Agree f x y) (hnext : ∀ a, Agree g (next a) (next' (f a))) :
    Agree g (x >>= next) (y >>= next') := by
  cases x with
  | error e =>
    cases y with
    | error e' => rfl
    | ok b => cases h
  | ok a =>
    cases y with
    | error e' => cases h
    | ok b =>
      obtain rfl : b = f a := Option.some.inj h
      exact hnext a

theorem ite {p q : Prop} [Decidable p] [Decidable q] (hpq : p ↔ q) {x x' : Except Halt α}
    {y y' : Except Halt β} (hx : Agree f x y) (hx' : Agree f x' y') :
    Agree f (if p then x else x') (if q then y else y') := by
  by_cases hp : p
  · rw [if_pos hp, if_pos (hpq.1 hp)]
    exact hx
  · rw [if_neg hp, if_neg fun hq => hp (hpq.2 hq)]
    exact hx'

theorem eq_ok {a : α} {y : Except Halt β} (h : Agree f (.ok a) y) : y = .ok (f a) := by
  cases y with
  | error e => cases h
  | ok b => exact congrArg Except.ok (Option.some.inj h)

/-- Where the first part fails, what follows it does not matter. -/
theorem error_bind {e e' : Halt} {y : Except Halt β} (h : Agree f (.error e) y)
    (next : β → Except Halt δ) : Agree g (.error e') (y >>= next) := by
  cases y with
  | error e => rfl
  | ok b => cases h

theorem eq_ok_iff {x : Except Halt α} {y : Except Halt β} (h : Agree f x y) {b : β} :
    y = .ok b ↔ ∃ a, x = .ok a ∧ f a = b := by
  cases x with
  | error e =>
    cases y with
    | error e' => exact iff_of_false nofun nofun
    | ok b' => cases h
  | ok a =>
    cases y with
    | error e' => cases h
    | ok b' =>
      rw [h.eq_ok, Except.ok.injEq]
      exact ⟨fun hb => ⟨a, rfl, hb⟩, fun ⟨a', ha, hb⟩ => Except.ok.inj ha ▸ hb⟩

end Agree

/-! ## Texts with equal line ends -/

namespace Scan

theorem lineEnds_cons {c : Char} (hc : c ≠ '\r') (cs : List Char) :
    lineEnds (c :: cs) = c :: lineEnds cs := by
  rw [lineEnds, if_neg hc, List.singleton_append]

/-- Before a line feed a carriage return is left out. -/
theorem lineEnds_return_feed {cs : List Char} (h : cs.head? = some '\n') :
    lineEnds ('\r' :: cs) = lineEnds cs := by
  rw [lineEnds, if_pos rfl, if_pos h, List.nil_append]

theorem lineEnds_return {cs : List Char} (h : cs.head? ≠ some '\n') :
    lineEnds ('\r' :: cs) = '\n' :: lineEnds cs := by
  rw [lineEnds, if_pos rfl, if_neg h, List.singleton_append]

/-- At a carriage return there is a line feed, whatever follows. -/
theorem exists_lineEnds_return (cs : List Char) : ∃ tail, lineEnds ('\r' :: cs) = '\n' :: tail := by
  cases cs with
  | nil => exact ⟨[], rfl⟩
  | cons d cs =>
    by_cases hd : d = '\n'
    · subst hd
      exact ⟨lineEnds cs, by rw [lineEnds_return_feed rfl, lineEnds_cons (by decide)]⟩
    · refine ⟨_, lineEnds_return fun hhead => hd (Option.some.inj hhead)⟩

theorem head?_lineEnds (cs : List Char) :
    (lineEnds cs).head? = cs.head?.map fun c => if c = '\r' then '\n' else c := by
  cases cs with
  | nil => rfl
  | cons c cs =>
    by_cases hc : c = '\r'
    · subst hc
      obtain ⟨tail, h⟩ := exists_lineEnds_return cs
      rw [h]
      rfl
    · rw [lineEnds_cons hc, List.head?_cons, List.head?_cons, Option.map_some, if_neg hc]

/-- The first character is the one that stood there, or a line feed. -/
theorem eq_or_eq_of_lineEnds_cons {c d : Char} {cs tail : List Char}
    (h : lineEnds (c :: cs) = d :: tail) : d = c ∨ d = '\n' := by
  have hhead := head?_lineEnds (c :: cs)
  rw [h, List.head?_cons, List.head?_cons, Option.map_some, Option.some.injEq] at hhead
  by_cases hc : c = '\r'
  · exact .inr (hhead.trans (if_pos hc))
  · exact .inl (hhead.trans (if_neg hc))

theorem isEmpty_lineEnds (cs : List Char) : (lineEnds cs).isEmpty = cs.isEmpty := by
  have hhead := head?_lineEnds cs
  cases cs with
  | nil => rfl
  | cons c cs =>
    cases h : lineEnds (c :: cs) with
    | nil =>
      rw [h] at hhead
      cases hhead
    | cons d tail => rfl

/-- A mark that holds no line end is found in both texts or in neither. -/
theorem after?_lineEnds {mark : List Char} (hr : '\r' ∉ mark) (hn : '\n' ∉ mark) (cs : List Char) :
    after? mark (lineEnds cs) = (after? mark cs).map lineEnds := by
  induction mark generalizing cs with
  | nil => rfl
  | cons m ms ih =>
    rw [List.mem_cons, not_or] at hr hn
    cases cs with
    | nil => rfl
    | cons c cs =>
      by_cases hc : c = '\r'
      · subst hc
        obtain ⟨tail, h⟩ := exists_lineEnds_return cs
        rw [h, after?, after?, if_neg (Ne.symm hn.1), if_neg (Ne.symm hr.1)]
        rfl
      · rw [lineEnds_cons hc, after?, after?]
        split
        · exact ih hr.2 hn.2 cs
        · rfl

theorem takeWhile_lineEnds {p : Char → Bool} (hr : p '\r' = false) (hn : p '\n' = false)
    (cs : List Char) : (lineEnds cs).takeWhile p = cs.takeWhile p := by
  induction cs with
  | nil => rfl
  | cons c cs ih =>
    by_cases hc : c = '\r'
    · subst hc
      obtain ⟨tail, h⟩ := exists_lineEnds_return cs
      rw [h, List.takeWhile_cons_of_neg (by simp [hn]), List.takeWhile_cons_of_neg (by simp [hr])]
    · rw [lineEnds_cons hc, List.takeWhile_cons, List.takeWhile_cons, ih]

theorem dropWhile_lineEnds {p : Char → Bool} (hp : p '\r' = p '\n') (cs : List Char) :
    (lineEnds cs).dropWhile p = lineEnds (cs.dropWhile p) := by
  induction cs with
  | nil => rfl
  | cons c cs ih =>
    by_cases hc : c = '\r'
    · subst hc
      by_cases hn : p '\n' = true
      · rw [List.dropWhile_cons_of_pos (hp.trans hn), ← ih]
        by_cases hhead : cs.head? = some '\n'
        · rw [lineEnds_return_feed hhead]
        · rw [lineEnds_return hhead, List.dropWhile_cons_of_pos hn]
      · obtain ⟨tail, h⟩ := exists_lineEnds_return cs
        rw [List.dropWhile_cons_of_neg (by rwa [hp]), h, List.dropWhile_cons_of_neg hn]
    · rw [lineEnds_cons hc, List.dropWhile_cons, List.dropWhile_cons]
      split
      · exact ih
      · rw [lineEnds_cons hc]

theorem skipSpace_lineEnds (cs : List Char) : skipSpace (lineEnds cs) = lineEnds (skipSpace cs) :=
  dropWhile_lineEnds rfl cs

theorem startsWithSpace_lineEnds (cs : List Char) :
    startsWithSpace (lineEnds cs) = startsWithSpace cs := by
  unfold startsWithSpace
  rw [head?_lineEnds]
  cases cs with
  | nil => rfl
  | cons c cs =>
    by_cases hc : c = '\r'
    · subst hc
      rfl
    · rw [List.head?_cons, Option.map_some, if_neg hc]

/-! ## Fixed text, names, references -/

theorem expect_lineEnds {want : Char} (hr : want ≠ '\r') (hn : want ≠ '\n') (cs : List Char) :
    Agree lineEnds (expect want cs) (expect want (lineEnds cs)) := by
  cases cs with
  | nil => exact .halt _ _ _ _
  | cons c cs =>
    by_cases hc : c = '\r'
    · subst hc
      obtain ⟨tail, h⟩ := exists_lineEnds_return cs
      rw [h, expect, expect, if_neg (Ne.symm hn), if_neg (Ne.symm hr)]
      exact .error _ _
    · rw [lineEnds_cons hc]
      exact .ite Iff.rfl (.ok cs) (.error _ _)

theorem expectAll_lineEnds {mark : List Char} (hr : '\r' ∉ mark) (hn : '\n' ∉ mark)
    (cs : List Char) : Agree lineEnds (expectAll mark cs) (expectAll mark (lineEnds cs)) := by
  induction mark generalizing cs with
  | nil => exact .ok cs
  | cons m ms ih =>
    rw [List.mem_cons, not_or] at hr hn
    exact (expect_lineEnds (Ne.symm hr.1) (Ne.symm hn.1) cs).bind fun rest => ih hr.2 hn.2 rest

theorem name_lineEnds (limit : Nat) (cs : List Char) :
    Agree (Prod.map id lineEnds) (name limit cs) (name limit (lineEnds cs)) := by
  cases cs with
  | nil => exact .halt _ _ _ _
  | cons c cs =>
    by_cases hc : c = '\r'
    · subst hc
      obtain ⟨tail, h⟩ := exists_lineEnds_return cs
      rw [h]
      exact .halt _ _ _ _
    · rw [lineEnds_cons hc]
      unfold name
      dsimp only
      rw [takeWhile_lineEnds rfl rfl, dropWhile_lineEnds rfl]
      exact .ite Iff.rfl (.ite Iff.rfl (.halt _ _ _ _) (.ok _)) (.halt _ _ _ _)

theorem characterReference_lineEnds {base : Nat} {isDigit : Char → Bool} (hr : isDigit '\r' = false)
    (hn : isDigit '\n' = false) (bad : Fault) (cs : List Char) :
    Agree (Prod.map id lineEnds) (characterReference base isDigit bad cs)
      (characterReference base isDigit bad (lineEnds cs)) := by
  unfold characterReference
  dsimp only
  rw [takeWhile_lineEnds hr hn, dropWhile_lineEnds (hr.trans hn.symm)]
  refine .ite Iff.rfl (.halt _ _ _ _) ?_
  refine (expect_lineEnds (by decide) (by decide) _).bind fun rest => ?_
  exact .ite Iff.rfl (.ok _) (.halt _ _ _ _)

theorem entityReference_lineEnds (limit : Nat) (cs : List Char) :
    Agree (Prod.map id lineEnds) (entityReference limit cs)
      (entityReference limit (lineEnds cs)) := by
  refine (name_lineEnds limit cs).bind fun word => ?_
  refine (expect_lineEnds (by decide) (by decide) _).bind fun rest => ?_
  dsimp only [Prod.map_fst, id]
  split
  · exact .ok _
  · exact .halt _ _ _ _

theorem reference_lineEnds (limit : Nat) (cs : List Char) :
    Agree (Prod.map id lineEnds) (reference limit cs) (reference limit (lineEnds cs)) := by
  unfold reference
  rw [after?_lineEnds (by decide) (by decide), after?_lineEnds (by decide) (by decide)]
  cases after? ['#', 'x'] cs with
  | some rest => exact characterReference_lineEnds rfl rfl _ rest
  | none =>
    cases after? ['#'] cs with
    | some rest => exact characterReference_lineEnds rfl rfl _ rest
    | none => exact entityReference_lineEnds limit cs

/-! ## Runs -/

/-- What stands at the front, with another rest where a run ends. -/
def Front.leaving (change : List Char → List Char) : Front → Front
  | ends rest => .ends (change rest)
  | refused fault => .refused fault
  | further => .further

/-- The test for the end of a run does not tell the kinds of line ends apart. -/
def IgnoresLineEnds (front : List Char → Front) : Prop :=
  ∀ cs, front (lineEnds cs) = (front cs).leaving lineEnds

theorem ignoresLineEnds_upTo {mark : List Char} (hr : '\r' ∉ mark) (hn : '\n' ∉ mark)
    (unfinished : Fault) : IgnoresLineEnds (upTo mark unfinished) := by
  intro cs
  unfold upTo
  rw [after?_lineEnds hr hn, isEmpty_lineEnds]
  cases after? mark cs with
  | some rest => rfl
  | none =>
    cases cs.isEmpty with
    | true => rfl
    | false => rfl

theorem ignoresLineEnds_commentFront : IgnoresLineEnds commentFront := by
  intro cs
  unfold commentFront
  rw [after?_lineEnds (by decide) (by decide), after?_lineEnds (by decide) (by decide),
    isEmpty_lineEnds, Option.isSome_map]
  cases after? commentClose cs with
  | some rest => rfl
  | none =>
    cases cs.isEmpty with
    | true => rfl
    | false =>
      cases (after? ['-', '-'] cs).isSome with
      | true => rfl
      | false => rfl

theorem ignoresLineEnds_attributeFront {quote : Char} (hr : quote ≠ '\r') (hn : quote ≠ '\n') :
    IgnoresLineEnds (attributeFront quote) := by
  intro cs
  cases cs with
  | nil => rfl
  | cons c cs =>
    by_cases hc : c = '\r'
    · subst hc
      obtain ⟨tail, h⟩ := exists_lineEnds_return cs
      rw [h, attributeFront, attributeFront, if_neg (Ne.symm hn), if_neg (Ne.symm hr)]
      rfl
    · rw [lineEnds_cons hc, attributeFront, attributeFront]
      split
      · rfl
      · split
        · rfl
        · rfl

theorem ignoresLineEnds_textFront : IgnoresLineEnds textFront := by
  intro cs
  cases cs with
  | nil => rfl
  | cons c cs =>
    by_cases hc : c = '\r'
    · subst hc
      obtain ⟨tail, h⟩ := exists_lineEnds_return cs
      rw [h]
      rfl
    · have hclose : after? cdataClose (lineEnds (c :: cs)) =
          (after? cdataClose (c :: cs)).map lineEnds :=
        after?_lineEnds (by decide) (by decide) (c :: cs)
      rw [lineEnds_cons hc] at hclose ⊢
      rw [textFront, textFront, hclose, Option.isSome_map]
      split
      · rw [Front.leaving, lineEnds_cons hc]
      · split
        · rfl
        · rfl

/-- One more character of a run: a carriage return before a line feed is left out in the other text,
and gives nothing here; any other character gives the same in both. -/
theorem contribution_lineEnds {α : Type} {read : List Char → Except Halt α}
    {change : α → α} {c : Char} {next : List Char} (add : List Char → α → α)
    (hnothing : ∀ r, add [] r = r) (hadd : ∀ first r, change (add first r) = add first (change r))
    (hstep : ∀ d, lineEnds (c :: next) = d :: lineEnds next →
      read (d :: lineEnds next) = contribution d (lineEnds next) >>= fun first =>
        read (lineEnds next) >>= fun r => .ok (add first r))
    (ih : Agree change (read next) (read (lineEnds next))) :
    Agree change (contribution c next >>= fun first => read next >>= fun r => .ok (add first r))
      (read (lineEnds (c :: next))) := by
  have hmore : ∀ first, Agree change (read next >>= fun r => .ok (add first r))
      (read (lineEnds next) >>= fun r => .ok (add first r)) := by
    refine fun first => ih.bind fun r => ?_
    rw [← hadd]
    exact .ok _
  by_cases hc : c = '\r'
  · subst hc
    by_cases hhead : next.head? = some '\n'
    · have hsame : (read next >>= fun r => .ok (add [] r)) = read next := by
        cases read next with
        | error e => rfl
        | ok r => exact congrArg Except.ok (hnothing r)
      rw [lineEnds_return_feed hhead, contribution, if_pos rfl, if_pos hhead, ok_bind, hsame]
      exact ih
    · rw [lineEnds_return hhead, hstep '\n' (lineEnds_return hhead), contribution, if_pos rfl,
        if_neg hhead, contribution_of_plain (by decide) (by decide)]
      exact hmore ['\n']
  · rw [lineEnds_cons hc, hstep c (lineEnds_cons hc next)]
    unfold contribution
    rw [if_neg hc, if_neg hc]
    by_cases hx : isXmlChar c = true
    · rw [if_pos hx, if_pos hx]
      exact hmore [c]
    · rw [if_neg hx, if_neg hx]
      exact .error _ _

theorem run_further {front : List Char → Front} {c : Char} {next : List Char}
    (h : front (c :: next) = .further) :
    run front (c :: next) = contribution c next >>= fun first =>
      run front next >>= fun r => .ok (first ++ r.1, r.2) := by
  rw [run, h]

theorem run_ends {front : List Char → Front} {cs rest : List Char} (h : front cs = .ends rest) :
    run front cs = .ok ([], rest) := by
  cases cs <;> rw [run, h]

theorem run_refused {front : List Char → Front} {cs : List Char} {fault : Fault}
    (h : front cs = .refused fault) : run front cs = haltAt fault cs := by
  cases cs <;> rw [run, h]

theorem run_lineEnds {front : List Char → Front} (hf : IgnoresLineEnds front) (cs : List Char) :
    Agree (Prod.map id lineEnds) (run front cs) (run front (lineEnds cs)) := by
  induction cs with
  | nil =>
    cases hfront : front [] with
    | ends rest =>
      have hends := hf []
      rw [hfront] at hends
      rw [run_ends hfront, run_ends hends]
      exact .ok ([], rest)
    | refused fault =>
      rw [lineEnds, run_refused hfront]
      exact .halt _ _ _ _
    | further =>
      rw [lineEnds, run, hfront]
      exact .halt _ _ _ _
  | cons c next ih =>
    have hsame := hf (c :: next)
    cases hfront : front (c :: next) with
    | ends rest =>
      rw [hfront] at hsame
      rw [run_ends hfront, run_ends hsame]
      exact .ok ([], rest)
    | refused fault =>
      rw [hfront] at hsame
      rw [run_refused hfront, run_refused hsame]
      exact .halt _ _ _ _
    | further =>
      rw [hfront] at hsame
      rw [run_further hfront]
      refine contribution_lineEnds (fun first r => (first ++ r.1, r.2)) (fun _ => rfl)
        (fun _ _ => rfl) (fun d hd => ?_) ih
      rw [hd] at hsame
      exact run_further hsame

theorem referencedRun_lineEnds (o : ReadOptions) {front : List Char → Front}
    (hf : IgnoresLineEnds front) (change : Char → Char) (used : Nat) (cs : List Char) :
    Agree (Prod.map id (Prod.map id lineEnds)) (referencedRun o front change used cs)
      (referencedRun o front change used (lineEnds cs)) := by
  fun_induction referencedRun o front change used cs with
  | case1 used cs rest hfront =>
    have hsame := hf cs
    rw [hfront] at hsame
    rw [referencedRun_ends hsame]
    exact .ok ([], used, rest)
  | case2 used cs fault hfront =>
    have hsame := hf cs
    rw [hfront] at hsame
    unfold referencedRun
    rw [hsame]
    exact .halt _ _ _ _
  | case3 used hfront =>
    unfold referencedRun
    rw [lineEnds, hfront]
    exact .halt _ _ _ _
  | case4 used next hused hfront =>
    have hsame := hf ('&' :: next)
    rw [hfront, lineEnds_cons (by decide)] at hsame
    rw [lineEnds_cons (by decide), referencedRun_further hsame, if_pos rfl, if_pos hused]
    exact .halt _ _ _ _
  | case5 used next hused e he hfront =>
    have hsame := hf ('&' :: next)
    have href := reference_lineEnds o.maxNameLength next
    rw [hfront, lineEnds_cons (by decide)] at hsame
    rw [he] at href
    rw [lineEnds_cons (by decide), referencedRun_further hsame, if_pos rfl, if_neg hused]
    exact href.error_bind _
  | case6 used next hused r mid hmid hfront ih =>
    have hsame := hf ('&' :: next)
    have href := reference_lineEnds o.maxNameLength next
    rw [hfront, lineEnds_cons (by decide)] at hsame
    rw [hmid] at href
    rw [lineEnds_cons (by decide), referencedRun_further hsame, if_pos rfl, if_neg hused,
      href.eq_ok, ok_bind]
    exact ih.bind fun more => .ok (r :: more.1, more.2)
  | case7 used c next hc hfront ih =>
    have hsame := hf (c :: next)
    rw [hfront] at hsame
    refine contribution_lineEnds (fun first r => (first.map change ++ r.1, r.2))
      (fun _ => rfl) (fun _ _ => rfl) (fun d hd => ?_) ih
    rw [hd] at hsame
    have hamp : d ≠ '&' := by
      rcases eq_or_eq_of_lineEnds_cons hd with rfl | rfl
      · exact hc
      · decide
    rw [referencedRun_further hsame, if_neg hamp]

theorem quoted_lineEnds (cs : List Char) :
    Agree (Prod.map id lineEnds) (quoted cs) (quoted (lineEnds cs)) := by
  cases cs with
  | nil => exact .halt _ _ _ _
  | cons q cs =>
    by_cases hq : q = '\r'
    · subst hq
      obtain ⟨tail, h⟩ := exists_lineEnds_return cs
      rw [h]
      exact .error _ _
    · rw [lineEnds_cons hq, quoted, quoted]
      by_cases hquote : q = '"' ∨ q = '\''
      · rw [if_pos hquote, if_pos hquote]
        refine run_lineEnds (ignoresLineEnds_upTo ?_ ?_ _) cs
        · rcases hquote with rfl | rfl <;> decide
        · rcases hquote with rfl | rfl <;> decide
      · rw [if_neg hquote, if_neg hquote]
        exact .error _ _

theorem attributeValue_lineEnds (o : ReadOptions) (used : Nat) (cs : List Char) :
    Agree (Prod.map id (Prod.map id lineEnds)) (attributeValue o used cs)
      (attributeValue o used (lineEnds cs)) := by
  cases cs with
  | nil => exact .halt _ _ _ _
  | cons q cs =>
    by_cases hq : q = '\r'
    · subst hq
      obtain ⟨tail, h⟩ := exists_lineEnds_return cs
      rw [h]
      exact .error _ _
    · rw [lineEnds_cons hq, attributeValue, attributeValue]
      by_cases hquote : q = '"' ∨ q = '\''
      · rw [if_pos hquote, if_pos hquote]
        refine referencedRun_lineEnds o (ignoresLineEnds_attributeFront hq ?_) _ used cs
        rcases hquote with rfl | rfl <;> decide
      · rw [if_neg hquote, if_neg hquote]
        exact .error _ _

theorem comment_lineEnds (cs : List Char) :
    Agree (Prod.map id lineEnds) (comment cs) (comment (lineEnds cs)) :=
  run_lineEnds ignoresLineEnds_commentFront cs

theorem cdata_lineEnds (cs : List Char) :
    Agree (Prod.map id lineEnds) (cdata cs) (cdata (lineEnds cs)) :=
  run_lineEnds (ignoresLineEnds_upTo (by decide) (by decide) _) cs

theorem instruction_lineEnds (limit : Nat) (cs : List Char) :
    Agree (Prod.map id lineEnds) (instruction limit cs) (instruction limit (lineEnds cs)) := by
  refine (name_lineEnds limit cs).bind fun r => ?_
  have hspace : startsWithSpace r.2 = true ↔ startsWithSpace (lineEnds r.2) = true := by
    rw [startsWithSpace_lineEnds]
  refine .ite Iff.rfl (.halt _ _ _ _) (.ite hspace ?_ ?_)
  · dsimp only [Prod.map_fst, Prod.map_snd, id]
    rw [skipSpace_lineEnds]
    exact (run_lineEnds (ignoresLineEnds_upTo (by decide) (by decide) _) _).bind fun data => .ok _
  · exact (expectAll_lineEnds (by decide) (by decide) _).bind fun rest => .ok _

/-! ## Start tags -/

theorem attributePair_lineEnds (o : ReadOptions) (used : Nat) (cs : List Char) :
    Agree (Prod.map id (Prod.map id lineEnds)) (attributePair o used cs)
      (attributePair o used (lineEnds cs)) := by
  refine (name_lineEnds o.maxNameLength cs).bind fun word => ?_
  dsimp only [Prod.map_fst, Prod.map_snd, id]
  rw [skipSpace_lineEnds]
  refine (expect_lineEnds (by decide) (by decide) _).bind fun rest => ?_
  rw [skipSpace_lineEnds]
  refine (attributeValue_lineEnds o used _).bind fun value => ?_
  exact .ite Iff.rfl (.halt _ _ _ _) (.ok _)

theorem atTagEnd_lineEnds (cs : List Char) : atTagEnd (lineEnds cs) = atTagEnd cs := by
  unfold atTagEnd
  rw [after?_lineEnds (by decide) (by decide), after?_lineEnds (by decide) (by decide),
    Option.isSome_map, Option.isSome_map]

theorem attributePairs_lineEnds (o : ReadOptions) (earlier : List Attribute) (used : Nat)
    (cs : List Char) :
    Agree (Prod.map id (Prod.map id lineEnds)) (attributePairs o earlier used cs)
      (attributePairs o earlier used (lineEnds cs)) := by
  have hend : ∀ {cs}, ¬ atTagEnd (skipSpace cs) = true →
      ¬ atTagEnd (skipSpace (lineEnds cs)) = true := by
    intro cs
    rw [skipSpace_lineEnds, atTagEnd_lineEnds]
    exact id
  have hspace : ∀ {cs}, ¬ (!startsWithSpace cs) = true →
      ¬ (!startsWithSpace (lineEnds cs)) = true := by
    intro cs
    rw [startsWithSpace_lineEnds]
    exact id
  fun_induction attributePairs o earlier used cs with
  | case1 earlier used cs hends =>
    rw [attributePairs, skipSpace_lineEnds, atTagEnd_lineEnds, if_pos hends]
    exact .ok (earlier, used, skipSpace cs)
  | case2 earlier used cs hfurther hnone =>
    rw [attributePairs, if_neg (hend hfurther), startsWithSpace_lineEnds, if_pos hnone]
    exact .halt _ _ _ _
  | case3 earlier used cs hfurther hsome e he =>
    have hpair := attributePair_lineEnds o used (skipSpace cs)
    rw [he] at hpair
    rw [attributePairs_further (hend hfurther) (hspace hsome), skipSpace_lineEnds]
    exact hpair.error_bind _
  | case4 earlier used cs hfurther hsome a used1 mid hmid hsame =>
    have hpair := attributePair_lineEnds o used (skipSpace cs)
    rw [hmid] at hpair
    rw [attributePairs_further (hend hfurther) (hspace hsome), skipSpace_lineEnds, hpair.eq_ok,
      ok_bind]
    exact (if_pos hsame).symm ▸ .halt _ _ _ _
  | case5 earlier used cs hfurther hsome a used1 mid hmid hnew ih =>
    have hpair := attributePair_lineEnds o used (skipSpace cs)
    rw [hmid] at hpair
    rw [attributePairs_further (hend hfurther) (hspace hsome), skipSpace_lineEnds, hpair.eq_ok,
      ok_bind]
    exact (if_neg hnew).symm ▸ ih

/-- The names of an element are resolved without a look at the text. -/
theorem readNames_lineEnds (o : ReadOptions) (s : Scope) (e : Element) (cs : List Char) :
    Agree id (readNames o s e cs) (readNames o s e (lineEnds cs)) := by
  unfold readNames
  refine .ite Iff.rfl ?_ (.ok _)
  cases s.enter e with
  | ok r => exact .ok r
  | error fault => exact .halt _ _ _ _

theorem startTag_lineEnds (o : ReadOptions) (s : Scope) (used : Nat) (cs : List Char) :
    Agree (Prod.map id (Prod.map id lineEnds)) (startTag o s used cs)
      (startTag o s used (lineEnds cs)) := by
  refine (name_lineEnds o.maxNameLength cs).bind fun word => ?_
  refine (attributePairs_lineEnds o [] used _).bind fun as => ?_
  exact (readNames_lineEnds o s _ _).bind fun e => .ok (e, as.2.1, as.2.2)

/-! ## Items -/

theorem itemAt_lineEnds (cs : List Char) :
    itemAt (lineEnds cs) = ((itemAt cs).1, lineEnds (itemAt cs).2) := by
  have hmarks : ∀ i : Item, '\r' ∉ i.mark ∧ '\n' ∉ i.mark := by
    intro i
    cases i <;> decide
  have hfound : (Item.marked.findSome? fun i =>
        (after? i.mark (lineEnds cs)).map fun rest => (i, rest)) =
      (Item.marked.findSome? fun i =>
        (after? i.mark cs).map fun rest => (i, rest)).map (Prod.map id lineEnds) := by
    rw [List.map_findSome?]
    refine congrArg (List.findSome? · Item.marked) (funext fun i => ?_)
    rw [after?_lineEnds (hmarks i).1 (hmarks i).2, Function.comp_apply, Option.map_map,
      Option.map_map]
    rfl
  unfold itemAt
  rw [hfound, isEmpty_lineEnds]
  cases Item.marked.findSome? fun i => (after? i.mark cs).map fun rest => (i, rest) with
  | some found => rfl
  | none => rfl

end Scan

end MarkupFields
