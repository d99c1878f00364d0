import MarkupFields.Markup.Scan
import MarkupFields.Proofs.Sequence

/-
  Runs of characters, in both directions. A run that was read holds only characters that stand for
  themselves, and no mark that its test looks for; a run of such characters, written before its end
  mark, is read back. A carriage return is the one character that does not stand for itself: it
  counts for a line feed or for nothing. A mark without a line feed in it can therefore only be found
  in what was read if it stood in the text. A run of any other characters is read with its line ends
  made equal (`lineEnds`), if the end mark is not among them.
-/

namespace MarkupFields.Scan

open Text

/-! ## Marks at the front -/

theorem after?_isSome_iff {mark cs : List Char} : (after? mark cs).isSome = true ↔ mark <+: cs := by
  rw [Option.isSome_iff_exists]
  constructor
  · rintro ⟨rest, h⟩
    rw [after?_eq_some_iff] at h
    exact ⟨rest, h.symm⟩
  · rintro ⟨rest, h⟩
    exact ⟨rest, after?_eq_some_iff.2 h.symm⟩

theorem after?_eq_none_iff {mark cs : List Char} : after? mark cs = none ↔ ¬ mark <+: cs := by
  rw [← after?_isSome_iff, Bool.not_eq_true, Option.isSome_eq_false_iff, Option.isNone_iff_eq_none]

@[simp] theorem after?_append (mark rest : List Char) : after? mark (mark ++ rest) = some rest :=
  after?_eq_some_iff.2 rfl

/-! ## Characters that stand for themselves -/

/-- The characters may stand in a document, and none of them is a carriage return. -/
def Plain (cs : List Char) : Prop :=
  ∀ c ∈ cs, isXmlChar c = true ∧ c ≠ '\r'

theorem contribution_of_plain {c : Char} (hc : isXmlChar c = true) (hr : c ≠ '\r')
    (next : List Char) : contribution c next = .ok [c] := by
  unfold contribution
  rw [if_neg hr, if_pos hc]

/-- A character counts for itself, or is a carriage return and counts for a line feed, or for
nothing before one. -/
theorem contribution_eq_ok {c : Char} {next v : List Char} (h : contribution c next = .ok v) :
    (v = [c] ∧ isXmlChar c = true ∧ c ≠ '\r') ∨ (v = ['\n'] ∧ c = '\r') ∨
      (v = [] ∧ c = '\r' ∧ next.head? = some '\n') := by
  unfold contribution at h
  by_cases hr : c = '\r'
  · rw [if_pos hr] at h
    by_cases hn : next.head? = some '\n'
    · rw [if_pos hn, Except.ok.injEq] at h
      exact .inr (.inr ⟨h.symm, hr, hn⟩)
    · rw [if_neg hn, Except.ok.injEq] at h
      exact .inr (.inl ⟨h.symm, hr⟩)
  · rw [if_neg hr] at h
    by_cases hc : isXmlChar c = true
    · rw [if_pos hc, Except.ok.injEq] at h
      exact .inl ⟨h.symm, hc, hr⟩
    · rw [if_neg hc] at h
      cases h

theorem plain_of_contribution {c : Char} {next v : List Char} (h : contribution c next = .ok v) :
    Plain v := by
  intro d hd
  rcases contribution_eq_ok h with ⟨rfl, hc, hr⟩ | ⟨rfl, -⟩ | ⟨rfl, -⟩
  · rw [List.mem_singleton] at hd
    exact hd ▸ ⟨hc, hr⟩
  · rw [List.mem_singleton] at hd
    exact hd ▸ ⟨by decide, by decide⟩
  · cases hd

/-! ## What was read in a run -/

/-- A run ends, or takes a first character and goes on. -/
theorem run_eq_ok {front : List Char → Front} {cs v rest : List Char}
    (h : run front cs = .ok (v, rest)) :
    (v = [] ∧ front cs = .ends rest) ∨
      ∃ c next first more, cs = c :: next ∧ front cs = .further ∧
        contribution c next = .ok first ∧ run front next = .ok (more, rest) ∧
        v = first ++ more := by
  cases cs with
  | nil =>
    unfold run at h
    split at h
    · rename_i r hr
      rw [Except.ok.injEq, Prod.mk.injEq] at h
      exact .inl ⟨h.1.symm, h.2 ▸ hr⟩
    · cases h
    · cases h
  | cons c next =>
    unfold run at h
    split at h
    · rename_i r hr
      rw [Except.ok.injEq, Prod.mk.injEq] at h
      exact .inl ⟨h.1.symm, h.2 ▸ hr⟩
    · cases h
    · rename_i hf
      obtain ⟨first, hfirst, h⟩ := bind_eq_ok.1 h
      obtain ⟨p, hp, h⟩ := bind_eq_ok.1 h
      rw [Except.ok.injEq, Prod.mk.injEq] at h
      refine .inr ⟨c, next, first, p.1, rfl, hf, hfirst, ?_, h.1.symm⟩
      rw [hp, ← h.2]

theorem plain_of_run {front : List Char → Front} {cs v rest : List Char}
    (h : run front cs = .ok (v, rest)) : Plain v := by
  induction cs generalizing v with
  | nil =>
    rcases run_eq_ok h with ⟨rfl, -⟩ | ⟨c, next, first, more, he, -⟩
    · intro c hc
      cases hc
    · cases he
  | cons c cs ih =>
    rcases run_eq_ok h with ⟨rfl, -⟩ | ⟨d, next, first, more, he, -, hfirst, hmore, rfl⟩
    · intro c hc
      cases hc
    · rw [List.cons.injEq] at he
      obtain ⟨rfl, rfl⟩ := he
      intro e hm
      rw [List.mem_append] at hm
      rcases hm with hm | hm
      · exact plain_of_contribution hfirst e hm
      · exact ih hmore e hm

/-- The run ends where its end mark stands, and nowhere else. -/
def EndsAt (front : List Char → Front) (mark : List Char) : Prop :=
  ∀ cs rest, front cs = .ends rest → cs = mark ++ rest

/-- Before a line feed a run takes the line feed first, if it takes anything. -/
theorem head_of_run {front : List Char → Front} {u w m next v rest : List Char} {x : Char}
    (he : EndsAt front (u ++ w)) (hn : next.head? = some '\n')
    (h : run front next = .ok (v, rest)) (hp : x :: m <+: v ++ u) : x = '\n' := by
  rcases run_eq_ok h with ⟨rfl, hends⟩ | ⟨c, after, first, more, rfl, -, hfirst, -, rfl⟩
  · cases u with
    | nil => simp at hp
    | cons y u =>
      rw [he next rest hends, List.cons_append, List.cons_append, List.head?_cons,
        Option.some.injEq] at hn
      rw [List.nil_append, List.cons_prefix_cons] at hp
      rw [hp.1, hn]
  · rw [List.head?_cons, Option.some.injEq] at hn
    subst hn
    rw [contribution_of_plain (by decide) (by decide), Except.ok.injEq] at hfirst
    rw [← hfirst, List.append_assoc, List.singleton_append, List.cons_prefix_cons] at hp
    exact hp.1

/-- What stands at the front of what was read, with the beginning `u` of the end mark after it,
stood at the front of the text, unless it holds a line feed. -/
theorem prefix_of_run {front : List Char → Front} {u w m cs v rest : List Char}
    (he : EndsAt front (u ++ w)) (hm : '\n' ∉ m) (h : run front cs = .ok (v, rest))
    (hp : m <+: v ++ u) : m <+: cs := by
  induction m generalizing cs v with
  | nil => exact List.nil_prefix
  | cons x m ih =>
    rw [List.mem_cons, not_or] at hm
    rcases run_eq_ok h with ⟨rfl, hends⟩ | ⟨c, next, first, more, rfl, -, hfirst, hmore, rfl⟩
    · rw [he cs rest hends, List.append_assoc]
      exact hp.trans (List.prefix_append _ _)
    · rw [List.append_assoc] at hp
      rcases contribution_eq_ok hfirst with ⟨rfl, -⟩ | ⟨rfl, -⟩ | ⟨rfl, -, hn⟩
      · rw [List.singleton_append, List.cons_prefix_cons] at hp
        rw [List.cons_prefix_cons]
        exact ⟨hp.1, ih hm.2 hmore hp.2⟩
      · rw [List.singleton_append, List.cons_prefix_cons] at hp
        exact absurd hp.1.symm hm.1
      · -- the carriage return counted for nothing, so the line feed after it comes first
        exact absurd (head_of_run he hn hmore hp).symm hm.1

/-- A mark that stops a run wherever it stands is nowhere in what was read, not even partly in the
end mark. -/
theorem not_infix_of_run {front : List Char → Front} {u w m cs v rest : List Char}
    (he : EndsAt front (u ++ w)) (hm : '\n' ∉ m) (hu : m.length > u.length)
    (hs : ∀ l, m <+: l → front l ≠ .further) (h : run front cs = .ok (v, rest)) :
    ¬ m <:+: v ++ u := by
  induction cs generalizing v with
  | nil =>
    rcases run_eq_ok h with ⟨rfl, -⟩ | ⟨c, next, first, more, hc, -⟩
    · intro hi
      have := hi.length_le
      rw [List.nil_append] at this
      omega
    · cases hc
  | cons c cs ih =>
    rcases run_eq_ok h with ⟨rfl, -⟩ | ⟨d, next, first, more, hc, hf, hfirst, hmore, rfl⟩
    · intro hi
      have := hi.length_le
      rw [List.nil_append] at this
      omega
    · rw [List.cons.injEq] at hc
      obtain ⟨rfl, rfl⟩ := hc
      have hfront : ¬ m <+: first ++ more ++ u := by
        intro hp
        exact hs _ (prefix_of_run he hm h hp) hf
      rcases contribution_eq_ok hfirst with ⟨rfl, -⟩ | ⟨rfl, -⟩ | ⟨rfl, -⟩
      · rw [List.append_assoc, List.singleton_append, List.infix_cons_iff, not_or]
        rw [List.append_assoc, List.singleton_append] at hfront
        exact ⟨hfront, ih hmore⟩
      · rw [List.append_assoc, List.singleton_append, List.infix_cons_iff, not_or]
        rw [List.append_assoc, List.singleton_append] at hfront
        exact ⟨hfront, ih hmore⟩
      · exact ih hmore

/-! ## Line ends -/

/-- The characters as they are read: a carriage return counts for nothing before a line feed, and for
a line feed elsewhere. -/
def lineEnds : List Char → List Char
  | [] => []
  | c :: cs =>
    (if c = '\r' then if cs.head? = some '\n' then [] else ['\n'] else [c]) ++ lineEnds cs

theorem lineEnds_of_not_mem {cs : List Char} (h : '\r' ∉ cs) : lineEnds cs = cs := by
  induction cs with
  | nil => rfl
  | cons c cs ih =>
    rw [List.mem_cons, not_or] at h
    rw [lineEnds, if_neg (Ne.symm h.1), ih h.2, List.singleton_append]

/-- Line ends that were made equal hold no carriage return. -/
theorem mem_lineEnds {cs : List Char} {c : Char} (h : c ∈ lineEnds cs) :
    c ≠ '\r' ∧ (c ∈ cs ∨ c = '\n') := by
  induction cs with
  | nil => cases h
  | cons d cs ih =>
    rw [lineEnds, List.mem_append] at h
    rcases h with h | h
    · split at h
      · split at h
        · cases h
        · rw [List.mem_singleton.1 h]
          exact ⟨by decide, .inr rfl⟩
      · rename_i hd
        rw [List.mem_singleton.1 h]
        exact ⟨hd, .inl List.mem_cons_self⟩
    · exact ⟨(ih h).1, (ih h).2.imp_left (List.mem_cons_of_mem d)⟩

theorem Plain.not_mem {cs : List Char} (h : Plain cs) : '\r' ∉ cs :=
  fun hm => (h _ hm).2 rfl

/-! ## Reading a run that was written -/

/-- What a character contributes does not depend on what follows the text, unless a carriage return
at its end is followed by a line feed. -/
theorem contribution_append {c : Char} (hc : isXmlChar c = true) {v tail : List Char}
    (hn : (c :: v).getLast? = some '\r' → tail.head? ≠ some '\n') :
    contribution c (v ++ tail) =
      .ok (if c = '\r' then if v.head? = some '\n' then [] else ['\n'] else [c]) := by
  by_cases hr : c = '\r'
  · subst hr
    have hhead : (v ++ tail).head? = some '\n' ↔ v.head? = some '\n' := by
      cases v with
      | nil => exact iff_of_false (hn rfl) (by simp)
      | cons d v => rfl
    unfold contribution
    simp only [↓reduceIte, hhead]
  · rw [if_neg hr]
    exact contribution_of_plain hc hr _

/-- Characters that may stand in a document are read with their line ends made equal, up to the end
of the run. -/
theorem run_raw {front : List Char → Front} {v tail rest : List Char}
    (hv : ∀ c ∈ v, isXmlChar c = true) (hn : v.getLast? = some '\r' → tail.head? ≠ some '\n')
    (hf : ∀ c w, c :: w <:+ v → front (c :: w ++ tail) = .further)
    (ht : front tail = .ends rest) : run front (v ++ tail) = .ok (lineEnds v, rest) := by
  induction v with
  | nil =>
    rw [List.nil_append]
    cases tail <;> simp [run, lineEnds, ht]
  | cons c v ih =>
    have hmore := ih (fun d hd => hv d (List.mem_cons_of_mem c hd))
      (fun hlast => hn (by rw [List.getLast?_cons, hlast]; rfl))
      (fun d w hw => hf d w (hw.trans (List.suffix_cons c v)))
    have hfront := hf c v (List.suffix_refl _)
    have hfirst := contribution_append (hv c List.mem_cons_self) hn
    rw [List.cons_append] at hfront ⊢
    unfold run
    rw [hfront]
    simp only [bind, Except.bind, hfirst, hmore, lineEnds]

/-- Characters that stand for themselves are read as they are, up to the end of the run. -/
theorem run_written {front : List Char → Front} {v tail rest : List Char} (hv : Plain v)
    (hf : ∀ c w, c :: w <:+ v → front (c :: w ++ tail) = .further)
    (ht : front tail = .ends rest) : run front (v ++ tail) = .ok (v, rest) := by
  have hraw := run_raw (fun c hc => (hv c hc).1)
    (fun hlast => absurd (List.mem_of_getLast? hlast) hv.not_mem) hf ht
  rwa [lineEnds_of_not_mem hv.not_mem] at hraw

/-- A mark that is not in a text, not even partly in the end mark, does not begin there. -/
theorem after?_eq_none_of_suffix {m u v l tail : List Char} {c : Char}
    (hm : ¬ m <:+: v ++ u) (hu : m.length ≤ u.length + 1) (hs : c :: l <:+ v) :
    after? m (c :: l ++ (u ++ tail)) = none := by
  rw [after?_eq_none_iff]
  intro hp
  have hlen : m.length ≤ (c :: l ++ u).length := by
    rw [List.length_append, List.length_cons]
    omega
  have hpre : m <+: c :: l ++ u := by
    refine List.prefix_of_prefix_length_le hp ?_ hlen
    rw [← List.append_assoc]
    exact List.prefix_append _ _
  obtain ⟨front, rfl⟩ := hs
  refine hm (hpre.isInfix.trans ?_)
  rw [List.append_assoc]
  exact (List.suffix_append _ _).isInfix

/-! ## The three kinds of run -/

theorem endsAt_upTo (mark : List Char) (fault : Fault) : EndsAt (upTo mark fault) mark := by
  intro cs rest h
  unfold upTo at h
  split at h
  · rename_i r hr
    rw [Front.ends.injEq] at h
    exact h ▸ after?_eq_some_iff.1 hr
  · split at h <;> cases h

theorem upTo_ne_further {mark cs : List Char} {fault : Fault} (h : mark <+: cs) :
    upTo mark fault cs ≠ .further := by
  obtain ⟨rest, rfl⟩ := h
  unfold upTo
  rw [after?_append]
  exact Front.noConfusion

/-- The characters stand for themselves, and the mark `u ++ [z]` is not among them. -/
def Ended (u : List Char) (z : Char) (v : List Char) : Prop :=
  Plain v ∧ ¬ u ++ [z] <:+: v ++ u

/-- Characters between an opening and an end mark are free of the end mark. -/
theorem ended_of_run {u cs v rest : List Char} {z : Char} {fault : Fault} (hm : '\n' ∉ u ++ [z])
    (h : run (upTo (u ++ [z]) fault) cs = .ok (v, rest)) : Ended u z v := by
  refine ⟨plain_of_run h, ?_⟩
  refine not_infix_of_run (endsAt_upTo _ _) hm ?_ (fun l hl => upTo_ne_further hl) h
  rw [List.length_append, List.length_singleton]
  omega

/-- Where the mark is not in a text, a run up to the mark goes on through the text. -/
theorem upTo_further {u v w : List Char} {z c : Char} (fault : Fault)
    (hm : ¬ u ++ [z] <:+: v ++ u) (hs : c :: w <:+ v) (rest : List Char) :
    upTo (u ++ [z]) fault (c :: w ++ (u ++ z :: rest)) = .further := by
  have hlen : (u ++ [z]).length ≤ u.length + 1 := by
    simp only [List.length_append, List.length_singleton, Nat.le_refl]
  unfold upTo
  rw [after?_eq_none_of_suffix hm hlen hs]
  rfl

theorem upTo_ends (u : List Char) (z : Char) (fault : Fault) (rest : List Char) :
    upTo (u ++ [z]) fault (u ++ z :: rest) = .ends rest := by
  unfold upTo
  rw [show u ++ z :: rest = u ++ [z] ++ rest by simp, after?_append]

/-- Characters free of the end mark are read back as they were written before it. -/
theorem run_upTo_written {u v : List Char} {z : Char} {fault : Fault} (h : Ended u z v)
    (rest : List Char) : run (upTo (u ++ [z]) fault) (v ++ (u ++ z :: rest)) = .ok (v, rest) :=
  run_written h.1 (fun _ _ hw => upTo_further fault h.2 hw rest) (upTo_ends u z fault rest)

/-- A mark that is nowhere in a text is nowhere in it even with the beginning of the mark behind it,
if the last character of the mark is not in that beginning. -/
theorem not_infix_append {u v : List Char} {z : Char} (hz : z ∉ u) (h : ¬ u ++ [z] <:+: v) :
    ¬ u ++ [z] <:+: v ++ u := by
  rintro ⟨front, back, hsplit⟩
  refine h ⟨front, back.take (back.length - u.length), ?_⟩
  have hlen := congrArg List.length hsplit
  simp only [List.length_append, List.length_singleton] at hlen
  -- the last character of the mark stands before the `u` behind the text
  have hback : u.length ≤ back.length := by
    refine Nat.le_of_not_lt fun hshort => hz ?_
    have hsuffix : z :: back <:+ v ++ u := ⟨front ++ u, by rw [← hsplit]; simp⟩
    have hlast : z :: back <:+ u :=
      List.suffix_of_suffix_length_le hsuffix (List.suffix_append v u) hshort
    exact hlast.subset List.mem_cons_self
  have htake := congrArg (List.take v.length) hsplit
  rw [List.take_left, List.take_append, List.take_of_length_le (by simp; omega)] at htake
  rw [← htake]
  congr 2
  simp only [List.length_append, List.length_singleton]
  omega

/-- Characters among which the end mark is not are read up to it, with their line ends made equal. -/
theorem run_upTo_raw {u v : List Char} {z : Char} {fault : Fault} (hz : '\n' ∉ u ++ [z])
    (hu : z ∉ u) (hv : ∀ c ∈ v, isXmlChar c = true) (hm : ¬ u ++ [z] <:+: v) (rest : List Char) :
    run (upTo (u ++ [z]) fault) (v ++ (u ++ z :: rest)) = .ok (lineEnds v, rest) := by
  have hhead : (u ++ z :: rest).head? ≠ some '\n' := by
    intro hn
    refine hz ?_
    cases u with
    | nil => exact List.mem_singleton.2 (Option.some.inj hn).symm
    | cons d u => exact Option.some.inj hn ▸ List.mem_cons_self
  exact run_raw hv (fun _ => hhead)
    (fun _ _ hw => upTo_further fault (not_infix_append hu hm) hw rest) (upTo_ends u z fault rest)

/-- The inside of a CDATA section that was read can be written again. -/
theorem ended_of_cdata {cs v rest : List Char} (h : cdata cs = .ok (v, rest)) :
    Ended [']', ']'] '>' v :=
  ended_of_run (u := [']', ']']) (z := '>') (by decide) h

/-- CDATA without the end mark in it is read up to the end mark. -/
theorem cdata_raw {v : List Char} (hv : ∀ c ∈ v, isXmlChar c = true) (hm : ¬ cdataClose <:+: v)
    (rest : List Char) : cdata (v ++ (cdataClose ++ rest)) = .ok (lineEnds v, rest) :=
  run_upTo_raw (u := [']', ']']) (by decide) (by decide) hv hm rest

/-- The inside of a comment: no two hyphens, and no hyphen before the end mark. -/
def CommentText (v : List Char) : Prop :=
  Plain v ∧ ¬ ['-', '-'] <:+: v ++ ['-']

theorem endsAt_commentFront : EndsAt commentFront commentClose := by
  intro cs rest h
  unfold commentFront at h
  split at h
  · rename_i r hr
    rw [Front.ends.injEq] at h
    exact h ▸ after?_eq_some_iff.1 hr
  · split at h
    · cases h
    · split at h <;> cases h

theorem commentFront_ne_further {cs : List Char} (h : ['-', '-'] <+: cs) :
    commentFront cs ≠ .further := by
  obtain ⟨rest, rfl⟩ := h
  unfold commentFront
  rw [after?_append]
  split <;> simp

/-- The inside of a comment that was read can be written again. -/
theorem commentText_of_comment {cs v rest : List Char} (h : comment cs = .ok (v, rest)) :
    CommentText v := by
  refine ⟨plain_of_run h, ?_⟩
  have he : EndsAt commentFront (['-'] ++ ['-', '>']) := endsAt_commentFront
  exact not_infix_of_run he (by decide) (by decide) (fun l hl => commentFront_ne_further hl) h

theorem commentFront_further {v w : List Char} {c : Char} (hm : ¬ ['-', '-'] <:+: v ++ ['-'])
    (hs : c :: w <:+ v) (rest : List Char) :
    commentFront (c :: w ++ (commentClose ++ rest)) = .further := by
  have hnone : after? ['-', '-'] (c :: w ++ (commentClose ++ rest)) = none :=
    after?_eq_none_of_suffix (u := ['-']) hm (by decide) hs
  have hclose : after? commentClose (c :: w ++ (commentClose ++ rest)) = none := by
    rw [after?_eq_none_iff] at hnone ⊢
    intro hp
    exact hnone (List.IsPrefix.trans ⟨['>'], rfl⟩ hp)
  unfold commentFront
  rw [hclose, hnone]
  rfl

theorem commentFront_ends (rest : List Char) :
    commentFront (commentClose ++ rest) = .ends rest := by
  unfold commentFront
  rw [after?_append]

/-- A comment without two hyphens in it, and without one at its end, is read up to the end mark. -/
theorem comment_raw {v : List Char} (hv : ∀ c ∈ v, isXmlChar c = true)
    (hm : ¬ ['-', '-'] <:+: v ++ ['-']) (rest : List Char) :
    comment (v ++ (commentClose ++ rest)) = .ok (lineEnds v, rest) :=
  run_raw hv (fun _ => by simp [commentClose])
    (fun _ _ hw => commentFront_further hm hw rest) (commentFront_ends rest)

end MarkupFields.Scan
