import MarkupFields.Proofs.Markup.WellFormed
import MarkupFields.Proofs.Tree.Outline

/-
  What the limit on depth refuses. It is asked where an element is nested inside the open ones. These
  are the elements around it in the tree that is read in the end, and what is complete inside an open
  element stays in that tree. So if the result of a reading keeps to another limit on depth, every
  state on the way did (`ReadState.step_toDepth`), and the reading takes the same steps under that
  limit. What is read is read under another limit exactly if no element of it lies deeper
  (`Markup.parse_limits`).
-/

namespace MarkupFields

open Text Scan

/-- The same choices and limits, but another limit on depth. -/
def ReadOptions.toDepth (o : ReadOptions) (n : Nat) : ReadOptions :=
  { o with maxDepth := n }

/-! ## Depth in the tree -/

/-- The height of a forest is the greatest depth of its elements, where the depth of the top level is
one. -/
theorem Forest.forall_outline_le_iff {f : Forest Content} (h : f.LeavesBare) (depth n : Nat) :
    (∀ x ∈ f.outline (depth + 1), x.2.isElement = true → x.1 ≤ depth + n) ↔ f.height ≤ n := by
  induction f generalizing depth n with
  | nil => exact iff_of_true (fun x hx => absurd hx List.not_mem_nil) (Nat.zero_le n)
  | cons c below beside ihb ihs =>
    obtain ⟨hleaf, hbelow, hbeside⟩ := leavesBare_cons.1 h
    rw [outline, List.forall_mem_cons, List.forall_mem_append, ihs hbeside]
    cases hc : c.isElement with
    | false =>
      rw [height_leaf hc, hleaf hc]
      exact ⟨fun h => h.2.2, fun h => ⟨fun he => absurd he Bool.false_ne_true,
        fun x hx => absurd hx List.not_mem_nil, h⟩⟩
    | true =>
      rw [height, hc, if_pos rfl, Nat.max_le]
      cases n with
      | zero =>
        refine iff_of_false (fun h => ?_) (fun h => absurd h.1 (Nat.not_succ_le_zero _))
        exact absurd (h.1 rfl) (Nat.not_succ_le_self depth)
      | succ n =>
        rw [Nat.add_le_add_iff_right, ← ihb hbelow (depth + 1) n, Nat.add_right_comm depth 1 n]
        exact ⟨fun h => h.2, fun h => ⟨fun _ => by omega, h⟩⟩

/-! ## Depth on the way -/

namespace ReadState

/-- The open elements, and those that are complete inside them, are nested no deeper than the
limit. -/
def NestedWithin (n : Nat) : List OpenElement → Prop
  | [] => True
  | e :: around => around.length + 1 + e.content.height ≤ n ∧ NestedWithin n around

end ReadState

/-- What a step comes to is nested no deeper than the limit. -/
def ReadProgress.NestedWithin (n : Nat) : ReadProgress → Prop
  | .going s => ReadState.NestedWithin n (s.innermost :: s.enclosing)
  | .complete root _ => (Forest.cons root.1 root.2 .nil).height ≤ n

namespace ReadState

variable {o : ReadOptions} {n : Nat} {around : List OpenElement} {s : ReadState}
  {p : ReadProgress}

/-- A tree that has been placed is not deeper where it stands, and the elements around it were not
deeper before. -/
theorem nestedWithin_of_place {t : ContentTree} {used : Nat} {rest : List Char}
    (h : (place t used rest around).NestedWithin n) :
    around.length + (Forest.cons t.1 t.2 .nil).height ≤ n ∧ NestedWithin n around := by
  cases around with
  | nil =>
    rw [List.length_nil, Nat.zero_add]
    exact ⟨h, trivial⟩
  | cons e around =>
    have hheight : around.length + 1 + (e.add t).content.height ≤ n := h.1
    rw [OpenElement.content_add, Forest.height_append] at hheight
    rw [List.length_cons]
    exact ⟨by omega, by omega, h.2⟩

theorem nestedWithin_of_addLeaf {e : OpenElement} {c : Content}
    (h : NestedWithin n (e.addLeaf c :: around)) : NestedWithin n (e :: around) := by
  have hplaced : (place (c, .nil) 0 [] (e :: around)).NestedWithin n := h
  exact (nestedWithin_of_place hplaced).2

theorem nestedWithin_of_addText {e : OpenElement} {cs : List Char}
    (h : NestedWithin n (e.addText o cs :: around)) : NestedWithin n (e :: around) := by
  unfold OpenElement.addText at h
  split at h
  · exact h
  · exact nestedWithin_of_addLeaf h

/-- Inside the open elements there was room for one more. -/
theorem nestedWithin_of_openElement {used : Nat} {cs : List Char}
    (h : openElement o around used cs = .ok p) (hp : p.NestedWithin n) :
    around.length + 1 ≤ n ∧ NestedWithin n around := by
  obtain ⟨⟨⟨scope, e⟩, used', cs'⟩, -, h⟩ := bind_eq_ok.1 h
  dsimp only at h
  split at h
  · cases h
    exact nestedWithin_of_place hp
  · obtain ⟨rest, -, h⟩ := bind_eq_ok.1 h
    cases h
    exact ⟨Nat.le_of_add_right_le hp.1, hp.2⟩

theorem nestedWithin_of_closeElement {cs : List Char} (h : s.closeElement o cs = .ok p)
    (hp : p.NestedWithin n) : NestedWithin n (s.innermost :: s.enclosing) := by
  obtain ⟨word, -, h⟩ := bind_eq_ok.1 h
  dsimp only at h
  split at h
  · cases h
  · obtain ⟨rest, -, h⟩ := bind_eq_ok.1 h
    cases h
    obtain ⟨hheight, henclosing⟩ := nestedWithin_of_place hp
    have hroot : (Forest.cons s.innermost.tree.1 s.innermost.tree.2 .nil).height =
        s.innermost.content.height + 1 := Nat.max_zero _
    exact ⟨by omega, henclosing⟩

/-- A node that is a leaf, read inside the innermost element. -/
theorem nestedWithin_of_leaf {α : Type} {x : Except Halt (α × List Char)}
    {leaf : α × List Char → Content}
    (h : (x >>= fun r => .ok (.going
      { s with innermost := s.innermost.addLeaf (leaf r), rest := r.2 })) = .ok p)
    (hp : p.NestedWithin n) : NestedWithin n (s.innermost :: s.enclosing) := by
  obtain ⟨r, -, h⟩ := bind_eq_ok.1 h
  cases h
  exact nestedWithin_of_addLeaf hp

theorem openElement_toDepth (around : List OpenElement) (used : Nat) (cs : List Char) :
    openElement (o.toDepth n) around used cs = openElement o around used cs := by
  unfold openElement
  rw [startTag_congr (o := o) (q := o.toDepth n) rfl rfl rfl]

theorem nestElement_toDepth {used : Nat} {whole cs : List Char}
    (h : nestElement o around used whole cs = .ok p) (hp : p.NestedWithin n) :
    nestElement (o.toDepth n) around used whole cs = .ok p ∧ NestedWithin n around := by
  unfold nestElement at h ⊢
  split at h
  · cases h
  · obtain ⟨hdepth, haround⟩ := nestedWithin_of_openElement h hp
    have hallowed : ¬ around.length + 1 > (o.toDepth n).maxDepth := Nat.not_lt.2 hdepth
    rw [if_neg hallowed, openElement_toDepth]
    exact ⟨h, haround⟩

/-- A step to where nothing is deeper than a limit comes from where nothing is, and it is taken under
that limit as well. -/
theorem step_toDepth (h : s.step o = .ok p) (hp : p.NestedWithin n) :
    s.step (o.toDepth n) = .ok p ∧ NestedWithin n (s.innermost :: s.enclosing) := by
  unfold step at h ⊢
  split at h
  · cases h
  · exact ⟨h, nestedWithin_of_closeElement h hp⟩
  · exact ⟨h, nestedWithin_of_leaf h hp⟩
  · exact ⟨h, nestedWithin_of_leaf h hp⟩
  · exact ⟨h, nestedWithin_of_leaf h hp⟩
  · exact nestElement_toDepth h hp
  · have hsame : characterData (o.toDepth n) s.used s.rest = characterData o s.used s.rest := by
      unfold characterData
      exact referencedRun_congr (o := o) (q := o.toDepth n) rfl rfl textFront id s.used s.rest
    rw [hsame]
    refine ⟨h, ?_⟩
    obtain ⟨r, -, h⟩ := bind_eq_ok.1 h
    cases h
    exact nestedWithin_of_addText hp

/-- A run to a root that is not deeper than a limit is one under that limit. -/
theorem run_toDepth {r : ContentTree × List Char} (h : s.run o = .ok r)
    (hr : (Forest.cons r.1.1 r.1.2 .nil).height ≤ n) :
    s.run (o.toDepth n) = .ok r ∧ NestedWithin n (s.innermost :: s.enclosing) := by
  fun_induction run o s with
  | case1 => cases h
  | case2 s root rest hstep =>
    cases h
    obtain ⟨hstep', hs⟩ := step_toDepth hstep hr
    rw [run_eq, hstep']
    exact ⟨rfl, hs⟩
  | case3 s s' hstep ih =>
    obtain ⟨hrun, hs'⟩ := ih h
    obtain ⟨hstep', hs⟩ := step_toDepth hstep hs'
    rw [run_eq, hstep']
    exact ⟨hrun, hs⟩

end ReadState

/-! ## Documents -/

namespace Scan

variable {o : ReadOptions} {n : Nat} {cs : List Char}

theorem rootElement_toDepth {r : ContentTree × List Char} (h : rootElement o cs = .ok r)
    (hr : (Forest.cons r.1.1 r.1.2 .nil).height ≤ n) : rootElement (o.toDepth n) cs = .ok r := by
  unfold rootElement at h ⊢
  split at h
  · split at h
    · cases h
    · rename_i hmark
      rw [if_neg hmark]
      split at h
      · cases h
      · rename_i root rest' hnest
        cases h
        rw [(ReadState.nestElement_toDepth hnest hr).1]
      · rename_i s hnest
        obtain ⟨hrun, hs⟩ := ReadState.run_toDepth h hr
        rw [(ReadState.nestElement_toDepth hnest hs).1]
        exact hrun
  · cases h

/-- A document none of whose elements is deeper than a limit is read under it. -/
theorem document_toDepth {m : Markup} (h : document o cs = .ok m) (hm : m.top.height ≤ n) :
    document (o.toDepth n) cs = .ok m := by
  have hmiscellany : ∀ cs, miscellany (o.toDepth n) cs = miscellany o cs := miscellany_congr rfl
  have hafter : ∀ cs, afterDoctype (o.toDepth n) cs = afterDoctype o cs := afterDoctype_congr rfl
  obtain ⟨d, hd, h⟩ := bind_eq_ok.1 h
  obtain ⟨before, hbefore, h⟩ := bind_eq_ok.1 h
  obtain ⟨between, hbetween, h⟩ := bind_eq_ok.1 h
  obtain ⟨root, hroot, h⟩ := bind_eq_ok.1 h
  obtain ⟨behind, hbehind, h⟩ := bind_eq_ok.1 h
  dsimp only at h
  split at h
  · rename_i hend
    cases h
    have hsplit : Forest.cons root.1.1 root.1.2 behind.1 =
        .cons root.1.1 root.1.2 .nil ++ behind.1 := rfl
    rw [hsplit, Forest.height_append, Forest.height_append (.cons root.1.1 root.1.2 .nil)] at hm
    refine bind_eq_ok.2 ⟨d, hd, ?_⟩
    refine bind_eq_ok.2 ⟨before, (hmiscellany d.2).trans hbefore, ?_⟩
    refine bind_eq_ok.2 ⟨between, (hafter before.2).trans hbetween, ?_⟩
    refine bind_eq_ok.2 ⟨root, rootElement_toDepth hroot (by omega), ?_⟩
    refine bind_eq_ok.2 ⟨behind, (hmiscellany root.2).trans hbehind, ?_⟩
    exact if_pos hend
  · cases h

end Scan

/-- The limits of reading decide whether a text is read, never as what. What was read is read as the
same under limits that are not lower; and with another limit on depth, the others unchanged, the text
is read as that and nothing else, exactly if no element is nested deeper, where the depth of the root
is one. -/
theorem Markup.parse_limits {o : ReadOptions} {t : String} {m : Markup}
    (h : Markup.parse o t = .ok m) :
    (∀ o' : ReadOptions, o.Allows o' → Markup.parse o' t = .ok m) ∧
      ∀ (n : Nat) (m' : Markup), Markup.parse (o.toDepth n) t = .ok m' ↔
        m' = m ∧ ∀ x ∈ m.top.outline 1, x.2.isElement = true → x.1 ≤ n := by
  refine ⟨fun o' ho => parse_of_allows ho h, fun n m' => ?_⟩
  have hdepth := Forest.forall_outline_le_iff (legal_of_read h).leavesBare 0 n
  rw [Nat.zero_add, Nat.zero_add] at hdepth
  rw [hdepth]
  constructor
  · intro h'
    -- under a limit on depth that is above both, the text is read as either
    let higher := o.toDepth (max o.maxDepth n)
    have ho : o.Allows higher :=
      ⟨rfl, rfl, Nat.le_max_left _ _, Nat.le_refl _, Nat.le_refl _⟩
    have ho' : (o.toDepth n).Allows higher :=
      ⟨rfl, rfl, Nat.le_max_right _ _, Nat.le_refl _, Nat.le_refl _⟩
    have hsame := parse_of_allows ho h
    rw [parse_of_allows ho' h', Except.ok.injEq] at hsame
    subst hsame
    exact ⟨rfl, (within_of_parse h').2.1⟩
  · rintro ⟨rfl, hheight⟩
    exact parse_eq_ok.2 (Scan.document_toDepth (parse_eq_ok.1 h) hheight)

/-- Elements beside deeper ones, and one at the greatest depth that closes itself. -/
theorem Markup.parse_limits_nested :
    let o : ReadOptions := {}
    let t := "<!--c--><a><b><c/>x</b><b/><b>y</b></a>"
    let b : Forest Content → Forest Content → Forest Content :=
      .cons (.element ⟨⟨none, "b"⟩, none, []⟩)
    let m : Markup := ⟨.absent, .cons (.comment "c") .nil
      (.cons (.element ⟨⟨none, "a"⟩, none, []⟩)
        (b (.cons (.element ⟨⟨none, "c"⟩, none, []⟩) .nil (.leaf (.text "x")))
          (b .nil (b (.leaf (.text "y")) .nil))) .nil)⟩
    Markup.parse o t = .ok m ∧ ∀ n, Markup.parse (o.toDepth n) t = .ok m ↔ 3 ≤ n := by
  intro o t b m
  have hparse : Markup.parse o t = .ok m := by decide +kernel
  refine ⟨hparse, fun n => ?_⟩
  have hdeepest : ∀ x ∈ m.top.outline 1, x.2.isElement = true → x.1 ≤ 3 := by decide +kernel
  rw [(Markup.parse_limits hparse).2 n m]
  constructor
  · rintro ⟨-, hwithin⟩
    exact hwithin (3, .element ⟨⟨none, "c"⟩, none, []⟩) (by decide +kernel) rfl
  · exact fun hn => ⟨rfl, fun x hx he => Nat.le_trans (hdeepest x hx he) hn⟩

end MarkupFields
