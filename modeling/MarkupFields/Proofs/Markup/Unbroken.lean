import MarkupFields.Proofs.Markup.Indented
import MarkupFields.Proofs.Markup.WellFormed

/-
  Elements after indentation. It is decided for each element anew whether its children stand on lines
  of their own, inside an element with mixed content as well. So mixed content is not left as it is:
  a broken element somewhere in it adds line breaks to its text (`Markup.not_parse_indented_mixed`).
  What is below an element is read back unchanged if neither its children nor those of an element
  below it stand on lines of their own (`Markup.parse_indented_unbroken`).
-/

namespace MarkupFields

open Text Scan

variable {w : WriteOptions}

/-! ## The elements one by one -/

/-- The elements of a forest, each with what is below it, in document order. -/
def Forest.elementTrees (f : Forest Content) : List ContentTree :=
  f.subtrees.filter fun t => t.1.isElement

/-- For no node of the tree, the root among them, do children stand on lines of their own. -/
def ContentTree.Unbroken (t : ContentTree) : Prop :=
  ∀ u ∈ t :: t.2.subtrees, Render.isElementOnly u.2.roots = false

/-- The second tree is the first after indentation: the root is the same, below it only blank texts
have come and gone, and nothing has changed at all where no children stand on lines of their own. -/
structure ContentTree.IndentedAs (t t' : ContentTree) : Prop where
  root : t'.1 = t.1
  blanks : t'.2.withoutBlanks = t.2.withoutBlanks
  unbroken : t.Unbroken → t'.2 = t.2

namespace Forest

open Render

theorem elementTrees_append (f g : Forest Content) :
    (f ++ g).elementTrees = f.elementTrees ++ g.elementTrees := by
  unfold elementTrees
  rw [subtrees_append, List.filter_append]

theorem elementTrees_element (e : Element) (below beside : Forest Content) :
    elementTrees (.cons (.element e) below beside) =
      (.element e, below) :: (below.elementTrees ++ beside.elementTrees) := by
  unfold elementTrees
  rw [subtrees, List.filter_cons_of_pos rfl, List.filter_append]

theorem elementTrees_leaf {c : Content} (hc : c.isElement = false) (beside : Forest Content) :
    elementTrees (.cons c .nil beside) = beside.elementTrees := by
  unfold elementTrees
  rw [subtrees, List.filter_cons_of_neg (by simp [hc])]
  rfl

/-- Where no children stand on lines of their own, running content is laid out as it is. -/
theorem laidOut_of_unbroken {f : Forest Content}
    (h : ∀ u ∈ f.subtrees, isElementOnly u.2.roots = false) (depth : Nat) :
    f.laidOut w .running depth = f := by
  induction f generalizing depth with
  | nil => rfl
  | cons c below beside ihb ihs =>
    have hinside : Render.Place.inside w below.roots = .running :=
      Render.Place.inside_unbroken (h (c, below) List.mem_cons_self)
    have hbelow := ihb (fun u hu => h u (List.mem_cons_of_mem _ (List.mem_append_left _ hu)))
      (depth + 1)
    have hbeside := ihs (fun u hu => h u (List.mem_cons_of_mem _ (List.mem_append_right _ hu)))
      depth
    rw [laidOut_cons rfl, hinside, hbelow, hbeside, show Render.Place.running.lineBreak w depth = .nil
      from rfl, append_nil, nil_append]

theorem elementTrees_lineBreak (place : Render.Place) (depth : Nat) :
    (place.lineBreak w depth).elementTrees = [] := by
  cases place <;> rfl

/-- An element is indented as what is below it is laid out. -/
theorem indentedAs_laidOut (hspace : ∀ c ∈ w.indentation.toList, isMarkupSpace c = true)
    (e : Element) (below : Forest Content) (depth : Nat) :
    ContentTree.IndentedAs (.element e, below) (.element e,
      laidOut w (Render.Place.inside w below.roots) (depth + 1) below ++
        (Render.Place.inside w below.roots).lineBreak w depth) := by
  refine ⟨rfl, ?_, fun hunbroken => ?_⟩
  · rw [withoutBlanks_append, withoutBlanks_laidOut hspace,
      Render.Place.withoutBlanks_lineBreak hspace, append_nil]
  · have hinside : Render.Place.inside w below.roots = .running :=
      Render.Place.inside_unbroken (hunbroken _ List.mem_cons_self)
    have hsame := laidOut_of_unbroken (w := w)
      (fun u hu => hunbroken u (List.mem_cons_of_mem _ hu)) (depth + 1)
    dsimp only at hsame ⊢
    rw [hinside, hsame]
    exact append_nil below

/-- The elements are the same, one by one, and each is indented. -/
theorem elementTrees_laidOut (hspace : ∀ c ∈ w.indentation.toList, isMarkupSpace c = true)
    {f : Forest Content} (hf : f.LeavesBare) (place : Render.Place) (depth : Nat) :
    List.Forall₂ ContentTree.IndentedAs f.elementTrees
      (f.laidOut w place depth).elementTrees := by
  induction f generalizing place depth with
  | nil => exact .nil
  | cons c below beside ihb ihs =>
    obtain ⟨hleaf, hfbelow, hfbeside⟩ := leavesBare_cons.1 hf
    have hbelow := ihb hfbelow (Render.Place.inside w below.roots) (depth + 1)
    have hbeside := ihs hfbeside place depth
    cases hc : c.isElement with
    | false =>
      obtain rfl := hleaf hc
      rw [elementTrees_leaf hc]
      cases h : place.leavesOut c with
      | true => rwa [laidOut_of_leavesOut h]
      | false =>
        rwa [laidOut_cons_nil h, elementTrees_append, elementTrees_lineBreak, List.nil_append,
          elementTrees_leaf hc]
    | true =>
      cases c with
      | element e =>
        have hkept : place.leavesOut (.element e) = false := by
          cases place <;> rfl
        rw [laidOut_cons hkept, elementTrees_append, elementTrees_lineBreak, List.nil_append,
          elementTrees_element, elementTrees_element, elementTrees_append,
          elementTrees_lineBreak, List.append_nil]
        exact .cons (indentedAs_laidOut hspace e below depth) (List.rel_append hbelow hbeside)
      | _ => cases hc

end Forest

/-- The characters of all text and CDATA of the tree. -/
def ContentTree.textContent (t : ContentTree) : String :=
  t.1.characters ++ t.2.textContent

/-- Markup that was read, written with any indentation of space, is read again with the same elements
in the same order, each as it was but for blank texts below it. What is below an element, so its
text content too, is unchanged if for none of the elements at or below it children stand on lines of
their own. -/
theorem Markup.parse_indented_unbroken {o o' : ReadOptions} {t : String} {m : Markup}
    (h : Markup.parse o t = .ok m) (hi : w.indent = true)
    (hspace : ∀ c ∈ w.indentation.toList, isMarkupSpace c = true) (ho : o.LetsThrough o' m)
    (hb : o'.dropBlanks = false) :
    ∃ m', Markup.parse o' ((Document.ofMarkup m).render w) = .ok m' ∧
      List.Forall₂ (fun e e' => ContentTree.IndentedAs e e' ∧
          (ContentTree.Unbroken e → ContentTree.textContent e' = ContentTree.textContent e))
        m.top.elementTrees m'.top.elementTrees := by
  refine ⟨_, parse_laidOut_of_parse h hi hspace ho hb, ?_⟩
  refine (Forest.elementTrees_laidOut hspace (legal_of_read h).leavesBare .outermost 0).imp ?_
  intro e e' he
  refine ⟨he, fun hunbroken => ?_⟩
  unfold ContentTree.textContent
  rw [he.root, he.unbroken hunbroken]

/-- A broken element beside one that is not, with blank text in both. -/
theorem Markup.parse_indented_unbroken_beside :
    let w : WriteOptions := ⟨false, true, "\t"⟩
    let t := "<r> <a>x<b> <!--c--></b></a><d> <f/></d></r>"
    let inside : Forest Content := .cons (.text " ") .nil (.leaf (.comment "c"))
    let m : Markup := ⟨.absent, .cons (.element ⟨⟨none, "r"⟩, none, []⟩)
      (.cons (.text " ") .nil (.cons (.element ⟨⟨none, "a"⟩, none, []⟩)
        (.cons (.text "x") .nil (.cons (.element ⟨⟨none, "b"⟩, none, []⟩) inside .nil))
        (.cons (.element ⟨⟨none, "d"⟩, none, []⟩)
          (.cons (.text " ") .nil (.leaf (.element ⟨⟨none, "f"⟩, none, []⟩))) .nil))) .nil⟩
    (Markup.parse {} t = .ok m ∧ w.indent = true ∧
        (∀ c ∈ w.indentation.toList, isMarkupSpace c = true) ∧
        ({} : ReadOptions).LetsThrough {} m ∧ ({} : ReadOptions).dropBlanks = false) ∧
      ∃ m', Markup.parse {} ((Document.ofMarkup m).render w) = .ok m' ∧
        List.Forall₂ (fun e e' => ContentTree.IndentedAs e e' ∧
            (ContentTree.Unbroken e → ContentTree.textContent e' = ContentTree.textContent e))
          m.top.elementTrees m'.top.elementTrees := by
  intro w t inside m
  have hparse : Markup.parse {} t = .ok m := by decide +kernel
  have hspace : ∀ c ∈ w.indentation.toList, isMarkupSpace c = true :=
    List.all_eq_true.1 (by decide)
  have ho : ({} : ReadOptions).LetsThrough {} m := ⟨rfl, by decide, by decide, by decide⟩
  exact ⟨⟨hparse, rfl, hspace, ho, rfl⟩, Markup.parse_indented_unbroken hparse rfl hspace ho rfl⟩

/-- There is CDATA among the children, or a text with a character that is no space. -/
def ContentTree.Mixed (t : ContentTree) : Prop :=
  ∃ c ∈ t.2.roots, match c with
    | .cdata _ => True
    | .text s => ∃ d ∈ s.toList, isMarkupSpace d = false
    | _ => False

/-- In mixed content the children of an inner element may stand on lines of their own, and the line
breaks become part of the text. -/
theorem Markup.not_parse_indented_mixed :
    ¬ ∀ (w : WriteOptions) (o o' : ReadOptions) (t : String) (m : Markup),
      Markup.parse o t = .ok m → w.indent = true →
      (∀ c ∈ w.indentation.toList, isMarkupSpace c = true) → o.LetsThrough o' m →
      o.dropBlanks = false → o'.dropBlanks = false →
      ∃ m', Markup.parse o' ((Document.ofMarkup m).render w) = .ok m' ∧
        List.Forall₂ (fun e e' => ContentTree.Mixed e →
            ContentTree.textContent e' = ContentTree.textContent e)
          m.top.elementTrees m'.top.elementTrees := by
  intro h
  let e : Element := ⟨⟨none, "e"⟩, none, []⟩
  let inside : Forest Content → Forest Content := fun below =>
    .cons (.text "x") .nil (.cons (.element ⟨⟨none, "b"⟩, none, []⟩) below .nil)
  let c : Content := .element ⟨⟨none, "c"⟩, none, []⟩
  let m : Markup := ⟨.absent, .cons (.element e) (inside (.leaf c)) .nil⟩
  let w : WriteOptions := { declaration := false, indent := true }
  have hparse : Markup.parse {} "<e>x<b><c/></b></e>" = .ok m := by decide +kernel
  have ho : ({} : ReadOptions).LetsThrough {} m := ⟨rfl, by decide, by decide, by decide⟩
  have hspace : ∀ c ∈ w.indentation.toList, isMarkupSpace c = true :=
    List.all_eq_true.1 (by decide)
  obtain ⟨m', hm', hall⟩ := h w {} {} _ m hparse rfl hspace ho rfl rfl
  have hbroken : Markup.parse {} ((Document.ofMarkup m).render w) =
      .ok ⟨.absent, .cons (.element e)
        (inside (.cons (.text "\n    ") .nil (.cons c .nil (.leaf (.text "\n  "))))) .nil⟩ := by
    decide +kernel
  rw [hbroken, Except.ok.injEq] at hm'
  subst hm'
  cases hall with
  | cons hroot =>
    have hmixed : ContentTree.Mixed (.element e, inside (.leaf c)) :=
      ⟨.text "x", List.mem_cons_self, 'x', List.mem_cons_self, rfl⟩
    exact absurd (hroot hmixed) (by decide)

end MarkupFields
