import MarkupFields.Proofs.Markup.Limits

/-
  Reading with namespaces against reading without. Namespaces are looked up, checked and noted down,
  but the way through the text does not depend on them: where reading with namespaces succeeds, reading
  without them takes the same steps, over the same states with the namespaces left out. One step keeps
  to this (`ReadState.step_unaware`), so a run does, and with it the reading of a whole document
  (`Markup.parse_unaware`).
-/

namespace MarkupFields

open Text Scan

/-- The same choices and limits, but prefixes are not resolved. -/
def ReadOptions.unaware (o : ReadOptions) : ReadOptions :=
  { o with namespaceAware := false }

theorem ReadOptions.names_unaware (o : ReadOptions) :
    o.maxNameLength ≤ o.unaware.maxNameLength :=
  Nat.le_refl _

theorem ReadOptions.references_unaware (o : ReadOptions) :
    o.maxReferences ≤ o.unaware.maxReferences :=
  Nat.le_refl _

/-! ## Namespaces left out -/

/-- The tree as markup shows it, without namespaces. -/
def ContentTree.asWritten (t : ContentTree) : ContentTree :=
  (t.1.asWritten, t.2.map Content.asWritten)

/-- The markup without namespaces. -/
def Markup.asWritten (m : Markup) : Markup :=
  ⟨m.declaration, m.top.map Content.asWritten⟩

namespace Forest

variable {α β : Type}

theorem map_ofTrees (m : α → β) (ts : List (α × Forest α)) :
    (ofTrees ts).map m = ofTrees (ts.map fun t => (m t.1, t.2.map m)) := by
  induction ts with
  | nil => rfl
  | cons t ts ih => rw [ofTrees, map, ih, List.map_cons, ofTrees]

end Forest

/-- The open element without namespaces, in a scope where nothing is declared. -/
def OpenElement.asWritten (e : OpenElement) : OpenElement :=
  ⟨e.element.asWritten, Scope.outermost, e.complete.map ContentTree.asWritten⟩

namespace OpenElement

theorem asWritten_addText (o : ReadOptions) (e : OpenElement) (cs : List Char) :
    (e.addText o cs).asWritten = e.asWritten.addText o.unaware cs := by
  unfold addText
  split
  · rename_i h
    exact (if_pos h).symm
  · rename_i h
    exact (if_neg h).symm

theorem asWritten_tree (e : OpenElement) : ContentTree.asWritten e.tree = e.asWritten.tree := by
  unfold tree ContentTree.asWritten asWritten
  rw [Forest.map_ofTrees, List.map_reverse]
  rfl

end OpenElement

namespace ReadState

/-- The state without namespaces. -/
def asWritten (s : ReadState) : ReadState :=
  ⟨s.innermost.asWritten, s.enclosing.map OpenElement.asWritten, s.used, s.rest⟩

end ReadState

/-- What a step comes to, without namespaces. -/
def ReadProgress.asWritten : ReadProgress → ReadProgress
  | .going s => .going s.asWritten
  | .complete root rest => .complete (ContentTree.asWritten root) rest

/-- Where nothing is declared around the open elements, nothing is declared around the innermost. -/
theorem ReadState.scopeIn_asWritten (around : List OpenElement) :
    scopeIn (around.map OpenElement.asWritten) = Scope.outermost := by
  cases around with
  | nil => rfl
  | cons e around => rfl

theorem ReadState.asWritten_place (t : ContentTree) (used : Nat) (rest : List Char)
    (around : List OpenElement) :
    (place t used rest around).asWritten =
      place (ContentTree.asWritten t) used rest (around.map OpenElement.asWritten) := by
  cases around with
  | nil => rfl
  | cons e around => rfl

/-! ## Start tags -/

namespace Scan

variable {o : ReadOptions}

theorem attributePair_unaware {used : Nat} {cs : List Char} {r : Attribute × Nat × List Char}
    (h : attributePair o used cs = .ok r) : attributePair o.unaware used cs = .ok r := by
  unfold attributePair at h
  obtain ⟨⟨word, mid⟩, hname, h⟩ := bind_eq_ok.1 h
  obtain ⟨next, hequals, h⟩ := bind_eq_ok.1 h
  obtain ⟨⟨value, used', rest⟩, hvalue, h⟩ := bind_eq_ok.1 h
  have hvalue' := attributeValue_of_le o.names_unaware o.references_unaware hvalue
  refine bind_eq_ok.2 ⟨(word, mid), hname, bind_eq_ok.2 ⟨next, hequals, ?_⟩⟩
  refine bind_eq_ok.2 ⟨(value, used', rest), hvalue', ?_⟩
  dsimp only at h
  split at h
  · cases h
  · exact h

theorem attributePairs_unaware {earlier : List Attribute} {used : Nat} {cs : List Char}
    {r : List Attribute × Nat × List Char} (h : attributePairs o earlier used cs = .ok r) :
    attributePairs o.unaware earlier used cs = .ok r := by
  fun_induction attributePairs o earlier used cs with
  | case1 earlier used cs hend =>
    rw [attributePairs, if_pos hend]
    exact h
  | case2 => cases h
  | case3 => cases h
  | case4 => cases h
  | case5 earlier used cs hend hspace a used1 mid hmid hnew ih =>
    rw [attributePairs_further hend hspace, attributePair_unaware hmid, ok_bind, if_neg hnew]
    exact ih h

/-- Without namespaces, a start tag is read as the same element but for its namespaces, in any
scope. -/
theorem startTag_unaware {s s' inside : Scope} {e : Element} {used used' : Nat}
    {cs rest : List Char} (h : startTag o s used cs = .ok ((inside, e), used', rest)) :
    startTag o.unaware s' used cs = .ok ((s', e.asWritten), used', rest) := by
  unfold startTag at h
  obtain ⟨⟨word, mid⟩, hname, h⟩ := bind_eq_ok.1 h
  obtain ⟨⟨as, used1, after⟩, hattributes, h⟩ := bind_eq_ok.1 h
  obtain ⟨⟨inside', e'⟩, hnames, h⟩ := bind_eq_ok.1 h
  rw [Except.ok.injEq, Prod.mk.injEq, Prod.mk.injEq, Prod.mk.injEq] at h
  obtain ⟨⟨rfl, rfl⟩, rfl, rfl⟩ := h
  obtain ⟨-, hsame⟩ :=
    Element.readIn_of_readNames (Element.asWritten_of_attributePairs _ hattributes) hnames
  rw [hsame]
  refine bind_eq_ok.2 ⟨(word, mid), hname, ?_⟩
  exact bind_eq_ok.2 ⟨(as, used1, after), attributePairs_unaware hattributes, rfl⟩

end Scan

/-! ## The root element -/

namespace ReadState

variable {o : ReadOptions}

theorem openElement_unaware {around : List OpenElement} {used : Nat} {cs : List Char}
    {p : ReadProgress} (h : openElement o around used cs = .ok p) :
    openElement o.unaware (around.map OpenElement.asWritten) used cs = .ok p.asWritten := by
  unfold openElement at h ⊢
  obtain ⟨⟨⟨scope, e⟩, used', mid⟩, htag, h⟩ := bind_eq_ok.1 h
  rw [scopeIn_asWritten, startTag_unaware htag, ok_bind]
  dsimp only at h ⊢
  split at h
  · rw [Except.ok.injEq] at h
    rw [← h, asWritten_place]
    rfl
  · obtain ⟨rest, hrest, h⟩ := bind_eq_ok.1 h
    rw [Except.ok.injEq] at h
    rw [hrest, ok_bind, ← h]
    rfl

theorem nestElement_unaware {around : List OpenElement} {used : Nat} {whole cs : List Char}
    {p : ReadProgress} (h : nestElement o around used whole cs = .ok p) :
    nestElement o.unaware (around.map OpenElement.asWritten) used whole cs = .ok p.asWritten := by
  unfold nestElement at h ⊢
  rw [List.length_map]
  split at h
  · cases h
  · rename_i hdepth
    exact (if_neg hdepth).trans (openElement_unaware h)

theorem closeElement_unaware {s : ReadState} {cs : List Char} {p : ReadProgress}
    (h : s.closeElement o cs = .ok p) :
    s.asWritten.closeElement o.unaware cs = .ok p.asWritten := by
  unfold closeElement at h
  obtain ⟨⟨word, mid⟩, hname, h⟩ := bind_eq_ok.1 h
  refine bind_eq_ok.2 ⟨(word, mid), hname, ?_⟩
  dsimp only at h
  split at h
  · cases h
  · rename_i hword
    obtain ⟨rest, hrest, h⟩ := bind_eq_ok.1 h
    rw [Except.ok.injEq] at h
    refine (if_neg hword).trans (bind_eq_ok.2 ⟨rest, hrest, ?_⟩)
    rw [← h, asWritten_place, OpenElement.asWritten_tree]
    rfl

/-- A step from the state without namespaces that does not resolve prefixes comes to the same. -/
theorem step_unaware {s : ReadState} {p : ReadProgress} (h : s.step o = .ok p) :
    s.asWritten.step o.unaware = .ok p.asWritten := by
  unfold step at h ⊢
  rw [show s.asWritten.rest = s.rest from rfl]
  split at h
  · cases h
  · exact closeElement_unaware h
  · obtain ⟨⟨c, rest⟩, hc, h⟩ := bind_eq_ok.1 h
    rw [Except.ok.injEq] at h
    exact bind_eq_ok.2 ⟨(c, rest), hc, h ▸ rfl⟩
  · obtain ⟨⟨c, rest⟩, hc, h⟩ := bind_eq_ok.1 h
    rw [Except.ok.injEq] at h
    exact bind_eq_ok.2 ⟨(c, rest), hc, h ▸ rfl⟩
  · obtain ⟨⟨i, rest⟩, hi, h⟩ := bind_eq_ok.1 h
    rw [Except.ok.injEq] at h
    exact bind_eq_ok.2 ⟨(i, rest), hi, h ▸ rfl⟩
  · exact nestElement_unaware h
  · obtain ⟨⟨c, used, rest⟩, hc, h⟩ := bind_eq_ok.1 h
    rw [Except.ok.injEq] at h
    refine bind_eq_ok.2 ⟨(c, used, rest), ?_, ?_⟩
    · exact referencedRun_of_le o.names_unaware o.references_unaware hc
    · rw [← h]
      dsimp only [ReadProgress.asWritten, ReadState.asWritten]
      rw [OpenElement.asWritten_addText]

theorem run_unaware {s : ReadState} {root : ContentTree} {rest : List Char}
    (h : s.run o = .ok (root, rest)) :
    s.asWritten.run o.unaware = .ok (ContentTree.asWritten root, rest) := by
  fun_induction run o s with
  | case1 => cases h
  | case2 s root' rest' hstep =>
    rw [Except.ok.injEq, Prod.mk.injEq] at h
    obtain ⟨rfl, rfl⟩ := h
    rw [run_eq, step_unaware hstep]
    rfl
  | case3 s s' hstep ih =>
    rw [run_eq, step_unaware hstep]
    exact ih h

end ReadState

/-! ## Documents -/

/-- What stands around the root element has no namespaces. -/
theorem Forest.Miscellaneous.asWritten {f : Forest Content} (h : f.Miscellaneous) :
    f.map Content.asWritten = f := by
  induction f with
  | nil => rfl
  | cons c below beside _ ih =>
    obtain ⟨⟨hc, -, rfl⟩, hrest⟩ := h
    have hsame : c.asWritten = c := by
      cases c with
      | element e => cases hc
      | _ => rfl
    rw [map, hsame, ih hrest, map]

namespace Scan

variable {o : ReadOptions}

theorem rootElement_unaware {cs rest : List Char} {root : ContentTree}
    (h : rootElement o cs = .ok (root, rest)) :
    rootElement o.unaware cs = .ok (ContentTree.asWritten root, rest) := by
  unfold rootElement at h ⊢
  split at h
  · split at h
    · cases h
    · rename_i hmark
      rw [if_neg hmark]
      split at h
      · cases h
      · rename_i root' rest' hnest
        rw [Except.ok.injEq, Prod.mk.injEq] at h
        obtain ⟨rfl, rfl⟩ := h
        have hnest' := ReadState.nestElement_unaware hnest
        rw [List.map_nil] at hnest'
        rw [hnest']
        rfl
      · rename_i s hnest
        have hnest' := ReadState.nestElement_unaware hnest
        rw [List.map_nil] at hnest'
        rw [hnest']
        exact ReadState.run_unaware h
  · cases h

theorem document_unaware {cs : List Char} {m : Markup} (h : document o cs = .ok m) :
    document o.unaware cs = .ok m.asWritten := by
  unfold document at h
  obtain ⟨⟨d, cs1⟩, hd, h⟩ := bind_eq_ok.1 h
  obtain ⟨⟨before, cs2⟩, hbefore, h⟩ := bind_eq_ok.1 h
  obtain ⟨⟨between, cs3⟩, hbetween, h⟩ := bind_eq_ok.1 h
  obtain ⟨⟨root, cs4⟩, hroot, h⟩ := bind_eq_ok.1 h
  obtain ⟨⟨behind, cs5⟩, hbehind, h⟩ := bind_eq_ok.1 h
  have hbefore' := miscellany_of_le o.names_unaware hbefore
  have hbetween' := afterDoctype_of_le o.names_unaware hbetween
  have hbehind' := miscellany_of_le o.names_unaware hbehind
  refine bind_eq_ok.2 ⟨(d, cs1), hd, bind_eq_ok.2 ⟨(before, cs2), hbefore', ?_⟩⟩
  refine bind_eq_ok.2 ⟨(between, cs3), hbetween', ?_⟩
  refine bind_eq_ok.2 ⟨(ContentTree.asWritten root, cs4), rootElement_unaware hroot, ?_⟩
  refine bind_eq_ok.2 ⟨(behind, cs5), hbehind', ?_⟩
  dsimp only at h ⊢
  split at h
  · rename_i hend
    rw [Except.ok.injEq] at h
    rw [if_pos hend, ← h]
    unfold Markup.asWritten
    rw [Forest.map_append, Forest.map_append, (soundMiscellany_of_miscellany hbefore).1.asWritten,
      (soundMiscellany_of_afterDoctype hbetween).1.asWritten, Forest.map,
      (soundMiscellany_of_miscellany hbehind).1.asWritten]
    rfl
  · cases h

end Scan

/-- What is read with namespaces is read without them as the same, but for the namespaces. -/
theorem Markup.parse_unaware {o : ReadOptions} {t : String} {m : Markup}
    (h : Markup.parse { o with namespaceAware := true } t = .ok m) :
    Markup.parse { o with namespaceAware := false } t = .ok m.asWritten :=
  parse_eq_ok.2 (Scan.document_unaware (o := { o with namespaceAware := true }) (parse_eq_ok.1 h))

/-- A prefix, a default namespace that is taken back below, and blank text that is dropped. -/
theorem Markup.parse_unaware_nested :
    let t := "<?xml version='1.0' encoding='x'?>" ++
      "<x:a xmlns:x='u' xmlns='d' x:k='1'> <b xmlns=''/><c/>t</x:a>"
    let d : Declaration := ⟨some "1.0", some "x", none⟩
    let top : Option String → Forest Content := fun x =>
      .cons (.element ⟨⟨some "x", "a"⟩, x, [⟨⟨some "xmlns", "x"⟩, none, "u"⟩,
          ⟨.plain "xmlns", none, "d"⟩, ⟨⟨some "x", "k"⟩, x, "1"⟩]⟩)
        (.cons (.element ⟨.plain "b", none, [⟨.plain "xmlns", none, ""⟩]⟩) .nil
          (.cons (.element ⟨.plain "c", x.map fun _ => "d", []⟩) .nil (.leaf (.text "t")))) .nil
    Markup.parse { dropBlanks := true } t = .ok ⟨d, top (some "u")⟩ ∧
      Markup.parse { namespaceAware := false, dropBlanks := true } t = .ok ⟨d, top none⟩ := by
  intro t d top
  have h : Markup.parse { dropBlanks := true } t = .ok ⟨d, top (some "u")⟩ := by
    decide +kernel
  exact ⟨h, Markup.parse_unaware (o := { dropBlanks := true }) h⟩

end MarkupFields
