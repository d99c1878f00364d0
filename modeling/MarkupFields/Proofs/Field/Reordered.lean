import MarkupFields.Proofs.Field.RoundTrip
import MarkupFields.Proofs.Writer.Reordered

/-
  Fields that are written in any order and read back. What a run of separate fields leaves does not
  depend on its order: every text is held at its address, in whatever order siblings and
  declarations came to stand. A reader that loads the text of the document finds what is held at the
  address of a path (`locate?_of_stands`), so it reads every field back after every order of the
  writes (`readsBack_of_writes_perm`).
-/

namespace MarkupFields

open Text Scan

/-- The field holds a text that can stand in a document, and no type is declared for it. -/
structure Field.HoldsText (f : Field) (s : String) : Prop where
  value : f.value = some (.string s)
  declared : f.declared = none
  characters : ∀ c ∈ s.toList, isXmlChar c = true

theorem Field.HoldsText.textOf? {f : Field} {s : String} (h : f.HoldsText s) :
    FieldWriter.textOf? f = some s := by
  unfold FieldWriter.textOf?
  rw [h.value, h.declared]
  exact Option.filter_eq_some_iff.2 ⟨rfl, List.all_eq_true.2 h.characters⟩

namespace FieldReader

variable {n : Namespaces} {ds own : List (String × String)} {r : FieldReader} {l : LoadedDocument}

/-- The reader finds the attribute with the key of a built attribute. -/
theorem attribute?_eq_held (hds : n.Declares ds) (hr : r.namespaces = ⟨ds⟩)
    (hl : l.namespaceInfo = !ds.isEmpty) {a : Attribute} (ha : a.Built n ds) {t : NodeTree}
    (ht : NodeTree.Built n ds own t) :
    t.1.content.attribute? (r.attributeTest l a.name) = NodeTree.held (some a.key) (some t) := by
  cases ht with
  | @intro k e below built texts content =>
    have htest : ∀ b ∈ e.attributes,
        (r.attributeTest l a.name).acceptsAttribute b = Attribute.hasKey a.key b :=
      fun b hb => acceptsAttribute_attributeTest hds hr hl ha (built.attributes.each b hb)
    show (e.attributes.find? _).map Attribute.value =
      (do let b ← e.attributes.find? (Attribute.hasKey a.key); return b.value)
    rw [List.find?_congr htest]
    cases e.attributes.find? (Attribute.hasKey a.key) <;> rfl

/-- The reader finds at a path the text that stands at its address. -/
theorem locate?_of_stands (hn : n.Declarable) (hds : n.Declares ds) {t : NodeTree}
    (ht : NodeTree.Built n ds ds t) (hr : r.Holds ds t l) {d : Document}
    (hd : d.IsTree (Forest.single t)) {w : FieldWriter} {p : Path} {text : String}
    {plan : WritePlan} (hplan : w.planFor p text = .ok plan)
    (hstands : FieldWriter.Stands n d text plan) : r.locate? l p = some text := by
  obtain ⟨hresolved, hput, -, -⟩ := FieldWriter.planFor_eq_ok hplan
  obtain ⟨t', htree, hgiven⟩ := hstands.declared
  obtain ⟨u, hu⟩ := hstands.located
  have hheld := hstands.held
  obtain rfl : t' = t := by
    have hsingle := (Forest.cons.inj (htree.symm.trans hd)).2.1
    exact (List.cons.inj (congrArg Forest.trees hsingle)).1
  have hdeclared : ∀ b ∈ plan.declarations, b ∈ ds := by
    intro b hb
    cases ht with
    | intro built => exact built.attributes.own ▸ hgiven b hb
  obtain ⟨v, hv, hcontent, hbelow, own, hbuilt⟩ :=
    locate?_of_resolveSteps hn hds ht hr hd hresolved (List.cons_ne_nil _ _)
      (fun q hq => (hstands.built.places q hq).mono hdeclared) hu
  unfold Document.held at hheld
  rw [hu] at hheld
  unfold locate?
  rw [hv, Option.bind_eq_bind, Option.bind_some]
  dsimp only
  rw [hcontent, hbelow]
  unfold FieldWriter.payloadOf at hput
  unfold WritePlan.address at hheld
  have hpayload := hstands.built.payload.mono hdeclared
  cases hattr : p.attr with
  | none =>
    rw [hattr] at hput
    rw [← Except.ok.inj hput] at hheld
    have hempty : u.1.content.characters = "" := by
      cases hbuilt with
      | intro => rfl
    dsimp only
    rw [hempty, String.empty_append]
    exact hheld
  | some q =>
    rw [hattr] at hput
    obtain ⟨uri, -, hok⟩ := bind_eq_ok.1 hput
    rw [← Except.ok.inj hok] at hheld hpayload
    exact (attribute?_eq_held hds hr.namespaces hr.info hpayload hbuilt).trans hheld

end FieldReader

namespace FieldWriter

/-- A reader that keeps blank text, and whose limits the document respects, loads the text of the
document and finds the value of every field at its path. -/
def ReadsBack (w : FieldWriter) (fs : List Field) : Prop :=
  ∀ r : FieldReader, r.options.dropBlanks = false → w.document.markup.Within r.options →
    ∃ r', r.load w.toXml true = (r', .ok ()) ∧ ∀ f ∈ fs, ∃ p s, Path.parse f.path = .ok p ∧
      f.value = some (.string s) ∧ r'.extract p = .ok (some s)

variable {w v : FieldWriter} {n : Namespaces} {maxIndex : Nat} {fs : List Field}

/-- A document in which the fields stand is read back. -/
theorem readsBack_of_stands (hn : n.Declarable) (hv : v.Built n) {r : NodeTree}
    (htree : v.document.IsTree (Forest.single r))
    (hfs : ∀ f ∈ fs, ∃ s plan p, f.HoldsText s ∧ w.Plans f p s plan ∧ Stands n v.document s plan) :
    v.ReadsBack fs := by
  intro reader hblanks hwithin
  obtain ⟨top, htop, hbuilt⟩ := hv.top
  obtain rfl : top = Forest.single r := (Forest.cons.inj (htop.symm.trans htree)).2.1
  rcases hbuilt with heq | ⟨ds, r', heq, hds, hr⟩
  · cases heq
  · rw [heq] at htree
    obtain ⟨r'', l, hload, hholds⟩ :=
      FieldReader.load_toXml hn hds hr htree hv.declaration hblanks hwithin
    refine ⟨r'', hload, fun f hf => ?_⟩
    obtain ⟨s, plan, p, htext, hplan, hstands⟩ := hfs f hf
    refine ⟨p, s, (pathOf_eq_ok hplan.path).1, htext.value, ?_⟩
    unfold FieldReader.extract
    rw [hholds.loaded]
    dsimp only
    rw [FieldReader.locate?_of_stands hn hds hr hholds htree hplan.planned hstands]

/-- After a run from the start separate fields are read back. -/
theorem readsBack_of_writes (hn : n.Declarable) (made : FieldWriter.new maxIndex n none = .ok w)
    (hplain : ∀ f ∈ fs, f.Plain) (htexts : ∀ f ∈ fs, ∃ s, f.HoldsText s) (hseparate : w.Separate fs)
    {root : StepTest} (hsuits : ∀ f ∈ fs, ∃ text plan, w.Suits root f text plan)
    (h : w.Writes fs v) : v.ReadsBack fs := by
  have hname : w.namespaces = n := (Grown.new made).built.namespaces
  obtain ⟨hunderway, hstands⟩ := h.stands (underway_new made root) hsuits hseparate
    fun f hf a ha => by
      obtain ⟨text, plan, hsuit⟩ := hsuits f hf
      obtain rfl := hsuit.addresses.unique ha
      exact held_new made (List.cons_ne_nil _ _)
  cases fs with
  | nil =>
    -- nothing was written, and the text is empty
    cases h
    intro r _ _
    have hblank : allBlank w.toXml.toList = true := by
      rw [show w = blank maxIndex n from (Except.ok.inj made).symm]
      rfl
    refine ⟨r.cleared, ?_, fun f hf => absurd hf List.not_mem_nil⟩
    unfold FieldReader.load
    rw [if_pos hblank]
  | cons f fs =>
    obtain ⟨text, plan, hsuit⟩ := hsuits f List.mem_cons_self
    obtain ⟨r, htree, -⟩ := (hstands f List.mem_cons_self text plan hsuit).declared
    refine readsBack_of_stands (w := w) hn (hname ▸ hunderway.built) htree fun g hg => ?_
    obtain ⟨text', plan', hsuit'⟩ := hsuits g hg
    obtain ⟨s, hs⟩ := htexts g hg
    have hstand := hstands g hg text' plan' hsuit'
    obtain ⟨-, -, p, hplan⟩ := hsuit'
    obtain rfl : s = text' := Option.some.inj (hs.textOf?.symm.trans hplan.stored)
    exact ⟨s, plan', p, hs, hplan, hname ▸ hstand⟩

/-- A writer without a seed writes plain fields that hold texts and whose paths are separate: their
prefixes replaced by namespaces and missing positions filled in, they have one root, no two are the
same, and no path of an element is part of another. If all are written, then they are written in any
other order too, and from both documents every field is read back. -/
theorem readsBack_of_writes_perm (hn : n.Declarable)
    (made : FieldWriter.new maxIndex n none = .ok w) (hplain : ∀ f ∈ fs, f.Plain)
    (htexts : ∀ f ∈ fs, ∃ s, f.HoldsText s) (hseparate : w.Separate fs) (h : w.Writes fs v)
    {fs' : List Field} (hperm : fs.Perm fs') :
    ∃ v', w.Writes fs' v' ∧ v.ReadsBack fs ∧ v'.ReadsBack fs := by
  obtain ⟨root, hsuits⟩ := hseparate.suits hplain (h.plans made rfl rfl)
  have hsuits' : ∀ f ∈ fs', ∃ text plan, w.Suits root f text plan :=
    fun f hf => hsuits f (hperm.mem_iff.2 hf)
  obtain ⟨v', h'⟩ := (underway_new made root).exists_writes hsuits'
  have hback := readsBack_of_writes hn made (fun f hf => hplain f (hperm.mem_iff.2 hf))
    (fun f hf => htexts f (hperm.mem_iff.2 hf)) (hseparate.perm hperm) hsuits' h'
  refine ⟨v', h', readsBack_of_writes hn made hplain htexts hseparate hsuits h, ?_⟩
  intro r hblanks hwithin
  obtain ⟨r', hload, hall⟩ := hback r hblanks hwithin
  exact ⟨r', hload, fun f hf => hall f (hperm.mem_iff.1 hf)⟩

/-- The text of an element with a namespace behind a sibling, an attribute of the first one and the
text of another child, written in two orders that create the elements and fillers differently. -/
theorem readsBack_of_writes_perm_crossed :
    let n : Namespaces := ⟨[("x", "urn:x")]⟩
    let w := blank 10 n
    let b : Field := ⟨"/a/x:b[2]", some (.string "<"), none, false⟩
    let c : Field := ⟨"/a/c", some (.string ""), none, false⟩
    let d : Field := ⟨"/a/x:b/@x:d", some (.string "\t"), none, false⟩
    let v := (((w.writeField b []).2.1.writeField c []).2.1.writeField d []).2.1
    w.Separate [b, c, d] ∧ w.Writes [b, c, d] v ∧ ∃ v', w.Writes [c, d, b] v' ∧
      v.ReadsBack [b, c, d] ∧ v'.ReadsBack [b, c, d] := by
  intro n w b c d v
  let wb := (w.writeField b []).2.1
  let wbc := (wb.writeField c []).2.1
  have hb : Path.parse b.path =
      .ok ⟨[⟨⟨none, "a"⟩, none⟩, ⟨⟨some "x", "b"⟩, some 2⟩], none⟩ := by decide
  have hc : Path.parse c.path = .ok ⟨[⟨⟨none, "a"⟩, none⟩, ⟨⟨none, "c"⟩, none⟩], none⟩ := by decide
  have hd : Path.parse d.path =
      .ok ⟨[⟨⟨none, "a"⟩, none⟩, ⟨⟨some "x", "b"⟩, none⟩], some ⟨some "x", "d"⟩⟩ := by decide
  have hplain : ∀ f ∈ [b, c, d], f.Plain := List.forall_mem_cons.2
    ⟨.of_parse hb ⟨by decide, by decide⟩, List.forall_mem_cons.2
      ⟨.of_parse hc ⟨by decide, by decide⟩, List.forall_mem_singleton.2
        (.of_parse hd ⟨by decide, by decide⟩)⟩⟩
  have htexts : ∀ f ∈ [b, c, d], ∃ s, f.HoldsText s := List.forall_mem_cons.2
    ⟨⟨"<", rfl, rfl, List.all_eq_true.1 (by decide)⟩, List.forall_mem_cons.2
      ⟨⟨"", rfl, rfl, List.all_eq_true.1 (by decide)⟩,
        List.forall_mem_singleton.2 ⟨"\t", rfl, rfl, List.all_eq_true.1 (by decide)⟩⟩⟩
  have hseparate : w.Separate [b, c, d] :=
    .of_addresses (.cons ⟨_, hb, rfl⟩ (.cons ⟨_, hc, rfl⟩ (.cons ⟨_, hd, rfl⟩ .nil)))
      (by decide +kernel) (by decide +kernel) (by decide +kernel)
  have hwriteB : w.writeField b [] = (.ok (), wb, []) := by decide +kernel
  have hwriteC : wb.writeField c [] = (.ok (), wbc, []) := by decide +kernel
  have hwriteD : wbc.writeField d [] = (.ok (), v, []) := by decide +kernel
  have h : w.Writes [b, c, d] v := .cons hwriteB (.cons hwriteC (.cons hwriteD .nil))
  have hperm : [b, c, d].Perm [c, d, b] := @List.perm_append_comm _ [b] [c, d]
  have hn : n.Declarable := by decide +kernel
  have made : FieldWriter.new 10 n none = .ok w := rfl
  obtain ⟨v', h', hv, hv'⟩ :=
    readsBack_of_writes_perm hn made hplain htexts hseparate h hperm
  exact ⟨hseparate, h, v', h', hv, hv'⟩

end FieldWriter

end MarkupFields
