import MarkupFields.Proofs.Sequence
import MarkupFields.Proofs.Writer.Built
import MarkupFields.Proofs.Writer.Reachable

/-
  Writers that start without a seed and write plain fields. A plain field uses none of the reserved
  prefixes and does not write a declaration as an attribute. The plan of a plain field gives every name
  the namespace of its prefix (`built_of_planFor`), so the document of such a writer is built at every
  point (`Grown.built`).
-/

namespace MarkupFields

open Text Scan

/-! ## Plain fields -/

/-- The path uses neither of the reserved prefixes, and its attribute is no default declaration. -/
structure Path.Plain (p : Path) : Prop where
  prefixes : "xml" ∉ p.prefixes ∧ "xmlns" ∉ p.prefixes
  attr : p.attr ≠ some (.plain "xmlns")

/-- The path of the field, if it can be read, is plain. -/
def Field.Plain (f : Field) : Prop :=
  ∀ p, Path.parse f.path = .ok p → p.Plain

theorem Field.Plain.of_parse {f : Field} {p : Path} (hparse : Path.parse f.path = .ok p)
    (hp : p.Plain) : f.Plain := by
  intro q hq
  rwa [← Except.ok.inj (hparse.symm.trans hq)]

theorem Path.Plain.ordinary {p : Path} (h : p.Plain) {q : QName}
    (hq : q ∈ p.steps.map Step.name ++ p.attr.toList) :
    q.nsPrefix ≠ some "xml" ∧ q.nsPrefix ≠ some "xmlns" := by
  have hmem : ∀ x, q.nsPrefix = some x → x ∈ p.prefixes := fun x hx =>
    List.mem_filterMap.2 ⟨q, hq, hx⟩
  exact ⟨fun hx => h.prefixes.1 (hmem _ hx), fun hx => h.prefixes.2 (hmem _ hx)⟩

namespace FieldWriter

/-! ## The plan of a plain field -/

/-- A name that was resolved has its namespace. -/
theorem named_of_resolve {w : FieldWriter} {unprefixed uri : Option String} {q : QName}
    {ds : List (String × String)} (h : w.resolve unprefixed q = .ok uri)
    (hq : q.isQualified = true) (ho : q.nsPrefix ≠ some "xml" ∧ q.nsPrefix ≠ some "xmlns")
    (hd : ∀ d ∈ needed? q uri, d ∈ ds) : Named w.namespaces ds unprefixed q uri := by
  unfold resolve at h
  cases hp : q.nsPrefix with
  | none =>
    rw [hp] at h
    have huri : unprefixed = uri := Except.ok.inj h
    refine ⟨hq, ho, fun _ => huri.symm, ?_, hd⟩
    intro x hx
    rw [hp] at hx
    cases hx
  | some x =>
    simp only [hp] at h
    cases hx : w.namespaces.uri? x with
    | none =>
      simp only [hx] at h
      cases h
    | some u =>
      simp only [hx, Except.ok.injEq] at h
      refine ⟨hq, ho, ?_, ?_, hd⟩
      · intro hn
        rw [hp] at hn
        cases hn
      · intro y hy
        rw [hp, Option.some.injEq] at hy
        exact ⟨u, hy ▸ hx, h.symm⟩

theorem isDeclaration_of_plain {q : QName} {uri : Option String} {value : String}
    (ho : q.nsPrefix ≠ some "xmlns") (hq : q ≠ .plain "xmlns") :
    (⟨q, uri, value⟩ : Attribute).isDeclaration = false := by
  obtain ⟨nsPrefix, localName⟩ := q
  unfold Attribute.isDeclaration Attribute.declares
  cases nsPrefix with
  | none =>
    have hl : localName ≠ "xmlns" := fun h => hq (by rw [h]; rfl)
    simp only [if_neg hl, Option.isSome_none]
  | some x =>
    have hx : x ≠ "xmlns" := fun h => ho (by rw [h])
    simp only [if_neg hx, Option.isSome_none]

/-- The text to store for a field can stand in a document. -/
theorem isXmlChar_of_textOf? {f : Field} {text : String} (h : textOf? f = some text) :
    ∀ c ∈ text.toList, isXmlChar c = true := by
  unfold textOf? at h
  split at h
  · rw [← Option.some.inj h]
    exact fun c hc => absurd hc List.not_mem_nil
  · exact List.all_eq_true.1 (Option.filter_eq_some_iff.1 h).2

/-- The places of a plain path have their namespaces, if what they need is declared. -/
theorem built_of_resolveSteps {w : FieldWriter} {p : Path} {places : List Place}
    {ds : List (String × String)} (hp : p.Parsed) (hplain : p.Plain)
    (h : w.resolveSteps p.steps = .ok places)
    (hd : ∀ q ∈ places, ∀ d ∈ needed? q.name q.namespaceUri, d ∈ ds) :
    ∀ q ∈ places, q.Built w.namespaces ds := by
  intro q hq
  obtain ⟨s, hs, hname, -, hresolve⟩ := exists_step_of_mem h hq
  rw [← hname] at hresolve
  refine named_of_resolve hresolve (hname ▸ (hp.steps s hs).1) ?_ (hd q hq)
  exact hplain.ordinary (List.mem_append_left _ (List.mem_map.2 ⟨s, hs, hname.symm⟩))

/-- What is put at the end of a plain path is built, if what it needs is declared. -/
theorem built_of_payloadOf {w : FieldWriter} {p : Path} {text : String} {payload : Payload}
    {ds : List (String × String)} (hp : p.Parsed) (hplain : p.Plain)
    (htext : ∀ c ∈ text.toList, isXmlChar c = true) (h : w.payloadOf text p.attr = .ok payload)
    (hd : ∀ d ∈ neededFor [] payload, d ∈ ds) : payload.Built w.namespaces ds := by
  unfold payloadOf at h
  split at h
  · rw [← Except.ok.inj h]
    exact htext
  · rename_i q hattr
    obtain ⟨uri, huri, hok⟩ := bind_eq_ok.1 h
    have hpayload : Payload.attr ⟨q, uri, text⟩ = payload := Except.ok.inj hok
    subst hpayload
    have hmem : q ∈ p.attr.toList := by
      rw [hattr]
      exact List.mem_singleton.2 rfl
    have ho := hplain.ordinary (List.mem_append_right _ hmem)
    have hneeded : ∀ d ∈ needed? q uri, d ∈ ds := fun d hm => hd d (Option.mem_toList.2 hm)
    refine ⟨named_of_resolve huri (hp.attr q hattr) ho hneeded, ?_, htext⟩
    exact isDeclaration_of_plain ho.2 fun hq => hplain.attr (by rw [hattr, hq])

/-- What built places and a built payload need declared can be declared. -/
theorem binds_of_mem_neededFor {n : Namespaces} {ds : List (String × String)}
    {places : List Place} {payload : Payload} (hplaces : ∀ q ∈ places, q.Built n ds)
    (hpayload : payload.Built n ds) : ∀ d ∈ neededFor places payload, n.Binds d := by
  intro d hd
  unfold neededFor at hd
  rw [List.mem_append, List.mem_filterMap] at hd
  rcases hd with ⟨q, hq, hd⟩ | hd
  · exact Named.binds (hplaces q hq) (.inr rfl) hd
  · cases payload with
    | text s => cases hd
    | attr a => exact (Attribute.Built.named hpayload).binds (.inl rfl) (Option.mem_toList.1 hd)

/-- The plan of a plain field gives every name its namespace. -/
theorem built_of_planFor {w : FieldWriter} {p : Path} {text : String} {plan : WritePlan}
    (hp : p.Parsed) (hplain : p.Plain) (htext : ∀ c ∈ text.toList, isXmlChar c = true)
    (h : w.planFor p text = .ok plan) : plan.Built w.namespaces := by
  obtain ⟨hresolved, hput, hdeclarations, -⟩ := planFor_eq_ok h
  have hplaces : ∀ q ∈ plan.root :: plan.places, q.Built w.namespaces plan.declarations := by
    refine built_of_resolveSteps hp hplain hresolved fun q hq d hd => ?_
    rw [hdeclarations]
    exact List.mem_append_left _ (List.mem_filterMap.2 ⟨q, hq, hd⟩)
  have hpayload : plan.payload.Built w.namespaces plan.declarations := by
    refine built_of_payloadOf hp hplain htext hput fun d hd => ?_
    rw [hdeclarations]
    exact List.mem_append_right _ hd
  refine ⟨hplaces, hpayload, ?_⟩
  rw [hdeclarations]
  exact binds_of_mem_neededFor hplaces hpayload

/-! ## States -/

/-- The states of a writer of the bindings that starts without a seed and is asked to write plain
fields, whatever comes of the requests. -/
inductive Grown (n : Namespaces) : FieldWriter → Prop
  | new {maxIndex : Nat} {w : FieldWriter} (made : FieldWriter.new maxIndex n none = .ok w) :
      Grown n w
  | write {w : FieldWriter} (before : Grown n w) {f : Field} (plain : f.Plain)
      (log : List Audit) : Grown n (w.writeField f log).2.1

/-- The document of the writer is built with its bindings. -/
structure Built (n : Namespaces) (w : FieldWriter) : Prop where
  namespaces : w.namespaces = n
  declaration : w.document.declaration = .absent
  top : ∃ top, w.document.IsTree top ∧ top.BuiltTop n

/-- A write of a plain field that carries out a plan: the plan, and what the top level of the document
is before and after. -/
theorem Built.written {n : Namespaces} {w : FieldWriter} (hw : w.Built n) {f : Field}
    (hf : f.Plain) {p : Path} {text : String} {plan : WritePlan} (hp : w.pathOf f = .ok p)
    (ht : textOf? f = some text) (h : w.planFor p text = .ok plan) :
    plan.Built n ∧ (plan.write w.document).declaration = .absent ∧ ∃ top ds r,
      w.document.IsTree top ∧ (plan.write w.document).IsTree (Forest.single r) ∧
        WrittenTop plan top w.document.allocated (Forest.single r)
          (plan.write w.document).allocated ∧
        n.Declares ds ∧ NodeTree.Built n ds ds r ∧ ∀ d ∈ plan.declarations, d ∈ ds := by
  obtain ⟨top, htree, hbuilt⟩ := hw.top
  have hparse := (pathOf_eq_ok hp).1
  have hparsed := Path.parsed_of_parse hparse
  have hplan := built_of_planFor hparsed (hf p hparse) (isXmlChar_of_textOf? ht) h
  rw [hw.namespaces] at hplan
  have hpos := one_le_position_of_planFor hparsed h
  obtain ⟨top₀, top', htree₀, htree', hdeclaration, hwritten⟩ :=
    written_write (fun q hq => hpos q (List.mem_cons_of_mem _ hq)) htree
  have htop : top₀ = top := by
    have := htree₀.symm.trans htree
    exact (Forest.cons.inj this).2.1
  subst htop
  obtain ⟨ds, r, rfl, hds, hr, hgiven⟩ := hwritten.built hplan hbuilt
  exact ⟨hplan, hdeclaration.trans hw.declaration, top₀, ds, r, htree, htree', hwritten, hds, hr,
    hgiven⟩

theorem Built.writeField {n : Namespaces} {w : FieldWriter} (hw : w.Built n) {f : Field}
    (hf : f.Plain) (log : List Audit) : (w.writeField f log).2.1.Built n := by
  rcases w.writeField_cases f log with ⟨e, he⟩ | ⟨p, -, -, he⟩ | ⟨p, text, plan, hp, ht, hplan, he⟩
  · rw [he]
    exact hw
  · rw [he]
    exact hw
  · rw [he]
    obtain ⟨-, hdeclaration, top, ds, r, -, htree, -, hds, hr, -⟩ := hw.written hf hp ht hplan
    exact ⟨hw.namespaces, hdeclaration, _, htree, .inr ⟨ds, r, rfl, hds, hr⟩⟩

/-- The document is built at every point. -/
theorem Grown.built {n : Namespaces} {w : FieldWriter} (h : w.Grown n) : w.Built n := by
  induction h with
  | new made =>
    have hw : blank _ n = _ := Except.ok.inj made
    rw [← hw]
    exact ⟨rfl, rfl, .nil, rfl, .inl rfl⟩
  | write _ plain log ih => exact ih.writeField plain log

end FieldWriter

end MarkupFields
