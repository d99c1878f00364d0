import MarkupFields.Proofs.Writer.Stable

/-
  The states of a writer: what it is made as, and what declaring bindings and writing fields make of
  it, however often and in whatever order. The document of such a state is one tree whose handles are
  distinct (`Reachable.valid`).

  `written_of_writeField` is the frame of a write: the document afterwards is the one before with the
  missing elements behind their siblings, the payload at the end of the path and perhaps more
  declarations on the root. The places of any path lead to the same node before and after.
-/

namespace MarkupFields

/-! ## Documents to start from -/

theorem valid_empty : Document.empty.Valid where
  tree := ⟨.nil, rfl⟩
  nodup := by decide
  given := by decide

/-- Handles are given to markup in document order. -/
theorem valid_ofMarkup (m : Markup) : (Document.ofMarkup m).Valid := by
  have htree : (Document.ofMarkup m).IsTree (Document.number (Document.root + 1) m.top).1 := rfl
  have hhandles : (Document.ofMarkup m).forest.handles =
      List.range' Document.root (m.top.size + 1) := by
    rw [htree.handles, Forest.handles, Document.preorder_number, List.range'_succ]
  have hnext : (Document.ofMarkup m).allocated = m.top.size + 1 := by
    show (Document.number (Document.root + 1) m.top).2 = m.top.size + 1
    rw [Document.number_snd, Document.root]
    omega
  refine ⟨⟨_, htree⟩, ?_, ?_⟩
  · rw [hhandles]
    exact List.nodup_range'
  · intro k hk
    rw [hhandles, List.mem_range'_1, Document.root] at hk
    omega

namespace FieldWriter

/-! ## States -/

/-- The states of a writer. -/
inductive Reachable : FieldWriter → Prop
  | new {maxIndex : Nat} {n : Namespaces} {seed : Option String} {w : FieldWriter}
      (made : FieldWriter.new maxIndex n seed = .ok w) : Reachable w
  | declare {w w' : FieldWriter} {p uri : String} (before : Reachable w)
      (declared : w.declareNamespace p uri = .ok w') : Reachable w'
  | write {w : FieldWriter} (before : Reachable w) (f : Field) (log : List Audit) :
      Reachable (w.writeField f log).2.1

theorem valid_of_new {maxIndex : Nat} {n : Namespaces} {seed : Option String} {w : FieldWriter}
    (h : FieldWriter.new maxIndex n seed = .ok w) : w.document.Valid := by
  unfold FieldWriter.new at h
  split at h
  · rw [Except.ok.injEq] at h
    exact h ▸ valid_empty
  · split at h
    · rw [Except.ok.injEq] at h
      exact h ▸ valid_empty
    · split at h
      · simp at h
      · rename_i m _
        dsimp only at h
        split at h
        · simp at h
        · rw [Except.ok.injEq] at h
          exact h ▸ valid_ofMarkup m

theorem document_of_declareNamespace {w w' : FieldWriter} {p uri : String}
    (h : w.declareNamespace p uri = .ok w') : w'.document = w.document := by
  unfold declareNamespace at h
  split at h
  · rw [Except.ok.injEq] at h
    exact h ▸ rfl
  · simp at h

/-- A plan that comes from a field does to the document what the relation says. -/
theorem written_of_planFor {w : FieldWriter} {f : Field} {p : Path} {text : String}
    {plan : WritePlan} (hw : w.document.Valid) (hp : w.pathOf f = .ok p)
    (h : w.planFor p text = .ok plan) :
    w.document.Written plan (plan.write w.document) := by
  obtain ⟨top, htop⟩ := hw.tree
  have hpos := one_le_position_of_planFor (Path.parsed_of_parse (pathOf_eq_ok hp).1) h
  exact written_write (fun q hq => hpos q (by simp [hq])) htop

theorem valid_writeField {w : FieldWriter} (hw : w.document.Valid) (f : Field)
    (log : List Audit) : (w.writeField f log).2.1.document.Valid := by
  rcases w.writeField_cases f log with ⟨e, he⟩ | ⟨p, -, -, he⟩ | ⟨p, text, plan, hp, -, hplan, he⟩
  · rw [he]
    exact hw
  · rw [he]
    exact hw
  · rw [he]
    exact (written_of_planFor hw hp hplan).valid hw

/-- The document of a state is one tree with distinct handles. -/
theorem Reachable.valid {w : FieldWriter} (h : w.Reachable) : w.document.Valid := by
  induction h with
  | new made => exact valid_of_new made
  | declare _ declared ih => exact document_of_declareNamespace declared ▸ ih
  | write _ f log ih => exact valid_writeField ih f log

/-! ## The frame of a write -/

/-- The node that the steps of a path lead to, their names matched as the writer matches them. -/
def target? (w : FieldWriter) (steps : List Step) : Option NodeTree :=
  match w.resolveSteps steps with
  | .ok places => w.document.locate? (places.map Place.stepTest)
  | .error _ => none

/-- Names are resolved by the bindings alone. -/
theorem resolveSteps_document (w : FieldWriter) (d : Document) (steps : List Step) :
    ({ w with document := d } : FieldWriter).resolveSteps steps = w.resolveSteps steps := by
  induction steps with
  | nil => rfl
  | cons s steps ih => simp only [resolveSteps, resolve, ih]

/-- What a text is at the end of a path: the text of the element; or the value of the attribute, which
is in no namespace without a prefix and in that of its prefix otherwise. -/
inductive Puts (w : FieldWriter) (text : String) : Option QName → Payload → Prop
  | element : Puts w text none (.text text)
  | plain {q : QName} (bare : q.nsPrefix = none) : Puts w text (some q) (.attr ⟨q, none, text⟩)
  | prefixed {q : QName} {p uri : String} (named : q.nsPrefix = some p)
      (bound : w.namespaces.uri? p = some uri) : Puts w text (some q) (.attr ⟨q, some uri, text⟩)

theorem puts_of_payloadOf {w : FieldWriter} {text : String} {attr : Option QName}
    {payload : Payload} (h : w.payloadOf text attr = .ok payload) : w.Puts text attr payload := by
  unfold payloadOf at h
  cases attr with
  | none => exact Except.ok.inj h ▸ .element
  | some q =>
    obtain ⟨uri, huri, hok⟩ := bind_eq_ok.1 h
    obtain rfl : Payload.attr ⟨q, uri, text⟩ = payload := Except.ok.inj hok
    unfold resolve at huri
    split at huri
    · rename_i hbare
      exact Except.ok.inj huri ▸ .plain hbare
    · rename_i p hnamed
      split at huri
      · rename_i u hbound
        exact Except.ok.inj huri ▸ .prefixed hnamed hbound
      · cases huri

/-- A write that succeeds without a record carries out the plan of its path: the places are those of
the steps with their namespaces, and what is put there is the text of the value, as the text of the
element or as the value of the attribute. The document becomes what `Document.Written` says; its handles
stay distinct; and steps that led to a node before lead to the node of the same handle afterwards. -/
theorem written_of_writeField {w w' : FieldWriter} (hw : w.Reachable) {f : Field}
    {log : List Audit} (h : w.writeField f log = (.ok (), w', log)) :
    ∃ p text plan, Path.parse f.path = .ok p ∧ textOf? f = some text ∧
      w.resolveSteps p.steps = .ok (plan.root :: plan.places) ∧
      w.Puts text p.attr plan.payload ∧
      w.document.Written plan w'.document ∧ w'.document.Valid ∧
      ∀ steps t, w.target? steps = some t →
        ∃ t', w'.target? steps = some t' ∧ t'.1.handle = t.1.handle := by
  obtain ⟨p, text, plan, hp, ht, hplan, rfl⟩ := plan_of_writeField h
  have hwritten := written_of_planFor hw.valid hp hplan
  obtain ⟨hplaces, hpayload, -, -⟩ := planFor_eq_ok hplan
  refine ⟨p, text, plan, (pathOf_eq_ok hp).1, ht, hplaces, puts_of_payloadOf hpayload, hwritten,
    hwritten.valid hw.valid, ?_⟩
  intro steps t hsteps
  unfold target? at hsteps ⊢
  rw [resolveSteps_document]
  split at hsteps
  · obtain ⟨t', ht', hsame⟩ := hwritten.locate? hsteps
    exact ⟨t', ht', hsame.handle⟩
  · simp at hsteps

/-- A second write below an element that is already there. -/
theorem written_of_writeField_twice :
    let w := ((blank 10 ⟨[("x", "urn:x")]⟩).writeField ⟨"/x:a/b", none, none, false⟩ []).2.1
    let f : Field := ⟨"/x:a/b[3]/@c", some (.string "v"), none, false⟩
    let w' := (w.writeField f []).2.1
    w.Reachable ∧ w.writeField f [] = (.ok (), w', []) ∧
      ∃ p text plan, Path.parse f.path = .ok p ∧ textOf? f = some text ∧
        w.resolveSteps p.steps = .ok (plan.root :: plan.places) ∧
        w.Puts text p.attr plan.payload ∧
        w.document.Written plan w'.document ∧ w'.document.Valid ∧
        ∀ steps t, w.target? steps = some t →
          ∃ t', w'.target? steps = some t' ∧ t'.1.handle = t.1.handle := by
  intro w f w'
  have hnew : FieldWriter.new 10 ⟨[("x", "urn:x")]⟩ none = .ok (blank 10 ⟨[("x", "urn:x")]⟩) := rfl
  have hw : w.Reachable := .write (.new hnew) _ _
  have h : w.writeField f [] = (.ok (), w', []) := by decide
  exact ⟨hw, h, written_of_writeField hw h⟩

end FieldWriter

end MarkupFields
