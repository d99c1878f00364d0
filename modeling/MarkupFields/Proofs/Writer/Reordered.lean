import MarkupFields.Proofs.Writer.Held
import MarkupFields.Proofs.Writer.Reachable

/-
  Writing several fields. Writes to addresses that do not reach each other can be made in any order:
  each succeeds whenever the root element, if there is one, stands at their common root place
  (`Underway.writeField`), and none changes what another one wrote (`Built.held_other`). So a run
  in another order succeeds too (`Underway.exists_writes`), and every run leaves each value at its
  address (`Writes.stands`). The documents may differ in the order of siblings and of declarations.
-/

namespace MarkupFields

open Text Scan

namespace FieldWriter

/-! ## Addresses -/

/-- The address of a path: its prefixes are replaced by their namespaces, and a position that is not
given is the first. -/
def addressOf (w : FieldWriter) (p : Path) : Except WriteError Address := do
  let places ← w.resolveSteps p.steps
  match p.attr with
  | none => .ok ⟨places.map Place.stepTest, none⟩
  | some q => do
    let uri ← w.resolve none q
    .ok ⟨places.map Place.stepTest, some (q.localName, uri)⟩

/-- The path of the field can be read and has the address. -/
def Addresses (w : FieldWriter) (f : Field) (a : Address) : Prop :=
  ∃ p, Path.parse f.path = .ok p ∧ w.addressOf p = .ok a

theorem Addresses.unique {w : FieldWriter} {f : Field} {a b : Address} (ha : w.Addresses f a)
    (hb : w.Addresses f b) : a = b := by
  obtain ⟨p, hp, ha⟩ := ha
  obtain ⟨q, hq, hb⟩ := hb
  obtain rfl : p = q := Except.ok.inj (hp.symm.trans hq)
  exact Except.ok.inj (ha.symm.trans hb)

/-- The fields can be written beside each other: their paths have one root, no two are the same, and
no path of an element goes through another one. -/
structure Separate (w : FieldWriter) (fs : List Field) : Prop where
  root : ∀ f ∈ fs, ∀ g ∈ fs, ∀ a b, w.Addresses f a → w.Addresses g b →
    a.steps.head? = b.steps.head?
  distinct : fs.Pairwise fun f g => ∀ a b, w.Addresses f a → w.Addresses g b → a ≠ b
  unnested : ∀ f ∈ fs, ∀ g ∈ fs, ∀ a b, w.Addresses f a → w.Addresses g b →
    a.attr = none → b.attr = none → a.steps <+: b.steps → a.steps = b.steps

namespace Separate

variable {w : FieldWriter} {fs fs' : List Field}

/-- Fields whose addresses are known are separate if their addresses are. -/
theorem of_addresses {as : List Address} (h : List.Forall₂ w.Addresses fs as)
    (hroot : ∀ a ∈ as, ∀ b ∈ as, a.steps.head? = b.steps.head?) (hdistinct : as.Nodup)
    (hunnested : ∀ a ∈ as, ∀ b ∈ as, a.attr = none → b.attr = none → a.steps <+: b.steps →
      a.steps = b.steps) : w.Separate fs := by
  have hmem : ∀ {gs bs}, List.Forall₂ w.Addresses gs bs → ∀ g ∈ gs, ∀ b, w.Addresses g b →
      b ∈ bs := by
    intro gs bs hgs
    induction hgs with
    | nil => exact fun g hg => absurd hg List.not_mem_nil
    | cons hfirst _ ih =>
      intro g hg b hb
      rcases List.mem_cons.1 hg with rfl | hg
      · exact List.mem_cons.2 (.inl (hb.unique hfirst))
      · exact List.mem_cons_of_mem _ (ih g hg b hb)
  refine ⟨fun f hf g hg a b ha hb => hroot a (hmem h f hf a ha) b (hmem h g hg b hb), ?_,
    fun f hf g hg a b ha hb => hunnested a (hmem h f hf a ha) b (hmem h g hg b hb)⟩
  clear hroot hunnested
  induction h with
  | nil => exact .nil
  | cons hfirst hrest ih =>
    obtain ⟨hnot, hnodup⟩ := List.nodup_cons.1 hdistinct
    refine .cons (fun g hg a b ha hb hab => ?_) (ih hnodup)
    rw [ha.unique hfirst] at hab
    exact hnot (hab ▸ hmem hrest g hg b hb)

theorem perm (h : w.Separate fs) (hperm : fs.Perm fs') : w.Separate fs' where
  root f hf g hg := h.root f (hperm.mem_iff.2 hf) g (hperm.mem_iff.2 hg)
  distinct := by
    refine (hperm.pairwise_iff fun {f g} hfg a b ha hb => ?_).1 h.distinct
    exact (hfg b a hb ha).symm
  unnested f hf g hg := h.unnested f (hperm.mem_iff.2 hf) g (hperm.mem_iff.2 hg)

theorem tail {f : Field} (h : w.Separate (f :: fs)) : w.Separate fs where
  root g hg g' hg' := h.root g (List.mem_cons_of_mem f hg) g' (List.mem_cons_of_mem f hg')
  distinct := (List.pairwise_cons.1 h.distinct).2
  unnested g hg g' hg' := h.unnested g (List.mem_cons_of_mem f hg) g' (List.mem_cons_of_mem f hg')

/-- Writing one of the fields does not reach another. -/
theorem not_reaches (h : w.Separate fs) {f g : Field} (hf : f ∈ fs) (hg : g ∈ fs) {a b : Address}
    (ha : w.Addresses f a) (hb : w.Addresses g b) (hne : a ≠ b) : ¬ b.Reaches a := by
  obtain ⟨ss, k⟩ := a
  obtain ⟨ss', k'⟩ := b
  intro hreaches
  cases k with
  | none =>
    cases k' with
    | none =>
      have hsteps := h.unnested f hf g hg _ _ ha hb rfl rfl hreaches
      exact hne (congrArg (Address.mk · none) hsteps)
    | some k' => exact hreaches
  | some k =>
    cases k' with
    | none => exact hreaches
    | some k' =>
      obtain ⟨hsteps, hkeys⟩ := hreaches
      exact hne (by rw [Address.mk.injEq, Option.some.injEq]; exact ⟨hsteps, hkeys⟩)

end Separate

/-! ## Plans without a document -/

theorem payloadOf_document (w : FieldWriter) (d : Document) (text : String) (attr : Option QName) :
    ({ w with document := d } : FieldWriter).payloadOf text attr = w.payloadOf text attr := by
  cases attr <;> rfl

/-- The address of a plan is that of its path. -/
theorem addressOf_of_planFor {w : FieldWriter} {p : Path} {text : String} {plan : WritePlan}
    (h : w.planFor p text = .ok plan) : w.addressOf p = .ok plan.address := by
  obtain ⟨hresolved, hput, -, -⟩ := planFor_eq_ok h
  unfold addressOf WritePlan.address
  rw [hresolved, ok_bind]
  unfold payloadOf at hput
  cases hattr : p.attr with
  | none =>
    rw [hattr] at hput
    rw [← Except.ok.inj hput]
    rfl
  | some q =>
    rw [hattr] at hput
    obtain ⟨uri, huri, hok⟩ := bind_eq_ok.1 hput
    rw [← Except.ok.inj hok]
    show w.resolve none q >>= _ = _
    rw [huri]
    rfl

/-- The payload of a plan puts the text. -/
theorem value_of_planFor {w : FieldWriter} {p : Path} {text : String} {plan : WritePlan}
    (h : w.planFor p text = .ok plan) : plan.payload.value = text := by
  obtain ⟨-, hput, -, -⟩ := planFor_eq_ok h
  unfold payloadOf at hput
  cases hattr : p.attr with
  | none =>
    rw [hattr] at hput
    rw [← Except.ok.inj hput]
    rfl
  | some q =>
    rw [hattr] at hput
    obtain ⟨uri, -, hok⟩ := bind_eq_ok.1 hput
    rw [← Except.ok.inj hok]
    rfl

/-- A plan depends on the document only in that its root must be possible there. -/
theorem planFor_document {w : FieldWriter} {p : Path} {text : String} {plan : WritePlan}
    (h : w.planFor p text = .ok plan) {d : Document}
    (hroot : ({ w with document := d } : FieldWriter).checkRoot plan.root = .ok ()) :
    ({ w with document := d } : FieldWriter).planFor p text = .ok plan := by
  obtain ⟨hresolved, hput, hdeclarations, -⟩ := planFor_eq_ok h
  unfold planFor
  rw [resolveSteps_document, hresolved, ok_bind, payloadOf_document, hput, ok_bind]
  dsimp only
  rw [hroot, ok_bind, ← hdeclarations]

theorem checkRoot_of_isTree {w : FieldWriter} {root : Place} {top : Forest Node}
    (htree : w.document.IsTree top) (hposition : root.position ≤ 1)
    (hroot : top = .nil ∨ ∃ r, top = Forest.single r ∧ root.accepts r.1 = true) :
    w.checkRoot root = .ok () := by
  rcases hroot with rfl | ⟨r, rfl, hr⟩
  · unfold checkRoot
    rw [if_neg (by omega), htree.below_root]
    rfl
  · obtain ⟨e, he, -⟩ := Place.accepts_iff.1 hr
    have hat : Forest.At (fun n : Node => n.content.isElement) 1 (Forest.single r).trees [] r [] :=
      ⟨rfl, by rw [he]; rfl, rfl⟩
    exact checkRoot_of_at htree hposition hat hr

/-- The path and the text of a field that can be written, and the plan for it. -/
structure Plans (w : FieldWriter) (f : Field) (p : Path) (text : String) (plan : WritePlan) :
    Prop where
  path : w.pathOf f = .ok p
  stored : textOf? f = some text
  planned : w.planFor p text = .ok plan

theorem Plans.document {w : FieldWriter} {f : Field} {p : Path} {text : String} {plan : WritePlan}
    (h : w.Plans f p text plan) {d : Document}
    (hroot : ({ w with document := d } : FieldWriter).checkRoot plan.root = .ok ()) :
    ({ w with document := d } : FieldWriter).Plans f p text plan :=
  ⟨h.path, h.stored, planFor_document h.planned hroot⟩

theorem Plans.writeField {w : FieldWriter} {f : Field} {p : Path} {text : String} {plan : WritePlan}
    (h : w.Plans f p text plan) (log : List Audit) :
    w.writeField f log = (.ok (), { w with document := plan.write w.document }, log) := by
  unfold FieldWriter.writeField
  rw [h.path]
  dsimp only
  rw [h.stored]
  dsimp only
  rw [h.planned]

theorem Plans.eq_of_writeField {w w' : FieldWriter} {f : Field} {p : Path} {text : String}
    {plan : WritePlan} (h : w.Plans f p text plan)
    (written : w.writeField f [] = (.ok (), w', [])) :
    { w with document := plan.write w.document } = w' := by
  rw [h.writeField [], Prod.mk.injEq, Prod.mk.injEq] at written
  exact written.2.1

/-! ## One write -/

/-- What was found before is found afterwards, and what the root element declares stays declared. -/
structure Kept (d d' : Document) : Prop where
  located : ∀ (ps : List Place) (t : NodeTree), d.locate? (ps.map Place.stepTest) = some t →
    ∃ t', d'.locate? (ps.map Place.stepTest) = some t'
  declared : ∀ (r : NodeTree), d.IsTree (Forest.single r) → ∃ r', d'.IsTree (Forest.single r') ∧
    ∀ b ∈ Attribute.declarations r.1.content.attributes,
      b ∈ Attribute.declarations r'.1.content.attributes

theorem Kept.refl (d : Document) : Kept d d :=
  ⟨fun _ t ht => ⟨t, ht⟩, fun r hr => ⟨r, hr, fun _ hb => hb⟩⟩

theorem Kept.trans {d d' d'' : Document} (h : Kept d d') (h' : Kept d' d'') : Kept d d'' where
  located ps t ht := by
    obtain ⟨t', ht'⟩ := h.located ps t ht
    exact h'.located ps t' ht'
  declared r hr := by
    obtain ⟨r', hr', hb⟩ := h.declared r hr
    obtain ⟨r'', hr'', hb'⟩ := h'.declared r' hr'
    exact ⟨r'', hr'', fun b hmem => hb' b (hb b hmem)⟩

end FieldWriter

/-- What the root element declares stays declared. -/
theorem WrittenRoot.declarations {plan : WritePlan} (hr : plan.payload.Regular) {r r' : NodeTree}
    {next next' : Nat} (h : WrittenRoot plan r next r' next') :
    ∀ b ∈ Attribute.declarations r.1.content.attributes,
      b ∈ Attribute.declarations r'.1.content.attributes := by
  obtain ⟨i, e, e', hroot, hdeclared, hwritten⟩ := h
  obtain ⟨new, -, hnew⟩ := hdeclared.declarations
  intro b hb
  rw [hwritten.declarations hr]
  rw [hroot] at hb
  show b ∈ Attribute.declarations e'.attributes
  rw [hnew]
  exact List.mem_append_left new hb

namespace FieldWriter

section
variable {n : Namespaces} {w : FieldWriter} {f : Field} {p : Path} {text : String}
  {plan : WritePlan}

/-- After a write the one root element stands at the root place of the plan. -/
theorem Built.placed (hw : w.Built n) (hf : f.Plain) (h : w.Plans f p text plan) :
    plan.Built n ∧ plan.root.position = 1 ∧ ∃ top ds r, w.document.IsTree top ∧
      (plan.write w.document).IsTree (Forest.single r) ∧
      WrittenTop plan top w.document.allocated (Forest.single r) (plan.write w.document).allocated ∧
      plan.root.accepts r.1 = true ∧ n.Declares ds ∧ NodeTree.Built n ds ds r ∧
      ∀ d ∈ plan.declarations, d ∈ ds := by
  obtain ⟨hbuilt, -, top, ds, r, htree, htree', hwritten, hds, hr, hgiven⟩ :=
    hw.written hf h.path h.stored h.planned
  obtain ⟨u, u', k, k', hu, -⟩ := hw.located hf h.path h.stored h.planned
  unfold Document.locate? at hu
  rw [htree'.node?_root, Option.bind_eq_bind, Option.bind_some, Forest.descend?_places] at hu
  obtain ⟨t, ht, -⟩ := Option.bind_eq_some_iff.1 hu
  obtain ⟨hmem, hroot⟩ := Forest.nthRoot?_mem ht
  rw [show t = r from List.mem_singleton.1 hmem] at hroot
  have hposition := one_le_position_of_planFor
    (Path.parsed_of_parse (pathOf_eq_ok h.path).1) h.planned plan.root List.mem_cons_self
  have hle := (checkRoot_eq_ok (planFor_eq_ok h.planned).2.2.2).1
  exact ⟨hbuilt, by omega, top, ds, r, htree, htree', hwritten, hroot, hds, hr, hgiven⟩

/-- A write changes nothing at an address that it does not reach. -/
theorem Built.held_other (hw : w.Built n) (hf : f.Plain) (h : w.Plans f p text plan) {a : Address}
    {ps : List Place} (ha : a.steps = (plan.root :: ps).map Place.stepTest)
    (haway : ¬ plan.address.Reaches a) :
    (plan.write w.document).held a = w.document.held a := by
  obtain ⟨-, hposition, top, ds, r, htree, htree', hwritten, hroot, -⟩ := hw.placed hf h
  obtain ⟨r₀, m, m', hwrittenRoot, hbefore⟩ := hwritten.held_root hroot hposition
  obtain ⟨steps, k⟩ := a
  obtain rfl : steps = _ := ha
  rw [htree.held, htree'.held, hbefore, Forest.descend?_single hposition hroot]
  exact hwrittenRoot.held fun hreaches => haway (hreaches.cons plan.root.stepTest)

/-- What is written is held at its address, if nothing was held there. -/
theorem Built.held_own (hw : w.Built n) (hf : f.Plain) (h : w.Plans f p text plan)
    (hunset : w.document.held plan.address = Address.unset plan.address.attr) :
    (plan.write w.document).held plan.address = some text := by
  obtain ⟨hbuilt, hposition, top, ds, r, htree, htree', hwritten, hroot, -⟩ := hw.placed hf h
  obtain ⟨r₀, m, m', hwrittenRoot, hbefore⟩ := hwritten.held_root hroot hposition
  unfold WritePlan.address at hunset ⊢
  rw [htree.held, hbefore] at hunset
  rw [htree'.held, Forest.descend?_single hposition hroot,
    hwrittenRoot.held_own hbuilt.payload.regular hunset, value_of_planFor h.planned]

/-- A write keeps what was found and what was declared. -/
theorem Built.kept (hw : w.Built n) (hf : f.Plain) (h : w.Plans f p text plan) :
    Kept w.document (plan.write w.document) := by
  obtain ⟨hbuilt, -, top, ds, r, htree, htree', hwritten, -⟩ := hw.placed hf h
  constructor
  · intro ps t ht
    have hpos := one_le_position_of_planFor
      (Path.parsed_of_parse (pathOf_eq_ok h.path).1) h.planned
    have hw' := written_write (fun q hq => hpos q (List.mem_cons_of_mem _ hq)) htree
    obtain ⟨t', ht', -⟩ := hw'.locate? ht
    exact ⟨t', ht'⟩
  · intro r₁ hr₁
    refine ⟨r, htree', ?_⟩
    obtain ⟨r₀, m, m', hwrittenRoot, hbefore⟩ := hwritten.root
    obtain rfl : top = Forest.single r₁ := (Forest.cons.inj (htree.symm.trans hr₁)).2.1
    rcases hbefore with heq | ⟨heq, -⟩
    · have hsame : r₁ = r₀ := by
        have := congrArg Forest.trees heq
        exact (List.cons.inj this).1
      rw [hsame]
      exact hwrittenRoot.declarations hbuilt.payload.regular
    · cases heq

end

/-! ## Runs -/

/-- The fields are written one after the other: each request is granted and adds no record. -/
inductive Writes : FieldWriter → List Field → FieldWriter → Prop
  | nil {w : FieldWriter} : Writes w [] w
  | cons {w w' v : FieldWriter} {f : Field} {fs : List Field}
      (first : w.writeField f [] = (.ok (), w', [])) (rest : Writes w' fs v) : Writes w (f :: fs) v

/-- The writer comes from another one by writing fields whose paths begin with the root step: its
document is built, and the root element, if there is one, stands at the step. -/
structure Underway (w : FieldWriter) (root : StepTest) (v : FieldWriter) : Prop where
  same : v = { w with document := v.document }
  built : v.Built w.namespaces
  root : ∃ top, v.document.IsTree top ∧ (top = .nil ∨
    ∃ r, top = Forest.single r ∧ root.test.acceptsNode none r.1.content = true)

/-- The field is plain and can be written, by a plan that begins with the root step. -/
def Suits (w : FieldWriter) (root : StepTest) (f : Field) (text : String) (plan : WritePlan) :
    Prop :=
  f.Plain ∧ plan.root.stepTest = root ∧ ∃ p, w.Plans f p text plan

variable {w v u : FieldWriter} {root : StepTest} {f : Field} {text : String} {plan : WritePlan}

theorem Suits.addresses (h : w.Suits root f text plan) : w.Addresses f plan.address := by
  obtain ⟨-, -, p, hplan⟩ := h
  exact ⟨p, (pathOf_eq_ok hplan.path).1, addressOf_of_planFor hplan.planned⟩

/-- Fields that suit have one root place. -/
theorem Suits.steps (h : w.Suits root f text plan) {g : Field} {text' : String} {plan' : WritePlan}
    (h' : w.Suits root g text' plan') :
    plan.address.steps = (plan'.root :: plan.places).map Place.stepTest := by
  rw [List.map_cons, h'.2.1, ← h.2.1]
  rfl

theorem Suits.unique {text' : String} {plan' : WritePlan} (h : w.Suits root f text plan)
    (h' : w.Suits root f text' plan') : text = text' ∧ plan = plan' := by
  obtain ⟨-, -, p, hp⟩ := h
  obtain ⟨-, -, p', hp'⟩ := h'
  obtain rfl : p = p' := Except.ok.inj (hp.path.symm.trans hp'.path)
  obtain rfl : text = text' := Option.some.inj (hp.stored.symm.trans hp'.stored)
  exact ⟨rfl, Except.ok.inj (hp.planned.symm.trans hp'.planned)⟩

/-- Where writing is underway a field that suits can be written, and writing is underway after it.
-/
theorem Underway.writeField (hv : w.Underway root v) (hf : w.Suits root f text plan) :
    (∃ p, v.Plans f p text plan) ∧
      w.Underway root { v with document := plan.write v.document } := by
  obtain ⟨hplain, rfl, p, hplan⟩ := hf
  obtain ⟨top, htree, htop⟩ := hv.root
  have hle := (checkRoot_eq_ok (planFor_eq_ok hplan.planned).2.2.2).1
  have hplan' := hplan.document (checkRoot_of_isTree (w := { w with document := v.document }) htree
    hle htop)
  rw [← hv.same] at hplan'
  obtain ⟨-, -, -, -, r, -, htree', -, hroot, -⟩ := hv.built.placed hplain hplan'
  refine ⟨⟨p, hplan'⟩, ?_, ?_, _, htree', .inr ⟨r, rfl, hroot⟩⟩
  · rw [hv.same]
  · have hbuilt := hv.built.writeField hplain []
    rwa [hplan'.writeField] at hbuilt

/-- Fields that suit can be written in any order. -/
theorem Underway.exists_writes {fs : List Field} (hv : w.Underway root v)
    (hfs : ∀ f ∈ fs, ∃ text plan, w.Suits root f text plan) : ∃ u, v.Writes fs u := by
  induction fs generalizing v with
  | nil => exact ⟨v, .nil⟩
  | cons f fs ih =>
    obtain ⟨text, plan, hf⟩ := hfs f List.mem_cons_self
    obtain ⟨⟨p, hplan⟩, hnext⟩ := hv.writeField hf
    obtain ⟨u, hu⟩ := ih hnext fun g hg => hfs g (List.mem_cons_of_mem f hg)
    exact ⟨u, .cons (hplan.writeField []) hu⟩

/-- What a run of other fields leaves: what is held at an address that they do not reach, and all
that was found and declared. -/
theorem Writes.held_other {fs : List Field} (h : v.Writes fs u) (hv : w.Underway root v)
    {a : Address} {ps : List Place} (ha : a.steps = root :: ps.map Place.stepTest)
    (hfs : ∀ f ∈ fs, ∃ text plan, w.Suits root f text plan ∧ ¬ plan.address.Reaches a) :
    u.document.held a = v.document.held a ∧ Kept v.document u.document := by
  induction h with
  | nil => exact ⟨rfl, .refl _⟩
  | @cons v v' u f fs first _ ih =>
    obtain ⟨text, plan, hf, haway⟩ := hfs f List.mem_cons_self
    obtain ⟨⟨p, hplan⟩, hnext⟩ := hv.writeField hf
    obtain rfl := hplan.eq_of_writeField first
    obtain ⟨hheld, hkept⟩ := ih hnext fun g hg => hfs g (List.mem_cons_of_mem f hg)
    have hsteps : a.steps = (plan.root :: ps).map Place.stepTest := by
      rw [ha, ← hf.2.1]
      rfl
    exact ⟨hheld.trans (hv.built.held_other hf.1 hplan hsteps haway),
      (hv.built.kept hf.1 hplan).trans hkept⟩

/-- What a plan wrote stands in the document: the text is held at the address, the steps lead to an
element, and what the plan needs declared is declared on the root element. -/
structure Stands (n : Namespaces) (d : Document) (text : String) (plan : WritePlan) : Prop where
  held : d.held plan.address = some text
  located : ∃ t, d.locate? plan.address.steps = some t
  built : plan.Built n
  declared : ∃ r, d.IsTree (Forest.single r) ∧
    ∀ b ∈ plan.declarations, b ∈ Attribute.declarations r.1.content.attributes

/-- After a run of separate fields each of them stands in the document, if nothing was held before
at their addresses. -/
theorem Writes.stands {fs : List Field} (h : v.Writes fs u) (hv : w.Underway root v)
    (hfs : ∀ f ∈ fs, ∃ text plan, w.Suits root f text plan) (hseparate : w.Separate fs)
    (hunset : ∀ f ∈ fs, ∀ a, w.Addresses f a → v.document.held a = Address.unset a.attr) :
    w.Underway root u ∧ ∀ f ∈ fs, ∀ text plan, w.Suits root f text plan →
      Stands w.namespaces u.document text plan := by
  induction h with
  | nil => exact ⟨hv, fun f hf => absurd hf List.not_mem_nil⟩
  | @cons v v' u f fs first rest ih =>
    obtain ⟨text, plan, hf⟩ := hfs f List.mem_cons_self
    obtain ⟨⟨p, hplan⟩, hnext⟩ := hv.writeField hf
    obtain rfl := hplan.eq_of_writeField first
    have haddress := hf.addresses
    have hrest : ∀ g ∈ fs, ∃ text' plan', w.Suits root g text' plan' ∧
        plan'.address ≠ plan.address := by
      intro g hg
      obtain ⟨text', plan', hsuits⟩ := hfs g (List.mem_cons_of_mem f hg)
      have hne := (List.pairwise_cons.1 hseparate.distinct).1 g hg
      exact ⟨text', plan', hsuits, (hne _ _ haddress hsuits.addresses).symm⟩
    -- the rest of the run starts with nothing held at its addresses
    have hunset' : ∀ g ∈ fs, ∀ a, w.Addresses g a →
        (plan.write v.document).held a = Address.unset a.attr := by
      intro g hg a ha
      obtain ⟨text', plan', hsuits, hne⟩ := hrest g hg
      obtain rfl := hsuits.addresses.unique ha
      have haway := hseparate.not_reaches (List.mem_cons_of_mem f hg) List.mem_cons_self
        hsuits.addresses haddress hne
      rw [hv.built.held_other hf.1 hplan (hsuits.steps hf) haway]
      exact hunset g (List.mem_cons_of_mem f hg) _ ha
    obtain ⟨hu, hothers⟩ := ih hnext (fun g hg => hfs g (List.mem_cons_of_mem f hg)) hseparate.tail
      hunset'
    refine ⟨hu, fun g hg text' plan' hsuits => ?_⟩
    rcases List.mem_cons.1 hg with rfl | hg
    · obtain ⟨rfl, rfl⟩ := hsuits.unique hf
      have hown := hv.built.held_own hf.1 hplan
        (hunset g List.mem_cons_self plan'.address haddress)
      have hsteps : plan'.address.steps = root :: plan'.places.map Place.stepTest := by
        rw [← hf.2.1]
        rfl
      obtain ⟨hheld, hkept⟩ := rest.held_other hnext hsteps fun g' hg' => by
        obtain ⟨text'', plan'', hsuits', hne⟩ := hrest g' hg'
        exact ⟨text'', plan'', hsuits', hseparate.not_reaches List.mem_cons_self
          (List.mem_cons_of_mem g hg') haddress hsuits'.addresses hne.symm⟩
      obtain ⟨x, t, k, k', hlocated, -⟩ :=
        hv.built.located hf.1 hplan.path hplan.stored hplan.planned
      obtain ⟨hbuilt, -, top, ds, r, -, htree, -, -, -, hr, hgiven⟩ := hv.built.placed hf.1 hplan
      obtain ⟨r', hr', hdeclared⟩ := hkept.declared r htree
      refine ⟨hheld.trans hown, hkept.located _ t hlocated, hbuilt, r', hr', fun d hd => ?_⟩
      refine hdeclared d ?_
      cases hr with
      | intro built => exact built.attributes.own ▸ hgiven d hd
    · exact hothers g hg text' plan' hsuits

/-! ## From the start -/

theorem isTree_new {maxIndex : Nat} {n : Namespaces}
    (made : FieldWriter.new maxIndex n none = .ok w) : w.document.IsTree .nil := by
  rw [show w = blank maxIndex n from (Except.ok.inj made).symm]
  rfl

/-- A writer without a seed has written nothing. -/
theorem underway_new {maxIndex : Nat} {n : Namespaces}
    (made : FieldWriter.new maxIndex n none = .ok w) (root : StepTest) : w.Underway root w := by
  refine ⟨rfl, ?_, .nil, isTree_new made, .inl rfl⟩
  have hbuilt := (Grown.new made).built
  rwa [← hbuilt.namespaces] at hbuilt

theorem held_new {maxIndex : Nat} {n : Namespaces} (made : FieldWriter.new maxIndex n none = .ok w)
    {a : Address} (ha : a.steps ≠ []) : w.document.held a = Address.unset a.attr := by
  rw [(isTree_new made).held]
  cases hsteps : a.steps with
  | nil => exact absurd hsteps ha
  | cons s ss => exact NodeTree.held_none a.attr

/-- What can be written underway can be written at the start. -/
theorem Plans.of_underway {maxIndex : Nat} {n : Namespaces}
    (made : FieldWriter.new maxIndex n none = .ok w) (hv : v.namespaces = w.namespaces)
    (hmax : v.maxIndex = w.maxIndex) {p : Path} (h : v.Plans f p text plan) :
    w.Plans f p text plan := by
  have htree := isTree_new made
  have hw : w = { v with document := w.document } := by
    obtain ⟨m, d, n'⟩ := v
    obtain ⟨m', d', n''⟩ := w
    obtain rfl : n' = n'' := hv
    obtain rfl : m = m' := hmax
    rfl
  have hle := (checkRoot_eq_ok (planFor_eq_ok h.planned).2.2.2).1
  rw [hw] at htree ⊢
  exact h.document (checkRoot_of_isTree htree hle (.inl rfl))

/-- What was written in a run can be written at the start. -/
theorem Writes.plans {maxIndex : Nat} {n : Namespaces}
    (made : FieldWriter.new maxIndex n none = .ok w) {fs : List Field} (h : v.Writes fs u)
    (hv : v.namespaces = w.namespaces) (hmax : v.maxIndex = w.maxIndex) :
    ∀ f ∈ fs, ∃ p text plan, w.Plans f p text plan := by
  induction h with
  | nil => exact fun f hf => absurd hf List.not_mem_nil
  | cons first _ ih =>
    obtain ⟨p, text, plan, hp, ht, hplan, rfl⟩ := plan_of_writeField first
    intro g hg
    rcases List.mem_cons.1 hg with rfl | hg
    · exact ⟨p, text, plan, Plans.of_underway made hv hmax ⟨hp, ht, hplan⟩⟩
    · exact ih hv hmax g hg

/-- Separate fields of a run begin with one root step. -/
theorem Separate.suits {fs : List Field} (h : w.Separate fs) (hplain : ∀ f ∈ fs, f.Plain)
    (hplans : ∀ f ∈ fs, ∃ p text plan, w.Plans f p text plan) :
    ∃ root, ∀ f ∈ fs, ∃ text plan, w.Suits root f text plan := by
  cases fs with
  | nil => exact ⟨⟨⟨"", .any⟩, 1⟩, fun f hf => absurd hf List.not_mem_nil⟩
  | cons f fs =>
    obtain ⟨p, text, plan, hplan⟩ := hplans f List.mem_cons_self
    have hf : w.Suits plan.root.stepTest f text plan := ⟨hplain f List.mem_cons_self, rfl, p, hplan⟩
    refine ⟨plan.root.stepTest, fun g hg => ?_⟩
    obtain ⟨p', text', plan', hplan'⟩ := hplans g hg
    have hg' : w.Suits plan'.root.stepTest g text' plan' := ⟨hplain g hg, rfl, p', hplan'⟩
    have hroot := h.root g hg f List.mem_cons_self _ _ hg'.addresses hf.addresses
    exact ⟨text', plan', hplain g hg, Option.some.inj hroot, p', hplan'⟩

end FieldWriter

end MarkupFields
