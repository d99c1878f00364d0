import MarkupFields.Proofs.Writer.Declaring
import MarkupFields.Proofs.Writer.Elsewhere
import MarkupFields.Proofs.Writer.Faithful

/-
  Declarations over the runs of a writer. What a prefix stands for is kept in two places: in the bindings
  of the writer, which a seed and the caller add to, and on the root element, where a prefix is declared
  once a path uses it. Through a run the root declares each prefix once and as what it is bound to
  (`Forest.DeclaresBound`, `RegularRun.declaresBound`), and no write touches what other elements declare.
  What a write does to the attributes of the root is said in full (`Path.DeclaredOn`): where new
  declarations stand, in which order, and that all else stays as it was but for an attribute that the
  path itself leads to. `RegularRun.root_declarations` puts these together.

  Nothing is asked of the bindings or the seed. Of paths it is asked that they set no attribute that is
  a declaration, which is a second way to declare a prefix and passes the bindings by.
-/

namespace MarkupFields

open Text Scan

/-! ## The root element of a document -/

namespace Document

variable {d : Document} {top : Forest Node}

/-- The attributes of a node that is found by its handle. -/
theorem attributes_of_mem (hd : d.Valid) {n : Node} (hn : n ∈ d.forest.preorder) :
    d.attributes n.handle = n.content.attributes := by
  obtain ⟨below, ht⟩ := Forest.onlyAt_of_mem_preorder hd.nodup hn
  unfold attributes content? node?
  rw [ht.find?]
  rfl

theorem attributes_of_not_mem {h : Nat} (hh : h ∉ d.forest.handles) : d.attributes h = [] := by
  unfold attributes content? node?
  rw [Forest.find?_of_not_mem hh]
  rfl

theorem IsTree.mem_preorder (h : d.IsTree top) {t : NodeTree} (ht : t ∈ top.trees) :
    t.1 ∈ d.forest.preorder := by
  rw [show d.forest = _ from h, Forest.preorder, Forest.preorder, List.append_nil]
  exact List.mem_cons_of_mem _ (Forest.mem_preorder.2 ⟨t, ht, .inl rfl⟩)

theorem IsTree.rootElement?_of_at (h : d.IsTree top) {before after : List NodeTree} {r : NodeTree}
    (hat : Forest.At (fun n : Node => n.content.isElement) 1 top.trees before r after) :
    d.rootElement? = some r.1.handle := by
  have hbefore : (before.map Prod.fst).filter (fun n : Node => n.content.isElement) = [] := by
    rw [List.filter_eq_nil_iff]
    intro n hn
    obtain ⟨t, ht, rfl⟩ := List.mem_map.1 hn
    exact Bool.eq_false_iff.1 (hat.first t ht)
  unfold rootElement? elementChildren
  rw [h.below_root, Forest.roots_eq_map_trees, hat.split, List.map_append, List.map_cons,
    List.filter_append, hbefore, List.nil_append, List.filter_cons, if_pos hat.passes]
  rfl

theorem IsTree.exists_at (h : d.IsTree top) {k : Nat} (hk : d.rootElement? = some k) :
    ∃ before r after, Forest.At (fun n : Node => n.content.isElement) 1 top.trees before r after ∧
      r.1.handle = k := by
  have hcount : 1 ≤ Forest.rootCount (fun n : Node => n.content.isElement) top.trees := by
    unfold rootElement? elementChildren at hk
    rw [h.below_root] at hk
    rw [← Forest.rootCount_eq, ← List.length_map Node.handle]
    exact List.length_pos_of_mem (List.mem_of_head? hk)
  obtain ⟨before, r, after, hat⟩ := Forest.exists_at top.trees (Nat.le_refl 1) hcount
  rw [h.rootElement?_of_at hat] at hk
  exact ⟨before, r, after, hat, Option.some.inj hk⟩

end Document

/-! ## What the root declares is bound -/

/-- Nothing but elements has anything below it, and the first element of the level declares each prefix
once and as what it is bound to. -/
structure Forest.DeclaresBound (n : Namespaces) (top : Forest Node) : Prop where
  branch : top.ElementsBranch
  once : ∀ {before after : List NodeTree} {r : NodeTree},
    At (fun k : Node => k.content.isElement) 1 top.trees before r after →
      ((Attribute.declarations r.1.content.attributes).map Prod.fst).Nodup
  knows : ∀ {before after : List NodeTree} {r : NodeTree},
    At (fun k : Node => k.content.isElement) 1 top.trees before r after →
      n.Knows r.1.content.attributes

section
variable {n n' : Namespaces} {top top' : Forest Node}

theorem Forest.declaresBound_nil (n : Namespaces) : Forest.DeclaresBound n .nil where
  branch := trivial
  once hat := absurd hat.split (by simp [trees])
  knows hat := absurd hat.split (by simp [trees])

theorem Forest.DeclaresBound.mono (h : top.DeclaresBound n)
    (hn : ∀ q u, n.uri? q = some u → n'.uri? q = some u) : top.DeclaresBound n' where
  branch := h.branch
  once := h.once
  knows hat d hd := hn _ _ (h.knows hat d hd)

/-- A lawful root declares each prefix once. -/
theorem NodeTree.Lawful.once {exact : Prop} {s : Scope} {r : NodeTree}
    (h : NodeTree.Lawful exact s r) :
    ((Attribute.declarations r.1.content.attributes).map Prod.fst).Nodup := by
  cases h with
  | intro opens =>
    rw [Attribute.prefixes_declarations]
    exact opens.attributes.prefixes

/-- A lawful root among comments and instructions, if what it declares is bound. -/
theorem Forest.RootAmong.declaresBound {exact : Prop} {s : Scope} {before after : List NodeTree}
    {r : NodeTree} (h : top.RootAmong before r after) (hr : NodeTree.Lawful exact s r)
    (hk : n.Knows r.1.content.attributes) : top.DeclaresBound n := by
  have hat := h.at hr.isElement
  refine ⟨Forest.elementsBranch_iff_trees.2 ?_, fun hat' => ?_, fun hat' => ?_⟩
  · have hleaf : ∀ t, NodeTree.Miscellany t → NodeTree.ElementsBranch t := by
      rintro ⟨k, below⟩ ⟨-, -, hbelow⟩
      obtain rfl : below = .nil := hbelow
      exact ⟨fun _ => rfl, trivial⟩
    rw [hat.split, List.forall_mem_append, List.forall_mem_cons]
    refine ⟨fun t ht => hleaf t (h.before t ht), ?_, fun t ht => hleaf t (h.after t ht)⟩
    exact Forest.elementsBranch_iff_trees.1 hr.single.elementsBranch r (List.mem_singleton_self r)
  · obtain ⟨-, rfl, -⟩ := hat'.unique hat
    exact hr.once
  · obtain ⟨-, rfl, -⟩ := hat'.unique hat
    exact hk

variable {plan : WritePlan} {next next' : Nat}

/-- A plan that declares what is bound leaves what the root declares bound. -/
theorem WrittenRoot.declaresBound {r r' : NodeTree} (h : WrittenRoot plan r next r' next')
    (hplan : plan.payload.Regular) (hds : ∀ d ∈ plan.declarations, n.Gives d)
    (ho : ((Attribute.declarations r.1.content.attributes).map Prod.fst).Nodup)
    (hk : n.Knows r.1.content.attributes) :
    ((Attribute.declarations r'.1.content.attributes).map Prod.fst).Nodup ∧
      n.Knows r'.1.content.attributes := by
  obtain ⟨i, e, e', hroot, hdeclared, hwritten⟩ := h
  rw [hroot] at ho hk
  unfold Namespaces.Knows
  rw [hwritten.declarations hplan]
  exact ⟨hdeclared.once ho, hdeclared.knows hds hk⟩

theorem WrittenTop.declaresBound (h : WrittenTop plan top next top' next')
    (hplan : plan.payload.Regular) (hds : ∀ d ∈ plan.declarations, n.Gives d)
    (ht : top.DeclaresBound n) : top'.DeclaresBound n := by
  have hroot : ∀ {before after : List NodeTree} {r : NodeTree},
      Forest.At (fun k : Node => k.content.isElement) 1 top'.trees before r after →
        ((Attribute.declarations r.1.content.attributes).map Prod.fst).Nodup ∧
          n.Knows r.1.content.attributes := by
    intro before after r hat
    cases h with
    | present before' r₀ r' after' split first written trees =>
      obtain ⟨-, rfl, -⟩ := hat.unique
        ⟨trees, written.isElement, by rw [(Forest.rootCount_eq_zero _ _).2 first]⟩
      have hat₀ : Forest.At (fun k : Node => k.content.isElement) 1 top.trees before' r₀ after' :=
        ⟨split, written.extends.1.isElement ▸ written.isElement,
          by rw [(Forest.rootCount_eq_zero _ _).2 first]⟩
      exact written.declaresBound hplan hds (ht.once hat₀) (ht.knows hat₀)
    | absent r' none written trees =>
      obtain ⟨-, rfl, -⟩ := hat.unique
        ⟨trees, written.isElement, by rw [(Forest.rootCount_eq_zero _ _).2 none]⟩
      exact written.declaresBound hplan hds .nil fun d hd => absurd hd List.not_mem_nil
  exact ⟨h.elementsBranch ht.branch, fun hat => (hroot hat).1, fun hat => (hroot hat).2⟩

end

namespace FieldWriter

/-! ## Runs -/

/-- The states of a writer with any bindings and with or without a seed, by which no attribute was
written that is a declaration. -/
inductive RegularRun : FieldWriter → Prop
  | new {maxIndex : Nat} {n : Namespaces} {seed : Option String} {w : FieldWriter}
      (made : FieldWriter.new maxIndex n seed = .ok w) : RegularRun w
  | declare {w w' : FieldWriter} {p uri : String} (before : RegularRun w)
      (declared : w.declareNamespace p uri = .ok w') : RegularRun w'
  | write {w : FieldWriter} (before : RegularRun w) {f : Field} (regular : f.Regular)
      (log : List Audit) : RegularRun (w.writeField f log).2.1

variable {w w' : FieldWriter}

theorem RegularRun.reachable (h : w.RegularRun) : w.Reachable := by
  induction h with
  | new made => exact .new made
  | declare _ declared ih => exact .declare ih declared
  | write _ _ log ih => exact .write ih _ log

/-- A writer holds nothing at first, or what was read from its seed. -/
theorem declaresBound_of_new {maxIndex : Nat} {n : Namespaces} {seed : Option String}
    (h : FieldWriter.new maxIndex n seed = .ok w) {top : Forest Node}
    (htree : w.document.IsTree top) : top.DeclaresBound w.namespaces := by
  have hempty : (blank maxIndex n).document.IsTree .nil := rfl
  cases seed with
  | none =>
    obtain rfl : blank maxIndex n = w := Except.ok.inj h
    obtain rfl : top = .nil := (Forest.cons.inj (htree.symm.trans hempty)).2.1
    exact Forest.declaresBound_nil _
  | some text =>
    cases hblank : allBlank text.toList with
    | true =>
      unfold FieldWriter.new at h
      simp only [hblank, if_true, Except.ok.injEq] at h
      subst h
      obtain rfl : top = .nil := (Forest.cons.inj (htree.symm.trans hempty)).2.1
      exact Forest.declaresBound_nil _
    | false =>
      obtain ⟨m, top', before, k, e, below, after, -, -, htree', hamong, hlawful, hdeclared⟩ :=
        new_eq_ok_of_seed True hblank h
      obtain rfl : top = top' := (Forest.cons.inj (htree.symm.trans htree')).2.1
      exact hamong.declaresBound hlawful (Namespaces.declareAll_eq_ok hdeclared).1

section
variable {f : Field} {p : Path} {text : String} {plan : WritePlan}

/-- A regular field declares nothing by its attribute. -/
theorem regular_of_regular (hf : f.Regular) (hp : w.pathOf f = .ok p)
    (h : w.planFor p text = .ok plan) : plan.payload.Regular := by
  obtain ⟨-, hput, -⟩ := planFor_eq_ok h
  exact (overwrites_of_payloadOf hput hput (hf p (pathOf_eq_ok hp).1)).1.regular

/-- A plan that comes from a field is carried out on the top level of the document. -/
theorem writtenTop_of_planFor (hp : w.pathOf f = .ok p) (h : w.planFor p text = .ok plan)
    (top : Forest Node) (next : Nat) :
    WrittenTop plan top next (plan.writeTop top next).1 (plan.writeTop top next).2 := by
  have hpositions := one_le_position_of_planFor (Path.parsed_of_parse (pathOf_eq_ok hp).1) h
  exact writtenTop_writeTop plan (fun q hq => hpositions q (List.mem_cons_of_mem _ hq)) top next

end

/-- Through a run whatever the root declares is bound. -/
theorem RegularRun.declaresBound (h : w.RegularRun) {top : Forest Node}
    (htree : w.document.IsTree top) : top.DeclaresBound w.namespaces := by
  induction h generalizing top with
  | new made => exact declaresBound_of_new made htree
  | @declare w w' p uri _ declared ih =>
    rw [document_of_declareNamespace declared] at htree
    unfold declareNamespace at declared
    split at declared
    · rename_i n hn
      obtain rfl := Except.ok.inj declared
      exact (ih htree).mono (Namespaces.declare_eq_ok hn).2.1
    · cases declared
  | @write w before f regular log ih =>
    rcases w.writeField_cases f log with ⟨e, he⟩ | ⟨p, -, -, he⟩ | ⟨p, text, plan, hp, -, hplan, he⟩
    · rw [he] at htree ⊢
      exact ih htree
    · rw [he] at htree ⊢
      exact ih htree
    · rw [he] at htree ⊢
      obtain ⟨old, hold⟩ := before.reachable.valid.tree
      obtain rfl : top = (plan.writeTop old w.document.allocated).1 :=
        (Forest.cons.inj (htree.symm.trans (isTree_write plan hold))).2.1
      show Forest.DeclaresBound w.namespaces _
      exact (writtenTop_of_planFor hp hplan old _).declaresBound (regular_of_regular regular hp hplan)
        (gives_of_planFor hplan) (ih hold)

/-! ## Away from the root -/

/-- Writing leaves what other nodes than the root declare. -/
theorem RegularRun.declarations_of_ne_root (h : w.RegularRun) {f : Field} (hf : f.Regular)
    (log : List Audit) {k : Nat} (hk : (w.writeField f log).2.1.document.rootElement? ≠ some k) :
    Attribute.declarations ((w.writeField f log).2.1.document.attributes k) =
      Attribute.declarations (w.document.attributes k) := by
  have hvalid := h.reachable.valid
  have hvalid' := valid_writeField hvalid f log
  rcases w.writeField_cases f log with ⟨e, he⟩ | ⟨p, -, -, he⟩ | ⟨p, text, plan, hp, -, hplan, he⟩
  · rw [he]
  · rw [he]
  · rw [he] at hk hvalid' ⊢
    obtain ⟨top, htree⟩ := hvalid.tree
    have htree' := isTree_write plan htree
    have hwritten := writtenTop_of_planFor hp hplan top w.document.allocated
    obtain ⟨before, r, after, hat⟩ := hwritten.exists_at
    have hr : r.1.handle ≠ k := fun hr => hk (hr ▸ htree'.rootElement?_of_at hat)
    dsimp only at hvalid' ⊢
    rw [Document.declarations_attributes hvalid' htree', Document.declarations_attributes hvalid htree,
      hwritten.filter_declared (regular_of_regular hf hp hplan) (h.declaresBound htree).branch hat hr]

end FieldWriter

/-! ## The root -/

/-- The attribute of the root that a path leads to, if it leads to one. -/
def Path.rootAttribute? (p : Path) : Option QName :=
  if p.steps.tail = [] then p.attr else none

/-- What a write at a path makes of the attributes of the root. The prefixes of the path, in the order
of their first use, come to stand behind the last declaration, each only if it is bound and was not
declared. Then an attribute is set, if the path leads to one of the root. -/
structure Path.DeclaredOn (p : Path) (n : Namespaces) (as as' : List Attribute) : Prop where
  once : ∀ x ∈ p.usedPrefixes, x ≠ "xml" → (x = "" → n.default? ≠ none) →
    ((Attribute.declarations as').map Prod.fst).count x = 1
  xml : "xml" ∈ (Attribute.declarations as').map Prod.fst →
    "xml" ∈ (Attribute.declarations as).map Prod.fst
  placed : ∃ front rest declared, Attribute.SplitBehindLast as front rest ∧
    declared = front ++ (Attribute.newDeclarations (p.usedPrefixes.filterMap n.declaration?) as).map
      (fun d => Attribute.declaration d.1 d.2) ++ rest ∧
    (p.rootAttribute? = none → as' = declared) ∧
    ∀ q ∈ p.rootAttribute?, ∃ a : Attribute, a.name = q ∧ a.isDeclaration = false ∧
      as' = a.set declared

/-- A prefix is bound to one namespace. -/
theorem Namespaces.Gives.unique {n : Namespaces} {d b : String × String} (hd : n.Gives d)
    (hb : n.Gives b) (h : b.1 = d.1) : b = d := by
  have hmeaning := hb.meaning
  rw [h, hd.meaning] at hmeaning
  exact Prod.ext h (Option.some.inj hmeaning).symm

/-- The attribute that is put, if it is one. -/
def Payload.attribute? : Payload → Option Attribute
  | text _ => none
  | attr a => some a

namespace WritePlan

/-- The attribute that is set on the root itself, if one is. -/
def rootAttribute? (plan : WritePlan) : Option Attribute :=
  if plan.places = [] then plan.payload.attribute? else none

/-- What carrying out a plan makes of the attributes of the root. -/
def rootAttributes (plan : WritePlan) (as : List Attribute) : List Attribute :=
  match plan.rootAttribute? with
  | none => Attribute.declareEach plan.declarations as
  | some a => a.set (Attribute.declareEach plan.declarations as)

theorem attributes_writeRoot (plan : WritePlan) {r : NodeTree} (hr : r.1.content.isElement = true)
    (next : Nat) :
    (plan.writeRoot r next).1.1.content.attributes = plan.rootAttributes r.1.content.attributes := by
  obtain ⟨⟨k, c⟩, below⟩ := r
  cases c with
  | element e =>
    obtain ⟨root, places, ds, payload⟩ := plan
    cases places with
    | cons q places => rfl
    | nil =>
      cases payload with
      | attr a => rfl
      | text s =>
        show (Payload.put (.text s) _ next).1.1.content.attributes = _
        unfold Payload.put
        dsimp only
        split <;> rfl
  | _ => cases hr

variable {plan : WritePlan}

theorem regular_of_rootAttribute? (hplan : plan.payload.Regular) {a : Attribute}
    (ha : plan.rootAttribute? = some a) : a.isDeclaration = false := by
  unfold rootAttribute? at ha
  split at ha
  · cases hpayload : plan.payload with
    | text s =>
      rw [hpayload] at ha
      cases ha
    | attr b =>
      rw [hpayload] at ha
      exact Option.some.inj ha ▸ hplan b hpayload
  · cases ha

/-- The attribute that is set is none of the declarations. -/
theorem declarations_rootAttributes (hplan : plan.payload.Regular) (as : List Attribute) :
    Attribute.declarations (plan.rootAttributes as) =
      Attribute.declarations (Attribute.declareEach plan.declarations as) := by
  unfold rootAttributes
  split
  · rfl
  · rename_i a ha
    exact Attribute.declarations_set (regular_of_rootAttribute? hplan ha) _

end WritePlan

namespace FieldWriter

variable {w w' : FieldWriter} {f : Field} {p : Path} {text : String} {plan : WritePlan}

/-- The attribute that is put is the one at the end of the path. -/
theorem attribute?_of_payloadOf {payload : Payload} {attr : Option QName}
    (h : w.payloadOf text attr = .ok payload) : payload.attribute?.map Attribute.name = attr := by
  unfold payloadOf at h
  cases attr with
  | none =>
    rw [← Except.ok.inj h]
    rfl
  | some q =>
    obtain ⟨uri, -, hok⟩ := bind_eq_ok.1 h
    rw [← Except.ok.inj hok]
    rfl

/-- The plan of a path sets the attribute of the root that the path leads to. -/
theorem rootAttribute?_of_planFor (h : w.planFor p text = .ok plan) :
    plan.rootAttribute?.map Attribute.name = p.rootAttribute? := by
  obtain ⟨hresolved, hput, -⟩ := planFor_eq_ok h
  have hplaces : plan.places = [] ↔ p.steps.tail = [] := by
    have hlength := (resolveSteps_eq_ok hresolved).length_eq
    rw [← List.length_eq_zero_iff, ← List.length_eq_zero_iff, List.length_tail, hlength,
      List.length_cons, Nat.add_sub_cancel]
  unfold WritePlan.rootAttribute? Path.rootAttribute?
  by_cases hone : plan.places = []
  · rw [if_pos hone, if_pos (hplaces.1 hone), attribute?_of_payloadOf hput]
  · rw [if_neg hone, if_neg (mt hplaces.2 hone)]
    rfl

/-- A name that was resolved has no prefix, or one that is bound. -/
theorem uri?_ne_none_of_resolve {unprefixed uri : Option String} {q : QName}
    (h : w.resolve unprefixed q = .ok uri) : ∀ x ∈ q.nsPrefix, w.namespaces.uri? x ≠ none := by
  intro x hx
  rcases resolve_eq_ok.1 h with ⟨hp, -⟩ | ⟨y, u, hy, hu, -⟩
  · rw [hp] at hx
    cases hx
  · rw [hy] at hx
    rw [← Option.some.inj hx, hu]
    exact Option.some_ne_none u

/-- The prefixes of a path for which there is a plan are bound; the empty one need not be. -/
theorem uri?_ne_none_of_planFor (h : w.planFor p text = .ok plan) {x : String}
    (hx : x ∈ p.usedPrefixes) (hdefault : x = "" → w.namespaces.default? ≠ none) :
    w.namespaces.uri? x ≠ none := by
  obtain ⟨hresolved, hput, -⟩ := planFor_eq_ok h
  rcases List.mem_append.1 hx with hx | hx
  · obtain ⟨s, hs, rfl⟩ := List.mem_map.1 hx
    obtain ⟨q, -, -, -, hr⟩ := exists_of_forall₂ (resolveSteps_eq_ok hresolved).flip s hs
    cases hp : s.name.nsPrefix with
    | none =>
      rw [hp] at hdefault
      exact hdefault rfl
    | some y => exact uri?_ne_none_of_resolve hr y hp
  · obtain ⟨q, hq, hx⟩ := List.mem_filterMap.1 hx
    rw [Option.mem_toList] at hq
    unfold payloadOf at hput
    rw [show p.attr = some q from hq] at hput
    obtain ⟨uri, hr, -⟩ := bind_eq_ok.1 hput
    exact uri?_ne_none_of_resolve hr x hx

/-- What the plan of a path makes of the attributes of the root, if they declare each prefix once. -/
theorem declaredOn_of_planFor (h : w.planFor p text = .ok plan) (hplan : plan.payload.Regular)
    {as : List Attribute} (hnodup : ((Attribute.declarations as).map Prod.fst).Nodup) :
    p.DeclaredOn w.namespaces as (plan.rootAttributes as) := by
  have hgives := gives_of_planFor h
  have hdeclarations := declarations_of_planFor h
  obtain ⟨front, rest, hsplit⟩ := Attribute.exists_splitBehindLast as
  have hplaced := Attribute.declareEach_of_split
    (fun d hd b hb => (hgives d hd).unique (hgives b hb)) hsplit
  refine ⟨fun x hx hxml hdefault => ?_, fun hxml => ?_, front, rest,
    Attribute.declareEach plan.declarations as, hsplit, hdeclarations ▸ hplaced, ?_⟩
  · rw [WritePlan.declarations_rootAttributes hplan]
    refine List.count_eq_one_of_mem (Attribute.nodup_declareEach _ hnodup) ?_
    obtain ⟨u, hu⟩ := Option.ne_none_iff_exists'.1 (uri?_ne_none_of_planFor h hx hdefault)
    refine Attribute.known_declareEach plan.declarations as (x, u) ?_
    rw [hdeclarations]
    exact List.mem_filterMap.2 ⟨x, hx, Namespaces.declaration?_eq_some.2 ⟨rfl, hu, hxml⟩⟩
  · rw [WritePlan.declarations_rootAttributes hplan] at hxml
    obtain ⟨new, hnew, hall⟩ := Attribute.declarations_declareEach plan.declarations as
    rw [hall, List.map_append, List.mem_append] at hxml
    refine hxml.resolve_right fun hmem => ?_
    obtain ⟨d, hd, hname⟩ := List.mem_map.1 hmem
    exact (hgives d (hnew.subset hd)).ordinary hname
  · rw [← rootAttribute?_of_planFor h]
    unfold WritePlan.rootAttributes
    cases ha : plan.rootAttribute? with
    | none => exact ⟨fun _ => rfl, nofun⟩
    | some a =>
      refine ⟨nofun, fun q hq => ⟨a, Option.some.inj hq, ?_, rfl⟩⟩
      exact WritePlan.regular_of_rootAttribute? hplan ha

/-- After a plan the root has the attributes that the plan makes of those that it had. A root that is
new had none. -/
theorem attributes_write_of_planFor (hd : w.document.Valid) (hp : w.pathOf f = .ok p)
    (h : w.planFor p text = .ok plan) :
    ∃ root, (plan.write w.document).rootElement? = some root ∧
      (plan.write w.document).attributes root = plan.rootAttributes (w.document.attributes root) ∧
      (w.document.rootElement? = some root ∨ w.document.attributes root = []) := by
  have hd' := (written_of_planFor hd hp h).valid hd
  have hpositions : ∀ q ∈ plan.places, 1 ≤ q.position := fun q hq =>
    one_le_position_of_planFor (Path.parsed_of_parse (pathOf_eq_ok hp).1) h q
      (List.mem_cons_of_mem _ hq)
  obtain ⟨top, htree⟩ := hd.tree
  obtain ⟨next', before, r, after, hat', helement, hsame, hroot⟩ :=
    WritePlan.exists_at_writeTop hpositions top w.document.allocated
  have htree' := isTree_write plan htree
  have hafter := Document.attributes_of_mem hd' (htree'.mem_preorder hat'.mem)
  rw [hsame.handle, plan.attributes_writeRoot helement] at hafter
  refine ⟨r.1.handle, hsame.handle ▸ htree'.rootElement?_of_at hat', ?_⟩
  rw [hafter]
  rcases hroot with hat | rfl
  · rw [Document.attributes_of_mem hd (htree.mem_preorder hat.mem)]
    exact ⟨rfl, .inl (htree.rootElement?_of_at hat)⟩
  · -- its handle was not given out yet
    have hnone := Document.attributes_of_not_mem (d := w.document) (h := w.document.allocated)
      fun hmem => Nat.lt_irrefl _ (hd.given _ hmem)
    exact ⟨congrArg plan.rootAttributes hnone.symm, .inr hnone⟩

namespace RegularRun

variable (h : w.RegularRun)
include h

/-- The root declares each prefix once, as what it is bound to. -/
theorem declarations_root {root : Nat} (hroot : w.document.rootElement? = some root) :
    ((Attribute.declarations (w.document.attributes root)).map Prod.fst).Nodup ∧
      ∀ d ∈ Attribute.declarations (w.document.attributes root),
        w.namespaces.uri? d.1 = some d.2 := by
  obtain ⟨top, htree⟩ := h.reachable.valid.tree
  obtain ⟨before, r, after, hat, rfl⟩ := htree.exists_at hroot
  have hbound := h.declaresBound htree
  rw [Document.attributes_of_mem h.reachable.valid (htree.mem_preorder hat.mem)]
  exact ⟨hbound.once hat, hbound.knows hat⟩

/-- What a write that succeeds without a record makes of the root element, which may be new. -/
theorem declaredOn_of_writeField {log : List Audit} (hf : f.Regular)
    (hw : w.writeField f log = (.ok (), w', log)) :
    ∃ p root, Path.parse f.path = .ok p ∧ w'.document.rootElement? = some root ∧
      p.DeclaredOn w.namespaces (w.document.attributes root) (w'.document.attributes root) := by
  obtain ⟨p, text, plan, hp, -, hplan, rfl⟩ := plan_of_writeField hw
  obtain ⟨root, hroot, hafter, hbefore⟩ := attributes_write_of_planFor h.reachable.valid hp hplan
  have hnodup : ((Attribute.declarations (w.document.attributes root)).map Prod.fst).Nodup := by
    rcases hbefore with hold | hnew
    · exact (h.declarations_root hold).1
    · rw [hnew]
      exact .nil
  refine ⟨p, root, (pathOf_eq_ok hp).1, hroot, ?_⟩
  rw [hafter]
  exact declaredOn_of_planFor hplan (regular_of_regular hf hp hplan) hnodup

end RegularRun

/-- In every state of a run the root declares each prefix once, as what the writer has bound it to. A
write that follows leaves what all other elements declare, and if it succeeds without a record, the
root declares the prefixes of the path, in their place among its attributes. -/
theorem RegularRun.root_declarations (h : w.RegularRun) :
    (∀ root, w.document.rootElement? = some root →
      ((Attribute.declarations (w.document.attributes root)).map Prod.fst).Nodup ∧
        ∀ d ∈ Attribute.declarations (w.document.attributes root),
          w.namespaces.uri? d.1 = some d.2) ∧
    ∀ (f : Field) (log : List Audit), f.Regular →
      (∀ k, (w.writeField f log).2.1.document.rootElement? ≠ some k →
        Attribute.declarations ((w.writeField f log).2.1.document.attributes k) =
          Attribute.declarations (w.document.attributes k)) ∧
      ∀ w', w.writeField f log = (.ok (), w', log) →
        ∃ p root, Path.parse f.path = .ok p ∧ w'.document.rootElement? = some root ∧
          p.DeclaredOn w.namespaces (w.document.attributes root) (w'.document.attributes root) := by
  exact ⟨fun root hroot => h.declarations_root hroot, fun f log hf =>
    ⟨fun k hk => h.declarations_of_ne_root hf log hk, fun w' hw => h.declaredOn_of_writeField hf hw⟩⟩

/-- A root with attributes on both sides of its declaration, two prefixes that are new, one of them
declared as something else further down, and an attribute of the root. -/
theorem RegularRun.root_declarations_seeded :
    let seed := "<!--c--><r b='1' xmlns:p='u' c='2'><k xmlns:q='z'/></r>"
    let k : Content := .element ⟨.plain "k", none, [⟨⟨some "xmlns", "q"⟩, none, "z"⟩]⟩
    let r : Content := .element ⟨.plain "r", none,
      [⟨.plain "b", none, "1"⟩, ⟨⟨some "xmlns", "p"⟩, none, "u"⟩, ⟨.plain "c", none, "2"⟩]⟩
    let m : Markup := ⟨.absent, .cons (.comment "c") .nil (.cons r (.leaf k) .nil)⟩
    let w₀ : FieldWriter := ⟨10, .ofMarkup m, ⟨[("t", "v"), ("q", "w"), ("p", "u")]⟩⟩
    let f₀ : Field := ⟨"/r/q:x/p:y/t:z/q:x", none, none, false⟩
    let f : Field := ⟨"/r/@t:c", some (.string "3"), none, false⟩
    let w := (w₀.writeField f₀ []).2.1
    let w' := (w.writeField f []).2.1
    FieldWriter.new 10 ⟨[("t", "v"), ("q", "w")]⟩ (some seed) = .ok w₀ ∧ f₀.Regular ∧ f.Regular ∧
      w.RegularRun ∧ w.writeField f [] = (.ok (), w', []) ∧
      w'.toXml = "<!--c--><r b=\"1\" xmlns:p=\"u\" xmlns:q=\"w\" xmlns:t=\"v\" c=\"2\" t:c=\"3\">" ++
        "<k xmlns:q=\"z\"/><q:x><p:y><t:z><q:x/></t:z></p:y></q:x></r>" ∧
      (∀ root, w.document.rootElement? = some root →
        ((Attribute.declarations (w.document.attributes root)).map Prod.fst).Nodup ∧
          ∀ d ∈ Attribute.declarations (w.document.attributes root),
            w.namespaces.uri? d.1 = some d.2) ∧
      (∀ k, w'.document.rootElement? ≠ some k →
        Attribute.declarations (w'.document.attributes k) =
          Attribute.declarations (w.document.attributes k)) ∧
      ∃ p root, Path.parse f.path = .ok p ∧ w'.document.rootElement? = some root ∧
        p.DeclaredOn w.namespaces (w.document.attributes root) (w'.document.attributes root) := by
  intro seed k r m w₀ f₀ f w w'
  have hnew : FieldWriter.new 10 ⟨[("t", "v"), ("q", "w")]⟩ (some seed) = .ok w₀ := by decide +kernel
  have hf₀ : f₀.Regular := .of_parse (p := ⟨[⟨.plain "r", none⟩, ⟨⟨some "q", "x"⟩, none⟩,
    ⟨⟨some "p", "y"⟩, none⟩, ⟨⟨some "t", "z"⟩, none⟩, ⟨⟨some "q", "x"⟩, none⟩], none⟩)
    (by decide) nofun
  have hf : f.Regular := .of_parse (p := ⟨[⟨.plain "r", none⟩], some ⟨some "t", "c"⟩⟩) (by decide)
    fun q hq => Option.some.inj hq ▸ by decide
  have hrun : w.RegularRun := .write (.new hnew) hf₀ []
  have hw : w.writeField f [] = (.ok (), w', []) := by decide +kernel
  obtain ⟨hroot, hwrites⟩ := hrun.root_declarations
  exact ⟨hnew, hf₀, hf, hrun, hw, by decide +kernel, hroot, (hwrites f [] hf).1,
    (hwrites f [] hf).2 w' hw⟩

end FieldWriter

end MarkupFields
