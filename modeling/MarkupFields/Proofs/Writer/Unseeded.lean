import MarkupFields.Field.Reader
import MarkupFields.Proofs.Markup.Capacity
import MarkupFields.Proofs.Text.Bytes
import MarkupFields.Proofs.Writer.Nested

/-
  What a reader makes of the text of a writer that started without a seed. A write declares prefixes
  on the root only (`declaredBelow_writeField`), so below the root of such a document nothing is
  declared, every prefix means what it is bound to, and the text is well-formed
  (`Unseeded.lawful`). The writer has no limit on nesting, on names or on references: its text is
  loaded exactly if the document keeps within the limits of the reader (`load_toXml_iff`).
-/

namespace MarkupFields

open Text Scan

/-! ## Declarations below the root -/

section
variable {own : String × String → Prop}

/-- What a forest declares, its trees declare. -/
theorem Forest.declaresOnly_iff_trees {f : Forest Node} :
    f.DeclaresOnly own ↔ ∀ t ∈ f.trees,
      (∀ d ∈ Attribute.declarations t.1.content.attributes, own d) ∧ t.2.DeclaresOnly own := by
  constructor
  · intro h t ht
    exact ⟨h t.1 (mem_preorder.2 ⟨t, ht, .inl rfl⟩),
      fun m hm => h m (mem_preorder.2 ⟨t, ht, .inr hm⟩)⟩
  · intro h m hm
    obtain ⟨t, ht, rfl | hm⟩ := mem_preorder.1 hm
    · exact (h t ht).1
    · exact (h t ht).2 m hm

theorem Payload.Filled.declaresOnly {payload : Payload} {t t' : NodeTree} {next next' : Nat}
    (h : payload.Filled t next t' next') (ht : t.2.DeclaresOnly own) : t'.2.DeclaresOnly own := by
  cases h with
  | emptied trees =>
    rw [Forest.declaresOnly_iff_trees] at ht ⊢
    rw [trees]
    exact fun u hu => ht u (List.mem_filter.1 hu).1
  | text nonempty trees =>
    rw [Forest.declaresOnly_iff_trees] at ht ⊢
    rw [trees]
    intro u hu
    rw [List.mem_append, List.mem_singleton] at hu
    rcases hu with hu | rfl
    · exact ht u (List.mem_filter.1 hu).1
    · exact ⟨fun d hd => absurd hd List.not_mem_nil, fun m hm => absurd hm List.not_mem_nil⟩
  | attr => exact ht

/-- Writing into a tree declares nothing new below its root. -/
theorem WrittenBelow.declaresOnly {payload : Payload} (hp : payload.Regular) {places : List Place}
    {t t' : NodeTree} {next next' : Nat} (h : WrittenBelow payload places t next t' next')
    (ht : t.2.DeclaresOnly own) : t'.2.DeclaresOnly own := by
  induction h with
  | here filled => exact filled.declaresOnly ht
  | @step p places n old new before after t t' next count next' _ split written trees ih =>
    have hall : ∀ u ∈ before ++ t :: after,
        (∀ d ∈ Attribute.declarations u.1.content.attributes, own d) ∧ u.2.DeclaresOnly own := by
      intro u hu
      rw [← split.split, List.mem_append] at hu
      rcases hu with hu | hu
      · exact Forest.declaresOnly_iff_trees.1 ht u hu
      · obtain ⟨i, -, rfl⟩ := List.mem_map.1 hu
        exact ⟨fun d hd => absurd hd List.not_mem_nil, fun m hm => absurd hm List.not_mem_nil⟩
    obtain ⟨hown, hbelow⟩ := hall t (List.mem_append_right _ List.mem_cons_self)
    refine Forest.declaresOnly_iff_trees.2 fun u hu => ?_
    rw [trees, List.mem_append, List.mem_cons] at hu
    rcases hu with hu | rfl | hu
    · exact hall u (List.mem_append_left _ hu)
    · exact ⟨written.declarations hp ▸ hown, ih hbelow⟩
    · exact hall u (List.mem_append_right _ (List.mem_cons_of_mem _ hu))

theorem WrittenRoot.declaresOnly {plan : WritePlan} (hp : plan.payload.Regular) {r r' : NodeTree}
    {next next' : Nat} (h : WrittenRoot plan r next r' next') (hr : r.2.DeclaresOnly own) :
    r'.2.DeclaresOnly own := by
  obtain ⟨k, e, e', -, -, hwritten⟩ := h
  exact hwritten.declaresOnly hp hr

/-- Carrying out a plan declares nothing new below the top level. -/
theorem WrittenTop.declaresOnly {plan : WritePlan} (hp : plan.payload.Regular)
    {top top' : Forest Node} {next next' : Nat} (h : WrittenTop plan top next top' next')
    (ht : ∀ t ∈ top.trees, t.2.DeclaresOnly own) : ∀ t ∈ top'.trees, t.2.DeclaresOnly own := by
  intro u hu
  cases h with
  | present before r r' after split _ written trees =>
    rw [split] at ht
    rw [trees, List.mem_append, List.mem_cons] at hu
    rcases hu with hu | rfl | hu
    · exact ht u (List.mem_append_left _ hu)
    · exact written.declaresOnly hp (ht r (List.mem_append_right _ List.mem_cons_self))
    · exact ht u (List.mem_append_right _ (List.mem_cons_of_mem _ hu))
  | absent r' _ written trees =>
    rw [trees, List.mem_append, List.mem_singleton] at hu
    rcases hu with hu | rfl
    · exact ht u hu
    · exact written.declaresOnly hp fun m hm => absurd hm List.not_mem_nil

/-- What a document declares below the top level, nodes there declare. -/
theorem declaredBelow_of_isTree {d : Document} {top : Forest Node} (h : d.IsTree top)
    (ht : ∀ t ∈ top.trees, t.2.DeclaresOnly own) : ∀ b ∈ d.markup.declaredBelow, own b := by
  intro b hb
  rw [FieldWriter.markup_of_isTree h] at hb
  unfold Markup.declaredBelow Namespaces.declarationsIn at hb
  rw [Forest.trees_map, List.mem_flatMap] at hb
  obtain ⟨u, hu, hb⟩ := hb
  obtain ⟨t, htop, rfl⟩ := List.mem_map.1 hu
  obtain ⟨c, hc, hb⟩ := List.mem_flatMap.1 hb
  rw [Forest.preorder_map, List.mem_map] at hc
  obtain ⟨m, hm, rfl⟩ := hc
  exact ht t htop m hm b hb

end

namespace FieldWriter

/-- Below the root a write declares nothing new, unless its path ends in the default declaration. -/
theorem declaredBelow_writeField {w : FieldWriter} (hn : w.namespaces.Bindable)
    {top : Forest Node} (htree : w.document.IsTree top) {f : Field}
    (hplain : ∀ p, Path.parse f.path = .ok p → p.attr ≠ some (.plain "xmlns")) (log : List Audit) :
    ∀ d ∈ (w.writeField f log).2.1.document.markup.declaredBelow,
      d ∈ w.document.markup.declaredBelow := by
  rcases w.writeField_cases f log with ⟨e, he⟩ | ⟨p, -, -, he⟩ | ⟨p, text, plan, hp, -, hplan, he⟩
  · rw [he]
    exact fun d hd => hd
  · rw [he]
    exact fun d hd => hd
  · rw [he]
    have hparse := (pathOf_eq_ok hp).1
    have hpositions := one_le_position_of_planFor (Path.parsed_of_parse hparse) hplan
    obtain ⟨top₀, top', htree₀, htree', -, hwritten⟩ :=
      written_write (fun q hq => hpositions q (List.mem_cons_of_mem _ hq)) htree
    have hregular := regular_of_planFor hn (hplain p hparse) hplan
    exact declaredBelow_of_isTree htree'
      (hwritten.declaresOnly hregular (declaresOnly_of_isTree htree₀))

/-! ## Writers without a seed -/

/-- The states of a writer of the bindings that starts without a seed and is asked to write fields
whose paths do not end in the default declaration, whatever comes of the requests. -/
inductive Unseeded (n : Namespaces) : FieldWriter → Prop
  | new {maxIndex : Nat} {w : FieldWriter} (made : FieldWriter.new maxIndex n none = .ok w) :
      Unseeded n w
  | write {w : FieldWriter} (before : Unseeded n w) {f : Field}
      (plain : ∀ p, Path.parse f.path = .ok p → p.attr ≠ some (.plain "xmlns"))
      (log : List Audit) : Unseeded n (w.writeField f log).2.1

variable {n : Namespaces} {w : FieldWriter}

/-- The document is lawful at every point, and only its root declares prefixes. -/
theorem Unseeded.lawful (hn : ∀ b ∈ n.bindings, OrdinaryBinding b) (h : w.Unseeded n) :
    w.Lawful False ∧ w.document.markup.declaredBelow = [] := by
  induction h with
  | new made =>
    refine ⟨lawful_of_new hn made, ?_⟩
    rw [← Except.ok.inj made]
    rfl
  | @write w _ f plain log ih =>
    obtain ⟨hlawful, hnothing⟩ := ih
    obtain ⟨top, htree, -⟩ := hlawful.top
    constructor
    · refine hlawful.writeField (fun p hp => ⟨⟨plain p hp, fun q _ x _ d hd => ?_⟩, False.elim⟩) log
      rw [hnothing] at hd
      exact absurd hd List.not_mem_nil
    · have hsame := declaredBelow_writeField hlawful.bindable htree plain log
      rw [hnothing] at hsame
      exact List.eq_nil_iff_forall_not_mem.2 fun d hd => absurd (hsame d hd) List.not_mem_nil

end FieldWriter

/-! ## Loading what was written -/

namespace Forest

theorem height_asWritten (f : Forest Content) : (f.map Content.asWritten).height = f.height := by
  induction f with
  | nil => rfl
  | cons c below beside ihb ihs =>
    have helement : c.asWritten.isElement = c.isElement := by
      cases c <;> rfl
    rw [map, height, height, helement, ihb, ihs]

theorem references_asWritten (f : Forest Content) :
    (f.map Content.asWritten).references = f.references := by
  induction f with
  | nil => rfl
  | cons c below beside ihb ihs =>
    have hreferences : c.asWritten.references = c.references := by
      cases c with
      | element e => exact congrArg List.sum (List.map_map ..)
      | _ => rfl
    rw [map, references_cons, references_cons, hreferences, ihb, ihs]

end Forest

theorem Content.namesWithin_asWritten {limit : Nat} (c : Content) :
    c.asWritten.NamesWithin limit ↔ c.NamesWithin limit := by
  cases c with
  | element e => exact and_congr Iff.rfl List.forall_mem_map
  | _ => exact Iff.rfl

/-- What is the same but for the namespaces of elements takes the same of the limits. -/
theorem Markup.within_congr {o : ReadOptions} {m m' : Markup}
    (h : m.top.map Content.asWritten = m'.top.map Content.asWritten) :
    m.Within o ↔ m'.Within o := by
  have hnames : ∀ m : Markup, (∀ c ∈ m.top.preorder, c.NamesWithin o.maxNameLength) ↔
      ∀ c ∈ (m.top.map Content.asWritten).preorder, c.NamesWithin o.maxNameLength := by
    intro m
    rw [Forest.preorder_map, List.forall_mem_map]
    exact forall₂_congr fun c _ => (Content.namesWithin_asWritten c).symm
  have hwithin : ∀ m : Markup, m.Within o ↔ (m.top.map Content.asWritten).height ≤ o.maxDepth ∧
      (∀ c ∈ (m.top.map Content.asWritten).preorder, c.NamesWithin o.maxNameLength) ∧
      (m.top.map Content.asWritten).references ≤ o.maxReferences := by
    intro m
    rw [Forest.height_asWritten, Forest.references_asWritten, ← hnames]
    exact ⟨fun h => ⟨h.depth, h.names, h.references⟩, fun h => ⟨h.1, h.2.1, h.2.2⟩⟩
  rw [hwithin, hwithin, h]

namespace FieldReader

/-- A text that is not blank is loaded exactly if it can be read. -/
theorem load_eq_ok_iff {r : FieldReader} {text : String} {aware : Bool}
    (h : allBlank text.toList = false) :
    (r.load text aware).2 = .ok () ↔
      ∃ m, Markup.parse { r.options with namespaceAware := aware } text = .ok m := by
  unfold load
  rw [h, if_neg Bool.false_ne_true]
  cases Markup.parse { r.options with namespaceAware := aware } text with
  | error e => exact ⟨fun h => (nomatch h), fun ⟨m, hm⟩ => (nomatch hm)⟩
  | ok m => exact ⟨fun _ => ⟨m, rfl⟩, fun _ => rfl⟩

/-- What a lawful writer has written is loaded with namespaces exactly if it keeps within the limits
of the reader. -/
theorem load_of_lawful {exact : Prop} {w : FieldWriter} (hw : w.Lawful exact) {r : FieldReader}
    (hb : r.options.dropBlanks = false) (hname : 4 ≤ r.options.maxNameLength) :
    (r.load w.toXml true).2 = .ok () ↔ w.document.markup.Within r.options := by
  rcases hw.legal with hempty | ⟨m, hm, hsame, -⟩
  · rw [FieldWriter.toXml_of_empty hempty]
    refine ⟨fun _ => ⟨?_, ?_, ?_⟩, fun _ => rfl⟩
    all_goals rw [hempty]
    · exact Nat.zero_le _
    · exact fun c hc => absurd hc List.not_mem_nil
    · exact Nat.zero_le _
  · rw [← FieldWriter.render_eq_toXml hsame, load_eq_ok_iff hm.not_allBlank,
      Markup.parse_render_iff (o := { r.options with namespaceAware := true }) rfl hb hname hm]
    exact ⟨fun h => (Markup.within_congr hsame).1 ⟨h.depth, h.names, h.references⟩,
      fun h => have h := (Markup.within_congr hsame).2 h; ⟨h.depth, h.names, h.references⟩⟩

/-- What a writer without a seed has written, whatever it was asked to write, is loaded with
namespaces exactly if it keeps within the limits of the reader. -/
theorem load_toXml_iff {n : Namespaces} (hn : ∀ b ∈ n.bindings, OrdinaryBinding b)
    {w : FieldWriter} (hw : w.Unseeded n) {r : FieldReader} (hb : r.options.dropBlanks = false)
    (hname : 4 ≤ r.options.maxNameLength) :
    (r.load w.toXml true).2 = .ok () ↔ w.document.markup.Within r.options :=
  load_of_lawful (hw.lawful hn).1 hb hname

/-- Three characters that are escaped, and a reader that allows two references. -/
theorem load_toXml_iff_escaped :
    let n : Namespaces := ⟨[("x", "u")]⟩
    let w := ((FieldWriter.blank 10 n).writeField
      ⟨"/x:a/b/@c", some (.string "<&\n"), none, false⟩ []).2.1
    (∀ b ∈ n.bindings, OrdinaryBinding b) ∧ w.Unseeded n ∧
      w.toXml = "<x:a xmlns:x=\"u\"><b c=\"&lt;&amp;&#10;\"/></x:a>" ∧
      ((new {}).load w.toXml true).2 = .ok () ∧
      ((new { maxReferences := 2 }).load w.toXml true).2 ≠ .ok () := by
  intro n w
  have hn : ∀ b ∈ n.bindings, OrdinaryBinding b := by decide +kernel
  have hw : w.Unseeded n := by
    refine .write (.new rfl) (fun p hp => ?_) []
    have hattr : (Path.parse "/x:a/b/@c").map Path.attr = .ok (some (.plain "c")) := by decide
    rw [hp] at hattr
    rw [Except.ok.inj hattr]
    decide
  have hwithin : w.document.markup.Within {} :=
    ⟨by decide +kernel, by decide +kernel, by decide +kernel⟩
  have hbeyond : ¬ w.document.markup.top.references ≤ 2 := by decide +kernel
  refine ⟨hn, hw, by decide +kernel, ?_, fun h => hbeyond ?_⟩
  · exact (load_toXml_iff (r := new {}) hn hw rfl (by decide)).2 hwithin
  · exact ((load_toXml_iff (r := new { maxReferences := 2 }) hn hw rfl (by decide)).1 h).references

end FieldReader

/-! ## Beyond the limits -/

namespace FieldWriter

/-- A writer without a seed has written something, and a reader with its usual limits refuses it. -/
structure Unreadable (n : Namespaces) (w : FieldWriter) : Prop where
  unseeded : w.Unseeded n
  written : w.toXml ≠ ""
  refused : ((FieldReader.new {}).load w.toXml true).2 ≠ .ok ()

/-- A writer after one write: a text inside elements of the names. -/
def holding (names : List String) (text : String) : FieldWriter :=
  ((blank 10000 .empty).writeField
    ⟨(Path.nested names).render, some (.string text), none, false⟩ []).2.1

/-- What such a writer has written is refused if it does not keep within the limits. -/
theorem unreadable_holding {names : List String} (hne : names ≠ [])
    (hnames : ∀ name ∈ names, isNCName name = true) {text : String}
    (htext : ∀ c ∈ text.toList, isXmlChar c = true)
    (hbeyond : ¬ (⟨.absent, Forest.nested text names⟩ : Markup).Within {}) :
    (holding names text).Unreadable .empty := by
  have hunseeded : (holding names text).Unseeded .empty := by
    refine .write (.new rfl) (fun p hp => ?_) []
    rw [Path.parse_render (Path.expressible_nested hne hnames)] at hp
    rw [← Except.ok.inj hp]
    exact fun h => (nomatch h)
  obtain ⟨w, hw, hmarkup⟩ := writeField_nested (by decide : 1 ≤ 10000) hne hnames htext []
  have hholding : holding names text = w := congrArg (fun r => r.2.1) hw
  rw [← hmarkup, ← hholding] at hbeyond
  have hlawful := (hunseeded.lawful fun b hb => absurd hb List.not_mem_nil).1
  have hrefused : ((FieldReader.new {}).load (holding names text).toXml true).2 ≠ .ok () :=
    fun h => hbeyond ((FieldReader.load_of_lawful hlawful rfl (by decide)).1 h)
  refine ⟨hunseeded, fun hempty => hrefused ?_, hrefused⟩
  rw [hempty]
  rfl

/-- So many times the same letter. -/
theorem isNCName_replicate (k : Nat) :
    isNCName (String.ofList (List.replicate (k + 1) 'a')) = true := by
  have hfirst : ('a' != ':' && isNameStart 'a') = true := by decide
  have hrest : ((List.replicate k 'a').all fun d => d != ':' && isNameChar d) = true := by
    refine List.all_eq_true.2 fun d hd => ?_
    rw [List.eq_of_mem_replicate hd]
    decide
  unfold isNCName
  rw [String.toList_ofList, List.replicate_succ]
  exact Bool.and_eq_true_iff.2 ⟨hfirst, hrest⟩

/-- A writer goes beyond each of the limits of a reader: with a path of 257 steps, with a name of
50001 letters and with a text of 10001 characters that are escaped. And it writes a namespace as it
is bound, which may hold a character that no document can. -/
theorem unreadable_beyond_limits :
    let n : Namespaces := ⟨[("x", "\x01")]⟩
    (holding (List.replicate 257 "a") "").Unreadable .empty ∧
      (holding [String.ofList (List.replicate 50001 'a')] "").Unreadable .empty ∧
      (holding ["a"] (String.ofList (List.replicate 10001 '&'))).Unreadable .empty ∧
      ((blank 10000 n).writeField ⟨"/x:a", none, none, false⟩ []).2.1.Unreadable n := by
  intro n
  refine ⟨?_, ?_, ?_, ?_⟩
  · refine unreadable_holding (mt (List.replicate_eq_nil_iff "a").1 (by decide))
      (fun name hname => ?_) (fun c hc => absurd hc List.not_mem_nil) fun h => ?_
    · rw [List.eq_of_mem_replicate hname]
      decide
    · have hdepth := h.depth
      rw [Forest.height_nested, List.length_replicate] at hdepth
      exact absurd hdepth (by decide)
  · refine unreadable_holding (List.cons_ne_nil _ _) (fun name hname => ?_)
      (fun c hc => absurd hc List.not_mem_nil) fun h => ?_
    · rw [List.mem_singleton.1 hname]
      exact isNCName_replicate 50000
    · have hlong := (h.names _ (Forest.mem_preorder_nested _ _ List.mem_cons_self)).1
      rw [QName.plain, QName.written, String.toList_ofList] at hlong
      have hlength := length_le_utf8Length (List.replicate 50001 'a')
      rw [List.length_replicate] at hlength
      exact absurd (Nat.le_trans hlength hlong) (by decide)
  · refine unreadable_holding (List.cons_ne_nil _ _) (fun name hname => ?_)
      (fun c hc => ?_) fun h => ?_
    · rw [List.mem_singleton.1 hname]
      decide
    · rw [String.toList_ofList] at hc
      rw [List.eq_of_mem_replicate hc]
      decide
    · have hreferences := h.references
      rw [Forest.references_nested, String.toList_ofList] at hreferences
      unfold Scan.references at hreferences
      rw [List.countP_replicate, if_pos (by decide)] at hreferences
      exact absurd hreferences (by decide)
  · refine ⟨.write (.new rfl) (fun p hp => ?_) [], by decide +kernel, by decide +kernel⟩
    have hattr : (Path.parse "/x:a").map Path.attr = .ok none := by decide
    rw [hp] at hattr
    rw [Except.ok.inj hattr]
    decide

end FieldWriter

end MarkupFields
