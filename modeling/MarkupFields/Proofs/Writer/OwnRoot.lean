import MarkupFields.Proofs.Bindings
import MarkupFields.Proofs.Field.Agreement
import MarkupFields.Proofs.Path.Rendered
import MarkupFields.Proofs.Writer.Overwritten

/-
  Seeds written to at the name of their own root. A writer without bindings of its own starts from every
  text that can be read: what the root declares is never in conflict, as no prefix is declared twice
  (`Namespaces.exists_declareAll`). Afterwards a prefix stands for the same in the writer as inside the
  start tag of the root (`Namespaces.lookup_inside`), so the name of the root, as it is written, leads to
  the root. One declaration is the exception: what takes the default namespace back is kept as a binding
  to an empty namespace, and a root without a prefix that has this declaration is refused under its own
  name (`FieldWriter.writeField_own_root`).

  Nothing is said of longer paths, which depend on what elements below the root declare.
-/

namespace MarkupFields

open Text Scan

/-! ## Bindings of a start tag -/

namespace Namespaces

/-- Other prefixes do not change when one is bound. -/
theorem uri?_of_declare {n n' : Namespaces} {p uri q : String} (h : n.declare p uri = .ok n')
    (hq : q ≠ p) : n'.uri? q = n.uri? q := by
  refine Option.ext fun u => ?_
  rw [uri?_eq_some_iff_of_declare h]
  exact or_iff_right fun hsame => hq hsame.1

/-- Prefixes that differ can all be bound, if none of them stands for something else. -/
theorem exists_declareAll {n : Namespaces} {ds : List (String × String)}
    (hnodup : (ds.map Prod.fst).Nodup)
    (hfree : ∀ d ∈ ds, n.uri? d.1 = none ∨ n.uri? d.1 = some d.2) :
    ∃ n', n.declareAll ds = .ok n' := by
  induction ds generalizing n with
  | nil => exact ⟨n, rfl⟩
  | cons d ds ih =>
    rw [List.map_cons, List.nodup_cons] at hnodup
    obtain ⟨hd, hds⟩ := List.forall_mem_cons.1 hfree
    obtain ⟨n₁, hn₁⟩ : ∃ n₁, n.declare d.1 d.2 = .ok n₁ := by
      unfold declare
      rcases hd with hd | hd
      · rw [hd]
        exact ⟨_, rfl⟩
      · rw [hd]
        exact ⟨n, if_pos rfl⟩
    obtain ⟨n', hn'⟩ := ih hnodup.2 (n := n₁) fun b hb => by
      have hne : b.1 ≠ d.1 := fun he => hnodup.1 (he ▸ List.mem_map_of_mem hb)
      rw [uri?_of_declare hn₁ hne]
      exact hds b hb
    refine ⟨n', ?_⟩
    rw [declareAll, hn₁, ok_bind]
    exact hn'

/-- Where nothing was bound, the declarations of an element that was read can be. -/
theorem exists_declareAll_of_opens {e : Element} {uri : Option String}
    (h : e.Opens Scope.outermost uri) :
    ∃ n, Namespaces.empty.declareAll (Attribute.declarations e.attributes) = .ok n := by
  refine exists_declareAll ?_ fun d hd => ?_
  · rw [Attribute.prefixes_declarations]
    exact h.attributes.prefixes
  · by_cases hxml : d.1 = "xml"
    · right
      rcases (h.declarable d hd).cases with hempty | ⟨-, -, -, hmeaning⟩
      · exact absurd (hxml.symm.trans hempty) (by decide)
      · rw [hxml, hmeaning hxml]
        rfl
    · left
      unfold uri?
      rw [if_neg hxml]
      rfl

variable {n : Namespaces} {as : List Attribute}

/-- Whatever is bound was declared. -/
theorem mem_of_gives (h : Namespaces.empty.declareAll (Attribute.declarations as) = .ok n)
    {d : String × String} (hd : n.Gives d) : d ∈ Attribute.declarations as :=
  ((declareAll_eq_ok h).2.2 d hd.mem).resolve_left List.not_mem_nil

/-- In the scope inside the root a prefix is what it is bound to, declared or not. -/
theorem lookup_inside (h : Namespaces.empty.declareAll (Attribute.declarations as) = .ok n)
    (p : String) : (Scope.outermost.inside as).lookup p = n.uri? p := by
  have hknows : n.Knows as := (declareAll_eq_ok h).1
  rw [hknows.lookup]
  split
  · rfl
  · rename_i hp
    rw [not_or] at hp
    rw [eq_comm, Option.eq_none_iff_forall_ne_some]
    intro u hu
    have hmem := mem_of_gives h (d := (p, u)) ⟨hu, hp.2⟩
    refine hp.1 ?_
    rw [← Attribute.prefixes_declarations]
    exact List.mem_map_of_mem hmem

end Namespaces

/-! ## Starting from a seed -/

namespace FieldWriter

/-- A writer without bindings of its own starts from every text that can be read. -/
theorem exists_new_of_seed (maxIndex : Nat) {seed : String} (hblank : allBlank seed.toList = false)
    {m : Markup} (hread : Markup.parse {} seed = .ok m) :
    ∃ w, FieldWriter.new maxIndex .empty (some seed) = .ok w := by
  obtain ⟨before, k, e, below, after, -, hlawful, hroot⟩ :=
    (Markup.legal_of_read hread).root True (Document.map_content_number (Document.root + 1) m.top)
  obtain ⟨n, hn⟩ : ∃ n, Namespaces.empty.declareAll (Attribute.declarations e.attributes) = .ok n := by
    cases hlawful with
    | intro opens => exact Namespaces.exists_declareAll_of_opens opens
  refine ⟨⟨maxIndex, .ofMarkup m, n⟩, ?_⟩
  unfold FieldWriter.new
  simp only [hblank, Bool.false_eq_true, if_false, hread, hroot, List.head?_cons]
  rw [show Content.attributes (.element e) = e.attributes from rfl, hn]

/-- The limit of a new writer is the one it was given. -/
theorem maxIndex_of_new {maxIndex : Nat} {n : Namespaces} {seed : Option String} {w : FieldWriter}
    (h : FieldWriter.new maxIndex n seed = .ok w) : w.maxIndex = maxIndex := by
  unfold FieldWriter.new at h
  split at h
  · rw [← Except.ok.inj h]
    rfl
  · split at h
    · rw [← Except.ok.inj h]
      rfl
    · split at h
      · cases h
      · dsimp only at h
        split at h
        · cases h
        · rw [← Except.ok.inj h]

end FieldWriter

/-! ## The name of the root -/

/-- An element without a prefix that takes the default namespace back in its own start tag. -/
def Element.UndeclaresDefault (e : Element) : Prop :=
  e.name.nsPrefix = none ∧ Attribute.defaultDeclared? e.attributes = some ""

instance (e : Element) : Decidable e.UndeclaresDefault :=
  inferInstanceAs (Decidable (_ ∧ _))

namespace FieldWriter

variable {w : FieldWriter} {e : Element}

/-- The name of the root is resolved to the namespace that the root is in, unless the root takes the
default namespace back: then to an empty namespace, which no element is in. -/
theorem resolve_own_name (hopens : e.Opens Scope.outermost e.namespaceUri)
    (hdeclared : Namespaces.empty.declareAll (Attribute.declarations e.attributes) =
      .ok w.namespaces) :
    w.resolve w.namespaces.default? e.name =
        .ok (if e.UndeclaresDefault then some "" else e.namespaceUri) ∧
      e.namespaceUri ≠ some "" := by
  refine ⟨?_, Scope.elementNamespace_ne_empty hopens.named⟩
  have hlookup := Namespaces.lookup_inside hdeclared
  have hdefault := Namespaces.default?_of_declareAll hdeclared
  rw [resolve_eq_ok]
  rcases Scope.elementNamespace_eq_ok.1 hopens.named with ⟨hp, huri⟩ | ⟨x, u, hx, hu, huri⟩
  · left
    refine ⟨hp, ?_⟩
    unfold Scope.resolve? at huri
    rw [hlookup, show w.namespaces.uri? "" = w.namespaces.default? from rfl] at huri
    split
    · rename_i hback
      rw [hdefault, hback.2]
    · rename_i hkept
      rw [huri]
      cases hd : w.namespaces.default? with
      | none => rfl
      | some u =>
        refine if_pos (bne_iff_ne.2 ?_)
        rintro rfl
        exact hkept ⟨hp, hdefault.symm.trans hd⟩
  · right
    have hregular : ¬ e.UndeclaresDefault := by
      rintro ⟨hp, -⟩
      rw [hx] at hp
      cases hp
    refine ⟨x, u, hx, ?_, ?_⟩
    · rw [← hlookup]
      exact (Option.filter_eq_some_iff.1 hu).1
    · rw [if_neg hregular, huri]

/-- The root is refused where the first element does not stand at its place. -/
theorem checkRoot_of_not_accepts {root : Place} {top : Forest Node} {before after : List NodeTree}
    {r : NodeTree} (htree : w.document.IsTree top) (hposition : root.position ≤ 1)
    (hat : Forest.At (fun n : Node => n.content.isElement) 1 top.trees before r after)
    (he : r.1.content = .element e) (hr : root.accepts r.1 = false) :
    w.checkRoot root = .error (.rootMismatch root.name.shown e.name.shown) := by
  unfold Place.accepts at hr
  rw [he] at hr
  unfold checkRoot
  rw [if_neg (by omega), htree.below_root, findSome?_element_of_at hat he]
  simp only [hr, Bool.false_eq_true, if_false]

/-- The path that is the name of an element. -/
def ownPath (e : Element) : Path :=
  ⟨[⟨e.name, none⟩], none⟩

/-- The plan that puts a text into the element itself. -/
def ownPlan (e : Element) (v : String) : WritePlan :=
  let root : Place := ⟨e.name, e.namespaceUri, 1⟩
  ⟨root, [], neededFor [root] (.text v), .text v⟩

theorem parse_ownPath (he : e.name.isQualified = true) :
    Path.parse ("/" ++ e.name.written) = .ok (ownPath e) := by
  have hrender : (ownPath e).render = "/" ++ e.name.written := by
    show String.join ["/" ++ e.name.written] = _
    rw [String.join_cons]
    exact String.append_empty
  rw [← hrender]
  refine Path.parse_render ⟨List.cons_ne_nil _ _, fun s hs => ?_, nofun⟩
  rw [List.mem_singleton.1 hs]
  exact ⟨he, nofun⟩

/-- The text of a field that holds a string of characters that XML allows is the string. -/
theorem textOf?_string {f : Field} {v : String} (hv : f.value = some (.string v))
    (htype : f.effectiveType = .string) (hchars : ∀ c ∈ v.toList, isXmlChar c = true) :
    textOf? f = some v := by
  unfold Field.effectiveType at htype
  unfold textOf?
  rw [hv]
  dsimp only
  refine Option.filter_eq_some_iff.2 ⟨?_, List.all_eq_true.2 hchars⟩
  cases hd : f.declared with
  | none => rfl
  | some t =>
    rw [hd, Option.getD_some] at htype
    rw [htype]
    rfl

/-! ## Writing to the root -/

section
variable {top below : Forest Node} {before after : List NodeTree} {k : Nat} {v : String}
  (htree : w.document.IsTree top) (hamong : top.RootAmong before (⟨k, .element e⟩, below) after)
  (hopens : e.Opens Scope.outermost e.namespaceUri)
  (hdeclared : Namespaces.empty.declareAll (Attribute.declarations e.attributes) = .ok w.namespaces)
include htree hamong hopens hdeclared

/-- There is a plan for a text at the name of the root, unless the root takes the default namespace
back. -/
theorem planFor_ownPath :
    w.planFor (ownPath e) v =
      if e.UndeclaresDefault then .error (.rootMismatch e.name.shown e.name.shown)
      else .ok (ownPlan e v) := by
  obtain ⟨hresolve, hne⟩ := resolve_own_name hopens hdeclared
  have hat := hamong.at rfl
  have hsteps : w.resolveSteps (ownPath e).steps =
      .ok [⟨e.name, if e.UndeclaresDefault then some "" else e.namespaceUri, 1⟩] := by
    show w.resolveSteps [⟨e.name, none⟩] = _
    rw [resolveSteps, hresolve]
    rfl
  unfold planFor
  rw [hsteps, ok_bind, show w.payloadOf v (ownPath e).attr = .ok (.text v) from rfl, ok_bind]
  dsimp only
  split
  · have hr : Place.accepts ⟨e.name, some "", 1⟩ ⟨k, .element e⟩ = false := by
      rw [Bool.eq_false_iff]
      intro haccepts
      obtain ⟨d, hd, -, huri⟩ := Place.accepts_iff.1 haccepts
      rw [← Content.element.inj hd] at huri
      exact hne huri
    rw [checkRoot_of_not_accepts htree (Nat.le_refl 1) hat rfl hr]
    rfl
  · have hr : Place.accepts ⟨e.name, e.namespaceUri, 1⟩ ⟨k, .element e⟩ = true :=
      Place.accepts_iff.2 ⟨e, rfl, rfl, rfl⟩
    rw [checkRoot_of_at htree (Nat.le_refl 1) hat hr]
    rfl

end

end FieldWriter

/-- What stands below a node, with the given text in the place of its character data. -/
def Forest.withText (below : Forest Node) (h : Nat) (v : String) : Forest Node :=
  below.filterRoots (fun n => !n.content.isCharacterData) ++
    if v = "" then .nil else .leaf ⟨h, .text v⟩

theorem Payload.put_text (v : String) (n : Node) (below : Forest Node) (next : Nat) :
    ((Payload.text v).put (n, below) next).1 = (n, below.withText next v) := by
  unfold Payload.put Forest.withText
  dsimp only
  split
  · rw [Forest.append_nil]
  · rfl

/-- A plan is carried out on the root and leaves what stands beside it. -/
theorem Forest.RootAmong.writeTop {top : Forest Node} {before after : List NodeTree} {r : NodeTree}
    (h : top.RootAmong before r after) (hr : r.1.content.isElement = true) (plan : WritePlan)
    (next : Nat) :
    (plan.writeTop top next).1.RootAmong before (plan.writeRoot r next).1 after := by
  rw [plan.writeTop_of_at next (h.at hr)]
  exact ⟨Forest.trees_ofTrees _, h.before, h.after⟩

/-- A text that is written to a root where all prefixes are declared changes only what stands below. -/
theorem WritePlan.writeRoot_text {plan : WritePlan} {v : String} (hplaces : plan.places = [])
    (hpayload : plan.payload = .text v) {n : Node}
    (hknown : ∀ d ∈ plan.declarations,
      d.1 ∈ (Attribute.declarations n.content.attributes).map Prod.fst)
    (below : Forest Node) (next : Nat) :
    (plan.writeRoot (n, below) next).1 = (n, below.withText next v) := by
  unfold writeRoot
  rw [declareOn_eq_self hknown, hplaces, hpayload]
  exact Payload.put_text v n below next

/-- A writer without bindings of its own starts from every text that can be read and is not blank, and
holds what is read. Then a string of characters that XML allows can be written at the name of the root as
it is written there: no element is added, and the root, which stays as it is, holds the string in the
place of its own character data. The exception is a root without a prefix that takes the default
namespace back: its name is refused. -/
theorem FieldWriter.writeField_own_root {maxIndex : Nat} (hmax : 1 ≤ maxIndex) {seed : String}
    (hblank : allBlank seed.toList = false) {m : Markup} (hread : Markup.parse {} seed = .ok m) :
    ∃ w top before k e below after, FieldWriter.new maxIndex .empty (some seed) = .ok w ∧
      w.document = .ofMarkup m ∧ w.document.IsTree top ∧
      top.RootAmong before (⟨k, .element e⟩, below) after ∧
      ∀ (f : Field) (v : String) (log : List Audit), f.path = "/" ++ e.name.written →
        f.value = some (.string v) → f.effectiveType = .string →
        (∀ c ∈ v.toList, isXmlChar c = true) →
        if e.UndeclaresDefault then
          w.writeField f log = (.error (.rootMismatch e.name.shown e.name.shown), w, log)
        else
          ∃ d top', w.writeField f log = (.ok (), { w with document := d }, log) ∧ d.IsTree top' ∧
            top'.RootAmong before (⟨k, .element e⟩, below.withText w.document.allocated v) after := by
  obtain ⟨w, hnew⟩ := exists_new_of_seed maxIndex hblank hread
  obtain ⟨m', top, before, k, e, below, after, hm', hdocument, htree, hamong, hlawful, hdeclared⟩ :=
    new_eq_ok_of_seed True hblank hnew
  obtain rfl : m = m' := Except.ok.inj (hread.symm.trans hm')
  have hopens : e.Opens Scope.outermost e.namespaceUri := by
    cases hlawful with
    | intro opens named => exact named trivial ▸ opens
  refine ⟨w, top, before, k, e, below, after, hnew, hdocument, htree, hamong, ?_⟩
  intro f v log hpath hvalue htype hchars
  have hp : w.pathOf f = .ok (ownPath e) := by
    refine pathOf_of_parse ?_ (List.cons_ne_nil _ _) (fun s hs => ?_) (.inl rfl)
    · rw [hpath]
      exact parse_ownPath hopens.qualified
    · rw [List.mem_singleton.1 hs, maxIndex_of_new hnew]
      exact hmax
  have htext := textOf?_string hvalue htype hchars
  have hplan := planFor_ownPath htree hamong hopens hdeclared (v := v)
  split
  · rename_i hback
    rw [if_pos hback] at hplan
    unfold writeField
    rw [hp]
    dsimp only
    rw [htext]
    dsimp only
    rw [hplan]
  · rename_i hkept
    rw [if_neg hkept] at hplan
    have hplans : w.Plans f (ownPath e) v (ownPlan e v) := ⟨hp, htext, hplan⟩
    refine ⟨_, _, hplans.writeField log, isTree_write (ownPlan e v) htree, ?_⟩
    have hwritten := hamong.writeTop rfl (ownPlan e v) w.document.allocated
    have hknown : ∀ d ∈ (ownPlan e v).declarations,
        d.1 ∈ (Attribute.declarations e.attributes).map Prod.fst := fun d hd =>
      List.mem_map_of_mem (Namespaces.mem_of_gives hdeclared (gives_of_planFor hplan d hd))
    rwa [WritePlan.writeRoot_text (n := ⟨k, .element e⟩) rfl rfl hknown] at hwritten

/-- A prefixed root that takes the default namespace back, behind a comment: it is written to. -/
theorem FieldWriter.writeField_own_root_prefixed :
    let seed := "<!--c--><x:a xmlns:x='u' xmlns=''>p<b/>q</x:a>"
    let e : Element := ⟨⟨some "x", "a"⟩, some "u",
      [⟨⟨some "xmlns", "x"⟩, none, "u"⟩, ⟨.plain "xmlns", none, ""⟩]⟩
    let b : Content := .element ⟨.plain "b", none, []⟩
    let m : Markup := ⟨.absent, .cons (.comment "c") .nil (.cons (.element e)
      (.cons (.text "p") .nil (.cons b .nil (.leaf (.text "q")))) .nil)⟩
    let f : Field := ⟨"/x:a", some (.string "v"), none, false⟩
    (1 ≤ 10 ∧ allBlank seed.toList = false ∧ Markup.parse {} seed = .ok m) ∧
      ∃ w d top before after, FieldWriter.new 10 .empty (some seed) = .ok w ∧
        w.writeField f [] = (.ok (), { w with document := d }, []) ∧ d.IsTree top ∧
        top.RootAmong before (⟨2, .element e⟩, .cons ⟨4, b⟩ .nil (.leaf ⟨6, .text "v"⟩)) after := by
  intro seed e b m f
  have hblank : allBlank seed.toList = false := by decide
  have hread : Markup.parse {} seed = .ok m := by decide +kernel
  refine ⟨⟨by decide, hblank, hread⟩, ?_⟩
  obtain ⟨w, top, before, k, e', below, after, hnew, hdocument, htree, hamong, hwrite⟩ :=
    FieldWriter.writeField_own_root (show 1 ≤ 10 by decide) hblank hread
  -- the root is the element that the seed begins with
  rw [hdocument] at htree
  obtain ⟨-, rfl, -⟩ := Forest.cons.inj htree
  obtain ⟨hnode, rfl⟩ := Prod.mk.inj (hamong.eq_of_isElement
    (t := (⟨2, .element e⟩, .cons ⟨3, .text "p"⟩ .nil (.cons ⟨4, b⟩ .nil (.leaf ⟨5, .text "q"⟩))))
    (.tail _ (.head _)) rfl)
  obtain ⟨rfl, he⟩ := Node.mk.inj hnode
  obtain rfl := Content.element.inj he
  obtain ⟨d, top', hwritten, htree', hamong'⟩ :=
    hwrite f "v" [] rfl rfl rfl (List.all_eq_true.1 (by decide))
  rw [hdocument] at hamong'
  exact ⟨w, d, top', before, after, hnew, hwritten, htree', hamong'⟩

/-- A root without a prefix that takes the default namespace back: the writer starts, and then refuses
to write to the root under its own name. -/
theorem FieldWriter.own_root_refused :
    ∃ w, FieldWriter.new 10 .empty (some "<a xmlns=\"\"/>") = .ok w ∧
      w.writeField ⟨"/a", some (.string "v"), none, false⟩ [] =
        (.error (.rootMismatch "a" "a"), w, []) := by
  refine ⟨⟨10, .ofMarkup ⟨.absent, .leaf (.element ⟨.plain "a", none,
    [⟨.plain "xmlns", none, ""⟩]⟩)⟩, ⟨[("", "")]⟩⟩, ?_, ?_⟩
  · decide +kernel
  · decide +kernel

end MarkupFields
