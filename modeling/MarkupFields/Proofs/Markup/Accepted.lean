import MarkupFields.Proofs.Markup.Elements
import MarkupFields.Proofs.Markup.Tags

/-
  What is read is legal. The open elements are legal as far as they have been read, and where the
  last complete tree of the innermost one is a text, markup or the end follows. Each step of reading
  keeps this, so the root element is legal once it is complete; comments, instructions and the
  version are legal by themselves. What is read keeps to the limits on depth and names. The limit on
  names holds for the names of entities too, of which the longest that is ever written has four
  letters.
-/

namespace MarkupFields

open Text Scan

/-! ## Legal forests within the limits -/

theorem Scan.entityLength_escapedInText (c : Char) :
    entityLength (Render.escapedInText c) ≤ 4 := by
  unfold Render.escapedInText
  split
  · decide
  · decide
  · decide
  · decide
  · unfold entityLength
    split <;> simp_all

theorem Scan.entityLength_escapedInValue (c : Char) :
    entityLength (Render.escapedInValue c) ≤ 4 := by
  unfold Render.escapedInValue
  split
  · decide
  · decide
  · decide
  · decide
  · decide
  · decide
  · decide
  · unfold entityLength
    split <;> simp_all

theorem Scan.leaf_of_cdata {cs v rest : List Char} (h : cdata cs = .ok (v, rest)) :
    (Content.cdata (String.ofList v)).LegalLeaf := by
  show Ended _ _ (String.ofList v).toList
  rw [String.toList_ofList]
  exact ended_of_cdata h

theorem Scan.leaf_of_comment {cs v rest : List Char} (h : comment cs = .ok (v, rest)) :
    (commentContent v).LegalLeaf := by
  show CommentText (String.ofList v).toList
  rw [String.toList_ofList]
  exact commentText_of_comment h

theorem Scan.leaf_of_instruction {limit : Nat} {cs rest : List Char}
    {p : List Char × Option (List Char)} (h : instruction limit cs = .ok (p, rest)) :
    (instructionContent p).LegalLeaf ∧ (instructionContent p).NamesWithin limit := by
  obtain ⟨ht, hl, hd⟩ := instruction_eq_ok h
  refine ⟨⟨?_, ?_⟩, ?_⟩
  · rwa [String.toList_ofList]
  · intro d hm
    obtain ⟨x, hx, rfl⟩ := Option.map_eq_some_iff.1 hm
    rw [String.toList_ofList]
    exact hd x hx
  · show utf8Length (String.ofList p.1).toList ≤ limit
    rwa [String.toList_ofList]

namespace Forest

theorem ofTrees_append {α : Type} (ts us : List (α × Forest α)) :
    ofTrees (ts ++ us) = ofTrees ts ++ ofTrees us := by
  induction ts with
  | nil => rfl
  | cons t ts ih => rw [List.cons_append, ofTrees, ih, ofTrees, cons_append]

/-- The forest is legal, and its names and its height, from a depth on, keep to the limits. -/
structure Sound (o : ReadOptions) (depth : Nat) (s : Scope) (f : Forest Content) : Prop where
  legal : f.Legal o.namespaceAware s
  depth : depth + f.height ≤ o.maxDepth
  names : ∀ c ∈ f.preorder, c.NamesWithin o.maxNameLength

variable {o : ReadOptions} {depth : Nat} {s : Scope}

theorem Sound.nil (h : depth ≤ o.maxDepth) : Sound o depth s .nil :=
  ⟨.nil, h, fun _ hc => absurd hc List.not_mem_nil⟩

theorem Sound.append {f g : Forest Content} (hf : f.Sound o depth s) (hg : g.Sound o depth s)
    (h : f.endsWithText = true → g.startsWithText = false) : (f ++ g).Sound o depth s := by
  have hdf := hf.depth
  have hdg := hg.depth
  refine ⟨hf.legal.append hg.legal h, ?_, ?_⟩
  · rw [height_append]
    omega
  · intro c hc
    rw [preorder_append, List.mem_append] at hc
    rcases hc with hc | hc
    · exact hf.names c hc
    · exact hg.names c hc

theorem Sound.leaf {c : Content} (h : c.LegalLeaf) (hn : c.NamesWithin o.maxNameLength)
    (hd : depth ≤ o.maxDepth) : (Forest.leaf c).Sound o depth s := by
  refine ⟨.leaf h (fun _ => rfl) .nil, ?_, ?_⟩
  · have hc : c.isElement = false := by
      cases c with
      | element e => exact absurd h id
      | _ => rfl
    unfold Forest.leaf
    rw [height, hc]
    exact hd
  · intro d hd
    rw [show (Forest.leaf c).preorder = [c] from rfl, List.mem_singleton] at hd
    exact hd ▸ hn

end Forest

/-! ## Open elements -/

namespace OpenElement

/-- The trees that are complete inside the element. -/
def content (e : OpenElement) : Forest Content :=
  Forest.ofTrees e.complete.reverse

/-- An element that was opened inside the given ones is legal as far as it has been read. -/
structure Sound (o : ReadOptions) (around : List OpenElement) (e : OpenElement) : Prop where
  writable : e.element.Writable o.namespaceAware
  names : e.element.ReadIn o.namespaceAware (ReadState.scopeIn around) e.scope
  short : (Content.element e.element).NamesWithin o.maxNameLength
  content : e.content.Sound o (around.length + 1) e.scope

variable {o : ReadOptions} {around : List OpenElement} {e : OpenElement}

theorem content_add (e : OpenElement) (t : ContentTree) :
    (e.add t).content = e.content ++ .cons t.1 t.2 .nil := by
  unfold content add
  rw [List.reverse_cons, Forest.ofTrees_append]
  rfl

theorem Sound.add (h : e.Sound o around) {t : ContentTree}
    (ht : (Forest.cons t.1 t.2 .nil).Sound o (around.length + 1) e.scope)
    (ha : e.content.endsWithText = true → t.1.isText = false) : (e.add t).Sound o around := by
  refine ⟨h.writable, h.names, h.short, ?_⟩
  rw [content_add]
  exact h.content.append ht ha

theorem endsWithText_add (e : OpenElement) (t : ContentTree) :
    (e.add t).content.endsWithText = t.1.isText := by
  unfold Forest.endsWithText
  rw [content_add, Forest.roots_append, Forest.roots, Forest.roots, List.getLast?_concat]
  rfl

theorem Sound.depth (h : e.Sound o around) : around.length + 1 ≤ o.maxDepth :=
  Nat.le_trans (Nat.le_add_right _ _) h.content.depth

theorem Sound.addLeaf (h : e.Sound o around) {c : Content} (hc : c.LegalLeaf)
    (hn : c.NamesWithin o.maxNameLength)
    (ha : e.content.endsWithText = true → c.isText = false) : (e.addLeaf c).Sound o around :=
  h.add (Forest.Sound.leaf hc hn h.depth) ha

/-- The tree of an element that has been read is legal around it. -/
theorem Sound.tree (h : e.Sound o around) :
    (Forest.cons e.tree.1 e.tree.2 .nil).Sound o around.length (ReadState.scopeIn around) := by
  refine ⟨.element h.writable h.names h.content.legal .nil, ?_, ?_⟩
  · have := h.content.depth
    show around.length + max (e.content.height + 1) 0 ≤ o.maxDepth
    omega
  · intro c hc
    unfold OpenElement.tree at hc
    rw [Forest.preorder, Forest.preorder, List.append_nil, List.mem_cons] at hc
    rcases hc with rfl | hc
    · exact h.short
    · exact h.content.names c hc

end OpenElement

/-! ## One step and a run -/

namespace ReadState

variable {o : ReadOptions}

/-- Each open element is legal inside those around it. -/
def SoundChain (o : ReadOptions) : List OpenElement → Prop
  | [] => True
  | e :: around => e.Sound o around ∧ SoundChain o around

/-- The open elements are legal, and after a text there is markup or the end. -/
structure Sound (o : ReadOptions) (s : ReadState) : Prop where
  chain : SoundChain o (s.innermost :: s.enclosing)
  text : s.innermost.content.endsWithText = true → BeforeMarkup s.rest

/-- The reading goes on from a legal state, or the root element is legal. -/
def SoundProgress (o : ReadOptions) : ReadProgress → Prop
  | .going s => s.Sound o
  | .complete root _ =>
    ∃ e, root.1 = .element e ∧ (Forest.cons root.1 root.2 .nil).Sound o 0 Scope.outermost

theorem SoundChain.place {around : List OpenElement} (h : SoundChain o around) {e : Element}
    {children : Forest Content} (used : Nat) (rest : List Char)
    (ht : (Forest.cons (.element e) children .nil).Sound o around.length (scopeIn around)) :
    SoundProgress o (place (.element e, children) used rest around) := by
  cases around with
  | nil => exact ⟨e, rfl, ht⟩
  | cons outer around =>
    refine ⟨⟨h.1.add ht fun _ => rfl, h.2⟩, ?_⟩
    intro he
    rw [OpenElement.endsWithText_add] at he
    cases he

section Steps

variable (hname : 4 ≤ o.maxNameLength)
include hname

theorem namesWithin_of_startTag {e : Element}
    (he : utf8Length e.name.written.toList ≤ o.maxNameLength)
    (ha : ∀ a ∈ e.attributes, utf8Length a.name.written.toList ≤ o.maxNameLength) :
    (Content.element e).NamesWithin o.maxNameLength :=
  ⟨he, fun a h => ⟨ha a h, fun c _ => Nat.le_trans (entityLength_escapedInValue c) hname⟩⟩

theorem SoundChain.openElement {around : List OpenElement} {used : Nat} {cs : List Char}
    {p : ReadProgress} (h : SoundChain o around) (hd : around.length + 1 ≤ o.maxDepth)
    (hp : openElement o around used cs = .ok p) : SoundProgress o p := by
  unfold ReadState.openElement at hp
  obtain ⟨⟨⟨scope, e⟩, used', mid⟩, htag, hp⟩ := bind_eq_ok.1 hp
  obtain ⟨hw, hread, hlen, halen⟩ := startTag_eq_ok htag
  have hopen : OpenElement.Sound o around ⟨e, scope, []⟩ :=
    ⟨hw, hread, namesWithin_of_startTag hname hlen halen, .nil hd⟩
  dsimp only at hp
  split at hp
  · rename_i rest hrest
    rw [Except.ok.injEq] at hp
    rw [← hp]
    exact h.place used' rest hopen.tree
  · obtain ⟨rest, hrest, hp⟩ := bind_eq_ok.1 hp
    rw [Except.ok.injEq] at hp
    rw [← hp]
    refine ⟨⟨hopen, h⟩, ?_⟩
    intro he
    cases he

theorem SoundChain.nestElement {around : List OpenElement} {used : Nat} {whole cs : List Char}
    {p : ReadProgress} (h : SoundChain o around)
    (hp : nestElement o around used whole cs = .ok p) : SoundProgress o p := by
  unfold ReadState.nestElement at hp
  by_cases hd : around.length + 1 > o.maxDepth
  · rw [if_pos hd] at hp
    cases hp
  · rw [if_neg hd] at hp
    exact h.openElement hname (Nat.not_lt.1 hd) hp

omit hname in
theorem Sound.closeElement {s : ReadState} {cs : List Char} {p : ReadProgress} (h : s.Sound o)
    (hp : s.closeElement o cs = .ok p) : SoundProgress o p := by
  unfold ReadState.closeElement at hp
  obtain ⟨⟨word, mid⟩, -, hp⟩ := bind_eq_ok.1 hp
  dsimp only at hp
  split at hp
  · cases hp
  · obtain ⟨rest, -, hp⟩ := bind_eq_ok.1 hp
    rw [Except.ok.injEq] at hp
    rw [← hp]
    exact h.chain.2.place s.used rest h.chain.1.tree

omit hname in
/-- One more leaf that is no text. -/
theorem Sound.addLeaf {s : ReadState} {c : Content} (h : s.Sound o) (hc : c.LegalLeaf)
    (hn : c.NamesWithin o.maxNameLength) (ht : c.isText = false) (rest : List Char) :
    Sound o { s with innermost := s.innermost.addLeaf c, rest := rest } := by
  refine ⟨⟨h.chain.1.addLeaf hc hn fun _ => ht, h.chain.2⟩, ?_⟩
  intro he
  rw [show ({ s with innermost := s.innermost.addLeaf c, rest := rest } : ReadState).innermost =
    s.innermost.add (c, .nil) from rfl, OpenElement.endsWithText_add, ht] at he
  cases he

/-- Character data becomes a legal text, since no text comes directly before it. -/
theorem Sound.addText {s : ReadState} {v rest : List Char} (used : Nat) (h : s.Sound o)
    (hv : ∀ c ∈ v, isXmlChar c = true) (ht : s.innermost.content.endsWithText = false)
    (hr : BeforeMarkup rest) :
    Sound o { s with innermost := s.innermost.addText o v, used := used, rest := rest } := by
  refine ⟨⟨?_, h.chain.2⟩, fun _ => hr⟩
  show (s.innermost.addText o v).Sound o s.enclosing
  unfold OpenElement.addText
  by_cases he : (v.isEmpty || (o.dropBlanks && allBlank v)) = true
  · rw [if_pos he]
    exact h.chain.1
  · rw [if_neg he]
    rw [Bool.or_eq_true, not_or] at he
    refine h.chain.1.addLeaf ⟨?_, ?_⟩ ?_ ?_
    · intro hs
      refine he.1 ?_
      rw [List.isEmpty_iff, ← String.toList_ofList (l := v), hs]
      rfl
    · rw [String.toList_ofList]
      exact hv
    · intro c _
      exact Nat.le_trans (entityLength_escapedInText c) hname
    · intro hs
      rw [ht] at hs
      cases hs

/-- A step keeps the open elements legal. -/
theorem Sound.step {s : ReadState} {p : ReadProgress} (h : s.Sound o)
    (hp : s.step o = .ok p) : SoundProgress o p := by
  unfold ReadState.step at hp
  split at hp
  · cases hp
  · exact h.closeElement hp
  · obtain ⟨⟨v, rest⟩, hv, hp⟩ := bind_eq_ok.1 hp
    rw [Except.ok.injEq] at hp
    rw [← hp]
    exact h.addLeaf (leaf_of_cdata hv) trivial rfl rest
  · obtain ⟨⟨v, rest⟩, hv, hp⟩ := bind_eq_ok.1 hp
    rw [Except.ok.injEq] at hp
    rw [← hp]
    exact h.addLeaf (leaf_of_comment hv) trivial rfl rest
  · obtain ⟨⟨⟨target, data⟩, rest⟩, hv, hp⟩ := bind_eq_ok.1 hp
    rw [Except.ok.injEq] at hp
    rw [← hp]
    exact h.addLeaf (leaf_of_instruction hv).1 (leaf_of_instruction hv).2 rfl rest
  · exact h.chain.nestElement hname hp
  · rename_i cs hitem
    obtain ⟨⟨v, used, rest⟩, hv, hp⟩ := bind_eq_ok.1 hp
    rw [Except.ok.injEq] at hp
    rw [← hp]
    obtain ⟨hx, hr⟩ := characterData_eq_ok hv
    refine h.addText hname used hx ?_ hr
    by_contra ht
    rw [Bool.not_eq_false] at ht
    obtain ⟨c, next, hcs, hc⟩ := itemAt_text hitem
    rcases h.text ht with he | ⟨l, hl⟩
    · rw [hcs] at he
      cases he
    · rw [hcs, List.cons.injEq] at hl
      exact hc hl.1

/-- The root element is legal when a run ends. -/
theorem Sound.run {s : ReadState} {root : ContentTree} {rest : List Char} (h : s.Sound o)
    (hr : s.run o = .ok (root, rest)) : SoundProgress o (.complete root rest) := by
  fun_induction ReadState.run o s with
  | case1 => cases hr
  | case2 s root' rest' hstep =>
    rw [Except.ok.injEq, Prod.mk.injEq] at hr
    have := h.step hname hstep
    rwa [← hr.1, ← hr.2]
  | case3 s s' hstep ih => exact ih (h.step hname hstep) hr

end Steps

end ReadState

/-! ## Whole documents -/

namespace Scan

variable {o : ReadOptions}

theorem isVersion_of_declaration {cs rest : List Char} {d : Declaration}
    (h : declaration cs = .ok (d, rest)) : ∀ v ∈ d.version, isVersion v.toList = true := by
  unfold declaration at h
  split at h
  · rw [Except.ok.injEq, Prod.mk.injEq] at h
    rw [← h.1]
    intro v hv
    cases hv
  · obtain ⟨⟨version, cs1⟩, hversion, h⟩ := bind_eq_ok.1 h
    obtain ⟨⟨encoding, cs2⟩, -, h⟩ := bind_eq_ok.1 h
    obtain ⟨⟨standalone, cs3⟩, -, h⟩ := bind_eq_ok.1 h
    obtain ⟨cs4, -, h⟩ := bind_eq_ok.1 h
    rw [Except.ok.injEq, Prod.mk.injEq] at h
    rw [← h.1]
    intro v hv
    rw [← Option.some.inj hv, String.toList_ofList]
    unfold versionPart at hversion
    obtain ⟨cs5, -, hversion⟩ := bind_eq_ok.1 hversion
    obtain ⟨⟨v', cs6⟩, -, hversion⟩ := bind_eq_ok.1 hversion
    dsimp only at hversion
    by_cases hv' : isVersion v' = true
    · rw [if_pos hv', Except.ok.injEq, Prod.mk.injEq] at hversion
      exact hversion.1 ▸ hv'
    · rw [if_neg hv'] at hversion
      cases hversion

/-- The forest stands around the root element, and its names keep to the limit. -/
def SoundMiscellany (limit : Nat) (f : Forest Content) : Prop :=
  f.Miscellaneous ∧ ∀ c ∈ f.preorder, c.NamesWithin limit

theorem SoundMiscellany.nil (limit : Nat) : SoundMiscellany limit .nil :=
  ⟨trivial, fun _ hc => absurd hc List.not_mem_nil⟩

theorem SoundMiscellany.cons {limit : Nat} {c : Content} {beside : Forest Content}
    (hm : c.isMiscellany = true) (hc : c.LegalLeaf) (hn : c.NamesWithin limit)
    (h : SoundMiscellany limit beside) : SoundMiscellany limit (.cons c .nil beside) := by
  refine ⟨⟨⟨hm, hc, rfl⟩, h.1⟩, ?_⟩
  intro d hd
  rw [Forest.preorder, Forest.preorder, List.nil_append, List.mem_cons] at hd
  rcases hd with rfl | hd
  · exact hn
  · exact h.2 d hd

theorem SoundMiscellany.append {limit : Nat} {f g : Forest Content}
    (hf : SoundMiscellany limit f) (hg : SoundMiscellany limit g) :
    SoundMiscellany limit (f ++ g) := by
  refine ⟨hf.1.append hg.1, ?_⟩
  intro c hc
  rw [Forest.preorder_append, List.mem_append] at hc
  rcases hc with hc | hc
  · exact hf.2 c hc
  · exact hg.2 c hc

theorem soundMiscellany_of_miscellany {cs rest : List Char} {f : Forest Content}
    (h : miscellany o cs = .ok (f, rest)) : SoundMiscellany o.maxNameLength f := by
  fun_induction miscellany o cs generalizing f rest with
  | case1 => cases h
  | case2 cs inside _ v mid hv ih =>
    obtain ⟨⟨more, rest'⟩, hmore, h⟩ := bind_eq_ok.1 h
    rw [Except.ok.injEq, Prod.mk.injEq] at h
    rw [← h.1]
    exact .cons rfl (leaf_of_comment hv) trivial (ih hmore)
  | case3 => cases h
  | case4 cs inside _ p mid hp ih =>
    obtain ⟨⟨more, rest'⟩, hmore, h⟩ := bind_eq_ok.1 h
    rw [Except.ok.injEq, Prod.mk.injEq] at h
    rw [← h.1]
    exact .cons rfl (leaf_of_instruction hp).1 (leaf_of_instruction hp).2 (ih hmore)
  | case5 =>
    rw [Except.ok.injEq, Prod.mk.injEq] at h
    rw [← h.1]
    exact .nil _

theorem soundMiscellany_of_afterDoctype {cs rest : List Char} {f : Forest Content}
    (h : afterDoctype o cs = .ok (f, rest)) : SoundMiscellany o.maxNameLength f := by
  unfold afterDoctype at h
  split at h
  · rw [Except.ok.injEq, Prod.mk.injEq] at h
    rw [← h.1]
    exact .nil _
  · obtain ⟨mid, -, h⟩ := bind_eq_ok.1 h
    exact soundMiscellany_of_miscellany h

theorem soundProgress_of_rootElement (hname : 4 ≤ o.maxNameLength) {cs rest : List Char}
    {root : ContentTree} (h : rootElement o cs = .ok (root, rest)) :
    ReadState.SoundProgress o (.complete root rest) := by
  have hempty : ReadState.SoundChain o [] := trivial
  unfold rootElement at h
  split at h
  · split at h
    · cases h
    · split at h
      · cases h
      · rename_i root' rest' hnest
        rw [Except.ok.injEq, Prod.mk.injEq] at h
        rw [← h.1, ← h.2]
        exact hempty.nestElement hname hnest
      · rename_i s hnest
        have hs : s.Sound o := hempty.nestElement hname hnest
        exact hs.run hname h
  · cases h

end Scan

theorem Forest.Miscellaneous.height {f : Forest Content} (h : f.Miscellaneous) :
    f.height = 0 := by
  induction f with
  | nil => rfl
  | cons c below beside _ ih =>
    have hc : c.isElement = false := by
      have := h.1.1
      cases c <;> first | rfl | cases this
    rw [Forest.height, hc, ih h.2]
    rfl

theorem Markup.parse_eq_ok {o : ReadOptions} {t : String} {m : Markup} :
    Markup.parse o t = .ok m ↔ Scan.document o t.toList = .ok m := by
  rw [Markup.parse_eq]
  cases Scan.document o t.toList with
  | error e => simp [Except.mapError]
  | ok m' => simp [Except.mapError]

/-- No markup is read from nothing. -/
theorem Markup.parse_empty (o : ReadOptions) (m : Markup) : Markup.parse o "" ≠ .ok m := by
  rw [Ne, parse_eq_ok]
  have hnone : miscellany o [] = .ok (.nil, []) := by
    rw [miscellany]
    rfl
  show (miscellany o [] >>= fun before => _) ≠ _
  rw [hnone]
  exact nofun

/-- Markup that was read is legal, and keeps to the limits on depth and names. -/
theorem Markup.legal_of_parse {o : ReadOptions} (hname : 4 ≤ o.maxNameLength) {t : String}
    {m : Markup} (h : Markup.parse o t = .ok m) :
    m.Legal o.namespaceAware ∧ m.top.height ≤ o.maxDepth ∧
      ∀ c ∈ m.top.preorder, c.NamesWithin o.maxNameLength := by
  have hdoc := parse_eq_ok.1 h
  unfold Scan.document at hdoc
  obtain ⟨⟨d, cs1⟩, hd, hdoc⟩ := bind_eq_ok.1 hdoc
  obtain ⟨⟨before, cs2⟩, hbefore, hdoc⟩ := bind_eq_ok.1 hdoc
  obtain ⟨⟨between, cs3⟩, hbetween, hdoc⟩ := bind_eq_ok.1 hdoc
  obtain ⟨⟨root, cs4⟩, hroot, hdoc⟩ := bind_eq_ok.1 hdoc
  obtain ⟨⟨behind, cs5⟩, hbehind, hdoc⟩ := bind_eq_ok.1 hdoc
  dsimp only at hdoc
  split at hdoc
  · rw [Except.ok.injEq] at hdoc
    have hfront := (soundMiscellany_of_miscellany hbefore).append
      (soundMiscellany_of_afterDoctype hbetween)
    have hback := soundMiscellany_of_miscellany hbehind
    obtain ⟨e, he, hsound⟩ := soundProgress_of_rootElement hname hroot
    rw [he] at hsound
    have htop : m.top = before ++ between ++ .cons (.element e) root.2 behind := by
      rw [← hdoc, ← he]
    have hcons : Forest.cons (.element e) root.2 behind =
        .cons (.element e) root.2 .nil ++ behind := rfl
    refine ⟨⟨?_, before ++ between, e, root.2, behind, htop, hfront.1, hback.1, hsound.legal⟩,
      ?_, ?_⟩
    · rw [← hdoc]
      exact isVersion_of_declaration hd
    · have hdepth := hsound.depth
      rw [htop, hcons, Forest.height_append (before ++ between), hfront.1.height,
        Forest.height_append, hback.1.height]
      omega
    · intro c hc
      rw [htop, hcons, Forest.preorder_append (before ++ between), List.mem_append] at hc
      rcases hc with hc | hc
      · exact hfront.2 c hc
      · rw [Forest.preorder_append, List.mem_append] at hc
        rcases hc with hc | hc
        · exact hsound.names c hc
        · exact hback.2 c hc
  · cases hdoc

end MarkupFields
