import MarkupFields.Proofs.Markup.Choices

/-
  The limits of reading only refuse. What is read under some limits is read as the same under higher
  ones: each reader that succeeds under the lower limits gives the same result and leaves the same
  rest under the higher ones, from single names up to whole documents (`Markup.parse_of_allows`).

  So a text has at most one reading with namespaces, whatever the limits (`Markup.ReadFrom`). What is
  read is legal, and legal markup is read from its written form.
-/

namespace MarkupFields

open Text

/-- The second options make the same choices as the first, and none of their limits is lower. -/
structure ReadOptions.Allows (o o' : ReadOptions) : Prop where
  aware : o'.namespaceAware = o.namespaceAware
  blanks : o'.dropBlanks = o.dropBlanks
  depth : o.maxDepth ≤ o'.maxDepth
  names : o.maxNameLength ≤ o'.maxNameLength
  references : o.maxReferences ≤ o'.maxReferences

/-- Parts that succeed alike succeed alike one after the other. -/
theorem bind_congr_ok {ε α β : Type} {x y : Except ε α} {f g : α → Except ε β} {b : β}
    (hx : ∀ a, x = .ok a → y = .ok a) (hf : ∀ a, f a = .ok b → g a = .ok b)
    (h : x >>= f = .ok b) : y >>= g = .ok b := by
  obtain ⟨a, ha, hb⟩ := bind_eq_ok.1 h
  exact bind_eq_ok.2 ⟨a, hx a ha, hf a hb⟩

/-! ## Names, references and attributes -/

namespace Scan

theorem name_of_le {limit limit' : Nat} (hl : limit ≤ limit') {cs : List Char}
    {r : List Char × List Char} (h : name limit cs = .ok r) : name limit' cs = .ok r := by
  cases cs with
  | nil => cases h
  | cons c cs =>
    simp only [name] at h ⊢
    split at h
    · rename_i hstart
      split at h
      · cases h
      · rename_i hlong
        rw [if_pos hstart, if_neg (by omega)]
        exact h
    · cases h

theorem instruction_of_le {limit limit' : Nat} (hl : limit ≤ limit') {cs : List Char}
    {r : (List Char × Option (List Char)) × List Char} (h : instruction limit cs = .ok r) :
    instruction limit' cs = .ok r :=
  bind_congr_ok (fun _ => name_of_le hl) (fun _ => id) h

theorem reference_of_le {limit limit' : Nat} (hl : limit ≤ limit') {cs : List Char}
    {r : Char × List Char} (h : reference limit cs = .ok r) : reference limit' cs = .ok r := by
  unfold reference at h ⊢
  split
  · rename_i rest hrest
    rwa [hrest] at h
  · rename_i hhex
    rw [hhex] at h
    split
    · rename_i rest hrest
      rwa [hrest] at h
    · rename_i hdecimal
      rw [hdecimal] at h
      exact bind_congr_ok (fun _ => name_of_le hl) (fun _ => id) h

section
variable {o o' : ReadOptions} (hn : o.maxNameLength ≤ o'.maxNameLength)
  (hr : o.maxReferences ≤ o'.maxReferences)
include hn hr

theorem referencedRun_of_le {front : List Char → Front} {change : Char → Char} {used : Nat}
    {cs : List Char} {r : List Char × Nat × List Char}
    (h : referencedRun o front change used cs = .ok r) :
    referencedRun o' front change used cs = .ok r := by
  fun_induction referencedRun o front change used cs generalizing r with
  | case1 used cs rest hfront =>
    rw [← h]
    exact referencedRun_ends hfront
  | case2 => cases h
  | case3 => cases h
  | case4 => cases h
  | case5 => cases h
  | case6 used next hused c mid hmid hfront ih =>
    obtain ⟨⟨more, used', rest⟩, hmore, h⟩ := bind_eq_ok.1 h
    rw [← h]
    exact referencedRun_reference hfront (by omega) (reference_of_le hn hmid) (ih hmore)
  | case7 used c next hc hfront ih =>
    rw [referencedRun, hfront]
    dsimp only
    rw [if_neg hc]
    exact bind_congr_ok (fun _ => id) (fun _ => bind_congr_ok (fun _ => ih) (fun _ => id)) h

theorem attributeValue_of_le {used : Nat} {cs : List Char} {r : List Char × Nat × List Char}
    (h : attributeValue o used cs = .ok r) : attributeValue o' used cs = .ok r := by
  cases cs with
  | nil => cases h
  | cons q cs =>
    simp only [attributeValue] at h ⊢
    split at h
    · rename_i hq
      rw [if_pos hq]
      exact referencedRun_of_le hn hr h
    · cases h

end

section
variable {o o' : ReadOptions} (ho : o.Allows o')
include ho

theorem attributePair_of_allows {used : Nat} {cs : List Char} {r : Attribute × Nat × List Char}
    (h : attributePair o used cs = .ok r) : attributePair o' used cs = .ok r := by
  refine bind_congr_ok (fun _ => name_of_le ho.names) (fun word => ?_) h
  refine bind_congr_ok (fun _ => id) (fun mid => ?_)
  refine bind_congr_ok (fun _ => attributeValue_of_le ho.names ho.references) (fun value h => ?_)
  rw [ho.aware]
  exact h

theorem attributePairs_of_allows {earlier : List Attribute} {used : Nat} {cs : List Char}
    {r : List Attribute × Nat × List Char} (h : attributePairs o earlier used cs = .ok r) :
    attributePairs o' earlier used cs = .ok r := by
  fun_induction attributePairs o earlier used cs with
  | case1 earlier used cs hend =>
    rw [attributePairs, if_pos hend]
    exact h
  | case2 => cases h
  | case3 => cases h
  | case4 => cases h
  | case5 earlier used cs hend hspace a used1 mid hmid hnew ih =>
    rw [attributePairs_further hend hspace, attributePair_of_allows ho hmid, ok_bind, if_neg hnew]
    exact ih h

theorem readNames_of_allows (s : Scope) (e : Element) (cs : List Char) :
    readNames o' s e cs = readNames o s e cs := by
  unfold readNames
  rw [ho.aware]

theorem startTag_of_allows {s : Scope} {used : Nat} {cs : List Char}
    {r : (Scope × Element) × Nat × List Char} (h : startTag o s used cs = .ok r) :
    startTag o' s used cs = .ok r := by
  refine bind_congr_ok (fun _ => name_of_le ho.names) (fun word => ?_) h
  refine bind_congr_ok (fun _ => attributePairs_of_allows ho) (fun pairs h => ?_)
  simp only [readNames_of_allows ho]
  exact h

end

end Scan

/-! ## The root element -/

namespace ReadState

open Scan

variable {o o' : ReadOptions} (ho : o.Allows o')
include ho

theorem nestElement_of_allows {around : List OpenElement} {used : Nat} {whole cs : List Char}
    {p : ReadProgress} (h : nestElement o around used whole cs = .ok p) :
    nestElement o' around used whole cs = .ok p := by
  have hdepth := ho.depth
  unfold nestElement at h ⊢
  split at h
  · cases h
  · rw [if_neg (by omega)]
    exact bind_congr_ok (fun _ => startTag_of_allows ho) (fun _ => id) h

theorem closeElement_of_allows {s : ReadState} {cs : List Char} {p : ReadProgress}
    (h : s.closeElement o cs = .ok p) : s.closeElement o' cs = .ok p :=
  bind_congr_ok (fun _ => name_of_le ho.names) (fun _ => id) h

theorem step_of_allows {s : ReadState} {p : ReadProgress} (h : s.step o = .ok p) :
    s.step o' = .ok p := by
  unfold step at h ⊢
  split at h
  · cases h
  · exact closeElement_of_allows ho h
  · exact h
  · exact h
  · exact bind_congr_ok (fun _ => instruction_of_le ho.names) (fun _ => id) h
  · exact nestElement_of_allows ho h
  · refine bind_congr_ok (fun _ => referencedRun_of_le ho.names ho.references) (fun data h => ?_) h
    unfold OpenElement.addText at h ⊢
    rw [ho.blanks]
    exact h

theorem run_of_allows {s : ReadState} {r : ContentTree × List Char} (h : s.run o = .ok r) :
    s.run o' = .ok r := by
  fun_induction run o s with
  | case1 => cases h
  | case2 s root rest hstep =>
    rw [run_eq, step_of_allows ho hstep]
    exact h
  | case3 s s' hstep ih =>
    rw [run_eq, step_of_allows ho hstep]
    exact ih h

end ReadState

/-! ## Documents -/

namespace Scan

section
variable {o o' : ReadOptions} (hn : o.maxNameLength ≤ o'.maxNameLength)
include hn

theorem miscellany_of_le {cs : List Char} {r : Forest Content × List Char}
    (h : miscellany o cs = .ok r) : miscellany o' cs = .ok r := by
  fun_induction miscellany o cs generalizing r with
  | case1 => cases h
  | case2 cs inside hitem v mid hv ih =>
    rw [miscellany_comment hitem, hv, ok_bind]
    exact bind_congr_ok (fun _ => ih) (fun _ => id) h
  | case3 => cases h
  | case4 cs inside hitem p mid hp ih =>
    rw [miscellany_instruction hitem, instruction_of_le hn hp, ok_bind]
    exact bind_congr_ok (fun _ => ih) (fun _ => id) h
  | case5 cs hcomment hinstruction => exact (miscellany_ends hcomment hinstruction).trans h

theorem afterDoctype_of_le {cs : List Char} {r : Forest Content × List Char}
    (h : afterDoctype o cs = .ok r) : afterDoctype o' cs = .ok r := by
  unfold afterDoctype at h ⊢
  split at h
  · exact h
  · exact bind_congr_ok (fun _ => id) (fun _ => miscellany_of_le hn) h

end

section
variable {o o' : ReadOptions} (ho : o.Allows o')
include ho

theorem rootElement_of_allows {cs : List Char} {r : ContentTree × List Char}
    (h : rootElement o cs = .ok r) : rootElement o' cs = .ok r := by
  unfold rootElement at h ⊢
  split at h
  · split at h
    · cases h
    · rename_i hmark
      rw [if_neg hmark]
      split at h
      · cases h
      · rename_i root rest' hnest
        rw [ReadState.nestElement_of_allows ho hnest]
        exact h
      · rename_i s hnest
        rw [ReadState.nestElement_of_allows ho hnest]
        exact ReadState.run_of_allows ho h
  · cases h

theorem document_of_allows {cs : List Char} {m : Markup} (h : document o cs = .ok m) :
    document o' cs = .ok m := by
  refine bind_congr_ok (fun _ => id) (fun declaration => ?_) h
  refine bind_congr_ok (fun _ => miscellany_of_le ho.names) (fun before => ?_)
  refine bind_congr_ok (fun _ => afterDoctype_of_le ho.names) (fun between => ?_)
  refine bind_congr_ok (fun _ => rootElement_of_allows ho) (fun root => ?_)
  exact bind_congr_ok (fun _ => miscellany_of_le ho.names) (fun _ => id)

end

end Scan

/-- What was read is read as the same under higher limits. -/
theorem Markup.parse_of_allows {o o' : ReadOptions} (ho : o.Allows o') {t : String} {m : Markup}
    (h : Markup.parse o t = .ok m) : Markup.parse o' t = .ok m :=
  parse_eq_ok.2 (Scan.document_of_allows ho (parse_eq_ok.1 h))

/-- Markup that was read is legal, and keeps to the limits on depth and names; on names if they are
not below those of entities, of which the longest has four letters. -/
theorem Markup.within_of_parse {o : ReadOptions} {t : String} {m : Markup}
    (h : Markup.parse o t = .ok m) :
    m.Legal o.namespaceAware ∧ m.top.height ≤ o.maxDepth ∧
      ∀ c ∈ m.top.preorder, c.NamesWithin (max 4 o.maxNameLength) := by
  -- with a limit on names that lets the names of all entities through
  let o' : ReadOptions := { o with maxNameLength := max 4 o.maxNameLength }
  have ho : o.Allows o' :=
    ⟨rfl, rfl, Nat.le_refl _, Nat.le_max_right 4 o.maxNameLength, Nat.le_refl _⟩
  exact Markup.legal_of_parse (o := o') (Nat.le_max_left 4 _) (parse_of_allows ho h)

/-- Markup that was read is legal. -/
theorem Markup.legal_of_read {o : ReadOptions} {t : String} {m : Markup}
    (h : Markup.parse o t = .ok m) : m.Legal o.namespaceAware :=
  (within_of_parse h).1

/-! ## Limits that are high enough -/

/-- Namespaces are read, blank text is kept, and no limit is below the number. -/
structure ReadOptions.Lifted (limit : Nat) (o : ReadOptions) : Prop where
  aware : o.namespaceAware = true
  blanks : o.dropBlanks = false
  depth : limit ≤ o.maxDepth
  names : limit ≤ o.maxNameLength
  references : limit ≤ o.maxReferences

/-- The markup is read from the text, with namespaces, once the limits are high enough. -/
def Markup.ReadFrom (m : Markup) (t : String) : Prop :=
  ∃ limit, ∀ o : ReadOptions, o.Lifted limit → Markup.parse o t = .ok m

/-- What is read under any limits is read under those that are high enough. -/
theorem Markup.readFrom_of_parse {o : ReadOptions} (ha : o.namespaceAware = true)
    (hb : o.dropBlanks = false) {t : String} {m : Markup} (h : Markup.parse o t = .ok m) :
    m.ReadFrom t := by
  refine ⟨max o.maxDepth (max o.maxNameLength o.maxReferences), fun o' ho => ?_⟩
  have hdepth := ho.depth
  have hnames := ho.names
  have hreferences := ho.references
  refine Markup.parse_of_allows ⟨?_, ?_, ?_, ?_, ?_⟩ h
  · rw [ho.aware, ha]
  · rw [ho.blanks, hb]
  · omega
  · omega
  · omega

/-- Markup that is read from a text is read from nothing else. -/
theorem Markup.ReadFrom.unique {m m' : Markup} {t : String} (h : m.ReadFrom t)
    (h' : m'.ReadFrom t) : m = m' := by
  obtain ⟨limit, hread⟩ := h
  obtain ⟨limit', hread'⟩ := h'
  let o : ReadOptions := ⟨true, false, max limit limit', max limit limit', max limit limit'⟩
  have hl := Nat.le_max_left limit limit'
  have hr := Nat.le_max_right limit limit'
  have hm := hread o ⟨rfl, rfl, hl, hl, hl⟩
  rw [hread' o ⟨rfl, rfl, hr, hr, hr⟩, Except.ok.injEq] at hm
  exact hm.symm

/-- Each element of a list has a bound, so all have one in common. -/
theorem exists_common_bound {α : Type} {P : Nat → α → Prop}
    (hmono : ∀ {m n : Nat} {x : α}, m ≤ n → P m x → P n x) {l : List α}
    (h : ∀ x ∈ l, ∃ n, P n x) : ∃ n, ∀ x ∈ l, P n x := by
  induction l with
  | nil => exact ⟨0, fun x hx => absurd hx List.not_mem_nil⟩
  | cons x l ih =>
    obtain ⟨m, hm⟩ := h x List.mem_cons_self
    obtain ⟨n, hn⟩ := ih fun y hy => h y (List.mem_cons_of_mem x hy)
    refine ⟨max m n, fun y hy => ?_⟩
    rcases List.mem_cons.1 hy with rfl | hy
    · exact hmono (Nat.le_max_left m n) hm
    · exact hmono (Nat.le_max_right m n) (hn y hy)

theorem Content.NamesWithin.mono {m n : Nat} (hmn : m ≤ n) {c : Content} (h : c.NamesWithin m) :
    c.NamesWithin n := by
  cases c with
  | element e =>
    refine ⟨Nat.le_trans h.1 hmn, fun a ha => ⟨Nat.le_trans (h.2 a ha).1 hmn, ?_⟩⟩
    exact fun c hc => Nat.le_trans ((h.2 a ha).2 c hc) hmn
  | text s => exact fun c hc => Nat.le_trans (h c hc) hmn
  | instruction target data => exact Nat.le_trans h hmn
  | document => trivial
  | cdata s => trivial
  | comment s => trivial

theorem Content.exists_namesWithin (c : Content) : ∃ n, c.NamesWithin n := by
  cases c with
  | element e =>
    obtain ⟨n, hn⟩ := exists_common_bound
      (P := fun n (a : Attribute) => utf8Length a.name.written.toList ≤ n)
      (fun hmn h => Nat.le_trans h hmn) (l := e.attributes) (fun a _ => ⟨_, Nat.le_refl _⟩)
    refine ⟨max (utf8Length e.name.written.toList) (max n 4), Nat.le_max_left _ _, ?_⟩
    intro a ha
    have hname := hn a ha
    refine ⟨by omega, fun c _ => ?_⟩
    have hentity := Scan.entityLength_escapedInValue c
    omega
  | text s => exact ⟨4, fun c _ => Scan.entityLength_escapedInText c⟩
  | instruction target data => exact ⟨_, Nat.le_refl _⟩
  | document => exact ⟨0, trivial⟩
  | cdata s => exact ⟨0, trivial⟩
  | comment s => exact ⟨0, trivial⟩

/-- Legal markup is read from its written form. -/
theorem Markup.readFrom_render {m : Markup} (h : m.Legal true) :
    (⟨.absent, m.top⟩ : Markup).ReadFrom (m.render { declaration := false }) := by
  obtain ⟨n, hn⟩ := exists_common_bound (P := fun n (c : Content) => c.NamesWithin n)
    (fun hmn hc => hc.mono hmn) (l := m.top.preorder) (fun c _ => c.exists_namesWithin)
  refine ⟨max n (max m.top.height m.top.references), fun o ho => ?_⟩
  have hdepth := ho.depth
  have hnames := ho.names
  have hreferences := ho.references
  have hwithin : m.Within o :=
    ⟨by omega, fun c hc => (hn c hc).mono (by omega), by omega⟩
  rw [← ho.aware] at h
  exact Markup.parse_render_of_legal (w := { declaration := false }) rfl ho.blanks h hwithin

end MarkupFields
