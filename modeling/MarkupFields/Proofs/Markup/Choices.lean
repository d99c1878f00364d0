import MarkupFields.Proofs.Markup.Reread

/-
  What the readers of parts do not look at. Start tags and runs of characters are read alike, faults
  and all, under options that agree on namespaces and on the limits of names and references; what
  stands around the root element, under options that agree on the limit of names. The limit on depth
  and the choice whether blank text is dropped are asked elsewhere: where an element is nested and
  where character data becomes a node.
-/

namespace MarkupFields.Scan

open Text

variable {o q : ReadOptions}

/-! ## Start tags -/

/-- An attribute comes next, and others after it. -/
theorem attributePairs_further {cs : List Char} (hend : ¬ atTagEnd (skipSpace cs) = true)
    (hspace : ¬ (!startsWithSpace cs) = true) (earlier : List Attribute) (used : Nat) :
    attributePairs o earlier used cs =
      attributePair o used (skipSpace cs) >>= fun r =>
        if earlier.any fun b => b.name == r.1.name then
          haltAt (.duplicateAttribute r.1.name.shown) r.2.2
        else attributePairs o (earlier ++ [r.1]) r.2.1 r.2.2 := by
  rw [attributePairs, if_neg hend, if_neg hspace]
  split
  · rename_i e he
    rw [he]
    rfl
  · rename_i a used' rest hr
    rw [hr]
    rfl

section
variable (hn : q.maxNameLength = o.maxNameLength) (hr : q.maxReferences = o.maxReferences)
include hn hr

theorem referencedRun_congr (front : List Char → Front) (change : Char → Char) (used : Nat)
    (cs : List Char) :
    referencedRun q front change used cs = referencedRun o front change used cs := by
  fun_induction referencedRun o front change used cs with
  | case1 used cs rest hfront => exact referencedRun_ends hfront
  | case2 used cs fault hfront =>
    unfold referencedRun
    rw [hfront]
  | case3 used hfront =>
    unfold referencedRun
    rw [hfront]
  | case4 used next hused hfront =>
    rw [referencedRun_further hfront, if_pos rfl, hr, if_pos hused]
  | case5 used next hused e he hfront =>
    rw [referencedRun_further hfront, if_pos rfl, hr, if_neg hused, hn, he]
    rfl
  | case6 used next hused c mid hmid hfront ih =>
    rw [referencedRun_further hfront, if_pos rfl, hr, if_neg hused, hn, hmid, ok_bind, ih]
  | case7 used c next hc hfront ih =>
    rw [referencedRun_further hfront, if_neg hc, ih]

theorem attributeValue_congr (used : Nat) (cs : List Char) :
    attributeValue q used cs = attributeValue o used cs := by
  cases cs with
  | nil => rfl
  | cons quote cs =>
    simp only [attributeValue, referencedRun_congr hn hr]

variable (ha : q.namespaceAware = o.namespaceAware)
include ha

theorem attributePair_congr (used : Nat) (cs : List Char) :
    attributePair q used cs = attributePair o used cs := by
  simp only [attributePair, attributeValue_congr hn hr, hn, ha]

theorem attributePairs_congr (earlier : List Attribute) (used : Nat) (cs : List Char) :
    attributePairs q earlier used cs = attributePairs o earlier used cs := by
  fun_induction attributePairs o earlier used cs with
  | case1 earlier used cs hend => rw [attributePairs, if_pos hend]
  | case2 earlier used cs hend hspace => rw [attributePairs, if_neg hend, if_pos hspace]
  | case3 earlier used cs hend hspace e he =>
    rw [attributePairs_further hend hspace, attributePair_congr hn hr ha, he]
    rfl
  | case4 earlier used cs hend hspace a used1 mid hmid hsame =>
    rw [attributePairs_further hend hspace, attributePair_congr hn hr ha, hmid, ok_bind,
      if_pos hsame]
  | case5 earlier used cs hend hspace a used1 mid hmid hnew ih =>
    rw [attributePairs_further hend hspace, attributePair_congr hn hr ha, hmid, ok_bind,
      if_neg hnew, ih]

theorem startTag_congr (s : Scope) (used : Nat) (cs : List Char) :
    startTag q s used cs = startTag o s used cs := by
  simp only [startTag, readNames, attributePairs_congr hn hr ha, hn, ha]

end

/-! ## Around the root element -/

section
variable (hn : q.maxNameLength = o.maxNameLength)
include hn

theorem miscellany_congr (cs : List Char) : miscellany q cs = miscellany o cs := by
  fun_induction miscellany o cs with
  | case1 cs inside hitem e he =>
    rw [miscellany_comment hitem, he]
    rfl
  | case2 cs inside hitem v mid hv ih =>
    rw [miscellany_comment hitem, hv, ok_bind, ih]
  | case3 cs inside hitem e he =>
    rw [miscellany_instruction hitem, hn, he]
    rfl
  | case4 cs inside hitem p mid hp ih =>
    rw [miscellany_instruction hitem, hn, hp, ok_bind, ih]
  | case5 cs hcomment hinstruction => exact miscellany_ends hcomment hinstruction

theorem afterDoctype_congr (cs : List Char) : afterDoctype q cs = afterDoctype o cs := by
  unfold afterDoctype
  split
  · rfl
  · rename_i rest hdoctype
    simp only [miscellany_congr hn]

end

end MarkupFields.Scan
