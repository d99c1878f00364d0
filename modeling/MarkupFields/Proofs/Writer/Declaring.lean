import MarkupFields.Proofs.Writer.Written

/-
  Where new declarations come to stand. The attributes of an element split behind the last declaration
  among them, or before all of them if there is none (`Attribute.SplitBehindLast`). Prefixes that are
  declared one after the other come to stand there, in the order in which they are first asked for, each
  once and only if it was not declared; nothing else moves (`Attribute.declareEach_of_split`).
-/

namespace MarkupFields.Attribute

/-- The attributes up to the last declaration among them, and those behind it. -/
structure SplitBehindLast (as front rest : List Attribute) : Prop where
  split : as = front ++ rest
  front : ∀ a ∈ front.getLast?, a.isDeclaration = true
  rest : ∀ a ∈ rest, a.isDeclaration = false

theorem exists_splitBehindLast (as : List Attribute) : ∃ front rest, SplitBehindLast as front rest := by
  induction as with
  | nil => exact ⟨[], [], rfl, nofun, nofun⟩
  | cons a as ih =>
    obtain ⟨front, rest, rfl, hfront, hrest⟩ := ih
    cases front with
    | cons b front => exact ⟨a :: b :: front, rest, rfl, hfront, hrest⟩
    | nil =>
      cases ha : a.isDeclaration with
      | true => exact ⟨[a], rest, rfl, fun b hb => Option.some.inj hb ▸ ha, hrest⟩
      | false => exact ⟨[], a :: rest, rfl, nofun, List.forall_mem_cons.2 ⟨ha, hrest⟩⟩

variable {as front rest : List Attribute}

/-- A declaration is inserted where the attributes split. -/
theorem insertDeclaration_of_split (h : SplitBehindLast as front rest) (d : Attribute) :
    insertDeclaration d as = front ++ d :: rest := by
  obtain ⟨rfl, hfront, hrest⟩ := h
  induction front with
  | nil =>
    cases rest with
    | nil => rfl
    | cons b rest =>
      refine if_neg ?_
      rw [Bool.not_eq_true, List.any_eq_false]
      exact fun a ha => Bool.not_eq_true _ ▸ hrest a ha
  | cons b front ih =>
    obtain ⟨c, hc⟩ : ∃ c, (b :: front).getLast? = some c := ⟨_, List.getLast?_cons⟩
    have hany : (b :: (front ++ rest)).any isDeclaration = true :=
      List.any_eq_true.2 ⟨c, List.mem_append_left rest (List.mem_of_getLast? hc), hfront c hc⟩
    rw [List.cons_append, insertDeclaration, if_pos hany]
    rw [ih fun a ha => hfront a ?_]
    · rfl
    · rw [List.getLast?_cons, ha]
      rfl

/-- Behind a declaration that was inserted they split. -/
theorem SplitBehindLast.insert (h : SplitBehindLast as front rest) {d : Attribute}
    (hd : d.isDeclaration = true) :
    SplitBehindLast (insertDeclaration d as) (front ++ [d]) rest := by
  refine ⟨?_, fun a ha => ?_, h.rest⟩
  · rw [insertDeclaration_of_split h, List.append_assoc]
    rfl
  · rw [List.getLast?_concat] at ha
    exact Option.some.inj ha ▸ hd

/-- Of the given declarations those of prefixes that are not declared, each once, in order. -/
def newDeclarations (ds : List (String × String)) (as : List Attribute) : List (String × String) :=
  (ds.filter fun d => d.1 ∉ (declarations as).map Prod.fst).eraseDups

theorem newDeclarations_cons_of_known {d : String × String} {ds : List (String × String)}
    (h : d.1 ∈ (declarations as).map Prod.fst) :
    newDeclarations (d :: ds) as = newDeclarations ds as := by
  unfold newDeclarations
  rw [List.filter_cons_of_neg (by simpa using h)]

/-- The first new declaration is followed by those that are new once it stands. -/
theorem newDeclarations_cons_of_free {d : String × String} {ds : List (String × String)}
    (hds : ∀ b ∈ ds, b.1 = d.1 → b = d) (h : d.1 ∉ (declarations as).map Prod.fst)
    {bs : List Attribute}
    (hbs : (declarations bs).map Prod.fst = (declarations as).map Prod.fst ++ [d.1]) :
    newDeclarations (d :: ds) as = d :: newDeclarations ds bs := by
  unfold newDeclarations
  rw [List.filter_cons_of_pos (by simpa using h), List.eraseDups_cons, List.filter_filter, hbs]
  congr 2
  refine List.filter_congr fun b hb => ?_
  have hsame : b = d ↔ b.1 = d.1 := ⟨congrArg Prod.fst, hds b hb⟩
  rw [Bool.eq_iff_iff, Bool.and_eq_true, Bool.not_eq_true', beq_eq_false_iff_ne,
    decide_eq_true_iff, decide_eq_true_iff, List.mem_append, List.mem_singleton, Ne, hsame]
  exact ⟨fun h => not_or.2 ⟨h.2, h.1⟩, fun h => ⟨(not_or.1 h).2, (not_or.1 h).1⟩⟩

/-- Prefixes that are declared one after the other come to stand where the attributes split. A prefix
may be given repeatedly, for one namespace. -/
theorem declareEach_of_split {ds : List (String × String)}
    (hds : ∀ d ∈ ds, ∀ b ∈ ds, b.1 = d.1 → b = d) (h : SplitBehindLast as front rest) :
    declareEach ds as =
      front ++ (newDeclarations ds as).map (fun d => declaration d.1 d.2) ++ rest := by
  induction ds generalizing as front with
  | nil =>
    show as = front ++ [] ++ rest
    rw [List.append_nil, h.split]
  | cons d ds ih =>
    have hrest : ∀ d ∈ ds, ∀ b ∈ ds, b.1 = d.1 → b = d := fun d hd b hb =>
      hds d (List.mem_cons_of_mem _ hd) b (List.mem_cons_of_mem _ hb)
    rw [declareEach_cons]
    cases hd : declare? d.1 d.2 as with
    | none =>
      rw [Option.getD_none, ih hrest h, newDeclarations_cons_of_known (declare?_eq_none_iff.1 hd)]
    | some bs =>
      obtain ⟨hfree, hbs⟩ := prefixes_declare? hd
      have hsplit := h.insert (isDeclaration_declaration d.1 d.2)
      rw [← declare?_eq_some hd] at hsplit
      rw [Option.getD_some, ih hrest hsplit,
        newDeclarations_cons_of_free (fun b hb => hds d List.mem_cons_self b
          (List.mem_cons_of_mem d hb)) hfree hbs, List.map_cons]
      simp only [List.append_assoc, List.cons_append, List.nil_append]

end MarkupFields.Attribute
