import MarkupFields.Namespaces
import MarkupFields.Proofs.Markup.Meaning
import Mathlib.Data.List.Nodup

/-
  What a registry binds, over all its history. A registry starts empty, with collected bindings or with
  the declarations of a document, and afterwards prefixes are declared, with or without success
  (`Reached`). All that ever happens is that a free prefix is bound behind the others
  (`declareIfFree_of_none`), so the bindings of a prefix add up to the first that was given for it
  (`uri?_foldl`). Hence a registry is consistent all along: prefixes are distinct, what one stands for
  stays so, and looking up a prefix and looking up a namespace agree (`Reached.consistent`).

  What a path or an element makes of a prefix is not said here.
-/

namespace MarkupFields.Namespaces

/-! ## One call -/

variable {r : Namespaces}

theorem declareIfFree_of_none {b : String × String} (h : r.uri? b.1 = none) :
    r.declareIfFree b = ⟨r.bindings ++ [b]⟩ := by
  unfold declareIfFree declare
  rw [h]

theorem declareIfFree_of_some {b : String × String} {u : String} (h : r.uri? b.1 = some u) :
    r.declareIfFree b = r := by
  unfold declareIfFree declare
  rw [h]
  dsimp only
  by_cases hu : u = b.2
  · rw [if_pos hu]
  · rw [if_neg hu]

/-- A binding behind the others counts for its prefix if no other does. -/
theorem uri?_concat (bs : List (String × String)) (b : String × String) (q : String) :
    (⟨bs ++ [b]⟩ : Namespaces).uri? q =
      ((⟨bs⟩ : Namespaces).uri? q).or (if q = b.1 then some b.2 else none) := by
  unfold uri?
  by_cases hxml : q = "xml"
  · rw [if_pos hxml, if_pos hxml, Option.some_or]
  · rw [if_neg hxml, if_neg hxml, List.lookup_append, List.lookup_cons]
    by_cases hq : q = b.1
    · rw [if_pos hq, beq_iff_eq.2 hq]
    · rw [if_neg hq, beq_eq_false_iff_ne.2 hq]
      rfl

theorem uri?_declareIfFree (r : Namespaces) (b : String × String) (q : String) :
    (r.declareIfFree b).uri? q = (r.uri? q).or (if q = b.1 then some b.2 else none) := by
  cases h : r.uri? b.1 with
  | none => rw [declareIfFree_of_none h, uri?_concat]
  | some u =>
    rw [declareIfFree_of_some h]
    by_cases hq : q = b.1
    · rw [hq, h, Option.some_or]
    · rw [if_neg hq, Option.or_none]

/-! ## Many calls -/

/-- A prefix stands for what it stood for, or else for the first that it was declared as. -/
theorem uri?_foldl (bs : List (String × String)) (r : Namespaces) (q : String) :
    (bs.foldl declareIfFree r).uri? q = (r.uri? q).or (bs.lookup q) := by
  induction bs generalizing r with
  | nil => exact (Option.or_none).symm
  | cons b bs ih =>
    rw [List.foldl_cons, ih, uri?_declareIfFree, Option.or_assoc, List.lookup_cons]
    by_cases hq : q = b.1
    · rw [if_pos hq, beq_iff_eq.2 hq, Option.some_or]
    · rw [if_neg hq, beq_eq_false_iff_ne.2 hq, Option.none_or]

/-- Collected bindings: the first of a prefix counts, whatever comes behind it. -/
theorem uri?_ofList (bs : List (String × String)) {q : String} (hq : q ≠ "xml") :
    (ofList bs).uri? q = bs.lookup q := by
  have hempty : empty.uri? q = none := if_neg hq
  unfold ofList
  rw [uri?_foldl, hempty, Option.none_or]

/-! ## Consistency -/

/-- The registries that there are: new ones, and what calls make of one, whatever they answer. -/
inductive Reached : Namespaces → Prop
  | new : Reached empty
  | collected (bs : List (String × String)) : Reached (ofList bs)
  | declared (m : Markup) : Reached (ofMarkup m)
  | declare {r : Namespaces} (before : Reached r) (p uri : String) :
      Reached (r.declareIfFree (p, uri))

/-- The prefix is bound to the namespace, or it is the one that always names it. -/
def StandsFor (r : Namespaces) (p uri : String) : Prop :=
  p = "xml" ∧ uri = xmlNamespace ∨ (p, uri) ∈ r.bindings

/-- The prefix is the first that was bound to the namespace; the one that needs no binding comes
first of all. -/
def BoundFirst (r : Namespaces) (p uri : String) : Prop :=
  if uri = xmlNamespace then p = "xml"
  else ∃ before after, r.bindings = before ++ (p, uri) :: after ∧ ∀ b ∈ before, b.2 ≠ uri

/-- No prefix is bound twice, and the one that needs no binding is not bound at all. -/
structure Sound (r : Namespaces) : Prop where
  distinct : (r.bindings.map Prod.fst).Nodup
  ordinary : "xml" ∉ r.bindings.map Prod.fst

/-- The bindings are sound. A prefix that stands for a namespace is resolved to it, now and after any
calls. A call succeeds exactly if its prefix stands for nothing yet or for what it asks for, and adds
no more than that; otherwise it reports what the prefix stands for, and nothing changes. The prefix
that is found for a namespace is the first that was bound to it, and it is resolved to this
namespace. -/
structure Consistent (r : Namespaces) : Prop extends Sound r where
  resolved : ∀ p uri, r.uri? p = some uri ↔ r.StandsFor p uri
  kept : ∀ (calls : List (String × String)) p uri, r.uri? p = some uri →
    (calls.foldl declareIfFree r).uri? p = some uri
  accepted : ∀ p uri, (∃ r', r.declare p uri = .ok r') ↔
    (∀ v, ¬ r.StandsFor p v) ∨ r.StandsFor p uri
  bound : ∀ p uri r', r.declare p uri = .ok r' → r.declareIfFree (p, uri) = r' ∧
    ∀ q v, r'.StandsFor q v ↔ (q = p ∧ v = uri) ∨ r.StandsFor q v
  refused : ∀ p uri c, r.declare p uri = .error c → r.declareIfFree (p, uri) = r ∧
    ∃ v, r.StandsFor p v ∧ v ≠ uri ∧ c = ⟨p, v, uri⟩
  found : ∀ p uri, r.prefixOf? uri = some p → r.uri? p = some uri ∧ r.BoundFirst p uri

theorem sound_empty : Sound empty :=
  ⟨.nil, List.not_mem_nil⟩

theorem lookup_eq_none_of_uri? {p : String} (h : r.uri? p = none) :
    p ≠ "xml" ∧ p ∉ r.bindings.map Prod.fst := by
  have hxml : p ≠ "xml" := by
    rintro rfl
    cases h
  unfold uri? at h
  rw [if_neg hxml, List.lookup_eq_none_iff] at h
  refine ⟨hxml, fun hp => ?_⟩
  obtain ⟨b, hb, rfl⟩ := List.mem_map.1 hp
  exact bne_iff_ne.1 (h b hb) rfl

/-- One call keeps the bindings sound. -/
theorem Sound.declareIfFree (h : r.Sound) (b : String × String) : (r.declareIfFree b).Sound := by
  cases hb : r.uri? b.1 with
  | some u => rwa [declareIfFree_of_some hb]
  | none =>
    obtain ⟨hxml, hfree⟩ := lookup_eq_none_of_uri? hb
    rw [declareIfFree_of_none hb]
    refine ⟨?_, ?_⟩
    · rw [List.map_append, List.map_singleton, ← List.concat_eq_append]
      exact h.distinct.concat hfree
    · rw [List.map_append, List.mem_append, not_or]
      exact ⟨h.ordinary, fun hmem => hxml (List.mem_singleton.1 hmem).symm⟩

theorem Sound.foldl (h : r.Sound) (bs : List (String × String)) :
    (bs.foldl Namespaces.declareIfFree r).Sound := by
  induction bs generalizing r with
  | nil => exact h
  | cons b bs ih => exact ih (h.declareIfFree b)

theorem Reached.sound (h : Reached r) : r.Sound := by
  induction h with
  | new => exact sound_empty
  | collected bs => exact sound_empty.foldl bs
  | declared m => exact sound_empty.foldl _
  | declare _ p uri ih => exact ih.declareIfFree (p, uri)

theorem Sound.uri?_eq_some_iff (h : r.Sound) {p uri : String} :
    r.uri? p = some uri ↔ r.StandsFor p uri := by
  unfold uri? StandsFor
  constructor
  · intro hp
    by_cases hxml : p = "xml"
    · rw [if_pos hxml, Option.some.injEq] at hp
      exact .inl ⟨hxml, hp.symm⟩
    · rw [if_neg hxml] at hp
      exact .inr (mem_of_lookup hp)
  · rintro (⟨rfl, rfl⟩ | hmem)
    · rfl
    · have hxml : p ≠ "xml" := by
        rintro rfl
        exact h.ordinary (List.mem_map_of_mem hmem)
      rw [if_neg hxml]
      exact lookup_of_mem h.distinct hmem

/-- The three answers to a call. -/
theorem declare_cases (r : Namespaces) (p uri : String) :
    (r.uri? p = none ∧ r.declare p uri = .ok ⟨r.bindings ++ [(p, uri)]⟩) ∨
      (r.uri? p = some uri ∧ r.declare p uri = .ok r) ∨
      ∃ v, r.uri? p = some v ∧ v ≠ uri ∧ r.declare p uri = .error ⟨p, v, uri⟩ := by
  unfold declare
  cases hp : r.uri? p with
  | none => exact .inl ⟨rfl, rfl⟩
  | some v =>
    dsimp only
    by_cases hv : v = uri
    · rw [if_pos hv, hv]
      exact .inr (.inl ⟨rfl, rfl⟩)
    · rw [if_neg hv]
      exact .inr (.inr ⟨v, rfl, hv, rfl⟩)

theorem prefixOf?_eq_some_iff {p uri : String} : r.prefixOf? uri = some p ↔ r.BoundFirst p uri := by
  unfold prefixOf? BoundFirst
  split
  · rw [Option.some.injEq]
    exact eq_comm
  · constructor
    · intro h
      obtain ⟨b, hb, rfl⟩ := Option.map_eq_some_iff.1 h
      obtain ⟨huri, before, after, hsplit, hbefore⟩ := List.find?_eq_some_iff_append.1 hb
      rw [beq_iff_eq] at huri
      subst huri
      exact ⟨before, after, hsplit, fun c hc => by simpa using hbefore c hc⟩
    · rintro ⟨before, after, hsplit, hbefore⟩
      refine Option.map_eq_some_iff.2 ⟨(p, uri), List.find?_eq_some_iff_append.2 ?_, rfl⟩
      exact ⟨beq_self_eq_true uri, before, after, hsplit, fun c hc => by simpa using hbefore c hc⟩

theorem BoundFirst.standsFor {p uri : String} (h : r.BoundFirst p uri) : r.StandsFor p uri := by
  unfold BoundFirst at h
  split at h
  · rename_i huri
    exact .inl ⟨h, huri⟩
  · obtain ⟨before, after, hsplit, -⟩ := h
    exact .inr (hsplit ▸ List.mem_append_right _ List.mem_cons_self)

/-- A call that is not refused adds what it asks for, and nothing else. -/
theorem uri?_eq_some_iff_of_declare {r' : Namespaces} {p uri : String} (h : r.declare p uri = .ok r')
    (q v : String) : r'.uri? q = some v ↔ (q = p ∧ v = uri) ∨ r.uri? q = some v := by
  rcases declare_cases r p uri with ⟨hp, hd⟩ | ⟨hp, hd⟩ | ⟨w, -, -, hd⟩
  · rw [hd, Except.ok.injEq] at h
    rw [← h, uri?_concat]
    by_cases hq : q = p
    · rw [if_pos hq, hq, hp, Option.none_or, Option.some.injEq]
      simp [eq_comm]
    · rw [if_neg hq, Option.or_none]
      simp [hq]
  · rw [hd, Except.ok.injEq] at h
    subst h
    refine ⟨.inr, ?_⟩
    rintro (⟨rfl, rfl⟩ | hq)
    · exact hp
    · exact hq
  · rw [hd] at h
    cases h

/-- Sound bindings are consistent. -/
theorem consistent_of_sound (h : r.Sound) : r.Consistent where
  toSound := h
  resolved p uri := h.uri?_eq_some_iff
  kept calls p uri hp := by rw [uri?_foldl, hp, Option.some_or]
  accepted p uri := by
    simp only [← h.uri?_eq_some_iff]
    rcases declare_cases r p uri with ⟨hp, hd⟩ | ⟨hp, hd⟩ | ⟨v, hp, hv, hd⟩
    · exact iff_of_true ⟨_, hd⟩ (.inl fun v hv => by rw [hp] at hv; cases hv)
    · exact iff_of_true ⟨_, hd⟩ (.inr hp)
    · refine iff_of_false ?_ ?_
      · rintro ⟨r', hr'⟩
        rw [hd] at hr'
        cases hr'
      · rintro (hfree | hsame)
        · exact hfree v hp
        · exact hv (Option.some.inj (hp.symm.trans hsame))
  bound p uri r' hr' := by
    have hafter : r.declareIfFree (p, uri) = r' := by
      unfold Namespaces.declareIfFree
      rw [hr']
    have hsound : r'.Sound := hafter ▸ h.declareIfFree (p, uri)
    refine ⟨hafter, fun q v => ?_⟩
    rw [← hsound.uri?_eq_some_iff, ← h.uri?_eq_some_iff]
    exact uri?_eq_some_iff_of_declare hr' q v
  refused p uri c hc := by
    rcases declare_cases r p uri with ⟨hp, hd⟩ | ⟨hp, hd⟩ | ⟨v, hp, hv, hd⟩
    · rw [hd] at hc
      cases hc
    · rw [hd] at hc
      cases hc
    · refine ⟨declareIfFree_of_some hp, v, h.uri?_eq_some_iff.1 hp, hv, ?_⟩
      rw [hd, Except.error.injEq] at hc
      exact hc.symm
  found p uri hp :=
    have hfirst := prefixOf?_eq_some_iff.1 hp
    ⟨h.uri?_eq_some_iff.2 hfirst.standsFor, hfirst⟩

/-! ## Documents -/

/-- The namespace is the first that the markup declares for the prefix, in document order, without
those declarations that take a namespace back. -/
def DeclaredFirst (m : Markup) (p uri : String) : Prop :=
  uri ≠ "" ∧ ∃ before after, declarationsIn m.top = before ++ (p, uri) :: after ∧
    ∀ b ∈ before, b.1 = p → b.2 = ""

/-- The registry of a document resolves a prefix to what was declared first. -/
theorem uri?_ofMarkup (m : Markup) {p : String} (hp : p ≠ "xml") (uri : String) :
    (ofMarkup m).uri? p = some uri ↔ DeclaredFirst m p uri := by
  unfold ofMarkup DeclaredFirst
  rw [uri?_ofList _ hp, List.lookup_eq_some_iff]
  constructor
  · rintro ⟨first, rest, hsplit, hfirst⟩
    obtain ⟨before, others, hall, rfl, hothers⟩ := List.filter_eq_append_iff.1 hsplit
    obtain ⟨skipped, after, rfl, hskipped, hkept, -⟩ := List.filter_eq_cons_iff.1 hothers
    refine ⟨bne_iff_ne.1 hkept, before ++ skipped, after, ?_, fun b hb hbp => ?_⟩
    · rw [hall, List.append_assoc]
    · by_contra hne
      have hkeep : (b.2 != "") = true := bne_iff_ne.2 hne
      rcases List.mem_append.1 hb with hb | hb
      · exact bne_iff_ne.1 (hfirst b (List.mem_filter.2 ⟨hb, hkeep⟩)) hbp.symm
      · exact hskipped b hb hkeep
  · rintro ⟨hne, before, after, hall, hbefore⟩
    refine ⟨before.filter (fun b => b.2 != ""), after.filter (fun b => b.2 != ""), ?_, ?_⟩
    · rw [hall, List.filter_append, List.filter_cons_of_pos (by simpa using hne)]
    · intro b hb
      obtain ⟨hb, hkeep⟩ := List.mem_filter.1 hb
      exact bne_iff_ne.2 fun hbp => bne_iff_ne.1 hkeep (hbefore b hb hbp.symm)

/-- Every registry is consistent, whatever it was made from and whatever was declared since. The
registry of a document resolves each prefix but the one that needs no binding to the first namespace
that the document declares for it, if there is one. -/
theorem Reached.consistent :
    (∀ r, Reached r → r.Consistent) ∧
      ∀ (d : Document) (p : String), p ≠ "xml" → ∀ uri,
        (ofMarkup d.markup).uri? p = some uri ↔ DeclaredFirst d.markup p uri :=
  ⟨fun _ h => consistent_of_sound h.sound, fun d _ hp uri => uri?_ofMarkup d.markup hp uri⟩

/-- A prefix that is taken back, declared, declared otherwise inside and asked for again, beside two
prefixes of one namespace. -/
theorem Reached.consistent_rebound :
    let m : Markup := ⟨.absent, .cons (.element ⟨.plain "r", none,
        [.declaration "" "", .declaration "x" "urn:x"]⟩)
      (.cons (.element ⟨.plain "a", none, [.declaration "x" "urn:y", .declaration "" "urn:x"]⟩)
        .nil .nil) .nil⟩
    let r := (ofMarkup m).declareIfFree ("x", "urn:z")
    Reached r ∧ r.Consistent ∧ r.bindings = [("x", "urn:x"), ("", "urn:x")] ∧
      "" ≠ "xml" ∧ DeclaredFirst m "" "urn:x" := by
  intro m r
  have hr : Reached r := .declare (.declared m) "x" "urn:z"
  have hplain : "" ≠ "xml" := by decide
  refine ⟨hr, Reached.consistent.1 r hr, by decide, hplain, ?_⟩
  have hmarkup : (Document.ofMarkup m).markup = m := Document.markup_ofMarkup m
  have hfirst := (Reached.consistent.2 (Document.ofMarkup m) "" hplain "urn:x").1
  rw [hmarkup] at hfirst
  exact hfirst (by decide)

end MarkupFields.Namespaces
