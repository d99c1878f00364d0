import MarkupFields.Tree.Node
import Mathlib.Data.List.Basic

/-
  Setting an attribute. Local name and namespace are the key of a regular attribute. Setting one puts
  it where its key stands, or last: the keys stay distinct, the declarations stay as they are, and the
  first attribute with the key is the new one. What is set again leaves no trace of what was set before.
-/

namespace MarkupFields.Attribute

/-- What tells regular attributes of an element apart. -/
def key (a : Attribute) : String × Option String :=
  (a.name.localName, a.namespaceUri)

/-- The keys of the regular attributes, in order. -/
def keys (as : List Attribute) : List (String × Option String) :=
  (as.filter fun a => !a.isDeclaration).map key

theorem keys_cons_of_regular {a : Attribute} (h : a.isDeclaration = false) (as : List Attribute) :
    keys (a :: as) = a.key :: keys as := by
  unfold keys
  rw [List.filter_cons_of_pos (by simp [h]), List.map_cons]

theorem keys_cons_of_declaration {a : Attribute} (h : a.isDeclaration = true)
    (as : List Attribute) : keys (a :: as) = keys as := by
  unfold keys
  rw [List.filter_cons_of_neg (by simp [h])]

/-- The attribute is regular and has the key. -/
def hasKey (k : String × Option String) (a : Attribute) : Bool :=
  !a.isDeclaration && a.key == k

theorem hasKey_iff {k : String × Option String} {a : Attribute} :
    hasKey k a = true ↔ a.isDeclaration = false ∧ a.key = k := by
  unfold hasKey
  rw [Bool.and_eq_true, Bool.not_eq_true', beq_iff_eq]

/-- A regular attribute has a key if local name and namespace are those of the key. -/
theorem hasKey_of_regular {a b : Attribute} (hb : b.isDeclaration = false) :
    hasKey a.key b =
      (b.name.localName == a.name.localName && a.namespaceUri == b.namespaceUri) := by
  rw [Bool.eq_iff_iff, hasKey_iff, Bool.and_eq_true, beq_iff_eq, beq_iff_eq]
  constructor
  · intro h
    exact ⟨congrArg Prod.fst h.2, (congrArg Prod.snd h.2).symm⟩
  · intro h
    exact ⟨hb, Prod.ext h.1 h.2.symm⟩

/-- An attribute is set in the place of the first with its key. -/
theorem set_cons (a b : Attribute) (bs : List Attribute) :
    a.set (b :: bs) = if hasKey a.key b then a :: bs else b :: a.set bs := by
  have htest : (!b.isDeclaration && b.name.localName == a.name.localName &&
      b.namespaceUri == a.namespaceUri) = hasKey a.key b := by
    rw [Bool.eq_iff_iff, hasKey_iff, Bool.and_eq_true, Bool.and_eq_true, Bool.not_eq_true',
      beq_iff_eq, beq_iff_eq, and_assoc]
    unfold key
    rw [Prod.mk.injEq]
  rw [set, htest]
  split
  · rename_i h
    obtain ⟨-, hkey⟩ := hasKey_iff.1 h
    unfold key at hkey
    rw [Prod.mk.injEq] at hkey
    obtain ⟨⟨nsPrefix, localName⟩, uri, value⟩ := a
    dsimp only at hkey ⊢
    rw [hkey.1, hkey.2]
  · rfl

theorem mem_set {a b : Attribute} {as : List Attribute} (h : b ∈ a.set as) : b = a ∨ b ∈ as := by
  induction as with
  | nil => exact .inl (List.mem_singleton.1 h)
  | cons c as ih =>
    rw [set_cons] at h
    split at h
    · exact (List.mem_cons.1 h).imp_right (List.mem_cons_of_mem c)
    · rcases List.mem_cons.1 h with rfl | h
      · exact .inr List.mem_cons_self
      · exact (ih h).imp_right (List.mem_cons_of_mem c)

/-- Of two attributes with one key that are set one after the other the second stays. -/
theorem set_set {a b : Attribute} (ha : a.isDeclaration = false) (hkey : b.key = a.key)
    (as : List Attribute) : b.set (a.set as) = b.set as := by
  have hself : hasKey b.key a = true := hasKey_iff.2 ⟨ha, hkey.symm⟩
  induction as with
  | nil =>
    show b.set [a] = [b]
    rw [set_cons, if_pos hself]
  | cons c cs ih =>
    rw [set_cons a, set_cons b, hkey]
    split
    · rw [set_cons, if_pos hself]
    · rename_i h
      rw [set_cons, hkey, if_neg h, ih]

/-- Setting an attribute does not matter for the others. -/
theorem find?_set_of_ne {a : Attribute} {k : String × Option String} (hk : k ≠ a.key)
    (as : List Attribute) : (a.set as).find? (hasKey k) = as.find? (hasKey k) := by
  have hself : ¬ hasKey k a = true := fun h => hk (hasKey_iff.1 h).2.symm
  induction as with
  | nil => exact List.find?_cons_of_neg hself
  | cons b bs ih =>
    rw [set_cons]
    split
    · rename_i h
      have hb : ¬ hasKey k b = true :=
        fun h' => hk ((hasKey_iff.1 h').2.symm.trans (hasKey_iff.1 h).2)
      rw [List.find?_cons_of_neg hself, List.find?_cons_of_neg hb]
    · rw [List.find?_cons, List.find?_cons, ih]

/-- Only the regular attributes matter for what has a key. -/
theorem find?_regular (k : String × Option String) (as : List Attribute) :
    (as.filter fun a => !a.isDeclaration).find? (hasKey k) = as.find? (hasKey k) := by
  rw [List.find?_filter]
  congr 1
  funext a
  rw [Bool.eq_iff_iff, decide_eq_true_iff, hasKey_iff]
  cases a.isDeclaration <;> simp

variable {a : Attribute} (ha : a.isDeclaration = false)
include ha

theorem declarations_set (as : List Attribute) : declarations (a.set as) = declarations as := by
  have hnone : ∀ b : Attribute, b.isDeclaration = false → declarations [b] = [] := by
    intro b hb
    have hdeclares : b.declares = none :=
      Option.isNone_iff_eq_none.1 (Option.isSome_eq_false_iff.1 hb)
    unfold declarations
    rw [List.filterMap_cons, hdeclares]
    rfl
  have hcons : ∀ (b : Attribute) (bs : List Attribute),
      declarations (b :: bs) = declarations [b] ++ declarations bs :=
    fun b bs => List.filterMap_append (l := [b])
  induction as with
  | nil => exact hnone a ha
  | cons b bs ih =>
    rw [set_cons]
    split
    · rename_i h
      rw [hcons a, hcons b, hnone a ha, hnone b (hasKey_iff.1 h).1]
    · rw [hcons b, ih, ← hcons b]

/-- Setting an attribute adds its key unless it is there. -/
theorem keys_set (as : List Attribute) :
    keys (a.set as) = if a.key ∈ keys as then keys as else keys as ++ [a.key] := by
  induction as with
  | nil =>
    have hnil : keys [] = [] := rfl
    show keys [a] = _
    rw [keys_cons_of_regular ha, hnil, if_neg List.not_mem_nil]
    rfl
  | cons b bs ih =>
    rw [set_cons]
    by_cases hb : b.isDeclaration = true
    · have hne : ¬ hasKey a.key b = true := by
        rw [hasKey_iff, hb]
        exact fun h => Bool.noConfusion h.1
      rw [if_neg hne, keys_cons_of_declaration hb, keys_cons_of_declaration hb, ih]
    · rw [Bool.not_eq_true] at hb
      rw [keys_cons_of_regular hb]
      by_cases hkey : b.key = a.key
      · rw [if_pos (hasKey_iff.2 ⟨hb, hkey⟩), if_pos (hkey ▸ List.mem_cons_self),
          keys_cons_of_regular ha, hkey]
      · have hne : ¬ hasKey a.key b = true := fun h => hkey (hasKey_iff.1 h).2
        rw [if_neg hne, keys_cons_of_regular hb, ih]
        by_cases hmem : a.key ∈ keys bs
        · rw [if_pos hmem, if_pos (List.mem_cons_of_mem _ hmem)]
        · have hmem' : a.key ∉ b.key :: keys bs := by
            rw [List.mem_cons]
            rintro (h | h)
            · exact hkey h.symm
            · exact hmem h
          rw [if_neg hmem, if_neg hmem', List.cons_append]

theorem nodup_keys_set {as : List Attribute} (h : (keys as).Nodup) : (keys (a.set as)).Nodup := by
  rw [keys_set ha]
  split
  · exact h
  · rename_i hmem
    exact List.nodup_append.2 ⟨h, List.nodup_cons.2 ⟨List.not_mem_nil, .nil⟩, by
      intro x hx y hy hxy
      rw [List.mem_singleton.1 hy] at hxy
      exact hmem (hxy ▸ hx)⟩

/-- The first attribute with the key is the one that was set. -/
theorem find?_set (as : List Attribute) : (a.set as).find? (hasKey a.key) = some a := by
  have hself : hasKey a.key a = true := hasKey_iff.2 ⟨ha, rfl⟩
  induction as with
  | nil => exact List.find?_cons_of_pos hself
  | cons b bs ih =>
    rw [set_cons]
    split
    · exact List.find?_cons_of_pos hself
    · rename_i h
      rw [List.find?_cons_of_neg h, ih]

end MarkupFields.Attribute
