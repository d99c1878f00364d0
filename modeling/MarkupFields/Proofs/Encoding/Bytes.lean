import MarkupFields.Encoding.Decode
import MarkupFields.Proofs.Markup.Runs

/-
  Searching text and searching its bytes. UTF-8 keeps the first place of a mark: the bytes of a mark
  begin where the mark begins in the text, since a byte that goes on with a character never begins one
  (`around?_utf8Bytes`). Where a search sees the first bytes only, it finds the mark if the whole mark is
  among them (`around?_take`).
-/

namespace MarkupFields

open Scan

namespace Text

/-! ## First places -/

section
variable {α : Type} [DecidableEq α] {mark before rest l : List α}

theorem around?_of_after? (h : after? mark l = some rest) : around? mark l = some ([], rest) := by
  cases l with
  | nil =>
    unfold around?
    rw [h]
    rfl
  | cons a l =>
    unfold around?
    rw [h]

theorem around?_cons {a : α} (h : after? mark (a :: l) = none) :
    around? mark (a :: l) = (around? mark l).map fun p => (a :: p.1, p.2) := by
  rw [around?, h]

/-- Whether a mark stands at the front is decided by as many places as it has. -/
theorem after?_append_of_length_le (h : mark.length ≤ l.length) (tail : List α) :
    after? mark (l ++ tail) = (after? mark l).map (· ++ tail) := by
  induction mark generalizing l with
  | nil => rfl
  | cons m ms ih =>
    cases l with
    | nil => cases h
    | cons a l =>
      rw [List.cons_append, after?, after?]
      split
      · exact ih (Nat.le_of_succ_le_succ h)
      · rfl

/-- The first place of a mark does not depend on what follows it. -/
theorem around?_congr (h : around? mark (before ++ mark ++ rest) = some (before, rest))
    (rest' : List α) : around? mark (before ++ mark ++ rest') = some (before, rest') := by
  induction before with
  | nil => exact around?_of_after? (after?_eq_some_iff.2 rfl)
  | cons a before ih =>
    have hlen : mark.length ≤ (a :: (before ++ mark)).length := by
      rw [List.length_cons, List.length_append]
      omega
    rw [List.cons_append, List.cons_append] at h ⊢
    cases hfront : after? mark (a :: (before ++ mark)) with
    | some r =>
      have hfound := after?_append_of_length_le hlen rest
      rw [hfront, List.cons_append] at hfound
      rw [around?_of_after? hfound] at h
      cases h
    | none =>
      have hnone : ∀ tail, after? mark (a :: (before ++ mark ++ tail)) = none := by
        intro tail
        have := after?_append_of_length_le hlen tail
        rwa [hfront] at this
      rw [around?_cons (hnone rest)] at h
      obtain ⟨p, hp, he⟩ := Option.map_eq_some_iff.1 h
      rw [Prod.mk.injEq, List.cons.injEq] at he
      rw [around?_cons (hnone rest'), ih (by rw [hp, ← he.1.2, ← he.2])]
      rfl

/-- A mark at the front is seen in as many places as it has. -/
theorem after?_take {n : Nat} (h : mark.length ≤ n) (l : List α) :
    after? mark (l.take n) = (after? mark l).map (·.take (n - mark.length)) := by
  cases hl : after? mark l with
  | some rest =>
    rw [after?_eq_some_iff] at hl
    rw [hl, List.take_append, List.take_of_length_le h]
    exact after?_eq_some_iff.2 rfl
  | none =>
    cases htake : after? mark (l.take n) with
    | none => rfl
    | some rest =>
      rw [after?_eq_some_iff] at htake
      have hwhole : after? mark l = some (rest ++ l.drop n) := by
        rw [after?_eq_some_iff, ← List.append_assoc, ← htake, List.take_append_drop]
      rw [hl] at hwhole
      cases hwhole

/-- A mark that is found among the first places of a list is found there in the whole list. -/
theorem around?_of_take {n : Nat} (h : around? mark (l.take n) = some (before, rest)) :
    around? mark l = some (before, rest ++ l.drop n) := by
  have htake := around?_eq_some h
  have hsplit : l = before ++ mark ++ (rest ++ l.drop n) := by
    rw [← List.append_assoc, ← htake, List.take_append_drop]
  rw [htake] at h
  have hwhole := around?_congr h (rest ++ l.drop n)
  rwa [← hsplit] at hwhole

/-- Among the first places of a list, a mark is found if all of it is among them. -/
theorem around?_take (mark l : List α) (n : Nat) :
    around? mark (l.take n) =
      (around? mark l).bind fun p =>
        if p.1.length + mark.length ≤ n then
          some (p.1, p.2.take (n - (p.1.length + mark.length)))
        else none := by
  cases h : around? mark l with
  | none =>
    cases hfirst : around? mark (l.take n) with
    | none => rfl
    | some p =>
      have hwhole := around?_of_take hfirst
      rw [h] at hwhole
      cases hwhole
  | some p =>
    have hl := around?_eq_some h
    rw [Option.bind_some]
    split
    · rename_i hn
      rw [hl] at h ⊢
      rw [List.take_append, List.take_of_length_le (by rw [List.length_append]; exact hn),
        List.length_append]
      exact around?_congr h _
    · rename_i hn
      cases hfirst : around? mark (l.take n) with
      | none => rfl
      | some q =>
        -- the place would be the first one in the whole list, where there is no room for it
        have hlen := congrArg List.length (around?_eq_some hfirst)
        have hwhole := around?_of_take hfirst
        rw [h, Option.some.injEq] at hwhole
        subst hwhole
        rw [List.length_take, List.length_append, List.length_append] at hlen
        dsimp only at hn
        omega

/-- Where nothing is the first part of the mark, the mark does not begin. -/
theorem around?_append_of_forall_ne {m : α} {ms front : List α} (h : ∀ a ∈ front, a ≠ m)
    (tail : List α) :
    around? (m :: ms) (front ++ tail) =
      (around? (m :: ms) tail).map fun p => (front ++ p.1, p.2) := by
  induction front with
  | nil => exact (Option.map_id' (x := around? (m :: ms) tail)).symm
  | cons a front ih =>
    have hnext : after? (m :: ms) (a :: (front ++ tail)) = none := by
      rw [after?, if_neg (h a List.mem_cons_self).symm]
    rw [List.cons_append, around?_cons hnext, ih fun b hb => h b (List.mem_cons_of_mem a hb),
      Option.map_map]
    rfl

/-- A mark has no place where one of its parts does not occur. -/
theorem around?_eq_none_of_notMem {x : α} (hx : x ∈ mark) (hl : x ∉ l) : around? mark l = none := by
  cases h : around? mark l with
  | none => rfl
  | some p =>
    rw [around?_eq_some h] at hl
    exact absurd (List.mem_append_left _ (List.mem_append_right _ hx)) hl

/-- A mark does not begin in front of something that is no part of it and end behind. -/
theorem after?_append_of_notMem {y : α} (hy : y ∉ mark) (hmem : y ∈ l)
    (hnone : after? mark l = none) (rest : List α) : after? mark (l ++ rest) = none := by
  cases h : after? mark (l ++ rest) with
  | none => rfl
  | some r =>
    rw [after?_eq_some_iff] at h
    rcases List.prefix_or_prefix_of_prefix (List.prefix_append l rest) ⟨r, h.symm⟩ with hp | hp
    · exact absurd (hp.subset hmem) hy
    · obtain ⟨r', hr'⟩ := hp
      rw [after?_eq_some_iff.2 hr'.symm] at hnone
      cases hnone

/-- Up to something that is not part of the mark, nothing belongs to what follows. -/
theorem around?_append_of_notMem {y : α} (hy : y ∉ mark) (hnone : around? mark (l ++ [y]) = none)
    (rest : List α) : around? mark (l ++ [y] ++ mark ++ rest) = some (l ++ [y], rest) := by
  induction l with
  | nil =>
    cases hy' : after? mark [y] with
    | some r =>
      rw [List.nil_append, around?_of_after? hy'] at hnone
      cases hnone
    | none =>
      have hnext := after?_append_of_notMem hy List.mem_cons_self hy' (mark ++ rest)
      rw [List.nil_append, List.append_assoc]
      rw [List.singleton_append] at hnext ⊢
      rw [around?_cons hnext, around?_of_after? (after?_eq_some_iff.2 rfl)]
      rfl
  | cons a l ih =>
    rw [List.cons_append] at hnone
    cases ha : after? mark (a :: (l ++ [y])) with
    | some r =>
      rw [around?_of_after? ha] at hnone
      cases hnone
    | none =>
      rw [around?_cons ha, Option.map_eq_none_iff] at hnone
      have hmem : y ∈ a :: (l ++ [y]) := List.mem_cons_of_mem a List.mem_concat_self
      have hnext := after?_append_of_notMem hy hmem ha (mark ++ rest)
      rw [List.cons_append, ← List.append_assoc] at hnext
      rw [List.cons_append, List.cons_append, List.cons_append, around?_cons hnext, ih hnone]
      rfl

end

/-! ## Bytes of text -/

theorem utf8Bytes_cons (c : Char) (cs : List Char) :
    utf8Bytes (c :: cs) = String.utf8EncodeChar c ++ utf8Bytes cs :=
  List.flatMap_cons

theorem utf8Bytes_append (cs ds : List Char) :
    utf8Bytes (cs ++ ds) = utf8Bytes cs ++ utf8Bytes ds :=
  List.flatMap_append

theorem toUTF8_data (t : String) : t.toUTF8.data.toList = utf8Bytes t.toList := by
  rw [String.toUTF8_eq_toByteArray, ← String.utf8Encode_toList, List.utf8Encode,
    List.toList_data_toByteArray]
  rfl

/-- Bytes of characters are read as those characters. -/
theorem fromUTF8?_utf8Bytes (cs : List Char) :
    String.fromUTF8? (utf8Bytes cs).toByteArray = some (String.ofList cs) := by
  have hbytes : (utf8Bytes cs).toByteArray = cs.utf8Encode := rfl
  unfold String.fromUTF8?
  rw [hbytes, dif_pos ByteArray.isValidUTF8_utf8Encode, Option.some.injEq, ← String.toByteArray_inj,
    String.toByteArray_ofList]
  rfl

/-- The bytes of a mark stand at the front exactly if the mark does. -/
theorem after?_utf8Bytes (mark cs : List Char) :
    after? (utf8Bytes mark) (utf8Bytes cs) = (after? mark cs).map utf8Bytes := by
  cases h : after? mark cs with
  | some rest =>
    rw [after?_eq_some_iff.1 h, utf8Bytes_append]
    exact after?_eq_some_iff.2 rfl
  | none =>
    cases hbytes : after? (utf8Bytes mark) (utf8Bytes cs) with
    | none => rfl
    | some rest =>
      have hencoded : mark.utf8Encode ++ rest.toByteArray = cs.utf8Encode := by
        rw [after?_eq_some_iff] at hbytes
        show (utf8Bytes mark).toByteArray ++ rest.toByteArray = (utf8Bytes cs).toByteArray
        rw [hbytes, List.toByteArray_append]
      have hprefix := List.isPrefix_of_utf8Encode_append_eq_utf8Encode _ hencoded
      rw [after?_eq_none_iff] at h
      exact absurd hprefix h

/-- A character has a first byte that begins a character, and none of the others does. -/
theorem utf8EncodeChar_eq_cons (c : Char) : ∃ b more, String.utf8EncodeChar c = b :: more ∧
    b.IsUTF8FirstByte ∧ ∀ d ∈ more, ¬ d.IsUTF8FirstByte := by
  cases h : String.utf8EncodeChar c with
  | nil => exact absurd h String.utf8EncodeChar_ne_nil
  | cons b more =>
    have hfirst : ∀ (i : Nat) (hi : i < (b :: more).length),
        (b :: more)[i].IsUTF8FirstByte ↔ i = 0 := by
      rw [← h]
      exact fun i hi => UInt8.isUTF8FirstByte_getElem_utf8EncodeChar
    refine ⟨b, more, rfl, (hfirst 0 (by simp)).2 rfl, fun d hd hbyte => ?_⟩
    obtain ⟨i, hi, rfl⟩ := List.mem_iff_getElem.1 hd
    exact Nat.succ_ne_zero i ((hfirst (i + 1) (by simpa using hi)).1 hbyte)

/-- The first place of a mark in the bytes is that of the mark in the text. -/
theorem around?_utf8Bytes {mark : List Char} (hm : mark ≠ []) (cs : List Char) :
    around? (utf8Bytes mark) (utf8Bytes cs) =
      (around? mark cs).map fun p => (utf8Bytes p.1, utf8Bytes p.2) := by
  obtain ⟨m, ms, hmark, hm'⟩ : ∃ m ms, utf8Bytes mark = m :: ms ∧ m.IsUTF8FirstByte := by
    cases mark with
    | nil => exact absurd rfl hm
    | cons c mark =>
      obtain ⟨b, more, hc, hb, -⟩ := utf8EncodeChar_eq_cons c
      exact ⟨b, more ++ utf8Bytes mark, by rw [utf8Bytes_cons, hc]; rfl, hb⟩
  induction cs with
  | nil =>
    cases mark with
    | nil => exact absurd rfl hm
    | cons c mark =>
      rw [hmark]
      rfl
  | cons c cs ih =>
    have hfront := after?_utf8Bytes mark (c :: cs)
    cases hc : after? mark (c :: cs) with
    | some rest =>
      rw [hc] at hfront
      rw [around?_of_after? hc, around?_of_after? hfront]
      rfl
    | none =>
      obtain ⟨b, more, hbytes, -, hmore⟩ := utf8EncodeChar_eq_cons c
      rw [hc, utf8Bytes_cons, hbytes, List.cons_append] at hfront
      rw [around?_cons hc, utf8Bytes_cons, hbytes, List.cons_append, around?_cons hfront]
      rw [hmark] at ih ⊢
      rw [around?_append_of_forall_ne (fun d hd he => hmore d hd (he ▸ hm')), ih,
        Option.map_map, Option.map_map, Option.map_map]
      refine Option.map_congr fun p _ => ?_
      show (b :: (more ++ utf8Bytes p.1), utf8Bytes p.2) = (utf8Bytes (c :: p.1), utf8Bytes p.2)
      rw [utf8Bytes_cons, hbytes]
      rfl

end Text
end MarkupFields
