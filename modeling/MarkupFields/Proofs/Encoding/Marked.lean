import MarkupFields.Encoding.Table
import MarkupFields.Proofs.Encoding.Bytes

/-
  Text behind a byte order mark. The mark alone decides how the bytes are read; what a declaration in
  the text says is not looked at. In UTF-16 a character is one unit or a pair of surrogates, and a unit
  is two bytes, in the order that the mark shows. So the bytes behind a mark are read as a text exactly
  if they are the bytes of that text (`ofUnits?_eq_some_iff`, `units?_eq_some_iff`), and the only bytes
  that are no text have an odd number or a surrogate without its partner (`ofUnits?_eq_none_iff`).

  A text may begin with the character of the mark. Only one mark is taken away.
-/

namespace MarkupFields.Encoding

open Text

/-! ## Units of a character -/

/-- The units of a character in UTF-16: itself, or a pair of surrogates. -/
def utf16Units (c : Char) : List Nat :=
  if c.toNat < 0x10000 then [c.toNat]
  else [0xD800 + (c.toNat - 0x10000) / 0x400, 0xDC00 + (c.toNat - 0x10000) % 0x400]

theorem isHighSurrogate_iff {u : Nat} : isHighSurrogate u = true ↔ 0xD800 ≤ u ∧ u < 0xDC00 := by
  unfold isHighSurrogate
  rw [Bool.and_eq_true, decide_eq_true_iff, decide_eq_true_iff]

theorem isLowSurrogate_iff {u : Nat} : isLowSurrogate u = true ↔ 0xDC00 ≤ u ∧ u < 0xE000 := by
  unfold isLowSurrogate
  rw [Bool.and_eq_true, decide_eq_true_iff, decide_eq_true_iff]

/-- No character is a surrogate. -/
theorem not_surrogate (c : Char) : c.toNat < 0xD800 ∨ 0xE000 ≤ c.toNat := by
  rcases c.valid with h | ⟨h, -⟩
  · exact .inl h
  · exact .inr h

theorem isHighSurrogate_of_low {v : Nat} (hv : isLowSurrogate v = true) :
    isHighSurrogate v = false := by
  rw [isLowSurrogate_iff] at hv
  rw [← Bool.not_eq_true, isHighSurrogate_iff]
  omega

/-- A unit that begins no pair is a character unless it ends one. -/
theorem charOfCode?_eq_none_iff {u : Nat} (hlt : u < 0x10000) (hu : isHighSurrogate u = false) :
    charOfCode? u = none ↔ isLowSurrogate u = true := by
  rw [← Bool.not_eq_true, isHighSurrogate_iff] at hu
  rw [isLowSurrogate_iff]
  by_cases h : u.isValidChar
  · refine iff_of_false ?_ ?_
    · rw [charOfCode?, dif_pos h]
      exact Option.some_ne_none _
    · rcases h with h | h <;> omega
  · refine iff_of_true (dif_neg h) ?_
    unfold Nat.isValidChar at h
    omega

theorem charOfCode?_of_high {u : Nat} (hu : isHighSurrogate u = true) : charOfCode? u = none := by
  rw [isHighSurrogate_iff] at hu
  refine dif_neg fun h => ?_
  rcases h with h | h <;> omega

/-- A pair of surrogates stands for a character. -/
theorem exists_char_of_pair {u v : Nat} (hu : isHighSurrogate u = true)
    (hv : isLowSurrogate v = true) :
    ∃ c, charOfCode? (0x10000 + (u - 0xD800) * 0x400 + (v - 0xDC00)) = some c ∧
      utf16Units c = [u, v] := by
  rw [isHighSurrogate_iff] at hu
  rw [isLowSurrogate_iff] at hv
  have hvalid : (0x10000 + (u - 0xD800) * 0x400 + (v - 0xDC00)).isValidChar := .inr (by omega)
  obtain ⟨c, hc⟩ : ∃ c, charOfCode? (0x10000 + (u - 0xD800) * 0x400 + (v - 0xDC00)) = some c :=
    ⟨_, dif_pos hvalid⟩
  refine ⟨c, hc, ?_⟩
  have hcode := charOfCode?_eq_some_iff.1 hc
  unfold utf16Units
  rw [if_neg (by omega)]
  have hfirst : 0xD800 + (c.toNat - 0x10000) / 0x400 = u := by omega
  have hsecond : 0xDC00 + (c.toNat - 0x10000) % 0x400 = v := by omega
  rw [hfirst, hsecond]

/-- The character of a unit that is one. -/
theorem utf16Units_of_lt {u : Nat} {c : Char} (hu : u < 0x10000) (hc : charOfCode? u = some c) :
    utf16Units c = [u] := by
  rw [charOfCode?_eq_some_iff] at hc
  unfold utf16Units
  rw [if_pos (by omega), hc]

theorem lt_of_mem_utf16Units {c : Char} {u : Nat} (hu : u ∈ utf16Units c) : u < 0x10000 := by
  have hle := toNat_le c
  unfold utf16Units at hu
  split at hu
  · rwa [List.mem_singleton.1 hu]
  · rw [List.mem_cons, List.mem_singleton] at hu
    rcases hu with hu | hu <;> omega

/-! ## Units of a text -/

/-- A surrogate that is without its partner: no second half behind a first, or no first half before a
second. -/
def LoneSurrogate (us : List Nat) : Prop :=
  ∃ before u after, us = before ++ u :: after ∧
    (isHighSurrogate u = true ∧ ¬ after.head?.any isLowSurrogate = true ∨
      isLowSurrogate u = true ∧ ¬ before.getLast?.any isHighSurrogate = true)

theorem not_loneSurrogate_nil : ¬ LoneSurrogate [] := by
  rintro ⟨before, u, after, h, -⟩
  exact List.append_ne_nil_of_right_ne_nil before (List.cons_ne_nil u after) h.symm

section
variable {u v : Nat} {us : List Nat}

theorem any_getLast?_cons (hu : isHighSurrogate u = false) (us : List Nat) :
    (u :: us).getLast?.any isHighSurrogate = us.getLast?.any isHighSurrogate := by
  cases us with
  | nil => exact hu
  | cons v us => rw [List.getLast?_cons_cons]

/-- What begins no pair is alone if it ends one. -/
theorem loneSurrogate_cons_iff (hu : isHighSurrogate u = false) :
    LoneSurrogate (u :: us) ↔ isLowSurrogate u = true ∨ LoneSurrogate us := by
  constructor
  · rintro ⟨before, w, after, h, hw⟩
    cases before with
    | nil =>
      obtain ⟨rfl, rfl⟩ := List.cons.inj h
      rcases hw with ⟨hhigh, -⟩ | ⟨hlow, -⟩
      · exact Bool.noConfusion (hu.symm.trans hhigh)
      · exact .inl hlow
    | cons b before =>
      obtain ⟨rfl, rfl⟩ := List.cons.inj h
      rw [any_getLast?_cons hu] at hw
      exact .inr ⟨before, w, after, rfl, hw⟩
  · rintro (hlow | ⟨before, w, after, rfl, hw⟩)
    · exact ⟨[], u, us, rfl, .inr ⟨hlow, Bool.false_ne_true⟩⟩
    · refine ⟨u :: before, w, after, rfl, ?_⟩
      rwa [any_getLast?_cons hu]

/-- A pair has nothing to do with what follows it. -/
theorem loneSurrogate_pair_iff (hu : isHighSurrogate u = true) (hv : isLowSurrogate v = true) :
    LoneSurrogate (u :: v :: us) ↔ LoneSurrogate us := by
  have hv' := isHighSurrogate_of_low hv
  constructor
  · rintro ⟨before, w, after, h, hw⟩
    cases before with
    | nil =>
      obtain ⟨rfl, rfl⟩ := List.cons.inj h
      rcases hw with ⟨-, hnone⟩ | ⟨hlow, -⟩
      · exact absurd hv hnone
      · exact Bool.noConfusion ((isHighSurrogate_of_low hlow).symm.trans hu)
    | cons b before =>
      obtain ⟨rfl, htail⟩ := List.cons.inj h
      cases before with
      | nil =>
        obtain ⟨rfl, rfl⟩ := List.cons.inj htail
        rcases hw with ⟨hhigh, -⟩ | ⟨-, hnone⟩
        · exact Bool.noConfusion (hv'.symm.trans hhigh)
        · exact absurd hu hnone
      | cons b' before =>
        obtain ⟨rfl, rfl⟩ := List.cons.inj htail
        rw [List.getLast?_cons_cons, any_getLast?_cons hv'] at hw
        exact ⟨before, w, after, rfl, hw⟩
  · rintro ⟨before, w, after, rfl, hw⟩
    refine ⟨u :: v :: before, w, after, rfl, ?_⟩
    rwa [List.getLast?_cons_cons, any_getLast?_cons hv']

theorem LoneSurrogate.of_high (hu : isHighSurrogate u = true)
    (hus : ¬ us.head?.any isLowSurrogate = true) : LoneSurrogate (u :: us) :=
  ⟨[], u, us, rfl, .inl ⟨hu, hus⟩⟩

/-! ## Reading units -/

/-- A unit that begins no pair is read alone. -/
theorem ofUnits?_cons (hu : isHighSurrogate u = false) (us : List Nat) :
    ofUnits? (u :: us) = (charOfCode? u).bind fun c => (ofUnits? us).map (c :: ·) := by
  cases us with
  | nil => cases h : charOfCode? u <;> simp [ofUnits?, h]
  | cons v us =>
    rw [ofUnits?, if_neg (Bool.not_eq_true _ ▸ hu)]
    simp only [Option.bind_eq_bind, Option.map_eq_bind, Function.comp_def]

/-- A pair is read as one. -/
theorem ofUnits?_pair (hu : isHighSurrogate u = true) (hv : isLowSurrogate v = true)
    (us : List Nat) :
    ofUnits? (u :: v :: us) =
      (charOfCode? (0x10000 + (u - 0xD800) * 0x400 + (v - 0xDC00))).bind fun c =>
        (ofUnits? us).map (c :: ·) := by
  rw [ofUnits?, if_pos hu, if_pos hv]
  simp only [Option.bind_eq_bind, Option.map_eq_bind, Function.comp_def]

/-- Half a pair is not read. -/
theorem ofUnits?_high (hu : isHighSurrogate u = true)
    (hus : ¬ us.head?.any isLowSurrogate = true) : ofUnits? (u :: us) = none := by
  cases us with
  | nil =>
    rw [ofUnits?, charOfCode?_of_high hu]
    rfl
  | cons v us =>
    have hv : ¬ isLowSurrogate v = true := hus
    rw [ofUnits?, if_pos hu, if_neg hv]

end

/-- Units come alone or in pairs, unless the second half of a pair is missing. -/
@[elab_as_elim]
theorem units_induction {motive : List Nat → Prop} (nil : motive [])
    (cons : ∀ u us, isHighSurrogate u = false → motive us → motive (u :: us))
    (pair : ∀ u v us, isHighSurrogate u = true → isLowSurrogate v = true → motive us →
      motive (u :: v :: us))
    (half : ∀ u us, isHighSurrogate u = true → ¬ us.head?.any isLowSurrogate = true →
      motive (u :: us)) :
    ∀ us, motive us
  | [] => nil
  | [u] => by
    cases hu : isHighSurrogate u with
    | true => exact half u [] hu Bool.false_ne_true
    | false => exact cons u [] hu nil
  | u :: v :: us => by
    cases hu : isHighSurrogate u with
    | false => exact cons u (v :: us) hu (units_induction nil cons pair half (v :: us))
    | true =>
      by_cases hv : isLowSurrogate v = true
      · exact pair u v us hu hv (units_induction nil cons pair half us)
      · exact half u (v :: us) hu hv

/-- Units are no text exactly if a surrogate is alone among them. -/
theorem ofUnits?_eq_none_iff {us : List Nat} (hus : ∀ u ∈ us, u < 0x10000) :
    ofUnits? us = none ↔ LoneSurrogate us := by
  induction us using units_induction with
  | nil => exact iff_of_false (Option.some_ne_none _) not_loneSurrogate_nil
  | cons u us hu ih =>
    obtain ⟨hlt, hrest⟩ := List.forall_mem_cons.1 hus
    rw [loneSurrogate_cons_iff hu, ofUnits?_cons hu, ← ih hrest, ← charOfCode?_eq_none_iff hlt hu]
    cases charOfCode? u with
    | none => exact iff_of_true rfl (.inl rfl)
    | some c => rw [Option.bind_some, Option.map_eq_none_iff, or_iff_right (Option.some_ne_none c)]
  | pair u v us hu hv ih =>
    obtain ⟨c, hc, -⟩ := exists_char_of_pair hu hv
    have hrest := (List.forall_mem_cons.1 (List.forall_mem_cons.1 hus).2).2
    rw [loneSurrogate_pair_iff hu hv, ofUnits?_pair hu hv, ← ih hrest, hc, Option.bind_some,
      Option.map_eq_none_iff]
  | half u us hu hnone => exact iff_of_true (ofUnits?_high hu hnone) (.of_high hu hnone)

/-- What was read from units is the text with these units. -/
theorem eq_of_ofUnits? {us : List Nat} (hus : ∀ u ∈ us, u < 0x10000) {cs : List Char}
    (h : ofUnits? us = some cs) : us = cs.flatMap utf16Units := by
  induction us using units_induction generalizing cs with
  | nil =>
    rw [← Option.some.inj h]
    rfl
  | cons u us hu ih =>
    obtain ⟨hlt, hrest⟩ := List.forall_mem_cons.1 hus
    rw [ofUnits?_cons hu] at h
    obtain ⟨c, hc, h⟩ := Option.bind_eq_some_iff.1 h
    obtain ⟨ds, hds, rfl⟩ := Option.map_eq_some_iff.1 h
    rw [List.flatMap_cons, utf16Units_of_lt hlt hc, ← ih hrest hds]
    rfl
  | pair u v us hu hv ih =>
    have hrest := (List.forall_mem_cons.1 (List.forall_mem_cons.1 hus).2).2
    obtain ⟨c, hc, hunits⟩ := exists_char_of_pair hu hv
    rw [ofUnits?_pair hu hv, hc, Option.bind_some] at h
    obtain ⟨ds, hds, rfl⟩ := Option.map_eq_some_iff.1 h
    rw [List.flatMap_cons, hunits, ← ih hrest hds]
    rfl
  | half u us hu hnone =>
    rw [ofUnits?_high hu hnone] at h
    cases h

/-- The units of a character are read as this character. -/
theorem ofUnits?_utf16Units (c : Char) (us : List Nat) :
    ofUnits? (utf16Units c ++ us) = (ofUnits? us).map (c :: ·) := by
  have hle := toNat_le c
  unfold utf16Units
  split
  · have hhigh : isHighSurrogate c.toNat = false := by
      rw [← Bool.not_eq_true, isHighSurrogate_iff]
      rcases not_surrogate c with h | h <;> omega
    rw [List.singleton_append, ofUnits?_cons hhigh, charOfCode?_eq_some_iff.2 rfl]
    rfl
  · have hhigh : isHighSurrogate (0xD800 + (c.toNat - 0x10000) / 0x400) = true := by
      rw [isHighSurrogate_iff]
      omega
    have hlow : isLowSurrogate (0xDC00 + (c.toNat - 0x10000) % 0x400) = true := by
      rw [isLowSurrogate_iff]
      omega
    have hcode : c.toNat = 0x10000 + (0xD800 + (c.toNat - 0x10000) / 0x400 - 0xD800) * 0x400 +
        (0xDC00 + (c.toNat - 0x10000) % 0x400 - 0xDC00) := by
      omega
    rw [List.cons_append, List.singleton_append, ofUnits?_pair hhigh hlow,
      charOfCode?_eq_some_iff.2 hcode]
    rfl

theorem ofUnits?_eq_some_iff {us : List Nat} (hus : ∀ u ∈ us, u < 0x10000) {cs : List Char} :
    ofUnits? us = some cs ↔ us = cs.flatMap utf16Units := by
  refine ⟨eq_of_ofUnits? hus, ?_⟩
  rintro rfl
  clear hus
  induction cs with
  | nil => rfl
  | cons c cs ih => rw [List.flatMap_cons, ofUnits?_utf16Units, ih, Option.map_some]

/-! ## Bytes of units -/

/-- The order of the two bytes of a unit. -/
inductive ByteOrder where
  | little
  | big
  deriving DecidableEq, Repr

namespace ByteOrder

def encoding : ByteOrder → Encoding
  | little => utf16le
  | big => utf16be

/-- The name of the encoding. -/
def name : ByteOrder → String
  | little => "UTF-16LE"
  | big => "UTF-16BE"

/-- The mark that shows the order. -/
def mark : ByteOrder → List UInt8
  | little => [0xFF, 0xFE]
  | big => [0xFE, 0xFF]

/-- The bytes of a unit. -/
def bytes (o : ByteOrder) (u : Nat) : List UInt8 :=
  match o with
  | little => [UInt8.ofNat u, UInt8.ofNat (u / 0x100)]
  | big => [UInt8.ofNat (u / 0x100), UInt8.ofNat u]

/-- The bytes of a text. -/
def utf16Bytes (o : ByteOrder) (cs : List Char) : List UInt8 :=
  (cs.flatMap utf16Units).flatMap o.bytes

/-- The unit of two bytes. -/
def unit (o : ByteOrder) (a b : UInt8) : Nat :=
  match o with
  | little => a.toNat + b.toNat * 0x100
  | big => a.toNat * 0x100 + b.toNat

variable (o : ByteOrder)

theorem unit_lt (a b : UInt8) : o.unit a b < 0x10000 := by
  have ha := a.toNat_lt
  have hb := b.toNat_lt
  cases o with
  | little =>
    show a.toNat + b.toNat * 0x100 < 0x10000
    omega
  | big =>
    show a.toNat * 0x100 + b.toNat < 0x10000
    omega

/-- The two bytes of a number below 65536, the lower first. -/
theorem ofNat_eq_iff {u : Nat} (hu : u < 0x10000) {a b : UInt8} :
    UInt8.ofNat u = a ∧ UInt8.ofNat (u / 0x100) = b ↔ a.toNat + b.toNat * 0x100 = u := by
  have ha := a.toNat_lt
  have hb := b.toNat_lt
  rw [← UInt8.toNat_inj, ← UInt8.toNat_inj, UInt8.toNat_ofNat', UInt8.toNat_ofNat']
  omega

/-- The bytes of a unit are those that it is the unit of. -/
theorem bytes_eq_iff {u : Nat} (hu : u < 0x10000) {a b : UInt8} :
    o.bytes u = [a, b] ↔ o.unit a b = u := by
  have hbytes {c d : UInt8} : [c, d] = [a, b] ↔ c = a ∧ d = b := by
    rw [List.cons.injEq, List.cons.injEq, and_iff_left rfl]
  cases o with
  | little => exact hbytes.trans (ofNat_eq_iff hu)
  | big =>
    refine hbytes.trans (and_comm.trans ((ofNat_eq_iff hu).trans ?_))
    rw [Nat.add_comm]
    rfl

theorem exists_bytes_eq (u : Nat) : ∃ a b, o.bytes u = [a, b] := by
  cases o <;> exact ⟨_, _, rfl⟩

/-- Bytes come in pairs unless their number is odd. -/
theorem units?_eq_none_iff (unit : UInt8 → UInt8 → Nat) (bytes : List UInt8) :
    units? unit bytes = none ↔ bytes.length % 2 = 1 := by
  fun_induction units? unit bytes with
  | case1 => simp
  | case2 a => simp
  | case3 a b rest ih =>
    rw [Option.map_eq_none_iff, ih, List.length_cons, List.length_cons]
    omega

/-- The units of bytes are those whose bytes they are. -/
theorem units?_eq_some_iff {bytes : List UInt8} {us : List Nat} :
    units? o.unit bytes = some us ↔ bytes = us.flatMap o.bytes ∧ ∀ u ∈ us, u < 0x10000 := by
  constructor
  · intro h
    fun_induction units? o.unit bytes generalizing us with
    | case1 =>
      rw [← Option.some.inj h]
      exact ⟨rfl, fun u hu => absurd hu List.not_mem_nil⟩
    | case2 a => cases h
    | case3 a b rest ih =>
      obtain ⟨vs, hvs, rfl⟩ := Option.map_eq_some_iff.1 h
      obtain ⟨hbytes, hlt⟩ := ih hvs
      refine ⟨?_, List.forall_mem_cons.2 ⟨o.unit_lt a b, hlt⟩⟩
      rw [List.flatMap_cons, (o.bytes_eq_iff (o.unit_lt a b)).2 rfl, ← hbytes]
      rfl
  · rintro ⟨rfl, hlt⟩
    induction us with
    | nil => rfl
    | cons u us ih =>
      obtain ⟨hu, hrest⟩ := List.forall_mem_cons.1 hlt
      obtain ⟨a, b, hbytes⟩ := o.exists_bytes_eq u
      rw [List.flatMap_cons, hbytes]
      show (units? o.unit (us.flatMap o.bytes)).map (o.unit a b :: ·) = some (u :: us)
      rw [ih hrest, (o.bytes_eq_iff hu).1 hbytes]
      rfl

/-- The decoder of the order reads units and then characters. -/
theorem decode?_eq (charsets : Charsets) (bytes : List UInt8) :
    o.encoding.decode? charsets bytes = ((units? o.unit bytes).bind ofUnits?).map String.ofList := by
  cases o <;> rfl

end ByteOrder

/-! ## Behind a mark -/

variable {charsets : Charsets}

theorem decode_eq_ok_iff {e : Encoding} {bytes : List UInt8} {t : String} :
    e.decode charsets bytes = .ok t ↔ e.decode? charsets bytes = some t := by
  unfold decode
  cases e.decode? charsets bytes <;> simp

theorem decode_eq_error_iff {e : Encoding} {bytes : List UInt8} :
    e.decode charsets bytes = .error (.malformed e) ↔ e.decode? charsets bytes = none := by
  unfold decode
  cases e.decode? charsets bytes <;> simp

/-- Bytes are read as a text in UTF-8 exactly if they are its bytes. -/
theorem decode_utf8_eq_ok_iff {bytes : List UInt8} {t : String} :
    utf8.decode charsets bytes = .ok t ↔ bytes = t.toUTF8.data.toList := by
  rw [decode_eq_ok_iff]
  constructor
  · intro h
    have h : String.fromUTF8? bytes.toByteArray = some t := h
    unfold String.fromUTF8? at h
    split at h
    · rw [String.toUTF8_eq_toByteArray, ← Option.some.inj h]
      exact List.toList_data_toByteArray.symm
    · cases h
  · rintro rfl
    rw [toUTF8_data]
    exact (fromUTF8?_utf8Bytes t.toList).trans (congrArg some String.ofList_toList)

namespace ByteOrder

variable (o : ByteOrder) {bytes : List UInt8}

/-- Bytes are read as a text in UTF-16 exactly if they are its bytes. -/
theorem decode_eq_ok_iff {t : String} :
    o.encoding.decode charsets bytes = .ok t ↔ bytes = o.utf16Bytes t.toList := by
  rw [Encoding.decode_eq_ok_iff, decode?_eq, Option.map_eq_some_iff]
  constructor
  · rintro ⟨cs, hcs, rfl⟩
    obtain ⟨us, hus, hcs⟩ := Option.bind_eq_some_iff.1 hcs
    obtain ⟨hbytes, hlt⟩ := o.units?_eq_some_iff.1 hus
    rw [ofUnits?_eq_some_iff hlt] at hcs
    rw [hbytes, hcs, String.toList_ofList]
    rfl
  · intro h
    have hlt : ∀ u ∈ t.toList.flatMap utf16Units, u < 0x10000 := by
      intro u hu
      obtain ⟨c, -, hc⟩ := List.mem_flatMap.1 hu
      exact lt_of_mem_utf16Units hc
    rw [o.units?_eq_some_iff.2 ⟨h, hlt⟩, Option.bind_some, (ofUnits?_eq_some_iff hlt).2 rfl]
    exact ⟨t.toList, rfl, String.ofList_toList⟩

/-- Bytes are no text in UTF-16 exactly if a byte or half a pair of surrogates is missing. -/
theorem decode_eq_error_iff :
    o.encoding.decode charsets bytes = .error (.malformed o.encoding) ↔ bytes.length % 2 = 1 ∨
      ∃ us, (∀ u ∈ us, u < 0x10000) ∧ bytes = us.flatMap o.bytes ∧ LoneSurrogate us := by
  rw [Encoding.decode_eq_error_iff, decode?_eq, Option.map_eq_none_iff,
    ← units?_eq_none_iff o.unit]
  cases h : units? o.unit bytes with
  | none => exact iff_of_true rfl (.inl rfl)
  | some us =>
    obtain ⟨hbytes, hlt⟩ := o.units?_eq_some_iff.1 h
    rw [Option.bind_some, or_iff_right (Option.some_ne_none us), ofUnits?_eq_none_iff hlt]
    constructor
    · exact fun hlone => ⟨us, hlt, hbytes, hlone⟩
    · rintro ⟨vs, hvs, hbytes', hlone⟩
      have h' := o.units?_eq_some_iff.2 ⟨hbytes', hvs⟩
      rw [h] at h'
      rwa [Option.some.inj h']

end ByteOrder

/-- Behind a mark bytes are read in the encoding of the mark, whatever a text declares and whatever it
begins with: as a text exactly if they are the bytes of the text. In UTF-16 they are malformed exactly
if their number is odd or a surrogate has no partner. -/
theorem decodeDocument_marked (charsets : Charsets) :
    (∀ (bytes : List UInt8) (t : String),
      decodeDocument charsets ([0xEF, 0xBB, 0xBF] ++ bytes) = .ok t ↔ bytes = t.toUTF8.data.toList) ∧
    ∀ (o : ByteOrder) (bytes : List UInt8),
      (∀ t : String, decodeDocument charsets (o.mark ++ bytes) = .ok t ↔ bytes = o.utf16Bytes t.toList) ∧
      (decodeDocument charsets (o.mark ++ bytes) = .error (.malformed o.encoding) ↔
        bytes.length % 2 = 1 ∨
          ∃ us, (∀ u ∈ us, u < 0x10000) ∧ bytes = us.flatMap o.bytes ∧ LoneSurrogate us) ∧
      o.encoding.name = o.name := by
  refine ⟨fun bytes t => ?_, fun o bytes => ?_⟩
  · have hmark : decodeDocument charsets ([0xEF, 0xBB, 0xBF] ++ bytes) =
        decodeAs charsets utf8.name bytes := rfl
    rw [hmark, decodeAs, charsets.ofLabel?_utf8]
    exact decode_utf8_eq_ok_iff
  have hmark : decodeDocument charsets (o.mark ++ bytes) = o.encoding.decode charsets bytes := by
    cases o with
    | little =>
      show decodeAs charsets utf16le.name bytes = _
      rw [decodeAs, charsets.ofLabel?_utf16le]
      rfl
    | big =>
      show decodeAs charsets utf16be.name bytes = _
      rw [decodeAs, charsets.ofLabel?_utf16be]
      rfl
  rw [hmark]
  refine ⟨fun t => o.decode_eq_ok_iff, o.decode_eq_error_iff, ?_⟩
  cases o <;> rfl

/-- Of two marks the second is text. -/
example : (decodeDocument .tabulated [0xFF, 0xFE, 0xFF, 0xFE]).toOption = some "\uFEFF" := by
  decide +kernel

end MarkupFields.Encoding
