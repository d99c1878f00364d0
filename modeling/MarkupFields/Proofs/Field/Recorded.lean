import MarkupFields.Proofs.Field.Loading
import MarkupFields.Proofs.Writer.Outcome

/-
  Reading a field, and the log that reading and writing share. A request to read is refused exactly if
  no document is loaded or the path has a fault, and then nothing changes. Otherwise the value of the
  field is what its text converts to, or nothing where there is no text, and a record is added exactly
  if there is a text that does not convert. A reader and a writer that keep their records in one log
  (`Exchange`) add at most one record for each field, behind all earlier ones: whatever is asked of them,
  in whatever order, no record is changed or taken away (`Exchange.log_after`).

  What a text is located at is not said here; it is what `FieldReader.extract` gives for the path.
-/

namespace MarkupFields

/-! ## One call -/

namespace FieldReader

/-- What a call comes to, with the document and the path if it is not refused. -/
theorem readField_cases (r : FieldReader) (f : Field) (log : List Audit) :
    ((∃ e, r.readField f log = (.error e, f, log)) ∧
      (r.loaded = none ∨ ∃ e, Path.parse f.path = .error e)) ∨
    ∃ l p, r.loaded = some l ∧ Path.parse f.path = .ok p ∧
      r.readField f log = (.ok (), fill f log (r.locate? l p)) := by
  unfold readField
  split
  · rename_i hloaded
    exact .inl ⟨⟨_, rfl⟩, .inl hloaded⟩
  · rename_i l hloaded
    split
    · rename_i e hparse
      exact .inl ⟨⟨_, rfl⟩, .inr ⟨e, hparse⟩⟩
    · rename_i p hparse
      exact .inr ⟨l, p, hloaded, hparse, rfl⟩

/-- A call is refused exactly if no document is loaded or the path cannot be read. -/
theorem readField_refused_iff (r : FieldReader) (f : Field) (log : List Audit) :
    (∃ e, (r.readField f log).1 = .error e) ↔
      r.loaded = none ∨ ∃ e, Path.parse f.path = .error e := by
  rcases r.readField_cases f log with ⟨⟨e, he⟩, hcause⟩ | ⟨l, p, hloaded, hparse, he⟩
  · rw [he]
    exact ⟨fun _ => hcause, fun _ => ⟨e, rfl⟩⟩
  · rw [he, hloaded, hparse]
    refine iff_of_false ?_ ?_
    · rintro ⟨e, h⟩
      cases h
    · rintro (h | ⟨e, h⟩)
      · cases h
      · cases h

end FieldReader

/-- The records that a call about a field adds: at most one, an error at the path of the field. -/
def Field.Adds (f : Field) (added : List Audit) : Prop :=
  added = [] ∨ ∃ a, added = [a] ∧ a.path = some f.path ∧ a.status = .error

theorem FieldReader.readField_adds (r : FieldReader) (f : Field) (log : List Audit) :
    ∃ added, (r.readField f log).2.2 = log ++ added ∧ f.Adds added := by
  have hnothing : log = log ++ [] := (List.append_nil log).symm
  rcases r.readField_cases f log with ⟨⟨e, he⟩, -⟩ | ⟨l, p, -, -, he⟩
  · rw [he]
    exact ⟨[], hnothing, .inl rfl⟩
  · rw [he]
    cases r.locate? l p with
    | none => exact ⟨[], hnothing, .inl rfl⟩
    | some raw =>
      unfold fill
      dsimp only
      split
      · exact ⟨_, rfl, .inr ⟨_, rfl, rfl, rfl⟩⟩
      · exact ⟨[], hnothing, .inl rfl⟩

theorem FieldWriter.writeField_adds (w : FieldWriter) (f : Field) (log : List Audit) :
    ∃ added, (w.writeField f log).2.2 = log ++ added ∧ f.Adds added := by
  have hnothing : log = log ++ [] := (List.append_nil log).symm
  rcases w.writeField_cases f log with ⟨e, he⟩ | ⟨p, -, -, he⟩ | ⟨p, text, plan, -, -, -, he⟩
  · rw [he]
    exact ⟨[], hnothing, .inl rfl⟩
  · rw [he]
    exact ⟨_, rfl, .inr ⟨_, rfl, rfl, rfl⟩⟩
  · rw [he]
    exact ⟨[], hnothing, .inl rfl⟩

/-! ## Sharing a log -/

/-- A reader and a writer that keep their records in one log. -/
structure Exchange where
  reader : FieldReader
  writer : FieldWriter
  log : List Audit

namespace Exchange

/-- What can be asked of an exchange: what changes its reader, a binding for its writer, and fields to
read and to write. -/
inductive Request where
  | reader (q : ReaderRequest)
  | declare (nsPrefix uri : String)
  | read (f : Field)
  | write (f : Field)

/-- The field that a request is about, if it is about one. -/
def Request.field? : Request → Option Field
  | .read f => some f
  | .write f => some f
  | _ => none

/-- The exchange once a request has been handled, whatever came of it. -/
def handle (charsets : Charsets) (x : Exchange) : Request → Exchange
  | .reader q => { x with reader := x.reader.handle charsets q }
  | .declare nsPrefix uri =>
    match x.writer.declareNamespace nsPrefix uri with
    | .ok w => { x with writer := w }
    | .error _ => x
  | .read f => { x with log := (x.reader.readField f x.log).2.2 }
  | .write f =>
    { x with writer := (x.writer.writeField f x.log).2.1, log := (x.writer.writeField f x.log).2.2 }

/-- The exchange after a past: the requests that it has seen, in their order. -/
def after (charsets : Charsets) (x : Exchange) (past : List Request) : Exchange :=
  past.foldl (handle charsets) x

/-- What the second log has beyond the first: records behind the earlier ones, each an error of one of
the fields, in the order of the fields and at most one for each. -/
def Continues (fields : List Field) (log log' : List Audit) : Prop :=
  ∃ added : List Audit, log' = log ++ added ∧
    (added.map Audit.path).Sublist (fields.map fun f => some f.path) ∧
    ∀ a ∈ added, a.status = .error

theorem Continues.refl (log : List Audit) : Continues [] log log :=
  ⟨[], (List.append_nil log).symm, .slnil, fun _ ha => absurd ha List.not_mem_nil⟩

theorem Continues.of_adds {f : Field} {log log' : List Audit}
    (h : ∃ added, log' = log ++ added ∧ f.Adds added) : Continues [f] log log' := by
  obtain ⟨added, rfl, hadds⟩ := h
  refine ⟨added, rfl, ?_⟩
  rcases hadds with rfl | ⟨a, rfl, hpath, hstatus⟩
  · exact ⟨List.nil_sublist _, fun _ ha => absurd ha List.not_mem_nil⟩
  · refine ⟨?_, fun b hb => List.mem_singleton.1 hb ▸ hstatus⟩
    rw [List.map_singleton, List.map_singleton, hpath]

theorem Continues.trans {fields fields' : List Field} {log log' log'' : List Audit}
    (h : Continues fields log log') (h' : Continues fields' log' log'') :
    Continues (fields ++ fields') log log'' := by
  obtain ⟨added, rfl, hpaths, hstatus⟩ := h
  obtain ⟨added', rfl, hpaths', hstatus'⟩ := h'
  refine ⟨added ++ added', List.append_assoc .., ?_, fun a ha => ?_⟩
  · rw [List.map_append, List.map_append]
    exact hpaths.append hpaths'
  · exact (List.mem_append.1 ha).elim (hstatus a) (hstatus' a)

/-- One request adds to the log what its field adds, if anything. -/
theorem log_handle (charsets : Charsets) (x : Exchange) (q : Request) :
    Continues q.field?.toList x.log (x.handle charsets q).log := by
  cases q with
  | reader q => exact .refl x.log
  | declare nsPrefix uri =>
    have hsame : (x.handle charsets (.declare nsPrefix uri)).log = x.log := by
      unfold handle
      dsimp only
      split <;> rfl
    rw [hsame]
    exact .refl x.log
  | read f => exact .of_adds (x.reader.readField_adds f x.log)
  | write f => exact .of_adds (x.writer.writeField_adds f x.log)

/-- Any past only adds to the log. -/
theorem log_after (charsets : Charsets) (x : Exchange) (past : List Request) :
    Continues (past.filterMap Request.field?) x.log (x.after charsets past).log := by
  induction past generalizing x with
  | nil => exact .refl x.log
  | cons q past ih =>
    have hfields : (q :: past).filterMap Request.field? =
        q.field?.toList ++ past.filterMap Request.field? := by
      rw [List.filterMap_cons]
      cases q.field? <;> rfl
    rw [hfields]
    exact (x.log_handle charsets q).trans (ih (x.handle charsets q))

end Exchange

/-! ## Outcomes -/

/-- Reading a field is refused exactly if no document is loaded or the path cannot be read, and then
changes neither the field nor the log. Otherwise only the value of the field changes: there is none if
the path leads to no text; if it leads to one, the value is what the text converts to, and exactly if it
does not convert, one record is added, which holds the text, the name of the type and the path. Over any
requests to a reader and a writer that share a log, earlier records stay as they are. -/
theorem FieldReader.readField_outcome (r : FieldReader) (f : Field) (log : List Audit) :
    ((∃ e, (r.readField f log).1 = .error e) ↔
      r.loaded = none ∨ ∃ e, Path.parse f.path = .error e) ∧
    (match r.readField f log with
      | (.error _, f', log') => f' = f ∧ log' = log
      | (.ok (), f', log') =>
        f'.path = f.path ∧ f'.declared = f.declared ∧ f'.isPrimitive = f.isPrimitive ∧
        ∃ p, Path.parse f.path = .ok p ∧
          ((r.extract p = .ok none ∧ f'.value = none ∧ log' = log) ∨
          ∃ raw, r.extract p = .ok (some raw) ∧
            f'.value = (Conversion.ofText raw f.effectiveType).value? ∧
            (((∃ reason, Conversion.ofText raw f.effectiveType = .failed reason) ∧
              log' = log ++ [{ message := "Failed to convert field value '" ++ raw
                                 ++ "' into type '" ++ f.effectiveType.name ++ "'"
                               value := raw
                               path := some f.path
                               status := .error }]) ∨
            ((∀ reason, Conversion.ofText raw f.effectiveType ≠ .failed reason) ∧ log' = log)))) ∧
    ∀ (charsets : Charsets) (x : Exchange) (past : List Exchange.Request),
      Exchange.Continues (past.filterMap Exchange.Request.field?) x.log
        (x.after charsets past).log := by
  refine ⟨r.readField_refused_iff f log, ?_, Exchange.log_after⟩
  rcases r.readField_cases f log with ⟨⟨e, he⟩, -⟩ | ⟨l, p, hloaded, hparse, he⟩
  · rw [he]
    exact ⟨rfl, rfl⟩
  · have hextract : r.extract p = .ok (r.locate? l p) := by
      unfold extract
      rw [hloaded]
    rw [he]
    cases hfound : r.locate? l p with
    | none => exact ⟨rfl, rfl, rfl, p, hparse, .inl ⟨hfound ▸ hextract, rfl, rfl⟩⟩
    | some raw =>
      refine ⟨rfl, rfl, rfl, p, hparse, .inr ⟨raw, hfound ▸ hextract, rfl, ?_⟩⟩
      cases Conversion.ofText raw f.effectiveType with
      | failed reason => exact .inl ⟨⟨reason, rfl⟩, rfl⟩
      | ok v => exact .inr ⟨nofun, rfl⟩
      | clamped v => exact .inr ⟨nofun, rfl⟩

end MarkupFields
