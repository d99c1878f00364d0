import MarkupFields.Encoding.Table
import MarkupFields.Field.Reader
import Mathlib.Data.List.Basic

/-
  What loading keeps of what a reader has seen before. Every request leaves the options alone, so after
  any past a reader still has the options that it was made with. Loading a text depends on nothing else:
  it does what it does on a reader that has seen nothing (`load_after`). Loading bytes is loading a text
  once they have been decoded (`loadBytes_after`); bytes that cannot be decoded let go of the document,
  but the bindings stay.
-/

namespace MarkupFields

/-- What can be asked of a reader that changes it. -/
inductive ReaderRequest where
  | load (text : String) (aware : Bool)
  | loadBytes (bytes : List UInt8) (aware : Bool)
  | bind (namespaces : Namespaces)

namespace FieldReader

/-- The reader once a request has been handled, whatever came of it. -/
def handle (charsets : Charsets) (r : FieldReader) : ReaderRequest → FieldReader
  | .load text aware => (r.load text aware).1
  | .loadBytes bytes aware => (r.loadBytes charsets bytes aware).1
  | .bind namespaces => r.withNamespaces namespaces

/-- The reader after a past: the requests that it has seen, in their order. -/
def after (charsets : Charsets) (r : FieldReader) (past : List ReaderRequest) : FieldReader :=
  past.foldl (handle charsets) r

variable (charsets : Charsets)

/-! ## Options -/

theorem load_options (r : FieldReader) (text : String) (aware : Bool) :
    (r.load text aware).1.options = r.options := by
  unfold load
  split
  · rfl
  · split <;> rfl

theorem loadBytes_options (r : FieldReader) (bytes : List UInt8) (aware : Bool) :
    (r.loadBytes charsets bytes aware).1.options = r.options := by
  unfold loadBytes
  split
  · rfl
  · exact load_options ..

/-- No request changes the options. -/
theorem handle_options (r : FieldReader) (q : ReaderRequest) :
    (r.handle charsets q).options = r.options := by
  cases q with
  | load text aware => exact load_options r text aware
  | loadBytes bytes aware => exact loadBytes_options charsets r bytes aware
  | bind namespaces => rfl

/-- No past changes the options. -/
theorem after_options (r : FieldReader) (past : List ReaderRequest) :
    (r.after charsets past).options = r.options := by
  induction past generalizing r with
  | nil => rfl
  | cons q past ih => exact (ih (r.handle charsets q)).trans (handle_options charsets r q)

/-! ## What a load depends on -/

/-- Loading a text asks the reader for its options only. -/
theorem load_eq_new (r : FieldReader) (text : String) (aware : Bool) :
    r.load text aware = (new r.options).load text aware :=
  rfl

/-- Bytes that are decoded are loaded as their text is. -/
theorem loadBytes_of_decoded {bytes : List UInt8} {text : String}
    (h : Encoding.decodeDocument charsets bytes = .ok text) (r : FieldReader) (aware : Bool) :
    r.loadBytes charsets bytes aware = r.load text aware := by
  unfold loadBytes
  rw [h, load_eq_new r]
  exact load_eq_new { r with loaded := none } text aware

/-- Bytes that cannot be decoded take the document away, and nothing else. -/
theorem loadBytes_of_malformed {bytes : List UInt8} {e : EncodingError}
    (h : Encoding.decodeDocument charsets bytes = .error e) (r : FieldReader) (aware : Bool) :
    r.loadBytes charsets bytes aware = ({ r with loaded := none }, .error (.encoding e)) := by
  unfold loadBytes
  rw [h]

/-- After any past, a text is loaded as by a reader that has seen nothing. -/
theorem load_after (o : ReadOptions) (past : List ReaderRequest) (text : String) (aware : Bool) :
    ((new o).after charsets past).load text aware = (new o).load text aware := by
  rw [load_eq_new, after_options]
  rfl

/-- After any past, bytes are loaded as by a reader that has seen nothing, but for the bindings when
they cannot be decoded: those are what the past has left. -/
theorem loadBytes_after (o : ReadOptions) (past : List ReaderRequest) (bytes : List UInt8)
    (aware : Bool) :
    ((new o).after charsets past).loadBytes charsets bytes aware =
      match Encoding.decodeDocument charsets bytes with
      | .ok _ => (new o).loadBytes charsets bytes aware
      | .error _ =>
        let (r, result) := (new o).loadBytes charsets bytes aware
        (r.withNamespaces ((new o).after charsets past).namespaces, result) := by
  cases hdecoded : Encoding.decodeDocument charsets bytes with
  | ok text =>
    rw [loadBytes_of_decoded charsets hdecoded, loadBytes_of_decoded charsets hdecoded]
    exact load_after charsets o past text aware
  | error e =>
    have hkept : ((new o).after charsets past).options = (new o).options :=
      after_options charsets (new o) past
    rw [loadBytes_of_malformed charsets hdecoded, loadBytes_of_malformed charsets hdecoded, hkept]
    rfl

/-- Two readers with the same options load alike, whatever each has seen before: they answer the same
and hold the same document, and they come to the same bindings. The bindings of before are left only
by bytes that cannot be decoded. -/
theorem loads_alike (o : ReadOptions) (past past' : List ReaderRequest) :
    let r := (new o).after charsets past
    let r' := (new o).after charsets past'
    (∀ text aware, r.load text aware = r'.load text aware) ∧
      ∀ bytes aware,
        (r.loadBytes charsets bytes aware).2 = (r'.loadBytes charsets bytes aware).2 ∧
          (r.loadBytes charsets bytes aware).1.loaded = (r'.loadBytes charsets bytes aware).1.loaded ∧
          (r.loadBytes charsets bytes aware).1.namespaces =
            if (Encoding.decodeDocument charsets bytes).toOption.isSome then
              (r'.loadBytes charsets bytes aware).1.namespaces
            else r.namespaces := by
  intro r r'
  refine ⟨fun text aware => ?_, fun bytes aware => ?_⟩
  · have h := load_after charsets o past text aware
    exact h.trans (load_after charsets o past' text aware).symm
  · have h := loadBytes_after charsets o past bytes aware
    have h' := loadBytes_after charsets o past' bytes aware
    cases hdecoded : Encoding.decodeDocument charsets bytes with
    | ok text =>
      rw [hdecoded] at h h'
      have hsame : r.loadBytes charsets bytes aware = r'.loadBytes charsets bytes aware :=
        h.trans h'.symm
      rw [hsame]
      exact ⟨rfl, rfl, rfl⟩
    | error e =>
      rw [hdecoded] at h h'
      rw [h, h']
      exact ⟨rfl, rfl, rfl⟩

/-- Bytes that cannot be decoded leave a reader with the bindings of the document that it has just let
go of, and a reader that has seen nothing without any. -/
theorem bindings_outlive_document :
    let past : List ReaderRequest := [.load "<x:a xmlns:x='u'/>" true]
    let bytes : List UInt8 := [0x80]
    let r := ((new {}).after .tabulated past).loadBytes .tabulated bytes true
    let r' := ((new {}).after .tabulated []).loadBytes .tabulated bytes true
    r.1.loaded = none ∧ r.1.namespaces = ⟨[("x", "u")]⟩ ∧
      r' = (new {}, .error (.encoding (.malformed .utf8))) ∧ r.2 = r'.2 := by
  decide +kernel

end FieldReader

end MarkupFields
