import MarkupFields.Proofs.Markup.Productions
import MarkupFields.Proofs.Markup.WellFormed

/-
  Document type declarations are passed over. What the declaration is made of is written down as a
  grammar (`Doctype`), each part with what makes it well-formed; the reader knows nothing of that
  grammar and only counts square brackets outside of quotes and comments. It is shown of each part
  that passing over it leaves the reader as it was (`PassedOver`), and so of the whole declaration
  that the reader stops just behind it (`doctype_inside`), as a cursor does (`doctype_written`).

  The one part of which this does not hold as it stands is the processing instruction: the reader
  takes the inside of an instruction for more of the declaration. So of instructions it is asked
  that their quotes, brackets and comments are closed (`Balanced`); an apostrophe that stands alone
  in one opens a literal which runs on behind it.
-/

namespace MarkupFields

open Text Scan

/-! ## The grammar -/

namespace Doctype

/-- Space that has to be there. -/
structure Space where
  text : List Char
  spaces : ∀ c ∈ text, isMarkupSpace c = true
  nonempty : text ≠ []

/-- Space that may be there. -/
def Space.optional : Option Space → List Char
  | some s => s.text
  | none => []

structure Name where
  text : List Char
  isName : IsName text

/-- A quoted literal: anything but the quote stands inside. -/
structure Quoted where
  quote : Char
  text : List Char
  isQuote : quote = '"' ∨ quote = '\''
  legal : ∀ c ∈ text, isXmlChar c = true
  closed : quote ∉ text

def Quoted.written (l : Quoted) : List Char :=
  l.quote :: (l.text ++ [l.quote])

structure Comment where
  text : List Char
  legal : ∀ c ∈ text, isXmlChar c = true
  closed : ¬ ['-', '-'] <:+: text ++ ['-']

def Comment.written (k : Comment) : List Char :=
  commentOpen ++ (k.text ++ commentClose)

/-- A processing instruction. Its data, if there is any, begins with the space in front of it. -/
structure Instruction where
  target : List Char
  data : List Char
  isTarget : IsTarget target
  apart : ∀ c ∈ data.head?, isMarkupSpace c = true
  legal : ∀ c ∈ data, isXmlChar c = true
  closed : ¬ instructionClose <:+: data

/-- What stands behind the opening mark. -/
def Instruction.inside (i : Instruction) : List Char :=
  i.target ++ (i.data ++ instructionClose)

def Instruction.written (i : Instruction) : List Char :=
  instructionOpen ++ i.inside

/-- The characters that open or close something in a declaration. -/
def delimiters : List Char :=
  ['"', '\'', '<', '>', '[', ']']

/-- A character of a declaration that neither opens nor closes anything. -/
def isOrdinary (c : Char) : Bool :=
  isXmlChar c && decide (c ∉ delimiters)

/-- A piece of a markup declaration. -/
inductive Piece where
  | literal (l : Quoted)
  | ordinary (c : Char) (h : isOrdinary c = true)

def Piece.written : Piece → List Char
  | literal l => l.written
  | ordinary c _ => [c]

/-- The kinds of markup declarations. -/
inductive Kind where
  | element
  | attributeList
  | entity
  | notationName

def Kind.word : Kind → List Char
  | element => ['E', 'L', 'E', 'M', 'E', 'N', 'T']
  | attributeList => ['A', 'T', 'T', 'L', 'I', 'S', 'T']
  | entity => ['E', 'N', 'T', 'I', 'T', 'Y']
  | notationName => ['N', 'O', 'T', 'A', 'T', 'I', 'O', 'N']

structure MarkupDeclaration where
  kind : Kind
  pieces : List Piece

def MarkupDeclaration.written (d : MarkupDeclaration) : List Char :=
  '<' :: '!' :: (d.kind.word ++ (d.pieces.flatMap Piece.written ++ ['>']))

/-- What an internal subset is made of. -/
inductive SubsetItem where
  | declaration (d : MarkupDeclaration)
  | comment (k : Comment)
  | instruction (i : Instruction)
  | reference (entity : Name)
  | space (s : Space)

def SubsetItem.written : SubsetItem → List Char
  | declaration d => d.written
  | comment k => k.written
  | instruction i => i.written
  | reference entity => '%' :: (entity.text ++ [';'])
  | space s => s.text

/-- An external identifier. -/
inductive ExternalId where
  | system (gap : Space) (place : Quoted)
  | published (gap : Space) (identifier : Quoted) (further : Space) (place : Quoted)

def ExternalId.written : ExternalId → List Char
  | system gap place => ['S', 'Y', 'S', 'T', 'E', 'M'] ++ (gap.text ++ place.written)
  | published gap identifier further place =>
    ['P', 'U', 'B', 'L', 'I', 'C'] ++
      (gap.text ++ (identifier.written ++ (further.text ++ place.written)))

/-- An internal subset between its square brackets. -/
structure Subset where
  entries : List SubsetItem
  space : Option Space

def Subset.written (s : Subset) : List Char :=
  '[' :: (s.entries.flatMap SubsetItem.written ++ [']']) ++ Space.optional s.space

end Doctype

open Doctype in
/-- A document type declaration. -/
structure Doctype where
  gap : Space
  name : Name
  external : Option (Space × ExternalId)
  space : Option Space
  subset : Option Subset

namespace Doctype

def externalText (d : Doctype) : List Char :=
  match d.external with
  | some (gap, e) => gap.text ++ e.written
  | none => []

def subsetText (d : Doctype) : List Char :=
  match d.subset with
  | some s => s.written
  | none => []

/-- What the internal subset holds. -/
def entries (d : Doctype) : List SubsetItem :=
  match d.subset with
  | some s => s.entries
  | none => []

/-- What stands before the closing angle bracket, but for the opening mark. -/
def inside (d : Doctype) : List Char :=
  d.gap.text ++ (d.name.text ++ (d.externalText ++ (Space.optional d.space ++ d.subsetText)))

/-- The whole declaration. -/
def written (d : Doctype) : List Char :=
  doctypeOpen ++ (d.inside ++ ['>'])

/-! ## Instructions that close what they open -/

/-- The rest of an instruction, inside of so many square brackets opened in it: quotes, brackets and
comments are closed before the instruction ends. -/
inductive Balanced : Nat → List Char → Prop where
  | ends : Balanced 0 instructionClose
  | literal {n : Nat} {cs : List Char} (l : Quoted) (h : Balanced n cs) :
      Balanced n (l.written ++ cs)
  | comment {n : Nat} {cs : List Char} (k : Comment) (h : Balanced n cs) :
      Balanced n (k.written ++ cs)
  | opens {n : Nat} {cs : List Char} (h : Balanced (n + 1) cs) : Balanced n ('[' :: cs)
  | closes {n : Nat} {cs : List Char} (h : Balanced n cs) : Balanced (n + 1) (']' :: cs)
  | other {n : Nat} {c : Char} {cs : List Char} (hc : isXmlChar c = true)
      (hd : c ∉ ['"', '\'', '[', ']']) (ho : ¬ commentOpen <+: c :: cs) (h : Balanced n cs) :
      Balanced n (c :: cs)

theorem Balanced.close_suffix {n : Nat} {cs : List Char} (h : Balanced n cs) :
    instructionClose <:+ cs := by
  induction h with
  | ends => exact List.suffix_refl _
  | literal l _ ih => exact ih.trans (List.suffix_append _ _)
  | comment k _ ih => exact ih.trans (List.suffix_append _ _)
  | opens _ ih => exact ih.trans (List.suffix_cons _ _)
  | closes _ ih => exact ih.trans (List.suffix_cons _ _)
  | other _ _ _ _ ih => exact ih.trans (List.suffix_cons _ _)

/-- No comment begins at the end of an instruction and goes on behind it. -/
theorem Balanced.not_commentOpen {n : Nat} {c : Char} {cs : List Char} (h : Balanced n cs)
    (ho : ¬ commentOpen <+: c :: cs) (rest : List Char) : ¬ commentOpen <+: c :: (cs ++ rest) := by
  intro hp
  have hwhole : c :: cs <+: c :: (cs ++ rest) := List.prefix_append (c :: cs) rest
  rcases Nat.le_total commentOpen.length (c :: cs).length with hle | hle
  · exact ho (List.prefix_of_prefix_length_le hp hwhole hle)
  · have hmem : '>' ∈ commentOpen := (List.prefix_of_prefix_length_le hwhole hp hle).subset
      (List.mem_cons_of_mem c (h.close_suffix.subset (by decide)))
    exact absurd hmem (by decide)

end Doctype

namespace Scan

open Doctype

/-! ## One step of the reader -/

theorem doctype_quote {n : Nat} {c : Char} (hc : c = '"' ∨ c = '\'') (next : List Char) :
    doctype n (c :: next) = quoted (c :: next) >>= fun r => doctype n r.2 := by
  rw [doctype, if_pos hc]
  split
  · rename_i e he
    rw [he]
    rfl
  · rename_i v rest hv
    rw [hv]
    rfl

theorem doctype_open (n : Nat) (next : List Char) :
    doctype n ('[' :: next) = doctype (n + 1) next := by
  rw [doctype, if_neg (by decide), if_pos rfl]

theorem doctype_close (n : Nat) (next : List Char) :
    doctype n (']' :: next) = doctype (n - 1) next := by
  rw [doctype, if_neg (by decide), if_neg (by decide), if_pos rfl]

theorem doctype_end (next : List Char) : doctype 0 ('>' :: next) = .ok next := by
  rw [doctype, if_neg (by decide), if_neg (by decide), if_neg (by decide), if_pos ⟨rfl, rfl⟩]

theorem doctype_comment (n : Nat) (inside : List Char) :
    doctype n (commentOpen ++ inside) = comment inside >>= fun r => doctype n r.2 := by
  have hopen : after? commentOpen ('<' :: ['!', '-', '-'] ++ inside) = some inside :=
    after?_append commentOpen inside
  show doctype n ('<' :: (['!', '-', '-'] ++ inside)) = _
  rw [doctype, if_neg (by decide), if_neg (by decide), if_neg (by decide), if_neg (by simp)]
  split
  · rename_i r hr
    obtain rfl : inside = r := Option.some.inj (hopen.symm.trans hr)
    split
    · rename_i e he
      rw [he]
      rfl
    · rename_i v rest hv
      rw [hv]
      rfl
  · rename_i hr
    cases hopen.symm.trans hr

/-- Any other character is passed over by itself. -/
theorem doctype_other {n : Nat} {c : Char} {next : List Char} (hquote : ¬ (c = '"' ∨ c = '\''))
    (hopen : c ≠ '[') (hclose : c ≠ ']') (hend : ¬ (c = '>' ∧ n = 0))
    (hcomment : after? commentOpen (c :: next) = none) :
    doctype n (c :: next) = contribution c next >>= fun _ => doctype n next := by
  rw [doctype, if_neg hquote, if_neg hopen, if_neg hclose, if_neg hend]
  split
  · rename_i inside hinside
    cases hcomment.symm.trans hinside
  · rfl

theorem doctype_legal {n : Nat} {c : Char} {next : List Char} (hc : isXmlChar c = true)
    (hd : c ∉ ['"', '\'', '[', ']']) (hend : ¬ (c = '>' ∧ n = 0))
    (hcomment : ¬ commentOpen <+: c :: next) : doctype n (c :: next) = doctype n next := by
  simp only [List.mem_cons, List.not_mem_nil, or_false, not_or] at hd
  obtain ⟨hdouble, hsingle, hopen, hclose⟩ := hd
  have hfirst : ∃ first, contribution c next = .ok first := by
    unfold contribution
    by_cases hr : c = '\r'
    · exact ⟨_, if_pos hr⟩
    · exact ⟨[c], by rw [if_neg hr, if_pos hc]⟩
  obtain ⟨first, hfirst⟩ := hfirst
  rw [doctype_other (not_or.2 ⟨hdouble, hsingle⟩) hopen hclose hend
    (after?_eq_none_iff.2 hcomment), hfirst, ok_bind]

/-! ## Parts that are passed over -/

/-- Inside of so many square brackets the reader goes over the characters and is as it was. -/
def PassedOver (n : Nat) (cs : List Char) : Prop :=
  ∀ rest, doctype n (cs ++ rest) = doctype n rest

namespace PassedOver

variable {n : Nat}

theorem nil : PassedOver n [] :=
  fun _ => rfl

theorem append {u v : List Char} (hu : PassedOver n u) (hv : PassedOver n v) :
    PassedOver n (u ++ v) := by
  intro rest
  rw [List.append_assoc, hu, hv]

theorem flatMap {α : Type} {l : List α} {f : α → List Char} (h : ∀ a ∈ l, PassedOver n (f a)) :
    PassedOver n (l.flatMap f) := by
  induction l with
  | nil => exact nil
  | cons a l ih =>
    rw [List.flatMap_cons]
    exact (h a List.mem_cons_self).append (ih fun b hb => h b (List.mem_cons_of_mem a hb))

theorem ordinary {c : Char} (h : isOrdinary c = true) : PassedOver n [c] := by
  unfold isOrdinary at h
  rw [Bool.and_eq_true, decide_eq_true_eq] at h
  obtain ⟨hc, hd⟩ := h
  simp only [delimiters, List.mem_cons, List.not_mem_nil, or_false, not_or] at hd
  obtain ⟨hdouble, hsingle, hless, hgreater, hopen, hclose⟩ := hd
  intro rest
  refine doctype_legal hc ?_ (fun hend => hgreater hend.1) fun hp => ?_
  · simp only [List.mem_cons, List.not_mem_nil, or_false, not_or]
    exact ⟨hdouble, hsingle, hopen, hclose⟩
  · exact hless (List.cons_prefix_cons.1 hp).1.symm

theorem allOrdinary {cs : List Char} (h : ∀ c ∈ cs, isOrdinary c = true) : PassedOver n cs := by
  induction cs with
  | nil => exact nil
  | cons c cs ih =>
    exact (ordinary (h c List.mem_cons_self)).append
      (ih fun d hd => h d (List.mem_cons_of_mem c hd))

/-- An angle bracket that does not open a comment is passed over together with what follows it. -/
theorem angle {d : Char} (hd : isOrdinary d = true) (cs : List Char)
    (hp : ∀ rest, ¬ commentOpen <+: '<' :: d :: (cs ++ rest)) (h : PassedOver n cs) :
    PassedOver n ('<' :: d :: cs) := by
  intro rest
  have hless : doctype n ('<' :: d :: (cs ++ rest)) = doctype n (d :: (cs ++ rest)) :=
    doctype_legal (by decide) (by decide) (fun hend => absurd hend.1 (by decide)) (hp rest)
  rw [List.cons_append, List.cons_append, hless]
  exact (ordinary hd).append h rest

/-- Inside of square brackets a closing angle bracket closes no declaration. -/
theorem greater : PassedOver (n + 1) ['>'] := by
  intro rest
  refine doctype_legal (by decide) (by decide) (fun hend => absurd hend.2 (Nat.succ_ne_zero n)) ?_
  exact fun hp => absurd (List.cons_prefix_cons.1 hp).1 (by decide)

theorem space (s : Space) : PassedOver n s.text := by
  refine allOrdinary fun c hc => ?_
  have hspace := s.spaces c hc
  simp only [isMarkupSpace, Bool.or_eq_true, beq_iff_eq] at hspace
  rcases hspace with ((h | h) | h) | h <;> subst h <;> decide

theorem optional (s : Option Space) : PassedOver n (Space.optional s) := by
  cases s with
  | none => exact nil
  | some s => exact space s

/-- Names hold no delimiter. -/
theorem name {word : List Char} (h : IsName word) : PassedOver n word := by
  refine allOrdinary fun c hc => ?_
  have hname := h.isNameChar hc
  unfold isOrdinary
  rw [Bool.and_eq_true, decide_eq_true_eq]
  refine ⟨isXmlChar_of_isNameChar hname, fun hd => ?_⟩
  have hnone : delimiters.any isNameChar = false := by decide
  exact absurd hname (List.any_eq_false.1 hnone c hd)

theorem literal (l : Quoted) : PassedOver n l.written := by
  intro rest
  have hrun : run (upTo [l.quote] .endOfText) (l.text ++ l.quote :: rest) =
      .ok (lineEnds l.text, rest) := by
    refine run_upTo_raw (u := []) ?_ List.not_mem_nil l.legal ?_ rest
    · rcases l.isQuote with h | h
      · rw [h]
        decide
      · rw [h]
        decide
    · exact fun hi => l.closed (hi.subset (List.mem_singleton_self _))
  have hshape : l.written ++ rest = l.quote :: (l.text ++ l.quote :: rest) := by
    simp [Quoted.written]
  rw [hshape, doctype_quote l.isQuote, quoted, if_pos l.isQuote, hrun, ok_bind]

theorem comment (k : Comment) : PassedOver n k.written := by
  intro rest
  rw [Comment.written, List.append_assoc, List.append_assoc, doctype_comment,
    comment_raw k.legal k.closed, ok_bind]

theorem markupDeclaration (d : MarkupDeclaration) : PassedOver (n + 1) d.written := by
  have hword : d.kind.word.all isOrdinary = true := by
    cases d.kind <;> decide
  refine angle (by decide) _ (fun rest hp => ?_) ((allOrdinary (List.all_eq_true.1 hword)).append
    (append ?_ greater))
  · rw [← after?_isSome_iff] at hp
    revert hp
    cases d.kind <;> exact Bool.false_ne_true
  · refine flatMap fun p _ => ?_
    cases p with
    | literal l => exact literal l
    | ordinary c hc => exact ordinary hc

/-- An instruction that closes what it opens is passed over. -/
theorem of_balanced {k : Nat} {cs : List Char} (h : Balanced k cs) (rest : List Char) :
    doctype (n + 1 + k) (cs ++ rest) = doctype (n + 1) rest := by
  induction h with
  | ends =>
    have hmark : PassedOver (n + 1) (['?'] ++ ['>']) := (ordinary (by decide)).append greater
    exact hmark rest
  | literal l _ ih => rw [List.append_assoc, literal l, ih]
  | comment k _ ih => rw [List.append_assoc, comment k, ih]
  | opens _ ih => exact (doctype_open _ _).trans ih
  | closes _ ih => exact (doctype_close _ _).trans ih
  | other hc hd ho h ih =>
    exact (doctype_legal hc hd (fun hend => by omega) (h.not_commentOpen ho rest)).trans ih

theorem instruction {i : Instruction} (h : Balanced 0 i.inside) : PassedOver (n + 1) i.written := by
  refine angle (by decide) i.inside (fun rest hp => ?_) (of_balanced h)
  exact absurd (List.cons_prefix_cons.1 (List.cons_prefix_cons.1 hp).2).1 (by decide)

theorem entry {i : SubsetItem} (h : ∀ p, i = .instruction p → Balanced 0 p.inside) :
    PassedOver (n + 1) i.written := by
  cases i with
  | declaration d => exact markupDeclaration d
  | comment k => exact comment k
  | instruction p => exact instruction (h p rfl)
  | reference entity =>
    exact (ordinary (by decide)).append ((name entity.isName).append (ordinary (by decide)))
  | space s => exact space s

/-- What is passed over inside of one more pair of square brackets is passed over with them. -/
theorem bracketed {cs : List Char} (h : PassedOver (n + 1) cs) :
    PassedOver n ('[' :: (cs ++ [']'])) := by
  intro rest
  rw [List.cons_append, doctype_open, List.append_assoc, h]
  exact doctype_close (n + 1) rest

theorem externalId (e : ExternalId) : PassedOver n e.written := by
  cases e with
  | system gap place =>
    exact (allOrdinary (List.all_eq_true.1 rfl)).append ((space gap).append (literal place))
  | published gap identifier further place =>
    exact (allOrdinary (List.all_eq_true.1 rfl)).append ((space gap).append
      ((literal identifier).append ((space further).append (literal place))))

theorem declaration {d : Doctype}
    (h : ∀ p, SubsetItem.instruction p ∈ d.entries → Balanced 0 p.inside) :
    PassedOver n d.inside := by
  have hexternal : PassedOver n d.externalText := by
    unfold externalText
    split
    · rename_i gap e _
      exact (space gap).append (externalId e)
    · exact nil
  have hsubset : PassedOver n d.subsetText := by
    unfold subsetText
    cases hs : d.subset with
    | none => exact nil
    | some s =>
      have hentries : d.entries = s.entries := by
        unfold Doctype.entries
        rw [hs]
      rw [hentries] at h
      refine (bracketed (flatMap fun i hi => entry fun p hp => h p ?_)).append (optional s.space)
      exact hp ▸ hi
  exact (space d.gap).append ((name d.name.isName).append (hexternal.append
    ((optional d.space).append hsubset)))

end PassedOver

/-! ## The whole declaration -/

theorem doctype_inside (d : Doctype)
    (h : ∀ p, SubsetItem.instruction p ∈ d.entries → Balanced 0 p.inside) (text : List Char) :
    doctype 0 (d.inside ++ '>' :: text) = .ok text := by
  rw [PassedOver.declaration h, doctype_end]

/-- A cursor before the declaration comes to stand just behind its closing angle bracket, whatever
stands in its literals and comments, and so a document is read on from there. -/
theorem doctype_written (d : Doctype)
    (h : ∀ p, SubsetItem.instruction p ∈ d.entries → Balanced 0 p.inside) {text : String}
    {c : Cursor text.toUTF8} {depth n : Nat} {rest : List Char}
    (hc : c.Stands depth n (d.written ++ rest)) :
    ∃ c', c.doctype = .ok c' ∧ c'.Stands depth n rest ∧
      ∀ o, c.afterDoctype o = c'.miscellany o := by
  have hshape : d.written ++ rest = doctypeOpen ++ (d.inside ++ '>' :: rest) := by
    simp [Doctype.written]
  have hread := Cursor.behind_mark (Cursor.doctype_follows hc) hshape
  rw [doctype_inside d h rest] at hread
  obtain ⟨c', hdoctype, hrest⟩ := hread
  refine ⟨c', hdoctype, hrest, fun o => ?_⟩
  rw [hshape] at hc
  unfold Cursor.afterDoctype
  rw [if_pos hc.lookingAt_mark, hdoctype, ok_bind]

/-- A declaration with quotes, brackets and angle brackets in every part that may hold them. -/
def guarded : Doctype where
  gap := ⟨[' '], List.all_eq_true.1 rfl, by decide⟩
  name := ⟨['a'], isName_cons (by decide) (by decide)⟩
  external := some (⟨['\r', '\n'], List.all_eq_true.1 rfl, by decide⟩,
    .published ⟨[' '], List.all_eq_true.1 rfl, by decide⟩
      ⟨'\'', ['>'], by decide, List.all_eq_true.1 rfl, by decide⟩
      ⟨['\t'], List.all_eq_true.1 rfl, by decide⟩
      ⟨'"', ['[', '\''], by decide, List.all_eq_true.1 rfl, by decide⟩)
  space := none
  subset := some ⟨[
    .declaration ⟨.entity, [.ordinary ' ' (by decide), .ordinary 'e' (by decide),
      .ordinary ' ' (by decide),
      .literal ⟨'"', [']', '>', '\''], by decide, List.all_eq_true.1 rfl, by decide⟩]⟩,
    .comment ⟨[']', '>', '"'], List.all_eq_true.1 rfl, by decide⟩,
    .instruction ⟨['p'], [' ', '\'', ']', '\'', '>'],
      ⟨isName_cons (by decide) (by decide), by decide⟩, fun c hc => by cases hc; rfl,
      List.all_eq_true.1 rfl, by decide⟩,
    .reference ⟨['e'], isName_cons (by decide) (by decide)⟩,
    .space ⟨['\n'], List.all_eq_true.1 rfl, by decide⟩], none⟩

theorem guarded_balanced (p : Instruction) (hp : SubsetItem.instruction p ∈ guarded.entries) :
    Balanced 0 p.inside := by
  have hdata : Balanced 0 (['p', ' '] ++ ['\'', ']', '\''] ++ ['>'] ++ instructionClose) :=
    .other (by decide) (by decide) (by decide) (.other (by decide) (by decide) (by decide)
      (.literal ⟨'\'', [']'], by decide, List.all_eq_true.1 rfl, by decide⟩
        (.other (by decide) (by decide) (by decide) .ends)))
  simp only [guarded, Doctype.entries, List.mem_cons, List.not_mem_nil, reduceCtorEq, false_or,
    or_false, SubsetItem.instruction.injEq] at hp
  rw [hp]
  exact hdata

theorem doctype_written_guarded :
    let text := "<!DOCTYPE a\r\nPUBLIC '>'\t\"['\"[<!ENTITY e \"]>'\"><!--]>\"-->" ++
      "<?p ']'>?>%e;\n]>']>"
    let c := Cursor.start text.toUTF8
    text = String.ofList (guarded.written ++ "']>".toList) ∧
      (∀ p, SubsetItem.instruction p ∈ guarded.entries → Balanced 0 p.inside) ∧
      c.Stands 0 0 (guarded.written ++ "']>".toList) ∧
      ∃ c', c.doctype = .ok c' ∧ c'.Stands 0 0 "']>".toList ∧
        ∀ o, c.afterDoctype o = c'.miscellany o := by
  intro text c
  have hwritten : text.toList = guarded.written ++ "']>".toList := by decide
  have hc : c.Stands 0 0 (guarded.written ++ "']>".toList) := hwritten ▸ Cursor.stands_start
  refine ⟨?_, guarded_balanced, hc, doctype_written guarded guarded_balanced hc⟩
  rw [← hwritten, String.ofList_toList]

/-- A declaration with an instruction that holds a single apostrophe. -/
def unpaired : Doctype where
  gap := ⟨[' '], List.all_eq_true.1 rfl, by decide⟩
  name := ⟨['a'], isName_cons (by decide) (by decide)⟩
  external := none
  space := some ⟨[' '], List.all_eq_true.1 rfl, by decide⟩
  subset := some ⟨[.instruction ⟨['p'], " it's".toList,
    ⟨isName_cons (by decide) (by decide), by decide⟩, fun c hc => by cases hc; rfl,
    List.all_eq_true.1 (by decide), by decide⟩], none⟩

/-- The apostrophe opens a literal that nothing closes, so the declaration is not passed over. -/
theorem not_doctype_written :
    unpaired.written = "<!DOCTYPE a [<?p it's?>]>".toList ∧
      ¬ ∀ (d : Doctype) (text : String) (c : Cursor text.toUTF8) (depth n : Nat) (rest : List Char),
        c.Stands depth n (d.written ++ rest) →
          ∃ c', c.doctype = .ok c' ∧ c'.Stands depth n rest := by
  have hwritten : unpaired.written = "<!DOCTYPE a [<?p it's?>]>".toList := by decide
  refine ⟨hwritten, fun h => ?_⟩
  let c := Cursor.start "<!DOCTYPE a [<?p it's?>]><a/>".toUTF8
  have hc : c.Stands 0 0 (unpaired.written ++ "<a/>".toList) := by
    rw [hwritten]
    exact Cursor.stands_start
  have hstop : c.doctype = .error ⟨.endOfText, ⟨1, 30, 29⟩⟩ := by decide +kernel
  obtain ⟨c', hread, -⟩ := h unpaired _ c 0 0 _ hc
  rw [hstop] at hread
  cases hread

end Scan

end MarkupFields
