import Etoile.Lucene.TermVectors
import Mathlib.Data.List.Infix

/-!
# The writer of term vectors

The first file has a pointer for every document, to where the second has the numbers of the fields
that have vectors and pointers to these in the third.

A log of the calls says what was asked of the writer.  Whatever the calls, the files hold the
documents of the log.
-/

namespace Etoile.Lucene.TermVectors

open List Option

namespace LCSegmentTermVector

variable (v : LCSegmentTermVector)

/-- Of an empty array `-termPositions:` is `nil`. -/
def termPositions (index : ℕ) : Option (List (BitVec 64)) :=
  if v.storePositions = true ∧ v.entries ≠ [] then
    some ((v.entries[index]?.map (·.positions)).getD [])
  else none

def termOffsets (index : ℕ) : Option (List LCTermVectorOffsetInfo) :=
  if v.storeOffsets = true ∧ v.entries ≠ [] then
    some ((v.entries[index]?.map (·.offsets)).getD [])
  else none

def storePositionWithTermVector : Bool :=
  decide (0 < v.entries.length) && (v.termPositions 0).any fun positions => 0 < positions.length

def storeOffsetWithTermVector : Bool :=
  decide (0 < v.entries.length) && (v.termOffsets 0).any fun offsets => 0 < offsets.length

/-- The terms that are added for a vector with positions or offsets, and for one without. -/
def terms : List LCTVTerm :=
  if v.storePositions || v.storeOffsets then
    v.entries.mapIdx fun j e => ⟨e.text, e.freq, v.termPositions j, v.termOffsets j⟩
  else v.entries.map fun e => ⟨e.text, e.freq.bmod (2 ^ 32), none, none⟩

def firstOccurs : Bool := v.entries.head?.any fun e => 0 < e.freq

variable {v}

theorem terms_eq (h : FromReader v) : v.terms = v.entries.map fun e =>
    ⟨e.text, e.freq, if v.storePositions then some e.positions else none,
      if v.storeOffsets then some e.offsets else none⟩ := by
  unfold terms
  by_cases hstored : (v.storePositions || v.storeOffsets) = true
  · rw [if_pos hstored]
    refine ext_getElem (by simp) fun k hk hk' => ?_
    have hlt : k < v.entries.length := by simpa using hk
    have hne : v.entries ≠ [] := ne_nil_of_length_pos (by omega)
    simp [termPositions, termOffsets, hne, hlt]
  · rw [if_neg hstored]
    simp only [Bool.or_eq_true, not_or, Bool.not_eq_true] at hstored
    refine map_congr_left fun e he => ?_
    rw [IndexOutput.bmod_eq_iff.2 (h.entries e he).freq, hstored.1, hstored.2]
    rfl

theorem storePositionWithTermVector_eq (h : FromReader v) :
    v.storePositionWithTermVector = (v.storePositions && v.firstOccurs) := by
  unfold storePositionWithTermVector termPositions firstOccurs
  rcases hentries : v.entries with _ | ⟨e, entries⟩
  · simp
  · have hlength := (h.entries e (by simp [hentries])).positions
    cases hstored : v.storePositions <;> simp [hstored] at hlength ⊢
    omega

theorem storeOffsetWithTermVector_eq (h : FromReader v) :
    v.storeOffsetWithTermVector = (v.storeOffsets && v.firstOccurs) := by
  unfold storeOffsetWithTermVector termOffsets firstOccurs
  rcases hentries : v.entries with _ | ⟨e, entries⟩
  · simp
  · have hlength := (h.entries e (by simp [hentries])).offsets
    cases hstored : v.storeOffsets <;> simp [hstored] at hlength ⊢
    omega

end LCSegmentTermVector

structure LCTVField where
  number : ℕ
  tvfPointer : ℕ
  storePositions : Bool
  storeOffsets : Bool

/-- What the streams have so far; no document is open if there is no pointer to it. -/
structure LCTermVectorsWriter where
  tvx : List UInt8
  tvd : List UInt8
  tvf : List UInt8
  fields : List LCTVField
  terms : List LCTVTerm
  currentField : Option LCTVField
  currentDocPointer : Option ℕ

/-- The fields of a document in the second file; a difference of pointers is a `long long`. -/
def pointerBytes : ℕ → List LCTVField → List UInt8
  | _, [] => []
  | lastFieldPointer, field :: fields =>
    writeVLong (((field.tvfPointer : ℤ) - lastFieldPointer) % 2 ^ 64).toNat
      ++ pointerBytes field.tvfPointer fields

def docBytes (fields : List LCTVField) : List UInt8 :=
  IndexOutput.writeVInt fields.length
    ++ (fields.flatMap fun field => IndexOutput.writeVInt field.number) ++ pointerBytes 0 fields

namespace LCTermVectorsWriter

def new : LCTermVectorsWriter where
  tvx := writeInt TERM_VECTORS_WRITER_FORMAT_VERSION
  tvd := writeInt TERM_VECTORS_WRITER_FORMAT_VERSION
  tvf := writeInt TERM_VECTORS_WRITER_FORMAT_VERSION
  fields := []
  terms := []
  currentField := none
  currentDocPointer := none

variable (infos : Stored.FieldInfos) (w : LCTermVectorsWriter)

def closeField : Option LCTermVectorsWriter :=
  match w.currentField with
  | none => some w
  | some field => do
    let bytes ← fieldBytes field.storePositions field.storeOffsets w.terms
    return { w with
      tvf := w.tvf ++ bytes
      fields := w.fields ++ [{ field with tvfPointer := w.tvf.length }]
      terms := []
      currentField := none }

def writeDoc (currentDocPointer : ℕ) : LCTermVectorsWriter :=
  { w with
    tvx := w.tvx ++ writeLong currentDocPointer
    tvd := w.tvd ++ docBytes w.fields }

def closeDocument : Option LCTermVectorsWriter :=
  match w.currentDocPointer with
  | none => some w
  | some currentDocPointer => do
    let w ← w.closeField
    return { w.writeDoc currentDocPointer with fields := [], currentDocPointer := none }

def openDocument : Option LCTermVectorsWriter := do
  let w ← w.closeDocument
  return { w with currentDocPointer := some w.tvd.length }

def openFieldNumber (fieldNumber : ℕ) (storePositions storeOffsets : Bool) :
    Option LCTermVectorsWriter := do
  let w ← w.closeField
  return { w with currentField := some ⟨fieldNumber, 0, storePositions, storeOffsets⟩ }

/-- An unknown field is `nil`. -/
def openField (field : NSString) : Option LCTermVectorsWriter :=
  match infos.fieldInfo field with
  | none => w.openFieldNumber 0 false false
  | some fi => w.openFieldNumber fi.number fi.flags.storePositionWithTermVector
      fi.flags.storeOffsetWithTermVector

def addTermInternal (term : LCTVTerm) : LCTermVectorsWriter := { w with terms := w.terms ++ [term] }

def addTerm (term : LCTVTerm) : LCTermVectorsWriter :=
  if w.currentDocPointer.isNone then w
  else if w.currentField.isNone then w
  else w.addTermInternal term

def addVector (v : LCSegmentTermVector) : Option LCTermVectorsWriter := do
  let number := ((infos.fieldInfo v.field).map (·.number)).getD 0
  let w ← w.openFieldNumber number v.storePositionWithTermVector v.storeOffsetWithTermVector
  (v.terms.foldl addTermInternal w).closeField

def addAllDocumentVectors (vectors : Option (List LCSegmentTermVector)) :
    Option LCTermVectorsWriter := do
  let w ← w.openDocument
  let w ← (vectors.getD []).foldlM (addVector infos) w
  w.closeDocument

end LCTermVectorsWriter

inductive Call
  | openDocument
  | closeDocument
  | openField (field : NSString)
  | closeField
  | addTerm (term : LCTVTerm)
  | addAllDocumentVectors (vectors : Option (List LCSegmentTermVector))

def LCTermVectorsWriter.call (infos : Stored.FieldInfos) (w : LCTermVectorsWriter) :
    Call → Option LCTermVectorsWriter
  | .openDocument => w.openDocument
  | .closeDocument => w.closeDocument
  | .openField field => w.openField infos field
  | .closeField => w.closeField
  | .addTerm term => some (w.addTerm term)
  | .addAllDocumentVectors vectors => w.addAllDocumentVectors infos vectors

structure Files where
  tvx : List UInt8
  tvd : List UInt8
  tvf : List UInt8
deriving DecidableEq

/-- `-close`. -/
def LCTermVectorsWriter.close (w : LCTermVectorsWriter) : Option Files := do
  let w ← w.closeDocument
  return ⟨w.tvx, w.tvd, w.tvf⟩

structure AddedVector where
  field : NSString
  storePositions : Bool
  storeOffsets : Bool
  terms : List LCTVTerm

/-- What the writer is given as the vector of a field: its terms one by one, or a vector from a
reader. -/
inductive GivenVector
  | added (v : AddedVector)
  | copied (v : LCSegmentTermVector)

namespace GivenVector

def field : GivenVector → NSString
  | added v => v.field
  | copied v => v.field

def entries : GivenVector → List Entry
  | added v => v.terms.map (LCTVTerm.entry v.storePositions v.storeOffsets)
  | copied v => v.entries

def storePositions : GivenVector → Bool
  | added v => v.storePositions
  | copied v => v.storePositionWithTermVector

def storeOffsets : GivenVector → Bool
  | added v => v.storeOffsets
  | copied v => v.storeOffsetWithTermVector

def terms : GivenVector → List LCTVTerm
  | added v => v.terms
  | copied v => v.terms

end GivenVector

/-- The documents that are closed, the one that is open, and its open field. -/
structure Log where
  documents : List (List GivenVector)
  document : Option (List GivenVector)
  currentField : Option AddedVector

namespace Log

def empty : Log where
  documents := []
  document := none
  currentField := none

variable (infos : Stored.FieldInfos) (log : Log)

def current (d : List GivenVector) : List GivenVector :=
  d ++ log.currentField.toList.map .added

def closeField : Log :=
  { log with document := log.document.map log.current, currentField := none }

def closeDocument : Log where
  documents := log.documents ++ (log.document.map log.current).toList
  document := none
  currentField := none

def call : Call → Log
  | .openDocument => { log.closeDocument with document := some [] }
  | .closeDocument => log.closeDocument
  | .openField field =>
    let flags := infos.flagsOf field
    { log.closeField with
      currentField := some ⟨field, (flags.map (·.storePositionWithTermVector)).getD false,
        (flags.map (·.storeOffsetWithTermVector)).getD false, []⟩ }
  | .closeField => log.closeField
  | .addTerm term =>
    { log with currentField := log.currentField.map fun v => { v with terms := v.terms ++ [term] } }
  | .addAllDocumentVectors vectors =>
    { log.closeDocument with
      documents := log.closeDocument.documents ++ [(vectors.getD []).map .copied] }

end Log

/-- A vector that can be written: its field is known, and arrays and texts are not too long. -/
structure GivenVector.WellFormed (infos : Stored.FieldInfos) (v : GivenVector) : Prop where
  field : infos.fieldInfo v.field ≠ none
  given : match v with
    | added v => v.terms.length < 2 ^ 31
      ∧ ∀ term ∈ v.terms, term.WellFormed v.storePositions v.storeOffsets
    | copied v => FromReader v ∧ ∀ e ∈ v.entries, e.text.length < 2 ^ 31

/-- Positions or offsets of a later term are lost since the first term is not there. -/
def LCSegmentTermVector.LosesFlags (v : LCSegmentTermVector) : Prop :=
  (v.storePositions || v.storeOffsets) = true ∧ v.firstOccurs = false ∧ ∃ e ∈ v.entries, 0 < e.freq

def GivenVector.Kept : GivenVector → Prop
  | added v => ∀ term ∈ v.terms, term.Kept v.storePositions
  | copied v => ¬ v.LosesFlags ∧ (v.storePositions = true → ∀ e ∈ v.entries, Close 0 e.positions)

structure ProperDocument (infos : Stored.FieldInfos) (d : List GivenVector) : Prop where
  nodup : (d.map GivenVector.field).Nodup
  wellFormed : ∀ v ∈ d, v.WellFormed infos

/-- A field is opened once in a document that is open, and gets terms that fit its flags; vectors
come from a reader. -/
def Legal (infos : Stored.FieldInfos) (log : Log) : Call → Prop
  | .openField field => infos.fieldInfo field ≠ none
    ∧ ∃ d, log.document = some d ∧ field ∉ (log.current d).map GivenVector.field
  | .addTerm term => ∀ v, log.currentField = some v →
      term.WellFormed v.storePositions v.storeOffsets ∧ v.terms.length + 1 < 2 ^ 31
  | .addAllDocumentVectors vectors => ProperDocument infos ((vectors.getD []).map .copied)
  | _ => True

inductive Logs (infos : Stored.FieldInfos) : List Call → Log → Prop
  | new : Logs infos [] Log.empty
  | call {calls : List Call} {log : Log} {c : Call} : Logs infos calls log → Legal infos log c →
      Logs infos (calls ++ [c]) (log.call infos c)

section Proper

variable {infos : Stored.FieldInfos} {log : Log} {d : List GivenVector} {v v' : GivenVector}
  {c : Call}

theorem ProperDocument.nil : ProperDocument infos [] := ⟨nodup_nil, nofun⟩

theorem ProperDocument.concat (h : ProperDocument infos d)
    (hnew : v.field ∉ d.map GivenVector.field) (hv : v.WellFormed infos) :
    ProperDocument infos (d ++ [v]) := by
  constructor
  · rw [map_append, nodup_append]
    refine ⟨h.nodup, by simp, ?_⟩
    simp only [map_cons, map_nil, mem_singleton]
    rintro a ha b rfl rfl
    exact hnew ha
  · simpa [or_imp, forall_and] using ⟨h.wellFormed, hv⟩

theorem ProperDocument.set_last (h : ProperDocument infos (d ++ [v])) (hfield : v'.field = v.field)
    (hv : v'.WellFormed infos) : ProperDocument infos (d ++ [v']) := by
  constructor
  · simpa [hfield] using h.nodup
  · have hall := h.wellFormed
    simp only [forall_mem_append, forall_mem_singleton] at hall ⊢
    exact ⟨hall.1, hv⟩

namespace Log

theorem current_of_none (h : log.currentField = none) (d : List GivenVector) :
    log.current d = d := by
  simp [current, h]

theorem current_of_some {v : AddedVector} (h : log.currentField = some v) (d : List GivenVector) :
    log.current d = d ++ [.added v] := by
  simp [current, h]

structure Proper (infos : Stored.FieldInfos) (log : Log) : Prop where
  documents : ∀ d ∈ log.documents, ProperDocument infos d
  document : ∀ d, log.document = some d → ProperDocument infos (log.current d)
  currentField : log.document = none → log.currentField = none

theorem proper_empty : empty.Proper infos := ⟨nofun, nofun, fun _ => rfl⟩

theorem Proper.closeField (h : log.Proper infos) : log.closeField.Proper infos := by
  refine ⟨h.documents, fun d hd => ?_, fun _ => rfl⟩
  obtain ⟨d', hd', rfl⟩ := map_eq_some_iff.1 hd
  rw [current_of_none rfl]
  exact h.document d' hd'

theorem Proper.closeDocument (h : log.Proper infos) : log.closeDocument.Proper infos := by
  refine ⟨fun d hd => ?_, nofun, fun _ => rfl⟩
  rcases mem_append.1 hd with hd | hd
  · exact h.documents d hd
  · obtain ⟨d', hd', rfl⟩ := map_eq_some_iff.1 (mem_toList.1 hd)
    exact h.document d' hd'

theorem Proper.addTerm (h : log.Proper infos) {term : LCTVTerm}
    (hc : Legal infos log (.addTerm term)) : (log.call infos (.addTerm term)).Proper infos := by
  refine ⟨h.documents, fun d hd => ?_, fun hnone => ?_⟩
  · have hproper := h.document d hd
    rcases hv : log.currentField with _ | v
    · rw [current_of_none hv] at hproper
      rwa [current_of_none (by rw [Log.call, hv]; rfl)]
    · rw [current_of_some hv] at hproper
      rw [current_of_some (by rw [Log.call, hv]; rfl)]
      have hv' := hproper.wellFormed (.added v) (by simp)
      obtain ⟨hterm, hlength⟩ := hc v hv
      refine hproper.set_last rfl ⟨hv'.field, by simpa using hlength, ?_⟩
      rintro t ht
      rcases mem_append.1 ht with ht | ht
      · exact hv'.given.2 t ht
      · rwa [mem_singleton.1 ht]
  · rw [Log.call, h.currentField hnone]
    rfl

theorem Proper.call (h : log.Proper infos) (hc : Legal infos log c) :
    (log.call infos c).Proper infos := by
  cases c with
  | openDocument =>
    refine ⟨h.closeDocument.documents, ?_, nofun⟩
    rintro d ⟨⟩
    exact .nil
  | closeDocument => exact h.closeDocument
  | openField field =>
    obtain ⟨hknown, d, hd, hnew⟩ := hc
    refine ⟨h.documents, fun d' hd' => ?_, fun hnone => ?_⟩
    · rw [current_of_some rfl]
      obtain ⟨d'', hd'', rfl⟩ := map_eq_some_iff.1 hd'
      obtain rfl := some.inj (hd.symm.trans hd'')
      exact (h.document d hd).concat hnew ⟨hknown, by simp, nofun⟩
    · rw [Log.call, Log.closeField, hd] at hnone
      cases hnone
  | closeField => exact h.closeField
  | addTerm term => exact h.addTerm hc
  | addAllDocumentVectors vectors =>
    refine ⟨fun d hd => ?_, h.closeDocument.document, h.closeDocument.currentField⟩
    rcases mem_append.1 hd with hd | hd
    · exact h.closeDocument.documents d hd
    · rw [mem_singleton.1 hd]
      exact hc

end Log

end Proper

section ReadBack

variable {infos : Stored.FieldInfos} {v : GivenVector}

theorem GivenVector.WellFormed.terms (h : v.WellFormed infos) : v.terms.length < 2 ^ 31
    ∧ ∀ term ∈ v.terms, term.WellFormed v.storePositions v.storeOffsets := by
  cases v with
  | added v => exact h.given
  | copied v =>
    obtain ⟨hreader, htexts⟩ := h.given
    have hterms := LCSegmentTermVector.terms_eq hreader
    refine ⟨?_, ?_⟩
    · rw [GivenVector.terms, hterms, length_map]
      exact hreader.length
    · rw [GivenVector.terms, hterms, List.forall_mem_map]
      intro e he
      have hfreq := (hreader.entries e he).freq
      have hpositions := (hreader.entries e he).positions
      have hoffsets := (hreader.entries e he).offsets
      refine ⟨htexts e he, hfreq.1, fun hstore => ?_, fun hstore => ?_⟩
      · rw [GivenVector.storePositions, LCSegmentTermVector.storePositionWithTermVector_eq hreader,
          Bool.and_eq_true] at hstore
        rw [hstore.1, if_pos rfl] at hpositions
        exact ⟨e.positions, by simp [hstore.1], hpositions, by omega⟩
      · rw [GivenVector.storeOffsets, LCSegmentTermVector.storeOffsetWithTermVector_eq hreader,
          Bool.and_eq_true] at hstore
        rw [hstore.1, if_pos rfl] at hoffsets
        exact ⟨e.offsets, by simp [hstore.1], hoffsets, by omega⟩

/-- The vector that is returned has the field and the entries that were asked to be kept. -/
structure Same (v : GivenVector) (r : LCSegmentTermVector) : Prop where
  field : r.field = v.field
  entries : r.entries = v.entries

section Copied

variable {storePositions storeOffsets : Bool} {e : Entry} {v : LCSegmentTermVector}

theorem Entry.FromReader.eq_nil (h : e.FromReader storePositions storeOffsets)
    (hfreq : e.freq ≤ 0) : e.positions = [] ∧ e.offsets = [] := by
  have hzero : e.freq.toNat = 0 := by omega
  have hpositions := h.positions
  have hoffsets := h.offsets
  rw [hzero, ite_self] at hpositions hoffsets
  exact ⟨eq_nil_of_length_eq_zero hpositions, eq_nil_of_length_eq_zero hoffsets⟩

abbrev Entry.term (storePositions storeOffsets : Bool) (e : Entry) : LCTVTerm :=
  ⟨e.text, e.freq, if storePositions then some e.positions else none,
    if storeOffsets then some e.offsets else none⟩

theorem readBack_own_iff (h : e.FromReader storePositions storeOffsets) :
    (e.term storePositions storeOffsets).readBack storePositions storeOffsets = e
      ↔ (storePositions = true → Close 0 e.positions) := by
  have hpositions : (if storePositions then
      wrapped 0 0 ((if storePositions then some e.positions else none).getD []) else [])
        = e.positions ↔ (storePositions = true → Close 0 e.positions) := by
    cases storePositions
    · have hnil : e.positions = [] := by simpa using h.positions
      simp [hnil]
    · simp [← wrapped_eq_iff]
  have hoffsets : (if storeOffsets then
      ((if storeOffsets then some e.offsets else none).getD []) else []) = e.offsets := by
    cases storeOffsets
    · have hnil : e.offsets = [] := by simpa using h.offsets
      simp [hnil]
    · rfl
  rw [← hpositions, LCTVTerm.readBack, IndexOutput.bmod_eq_iff.2 h.freq, hoffsets]
  rcases e with ⟨text, freq, positions, offsets⟩
  simp

theorem readBack_none_iff (h : e.FromReader storePositions storeOffsets) :
    (e.term storePositions storeOffsets).readBack false false = e
      ↔ ((storePositions || storeOffsets) = true → e.freq ≤ 0) := by
  have hparts : (e.term storePositions storeOffsets).readBack false false = e
      ↔ e.positions = [] ∧ e.offsets = [] := by
    rw [LCTVTerm.readBack, IndexOutput.bmod_eq_iff.2 h.freq]
    rcases e with ⟨text, freq, positions, offsets⟩
    simp [eq_comm]
  have hpositions := h.positions
  have hoffsets := h.offsets
  rw [hparts]
  constructor
  · rintro ⟨hp, ho⟩ hstored
    rw [hp, length_nil] at hpositions
    rw [ho, length_nil] at hoffsets
    rcases Bool.or_eq_true_iff.1 hstored with hstore | hstore
    · rw [if_pos hstore] at hpositions
      omega
    · rw [if_pos hstore] at hoffsets
      omega
  · intro hfreq
    by_cases hstored : (storePositions || storeOffsets) = true
    · exact h.eq_nil (hfreq hstored)
    · simp only [Bool.or_eq_true, not_or, Bool.not_eq_true] at hstored
      simp only [hstored, Bool.false_eq_true, if_false, length_eq_zero_iff]
        at hpositions hoffsets
      exact ⟨hpositions, hoffsets⟩

theorem entries_copied_iff (h : FromReader v) :
    v.terms.map (LCTVTerm.readBack v.storePositionWithTermVector v.storeOffsetWithTermVector)
        = v.entries
      ↔ (GivenVector.copied v).Kept := by
  have hall := map_inj_left (l := v.entries) (g := id) (f := fun e =>
    (e.term v.storePositions v.storeOffsets).readBack v.storePositionWithTermVector
      v.storeOffsetWithTermVector)
  rw [List.map_id] at hall
  rw [LCSegmentTermVector.terms_eq h, List.map_map, GivenVector.Kept,
    LCSegmentTermVector.LosesFlags]
  refine hall.trans ?_
  rw [LCSegmentTermVector.storePositionWithTermVector_eq h,
    LCSegmentTermVector.storeOffsetWithTermVector_eq h]
  cases hfirst : v.firstOccurs
  · simp only [Bool.and_false, id, true_and]
    constructor
    · intro hread
      have hfreq := fun e he => (readBack_none_iff (h.entries e he)).1 (hread e he)
      refine ⟨?_, fun hstore e he => ?_⟩
      · rintro ⟨hstored, e, he, hpos⟩
        exact absurd (hfreq e he hstored) (not_le.2 hpos)
      · have hnil := (h.entries e he).eq_nil (hfreq e he (by simp [hstore]))
        rw [hnil.1]
        trivial
    · rintro ⟨hkept, -⟩ e he
      refine (readBack_none_iff (h.entries e he)).2 fun hstored => not_lt.1 fun hpos => ?_
      exact hkept ⟨hstored, e, he, hpos⟩
  · simp only [Bool.and_true, id, Bool.true_eq_false, false_and, and_false, not_false_eq_true,
      true_and]
    constructor
    · intro hread hstore e he
      exact (readBack_own_iff (h.entries e he)).1 (hread e he) hstore
    · intro hclose e he
      exact (readBack_own_iff (h.entries e he)).2 fun hstore => hclose hstore e he

end Copied

theorem same_readBack_iff (h : v.WellFormed infos) :
    Same v (readBack v.storePositions v.storeOffsets v.field v.terms) ↔ v.Kept := by
  have hsame : Same v (readBack v.storePositions v.storeOffsets v.field v.terms)
      ↔ v.terms.map (LCTVTerm.readBack v.storePositions v.storeOffsets) = v.entries := by
    rw [← readBack_entries v.field]
    exact ⟨fun hsame => hsame.entries, fun hentries => ⟨readBack_field _, hentries⟩⟩
  rw [hsame]
  cases v with
  | added v =>
    rw [GivenVector.Kept, GivenVector.terms, GivenVector.entries, map_inj_left]
    exact forall₂_congr fun term hterm =>
      LCTVTerm.readBack_eq_entry_iff (h.given.2 term hterm)
  | copied v => exact entries_copied_iff h.given.1

end ReadBack

structure Placed (infos : Stored.FieldInfos) (tvf : List UInt8) (v : GivenVector)
    (field : LCTVField) : Prop where
  number : ∃ fi, infos.fieldInfo v.field = some fi ∧ field.number = fi.number
  le_length : field.tvfPointer ≤ tvf.length
  bytes : ∃ b, fieldBytes v.storePositions v.storeOffsets v.terms = some b
    ∧ b <+: tvf.drop field.tvfPointer

def PlacedDocument (infos : Stored.FieldInfos) (tvx tvd tvf : List UInt8) (n : ℕ)
    (d : List GivenVector) : Prop :=
  ∃ pointer fields, pointer ≤ tvd.length ∧ writeLong pointer <+: tvx.drop (n * 8 + 4)
    ∧ docBytes fields <+: tvd.drop pointer ∧ Forall₂ (Placed infos tvf) d fields

def openField (infos : Stored.FieldInfos) (v : AddedVector) : LCTVField where
  number := ((infos.fieldInfo v.field).map (·.number)).getD 0
  tvfPointer := 0
  storePositions := v.storePositions
  storeOffsets := v.storeOffsets

structure Holds (infos : Stored.FieldInfos) (log : Log) (w : LCTermVectorsWriter) : Prop where
  tvx : writeInt TERM_VECTORS_WRITER_FORMAT_VERSION <+: w.tvx
  tvd : writeInt TERM_VECTORS_WRITER_FORMAT_VERSION <+: w.tvd
  tvf : writeInt TERM_VECTORS_WRITER_FORMAT_VERSION <+: w.tvf
  length : w.tvx.length = log.documents.length * 8 + 4
  documents : ∀ n (h : n < log.documents.length),
    PlacedDocument infos w.tvx w.tvd w.tvf n log.documents[n]
  currentDocPointer : w.currentDocPointer = log.document.map fun _ => w.tvd.length
  fields : Forall₂ (Placed infos w.tvf) (log.document.getD []) w.fields
  currentField : w.currentField = log.currentField.map (openField infos)
  terms : w.terms = (log.currentField.map (·.terms)).getD []

section Holds

variable {infos : Stored.FieldInfos} {log : Log} {w : LCTermVectorsWriter} {v : GivenVector}
  {field : LCTVField} {d : List GivenVector} {tvx tvd tvf : List UInt8} {n : ℕ} {c : Call}

theorem prefix_drop_append {α : Type} {b l : List α} {k : ℕ} (h : b <+: l.drop k) (x : List α) :
    b <+: (l ++ x).drop k := by
  rw [drop_append]
  exact h.trans (prefix_append _ _)

theorem Placed.append (h : Placed infos tvf v field) (x : List UInt8) :
    Placed infos (tvf ++ x) v field where
  number := h.number
  le_length := h.le_length.trans (by simp)
  bytes := h.bytes.imp fun _ hb => ⟨hb.1, prefix_drop_append hb.2 x⟩

theorem PlacedDocument.append (h : PlacedDocument infos tvx tvd tvf n d) (x y z : List UInt8) :
    PlacedDocument infos (tvx ++ x) (tvd ++ y) (tvf ++ z) n d := by
  obtain ⟨pointer, fields, hle, hlong, hdoc, hfields⟩ := h
  exact ⟨pointer, fields, hle.trans (by simp), prefix_drop_append hlong x,
    prefix_drop_append hdoc y, hfields.imp fun _ _ hplaced => hplaced.append z⟩

theorem Holds.new : Holds infos Log.empty LCTermVectorsWriter.new where
  tvx := prefix_rfl
  tvd := prefix_rfl
  tvf := prefix_rfl
  length := length_writeInt _
  documents := nofun
  currentDocPointer := rfl
  fields := .nil
  currentField := rfl
  terms := rfl

theorem Placed.new (hv : v.WellFormed infos) {b : List UInt8}
    (hb : fieldBytes v.storePositions v.storeOffsets v.terms = some b) :
    Placed infos (tvf ++ b) v ⟨((infos.fieldInfo v.field).map (·.number)).getD 0, tvf.length,
      v.storePositions, v.storeOffsets⟩ := by
  obtain ⟨fi, hfi⟩ := ne_none_iff_exists'.1 hv.field
  exact ⟨⟨fi, hfi, by rw [hfi]; rfl⟩, by simp, b, hb, by simp⟩

theorem Holds.writeVector (h : Holds infos log w) (hnone : log.currentField = none)
    (hd : log.document = some d) (hv : v.WellFormed infos) :
    ∃ w', LCTermVectorsWriter.closeField { w with
        currentField := some ⟨((infos.fieldInfo v.field).map (·.number)).getD 0, 0,
          v.storePositions, v.storeOffsets⟩
        terms := v.terms } = some w'
      ∧ Holds infos { log with document := some (d ++ [v]) } w' := by
  obtain ⟨b, hb, -⟩ := exists_fieldBytes hv.terms.1 hv.terms.2
  refine ⟨_, by simp only [LCTermVectorsWriter.closeField, hb]; rfl, ?_⟩
  have hfields := h.fields
  have hpointer := h.currentDocPointer
  rw [hd] at hfields hpointer
  refine ⟨h.tvx, h.tvd, h.tvf.trans (prefix_append _ _), h.length, fun n hn => ?_, hpointer,
    ?_, ?_, ?_⟩
  · have happend := (h.documents n hn).append [] [] b
    simpa using happend
  · refine rel_append (hfields.imp fun _ _ hplaced => hplaced.append b) (.cons ?_ .nil)
    exact Placed.new hv hb
  · simp [hnone]
  · simp [hnone]

theorem Log.closeField_of_none (h : log.currentField = none) : log.closeField = log := by
  rcases log with ⟨documents, document, currentField⟩
  cases h
  cases document <;> simp [Log.closeField, Log.current]

theorem Holds.closeField (h : Holds infos log w) (hproper : log.Proper infos) :
    ∃ w', w.closeField = some w' ∧ Holds infos log.closeField w' := by
  rcases hv : log.currentField with _ | v
  · have hw := h.currentField
    rw [hv] at hw
    exact ⟨w, by rw [LCTermVectorsWriter.closeField, hw]; rfl, by rwa [Log.closeField_of_none hv]⟩
  · obtain ⟨d, hd⟩ : ∃ d, log.document = some d := by
      refine ne_none_iff_exists'.1 fun hnone => ?_
      rw [hproper.currentField hnone] at hv
      cases hv
    have hwell := (hproper.document d hd).wellFormed (.added v) (by simp [Log.current, hv])
    have hforget : Holds infos { log with currentField := none }
        { w with currentField := none, terms := [] } :=
      ⟨h.tvx, h.tvd, h.tvf, h.length, h.documents, h.currentDocPointer, h.fields, rfl, rfl⟩
    obtain ⟨w', hw', hholds⟩ := hforget.writeVector rfl hd hwell
    have hcurrent := h.currentField
    have hterms := h.terms
    rw [hv] at hcurrent hterms
    refine ⟨w', ?_, ?_⟩
    · rw [← hw']
      congr 1
      rcases w with ⟨tvx, tvd, tvf, fields, terms, currentField, currentDocPointer⟩
      cases hcurrent
      cases hterms
      rfl
    · simpa [Log.closeField, Log.current, hd, hv] using hholds

theorem currentDocPointer_of_closeField {w' : LCTermVectorsWriter} (h : w.closeField = some w') :
    w'.currentDocPointer = w.currentDocPointer := by
  rw [LCTermVectorsWriter.closeField] at h
  split at h
  · rw [← some.inj h]
  · obtain ⟨b, -, heq⟩ := bind_eq_some_iff.1 h
    rw [← some.inj heq]

theorem Log.closeDocument_of_none (hdocument : log.document = none)
    (hfield : log.currentField = none) : log.closeDocument = log := by
  rcases log with ⟨documents, document, currentField⟩
  cases hdocument
  cases hfield
  simp [Log.closeDocument]

theorem Holds.closeDocument (h : Holds infos log w) (hproper : log.Proper infos) :
    ∃ w', w.closeDocument = some w' ∧ Holds infos log.closeDocument w' := by
  have hpointer := h.currentDocPointer
  rcases hd : log.document with _ | d
  · rw [hd] at hpointer
    refine ⟨w, by rw [LCTermVectorsWriter.closeDocument, hpointer]; rfl, ?_⟩
    rwa [Log.closeDocument_of_none hd (hproper.currentField hd)]
  · obtain ⟨w₁, hw₁, h₁⟩ := h.closeField hproper
    have hpointer₁ := h₁.currentDocPointer
    have hfields := h₁.fields
    rw [currentDocPointer_of_closeField hw₁, hpointer] at hpointer₁
    rw [hd] at hpointer hpointer₁
    rw [Log.closeField, hd] at hpointer₁ hfields
    have hlength : w.tvd.length = w₁.tvd.length := some.inj hpointer₁
    refine ⟨_, by rw [LCTermVectorsWriter.closeDocument, hpointer]; simp only [hw₁]; rfl, ?_⟩
    refine ⟨h₁.tvx.trans (prefix_append _ _), h₁.tvd.trans (prefix_append _ _), h₁.tvf,
      ?_, ?_, rfl, .nil, ?_, ?_⟩
    · simp only [LCTermVectorsWriter.writeDoc, length_append, length_writeLong, h₁.length]
      simp only [Log.closeField, Log.closeDocument, hd, map_some, toList_some,
        length_append, length_singleton]
      omega
    · intro n hn
      have hdocuments : log.closeDocument.documents = log.documents ++ [log.current d] := by
        simp [Log.closeDocument, hd]
      have hcases : n < log.documents.length ∨ n = log.documents.length := by
        simp only [hdocuments, length_append, length_singleton] at hn
        omega
      simp only [hdocuments, LCTermVectorsWriter.writeDoc]
      rcases hcases with hlt | rfl
      · rw [getElem_append_left hlt]
        have happend := (h₁.documents n hlt).append (writeLong w.tvd.length) (docBytes w₁.fields) []
        rwa [append_nil] at happend
      · rw [getElem_concat_length rfl]
        have hplace : w₁.tvx.length = log.documents.length * 8 + 4 := h₁.length
        refine ⟨w.tvd.length, w₁.fields, ?_, ?_, ?_, hfields⟩
        · rw [length_append, hlength]
          omega
        · rw [← hplace, drop_left]
        · rw [hlength, drop_left]
    · exact h₁.currentField
    · exact h₁.terms

theorem Holds.openDocument (h : Holds infos log w) (hproper : log.Proper infos) :
    ∃ w', w.openDocument = some w'
      ∧ Holds infos { log.closeDocument with document := some [] } w' := by
  obtain ⟨w₁, hw₁, h₁⟩ := h.closeDocument hproper
  exact ⟨{ w₁ with currentDocPointer := some w₁.tvd.length },
    by rw [LCTermVectorsWriter.openDocument, hw₁]; rfl,
    h₁.tvx, h₁.tvd, h₁.tvf, h₁.length, h₁.documents, rfl, h₁.fields, h₁.currentField, h₁.terms⟩

theorem Holds.openField (h : Holds infos log w) (hproper : log.Proper infos) {field : NSString}
    (hknown : infos.fieldInfo field ≠ none) :
    ∃ w', w.openField infos field = some w'
      ∧ Holds infos (log.call infos (.openField field)) w' := by
  obtain ⟨w₁, hw₁, h₁⟩ := h.closeField hproper
  obtain ⟨fi, hfi⟩ := ne_none_iff_exists'.1 hknown
  refine ⟨{ w₁ with currentField := some ⟨fi.number, 0, fi.flags.storePositionWithTermVector,
    fi.flags.storeOffsetWithTermVector⟩ }, ?_, h₁.tvx, h₁.tvd, h₁.tvf, h₁.length, h₁.documents,
    h₁.currentDocPointer, h₁.fields, ?_, h₁.terms⟩
  · rw [LCTermVectorsWriter.openField, hfi]
    simp [LCTermVectorsWriter.openFieldNumber, hw₁]
  · simp [Log.call, TermVectors.openField, Stored.FieldInfos.flagsOf, hfi]

theorem Holds.addTerm (h : Holds infos log w) (hproper : log.Proper infos) (term : LCTVTerm) :
    Holds infos (log.call infos (.addTerm term)) (w.addTerm term) := by
  have hpointer := h.currentDocPointer
  have hcurrent := h.currentField
  have hterms := h.terms
  rcases hv : log.currentField with _ | v
  · have hlog : log.call infos (.addTerm term) = log := by
      rcases log with ⟨documents, document, currentField⟩
      cases hv
      rfl
    have hw : w.addTerm term = w := by
      rw [hv] at hcurrent
      simp [LCTermVectorsWriter.addTerm, hcurrent]
    rwa [hlog, hw]
  · obtain ⟨d, hd⟩ : ∃ d, log.document = some d := by
      refine ne_none_iff_exists'.1 fun hnone => ?_
      rw [hproper.currentField hnone] at hv
      cases hv
    rw [hv] at hcurrent hterms
    rw [hd] at hpointer
    have hw : w.addTerm term = { w with terms := v.terms ++ [term] } := by
      simp [LCTermVectorsWriter.addTerm, LCTermVectorsWriter.addTermInternal, hcurrent, hpointer,
        hterms]
    rw [hw]
    refine ⟨h.tvx, h.tvd, h.tvf, h.length, h.documents, h.currentDocPointer, h.fields, ?_, ?_⟩
    · rw [Log.call, hv]
      exact hcurrent
    · rw [Log.call, hv]
      rfl

theorem foldl_addTermInternal : ∀ (terms : List LCTVTerm) (w : LCTermVectorsWriter),
    terms.foldl LCTermVectorsWriter.addTermInternal w = { w with terms := w.terms ++ terms }
  | [], w => by simp
  | term :: terms, w => by
    rw [foldl_cons, foldl_addTermInternal terms]
    simp [LCTermVectorsWriter.addTermInternal]

theorem Holds.addVector (h : Holds infos log w) (hnone : log.currentField = none)
    (hd : log.document = some d) {v : LCSegmentTermVector}
    (hv : (GivenVector.copied v).WellFormed infos) :
    ∃ w', w.addVector infos v = some w'
      ∧ Holds infos { log with document := some (d ++ [.copied v]) } w' := by
  obtain ⟨w', hw', hholds⟩ := h.writeVector hnone hd hv
  refine ⟨w', ?_, hholds⟩
  have hcurrent := h.currentField
  have hterms := h.terms
  rw [hnone] at hcurrent hterms
  have hclose : w.closeField = some w := by
    rw [LCTermVectorsWriter.closeField, hcurrent]
    rfl
  rw [← hw', LCTermVectorsWriter.addVector, LCTermVectorsWriter.openFieldNumber, hclose]
  simp only [bind_eq_bind, bind_some, foldl_addTermInternal, hterms]
  rfl

theorem Holds.addVectors : ∀ {vectors : List LCSegmentTermVector} {log : Log}
    {w : LCTermVectorsWriter} {d : List GivenVector}, Holds infos log w →
      log.currentField = none → log.document = some d →
      (∀ v ∈ vectors, (GivenVector.copied v).WellFormed infos) →
        ∃ w', vectors.foldlM (LCTermVectorsWriter.addVector infos) w = some w'
          ∧ Holds infos { log with document := some (d ++ vectors.map .copied) } w'
  | [], log, w, d, h, _, hd, _ => by
    refine ⟨w, rfl, ?_⟩
    rw [map_nil, append_nil, ← hd]
    exact h
  | v :: vectors, log, w, d, h, hnone, hd, hv => by
    rw [forall_mem_cons] at hv
    obtain ⟨w₁, hw₁, h₁⟩ := h.addVector hnone hd hv.1
    obtain ⟨w', hw', h'⟩ := h₁.addVectors hnone rfl hv.2
    refine ⟨w', by simp [hw₁, hw'], ?_⟩
    rw [append_assoc, singleton_append] at h'
    exact h'

theorem Holds.addAllDocumentVectors (h : Holds infos log w) (hproper : log.Proper infos)
    {vectors : Option (List LCSegmentTermVector)}
    (hlegal : Legal infos log (.addAllDocumentVectors vectors)) :
    ∃ w', w.addAllDocumentVectors infos vectors = some w'
      ∧ Holds infos (log.call infos (.addAllDocumentVectors vectors)) w' := by
  obtain ⟨w₁, hw₁, h₁⟩ := h.openDocument hproper
  obtain ⟨w₂, hw₂, h₂⟩ := h₁.addVectors rfl rfl fun v hv =>
    hlegal.wellFormed (.copied v) (mem_map_of_mem hv)
  have hproper₂ : Log.Proper infos { log.closeDocument with
      document := some ([] ++ (vectors.getD []).map .copied) } := by
    refine ⟨hproper.closeDocument.documents, ?_, nofun⟩
    rintro d ⟨⟩
    have hdocument : ProperDocument infos ((vectors.getD []).map .copied) := hlegal
    simpa [Log.current, Log.closeDocument] using hdocument
  obtain ⟨w₃, hw₃, h₃⟩ := h₂.closeDocument hproper₂
  refine ⟨w₃, ?_, ?_⟩
  · rw [LCTermVectorsWriter.addAllDocumentVectors, hw₁]
    simp [hw₂, hw₃]
  · simpa [Log.call, Log.closeDocument, Log.current] using h₃

theorem Holds.call (h : Holds infos log w) (hproper : log.Proper infos)
    (hc : Legal infos log c) :
    ∃ w', w.call infos c = some w' ∧ Holds infos (log.call infos c) w' := by
  cases c with
  | openDocument => exact h.openDocument hproper
  | closeDocument => exact h.closeDocument hproper
  | openField field => exact h.openField hproper hc.1
  | closeField => exact h.closeField hproper
  | addTerm term => exact ⟨_, rfl, h.addTerm hproper term⟩
  | addAllDocumentVectors vectors => exact h.addAllDocumentVectors hproper hc

theorem Logs.holds {calls : List Call} (h : Logs infos calls log) : log.Proper infos
    ∧ ∃ w, calls.foldlM (LCTermVectorsWriter.call infos) .new = some w ∧ Holds infos log w := by
  induction h with
  | new => exact ⟨Log.proper_empty, _, rfl, Holds.new⟩
  | call _ hc ih =>
    obtain ⟨hproper, w, hw, hholds⟩ := ih
    obtain ⟨w', hw', hholds'⟩ := hholds.call hproper hc
    exact ⟨hproper.call hc, w', by simp [hw, hw'], hholds'⟩

end Holds

end Etoile.Lucene.TermVectors
