import Etoile.Lucene.TermVectorWriter
import Mathlib.Data.List.Nodup
import Mathlib.Data.List.Perm.Subperm

/-!
# The reader of term vectors

What is written comes back, but for numbers that do not fit and for copies of vectors whose first
term is not there at all: that a vector has positions and offsets is only seen from those of its
first term.
-/

namespace Etoile.Lucene.TermVectors

open List Option

/-- The streams are `nil` if there are no files. -/
structure LCTermVectorsReader where
  files : Option Files
  tvdFormat : ℤ
  tvfFormat : ℤ
  size : ℕ

def checkValidFormat : Reader ℤ := do
  let format ← readInt
  return if TERM_VECTORS_WRITER_FORMAT_VERSION < format then -1 else format

/-- The numbers of the fields; in older formats they are differences. -/
def readNumbers (tvdFormat : ℤ) : ℕ → ℤ → Reader (List ℤ)
  | 0, _ => return []
  | fieldCount + 1, number => do
    let i ← readVInt
    let number := if tvdFormat = TERM_VECTORS_WRITER_FORMAT_VERSION then i else number + i
    let numbers ← readNumbers tvdFormat fieldCount number
    return number :: numbers

/-- Pointers are added up as `long long`s. -/
def readPointers : ℕ → ℕ → Reader (List ℕ)
  | 0, _ => return []
  | count + 1, position => do
    let delta ← readVLong
    let position := (position + delta) % 2 ^ 64
    let positions ← readPointers count position
    return position :: positions

def found (fieldNumber : ℤ) : List ℤ → Option ℕ
  | [] => none
  | number :: numbers =>
    match found fieldNumber numbers with
    | some i => some (i + 1)
    | none => if number = fieldNumber then some 0 else none

namespace LCTermVectorsReader

def init : Option Files → Option LCTermVectorsReader
  | none => some ⟨none, 0, 0, 0⟩
  | some files => do
    let _ ← checkValidFormat files.tvx
    let (tvdFormat, _) ← checkValidFormat files.tvd
    let (tvfFormat, _) ← checkValidFormat files.tvf
    return ⟨some files, tvdFormat, tvfFormat, files.tvx.length / 8⟩

variable (infos : Stored.FieldInfos) (r : LCTermVectorsReader)

def fieldCount (files : Files) (docNum : ℕ) : Option (ℤ × List UInt8) := do
  let (position, _) ← readLong (files.tvx.drop (docNum * 8 + 4))
  readVInt (files.tvd.drop (position % 2 ^ 64).toNat)

def termFrequencyVector (docNum : ℕ) (field : NSString) : Option (Option LCSegmentTermVector) :=
  match r.files with
  | none => some none
  | some files => do
    let (fieldCount, rest) ← fieldCount files docNum
    let (numbers, rest) ← readNumbers r.tvdFormat fieldCount.toNat 0 rest
    match found (infos.fieldNumber field) numbers with
    | none => return none
    | some i =>
      let (positions, _) ← readPointers (i + 1) 0 rest
      let position ← positions.getLast?
      let (v, _) ← readTermVector r.tvfFormat field (files.tvf.drop position)
      return some v

def termFrequencyVectors (docNum : ℕ) : Option (Option (List LCSegmentTermVector)) :=
  match r.files with
  | none => some none
  | some files => do
    let (fieldCount, rest) ← fieldCount files docNum
    if fieldCount = 0 then return none
    else
      let (numbers, rest) ← readNumbers r.tvdFormat fieldCount.toNat 0 rest
      let (tvfPointers, _) ← readPointers fieldCount.toNat 0 rest
      let vectors ← (numbers.zip tvfPointers).mapM fun p => do
        let (v, _) ← readTermVector r.tvfFormat (infos.fieldName p.1) (files.tvf.drop p.2)
        return v
      return some vectors

end LCTermVectorsReader

section Fields

variable {fields : List LCTVField}

theorem reads_numbers : ∀ {fields : List LCTVField} (number : ℤ),
    (∀ field ∈ fields, field.number < 2 ^ 31) →
      Reads (readNumbers TERM_VECTORS_WRITER_FORMAT_VERSION fields.length number)
        (fields.flatMap fun field => IndexOutput.writeVInt field.number)
        (fields.map fun field => (field.number : ℤ))
  | [], _, _ => Reads.pure []
  | field :: fields, number, h => by
    rw [forall_mem_cons] at h
    have hnumber : Reads readVInt (IndexOutput.writeVInt field.number) field.number :=
      IndexOutput.reads_writeVInt (by omega) (by omega)
    rw [flatMap_cons]
    refine hnumber.bind ?_
    rw [if_pos rfl]
    exact (reads_numbers field.number h.2).bind_pure

theorem readPointers_pointerBytes : ∀ {fields : List LCTVField} {count last : ℕ},
    count ≤ fields.length → last < 2 ^ 63 → (∀ field ∈ fields, field.tvfPointer < 2 ^ 63) →
      ∀ rest, ∃ rest', readPointers count last (pointerBytes last fields ++ rest)
        = some ((fields.take count).map (·.tvfPointer), rest')
  | _, 0, _, _, _, _ => fun rest => ⟨_, rfl⟩
  | field :: fields, count + 1, last, hcount, hlast, h => fun rest => by
    rw [forall_mem_cons] at h
    have hpointer := h.1
    have hdelta : Reads readVLong
        (writeVLong (((field.tvfPointer : ℤ) - last) % 2 ^ 64).toNat) _ :=
      reads_writeVLong (by omega)
    have hsum : (last + (((field.tvfPointer : ℤ) - last) % 2 ^ 64).toNat) % 2 ^ 64
        = field.tvfPointer := by
      omega
    obtain ⟨rest', hrest⟩ :=
      readPointers_pointerBytes (Nat.le_of_succ_le_succ hcount) hpointer h.2 rest
    refine ⟨rest', ?_⟩
    rw [pointerBytes, append_assoc, readPointers, hdelta.bind_apply, hsum]
    exact Reader.bind_eq_some_iff.2 ⟨_, _, hrest, rfl⟩

theorem found_eq_none_iff (fieldNumber : ℤ) : ∀ numbers : List ℤ,
    found fieldNumber numbers = none ↔ fieldNumber ∉ numbers
  | [] => by simp [found]
  | number :: numbers => by
    have ih := found_eq_none_iff fieldNumber numbers
    rw [found]
    rcases hfound : found fieldNumber numbers with _ | i
    · rw [hfound] at ih
      simp only [true_iff] at ih
      by_cases hnumber : number = fieldNumber
      · simp [hnumber]
      · simp [hnumber, ih, Ne.symm hnumber]
    · rw [hfound] at ih
      simp at ih
      simp [ih]

theorem getElem?_of_found {fieldNumber : ℤ} : ∀ {numbers : List ℤ} {i : ℕ},
    found fieldNumber numbers = some i → numbers[i]? = some fieldNumber
  | number :: numbers, i, h => by
    rw [found] at h
    rcases hfound : found fieldNumber numbers with _ | k
    · rw [hfound] at h
      obtain ⟨hnumber, hi⟩ := (ite_none_right_eq_some ..).1 h
      cases hi
      simp [hnumber]
    · rw [hfound] at h
      cases h
      have ih := getElem?_of_found hfound
      simpa using ih

end Fields

section Reading

variable {infos : Stored.FieldInfos} {files : Files} {n : ℕ} {d : List GivenVector}
  {v : GivenVector} {field : LCTVField} {fields : List LCTVField} {r : LCTermVectorsReader}

theorem Placed.reads (h : Placed infos files.tvf v field) (hv : v.WellFormed infos)
    (name : NSString) : ∃ rest, readTermVector TERM_VECTORS_WRITER_FORMAT_VERSION name (files.tvf.drop field.tvfPointer)
      = some (readBack v.storePositions v.storeOffsets name v.terms, rest) := by
  obtain ⟨b, hb, x, hx⟩ := h.bytes
  obtain ⟨b', hb', hread⟩ := exists_fieldBytes hv.terms.1 hv.terms.2
  obtain rfl := some.inj (hb.symm.trans hb')
  rw [← hx]
  exact hread name x

structure Opened (r : LCTermVectorsReader) (files : Files) : Prop where
  files : r.files = some files
  tvdFormat : r.tvdFormat = TERM_VECTORS_WRITER_FORMAT_VERSION
  tvfFormat : r.tvfFormat = TERM_VECTORS_WRITER_FORMAT_VERSION

theorem Placed.name_eq (h : Placed infos files.tvf v field) :
    infos.fieldNumber v.field = field.number ∧ infos.fieldName field.number = v.field
      ∧ field.number < infos.byNumber.length := by
  obtain ⟨fi, hfi, hnumber⟩ := h.number
  obtain ⟨hfieldNumber, hlt, -⟩ := Stored.FieldInfos.objectAtIndex_number hfi
  rw [hnumber]
  exact ⟨hfieldNumber, Stored.FieldInfos.fieldName_of_fieldNumber hfieldNumber, hlt⟩

theorem ProperDocument.length_le (h : ProperDocument infos d) :
    d.length ≤ infos.byNumber.length := by
  have hsubset : d.map GivenVector.field ⊆ infos.byNumber.map (·.name) := by
    intro name hname
    obtain ⟨v, hv, rfl⟩ := mem_map.1 hname
    by_contra hnot
    exact (h.wellFormed v hv).field (Stored.FieldInfos.fieldInfo_eq_none_iff.2 hnot)
  have hle := (subperm_of_subset h.nodup hsubset).length_le
  rwa [length_map, length_map] at hle

theorem exists_left_of_mem {α β : Type} {R : α → β → Prop} : ∀ {as : List α} {bs : List β},
    Forall₂ R as bs → ∀ b ∈ bs, ∃ a ∈ as, R a b
  | _, _, .nil => nofun
  | _, _, .cons (a := a) hab h => forall_mem_cons.2 ⟨⟨a, mem_cons_self, hab⟩,
      fun b hb => (exists_left_of_mem h b hb).imp fun _ ha => ⟨mem_cons_of_mem _ ha.1, ha.2⟩⟩

theorem exists_fieldCount (h : PlacedDocument infos files.tvx files.tvd files.tvf n d)
    (hproper : ProperDocument infos d) (hinfos : infos.byNumber.length < 2 ^ 31)
    (htvd : files.tvd.length < 2 ^ 63) : ∃ fields rest l,
      Forall₂ (Placed infos files.tvf) d fields
      ∧ LCTermVectorsReader.fieldCount files n = some ((fields.length : ℤ), l)
      ∧ readNumbers TERM_VECTORS_WRITER_FORMAT_VERSION fields.length 0 l
        = some (fields.map fun field => (field.number : ℤ), pointerBytes 0 fields ++ rest) := by
  obtain ⟨pointer, fields, hle, ⟨x, hx⟩, ⟨rest, hrest⟩, hfields⟩ := h
  have hcount : fields.length < 2 ^ 31 := by
    have hlength := hproper.length_le
    rw [hfields.length_eq] at hlength
    omega
  have hpointer : Reads readLong (writeLong pointer) pointer :=
    reads_writeLong (by omega) (by omega)
  have hplace : ((pointer : ℤ) % 2 ^ 64).toNat = pointer := by omega
  have hsize : Reads readVInt (IndexOutput.writeVInt fields.length) fields.length :=
    IndexOutput.reads_writeVInt (by omega) (by omega)
  have hnumbers : ∀ field ∈ fields, field.number < 2 ^ 31 := by
    intro field hfield
    obtain ⟨v, -, hplaced⟩ := exists_left_of_mem hfields field hfield
    have hlt := hplaced.name_eq.2.2
    omega
  refine ⟨fields, rest, (fields.flatMap fun field => IndexOutput.writeVInt field.number)
    ++ (pointerBytes 0 fields ++ rest), hfields, ?_, reads_numbers 0 hnumbers _⟩
  rw [LCTermVectorsReader.fieldCount, ← hx, hpointer, bind_eq_bind, bind_some]
  simp only [hplace, ← hrest, docBytes, append_assoc]
  exact hsize _

theorem pointer_lt (hfields : Forall₂ (Placed infos files.tvf) d fields)
    (htvf : files.tvf.length < 2 ^ 63) : ∀ field ∈ fields, field.tvfPointer < 2 ^ 63 := by
  intro field hfield
  obtain ⟨v, -, hplaced⟩ := exists_left_of_mem hfields field hfield
  exact hplaced.le_length.trans_lt htvf

abbrev GivenVector.back (v : GivenVector) : LCSegmentTermVector :=
  readBack v.storePositions v.storeOffsets v.field v.terms

theorem mapM_fields : ∀ {d : List GivenVector} {fields : List LCTVField},
    Forall₂ (Placed infos files.tvf) d fields → (∀ v ∈ d, v.WellFormed infos) →
      ((fields.map fun field => (field.number : ℤ)).zip (fields.map (·.tvfPointer))).mapM
        (fun p => do
          let (v, _) ← readTermVector TERM_VECTORS_WRITER_FORMAT_VERSION (infos.fieldName p.1)
            (files.tvf.drop p.2)
          return v) = some (d.map GivenVector.back)
  | _, _, .nil, _ => rfl
  | v :: _, _, .cons hplaced hfields, h => by
    rw [forall_mem_cons] at h
    obtain ⟨rest, hread⟩ := hplaced.reads h.1 v.field
    have hname := hplaced.name_eq.2.1
    have ih := mapM_fields hfields h.2
    rw [map_cons, map_cons, zip_cons_cons, mapM_cons, ih]
    simp only [hname, hread]
    rfl

section Document

variable (hr : Opened r files) (h : PlacedDocument infos files.tvx files.tvd files.tvf n d)
  (hproper : ProperDocument infos d) (hinfos : infos.byNumber.length < 2 ^ 31)
  (htvd : files.tvd.length < 2 ^ 63) (htvf : files.tvf.length < 2 ^ 63)

include hr h hproper hinfos htvd

theorem termFrequencyVector_of_not_mem {name : NSString} (hname : name ∉ d.map GivenVector.field) :
    r.termFrequencyVector infos n name = some none := by
  obtain ⟨fields, rest, l, hfields, hcount, hnumbers⟩ := exists_fieldCount h hproper hinfos htvd
  have hfound : found (infos.fieldNumber name) (fields.map fun field => (field.number : ℤ))
      = none := by
    rw [found_eq_none_iff]
    intro hmem
    obtain ⟨field, hfield, hnumber⟩ := mem_map.1 hmem
    obtain ⟨v, hv, hplaced⟩ := exists_left_of_mem hfields field hfield
    refine hname (mem_map.2 ⟨v, hv, ?_⟩)
    rw [← hplaced.name_eq.2.1]
    exact Stored.FieldInfos.fieldName_of_fieldNumber hnumber.symm
  rw [LCTermVectorsReader.termFrequencyVector, hr.files]
  simp only [hcount, bind_eq_bind, bind_some, Int.toNat_natCast, hr.tvdFormat,
    hr.tvfFormat, hnumbers, hfound]
  rfl

include htvf

theorem termFrequencyVectors_eq : r.termFrequencyVectors infos n
    = some (if d = [] then none else some (d.map GivenVector.back)) := by
  obtain ⟨fields, rest, l, hfields, hcount, hnumbers⟩ := exists_fieldCount h hproper hinfos htvd
  obtain ⟨rest', hread⟩ := @readPointers_pointerBytes fields fields.length 0 le_rfl (by simp)
    (pointer_lt hfields htvf) rest
  rw [take_length] at hread
  have hmap := mapM_fields hfields hproper.wellFormed
  rw [LCTermVectorsReader.termFrequencyVectors, hr.files]
  simp only [hcount, bind_eq_bind, bind_some, Int.toNat_natCast, hr.tvdFormat,
    hr.tvfFormat]
  by_cases hempty : d = []
  · have hzero : fields.length = 0 := by rw [← hfields.length_eq, hempty, length_nil]
    rw [if_pos hempty, hzero]
    rfl
  · have hpos : (fields.length : ℤ) ≠ 0 := by
      have hlength := hfields.length_eq
      have hd := length_pos_iff.2 hempty
      omega
    rw [if_neg hempty, if_neg hpos, hnumbers, bind_some, hread, bind_some]
    exact bind_eq_some_iff.2 ⟨_, hmap, rfl⟩

theorem termFrequencyVector_of_mem (hv : v ∈ d) :
    r.termFrequencyVector infos n v.field = some (some v.back) := by
  obtain ⟨fields, rest, l, hfields, hcount, hnumbers⟩ := exists_fieldCount h hproper hinfos htvd
  obtain ⟨i, hfound⟩ : ∃ i, found (infos.fieldNumber v.field)
      (fields.map fun field => (field.number : ℤ)) = some i := by
    obtain ⟨field, hfield, hplaced⟩ := exists_left_of_mem hfields.flip v hv
    refine ne_none_iff_exists'.1 fun hnone => (found_eq_none_iff _ _).1 hnone ?_
    rw [hplaced.name_eq.1]
    exact mem_map_of_mem hfield
  obtain ⟨hi, hnumber⟩ : ∃ hi : i < fields.length,
      infos.fieldNumber v.field = fields[i].number := by
    have hget := getElem?_of_found hfound
    rw [getElem?_map, map_eq_some_iff] at hget
    obtain ⟨field, hfield, heq⟩ := hget
    obtain ⟨hi, rfl⟩ := List.getElem?_eq_some_iff.1 hfield
    exact ⟨hi, heq.symm⟩
  have hplaced : Placed infos files.tvf v fields[i] := by
    have hid : i < d.length := hfields.length_eq ▸ hi
    have hplaced : Placed infos files.tvf d[i] fields[i] := hfields.get hid hi
    have hname : d[i].field = v.field := by
      rw [← hplaced.name_eq.2.1]
      exact Stored.FieldInfos.fieldName_of_fieldNumber hnumber
    rwa [inj_on_of_nodup_map hproper.nodup (getElem_mem hid) hv hname] at hplaced
  obtain ⟨rest₁, hpointers⟩ := @readPointers_pointerBytes fields (i + 1) 0 hi (by simp)
    (pointer_lt hfields htvf) rest
  obtain ⟨rest₂, hread⟩ := hplaced.reads (hproper.wellFormed v hv) v.field
  have hlast : ((fields.take (i + 1)).map (·.tvfPointer)).getLast? = some fields[i].tvfPointer := by
    simp [getLast?_map, getLast?_take, hi]
  rw [LCTermVectorsReader.termFrequencyVector, hr.files]
  simp only [hcount, bind_eq_bind, bind_some, Int.toNat_natCast, hr.tvdFormat,
    hr.tvfFormat, hnumbers, hfound, hpointers, hlast, hread]
  rfl

end Document

end Reading

/-- All vectors of a document come back, and that of each of its fields, and nothing for others. -/
structure ReadsDocument (infos : Stored.FieldInfos) (r : LCTermVectorsReader) (n : ℕ)
    (d : List GivenVector) : Prop where
  empty : d = [] → r.termFrequencyVectors infos n = some none
  all : d ≠ [] → ∃ vectors, r.termFrequencyVectors infos n = some (some vectors)
    ∧ Forall₂ Same d vectors
  each : ∀ v ∈ d, ∃ v', r.termFrequencyVector infos n v.field = some (some v') ∧ Same v v'
  other : ∀ name, name ∉ d.map GivenVector.field →
    r.termFrequencyVector infos n name = some none

def RoundTrips (infos : Stored.FieldInfos) (files : Files) (documents : List (List GivenVector)) :
    Prop :=
  ∃ r, LCTermVectorsReader.init (some files) = some r ∧ r.size = documents.length
    ∧ ∀ n (h : n < documents.length), ReadsDocument infos r n documents[n]

section RoundTrip

variable {infos : Stored.FieldInfos} {files : Files} {n : ℕ} {d : List GivenVector}
  {r : LCTermVectorsReader} {log : Log} {w : LCTermVectorsWriter} {calls : List Call}

theorem readsDocument_iff (hr : Opened r files)
    (h : PlacedDocument infos files.tvx files.tvd files.tvf n d) (hproper : ProperDocument infos d)
    (hinfos : infos.byNumber.length < 2 ^ 31) (htvd : files.tvd.length < 2 ^ 63)
    (htvf : files.tvf.length < 2 ^ 63) : ReadsDocument infos r n d ↔ ∀ v ∈ d, v.Kept := by
  have hall := termFrequencyVectors_eq hr h hproper hinfos htvd htvf
  have heach := fun v hv => @termFrequencyVector_of_mem _ _ _ _ v _ hr h hproper hinfos htvd htvf hv
  have hsame := fun v hv => same_readBack_iff (hproper.wellFormed v hv)
  constructor
  · intro hreads v hv
    obtain ⟨v', hv', hkept⟩ := hreads.each v hv
    rw [heach v hv] at hv'
    obtain rfl := some.inj (some.inj hv')
    exact (hsame v hv).1 hkept
  · intro hkept
    refine ⟨fun hempty => ?_, fun hne => ?_, fun v hv => ?_, fun name hname => ?_⟩
    · rw [hall, if_pos hempty]
    · rw [if_neg hne] at hall
      refine ⟨_, hall, ?_⟩
      rw [forall₂_map_right_iff, forall₂_same]
      exact fun v hv => (hsame v hv).2 (hkept v hv)
    · exact ⟨_, heach v hv, (hsame v hv).2 (hkept v hv)⟩
    · exact termFrequencyVector_of_not_mem hr h hproper hinfos htvd hname

theorem exists_format {l : List UInt8} (h : writeInt TERM_VECTORS_WRITER_FORMAT_VERSION <+: l) :
    ∃ rest, checkValidFormat l = some (TERM_VECTORS_WRITER_FORMAT_VERSION, rest) := by
  obtain ⟨rest, rfl⟩ := h
  have hread : Reads readInt (writeInt TERM_VECTORS_WRITER_FORMAT_VERSION)
      TERM_VECTORS_WRITER_FORMAT_VERSION :=
    reads_writeInt (by simp [TERM_VECTORS_WRITER_FORMAT_VERSION])
      (by simp [TERM_VECTORS_WRITER_FORMAT_VERSION])
  exact ⟨rest, by rw [checkValidFormat, hread.bind_apply, if_neg (lt_irrefl _)]; rfl⟩

theorem Holds.exists_opened (h : Holds infos log w) : ∃ r,
    LCTermVectorsReader.init (some ⟨w.tvx, w.tvd, w.tvf⟩) = some r ∧ Opened r ⟨w.tvx, w.tvd, w.tvf⟩
      ∧ r.size = log.documents.length := by
  obtain ⟨x, hx⟩ := exists_format h.tvx
  obtain ⟨y, hy⟩ := exists_format h.tvd
  obtain ⟨z, hz⟩ := exists_format h.tvf
  refine ⟨_, by simp only [LCTermVectorsReader.init, hx, hy, hz]; rfl, ⟨rfl, rfl, rfl⟩, ?_⟩
  show w.tvx.length / 8 = log.documents.length
  rw [h.length]
  omega

/-- Whatever the calls, when the writer is closed every document comes back as it was given, if and
only if every vector is one that is kept. -/
theorem vectors_roundTrip_iff (h : Logs infos calls log) (hinfos : infos.byNumber.length < 2 ^ 31) :
    ∃ w files, calls.foldlM (LCTermVectorsWriter.call infos) .new = some w
      ∧ w.close = some files
      ∧ (files.tvd.length < 2 ^ 63 → files.tvf.length < 2 ^ 63 →
        (RoundTrips infos files log.closeDocument.documents
          ↔ ∀ d ∈ log.closeDocument.documents, ∀ v ∈ d, v.Kept)) := by
  obtain ⟨hproper, w, hw, hholds⟩ := h.holds
  obtain ⟨w', hw', hclosed⟩ := hholds.closeDocument hproper
  refine ⟨w, ⟨w'.tvx, w'.tvd, w'.tvf⟩, hw, by rw [LCTermVectorsWriter.close, hw']; rfl, ?_⟩
  intro htvd htvf
  obtain ⟨r, hinit, hr, hsize⟩ := hclosed.exists_opened
  have hdocument := fun n hn => readsDocument_iff hr (hclosed.documents n hn)
    (hproper.closeDocument.documents _ (getElem_mem hn)) hinfos htvd htvf
  constructor
  · rintro ⟨r', hinit', -, hreads⟩ d hd
    obtain rfl := some.inj (hinit.symm.trans hinit')
    obtain ⟨n, hn, rfl⟩ := getElem_of_mem hd
    exact (hdocument n hn).1 (hreads n hn)
  · intro hkept
    exact ⟨r, hinit, hsize, fun n hn =>
      (hdocument n hn).2 (hkept _ (getElem_mem hn))⟩

end RoundTrip

/-- The field `f`, with positions. -/
def positionsField : Stored.FieldInfos :=
  Stored.FieldInfos.empty.addInternal [102] ⟨true, true, true, false, false⟩ rfl

def filesOf (infos : Stored.FieldInfos) (calls : List Call) : Option Files := do
  let w ← calls.foldlM (LCTermVectorsWriter.call infos) .new
  w.close

def vectorsOf (infos : Stored.FieldInfos) (files : Files) :
    Option (Option (List LCSegmentTermVector)) := do
  let r ← LCTermVectorsReader.init (some files)
  r.termFrequencyVectors infos 0

def onceAtFive : LCTVTerm := ⟨[98], 1, some [5], none⟩

theorem wellFormed_onceAtFive : onceAtFive.WellFormed true false :=
  ⟨by simp [onceAtFive], by simp [onceAtFive], fun _ => ⟨[5], rfl, rfl, by simp⟩, nofun⟩

theorem kept_onceAtFive : onceAtFive.Kept true :=
  ⟨by simp [onceAtFive], fun _ => by simp [onceAtFive, Close]⟩

/-- The term `b` at position 5 comes back. -/
theorem vectors_roundTrip_iff_b : ∃ files,
    filesOf positionsField [.openDocument, .openField [102], .addTerm onceAtFive] = some files
      ∧ RoundTrips positionsField files [[.added ⟨[102], true, false, [onceAtFive]⟩]] := by
  have hlogs : Logs positionsField [.openDocument, .openField [102], .addTerm onceAtFive]
      ⟨[], some [], some ⟨[102], true, false, [onceAtFive]⟩⟩ := by
    refine ((Logs.new.call (c := .openDocument) trivial).call (c := .openField [102]) ?_).call
      (c := .addTerm onceAtFive) ?_
    · exact ⟨nofun, [], rfl, nofun⟩
    · rintro v ⟨⟩
      exact ⟨wellFormed_onceAtFive, by simp⟩
  obtain ⟨w, files, hw, hfiles, hiff⟩ :=
    vectors_roundTrip_iff hlogs (by simp [positionsField, Stored.FieldInfos.addInternal,
      Stored.FieldInfos.empty])
  have hwritten : filesOf positionsField
      [.openDocument, .openField [102], .addTerm onceAtFive] = some files := by
    rw [filesOf, hw, bind_eq_bind, bind_some, hfiles]
  have hbytes : filesOf positionsField [.openDocument, .openField [102], .addTerm onceAtFive]
      = some ⟨[0, 0, 0, 2, 0, 0, 0, 0, 0, 0, 0, 4], [0, 0, 0, 2, 1, 0, 4],
        [0, 0, 0, 2, 1, 1, 0, 1, 98, 1, 5]⟩ := by
    decide +kernel
  obtain rfl := some.inj (hbytes.symm.trans hwritten)
  refine ⟨_, hwritten, (hiff (by simp) (by simp)).2 ?_⟩
  intro d hd v hv
  simp only [Log.closeDocument, Log.current, map_some, toList_some, nil_append,
    map_cons, map_nil, mem_singleton] at hd
  subst hd
  rw [mem_singleton] at hv
  subst hv
  exact forall_mem_singleton.2 kept_onceAtFive

/-- The vector of a term that is not there and of one that is there at position 5. -/
def firstMissing : LCSegmentTermVector where
  field := [102]
  storePositions := true
  storeOffsets := false
  entries := [⟨[97], 0, [], []⟩, ⟨[98], 1, [5], []⟩]

/-- It is read as it was written, but its copy has no positions. -/
theorem copy_loses_positions :
    (filesOf positionsField [.openDocument, .openField [102], .addTerm ⟨[97], 0, some [], none⟩,
        .addTerm onceAtFive]).bind (vectorsOf positionsField) = some (some [firstMissing])
      ∧ ∃ files, filesOf positionsField [.addAllDocumentVectors (some [firstMissing])] = some files
        ∧ ¬ RoundTrips positionsField files [[.copied firstMissing]] := by
  have hbytes : filesOf positionsField [.addAllDocumentVectors (some [firstMissing])]
      = some ⟨[0, 0, 0, 2, 0, 0, 0, 0, 0, 0, 0, 4], [0, 0, 0, 2, 1, 0, 4],
        [0, 0, 0, 2, 2, 0, 0, 1, 97, 0, 0, 1, 98, 1]⟩ := by
    decide +kernel
  refine ⟨by decide +kernel, _, hbytes, ?_⟩
  rintro ⟨r, hinit, -, hreads⟩
  obtain ⟨vectors, hvectors, hsame⟩ := (hreads 0 Nat.one_pos).all (cons_ne_nil _ _)
  have hcopy : vectorsOf positionsField ⟨[0, 0, 0, 2, 0, 0, 0, 0, 0, 0, 0, 4],
      [0, 0, 0, 2, 1, 0, 4], [0, 0, 0, 2, 2, 0, 0, 1, 97, 0, 0, 1, 98, 1]⟩
        = some (some [⟨[102], false, false, [⟨[97], 0, [], []⟩, ⟨[98], 1, [], []⟩]⟩]) := by
    decide +kernel
  rw [vectorsOf, hinit, bind_eq_bind, bind_some, hvectors] at hcopy
  obtain rfl := some.inj (some.inj hcopy)
  rcases hsame with _ | ⟨⟨-, hentries⟩, -⟩
  simp [GivenVector.entries, firstMissing] at hentries

end Etoile.Lucene.TermVectors
