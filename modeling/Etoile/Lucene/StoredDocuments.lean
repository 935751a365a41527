import Mathlib.Data.FinEnum
import Etoile.Lib.Fold
import Etoile.Lucene.FieldInfos
import Mathlib.Data.List.ReduceOption

/-!
# Stored documents

The stored fields of the documents lie one after another in one file, and a second one has the place
where each document begins.  A field refers to its name by the number it has among the fields of the
segment, and its value is as its own flags say.
-/

namespace Etoile.Lucene

open List Option

namespace Stored

abbrev NSData := List UInt8

/-- `-dataUsingEncoding:` and `-initWithData:encoding:` for UTF-8; not all strings can be
encoded. -/
structure UTF8 where
  dataUsingEncoding : NSString → Option NSData
  initWithData : NSData → Option NSString
  dataUsingEncoding_nil : dataUsingEncoding [] = some []
  initWithData_nil : initWithData [] = some []

/-- The library undoes its compression, and does not take a part for the whole. -/
structure Zlib where
  compress : NSData → NSData
  inflate : NSData → Option NSData
  compress_ne_nil : ∀ d, compress d ≠ []
  inflate_compress : ∀ d, d ≠ [] → inflate (compress d) = some d
  inflate_take : ∀ d n, n < (compress d).length → inflate ((compress d).take n) = none

namespace Zlib

variable (zlib : Zlib)

def compressedData (data : NSData) : Option NSData :=
  if 0 < data.length then some (zlib.compress data) else none

def decompressedData (data : NSData) : Option NSData :=
  if data.length = 0 then some data else zlib.inflate data

end Zlib

inductive FieldsData
  | string (s : NSString)
  | data (d : NSData)
  | reader

inductive Store
  | compress
  | yes
  | no
  deriving DecidableEq

inductive Index
  | no
  | tokenized
  | untokenized
  | noNorms
  deriving DecidableEq

inductive TermVector
  | no
  | yes
  | withPositions
  | withOffsets
  | withPositionsAndOffsets
  deriving DecidableEq

structure LCField where
  name : NSString
  fieldsData : FieldsData
  isStored : Bool
  isIndexed : Bool
  isTokenized : Bool
  isBinary : Bool
  isCompressed : Bool
  storeTermVector : Bool
  storePositionWithTermVector : Bool
  storeOffsetWithTermVector : Bool
  omitNorms : Bool

namespace LCField

variable (f : LCField)

def string : Option NSString :=
  match f.fieldsData with
  | .string s => some s
  | _ => none

def data : Option NSData :=
  match f.fieldsData with
  | .data d => some d
  | _ => none

/-- What `-addDocument:` of the field infos adds. -/
def flags : Flags where
  isIndexed := f.isIndexed
  storeTermVector := f.storeTermVector
  storePositionWithTermVector := f.storePositionWithTermVector
  storeOffsetWithTermVector := f.storeOffsetWithTermVector
  omitNorms := f.omitNorms

def setStoreTermVector (termVector : TermVector) : LCField :=
  { f with
    storeTermVector := termVector ≠ .no
    storePositionWithTermVector :=
      termVector = .withPositions ∨ termVector = .withPositionsAndOffsets
    storeOffsetWithTermVector := termVector = .withOffsets ∨ termVector = .withPositionsAndOffsets }

def setOmitNorms (b : Bool) : LCField := { f with omitNorms := b }

/-- What `-init` makes of a field, with a name and a value. -/
def new (name : NSString) (fieldsData : FieldsData) : LCField where
  name := name
  fieldsData := fieldsData
  isStored := false
  isIndexed := true
  isTokenized := true
  isBinary := false
  isCompressed := false
  storeTermVector := false
  storePositionWithTermVector := false
  storeOffsetWithTermVector := false
  omitNorms := false

instance : Inhabited LCField := ⟨new [] .reader⟩

def initWithString (n value : Option NSString) (store : Store) (index : Index)
    (termVector : TermVector) : Option LCField := do
  let name ← n
  let value ← value
  if index = .no ∧ store = .no then none
  else if index = .no ∧ termVector ≠ .no then none
  else
    let f := { new name (.string value) with
      isStored := store ≠ Store.no
      isCompressed := store = Store.compress
      isIndexed := index ≠ Index.no
      isTokenized := index = Index.tokenized
      omitNorms := index = Index.noNorms }
    return f.setStoreTermVector termVector

def initWithReader (n : Option NSString) (termVector : TermVector) : Option LCField := do
  let name ← n
  return (new name .reader).setStoreTermVector termVector

def initWithData (n : Option NSString) (value : Option NSData) (store : Store) :
    Option LCField := do
  let name ← n
  let value ← value
  let f := { new name (.data value) with
    isStored := store ≠ Store.no
    isCompressed := store = Store.compress
    isIndexed := false
    isTokenized := false
    isBinary := true }
  return f.setStoreTermVector .no

inductive Made : LCField → Prop
  | initWithString {n value store index termVector f} :
      initWithString n value store index termVector = some f → Made f
  | initWithReader {n termVector f} : initWithReader n termVector = some f → Made f
  | initWithData {n value store f} : initWithData n value store = some f → Made f
  | setStoreTermVector {f : LCField} (termVector : TermVector) :
      Made f → Made (f.setStoreTermVector termVector)
  | setOmitNorms {f : LCField} (b : Bool) : Made f → Made (f.setOmitNorms b)

structure WellFormed (f : LCField) : Prop where
  tokenized : f.isTokenized = true → f.isIndexed = true ∧ f.isBinary = false
  binary : f.isBinary = true → ∃ d, f.fieldsData = .data d
  text : f.isStored = true → f.isBinary = false → ∃ s, f.fieldsData = .string s

theorem WellFormed.setStoreTermVector {f : LCField} (h : f.WellFormed) (termVector : TermVector) :
    (f.setStoreTermVector termVector).WellFormed := ⟨h.tokenized, h.binary, h.text⟩

theorem Made.wellFormed {f : LCField} (h : Made f) : f.WellFormed := by
  induction h with
  | @initWithString n value store index termVector f h =>
    rcases n with _ | name <;> rcases value with _ | value <;> try cases h
    simp only [LCField.initWithString, bind_eq_bind, bind_some] at h
    split_ifs at h
    cases h
    refine WellFormed.setStoreTermVector ⟨?_, by simp [new], by simp [new]⟩ termVector
    cases index <;> simp [new]
  | @initWithReader n termVector f h =>
    rcases n with _ | name <;> cases h
    exact WellFormed.setStoreTermVector ⟨by simp [new], by simp [new], by simp [new]⟩ termVector
  | @initWithData n value store f h =>
    rcases n with _ | name <;> rcases value with _ | value <;> cases h
    exact WellFormed.setStoreTermVector ⟨by simp, by simp [new], by simp⟩ .no
  | setStoreTermVector termVector _ ih => exact ih.setStoreTermVector termVector
  | setOmitNorms b _ ih => exact ⟨ih.tokenized, ih.binary, ih.text⟩

end LCField

structure LCDocument where
  fields : List LCField
  made : ∀ f ∈ fields, f.Made

section Writing

variable (utf8 : UTF8) (zlib : Zlib) (infos : FieldInfos)

/-- `-writeBytes:length:`, of which nothing is to be said for a negative length. -/
def writeBytes (data : NSData) (len : ℤ) : Option (List UInt8) :=
  if len < 0 then none else some (data.take len.toNat)

/-- The length of the data as an `int`, and as many bytes; there are none of `nil`. -/
def writeData (data : Option NSData) : Option (List UInt8) := do
  let len := IndexOutput.ofLength (data.getD []).length
  let b ← writeBytes (data.getD []) len
  return IndexOutput.writeVInt len ++ b

/-- `LCFieldsWriter_FIELD_IS_TOKENIZED`, `LCFieldsWriter_FIELD_IS_BINARY` and
`LCFieldsWriter_FIELD_IS_COMPRESSED`. -/
def LCField.bits (f : LCField) : UInt8 :=
  (if f.isTokenized then 0x1 else 0) ||| (if f.isBinary then 0x2 else 0)
    ||| (if f.isCompressed then 0x4 else 0)

def writeValue (f : LCField) : Option (List UInt8) :=
  if f.isCompressed then
    let data := if f.isBinary then f.data else f.string.bind utf8.dataUsingEncoding
    writeData (data.bind zlib.compressedData)
  else if f.isBinary then writeData f.data
  else some (IndexOutput.writeString (f.string.getD []))

def writeField (f : LCField) : Option (List UInt8) := do
  let value ← writeValue utf8 zlib f
  return IndexOutput.writeVInt (infos.fieldNumber f.name) ++ (f.bits :: value)

def LCDocument.stored (doc : LCDocument) : List LCField := doc.fields.filter (·.isStored)

def writeFields (doc : LCDocument) : Option (List UInt8) := do
  let fields ← doc.stored.mapM (writeField utf8 zlib infos)
  return IndexOutput.writeVInt (IndexOutput.ofLength doc.stored.length) ++ fields.flatten

/-- `-addDocument:`, with the contents of the stream of fields and of the index stream. -/
def addDocument (s : List UInt8 × List UInt8) (doc : LCDocument) :
    Option (List UInt8 × List UInt8) := do
  let index := s.2 ++ writeLong s.1.length
  let fields ← writeFields utf8 zlib infos doc
  return (s.1 ++ fields, index)

def addDocuments (docs : List LCDocument) : Option (List UInt8 × List UInt8) :=
  docs.foldlM (addDocument utf8 zlib infos) ([], [])

end Writing

section Reading

variable (utf8 : UTF8) (zlib : Zlib) (infos : List FieldInfo)

def readData : Reader NSData := do
  let len ← readVInt
  if len < 0 then fun _ => none
  else
    let b ← Reader.bytes len.toNat
    return b.1

/-- `-addField:` raises for `nil`. -/
def addField (field : Option LCField) : Reader (Option LCField) :=
  fun l => field.map fun f => (some f, l)

/-- Messages to `nil` are answered with `NO`. -/
def flagsOfInfo (fi : Option FieldInfo) : Flags :=
  (fi.map (·.flags)).getD ⟨false, false, false, false, false⟩

def indexOf (flags : Flags) (tokenize : Bool) : Index :=
  if flags.isIndexed && tokenize then .tokenized
  else if flags.isIndexed && !tokenize then .untokenized
  else .no

def termVectorOf (flags : Flags) : TermVector :=
  if flags.storeTermVector then
    if flags.storeOffsetWithTermVector then
      if flags.storePositionWithTermVector then .withPositionsAndOffsets else .withOffsets
    else if flags.storePositionWithTermVector then .withPositions
    else .yes
  else .no

/-- What follows the bits of an entry; a binary field is left out if it cannot be decompressed. -/
def readValue (fi : Option FieldInfo) (bits : UInt8) : Reader (Option LCField) :=
  let compressed : Bool := bits &&& 0x4 ≠ 0
  let tokenize : Bool := bits &&& 0x1 ≠ 0
  let name := fi.map (·.name)
  if bits &&& 0x2 ≠ 0 then do
    let b ← readData
    if compressed then
      match zlib.decompressedData b with
      | some d => addField (LCField.initWithData name (some d) .compress)
      | none => return none
    else addField (LCField.initWithData name (some b) .yes)
  else
    let flags := flagsOfInfo fi
    let index := indexOf flags tokenize
    let termVector := termVectorOf flags
    if compressed then do
      let b ← readData
      let s := utf8.initWithData ((zlib.decompressedData b).getD [])
      addField ((LCField.initWithString name s .compress index termVector).map
        (·.setOmitNorms flags.omitNorms))
    else do
      let s ← IndexInput.readString
      addField ((LCField.initWithString name (some s) .yes index termVector).map
        (·.setOmitNorms flags.omitNorms))

def readField : Reader (Option LCField) := do
  let fieldNumber ← readVInt
  let bits ← Reader.byte
  readValue utf8 zlib (objectAtIndex infos fieldNumber) bits

def readFields : Reader (List LCField) := do
  let numFields ← readVInt
  let fields ← (readField utf8 zlib infos).times numFields.toNat
  return fields.reduceOption

/-- `-document:`, of the contents of the two streams. -/
def document (s : List UInt8 × List UInt8) (n : ℕ) : Option (List LCField) := do
  let (position, _) ← readLong (s.2.drop (n * 8))
  let (fields, _) ← readFields utf8 zlib infos (s.1.drop (position % 2 ^ 64).toNat)
  return fields

end Reading

variable {utf8 : UTF8} {zlib : Zlib} {infos : FieldInfos} {f r : LCField} {fi : FieldInfo}
  {b l l' : List UInt8}

theorem bits_iff (f : LCField) : (f.bits &&& 0x1 ≠ 0 ↔ f.isTokenized = true)
    ∧ (f.bits &&& 0x2 ≠ 0 ↔ f.isBinary = true) ∧ (f.bits &&& 0x4 ≠ 0 ↔ f.isCompressed = true) := by
  simp only [LCField.bits]
  cases f.isTokenized <;> cases f.isBinary <;> cases f.isCompressed <;> decide

theorem indexOf_eq_no_iff {flags : Flags} {tokenize : Bool} :
    indexOf flags tokenize = .no ↔ flags.isIndexed = false := by
  unfold indexOf
  cases flags.isIndexed <;> cases tokenize <;> simp

theorem indexOf_eq_tokenized_iff {flags : Flags} {tokenize : Bool} :
    indexOf flags tokenize = .tokenized ↔ flags.isIndexed = true ∧ tokenize = true := by
  unfold indexOf
  cases flags.isIndexed <;> cases tokenize <;> simp

theorem termVectorOf_eq_no_iff {flags : Flags} :
    termVectorOf flags = .no ↔ flags.storeTermVector = false := by
  unfold termVectorOf
  split_ifs <;> simp_all

structure Same (f r : LCField) : Prop where
  name : r.name = f.name
  fieldsData : r.fieldsData = f.fieldsData
  isStored : r.isStored = true
  isTokenized : r.isTokenized = f.isTokenized
  isBinary : r.isBinary = f.isBinary
  isCompressed : r.isCompressed = f.isCompressed

def encoded (utf8 : UTF8) (f : LCField) : Option NSData :=
  if f.isBinary then f.data else f.string.bind utf8.dataUsingEncoding

/-- The value of a field has a length that an `int` can hold, where it is written, and a compressed
string is that of its encoding. -/
def ValueFits (utf8 : UTF8) (zlib : Zlib) (f : LCField) : Prop :=
  if f.isCompressed then (((encoded utf8 f).bind zlib.compressedData).getD []).length < 2 ^ 31
    ∧ (f.isBinary = false → utf8.initWithData ((encoded utf8 f).getD []) = f.string)
  else if f.isBinary then (f.data.getD []).length < 2 ^ 31
  else (f.string.getD []).length < 2 ^ 31

theorem writeBytes_eq_some_iff {data : NSData} {len : ℤ} :
    writeBytes data len = some b ↔ 0 ≤ len ∧ b = data.take len.toNat := by
  unfold writeBytes
  split_ifs with hneg
  · simp [hneg]
  · simp [not_lt.1 hneg, eq_comm]

theorem reads_bytes_of_length {data : NSData} {len : ℤ} (hlen : 0 ≤ len)
    (hle : len.toNat ≤ data.length)
    (hread : Reads readVInt (IndexOutput.writeVInt len) len) :
    Reads readData (IndexOutput.writeVInt len ++ data.take len.toNat) (data.take len.toNat) := by
  unfold readData
  refine hread.bind ?_
  rw [if_neg (not_lt.2 hlen)]
  exact (Reads.bytes ⟨_, length_take_of_le hle⟩).bind_pure (f := fun b => b.1)

variable {data : Option NSData}

theorem reads_writeData (h : writeData data = some b) :
    Reads readData b ((data.getD []).take (IndexOutput.ofLength (data.getD []).length).toNat) := by
  have hle := IndexOutput.toNat_ofLength_le (data.getD []).length
  have hread := IndexOutput.reads_ofLength (data.getD []).length
  unfold writeData at h
  generalize IndexOutput.ofLength (data.getD []).length = len at h hle hread ⊢
  obtain ⟨bytes, hbytes, hb⟩ := bind_eq_some_iff.1 h
  obtain rfl := some.inj hb
  obtain ⟨hlen, rfl⟩ := writeBytes_eq_some_iff.1 hbytes
  exact reads_bytes_of_length hlen hle hread

theorem exists_writeData (h : (data.getD []).length < 2 ^ 31) :
    ∃ b, writeData data = some b ∧ Reads readData b (data.getD []) := by
  have hlength := IndexOutput.ofLength_eq_iff.2 h
  have hwrite : ∃ b, writeData data = some b := by
    have hbytes : writeBytes (data.getD []) (data.getD []).length = some (data.getD []) := by
      rw [writeBytes_eq_some_iff]
      simp
    simp only [writeData, hlength, hbytes]
    exact ⟨_, rfl⟩
  obtain ⟨b, hb⟩ := hwrite
  have hread := reads_writeData hb
  rw [hlength, Int.toNat_natCast, take_length] at hread
  exact ⟨b, hb, hread⟩

/-- Data are decompressed to what was compressed, and nothing is made of a part. -/
theorem decompressedData_compressedData (data : Option NSData) :
    zlib.decompressedData ((data.bind zlib.compressedData).getD []) = some (data.getD []) := by
  rcases data with _ | d
  · rfl
  · rcases d with _ | ⟨c, d⟩
    · rfl
    · have hne : (zlib.compress (c :: d)).length ≠ 0 := by
        rw [Ne, length_eq_zero_iff]
        exact zlib.compress_ne_nil _
      simp [Zlib.compressedData, Zlib.decompressedData, hne, zlib.inflate_compress]

theorem decompressedData_take {n : ℕ} (h : n < ((data.bind zlib.compressedData).getD []).length) :
    (zlib.decompressedData (((data.bind zlib.compressedData).getD []).take n)).getD [] = []
      ∧ data.getD [] ≠ [] := by
  rcases data with _ | data
  · simp at h
  · have hne : data ≠ [] := by
      rintro rfl
      simp [Zlib.compressedData] at h
    have hlength : 0 < data.length := length_pos_iff.2 hne
    simp only [bind_some, Zlib.compressedData, if_pos hlength, getD_some] at h ⊢
    refine ⟨?_, hne⟩
    unfold Zlib.decompressedData
    split_ifs with hzero
    · exact length_eq_zero_iff.1 hzero
    · rw [zlib.inflate_take _ _ h]
      rfl

theorem readValue_of_binary (h : f.isBinary = true) (fi : Option FieldInfo) :
    readValue utf8 zlib fi f.bits = (do
      let b ← readData
      if f.isCompressed then
        match zlib.decompressedData b with
        | some d => addField (LCField.initWithData (fi.map (·.name)) (some d) .compress)
        | none => return none
      else addField (LCField.initWithData (fi.map (·.name)) (some b) .yes)) := by
  have hbinary := (bits_iff f).2.1.2 h
  simp only [readValue, if_pos hbinary, (bits_iff f).2.2, decide_eq_true_eq]

theorem readValue_of_text (h : f.isBinary = false) (fi : Option FieldInfo) :
    readValue utf8 zlib fi f.bits =
      (if f.isCompressed then do
        let b ← readData
        addField ((LCField.initWithString (fi.map (·.name))
          (utf8.initWithData ((zlib.decompressedData b).getD [])) .compress
          (indexOf (flagsOfInfo fi) f.isTokenized) (termVectorOf (flagsOfInfo fi))).map
            (·.setOmitNorms (flagsOfInfo fi).omitNorms))
      else do
        let s ← IndexInput.readString
        addField ((LCField.initWithString (fi.map (·.name)) (some s) .yes
          (indexOf (flagsOfInfo fi) f.isTokenized) (termVectorOf (flagsOfInfo fi))).map
            (·.setOmitNorms (flagsOfInfo fi).omitNorms))) := by
  have hbinary : ¬ (f.bits &&& 0x2 ≠ 0) := by
    rw [(bits_iff f).2.1, h]
    exact Bool.false_ne_true
  have htokenized : decide (f.bits &&& 0x1 ≠ 0) = f.isTokenized := by
    rw [Bool.eq_iff_iff, decide_eq_true_iff, (bits_iff f).1]
  simp only [readValue, if_neg hbinary, htokenized, (bits_iff f).2.2, decide_eq_true_eq]

/-- A text field may have vectors only if it is indexed. -/
def Allowed (fi : FieldInfo) (f : LCField) : Prop :=
  f.isBinary = false → fi.flags.isIndexed = false → fi.flags.storeTermVector = false

theorem initWithData_same {d : NSData} (hbinary : f.isBinary = true)
    (htokenized : f.isTokenized = false) (hdata : f.fieldsData = .data d) :
    ∃ r, LCField.initWithData (some f.name) (some d)
        (if f.isCompressed then .compress else .yes) = some r ∧ Same f r := by
  refine ⟨_, rfl, ?_⟩
  cases hcompressed : f.isCompressed <;>
    exact ⟨rfl, hdata.symm, rfl, htokenized.symm, hbinary.symm, by rw [hcompressed]; rfl⟩

theorem initWithString_same {s : NSString} {index : Index} {termVector : TermVector} {b : Bool}
    (hbinary : f.isBinary = false) (hdata : f.fieldsData = .string s)
    (hindex : index = .tokenized ↔ f.isTokenized = true)
    (hallowed : index = .no → termVector = .no) :
    ∃ r, (LCField.initWithString (some f.name) (some s)
        (if f.isCompressed then .compress else .yes) index termVector).map (·.setOmitNorms b)
        = some r
      ∧ Same f r := by
  have hstored : ¬ (index = .no ∧ (if f.isCompressed then Store.compress else .yes) = .no) := by
    split_ifs <;> simp
  have hvectors : ¬ (index = .no ∧ termVector ≠ .no) := fun h => h.2 (hallowed h.1)
  simp only [LCField.initWithString, bind_eq_bind, bind_some, if_neg hstored,
    if_neg hvectors]
  refine ⟨_, rfl, rfl, hdata.symm, ?_, ?_, hbinary.symm, ?_⟩
  · cases f.isCompressed <;> rfl
  · rw [Bool.eq_iff_iff, ← hindex]
    exact decide_eq_true_iff
  · cases f.isCompressed <;> rfl

theorem allowed_of_initWithString {n value : Option NSString} {store : Store} {index : Index}
    {termVector : TermVector} (h : LCField.initWithString n value store index termVector = some r) :
    (index = .no → termVector = .no) ∧ value.map FieldsData.string = some r.fieldsData := by
  rcases n with _ | n <;> rcases value with _ | value <;> try cases h
  simp only [LCField.initWithString, bind_eq_bind, bind_some] at h
  split_ifs at h with hstored hvectors
  cases h
  exact ⟨fun hno => by_contra fun hn => hvectors ⟨hno, hn⟩, rfl⟩

theorem reads_addField {field : Option LCField} (h : field = some r) :
    Reads (addField field) [] (some r) := by
  intro rest
  rw [addField, h]
  rfl

theorem exists_writeValue (hf : f.WellFormed) (hstored : f.isStored = true)
    (hfits : ValueFits utf8 zlib f) (hallowed : Allowed fi f) (hname : fi.name = f.name)
    (hindexed : f.isTokenized = true → fi.flags.isIndexed = true) : ∃ v r,
      writeValue utf8 zlib f = some v ∧ Reads (readValue utf8 zlib (some fi) f.bits) v (some r)
      ∧ Same f r := by
  cases hbinary : f.isBinary with
  | true =>
    obtain ⟨d, hd⟩ := hf.binary hbinary
    have hdata : f.data = some d := by rw [LCField.data, hd]
    have htokenized : f.isTokenized = false := by
      rw [Bool.eq_false_iff]
      exact fun h => absurd hbinary (by simp [(hf.tokenized h).2])
    obtain ⟨r, hr, hsame⟩ := initWithData_same hbinary htokenized hd
    rw [readValue_of_binary hbinary, map_some, hname]
    cases hcompressed : f.isCompressed with
    | true =>
      rw [ValueFits, if_pos hcompressed, encoded, if_pos hbinary, hdata] at hfits
      rw [if_pos hcompressed] at hr
      obtain ⟨v, hv, hread⟩ := exists_writeData hfits.1
      refine ⟨v, r, by simpa [writeValue, hcompressed, hbinary, hdata] using hv,
        hread.bind_nil ?_, hsame⟩
      rw [decompressedData_compressedData]
      exact reads_addField hr
    | false =>
      rw [ValueFits, if_neg (by simp [hcompressed]), if_pos hbinary, hdata] at hfits
      rw [if_neg (by simp [hcompressed])] at hr
      obtain ⟨v, hv, hread⟩ := exists_writeData hfits
      exact ⟨v, r, by simpa [writeValue, hcompressed, hbinary, hdata] using hv,
        hread.bind_nil (reads_addField hr), hsame⟩
  | false =>
    obtain ⟨s, hs⟩ := hf.text hstored hbinary
    have hstring : f.string = some s := by rw [LCField.string, hs]
    obtain ⟨r, hr, hsame⟩ := @initWithString_same f s (indexOf fi.flags f.isTokenized)
      (termVectorOf fi.flags) fi.flags.omitNorms hbinary hs
      (by rw [indexOf_eq_tokenized_iff]; exact ⟨And.right, fun h => ⟨hindexed h, h⟩⟩)
      (by
        rw [indexOf_eq_no_iff, termVectorOf_eq_no_iff]
        exact hallowed hbinary)
    rw [readValue_of_text hbinary, map_some, hname]
    cases hcompressed : f.isCompressed with
    | true =>
      rw [ValueFits, if_pos hcompressed, encoded, if_neg (by simp [hbinary])] at hfits
      rw [if_pos hcompressed] at hr
      obtain ⟨v, hv, hread⟩ := exists_writeData hfits.1
      refine ⟨v, r, by simpa [writeValue, hcompressed, hbinary] using hv, hread.bind_nil ?_, hsame⟩
      rw [decompressedData_compressedData, getD_some, hfits.2 hbinary, hstring]
      exact reads_addField hr
    | false =>
      rw [ValueFits, if_neg (by simp [hcompressed]), if_neg (by simp [hbinary]), hstring] at hfits
      rw [if_neg (by simp [hcompressed])] at hr
      exact ⟨_, r, by simp [writeValue, hcompressed, hbinary, hstring],
        (reads_writeString_of_length hfits).bind_nil (reads_addField hr), hsame⟩

theorem eq_some_of_addField {field : Option LCField} (h : addField field l = some (some r, l')) :
    field = some r := by
  rcases field with _ | f <;> cases h
  rfl

theorem fieldsData_of_initWithData {n : Option NSString} {value : Option NSData} {store : Store}
    (h : LCField.initWithData n value store = some r) :
    value.map FieldsData.data = some r.fieldsData := by
  rcases n with _ | n <;> rcases value with _ | value <;> cases h
  rfl

theorem string_of_initWithString {value : Option NSString} {s : NSString} {store : Store} {b : Bool}
    (hs : f.fieldsData = .string s) (hsame : Same f r)
    (h : (LCField.initWithString (some fi.name) value store (indexOf fi.flags f.isTokenized)
      (termVectorOf fi.flags)).map (·.setOmitNorms b) = some r) :
    value = some s ∧ (fi.flags.isIndexed = false → fi.flags.storeTermVector = false) := by
  obtain ⟨r₀, hr₀, rfl⟩ := map_eq_some_iff.1 h
  obtain ⟨hvectors, hvalue⟩ := allowed_of_initWithString hr₀
  rw [indexOf_eq_no_iff, termVectorOf_eq_no_iff] at hvectors
  have hfieldsData : r₀.fieldsData = .string s := hsame.fieldsData.trans hs
  rw [hfieldsData] at hvalue
  obtain ⟨s', hs', heq⟩ := map_eq_some_iff.1 hvalue
  cases heq
  exact ⟨hs', hvectors⟩

theorem fits_of_readValue (hf : f.WellFormed) (hstored : f.isStored = true) {v : List UInt8}
    (hv : writeValue utf8 zlib f = some v)
    (hread : readValue utf8 zlib (some fi) f.bits (v ++ l) = some (some r, l')) (hsame : Same f r) :
    ValueFits utf8 zlib f ∧ Allowed fi f := by
  cases hbinary : f.isBinary with
  | true =>
    obtain ⟨d, hd⟩ := hf.binary hbinary
    have hdata : f.data = some d := by rw [LCField.data, hd]
    refine ⟨?_, fun h => absurd hbinary (by simp [h])⟩
    rw [readValue_of_binary hbinary] at hread
    cases hcompressed : f.isCompressed with
    | true =>
      have hv : writeData ((some d).bind zlib.compressedData) = some v := by
        simpa [writeValue, hcompressed, hbinary, hdata] using hv
      rw [(reads_writeData hv).bind_apply, if_pos hcompressed] at hread
      rw [ValueFits, if_pos hcompressed, encoded, if_pos hbinary, hdata]
      refine ⟨by_contra fun hlong => ?_, fun h => absurd hbinary (by simp [h])⟩
      obtain ⟨hnil, hne⟩ := decompressedData_take (IndexOutput.toNat_ofLength_lt hlong)
      rcases hd' : zlib.decompressedData ((((some d).bind zlib.compressedData).getD []).take
        (IndexOutput.ofLength (((some d).bind zlib.compressedData).getD []).length).toNat)
      with _ | d'
      · simp only [hd'] at hread
        cases hread
      · simp only [hd'] at hread
        have hdata' := fieldsData_of_initWithData (eq_some_of_addField hread)
        rw [hsame.fieldsData, hd] at hdata'
        cases hdata'
        rw [hd'] at hnil
        exact hne hnil
    | false =>
      have hv : writeData (some d) = some v := by
        simpa [writeValue, hcompressed, hbinary, hdata] using hv
      rw [(reads_writeData hv).bind_apply, if_neg (by simp [hcompressed])] at hread
      rw [ValueFits, if_neg (by simp [hcompressed]), if_pos hbinary, hdata]
      have hdata' := fieldsData_of_initWithData (eq_some_of_addField hread)
      rw [hsame.fieldsData, hd, map_some, some.injEq, FieldsData.data.injEq,
        getD_some, take_eq_self_iff] at hdata'
      exact by_contra fun hlong => absurd hdata' (not_le.2 (IndexOutput.toNat_ofLength_lt hlong))
  | false =>
    obtain ⟨s, hs⟩ := hf.text hstored hbinary
    have hstring : f.string = some s := by rw [LCField.string, hs]
    rw [readValue_of_text hbinary] at hread
    cases hcompressed : f.isCompressed with
    | true =>
      have hv : writeData ((encoded utf8 f).bind zlib.compressedData) = some v := by
        simpa [writeValue, hcompressed, hbinary, encoded] using hv
      rw [if_pos hcompressed, (reads_writeData hv).bind_apply] at hread
      obtain ⟨hvalue, hvectors⟩ := string_of_initWithString hs hsame (eq_some_of_addField hread)
      refine ⟨?_, fun _ => hvectors⟩
      rw [ValueFits, if_pos hcompressed]
      have hlength : (((encoded utf8 f).bind zlib.compressedData).getD []).length < 2 ^ 31 := by
        by_contra hlong
        obtain ⟨hnil, hne⟩ := decompressedData_take (IndexOutput.toNat_ofLength_lt hlong)
        rw [hnil, utf8.initWithData_nil] at hvalue
        cases hvalue
        rw [encoded, if_neg (by simp [hbinary]), hstring, bind_some,
          utf8.dataUsingEncoding_nil] at hne
        exact hne rfl
      refine ⟨hlength, fun _ => ?_⟩
      rw [IndexOutput.ofLength_eq_iff.2 hlength, Int.toNat_natCast, take_length,
        decompressedData_compressedData, getD_some] at hvalue
      rw [hvalue, hstring]
    | false =>
      have hv : IndexOutput.writeString s = v := by
        simpa [writeValue, hcompressed, hbinary, hstring] using hv
      rw [if_neg (by simp [hcompressed])] at hread
      obtain ⟨s', l₁, hs', hrest⟩ := Reader.bind_eq_some_iff.1 hread
      obtain ⟨hvalue, hvectors⟩ := string_of_initWithString hs hsame (eq_some_of_addField hrest)
      cases hvalue
      rw [ValueFits, if_neg (by simp [hcompressed]), if_neg (by simp [hbinary]), hstring]
      rw [← hv] at hs'
      exact ⟨(readString_writeString_iff _ _).1 ⟨_, hs'⟩, fun _ => hvectors⟩

section Fields

variable (hfi : infos.fieldInfo f.name = some fi) (hsize : infos.byNumber.length < 2 ^ 31)

include hfi hsize

theorem readField_apply (value : List UInt8) :
    readField utf8 zlib infos.byNumber
        (IndexOutput.writeVInt (infos.fieldNumber f.name) ++ (f.bits :: value) ++ l)
      = readValue utf8 zlib (some fi) f.bits (value ++ l) := by
  obtain ⟨hnumber, hlt, hindex⟩ := FieldInfos.objectAtIndex_number hfi
  have hread := IndexOutput.reads_writeVInt (i := fi.number) (by omega) (by omega)
  rw [hnumber, append_assoc, readField, hread.bind_apply, hindex]
  rfl

omit hsize in
theorem allowed_iff : Allowed fi f ↔ ∀ fi, infos.fieldInfo f.name = some fi → Allowed fi f := by
  constructor
  · intro h fi' hfi'
    obtain rfl := some.inj (hfi.symm.trans hfi')
    exact h
  · exact fun h => h fi hfi

end Fields

def FieldFits (utf8 : UTF8) (zlib : Zlib) (infos : FieldInfos) (f : LCField) : Prop :=
  ValueFits utf8 zlib f ∧ ∀ fi, infos.fieldInfo f.name = some fi → Allowed fi f

/-- The table has the name of the field, and is for an indexed field if it is tokenized. -/
def Covers (infos : FieldInfos) (f : LCField) : Prop :=
  ∃ fi, infos.fieldInfo f.name = some fi ∧ (f.isTokenized = true → fi.flags.isIndexed = true)

theorem exists_writeField (hcovers : Covers infos f) (hsize : infos.byNumber.length < 2 ^ 31)
    (hf : f.WellFormed) (hstored : f.isStored = true) (hfits : FieldFits utf8 zlib infos f) :
    ∃ b r, writeField utf8 zlib infos f = some b
      ∧ Reads (readField utf8 zlib infos.byNumber) b (some r) ∧ Same f r := by
  obtain ⟨fi, hfi, hindexed⟩ := hcovers
  obtain ⟨v, r, hv, hread, hsame⟩ := exists_writeValue hf hstored hfits.1 (hfits.2 fi hfi)
    (FieldInfos.name_of_fieldInfo hfi) hindexed
  refine ⟨_, r, by rw [writeField, hv]; rfl, fun rest => ?_, hsame⟩
  rw [readField_apply hfi hsize]
  exact hread rest

theorem fits_of_readField (hcovers : Covers infos f) (hsize : infos.byNumber.length < 2 ^ 31)
    (hf : f.WellFormed) (hstored : f.isStored = true) (hb : writeField utf8 zlib infos f = some b)
    (hread : readField utf8 zlib infos.byNumber (b ++ l) = some (some r, l')) (hsame : Same f r) :
    FieldFits utf8 zlib infos f := by
  obtain ⟨fi, hfi, -⟩ := hcovers
  obtain ⟨v, hv, heq⟩ := bind_eq_some_iff.1 hb
  obtain rfl := some.inj heq
  rw [readField_apply hfi hsize] at hread
  obtain ⟨hvalue, hallowed⟩ := fits_of_readValue hf hstored hv hread hsame
  exact ⟨hvalue, (allowed_iff hfi).1 hallowed⟩

theorem eq_map_some_of_length : ∀ {items : List (Option LCField)},
    items.reduceOption.length = items.length → items = items.reduceOption.map some
  | [], _ => rfl
  | none :: items, h => by
    have hle := reduceOption_length_le items
    rw [reduceOption_cons_of_none, length_cons] at h
    omega
  | some r :: items, h => by
    rw [reduceOption_cons_of_some, length_cons, length_cons, Nat.succ_inj] at h
    rw [reduceOption_cons_of_some, map_cons, ← eq_map_some_of_length h]

section Documents

variable {doc : LCDocument} (hcovers : ∀ f ∈ doc.fields, Covers infos f)
  (hsize : infos.byNumber.length < 2 ^ 31)

include hcovers hsize

omit hsize in
theorem wellFormed_of_stored (hf : f ∈ doc.stored) :
    Covers infos f ∧ f.WellFormed ∧ f.isStored = true := by
  obtain ⟨hmem, hstored⟩ := mem_filter.1 hf
  exact ⟨hcovers f hmem, (doc.made f hmem).wellFormed, hstored⟩

theorem exists_writeFields (hcount : doc.stored.length < 2 ^ 31)
    (hfits : ∀ f ∈ doc.stored, FieldFits utf8 zlib infos f) : ∃ b fields,
      writeFields utf8 zlib infos doc = some b
      ∧ Reads (readFields utf8 zlib infos.byNumber) b fields
      ∧ Forall₂ Same doc.stored fields := by
  have hall : ∀ f ∈ doc.stored, ∃ r, ∃ b, writeField utf8 zlib infos f = some b
      ∧ Reads (readField utf8 zlib infos.byNumber) b (some r) ∧ Same f r := by
    intro f hf
    obtain ⟨hcover, hwell, hstored⟩ := wellFormed_of_stored hcovers hf
    obtain ⟨b, r, h⟩ := exists_writeField hcover hsize hwell hstored (hfits f hf)
    exact ⟨r, b, h⟩
  choose! r hr using hall
  obtain ⟨parts, hparts⟩ := exists_mapM fun f hf => (hr f hf).imp fun _ h => h.1
  have hreads : ∀ f ∈ doc.stored, Reads (readField utf8 zlib infos.byNumber)
      ((writeField utf8 zlib infos f).getD []) (some (r f)) := by
    intro f hf
    obtain ⟨b, hb, hread, -⟩ := hr f hf
    simpa [hb] using hread
  refine ⟨_, doc.stored.map r, by rw [writeFields, hparts]; rfl, ?_, ?_⟩
  · have hlength := IndexOutput.ofLength_eq_iff.2 hcount
    rw [readFields, (flatten_of_mapM hparts).2]
    refine (IndexOutput.reads_ofLength _).bind ?_
    rw [hlength, Int.toNat_natCast]
    have hreduce : (doc.stored.map fun f => some (r f)).reduceOption = doc.stored.map r := by
      rw [reduceOption, filterMap_map]
      exact congrFun filterMap_eq_map _
    rw [← hreduce]
    exact (Reads.times hreads).bind_pure
  · rw [forall₂_map_right_iff, forall₂_same]
    intro f hf
    obtain ⟨b, -, -, hsame⟩ := hr f hf
    exact hsame

theorem fits_of_readFields {fields : List LCField} (hb : writeFields utf8 zlib infos doc = some b)
    (hread : readFields utf8 zlib infos.byNumber (b ++ l) = some (fields, l'))
    (hsame : Forall₂ Same doc.stored fields) :
    doc.stored.length < 2 ^ 31 ∧ ∀ f ∈ doc.stored, FieldFits utf8 zlib infos f := by
  obtain ⟨parts, hparts, heq⟩ := bind_eq_some_iff.1 hb
  obtain rfl := some.inj heq
  obtain ⟨hwritten, hflatten⟩ := flatten_of_mapM hparts
  rw [append_assoc, readFields, (IndexOutput.reads_ofLength _).bind_apply, hflatten] at hread
  obtain ⟨items, l₁, hitems, hlast⟩ := Reader.bind_eq_some_iff.1 hread
  obtain ⟨rfl, -⟩ := Prod.mk.inj (some.inj hlast)
  have hcount := Reader.length_of_times hitems
  have hle := reduceOption_length_le items
  have hcases := IndexOutput.ofLength_cases doc.stored.length
  rw [← hsame.length_eq] at hle
  have hlength : (IndexOutput.ofLength doc.stored.length).toNat = doc.stored.length := by omega
  refine ⟨by omega, ?_⟩
  rw [hlength] at hitems
  have hall : Forall₂ (fun f a => ∃ r, a = some r ∧ Same f r) doc.stored items := by
    have hlength : items.reduceOption.length = items.length := by
      rw [← hsame.length_eq, hcount, hlength]
    rw [eq_map_some_of_length hlength, forall₂_map_right_iff]
    exact hsame.imp fun f r h => ⟨r, rfl, h⟩
  refine Reader.forall_of_times ?_ ?_ hitems hall
  · rintro f hf a l l' hread ⟨r, rfl, hsame⟩
    obtain ⟨hcover, hwell, hstored⟩ := wellFormed_of_stored hcovers hf
    obtain ⟨b, hb⟩ := hwritten f hf
    rw [hb, getD_some] at hread
    exact fits_of_readField hcover hsize hwell hstored hb hread hsame
  · intro f hf hfits
    obtain ⟨hcover, hwell, hstored⟩ := wellFormed_of_stored hcovers hf
    obtain ⟨b, r, hb, hread, -⟩ := exists_writeField hcover hsize hwell hstored hfits
    rw [hb]
    exact ⟨some r, hread⟩

end Documents

section Files

variable {docs : List LCDocument} {s s' : List UInt8 × List UInt8}

theorem exists_addDocuments (h : ∀ doc ∈ docs, ∃ b, writeFields utf8 zlib infos doc = some b) :
    ∃ s', docs.foldlM (addDocument utf8 zlib infos) s = some s' := by
  obtain ⟨s', hs', -⟩ := @foldlM_succeeds _ _ (addDocument utf8 zlib infos)
    (fun rest _ => ∀ doc ∈ rest, ∃ b, writeFields utf8 zlib infos doc = some b)
    (fun doc rest s hrest => by
      rw [forall_mem_cons] at hrest
      obtain ⟨b, hb⟩ := hrest.1
      exact ⟨_, by rw [addDocument, hb]; rfl, hrest.2⟩) docs s h
  exact ⟨s', hs'⟩

theorem exists_place : ∀ {docs : List LCDocument} {s : List UInt8 × List UInt8},
    docs.foldlM (addDocument utf8 zlib infos) s = some s' →
      s.1 <+: s'.1 ∧ s.2 <+: s'.2 ∧ ∀ n (h : n < docs.length), ∃ b place,
        writeFields utf8 zlib infos docs[n] = some b ∧ place + b.length ≤ s'.1.length
        ∧ writeLong place <+: s'.2.drop (s.2.length + n * 8) ∧ b <+: s'.1.drop place
  | [], s, h => by
    obtain rfl := some.inj h
    exact ⟨prefix_rfl, prefix_rfl, fun n h => absurd h (Nat.not_lt_zero n)⟩
  | doc :: docs, s, h => by
    rw [foldlM_cons, bind_eq_bind, bind_eq_some_iff] at h
    obtain ⟨s₁, h₁, hrest⟩ := h
    obtain ⟨b, hb, heq⟩ := bind_eq_some_iff.1 h₁
    obtain rfl := some.inj heq
    obtain ⟨hfields, hindex, hplaces⟩ := exists_place hrest
    refine ⟨(prefix_append _ _).trans hfields, (prefix_append _ _).trans hindex, ?_⟩
    rintro (_ | n) hn
    · obtain ⟨t, ht⟩ := hfields
      obtain ⟨u, hu⟩ := hindex
      refine ⟨b, s.1.length, hb, ?_, ?_, ?_⟩
      · rw [← ht, length_append, length_append]
        omega
      · rw [← hu, Nat.zero_mul, Nat.add_zero, append_assoc, drop_left]
        exact prefix_append _ _
      · rw [← ht, append_assoc, drop_left]
        exact prefix_append _ _
    · obtain ⟨b', place, hb', hle, hlong, hprefix⟩ := hplaces n (Nat.lt_of_succ_lt_succ hn)
      refine ⟨b', place, hb', hle, ?_, hprefix⟩
      rw [length_append, length_writeLong] at hlong
      have hplace : s.2.length + (n + 1) * 8 = s.2.length + 8 + n * 8 := by omega
      rwa [hplace]

theorem document_eq {b : List UInt8} {place n : ℕ} (hsize : place < 2 ^ 63)
    (hlong : writeLong place <+: s.2.drop (n * 8)) (hb : b <+: s.1.drop place) :
    ∃ l, document utf8 zlib infos.byNumber s n
      = (readFields utf8 zlib infos.byNumber (b ++ l)).map Prod.fst := by
  obtain ⟨u, hu⟩ := hlong
  obtain ⟨t, ht⟩ := hb
  have hread : Reads readLong (writeLong place) place := reads_writeLong (by omega) (by omega)
  refine ⟨t, ?_⟩
  have hplace : ((place : ℤ) % 2 ^ 64).toNat = place := by omega
  rw [document, ← hu, hread, bind_eq_bind, bind_some]
  simp only [hplace, ← ht]
  rcases readFields utf8 zlib infos.byNumber (b ++ t) with _ | ⟨fields, l⟩ <;> rfl

end Files

section RoundTrip

variable {additions : List (NSString × Flags)} {docs : List LCDocument}

abbrev table (additions : List (NSString × Flags)) : FieldInfos := FieldInfos.empty.addAll additions

def Added (additions : List (NSString × Flags)) (docs : List LCDocument) : Prop :=
  ∀ doc ∈ docs, ∀ f ∈ doc.fields, ∃ a ∈ additions,
    a.1 = f.name ∧ (f.isIndexed = true → a.2.isIndexed = true)

/-- A field has the union of the flags it was added with, and the number it got first. -/
structure KeepsFields (additions : List (NSString × Flags)) : Prop where
  flags : ∀ name, (table additions).flagsOf name =
    if FieldInfos.added additions name = [] then none
    else some (Flags.union (FieldInfos.added additions name))
  number : ∀ front back, additions = front ++ back → ∀ name fi,
    (table front).fieldInfo name = some fi →
      ∃ fi', (table additions).fieldInfo name = some fi' ∧ fi'.number = fi.number

structure RoundTrips (utf8 : UTF8) (zlib : Zlib) (additions : List (NSString × Flags))
    (docs : List LCDocument) : Prop where
  fields : KeepsFields additions
  fieldInfos : ∃ l, FieldInfos.read (table additions).write = some ((table additions).byNumber, l)
  documents : ∃ s, addDocuments utf8 zlib (table additions) docs = some s
    ∧ ∀ n (h : n < docs.length), ∃ fields,
      document utf8 zlib (table additions).byNumber s n = some fields
      ∧ Forall₂ Same docs[n].stored fields

structure Storable (utf8 : UTF8) (zlib : Zlib) (additions : List (NSString × Flags))
    (docs : List LCDocument) : Prop where
  fieldInfos : (table additions).byNumber.length < 2 ^ 31
    ∧ ∀ fi ∈ (table additions).byNumber, fi.name.length < 2 ^ 31
  documents : ∀ doc ∈ docs, doc.stored.length < 2 ^ 31
    ∧ ∀ f ∈ doc.stored, FieldFits utf8 zlib (table additions) f

theorem keepsFields (additions : List (NSString × Flags)) : KeepsFields additions where
  flags := FieldInfos.flagsOf_addAll additions
  number := by
    rintro front back rfl name fi hfi
    have happend : table (front ++ back) = (table front).addAll back := foldl_append
    rw [happend]
    exact FieldInfos.number_addAll hfi

theorem Added.covers (h : Added additions docs) {doc : LCDocument} (hdoc : doc ∈ docs) :
    ∀ f ∈ doc.fields, Covers (table additions) f := by
  intro f hf
  obtain ⟨a, ha, hname, hindexed⟩ := h doc hdoc f hf
  have hflags := FieldInfos.flagsOf_addAll additions f.name
  have hmem : a.2 ∈ FieldInfos.added additions f.name :=
    mem_map_of_mem (mem_filter.2 ⟨ha, by simpa using hname⟩)
  rw [if_neg (ne_nil_of_mem hmem)] at hflags
  obtain ⟨fi, hfi, hunion⟩ := map_eq_some_iff.1 hflags
  refine ⟨fi, hfi, fun htokenized => ?_⟩
  rw [hunion]
  exact any_eq_true.2 ⟨a.2, hmem, hindexed ((doc.made f hf).wellFormed.tokenized htokenized).1⟩

theorem Storable.roundTrips (hadded : Added additions docs)
    (hsize : ∀ s, addDocuments utf8 zlib (table additions) docs = some s → s.1.length < 2 ^ 63)
    (h : Storable utf8 zlib additions docs) : RoundTrips utf8 zlib additions docs := by
  refine ⟨keepsFields additions, FieldInfos.read_write_iff.2 h.fieldInfos, ?_⟩
  have hall : ∀ doc ∈ docs, ∃ b fields, writeFields utf8 zlib (table additions) doc = some b
      ∧ Reads (readFields utf8 zlib (table additions).byNumber) b fields
      ∧ Forall₂ Same doc.stored fields := fun doc hdoc =>
    exists_writeFields (hadded.covers hdoc) h.fieldInfos.1 (h.documents doc hdoc).1
      (h.documents doc hdoc).2
  obtain ⟨s, hs⟩ := exists_addDocuments (s := ([], [])) fun doc hdoc =>
    (hall doc hdoc).imp fun _ ⟨_, hb, _⟩ => hb
  refine ⟨s, hs, fun n hn => ?_⟩
  obtain ⟨b, place, hb, hle, hlong, hprefix⟩ := (exists_place hs).2.2 n hn
  obtain ⟨b', fields, hb', hread, hsame⟩ := hall _ (getElem_mem hn)
  obtain rfl := some.inj (hb.symm.trans hb')
  have hplace := hsize s hs
  rw [length_nil, Nat.zero_add] at hlong
  obtain ⟨l, hdocument⟩ := document_eq (by omega) hlong hprefix
  exact ⟨fields, by rw [hdocument, hread]; rfl, hsame⟩

theorem RoundTrips.storable (hadded : Added additions docs)
    (hsize : ∀ s, addDocuments utf8 zlib (table additions) docs = some s → s.1.length < 2 ^ 63)
    (h : RoundTrips utf8 zlib additions docs) : Storable utf8 zlib additions docs := by
  have htable := FieldInfos.read_write_iff.1 h.fieldInfos
  refine ⟨htable, fun doc hdoc => ?_⟩
  obtain ⟨s, hs, hread⟩ := h.documents
  obtain ⟨n, hn, rfl⟩ := getElem_of_mem hdoc
  obtain ⟨b, place, hb, hle, hlong, hprefix⟩ := (exists_place hs).2.2 n hn
  obtain ⟨fields, hfields, hsame⟩ := hread n hn
  have hplace := hsize s hs
  rw [length_nil, Nat.zero_add] at hlong
  obtain ⟨l, hdocument⟩ := document_eq (by omega) hlong hprefix
  rw [hdocument, map_eq_some_iff] at hfields
  obtain ⟨⟨fields', l'⟩, hfields', rfl⟩ := hfields
  exact fits_of_readFields (hadded.covers hdoc) htable.1 hb hfields' hsame

/-- Documents come back with their stored fields, and fields with their numbers and flags, if and
only if lengths and counts are those of an `int`, compressed strings are kept by their encoding, and no
stored text field is one with vectors that is never indexed. -/
theorem documents_roundTrip_iff (hadded : Added additions docs)
    (hsize : ∀ s, addDocuments utf8 zlib (table additions) docs = some s → s.1.length < 2 ^ 63) :
    RoundTrips utf8 zlib additions docs ↔ Storable utf8 zlib additions docs :=
  ⟨RoundTrips.storable hadded hsize, Storable.roundTrips hadded hsize⟩

/-- UTF-8 for the first 128 characters, which is the same for them, and a library that has a byte
before each byte to say that there is one. -/
def ascii : UTF8 where
  dataUsingEncoding s :=
    if ∀ c ∈ s, c.val < 128 then some (s.map fun c => UInt8.ofNat c.val) else none
  initWithData d :=
    if ∀ b ∈ d, b.toNat < 128 then some (d.map fun b => Fin.ofNat _ b.toNat) else none
  dataUsingEncoding_nil := by simp
  initWithData_nil := by simp

def marked : NSData → NSData
  | [] => [0]
  | b :: d => 1 :: b :: marked d

def unmarked : NSData → Option NSData
  | [0] => some []
  | 1 :: b :: d => (unmarked d).map (b :: ·)
  | _ => none

theorem unmarked_marked : ∀ d : NSData, unmarked (marked d) = some d
  | [] => rfl
  | b :: d => by simp [marked, unmarked, unmarked_marked d]

theorem unmarked_take : ∀ (d : NSData) (n : ℕ), n < (marked d).length →
    unmarked ((marked d).take n) = none
  | [], 0, _ => rfl
  | [], n + 1, h => by simp [marked] at h
  | _ :: _, 0, _ => rfl
  | _ :: _, 1, _ => rfl
  | b :: d, n + 2, h => by
    have hd := unmarked_take d n (by simpa [marked] using h)
    simp [marked, unmarked, hd]

def markedZlib : Zlib where
  compress := marked
  inflate := unmarked
  compress_ne_nil d := by cases d <;> simp [marked]
  inflate_compress d _ := unmarked_marked d
  inflate_take := unmarked_take

def plainField (value : NSString) (compressed : Bool) : LCField where
  name := [102]
  fieldsData := .string value
  isStored := true
  isIndexed := false
  isTokenized := false
  isBinary := false
  isCompressed := compressed
  storeTermVector := false
  storePositionWithTermVector := false
  storeOffsetWithTermVector := false
  omitNorms := false

def oneField (value : NSString) (compressed : Bool) : LCDocument where
  fields := [plainField value compressed]
  made := by
    rintro f hf
    rw [mem_singleton] at hf
    subst hf
    have hmade : LCField.initWithString (some [102]) (some value)
        (if compressed then .compress else .yes) .no .no = some (plainField value compressed) := by
      cases compressed <;> rfl
    exact .initWithString hmade

def onlyAddition : List (NSString × Flags) := [([102], ⟨false, false, false, false, false⟩)]

variable {value : NSString}

theorem added_oneField {compressed : Bool} : Added onlyAddition [oneField value compressed] := by
  intro doc hdoc f hf
  rw [mem_singleton] at hdoc
  subst hdoc
  rw [oneField, mem_singleton] at hf
  subst hf
  exact ⟨_, mem_singleton_self _, rfl, nofun⟩

/-- The field `f` of the value `a` is read back. -/
theorem documents_roundTrip_iff_a : RoundTrips ascii markedZlib onlyAddition [oneField [97] false]
    ↔ Storable ascii markedZlib onlyAddition [oneField [97] false] := by
  refine documents_roundTrip_iff added_oneField fun s hs => ?_
  have hfiles : addDocuments ascii markedZlib (table onlyAddition) [oneField [97] false]
      = some ([1, 0, 0, 1, 97], [0, 0, 0, 0, 0, 0, 0, 0]) := by
    decide +kernel
  rw [hfiles] at hs
  obtain rfl := some.inj hs
  simp

theorem addDocuments_of_none (h : utf8.dataUsingEncoding value = none) :
    addDocuments utf8 zlib (table onlyAddition) [oneField value true]
      = some ([1, 0, 4, 0], [0, 0, 0, 0, 0, 0, 0, 0]) := by
  have hvalue : writeValue utf8 zlib (plainField value true) = writeData none := by
    simp [writeValue, plainField, LCField.string, h]
  have hwritten : writeData none = some [0] := by decide +kernel
  have hnumber : (table onlyAddition).fieldNumber [102] = 0 := by decide +kernel
  have hfield : writeField utf8 zlib (table onlyAddition) (plainField value true)
      = some (IndexOutput.writeVInt 0 ++ [0x4, 0]) := by
    have hname : (plainField value true).name = [102] := rfl
    have hbits : (plainField value true).bits = 0x4 := by simp [LCField.bits, plainField]
    rw [writeField, hvalue, hwritten, hname, hnumber, hbits]
    rfl
  have hstored : (oneField value true).stored = [plainField value true] := rfl
  have hfields : writeFields utf8 zlib (table onlyAddition) (oneField value true)
      = some (IndexOutput.writeVInt (IndexOutput.ofLength 1)
        ++ [IndexOutput.writeVInt 0 ++ [0x4, 0]].flatten) := by
    rw [writeFields, hstored, mapM_cons, hfield]
    rfl
  have hbytes : IndexOutput.writeVInt (IndexOutput.ofLength 1)
      ++ [IndexOutput.writeVInt 0 ++ [0x4, 0]].flatten = [1, 0, 4, 0] := by decide +kernel
  rw [addDocuments, foldlM_cons, addDocument, hfields, hbytes]
  rfl

theorem RoundTrips.encoded (h : RoundTrips utf8 zlib onlyAddition [oneField value true])
    (hnone : utf8.dataUsingEncoding value = none) : value = [] := by
  have hstorable := h.storable added_oneField fun s hs => by
    rw [addDocuments_of_none hnone] at hs
    obtain rfl := some.inj hs
    simp
  have hfits := ((hstorable.documents _ (mem_singleton_self _)).2 (plainField value true)
    (mem_filter.2 ⟨mem_singleton_self _, rfl⟩)).1
  have hvalue := (show _ ∧ _ from hfits).2 rfl
  have hencoded : Stored.encoded utf8 (plainField value true) = none := hnone
  rw [hencoded, getD_none, utf8.initWithData_nil] at hvalue
  exact (some.inj hvalue).symm

def surrogate : Unichar := ⟨0xD800, by simp⟩

/-- A compressed string of one surrogate is not read back. -/
theorem lone_surrogate_is_lost :
    ¬ RoundTrips ascii markedZlib onlyAddition [oneField [surrogate] true] := by
  intro h
  have hnone : ascii.dataUsingEncoding [surrogate] = none := by
    unfold ascii
    simp only [forall_mem_singleton]
    have hval : surrogate.val = 0xD800 := rfl
    rw [if_neg (by omega)]
  exact cons_ne_nil _ _ (h.encoded hnone)

end RoundTrip

end Stored

end Etoile.Lucene
