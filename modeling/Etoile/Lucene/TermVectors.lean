import Etoile.Lucene.FieldInfos
import Etoile.Lucene.SegmentTermEnumerator

/-!
# Term vectors

The vector of a field has the terms that a document has in it, without what a term shares with the
one before, how often each is there and, if the field asks for them, at which positions and
offsets.  Positions and offsets are written as differences, each in the 32 bits of a variable-length
number.  Positions, which are `long`s, come back if the differences have no more bits; offsets are
`int`s, so that their differences may lose the higher bits.

The lengths of texts are those of an `int`.
-/

namespace Etoile.Lucene.TermVectors

open List

structure LCTermVectorOffsetInfo where
  startOffset : BitVec 32
  endOffset : BitVec 32
deriving DecidableEq

structure Entry where
  text : NSString
  freq : ℤ
  positions : List (BitVec 64)
  offsets : List LCTermVectorOffsetInfo
deriving DecidableEq

/-- A vector as it is read; with positions or offsets it is an `LCSegmentTermPositionVector`. -/
structure LCSegmentTermVector where
  field : NSString
  storePositions : Bool
  storeOffsets : Bool
  entries : List Entry
deriving DecidableEq

structure LCTVTerm where
  termText : NSString
  freq : ℤ
  positions : Option (List (BitVec 64))
  offsets : Option (List LCTermVectorOffsetInfo)

/-- What a loop up to the frequency reads of an array; messages to `nil` give zero. -/
def elements {α : Type} (zero : α) (freq : ℤ) : Option (List α) → Option (List α)
  | none => some (replicate freq.toNat zero)
  | some array => if freq.toNat ≤ array.length then some (array.take freq.toNat) else none

def positionBytes : BitVec 64 → List (BitVec 64) → List UInt8
  | _, [] => []
  | position, p :: positions =>
    IndexOutput.writeVInt (p - position).toInt ++ positionBytes p positions

def offsetBytes : ℤ → List LCTermVectorOffsetInfo → List UInt8
  | _, [] => []
  | position, o :: offsets =>
    IndexOutput.writeVInt (o.startOffset.toInt - position)
      ++ IndexOutput.writeVInt (o.endOffset - o.startOffset).toInt
      ++ offsetBytes o.endOffset.toInt offsets

section Flags

variable (storePositions storeOffsets : Bool)

def termBytes (lastTermText : NSString) (term : LCTVTerm) : Option (List UInt8) := do
  let start := positionOfDifference lastTermText term.termText
  let positions ← (if storePositions then elements 0 term.freq term.positions else some [])
  let offsets ← (if storeOffsets then elements ⟨0, 0⟩ term.freq term.offsets else some [])
  return IndexOutput.writeVInt start ++ IndexOutput.writeVInt (term.termText.length - start)
    ++ writeChars (term.termText.drop start) ++ IndexOutput.writeVInt term.freq
    ++ positionBytes 0 positions ++ offsetBytes 0 offsets

def termsBytes : NSString → List LCTVTerm → Option (List UInt8)
  | _, [] => some []
  | lastTermText, term :: terms => do
    let bytes ← termBytes storePositions storeOffsets lastTermText term
    let rest ← termsBytes term.termText terms
    return bytes ++ rest

/-- `STORE_POSITIONS_WITH_TERMVECTOR` and `STORE_OFFSET_WITH_TERMVECTOR`. -/
def bits : UInt8 := (if storePositions then 0x1 else 0) ||| (if storeOffsets then 0x2 else 0)

/-- `-writeField`. -/
def fieldBytes (terms : List LCTVTerm) : Option (List UInt8) := do
  let bytes ← termsBytes storePositions storeOffsets [] terms
  return IndexOutput.writeVInt terms.length ++ bits storePositions storeOffsets :: bytes

end Flags

/-- `-substringToIndex:` raises beyond the end. -/
def substringToIndex (s : NSString) (index : ℤ) : Reader NSString :=
  if 0 ≤ index ∧ index ≤ s.length then return s.take index.toNat else fun _ => none

/-- `-readChars:start:length:` keeps what the buffer has in front of the new characters. -/
def readCharsInto (s : NSString) (start length : ℤ) : Reader NSString :=
  if length < 0 then fun _ => none
  else do
    let s2 ← readChars length.toNat
    let s1 ← (if (s.length : ℤ) < start then pure s else substringToIndex s start)
    return s1 ++ s2

def readPositions : ℕ → BitVec 64 → Reader (List (BitVec 64))
  | 0, _ => return []
  | freq + 1, prevPosition => do
    let delta ← readVInt
    let position := prevPosition + BitVec.ofInt 64 delta
    let positions ← readPositions freq position
    return position :: positions

def readOffsets : ℕ → ℤ → Reader (List LCTermVectorOffsetInfo)
  | 0, _ => return []
  | freq + 1, prevOffset => do
    let startDelta ← readVInt
    let startOffset := prevOffset + startDelta
    let endDelta ← readVInt
    let endOffset := startOffset + endDelta
    let offsets ← readOffsets freq endOffset
    return ⟨BitVec.ofInt 32 startOffset, BitVec.ofInt 32 endOffset⟩ :: offsets

section Flags

variable (storePositions storeOffsets : Bool)

def readEntry (buffer previousString : NSString) : Reader (NSString × Entry) := do
  let start ← readVInt
  let deltaLength ← readVInt
  let totalLength := start + deltaLength
  let buffer ← readCharsInto (if (buffer.length : ℤ) < totalLength then previousString else buffer)
    start deltaLength
  let text ← substringToIndex buffer totalLength
  let freq ← readVInt
  let positions ← (if storePositions then readPositions freq.toNat 0 else pure [])
  let offsets ← (if storeOffsets then readOffsets freq.toNat 0 else pure [])
  return (buffer, ⟨text, freq, positions, offsets⟩)

def readEntries : ℕ → NSString → NSString → Reader (List Entry)
  | 0, _, _ => return []
  | numTerms + 1, buffer, previousString => do
    let (buffer, entry) ← readEntry storePositions storeOffsets buffer previousString
    let entries ← readEntries numTerms buffer entry.text
    return entry :: entries

end Flags

def TERM_VECTORS_WRITER_FORMAT_VERSION : ℤ := 2

def readFlags (tvfFormat : ℤ) : Reader (Bool × Bool) :=
  if tvfFormat = TERM_VECTORS_WRITER_FORMAT_VERSION then do
    let bits ← Reader.byte
    return (bits &&& 0x1 ≠ 0, bits &&& 0x2 ≠ 0)
  else do
    let _ ← readVInt
    return (false, false)

/-- `-readTermVector:pointer:`, from the pointer on. -/
def readTermVector (tvfFormat : ℤ) (field : NSString) : Reader LCSegmentTermVector := do
  let numTerms ← readVInt
  if numTerms = 0 then return ⟨field, false, false, []⟩
  else
    let (storePositions, storeOffsets) ← readFlags tvfFormat
    let entries ← readEntries storePositions storeOffsets numTerms.toNat [] []
    return ⟨field, storePositions, storeOffsets, entries⟩

def wrapped : BitVec 64 → BitVec 64 → List (BitVec 64) → List (BitVec 64)
  | _, _, [] => []
  | prevPosition, position, p :: positions =>
    let p' := prevPosition + BitVec.ofInt 64 ((p - position).toInt.bmod (2 ^ 32))
    p' :: wrapped p' p positions

/-- No difference from one position to the next has more than 32 bits. -/
def Close : BitVec 64 → List (BitVec 64) → Prop
  | _, [] => True
  | position, p :: positions =>
    (-2 ^ 31 ≤ (p - position).toInt ∧ (p - position).toInt < 2 ^ 31) ∧ Close p positions

theorem reads_positionBytes : ∀ (positions : List (BitVec 64)) (prevPosition position : BitVec 64),
    Reads (readPositions positions.length prevPosition) (positionBytes position positions)
      (wrapped prevPosition position positions)
  | [], _, _ => Reads.pure []
  | p :: positions, _, _ =>
    (IndexOutput.reads_writeVInt_bmod _).bind (reads_positionBytes positions _ p).bind_pure

theorem add_ofInt_eq_iff {position p : BitVec 64} {d : ℤ} (hlo : -2 ^ 31 ≤ d) (hhi : d < 2 ^ 31) :
    position + BitVec.ofInt 64 d = p ↔ (p - position).toInt = d := by
  constructor
  · rintro rfl
    rw [BitVec.add_comm, BitVec.add_sub_cancel, BitVec.toInt_ofInt]
    exact Int.bmod_eq_of_le (by omega) (by omega)
  · rintro rfl
    rw [BitVec.ofInt_toInt, BitVec.add_comm, BitVec.sub_add_cancel]

theorem wrapped_eq_iff : ∀ (positions : List (BitVec 64)) (position : BitVec 64),
    wrapped position position positions = positions ↔ Close position positions
  | [], _ => iff_of_true rfl trivial
  | p :: positions, position => by
    have hlo := Int.le_bmod (x := (p - position).toInt) (m := 2 ^ 32) (by simp)
    have hhi := Int.bmod_lt (x := (p - position).toInt) (m := 2 ^ 32) (by simp)
    rw [wrapped, cons.injEq, add_ofInt_eq_iff (by omega) (by omega), Close,
      ← IndexOutput.bmod_eq_iff, eq_comm]
    refine and_congr_right fun hp => ?_
    rw [hp, BitVec.ofInt_toInt, BitVec.add_comm, BitVec.sub_add_cancel,
      wrapped_eq_iff positions p]

theorem ofInt_bmod (i : ℤ) : BitVec.ofInt 32 (i.bmod (2 ^ 32)) = BitVec.ofInt 32 i := by
  refine BitVec.eq_of_toInt_eq ?_
  rw [BitVec.toInt_ofInt, BitVec.toInt_ofInt, Int.bmod_bmod]

/-- Offsets are `int`s, so the lower bits of the differences are enough. -/
theorem reads_offsetBytes : ∀ (offsets : List LCTermVectorOffsetInfo) (prevOffset position : ℤ),
    BitVec.ofInt 32 prevOffset = BitVec.ofInt 32 position →
      Reads (readOffsets offsets.length prevOffset) (offsetBytes position offsets) offsets
  | [], _, _, _ => Reads.pure []
  | o :: offsets, prevOffset, position, h => by
    have hstart : BitVec.ofInt 32 (prevOffset + (o.startOffset.toInt - position).bmod (2 ^ 32))
        = o.startOffset := by
      rw [BitVec.ofInt_add, ofInt_bmod, h, ← BitVec.ofInt_add, add_sub_cancel, BitVec.ofInt_toInt]
    have hend : BitVec.ofInt 32 (prevOffset + (o.startOffset.toInt - position).bmod (2 ^ 32)
        + (o.endOffset - o.startOffset).toInt.bmod (2 ^ 32)) = o.endOffset := by
      rw [BitVec.ofInt_add, hstart, ofInt_bmod, BitVec.ofInt_toInt, BitVec.add_comm,
        BitVec.sub_add_cancel]
    have hrest := reads_offsetBytes offsets _ o.endOffset.toInt
      (hend.trans (BitVec.ofInt_toInt).symm)
    rw [offsetBytes, append_assoc]
    refine (IndexOutput.reads_writeVInt_bmod _).bind ?_
    refine (IndexOutput.reads_writeVInt_bmod _).bind ?_
    have hread := hrest.bind_pure (f := fun rest => (⟨o.startOffset, o.endOffset⟩ :: rest :
      List LCTermVectorOffsetInfo))
    simpa only [hstart, hend] using hread

variable {storePositions storeOffsets : Bool}

namespace LCTVTerm

/-- A term that can be written with the flags: the arrays have as many elements as the frequency
says. -/
structure WellFormed (storePositions storeOffsets : Bool) (term : LCTVTerm) : Prop where
  text : term.termText.length < 2 ^ 31
  freq : -2 ^ 31 ≤ term.freq
  positions : storePositions = true → ∃ positions, term.positions = some positions
    ∧ positions.length = term.freq.toNat ∧ positions.length < 2 ^ 31
  offsets : storeOffsets = true → ∃ offsets, term.offsets = some offsets
    ∧ offsets.length = term.freq.toNat ∧ offsets.length < 2 ^ 31

def entry (storePositions storeOffsets : Bool) (term : LCTVTerm) : Entry where
  text := term.termText
  freq := term.freq
  positions := if storePositions then term.positions.getD [] else []
  offsets := if storeOffsets then term.offsets.getD [] else []

def readBack (storePositions storeOffsets : Bool) (term : LCTVTerm) : Entry where
  text := term.termText
  freq := term.freq.bmod (2 ^ 32)
  positions := if storePositions then wrapped 0 0 (term.positions.getD []) else []
  offsets := if storeOffsets then term.offsets.getD [] else []

/-- The numbers are those of an `int`. -/
structure Kept (storePositions : Bool) (term : LCTVTerm) : Prop where
  freq : term.freq < 2 ^ 31
  positions : storePositions = true → Close 0 (term.positions.getD [])

variable {term : LCTVTerm}

theorem readBack_eq_entry_iff (h : term.WellFormed storePositions storeOffsets) :
    term.readBack storePositions storeOffsets = term.entry storePositions storeOffsets
      ↔ term.Kept storePositions := by
  have hfreq := h.freq
  simp only [readBack, entry, Entry.mk.injEq, true_and, and_true, IndexOutput.bmod_eq_iff]
  constructor
  · rintro ⟨⟨-, hlt⟩, hpositions⟩
    refine ⟨hlt, fun hstore => ?_⟩
    subst hstore
    exact (wrapped_eq_iff _ _).1 hpositions
  · rintro ⟨hlt, hclose⟩
    refine ⟨⟨hfreq, hlt⟩, ?_⟩
    split_ifs with hstore
    · exact (wrapped_eq_iff _ _).2 (hclose hstore)
    · rfl

end LCTVTerm

theorem elements_eq_some {α : Type} {zero : α} {freq : ℤ} {array : List α}
    (h : array.length = freq.toNat) : elements zero freq (some array) = some array := by
  rw [elements, if_pos h.ge, ← h, take_length]

theorem reads_substringToIndex {s : NSString} {index : ℕ} (h : index ≤ s.length) :
    Reads (substringToIndex s index) [] (s.take index) := by
  rw [substringToIndex, if_pos ⟨by omega, by omega⟩, Int.toNat_natCast]
  exact Reads.pure _

theorem reads_sharedChars (last text : NSString) :
    Reads (readCharsInto last (positionOfDifference last text)
        (text.length - positionOfDifference last text))
      (writeChars (text.drop (positionOfDifference last text))) text := by
  have hle := positionOfDifference_le last text
  have hle' := positionOfDifference_le_left last text
  have hchars := reads_writeChars (text.drop (positionOfDifference last text))
  rw [length_drop] at hchars
  have hlength : ((text.length : ℤ) - positionOfDifference last text).toNat
      = text.length - positionOfDifference last text := by
    omega
  rw [readCharsInto, if_neg (by omega), hlength]
  refine hchars.bind_nil ?_
  rw [if_neg (by omega)]
  refine (reads_substringToIndex hle').bind_nil ?_
  rw [take_positionOfDifference, take_append_drop]
  exact Reads.pure text

section Entries

variable {term : LCTVTerm} {terms : List LCTVTerm} {last : NSString}

theorem exists_positionBytes (h : term.WellFormed storePositions storeOffsets) : ∃ positions,
    (if storePositions then elements 0 term.freq term.positions else some []) = some positions
      ∧ Reads (if storePositions then readPositions (term.freq.bmod (2 ^ 32)).toNat 0 else pure [])
        (positionBytes 0 positions) (term.readBack storePositions storeOffsets).positions := by
  simp only [LCTVTerm.readBack]
  split_ifs with hstore
  · obtain ⟨positions, hpositions, hlength, hlt⟩ := h.positions hstore
    have hfreq : term.freq.bmod (2 ^ 32) = term.freq :=
      IndexOutput.bmod_eq_iff.2 ⟨h.freq, by omega⟩
    rw [hpositions, hfreq, ← hlength]
    exact ⟨positions, elements_eq_some hlength, reads_positionBytes positions 0 0⟩
  · exact ⟨[], rfl, Reads.pure []⟩

theorem exists_offsetBytes (h : term.WellFormed storePositions storeOffsets) : ∃ offsets,
    (if storeOffsets then elements ⟨0, 0⟩ term.freq term.offsets else some []) = some offsets
      ∧ Reads (if storeOffsets then readOffsets (term.freq.bmod (2 ^ 32)).toNat 0 else pure [])
        (offsetBytes 0 offsets) (term.readBack storePositions storeOffsets).offsets := by
  simp only [LCTVTerm.readBack]
  split_ifs with hstore
  · obtain ⟨offsets, hoffsets, hlength, hlt⟩ := h.offsets hstore
    have hfreq : term.freq.bmod (2 ^ 32) = term.freq :=
      IndexOutput.bmod_eq_iff.2 ⟨h.freq, by omega⟩
    rw [hoffsets, hfreq, ← hlength]
    exact ⟨offsets, elements_eq_some hlength, reads_offsetBytes offsets 0 0 rfl⟩
  · exact ⟨[], rfl, Reads.pure []⟩

theorem exists_termBytes (h : term.WellFormed storePositions storeOffsets) (last : NSString) :
    ∃ b, termBytes storePositions storeOffsets last term = some b
      ∧ Reads (readEntry storePositions storeOffsets last last) b
        (term.termText, term.readBack storePositions storeOffsets) := by
  obtain ⟨positions, hpositions, hreadPositions⟩ := exists_positionBytes h
  obtain ⟨offsets, hoffsets, hreadOffsets⟩ := exists_offsetBytes h
  refine ⟨_, by rw [termBytes, hpositions, hoffsets]; rfl, ?_⟩
  have htext := h.text
  have hle := positionOfDifference_le last term.termText
  simp only [append_assoc]
  refine (IndexOutput.reads_writeVInt (by omega) (by omega)).bind ?_
  refine (IndexOutput.reads_writeVInt (by omega) (by omega)).bind ?_
  have htotal : (positionOfDifference last term.termText : ℤ)
      + (term.termText.length - positionOfDifference last term.termText)
      = term.termText.length := by
    omega
  simp only [ite_self, htotal]
  refine (reads_sharedChars last term.termText).bind ?_
  have hwhole := reads_substringToIndex (le_refl term.termText.length)
  rw [take_length] at hwhole
  refine hwhole.nil_bind ((IndexOutput.reads_writeVInt_bmod term.freq).bind ?_)
  exact hreadPositions.bind hreadOffsets.bind_pure

theorem exists_termsBytes : ∀ (terms : List LCTVTerm) (last : NSString),
    (∀ term ∈ terms, term.WellFormed storePositions storeOffsets) →
      ∃ b, termsBytes storePositions storeOffsets last terms = some b
        ∧ Reads (readEntries storePositions storeOffsets terms.length last last) b
          (terms.map (LCTVTerm.readBack storePositions storeOffsets))
  | [], _, _ => ⟨[], rfl, Reads.pure []⟩
  | term :: terms, last, h => by
    rw [forall_mem_cons] at h
    obtain ⟨b, hb, hread⟩ := exists_termBytes h.1 last
    obtain ⟨rest, hrest, hreads⟩ := exists_termsBytes terms term.termText h.2
    exact ⟨b ++ rest, by simp [termsBytes, hb, hrest], hread.bind hreads.bind_pure⟩

theorem reads_bits (storePositions storeOffsets : Bool) :
    Reads (readFlags TERM_VECTORS_WRITER_FORMAT_VERSION) [bits storePositions storeOffsets]
      (storePositions, storeOffsets) := by
  rw [readFlags, if_pos rfl]
  cases storePositions <;> cases storeOffsets <;> exact (Reads.byte _).bind_pure

def readBack (storePositions storeOffsets : Bool) (field : NSString) (terms : List LCTVTerm) :
    LCSegmentTermVector :=
  if terms = [] then ⟨field, false, false, []⟩
  else ⟨field, storePositions, storeOffsets,
    terms.map (LCTVTerm.readBack storePositions storeOffsets)⟩

theorem readBack_field (field : NSString) :
    (readBack storePositions storeOffsets field terms).field = field := by
  unfold readBack
  split_ifs <;> rfl

theorem readBack_entries (field : NSString) :
    (readBack storePositions storeOffsets field terms).entries
      = terms.map (LCTVTerm.readBack storePositions storeOffsets) := by
  unfold readBack
  split_ifs with hempty
  · rw [hempty]
    rfl
  · rfl

theorem exists_fieldBytes (hlength : terms.length < 2 ^ 31)
    (h : ∀ term ∈ terms, term.WellFormed storePositions storeOffsets) :
    ∃ b, fieldBytes storePositions storeOffsets terms = some b
      ∧ ∀ field rest, ∃ rest', readTermVector TERM_VECTORS_WRITER_FORMAT_VERSION field (b ++ rest)
        = some (readBack storePositions storeOffsets field terms, rest') := by
  obtain ⟨b, hb, hread⟩ := exists_termsBytes terms [] h
  refine ⟨_, by rw [fieldBytes, hb]; rfl, fun field rest => ?_⟩
  have hsize : Reads readVInt (IndexOutput.writeVInt terms.length) terms.length :=
    IndexOutput.reads_writeVInt (by omega) (by omega)
  rw [readTermVector, append_assoc, hsize.bind_apply]
  rcases terms with _ | ⟨term, terms⟩
  · exact ⟨_, rfl⟩
  · have hne : ((term :: terms).length : ℤ) ≠ 0 := by
      rw [length_cons]
      omega
    rw [if_neg hne, Int.toNat_natCast, readBack, if_neg (cons_ne_nil _ _)]
    exact ⟨rest, (reads_bits storePositions storeOffsets).bind hread.bind_pure rest⟩

end Entries

/-- The arrays of a vector that was read have as many elements as the frequencies say, and there are
none if they are not stored. -/
structure Entry.FromReader (storePositions storeOffsets : Bool) (e : Entry) : Prop where
  freq : -2 ^ 31 ≤ e.freq ∧ e.freq < 2 ^ 31
  positions : e.positions.length = if storePositions then e.freq.toNat else 0
  offsets : e.offsets.length = if storeOffsets then e.freq.toNat else 0

structure FromReader (v : LCSegmentTermVector) : Prop where
  length : v.entries.length < 2 ^ 31
  entries : ∀ e ∈ v.entries, e.FromReader v.storePositions v.storeOffsets

end Etoile.Lucene.TermVectors
