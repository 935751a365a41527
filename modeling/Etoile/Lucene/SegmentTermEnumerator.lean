import Etoile.Lucene.TermInfosWriter

/-!
# The enumerator of a term dictionary

It reads the entries of a dictionary or of its index one after another.
-/

namespace Etoile.Lucene

open List

def INT_MAX : ℤ := 2 ^ 31 - 1

structure TermsHeader where
  format : ℤ
  size : ℤ
  indexInterval : ℤ
  skipInterval : ℤ
  formatM1SkipInterval : ℤ

def TermsHeader.read (isIndex : Bool) : Reader TermsHeader := do
  let firstInt ← readInt
  if 0 ≤ firstInt then
    return ⟨0, firstInt, 128, INT_MAX, 0⟩
  else if firstInt < LCTermInfos_FORMAT then
    failure
  else
    let size ← readLong
    if firstInt = -1 then
      if isIndex then
        return ⟨firstInt, size, 0, INT_MAX, 0⟩
      else
        let indexInterval ← readInt
        let formatM1SkipInterval ← readInt
        return ⟨firstInt, size, indexInterval, INT_MAX, formatM1SkipInterval⟩
    else
      let indexInterval ← readInt
      let skipInterval ← readInt
      return ⟨firstInt, size, indexInterval, skipInterval, 0⟩

structure SegmentTermEnumerator where
  file : List UInt8
  /-- the bytes from the offset in the file on -/
  input : List UInt8
  fieldInfos : FieldInfos
  isIndex : Bool
  header : TermsHeader
  position : ℤ
  termBuffer : Term
  prevBuffer : Term
  termInfo : TermInfo
  indexPointer : ℕ

/-- The text of the buffer is kept up to `start`. -/
def Term.read (fieldInfos : FieldInfos) (buffer : Term) : Reader Term := do
  let start ← readVInt
  let length ← readVInt
  let chars ← readChars length.toNat
  let number ← readVInt
  return ⟨fieldInfos.fieldName number, buffer.text.take start.toNat ++ chars⟩

namespace SegmentTermEnumerator

def initWithIndexInput (file : List UInt8) (fieldInfos : FieldInfos) (isIndex : Bool) :
    Option SegmentTermEnumerator :=
  (TermsHeader.read isIndex file).map fun p =>
    { file, input := p.2, fieldInfos, isIndex, header := p.1, position := -1,
      termBuffer := Term.empty, prevBuffer := Term.empty, termInfo := TermInfo.empty,
      indexPointer := 0 }

def size (e : SegmentTermEnumerator) : ℤ := e.header.size

def indexInterval (e : SegmentTermEnumerator) : ℤ := e.header.indexInterval

def seek (e : SegmentTermEnumerator) (pointer : ℕ) (p : ℤ) (t : Term) (ti : TermInfo) :
    SegmentTermEnumerator :=
  { e with input := e.file.drop pointer, position := p, termBuffer := t, termInfo := ti }

def readSkipOffset (e : SegmentTermEnumerator) (docFreq : ℤ) : Reader ℕ :=
  if e.header.format = -1 then
    if e.isIndex = false ∧ e.header.formatM1SkipInterval < docFreq then do
      let skipOffset ← readVInt
      return skipOffset.toNat
    else return e.termInfo.skipOffset
  else
    if e.header.skipInterval ≤ docFreq then do
      let skipOffset ← readVInt
      return skipOffset.toNat
    else return e.termInfo.skipOffset

def readTermInfo (e : SegmentTermEnumerator) : Reader TermInfo := do
  let docFreq ← readVInt
  let freqDelta ← readVLong
  let proxDelta ← readVLong
  let skipOffset ← e.readSkipOffset docFreq
  return { docFreq := docFreq.toNat, freqPointer := freqDelta + e.termInfo.freqPointer,
           proxPointer := proxDelta + e.termInfo.proxPointer, skipOffset }

def readIndexPointer (e : SegmentTermEnumerator) : Reader ℕ :=
  if e.isIndex then readVLong else return 0

def readEntry (e : SegmentTermEnumerator) : Reader (Entry × ℕ) := do
  let term ← Term.read e.fieldInfos e.termBuffer
  let termInfo ← e.readTermInfo
  let delta ← e.readIndexPointer
  return ((term, termInfo), delta)

def next (e : SegmentTermEnumerator) (row : Entry × ℕ) (input : List UInt8) :
    SegmentTermEnumerator :=
  { e with
    position := e.position + 1
    prevBuffer := e.termBuffer
    termBuffer := row.1.1
    termInfo := row.1.2
    indexPointer := e.indexPointer + row.2
    input }

/-- `none` is a read past the end of the file. -/
def hasNextTerm (e : SegmentTermEnumerator) : Option (Bool × SegmentTermEnumerator) :=
  if e.size - 1 ≤ e.position then some (false, { e with position := e.position + 1 })
  else (e.readEntry e.input).map fun p => (true, e.next p.1 p.2)

def remaining (e : SegmentTermEnumerator) : ℕ := (e.size - 1 - e.position).toNat

theorem remaining_lt {e e' : SegmentTermEnumerator} (h : e.hasNextTerm = some (true, e')) :
    e'.remaining < e.remaining := by
  unfold hasNextTerm at h
  split_ifs at h with hend
  · simp at h
  · obtain ⟨p, -, hp⟩ := Option.map_eq_some_iff.1 h
    rw [Prod.mk.injEq] at hp
    obtain ⟨-, rfl⟩ := hp
    show (e.size - 1 - (e.position + 1)).toNat < (e.size - 1 - e.position).toNat
    omega

/-- The term is never nil. -/
instance : TermEnumerator SegmentTermEnumerator where
  term e := some e.termBuffer
  documentFrequency e := e.termInfo.docFreq
  hasNextTerm := hasNextTerm
  remaining := remaining
  isSome_term _ := rfl
  remaining_lt := remaining_lt

def scanTo [Collation] (term : Term) (e : SegmentTermEnumerator) : Option SegmentTermEnumerator :=
  if term.compare e.termBuffer = .gt then
    match _h : e.hasNextTerm with
    | none => none
    | some (false, e') => some e'
    | some (true, e') => scanTo term e'
  else some e
  termination_by e.remaining
  decreasing_by exact remaining_lt _h

section scanTo
variable [Collation] {term : Term} {e e' : SegmentTermEnumerator}

theorem scanTo_of_le (h : term ≤ e.termBuffer) : e.scanTo term = some e := by
  unfold scanTo
  exact if_neg (mt Term.compare_gt_iff.1 (not_lt.2 h))

theorem scanTo_of_end (h : e.termBuffer < term) (hnext : e.hasNextTerm = some (false, e')) :
    e.scanTo term = some e' := by
  unfold scanTo
  rw [if_pos (Term.compare_gt_iff.2 h)]
  split <;> simp_all

theorem scanTo_of_next (h : e.termBuffer < term) (hnext : e.hasNextTerm = some (true, e')) :
    e.scanTo term = e'.scanTo term := by
  rw [scanTo, if_pos (Term.compare_gt_iff.2 h)]
  split <;> simp_all

end scanTo

end SegmentTermEnumerator

theorem positionOfDifference_le : ∀ s other : NSString,
    positionOfDifference s other ≤ other.length
  | [], _ => Nat.zero_le _
  | _ :: _, [] => le_rfl
  | c :: s, d :: other => by
    have ih := positionOfDifference_le s other
    unfold positionOfDifference
    split_ifs
    · rw [length_cons]
      omega
    · exact Nat.zero_le _

theorem positionOfDifference_le_left : ∀ s other : NSString,
    positionOfDifference s other ≤ s.length
  | [], _ => le_rfl
  | _ :: _, [] => Nat.zero_le _
  | c :: s, d :: other => by
    have ih := positionOfDifference_le_left s other
    unfold positionOfDifference
    split_ifs
    · rw [length_cons]
      omega
    · exact Nat.zero_le _

theorem take_positionOfDifference : ∀ s other : NSString,
    s.take (positionOfDifference s other) = other.take (positionOfDifference s other)
  | [], other => by simp [positionOfDifference]
  | c :: s, [] => by simp [positionOfDifference]
  | c :: s, d :: other => by
    unfold positionOfDifference
    split_ifs with h
    · rw [take_succ_cons, take_succ_cons, take_positionOfDifference s other, h]
    · rfl

variable {fieldInfos : FieldInfos} {last row : Entry} {isIndex : Bool}

theorem reads_term {lastTerm term : Term} (hfield : term.field ∈ fieldInfos.names)
    (htext : term.text.length < 2 ^ 31) :
    Reads (Term.read fieldInfos lastTerm) (termBytes fieldInfos lastTerm term) term := by
  have hle := positionOfDifference_le lastTerm.text term.text
  have htake := take_positionOfDifference lastTerm.text term.text
  have hlt := idxOf_lt_length_of_mem hfield
  have hnames := fieldInfos.length_lt
  have hnumber : (fieldInfos.fieldNumber term.field % 2 ^ 32).toNat
      = fieldInfos.names.idxOf term.field := by
    unfold FieldInfos.fieldNumber
    rw [if_pos hfield]
    omega
  unfold Term.read termBytes
  rw [hnumber]
  simp only [append_assoc]
  refine (reads_writeVInt_of_lt (by omega)).bind ?_
  refine (reads_writeVInt_of_lt (by omega)).bind ?_
  rw [Int.toNat_natCast, Int.toNat_natCast, ← length_drop]
  refine (reads_writeChars _).bind ?_
  rw [htake, take_append_drop]
  have hread := (reads_writeVInt_of_lt (i := fieldInfos.names.idxOf term.field)
    (by omega)).bind_pure (f := fun number => (⟨fieldInfos.fieldName number, term.text⟩ : Term))
  rwa [FieldInfos.fieldName_idxOf hfield] at hread

/-- What a file keeps of the info of a term: the skip offset of a short list is not written. -/
structure TermInfo.Same (ti ti' : TermInfo) : Prop where
  docFreq : ti'.docFreq = ti.docFreq
  freqPointer : ti'.freqPointer = ti.freqPointer
  proxPointer : ti'.proxPointer = ti.proxPointer
  skipOffset : skipInterval ≤ ti.docFreq → ti'.skipOffset = ti.skipOffset

namespace SegmentTermEnumerator
variable {e : SegmentTermEnumerator}

theorem reads_readSkipOffset (hformat : e.header.format = LCTermInfos_FORMAT)
    (hskip : e.header.skipInterval = skipInterval) (hfits : row.Fits fieldInfos) :
    ∃ skipOffset, Reads (e.readSkipOffset row.2.docFreq)
        (if skipInterval ≤ row.2.docFreq then writeVInt row.2.skipOffset else []) skipOffset
      ∧ (skipInterval ≤ row.2.docFreq → skipOffset = row.2.skipOffset) := by
  unfold readSkipOffset
  rw [hformat, hskip, if_neg (by decide)]
  by_cases h : skipInterval ≤ row.2.docFreq
  · rw [if_pos (Int.ofNat_le.2 h), if_pos h]
    exact ⟨_, (reads_writeVInt_of_lt hfits.skipOffset).bind_pure
      (f := fun skipOffset : ℤ => skipOffset.toNat), fun _ => Int.toNat_natCast _⟩
  · rw [if_neg (mt Int.ofNat_le.1 h), if_neg h]
    exact ⟨_, Reads.pure _, fun h' => absurd h' h⟩

theorem reads_readTermInfo (hformat : e.header.format = LCTermInfos_FORMAT)
    (hskip : e.header.skipInterval = skipInterval) (hinfo : last.2.Same e.termInfo)
    (hfits : row.Fits fieldInfos) (hle : PointersLe last row) :
    ∃ ti, Reads e.readTermInfo (termInfoBytes last.2 row.2) ti ∧ row.2.Same ti := by
  have hfreq := hfits.freqPointer
  have hprox := hfits.proxPointer
  obtain ⟨skipOffset, hskipOffset, hsame⟩ := reads_readSkipOffset hformat hskip hfits
  refine ⟨{ row.2 with skipOffset }, ?_, ⟨rfl, rfl, rfl, hsame⟩⟩
  unfold readTermInfo termInfoBytes
  simp only [append_assoc]
  refine (reads_writeVInt_of_lt hfits.docFreq).bind ?_
  refine (reads_writeVLong (by omega)).bind ?_
  refine (reads_writeVLong (by omega)).bind ?_
  rw [hinfo.freqPointer, hinfo.proxPointer, Nat.sub_add_cancel hle.1, Nat.sub_add_cancel hle.2]
  exact hskipOffset.bind_pure (f := fun skipOffset => { row.2 with skipOffset })

theorem reads_readIndexPointer (delta : ℕ) :
    ∃ pointer, Reads e.readIndexPointer (if e.isIndex then writeVLong delta else []) pointer := by
  unfold readIndexPointer
  split_ifs
  · exact exists_reads_varint 57 delta
  · exact ⟨0, Reads.pure 0⟩

/-- The enumerator is at the entry `last`, with `rows` left in its file. -/
structure Positioned (fieldInfos : FieldInfos) (last : Entry) (rows : List (Entry × ℕ))
    (e : SegmentTermEnumerator) : Prop where
  fieldInfos_eq : e.fieldInfos = fieldInfos
  format : e.header.format = LCTermInfos_FORMAT
  skipInterval_eq : e.header.skipInterval = skipInterval
  input : e.input = entriesBytes fieldInfos e.isIndex last rows
  remaining : e.remaining = rows.length
  term : e.termBuffer = last.1
  termInfo : last.2.Same e.termInfo

structure Follows (fieldInfos : FieldInfos) (last row : Entry) : Prop where
  fits : row.Fits fieldInfos
  pointers : PointersLe last row

theorem isChain_follows {entries : List Entry} (hfits : ∀ e ∈ entries, e.Fits fieldInfos)
    (hpointers : entries.Pairwise PointersLe) :
    (Entry.empty :: entries).IsChain (Follows fieldInfos) := by
  have hpairwise : (Entry.empty :: entries).Pairwise (Follows fieldInfos) := by
    rw [pairwise_cons]
    refine ⟨fun e he => ⟨hfits e he, PointersLe.empty e⟩, ?_⟩
    exact hpointers.imp_of_mem fun _ he' hle => ⟨hfits _ he', hle⟩
  exact hpairwise.isChain

theorem map_fst_map_zero (entries : List Entry) :
    (entries.map fun e => (e, 0)).map Prod.fst = entries := by
  rw [map_map]
  exact map_id entries

variable {rows : List (Entry × ℕ)} {r : Entry × ℕ}

theorem Positioned.hasNextTerm_nil (h : Positioned fieldInfos last [] e) :
    e.hasNextTerm = some (false, { e with position := e.position + 1 })
      ∧ Positioned fieldInfos last [] { e with position := e.position + 1 } := by
  have hremaining : (e.size - 1 - e.position).toNat = 0 := h.remaining
  refine ⟨if_pos (by omega), { h with remaining := ?_ }⟩
  show (e.size - 1 - (e.position + 1)).toNat = 0
  omega

theorem Positioned.reads_readEntry (h : Positioned fieldInfos last (r :: rows) e)
    (hfollows : Follows fieldInfos last r.1) :
    ∃ ti pointer, r.1.2.Same ti
      ∧ Reads e.readEntry (entryBytes fieldInfos e.isIndex last r) ((r.1.1, ti), pointer) := by
  obtain ⟨ti, hti, hsame⟩ :=
    reads_readTermInfo h.format h.skipInterval_eq h.termInfo hfollows.fits hfollows.pointers
  obtain ⟨pointer, hpointer⟩ := reads_readIndexPointer (e := e) r.2
  have hterm : Reads (Term.read fieldInfos last.1) (termBytes fieldInfos last.1 r.1.1) r.1.1 :=
    reads_term hfollows.fits.field hfollows.fits.text
  refine ⟨ti, pointer, hsame, ?_⟩
  unfold readEntry entryBytes
  rw [h.term, h.fieldInfos_eq, append_assoc]
  exact hterm.bind (hti.bind (hpointer.bind_pure (f := fun delta => ((r.1.1, ti), delta))))

theorem Positioned.hasNextTerm_cons (h : Positioned fieldInfos last (r :: rows) e)
    (hfollows : Follows fieldInfos last r.1) :
    ∃ e', e.hasNextTerm = some (true, e') ∧ Positioned fieldInfos r.1 rows e'
      ∧ e'.header = e.header ∧ e'.position = e.position + 1 := by
  have hremaining : (e.size - 1 - e.position).toNat = rows.length + 1 := h.remaining
  obtain ⟨ti, pointer, hsame, hread⟩ := h.reads_readEntry hfollows
  have hinput := h.input
  rw [entriesBytes] at hinput
  refine ⟨e.next ((r.1.1, ti), pointer) (entriesBytes fieldInfos e.isIndex r.1 rows), ?_,
    ⟨h.fieldInfos_eq, h.format, h.skipInterval_eq, rfl, ?_, rfl, hsame⟩, rfl, rfl⟩
  · unfold hasNextTerm
    rw [if_neg (by omega), hinput, hread]
    rfl
  · show (e.size - 1 - (e.position + 1)).toNat = rows.length
    omega

theorem reads_header {size indexInterval : ℕ} (hsize : size < 2 ^ 63)
    (hinterval : indexInterval < 2 ^ 31) :
    Reads (TermsHeader.read isIndex) (writeInt LCTermInfos_FORMAT ++ writeLong size
      ++ writeInt indexInterval ++ writeInt skipInterval)
      ⟨LCTermInfos_FORMAT, size, indexInterval, skipInterval, 0⟩ := by
  unfold TermsHeader.read
  rw [append_assoc, append_assoc]
  refine (reads_writeInt (i := LCTermInfos_FORMAT) (by decide) (by decide)).bind ?_
  rw [if_neg (by decide), if_neg (by decide)]
  refine (reads_writeLong (by omega) (by omega)).bind ?_
  rw [if_neg (by decide)]
  refine (reads_writeInt (by omega) (by omega)).bind ?_
  exact (reads_writeInt (by decide) (by decide)).bind_pure
    (f := fun skipInterval => (⟨LCTermInfos_FORMAT, size, indexInterval, skipInterval, 0⟩ :
      TermsHeader))

theorem initWithIndexInput_close {indexInterval : ℕ} {w : TermsOutput}
    (h : w.Holds fieldInfos indexInterval isIndex rows) (hsize : rows.length < 2 ^ 63)
    (hinterval : indexInterval < 2 ^ 31) :
    ∃ e, initWithIndexInput w.close fieldInfos isIndex = some e
      ∧ Positioned fieldInfos Entry.empty rows e ∧ e.position = -1
      ∧ e.size = rows.length ∧ e.indexInterval = indexInterval := by
  have hopen : initWithIndexInput w.close fieldInfos isIndex = some
      { file := w.close, input := entriesBytes fieldInfos isIndex Entry.empty rows, fieldInfos,
        isIndex, header := ⟨LCTermInfos_FORMAT, rows.length, indexInterval, skipInterval, 0⟩,
        position := -1, termBuffer := Term.empty, prevBuffer := Term.empty,
        termInfo := TermInfo.empty, indexPointer := 0 } := by
    unfold initWithIndexInput
    rw [h.close, reads_header hsize hinterval]
    rfl
  refine ⟨_, hopen, ⟨rfl, rfl, rfl, rfl, ?_, rfl, ⟨rfl, rfl, rfl, fun _ => rfl⟩⟩, rfl, rfl, rfl⟩
  show ((rows.length : ℤ) - 1 - -1).toNat = rows.length
  omega

def Shows (e : SegmentTermEnumerator) (entry : Entry) : Prop :=
  TermEnumerator.term e = some entry.1 ∧ entry.2.Same e.termInfo

theorem Positioned.shows (h : Positioned fieldInfos last rows e) : e.Shows last :=
  ⟨congrArg some h.term, h.termInfo⟩

theorem Positioned.goesOn : ∀ {rows : List (Entry × ℕ)} {last : Entry}
    {e : SegmentTermEnumerator}, Positioned fieldInfos last rows e →
      (last :: rows.map Prod.fst).IsChain (Follows fieldInfos) →
      GoesOn Shows e (rows.map Prod.fst)
  | [], _, _, h, _ => ⟨_, h.hasNextTerm_nil.1⟩
  | r :: rows, last, e, h, hchain => by
    rw [map_cons, isChain_cons_cons] at hchain
    obtain ⟨e', hnext, hpos, -, -⟩ := h.hasNextTerm_cons hchain.1
    exact ⟨e', hnext, hpos.shows, hpos.goesOn hchain.2⟩

section scan
variable [Collation] (term : Term)

def scanned : Entry → List (Entry × ℕ) → Entry × List (Entry × ℕ)
  | last, [] => (last, [])
  | last, r :: rows => if last.1 < term then scanned r.1 rows else (last, r :: rows)

theorem Positioned.scanTo : ∀ {rows : List (Entry × ℕ)} {last : Entry}
    {e : SegmentTermEnumerator}, Positioned fieldInfos last rows e →
      (last :: rows.map Prod.fst).IsChain (Follows fieldInfos) →
      ∃ e', e.scanTo term = some e'
        ∧ Positioned fieldInfos (scanned term last rows).1 (scanned term last rows).2 e'
        ∧ e'.header = e.header
        ∧ (term ≤ (scanned term last rows).1.1 →
          e'.position = e.position + rows.length - (scanned term last rows).2.length)
  | [], last, e, h, _ => by
    obtain ⟨hnext, hpos⟩ := h.hasNextTerm_nil
    rcases lt_or_ge last.1 term with hlt | hle
    · exact ⟨_, scanTo_of_end (h.term ▸ hlt) hnext, hpos, rfl, fun hle => absurd hle (not_le.2 hlt)⟩
    · exact ⟨e, scanTo_of_le (h.term ▸ hle), h, rfl, fun _ => by simp [scanned]⟩
  | r :: rows, last, e, h, hchain => by
    rw [map_cons, isChain_cons_cons] at hchain
    obtain ⟨e', hnext, hpos, hheader, hposition⟩ := h.hasNextTerm_cons hchain.1
    unfold scanned
    split_ifs with hlt
    · obtain ⟨e'', hscan, hpos', hheader', hposition'⟩ := hpos.scanTo hchain.2
      refine ⟨e'', (scanTo_of_next (h.term ▸ hlt) hnext).trans hscan, hpos',
        hheader'.trans hheader, fun hle => ?_⟩
      rw [hposition' hle, hposition, length_cons]
      omega
    · exact ⟨e, scanTo_of_le (h.term ▸ not_lt.1 hlt), h, rfl, fun _ => by simp⟩

end scan

end SegmentTermEnumerator

end Etoile.Lucene
