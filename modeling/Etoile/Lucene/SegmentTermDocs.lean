import Etoile.Lucene.PostingWriter
import Etoile.Lucene.SegmentReader

/-!
# The enumerators of a segment

How `LCSegmentTermDocuments` and `LCSegmentTermPositions` read the frequency and the position file.
What ends with `none` has read past the end of a file.
-/

namespace Etoile.Lucene

/-- A pointer as an `unsigned long long`. -/
def unsigned (i : ℤ) : ℕ := if i < 0 then (i + 2 ^ 64).toNat else i.toNat

@[simp] theorem unsigned_natCast (n : ℕ) : unsigned n = n := by
  unfold unsigned
  rw [if_neg (by omega), Int.toNat_natCast]

structure IndexInput where
  file : List UInt8
  offsetInFile : ℕ := 0

namespace IndexInput

def seekToFileOffset (s : IndexInput) (pos : ℤ) : IndexInput :=
  { s with offsetInFile := unsigned pos }

def read {α : Type} (p : Reader α) (s : IndexInput) : Option (α × IndexInput) :=
  (p (s.file.drop s.offsetInFile)).map fun r =>
    (r.1, { s with
      offsetInFile := s.offsetInFile + ((s.file.drop s.offsetInFile).length - r.2.length) })

def rest (s : IndexInput) : List UInt8 := s.file.drop s.offsetInFile

def advance (s : IndexInput) (n : ℕ) : IndexInput :=
  { s with offsetInFile := s.offsetInFile + n }

variable {α : Type} {s : IndexInput} {b rest : List UInt8} {a : α} {p : Reader α}

theorem rest_advance (h : s.rest = b ++ rest) : (s.advance b.length).rest = rest := by
  show s.file.drop (s.offsetInFile + b.length) = rest
  rw [← List.drop_drop]
  show s.rest.drop b.length = rest
  rw [h, List.drop_left]

theorem advance_advance (s : IndexInput) (m n : ℕ) :
    (s.advance m).advance n = s.advance (m + n) := by
  simp [advance, Nat.add_assoc]

theorem read_eq (h : s.rest = b ++ rest) (hp : Reads p b a) :
    s.read p = some (a, s.advance b.length) := by
  have hdrop : s.file.drop s.offsetInFile = b ++ rest := h
  unfold read
  rw [hdrop, hp rest, Option.map_some, List.length_append, Nat.add_sub_cancel]
  rfl

end IndexInput

structure SkipState where
  skipInterval : ℤ
  numSkips : ℤ := 0
  skipCount : ℤ := 0
  skipStream : Option IndexInput := none
  skipDoc : ℤ := 0
  freqPointer : ℤ := 0
  proxPointer : ℤ := 0
  skipPointer : ℤ := 0
  haveSkipped : Bool := false

/-- Both classes; only `LCSegmentTermPositions` has a stream of positions. -/
structure SegmentTermDocs where
  freqStream : IndexInput
  proxStream : Option IndexInput := none
  deletedDocs : Option BitVector
  count : ℤ := 0
  df : ℤ := 0
  doc : ℤ := 0
  freq : ℤ := 0
  skips : SkipState
  proxCount : ℤ := 0
  position : ℤ := 0

def skipVInts : ℕ → IndexInput → Option IndexInput
  | 0, s => some s
  | n + 1, s => (s.read readVInt).bind fun r => skipVInts n r.2

namespace SegmentTermDocs

def seekTermInfo (e : SegmentTermDocs) : Option TermInfo → SegmentTermDocs
  | none => { e with count := 0, df := 0, proxCount := 0 }
  | some ti =>
    { e with
      count := 0
      df := ti.docFreq
      doc := 0
      skips := { e.skips with
        skipDoc := 0
        skipCount := 0
        numSkips := (ti.docFreq : ℤ).tdiv e.skips.skipInterval
        freqPointer := ti.freqPointer
        proxPointer := ti.proxPointer
        skipPointer := ti.freqPointer + ti.skipOffset
        haveSkipped := false }
      freqStream := e.freqStream.seekToFileOffset ti.freqPointer
      proxStream := e.proxStream.map (·.seekToFileOffset ti.proxPointer)
      proxCount := 0 }

/-- The code of a document without its low bit: `(docCode >> 1) & 0x7fffffff` -/
def docDelta (docCode : ℤ) : ℤ := docCode / 2 % 2 ^ 31

/-- What the loops of `-hasNextDocument` and of `-readDocuments:frequency:size:` begin with. -/
def readPosting (e : SegmentTermDocs) : Option SegmentTermDocs := do
  let (docCode, s) ← e.freqStream.read readVInt
  let (freq, s) ← if docCode % 2 ≠ 0 then some (1, s) else s.read readVInt
  return { e with
    freqStream := s
    doc := e.doc + docDelta docCode
    freq := freq
    count := e.count + 1 }

def isDeleted (e : SegmentTermDocs) : Bool := e.deletedDocs.any (·.bit e.doc.toNat)

def skipPositions (n : ℤ) (e : SegmentTermDocs) : Option SegmentTermDocs :=
  match e.proxStream with
  | none => some e
  | some s => (skipVInts n.toNat s).map fun s => { e with proxStream := some s }

def skippingDoc (e : SegmentTermDocs) : Option SegmentTermDocs := e.skipPositions e.freq

/-- The loop of `-hasNextDocument`; each turn reads a byte at least. -/
def nextLoop : ℕ → SegmentTermDocs → Option (Bool × SegmentTermDocs)
  | 0, _ => none
  | fuel + 1, e =>
    if e.count = e.df then some (false, e)
    else do
      let e ← e.readPosting
      if e.isDeleted then nextLoop fuel (← e.skippingDoc) else some (true, e)

def fuel (e : SegmentTermDocs) : ℕ := e.freqStream.file.length + 1

/-- What `-hasNextDocument` of `LCSegmentTermPositions` does with a document. -/
def notePositions (e : SegmentTermDocs) : SegmentTermDocs :=
  { e with proxCount := e.freq, position := 0 }

def hasNextDocument (e : SegmentTermDocs) : Option (Bool × SegmentTermDocs) := do
  let e ← e.skipPositions e.proxCount
  let (more, e) ← nextLoop e.fuel e
  return (more, if more then e.notePositions else e)

/-- The loop of `-readDocuments:frequency:size:`, which `LCSegmentTermPositions` inherits: what it
overrides has another name. -/
def readLoop : ℕ → ℕ → SegmentTermDocs → Option (List (ℤ × ℤ) × SegmentTermDocs)
  | 0, _, _ => none
  | _ + 1, 0, e => some ([], e)
  | fuel + 1, size + 1, e =>
    if e.count < e.df then do
      let e ← e.readPosting
      if e.isDeleted then readLoop fuel (size + 1) e
      else
        let (docs, e') ← readLoop fuel size e
        return ((e.doc, e.freq) :: docs, e')
    else some ([], e)

def readDocuments (size : ℕ) (e : SegmentTermDocs) : Option (List (ℤ × ℤ) × SegmentTermDocs) :=
  readLoop e.fuel size e

def nextPosition (e : SegmentTermDocs) : Option (ℤ × SegmentTermDocs) := do
  let (delta, s) ← (← e.proxStream).read readVInt
  let position := (e.position + delta).bmod (2 ^ 32)
  return (position, { e with
    proxStream := some s, proxCount := e.proxCount - 1, position := position })

structure Scan where
  skips : SkipState
  lastSkipDoc : ℤ
  lastFreqPointer : ℤ
  lastProxPointer : ℤ
  numSkipped : ℤ

def readSkip (k : SkipState) : Option SkipState := do
  let (doc, s) ← (← k.skipStream).read readVInt
  let (freq, s) ← s.read readVInt
  let (prox, s) ← s.read readVInt
  return { k with
    skipStream := some s
    skipDoc := k.skipDoc + doc
    freqPointer := k.freqPointer + freq
    proxPointer := k.proxPointer + prox
    skipCount := k.skipCount + 1 }

def visit (doc : ℤ) (v : Scan) : Scan :=
  { v with
    lastSkipDoc := v.skips.skipDoc
    lastFreqPointer := v.skips.freqPointer
    lastProxPointer := v.skips.proxPointer
    numSkipped :=
      if v.skips.skipDoc ≠ 0 ∧ doc ≤ v.skips.skipDoc then v.numSkipped + v.skips.skipInterval
      else v.numSkipped }

/-- The loop over the skip data, with the current document; each turn but the last reads an
entry. -/
def scanSkips (target doc : ℤ) : ℕ → Scan → Option Scan
  | 0, _ => none
  | fuel + 1, v =>
    if v.skips.skipDoc < target then
      if v.skips.numSkips ≤ v.skips.skipCount then some (visit doc v)
      else
        (readSkip v.skips).bind fun k => scanSkips target doc fuel { visit doc v with skips := k }
    else some v

/-- The stream of the skip data, which is copied and positioned when it is first needed. -/
def openSkips (freqStream : IndexInput) (k : SkipState) : SkipState :=
  if k.haveSkipped then { k with skipStream := some (k.skipStream.getD freqStream) }
  else { k with
    skipStream := some ((k.skipStream.getD freqStream).seekToFileOffset k.skipPointer)
    haveSkipped := true }

def skipProx (pp : ℤ) (e : SegmentTermDocs) : SegmentTermDocs :=
  match e.proxStream with
  | none => e
  | some s => { e with proxStream := some (s.seekToFileOffset pp), proxCount := 0 }

/-- The end of the skip loop: what was found is skipped, if it is ahead of the stream. -/
def jump (v : Scan) (e : SegmentTermDocs) : SegmentTermDocs :=
  let e := { e with skips := v.skips }
  if e.freqStream.offsetInFile < unsigned v.lastFreqPointer then
    { ({ e with freqStream := e.freqStream.seekToFileOffset v.lastFreqPointer }
        : SegmentTermDocs).skipProx v.lastProxPointer with
      doc := v.lastSkipDoc, count := e.count + v.numSkipped }
  else e

def skipAhead (target : ℤ) (e : SegmentTermDocs) : Option SegmentTermDocs :=
  if e.skips.skipInterval ≤ e.df then do
    let k := openSkips e.freqStream e.skips
    let v ← scanSkips target e.doc ((k.numSkips - k.skipCount).toNat + 1)
      ⟨k, k.skipDoc, e.freqStream.offsetInFile, -1, -1 - e.count.tmod k.skipInterval⟩
    return e.jump v
  else some e

/-- The loop at the end of `-skipTo:`. -/
def scanDocuments (target : ℤ) : ℕ → SegmentTermDocs → Option (Bool × SegmentTermDocs)
  | 0, _ => none
  | fuel + 1, e => do
    let (more, e) ← e.hasNextDocument
    if more then
      if e.doc < target then scanDocuments target fuel e else some (true, e)
    else some (false, e)

def skipTo (target : ℤ) (e : SegmentTermDocs) : Option (Bool × SegmentTermDocs) := do
  let e ← e.skipAhead target
  scanDocuments target e.fuel e

end SegmentTermDocs

end Etoile.Lucene
