import Etoile.Lucene.BitVector
import Etoile.Lucene.TermDocuments

/-!
# The segment reader

What an `LCSegmentReader` keeps of the files of its segment, the changes it makes and how it commits
them.  The postings of the terms are those that the frequency and position files hold.
-/

namespace Etoile.Lucene

structure SegmentInfos where
  version : ℤ
  counter : ℤ
  segments : List (NSString × ℤ)

namespace SegmentInfos

def SEGMENT_FORMAT : ℤ := -1

def fileBytes (infos : SegmentInfos) : List UInt8 :=
  writeInt SEGMENT_FORMAT ++ writeLong infos.version ++ writeInt infos.counter
    ++ writeInt infos.segments.length
    ++ infos.segments.flatMap fun si => writeString si.1 ++ writeInt si.2

def readSegments : ℕ → Reader (List (NSString × ℤ))
  | 0 => return []
  | i + 1 => do
    let name ← readString
    let docCount ← readInt
    let segments ← readSegments i
    return (name, docCount) :: segments

/-- `-readFromDirectory:`, for files in the present format. -/
def readFromDirectory : Reader SegmentInfos := do
  let _ ← readInt
  let version ← readLong
  let counter ← readInt
  let count ← readInt
  let segments ← readSegments count.toNat
  return { version, counter, segments }

def increased (infos : SegmentInfos) : SegmentInfos :=
  { infos with version := infos.version + 1 }

/-- `-writeToDirectory:`; every write changes the index. -/
def writeToDirectory (infos : SegmentInfos) (d : Directory) : Directory × SegmentInfos :=
  ((d.writeFile .segmentsNew infos.increased.fileBytes).renameFile .segmentsNew .segments,
    infos.increased)

structure Fits (infos : SegmentInfos) : Prop where
  version : -2 ^ 63 ≤ infos.version ∧ infos.version < 2 ^ 63
  counter : -2 ^ 31 ≤ infos.counter ∧ infos.counter < 2 ^ 31
  length : infos.segments.length < 2 ^ 31
  segments : ∀ si ∈ infos.segments, si.1.length < 2 ^ 31 ∧ -2 ^ 31 ≤ si.2 ∧ si.2 < 2 ^ 31

theorem reads_segments : ∀ {segments : List (NSString × ℤ)},
    (∀ si ∈ segments, si.1.length < 2 ^ 31 ∧ -2 ^ 31 ≤ si.2 ∧ si.2 < 2 ^ 31) →
      Reads (readSegments segments.length)
        (segments.flatMap fun si => writeString si.1 ++ writeInt si.2) segments
  | [], _ => Reads.pure []
  | si :: segments, h => by
    obtain ⟨h1, h2, h3⟩ := h si List.mem_cons_self
    have hrest := reads_segments fun s hs => h s (List.mem_cons_of_mem _ hs)
    rw [List.flatMap_cons, List.append_assoc]
    exact (reads_writeString h1).bind ((reads_writeInt h2 h3).bind
      (hrest.bind_pure (f := fun segments => si :: segments)))

theorem Fits.reads {infos : SegmentInfos} (h : Fits infos) :
    Reads readFromDirectory infos.fileBytes infos := by
  have hlen := h.length
  have hsegments := reads_segments h.segments
  have hcount := reads_writeInt (i := infos.segments.length) (by omega) (by omega)
  unfold fileBytes readFromDirectory
  rw [List.append_assoc, List.append_assoc, List.append_assoc]
  refine (reads_writeInt (i := SEGMENT_FORMAT) (by decide) (by decide)).bind ?_
  refine (reads_writeLong h.version.1 h.version.2).bind ?_
  refine (reads_writeInt h.counter.1 h.counter.2).bind (hcount.bind ?_)
  rw [Int.toNat_natCast]
  exact hsegments.bind_pure (f := fun segments =>
    ({ infos with segments } : SegmentInfos))

theorem Fits.fileBytes_increased_ne {infos : SegmentInfos} (h : Fits infos)
    (h' : Fits infos.increased) : infos.increased.fileBytes ≠ infos.fileBytes := by
  intro heq
  have h1 := h.reads []
  have h2 := h'.reads []
  rw [heq, h1, Option.some.injEq, Prod.mk.injEq] at h2
  have hversion := congrArg SegmentInfos.version h2.1
  simp [increased] at hversion

variable {infos : SegmentInfos} {d : Directory} {name : FileName}

theorem writeToDirectory_segments (infos : SegmentInfos) (d : Directory) :
    (infos.writeToDirectory d).1 .segments
      = some infos.increased.fileBytes :=
  @Directory.replaceFile_self d infos.increased.fileBytes .segmentsNew .segments (by simp)

theorem writeToDirectory_of_ne (h : name ≠ .segments) (h' : name ≠ .segmentsNew) :
    (infos.writeToDirectory d).1 name = d name :=
  @Directory.replaceFile_of_ne d name infos.increased.fileBytes .segmentsNew .segments h h'

end SegmentInfos

structure FieldInfo where
  name : NSString
  isIndexed : Bool
  omitNorms : Bool

structure Segment (Term : Type) where
  name : NSString
  fieldInfos : List FieldInfo
  maximalDocument : ℕ
  maximalDocument_lt : maximalDocument < 2 ^ 31
  postings : Term → List Posting
  doc_lt : ∀ t, ∀ p ∈ postings t, p.doc < maximalDocument
  /-- the files in the compound file -/
  compound : Directory

/-- An `LCNorm`, with the name of its field. -/
structure Norm where
  field : NSString
  number : ℕ
  /-- what the stream reads that was opened -/
  input : List UInt8
  bytes : List UInt8 := []
  dirty : Bool := false

structure SegmentReader {Term : Type} (segment : Segment Term) where
  cfsReader : Option Directory := none
  deletedDocs : Option BitVector := none
  deletedDocsDirty : Bool := false
  normsDirty : Bool := false
  undeleteAll : Bool := false
  norms : List Norm := []
  hasChanges : Bool := false
  directoryOwner : Bool := false
  segmentInfos : Option SegmentInfos := none

variable {Term : Type} {segment : Segment Term}

namespace SegmentReader

/-- The stream of a field's norms: separate ones are looked for first. -/
def openNorm (segment : Segment Term) (d cfsDir : Directory) (number : ℕ) : List UInt8 :=
  if d.fileExists (.ofSegment segment.name (.s number)) then
    (d (.ofSegment segment.name (.s number))).getD []
  else (cfsDir (.ofSegment segment.name (.f number))).getD []

def openNorms (segment : Segment Term) (d cfsDir : Directory) : List Norm :=
  segment.fieldInfos.zipIdx.filterMap fun fi =>
    if fi.1.isIndexed && !fi.1.omitNorms then
      some { field := fi.1.name, number := fi.2, input := openNorm segment d cfsDir fi.2 }
    else none

/-- The vector in the `.del` file, if there is one. -/
def openDeletions (segment : Segment Term) (d : Directory) : Option BitVector :=
  (d (.ofSegment segment.name .del)).bind fun bytes =>
    (BitVector.initWithDirectory bytes).map Prod.fst

def openCompound (segment : Segment Term) (d : Directory) : Option Directory :=
  if d.fileExists (.ofSegment segment.name .cfs) then some segment.compound else none

/-- `-initWithSegmentInfo:` of a reader that owns the directory, when it is the only one of the
index, or does not. -/
def initWithSegmentInfo (segment : Segment Term) (owner : Bool) (d : Directory) :
    SegmentReader segment where
  cfsReader := openCompound segment d
  deletedDocs := openDeletions segment d
  norms := openNorms segment d ((openCompound segment d).getD d)
  directoryOwner := owner
  segmentInfos :=
    if owner then (d .segments).bind fun bytes =>
      (SegmentInfos.readFromDirectory bytes).map Prod.fst
    else none

variable (r : SegmentReader segment)

def isDeleted (n : ℕ) : Bool := r.deletedDocs.any (·.bit n)

/-- `-numberOfDocuments`, and the reader whose vector remembers its count. -/
def numberOfDocuments : ℤ × SegmentReader segment :=
  match r.deletedDocs with
  | some v => (segment.maximalDocument - v.counted.count, { r with deletedDocs := some v.counted })
  | none => (segment.maximalDocument, r)

def doDelete (docNum : ℕ) : SegmentReader segment :=
  { r with
    deletedDocs := some
      ((r.deletedDocs.getD (BitVector.initWithSize segment.maximalDocument)).setBit docNum)
    deletedDocsDirty := true
    undeleteAll := false }

def doUndeleteAll : SegmentReader segment :=
  { r with deletedDocs := none, deletedDocsDirty := false, undeleteAll := true }

def deleteDocument (docNum : ℕ) : SegmentReader segment :=
  { r.doDelete docNum with hasChanges := true }

def sendUndeleteAll : SegmentReader segment := { r.doUndeleteAll with hasChanges := true }

end SegmentReader

/-- An enumerator of a segment.  It holds the vector the reader had when it was made. -/
structure SegmentTermDocuments (segment : Segment Term) where
  rest : List Posting := []
  current : Posting := ⟨0, 0, []⟩
  deletedDocs : Option BitVector

namespace SegmentTermDocuments

/-- The next posting of a document that is not deleted, and those behind it. -/
def next (deletedDocs : Option BitVector) : List Posting → Option (Posting × List Posting)
  | [] => none
  | p :: ps => if deletedDocs.any (·.bit p.doc) then next deletedDocs ps else some (p, ps)

def hasNextDocument (e : SegmentTermDocuments segment) : Bool × SegmentTermDocuments segment :=
  match next e.deletedDocs e.rest with
  | some (p, ps) => (true, { e with current := p, rest := ps })
  | none => (false, { e with rest := [] })

def read (deletedDocs : Option BitVector) : ℕ → List Posting → List (ℕ × ℕ) × List Posting
  | 0, ps => ([], ps)
  | _ + 1, [] => ([], [])
  | size + 1, p :: ps =>
    if deletedDocs.any (·.bit p.doc) then read deletedDocs (size + 1) ps
    else ((p.doc, p.freq) :: (read deletedDocs size ps).1, (read deletedDocs size ps).2)

instance : TermDocuments (SegmentTermDocuments segment) Term where
  seekTerm t e := { e with rest := (t.map segment.postings).getD [] }
  hasNextDocument := hasNextDocument
  document e := e.current.doc
  frequency e := e.current.freq
  readDocuments size e :=
    ((read e.deletedDocs size e.rest).1, { e with rest := (read e.deletedDocs size e.rest).2 })
  nextPosition e := (e.current.positions.headD 0,
    { e with current := { e.current with positions := e.current.positions.tail } })

end SegmentTermDocuments

namespace SegmentReader

def termDocuments (r : SegmentReader segment) : SegmentTermDocuments segment :=
  { deletedDocs := r.deletedDocs }

/-- The enumerator shares the vector with the reader, unless there was none when it was made. -/
def deleteTermLoop (shared : Bool) : List Posting → SegmentReader segment →
    ℕ × SegmentReader segment
  | [], r => (0, r)
  | p :: ps, r =>
    if shared && r.isDeleted p.doc then deleteTermLoop shared ps r
    else ((deleteTermLoop shared ps (r.deleteDocument p.doc)).1 + 1,
      (deleteTermLoop shared ps (r.deleteDocument p.doc)).2)

/-- `-deleteTerm:` -/
def deleteTerm (r : SegmentReader segment) (t : Term) : ℕ × SegmentReader segment :=
  deleteTermLoop r.deletedDocs.isSome (segment.postings t) r

/-- `-rewrite` of the norms, in a separate file when the segment is a compound file. -/
def rewrite (r : SegmentReader segment) (d : Directory) (norm : Norm) : Directory :=
  (d.writeFile (.ofSegment segment.name .tmp) (norm.bytes.take segment.maximalDocument)).renameFile
    (.ofSegment segment.name .tmp) (.ofSegment segment.name
      (if r.cfsReader.isSome then .s norm.number else .f norm.number))

def rewriteNorms (r : SegmentReader segment) (d : Directory) : Directory :=
  r.norms.foldl (fun d norm => if norm.dirty then r.rewrite d norm else d) d

def commitDeletions (r : SegmentReader segment) (d : Directory) : Directory :=
  match r.deletedDocs with
  | some v =>
    if r.deletedDocsDirty then
      (v.writeToDirectory d (.ofSegment segment.name .tmp)).1.renameFile
        (.ofSegment segment.name .tmp) (.ofSegment segment.name .del)
    else d
  | none => d

def commitUndeletions (r : SegmentReader segment) (d : Directory) : Directory :=
  if r.undeleteAll && d.fileExists (.ofSegment segment.name .del) then
    d.deleteFile (.ofSegment segment.name .del)
  else d

def doCommit (r : SegmentReader segment) (d : Directory) : Directory × SegmentReader segment :=
  let d := r.commitUndeletions (r.commitDeletions d)
  let d := if r.normsDirty then r.rewriteNorms d else d
  (d, { r with
    deletedDocs := if r.deletedDocsDirty then r.deletedDocs.map (·.counted) else r.deletedDocs
    norms :=
      if r.normsDirty then (r.norms.map fun norm => { norm with dirty := false }) else r.norms
    deletedDocsDirty := false
    normsDirty := false
    undeleteAll := false })

/-- `-commit` of `LCIndexReader`: the owner of the directory returns before `hasChanges` is
cleared. -/
def commit (r : SegmentReader segment) (d : Directory) : Directory × SegmentReader segment :=
  if r.hasChanges then
    if r.directoryOwner then
      let committed := r.doCommit d
      match r.segmentInfos with
      | some infos =>
        let written := infos.writeToDirectory committed.1
        (written.1, { committed.2 with segmentInfos := some written.2 })
      | none => committed
    else
      let committed := r.doCommit d
      (committed.1, { committed.2 with hasChanges := false })
  else (d, r)

end SegmentReader

end Etoile.Lucene
