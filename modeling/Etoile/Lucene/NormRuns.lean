import Etoile.Lucene.SegmentMerger

/-!
# Norms across commits and merges

A session is an open index, with the norms that the requests give the documents of its segments.
What is read is what the table says as long as nothing is copied out of a cache and no segment
without norms of a field is copied with others.
-/

namespace Etoile.Lucene

open List

variable {Term : Type}

structure NormSession (Term : Type) where
  segments : List (Segment Term)
  directory : Directory
  reader : OpenReader Term
  tables : List NormTable

/-- Where objects are passed for their bytes, the request says what lies in their memory. -/
inductive NormRequest
  | norms (field : NSString) (memory : NSString → Memory)
  | setNorms (field : NSString) (bytes : List UInt8) (offset : ℕ) (memory : NSString → Memory)
  | setNorm (doc : ℕ) (field : NSString) (value : UInt8) (memory : NSString → Memory)
  | deleteDocument (doc : ℕ)
  | undeleteAll
  | commit
  /-- closes the reader and opens another -/
  | close
  /-- closes the reader, merges the segments from `minSegment` on and opens another -/
  | merge (minSegment : ℕ) (name : NSString) (useCompoundFile : Bool) (memory : NSString → Memory)

def deleteSegments (d : Directory) (names : List NSString) : Directory
  | .ofSegment name e => if name ∈ names then none else d (.ofSegment name e)
  | file => d file

namespace NormSession

def ofDirectory (segments : List (Segment Term)) (d : Directory) : NormSession Term where
  segments := segments
  directory := d
  reader := OpenReader.openDirectory segments d
  tables := segments.map (storedNorms · d)

variable (s : NormSession Term)

def sizes : List ℕ := s.segments.map (·.maximalDocument)

def norms (field : NSString) : List UInt8 := NormTable.concatenated s.sizes s.tables field

def committed : Directory := (s.reader.commit s.directory).1

def readers (minSegment : ℕ) : List (SubReader Term) :=
  (s.segments.drop minSegment).map (OpenReader.openSegment false s.committed)

def merged (minSegment : ℕ) (name : NSString) (useCompoundFile : Bool)
    (memory : NSString → Memory) (h : SegmentMerger.docCount (s.readers minSegment) < 2 ^ 31) :
    Segment Term × Directory :=
  SegmentMerger.merge memory name useCompoundFile (s.readers minSegment) h s.committed

def mergedDirectory (minSegment : ℕ) (merged : Segment Term × Directory) : Directory :=
  deleteSegments merged.2 ((s.segments.drop minSegment).map (·.name))

/-- A request that raises changes nothing, nor does a merge of more documents than an `int` can
count. -/
def step : NormRequest → NormSession Term
  | .norms field memory =>
    { s with reader := ((s.reader.sendNorms memory field).map Prod.snd).getD s.reader }
  | .setNorms _ _ _ _ => s
  | .setNorm doc field value memory =>
    { s with
      reader := (s.reader.setNorm memory doc field value).getD s.reader
      tables := NormTable.setConcatenated s.sizes s.tables doc field value }
  | .deleteDocument doc => { s with reader := (s.reader.deleteDocument doc).getD s.reader }
  | .undeleteAll => { s with reader := s.reader.undeleteAll }
  | .commit =>
    { s with
      directory := s.committed
      reader := (s.reader.commit s.directory).2 }
  | .close =>
    { s with
      directory := s.committed
      reader := OpenReader.openDirectory s.segments s.committed }
  | .merge minSegment name useCompoundFile memory =>
    if h : SegmentMerger.docCount (s.readers minSegment) < 2 ^ 31 then
      let merged := s.merged minSegment name useCompoundFile memory h
      let segments := s.segments.take minSegment ++ [merged.1]
      { segments
        directory := s.mergedDirectory minSegment merged
        reader := OpenReader.openDirectory segments (s.mergedDirectory minSegment merged)
        tables := s.tables.take minSegment ++
          [SegmentMerger.mergedTable (s.tables.drop minSegment) (s.readers minSegment)] }
    else s

/-- The documents are there, data reaches as far as the bytes are put, and a merged segment has a
name of its own. -/
def Legal : NormRequest → Prop
  | .setNorms _ bytes offset _ => offset ≤ bytes.length
  | .setNorm doc _ _ _ | .deleteDocument doc => doc < s.sizes.sum
  | .merge minSegment name _ _ => SegmentMerger.docCount (s.readers minSegment) < 2 ^ 31
      ∧ name ∉ s.segments.map (·.name) ∧ ∀ e, s.directory (.ofSegment name e) = none
  | _ => True

def Permitted : NormRequest → Prop
  | .norms field _ => s.reader.CanRead field
  | .setNorms field _ _ _ => s.reader.CanCopy field
  | .merge minSegment _ _ _ =>
    ∀ f ∈ normFields (SegmentMerger.mergeFields (s.readers minSegment)),
      ∀ r ∈ s.readers minSegment, SegmentMerger.CanMerge r f.1
  | _ => True

/-- Every read returns the norms of the table, and a reader of a merged segment those of the live
documents in order. -/
def Right : NormRequest → Prop
  | .norms field memory => (s.reader.sendNorms memory field).map Prod.fst = some (s.norms field)
  | .setNorms field bytes offset memory => s.reader.setNorms memory field bytes offset
      = replaceBytesInRange bytes offset (s.norms field)
  | .setNorm doc field value memory => (s.reader.setNorm memory doc field value).isSome
  | .merge minSegment name useCompoundFile memory => ∀ h owner memory' field,
    ((SegmentReader.initWithSegmentInfo (s.merged minSegment name useCompoundFile memory h).1 owner
        (s.merged minSegment name useCompoundFile memory h).2).sendNorms memory' field).1
      = SegmentMerger.liveNorms (s.tables.drop minSegment) (s.readers minSegment) field
  | _ => True

def AllLegal : NormSession Term → List NormRequest → Prop
  | _, [] => True
  | s, request :: requests => s.Legal request ∧ AllLegal (s.step request) requests

def AllPermitted : NormSession Term → List NormRequest → Prop
  | _, [] => True
  | s, request :: requests => s.Permitted request ∧ AllPermitted (s.step request) requests

def Follows : NormSession Term → List NormRequest → Prop
  | _, [] => True
  | s, request :: requests => s.Right request ∧ Follows (s.step request) requests

def Valid (s : NormSession Term) : Prop :=
  OpenReader.Holds s.segments s.tables s.reader s.directory

variable {s}

theorem valid_ofDirectory {segments : List (Segment Term)} {d : Directory}
    (hnames : (segments.map (·.name)).Nodup) (h : ∀ segment ∈ segments, StoresNorms segment d) :
    (ofDirectory segments d).Valid :=
  OpenReader.holds_openDirectory hnames h

theorem Valid.committed (h : s.Valid) :
    (∀ segment ∈ s.segments, StoresNorms segment s.committed)
      ∧ s.segments.map (storedNorms · s.committed) = s.tables := by
  obtain ⟨hc, hclean⟩ := OpenReader.Holds.commit h
  exact hc.reopen hclean

theorem Valid.readers (h : s.Valid) (minSegment : ℕ) :
    HoldEach (s.tables.drop minSegment) (s.readers minSegment) s.committed := by
  obtain ⟨hstores, htables⟩ := h.committed
  rw [← htables, ← map_drop]
  exact OpenReader.holdEach_openSegment false fun segment hs =>
    hstores segment (mem_of_mem_drop hs)

variable {minSegment : ℕ} {name : NSString}

theorem Valid.committed_new (h : s.Valid) {useCompoundFile : Bool} {memory : NSString → Memory}
    (hlegal : s.Legal (.merge minSegment name useCompoundFile memory)) (e : Extension) :
    s.committed (.ofSegment name e) = none :=
  (OpenReader.Holds.commit_other h hlegal.2.1 e).trans (hlegal.2.2 e)

/-- What a merge leaves of the norms is what the table of the merged segment says. -/
theorem Valid.merged (h : s.Valid) (useCompoundFile : Bool)
    (memory : NSString → Memory) (hlegal : s.Legal (.merge minSegment name useCompoundFile memory))
    (hp : s.Permitted (.merge minSegment name useCompoundFile memory))
    (hcount : SegmentMerger.docCount (s.readers minSegment) < 2 ^ 31) :
    StoresNorms (s.merged minSegment name useCompoundFile memory hcount).1
        (s.merged minSegment name useCompoundFile memory hcount).2
      ∧ storedNorms (s.merged minSegment name useCompoundFile memory hcount).1
          (s.merged minSegment name useCompoundFile memory hcount).2
        = SegmentMerger.mergedTable (s.tables.drop minSegment) (s.readers minSegment) :=
  SegmentMerger.stores_merge (h.readers minSegment) hp (h.committed_new hlegal)

theorem Valid.right (h : s.Valid) {request : NormRequest} (hlegal : s.Legal request)
    (hp : s.Permitted request) : s.Right request := by
  cases request with
  | norms field memory =>
    obtain ⟨reader, hread, -⟩ := OpenReader.Holds.sendNorms h hp memory
    rw [Right, hread]
    rfl
  | setNorms field bytes offset memory => exact OpenReader.Holds.setNorms h hp memory hlegal
  | setNorm doc field value memory =>
    obtain ⟨reader, hset, -⟩ := OpenReader.Holds.setNorm h hlegal memory field value
    rw [Right, hset]
    rfl
  | merge minSegment name useCompoundFile memory =>
    intro hcount owner memory' field
    obtain ⟨hstores, htable⟩ := h.merged useCompoundFile memory hlegal hp hcount
    have hread := ((hstores.holds owner).sendNorms memory' field).1
    rw [htable] at hread
    refine hread.trans ?_
    have hmax := (@SegmentMerger.merge_segment Term (s.readers minSegment) memory name
      useCompoundFile hcount s.committed).2.2
    rw [show (s.merged minSegment name useCompoundFile memory hcount).1.maximalDocument = _
      from hmax]
    exact SegmentMerger.shown_mergedTable (h.readers minSegment) field
  | _ => trivial

theorem deleteSegments_of_notMem {d : Directory} {names : List NSString}
    (h : name ∉ names) (e : Extension) :
    deleteSegments d names (.ofSegment name e) = d (.ofSegment name e) := by
  rw [deleteSegments, if_neg h]

/-- A merge keeps the invariant: the segments before the merged ones keep their files. -/
theorem Valid.step_merge (h : s.Valid) {useCompoundFile : Bool}
    {memory : NSString → Memory} (hlegal : s.Legal (.merge minSegment name useCompoundFile memory))
    (hp : s.Permitted (.merge minSegment name useCompoundFile memory)) :
    (s.step (.merge minSegment name useCompoundFile memory)).Valid := by
  obtain ⟨hstores, htables⟩ := h.committed
  have hcount := hlegal.1
  have hname := hlegal.2.1
  obtain ⟨hmerged, htable⟩ := h.merged useCompoundFile memory hlegal hp hcount
  have hnames := h.names
  rw [← take_append_drop minSegment s.segments, map_append] at hnames hname
  obtain ⟨htake, -, hdisjoint⟩ := nodup_append.1 hnames
  rw [mem_append, not_or] at hname
  have hsegment := @SegmentMerger.merge_segment Term (s.readers minSegment) memory name
    useCompoundFile hcount s.committed
  obtain ⟨merged, hm⟩ : ∃ merged, merged = s.merged minSegment name useCompoundFile memory hcount :=
    ⟨_, rfl⟩
  have hmname : merged.1.name = name := hm ▸ hsegment.1
  have hkept : ∀ segment ∈ s.segments.take minSegment, ∀ e,
      s.mergedDirectory minSegment merged (.ofSegment segment.name e)
        = s.committed (.ofSegment segment.name e) := by
    intro segment hs e
    have hmem : segment.name ∈ (s.segments.take minSegment).map (·.name) := mem_map_of_mem hs
    refine (deleteSegments_of_notMem (fun hdrop => hdisjoint _ hmem _ hdrop rfl) e).trans ?_
    rw [hm]
    refine SegmentMerger.merge_other fun e' heq => hname.1 ?_
    rwa [← (FileName.ofSegment.inj heq).1]
  have hnew : ∀ e, s.mergedDirectory minSegment merged (.ofSegment merged.1.name e)
      = merged.2 (.ofSegment merged.1.name e) := by
    intro e
    rw [hmname]
    exact deleteSegments_of_notMem hname.2 e
  rw [← hm] at hmerged htable
  have hopen := @OpenReader.holds_openDirectory Term (s.segments.take minSegment ++ [merged.1])
    (s.mergedDirectory minSegment merged) ?_ ?_
  · rw [NormSession.step, dif_pos hcount]
    simp only [← hm]
    have hall : (s.segments.take minSegment ++ [merged.1]).map
        (storedNorms · (s.mergedDirectory minSegment merged))
        = s.tables.take minSegment ++
          [SegmentMerger.mergedTable (s.tables.drop minSegment) (s.readers minSegment)] := by
      rw [map_append, map_singleton, hmerged.storedNorms_congr fun e _ _ => hnew e,
        htable, ← htables, ← map_take]
      refine congrArg (· ++ _) (map_congr_left fun segment hs => ?_)
      exact (hstores segment (mem_of_mem_take hs)).storedNorms_congr fun e _ _ =>
        hkept segment hs e
    rw [hall] at hopen
    exact hopen
  · rw [map_append, map_singleton, hmname, nodup_append]
    exact ⟨htake, by simp, fun a ha b hb => by
      rintro rfl
      rw [mem_singleton] at hb
      exact hname.1 (hb ▸ ha)⟩
  · intro segment hs
    rcases mem_append.1 hs with hs | hs
    · exact ((hstores segment (mem_of_mem_take hs)).congr fun e _ _ => hkept segment hs e).1
    · obtain rfl := mem_singleton.1 hs
      exact (hmerged.congr fun e _ _ => hnew e).1

theorem Valid.step (h : s.Valid) {request : NormRequest} (hlegal : s.Legal request)
    (hp : s.Permitted request) : (s.step request).Valid := by
  cases request with
  | norms field memory =>
    obtain ⟨reader, hread, hholds⟩ := OpenReader.Holds.sendNorms h hp memory
    rw [NormSession.step, hread]
    exact hholds
  | setNorms field bytes offset memory => exact h
  | setNorm doc field value memory =>
    obtain ⟨reader, hset, hholds⟩ := OpenReader.Holds.setNorm h hlegal memory field value
    rw [NormSession.step, hset]
    exact hholds
  | deleteDocument doc =>
    obtain ⟨reader, hdelete, hholds⟩ := OpenReader.Holds.deleteDocument h hlegal
    rw [NormSession.step, hdelete]
    exact hholds
  | undeleteAll => exact OpenReader.Holds.undeleteAll h
  | commit => exact (OpenReader.Holds.commit h).1
  | close =>
    obtain ⟨hstores, htables⟩ := h.committed
    have hopen := OpenReader.holds_openDirectory h.names hstores
    rw [htables] at hopen
    exact hopen
  | merge minSegment name useCompoundFile memory => exact h.step_merge hlegal hp

theorem Valid.follows : ∀ {s : NormSession Term} {requests : List NormRequest}, s.Valid →
    s.AllLegal requests → s.AllPermitted requests → s.Follows requests
  | _, [], _, _, _ => trivial
  | _, _ :: _, h, hl, hp => ⟨h.right hl.1 hp.1, (h.step hl.1 hp.1).follows hl.2 hp.2⟩

/-- A run on an index whose files hold the norms of all documents. -/
theorem reads_set {segments : List (Segment Term)} {d : Directory}
    (hnames : (segments.map (·.name)).Nodup) (h : ∀ segment ∈ segments, StoresNorms segment d)
    {requests : List NormRequest} (hl : (ofDirectory segments d).AllLegal requests)
    (hp : (ofDirectory segments d).AllPermitted requests) :
    (ofDirectory segments d).Follows requests :=
  (valid_ofDirectory hnames h).follows hl hp

theorem oneNorm_lt : 1 < 2 ^ 31 := by decide

theorem oneNorm_docs (_ : Unit) : ∀ p ∈ ([] : List Posting), p.doc < 1 := by simp

def oneNorm : Segment Unit where
  name := [95, 48]
  fieldInfos := [⟨[97], true, false⟩]
  maximalDocument := 1
  maximalDocument_lt := oneNorm_lt
  postings _ := []
  doc_lt := oneNorm_docs
  compound _ := none

def oneNormDirectory : Directory
  | .ofSegment _ (.f 0) => some [7]
  | _ => none

theorem stores_oneNorm : StoresNorms oneNorm oneNormDirectory where
  names := by decide
  length := by decide
  separate _ _ := rfl

/-- Once the norms are cached, an object is copied in their place. -/
theorem cached_norms_ne : ∃ requests : List NormRequest,
    (ofDirectory [oneNorm] oneNormDirectory).AllLegal requests
      ∧ ¬ (ofDirectory [oneNorm] oneNormDirectory).Follows requests := by
  refine ⟨[.norms [97] fun _ _ => 0, .setNorms [97] [0] 0 fun _ _ => 0],
    ⟨trivial, Nat.zero_le _, trivial⟩, fun h => ?_⟩
  have hread : (some [0] : Option (List UInt8)) = some [7] := h.2.1
  exact absurd hread (by decide)

theorem reads_set_one :
    (ofDirectory [oneNorm] oneNormDirectory).Follows
      [.setNorm 0 [97] 5 fun _ _ => 0, .norms [97] fun _ _ => 0, .close,
        .setNorms [97] [0] 0 fun _ _ => 0] := by
  refine reads_set (by decide) (by simpa using stores_oneNorm) ?_ ?_
  · exact ⟨Nat.zero_lt_one, trivial, trivial, Nat.zero_le _, trivial⟩
  · refine ⟨trivial, trivial, trivial, fun s hs => ?_, trivial⟩
    obtain rfl := mem_singleton.1 hs
    exact Or.inr ⟨_, rfl, rfl⟩

end NormSession

end Etoile.Lucene
