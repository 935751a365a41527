import Etoile.Lucene.MultiReader
import Etoile.Lucene.NormsCommit

/-!
# The norms of a multi reader

The multi reader has a cache of its own, which it fills by copying from the sub-readers one after
another.
-/

namespace Etoile.Lucene

open List NormTable Option

variable {Term : Type}

structure SubReader (Term : Type) where
  segment : Segment Term
  reader : SegmentReader segment

/-- What an `LCMultiReader` keeps that was opened on an index, for the norms and for commits. -/
structure IndexMultiReader (Term : Type) where
  subReaders : List (SubReader Term)
  starts : List ℕ
  maxDoc : ℕ
  normsCache : NSString → Option (List UInt8) := fun _ => none
  hasChanges : Bool := false
  segmentInfos : Option SegmentInfos := none

def sizes (subReaders : List (SubReader Term)) : List ℕ :=
  subReaders.map fun s => s.segment.maximalDocument

/-- The loop of `-initialize:`, from the documents counted so far on. -/
def startsFrom : ℕ → List ℕ → List ℕ
  | maxDoc, [] => [maxDoc]
  | maxDoc, size :: sizes => maxDoc :: startsFrom (maxDoc + size) sizes

namespace IndexMultiReader

def initWithDirectory (d : Directory) (subReaders : List (SubReader Term)) :
    IndexMultiReader Term where
  subReaders := subReaders
  starts := startsFrom 0 (sizes subReaders)
  maxDoc := (sizes subReaders).sum
  segmentInfos := (d .segments).bind fun bytes =>
    (SegmentInfos.readFromDirectory bytes).map Prod.fst

variable (m : IndexMultiReader Term)

def hasNorms (field : NSString) : Bool := m.subReaders.any fun s => s.reader.hasNorms field

/-- The loop that reads from the segments.  The memory is that of the objects each of them
passes. -/
def readNorms (memory : NSString → Memory) (field : NSString) (offset : ℕ) :
    List (SubReader Term) → List ℕ → List UInt8 → Option (List UInt8)
  | s :: subReaders, start :: starts, bytes =>
    (s.reader.setNorms (memory s.segment.name) field bytes (offset + start)).bind
      (readNorms memory field offset subReaders starts)
  | _, _, bytes => some bytes

/-- `-norms:` -/
def sendNorms (memory : NSString → Memory) (field : NSString) :
    Option (List UInt8 × IndexMultiReader Term) :=
  match m.normsCache field with
  | some bytes => some (bytes, m)
  | none =>
    if m.hasNorms field then
      (readNorms memory field 0 m.subReaders m.starts []).map fun bytes =>
        (bytes, { m with normsCache := Function.update m.normsCache field (some bytes) })
    else some (createFakeNorms m.maxDoc, m)

/-- `-setNorms:bytes:offset:`, which goes on to the segments after a cache hit. -/
def setNorms (memory : NSString → Memory) (field : NSString) (result : List UInt8) (offset : ℕ) :
    Option (List UInt8) :=
  (match m.normsCache field with
    | some bytes => replaceBytesInRange result offset (bytes.take m.maxDoc)
    | none =>
      if m.hasNorms field then some result
      else replaceBytesInRange result offset (createFakeNorms m.maxDoc)).bind
    (readNorms memory field offset m.subReaders m.starts)

/-- A message about the document `n` goes to its sub-reader. -/
def changeSubReader (n : ℕ) (change : (s : SubReader Term) → ℕ → Option (SegmentReader s.segment)) :
    Option (IndexMultiReader Term) := do
  let i ← MultiReader.searchStarts m.starts m.subReaders.length n 0 (m.subReaders.length - 1)
  let s ← objectAtIndex m.subReaders i
  let start ← objectAtIndex m.starts i
  let reader ← change s (n - start)
  return { m with subReaders := m.subReaders.set i.toNat { s with reader } }

def doSetNorm (memory : NSString → Memory) (n : ℕ) (field : NSString) (value : UInt8) :
    Option (IndexMultiReader Term) :=
  changeSubReader { m with normsCache := Function.update m.normsCache field none } n fun s n =>
    s.reader.setNorm (memory s.segment.name) n field value

def setNorm (memory : NSString → Memory) (n : ℕ) (field : NSString) (value : UInt8) :
    Option (IndexMultiReader Term) :=
  (m.doSetNorm memory n field value).map fun m => { m with hasChanges := true }

def deleteDocument (n : ℕ) : Option (IndexMultiReader Term) :=
  (m.changeSubReader n fun s n => some (s.reader.deleteDocument n)).map fun m =>
    { m with hasChanges := true }

def undeleteAll : IndexMultiReader Term :=
  { m with
    subReaders := m.subReaders.map fun s => { s with reader := s.reader.sendUndeleteAll }
    hasChanges := true }

/-- `[[subReaders objectAtIndex: i] commit]` for each of them. -/
def commitAll : List (SubReader Term) → Directory → Directory × List (SubReader Term)
  | [], d => (d, [])
  | s :: subReaders, d =>
    let committed := s.reader.commit d
    let rest := commitAll subReaders committed.1
    (rest.1, { s with reader := committed.2 } :: rest.2)

/-- `-commit` of a reader that owns the directory. -/
def commit (d : Directory) : Directory × IndexMultiReader Term :=
  if m.hasChanges then
    let committed := commitAll m.subReaders d
    match m.segmentInfos with
    | some infos =>
      let written := infos.writeToDirectory committed.1
      (written.1, { m with subReaders := committed.2, segmentInfos := some written.2 })
    | none => (committed.1, { m with subReaders := committed.2 })
  else (d, m)

end IndexMultiReader

namespace NormTable

def concatenated (sizes : List ℕ) (tables : List NormTable) (field : NSString) : List UInt8 :=
  (zipWith (fun size t => shown t size field) sizes tables).flatten

def setConcatenated : List ℕ → List NormTable → ℕ → NSString → UInt8 → List NormTable
  | size :: sizes, t :: tables, doc, field, value =>
    if doc < size then t.set doc field value :: tables
    else t :: setConcatenated sizes tables (doc - size) field value
  | _, tables, _, _, _ => tables

end NormTable

def HoldEach (tables : List NormTable) (subReaders : List (SubReader Term)) (d : Directory) :
    Prop :=
  Forall₂ (fun t s => HoldsNorms t s.reader d) tables subReaders

structure IndexMultiReader.Keeps (tables : List NormTable) (m : IndexMultiReader Term) : Prop where
  starts : m.starts = startsFrom 0 (sizes m.subReaders)
  maxDoc : m.maxDoc = (sizes m.subReaders).sum
  cache : ∀ field bytes, m.normsCache field = some bytes →
    bytes = concatenated (sizes m.subReaders) tables field
  changes : ∀ s ∈ m.subReaders, s.reader.hasChanges = true → m.hasChanges = true

section Reading

variable {tables : List NormTable} {subReaders : List (SubReader Term)} {d : Directory}
  {field : NSString}

theorem startsFrom_eq : ∀ (maxDoc : ℕ) (sizes : List ℕ),
    startsFrom maxDoc sizes = (range (sizes.length + 1)).map fun i => maxDoc + start sizes i
  | maxDoc, [] => by simp [startsFrom]
  | maxDoc, size :: sizes => by
    rw [startsFrom, startsFrom_eq (maxDoc + size) sizes, length_cons,
      List.range_succ_eq_map (n := sizes.length + 1), List.map_cons, List.map_map]
    simp [Function.comp_def, Nat.add_assoc]

theorem replaceBytesInRange_append (data : List UInt8) (location : ℕ) (bytes bytes' : List UInt8) :
    (replaceBytesInRange data location bytes).bind
        (fun data => replaceBytesInRange data (location + bytes.length) bytes')
      = replaceBytesInRange data location (bytes ++ bytes') := by
  unfold replaceBytesInRange
  split_ifs with h
  · rw [bind_some, if_pos (by simp; omega)]
    have hlen : (data.take location ++ bytes).length = location + bytes.length := by
      simp [length_take, h]
    rw [← hlen, take_left, hlen, drop_append, drop_drop, hlen]
    simp [append_assoc, Nat.add_assoc]
    omega
  · rfl

theorem replaceBytesInRange_again {bytes bytes' : List UInt8} (h : bytes.length = bytes'.length)
    (data : List UInt8) (location : ℕ) :
    (replaceBytesInRange data location bytes).bind
        (fun data => replaceBytesInRange data location bytes')
      = replaceBytesInRange data location bytes' := by
  unfold replaceBytesInRange
  split_ifs with hle
  · have hlen : (data.take location).length = location := by
      rw [length_take]
      omega
    have hlen' : (data.take location ++ bytes).length = location + bytes'.length := by
      rw [length_append, hlen, h]
    rw [bind_some, if_pos (by simp; omega), drop_left' hlen', append_assoc _ bytes,
      take_left' hlen, h]
  · rfl

theorem concatenated_cons (s : SubReader Term) (subReaders : List (SubReader Term))
    (t : NormTable) (tables : List NormTable) (field : NSString) :
    concatenated (sizes (s :: subReaders)) (t :: tables) field
      = t.shown s.segment.maximalDocument field
        ++ concatenated (sizes subReaders) tables field := rfl

theorem sizes_cons (s : SubReader Term) (subReaders : List (SubReader Term)) :
    sizes (s :: subReaders) = s.segment.maximalDocument :: sizes subReaders := rfl

theorem HoldEach.readNorms (h : HoldEach tables subReaders d)
    (hun : ∀ s ∈ subReaders, s.reader.Uncached field) (memory : NSString → Memory) (offset : ℕ) :
    ∀ (maxDoc : ℕ) (bytes : List UInt8), offset + maxDoc ≤ bytes.length →
    IndexMultiReader.readNorms memory field offset subReaders (startsFrom maxDoc (sizes subReaders))
        bytes
      = replaceBytesInRange bytes (offset + maxDoc)
          (concatenated (sizes subReaders) tables field) := by
  induction h with
  | nil =>
    intro maxDoc bytes hle
    simp [IndexMultiReader.readNorms, concatenated, replaceBytesInRange, hle, sizes]
  | cons hs _ ih =>
    rename_i t s tables subReaders hrest
    intro maxDoc bytes hle
    obtain ⟨hun, huns⟩ := forall_mem_cons.1 hun
    have hlen := hs.length_shown field
    show (s.reader.setNorms (memory s.segment.name) field bytes (offset + maxDoc)).bind _ = _
    rw [hs.setNorms hun]
    have hwrite := replaceBytesInRange_append bytes (offset + maxDoc)
      (t.shown s.segment.maximalDocument field)
      (concatenated (sizes subReaders) tables field)
    rw [concatenated_cons, ← hwrite]
    refine bind_congr fun bytes' hbytes' => ?_
    have hle' : offset + (maxDoc + s.segment.maximalDocument) ≤ bytes'.length := by
      rw [replaceBytesInRange, if_pos hle, some.injEq] at hbytes'
      rw [← hbytes', length_append, length_append, length_take, hlen]
      omega
    rw [hlen, Nat.add_assoc]
    exact ih huns _ _ hle'

theorem HoldEach.length_concatenated (h : HoldEach tables subReaders d) (field : NSString) :
    (concatenated (sizes subReaders) tables field).length = (sizes subReaders).sum := by
  induction h with
  | nil => rfl
  | cons hs _ ih =>
    rw [concatenated_cons, length_append, hs.length_shown, ih, sizes_cons, sum_cons]

theorem HoldEach.concatenated_of_none (h : HoldEach tables subReaders d)
    (hnone : ∀ s ∈ subReaders, s.reader.hasNorms field = false) :
    concatenated (sizes subReaders) tables field
      = createFakeNorms (sizes subReaders).sum := by
  induction h with
  | nil => rfl
  | cons hs _ ih =>
    rename_i t s tables subReaders hrest
    obtain ⟨hno, hnone⟩ := forall_mem_cons.1 hnone
    rw [hs.hasNorms] at hno
    rw [isSome_eq_false_iff, isNone_iff_eq_none] at hno
    rw [concatenated_cons, ih hnone, shown, hno, getD_none, sizes_cons,
      sum_cons]
    simp [createFakeNorms, replicate_append_replicate]

theorem HoldEach.set (h : HoldEach tables subReaders d) : ∀ {i : ℕ} {s : SubReader Term},
    subReaders[i]? = some s → ∃ t, tables[i]? = some t ∧ HoldsNorms t s.reader d ∧
      ∀ t' reader, HoldsNorms t' reader d →
        HoldEach (tables.set i t') (subReaders.set i { s with reader }) d := by
  induction h with
  | nil =>
    intro i s hi
    simp at hi
  | cons hs hrest ih =>
    intro i s hi
    rcases i with _ | i
    · obtain rfl := some.inj hi
      exact ⟨_, rfl, hs, fun t' reader hr => Forall₂.cons hr hrest⟩
    · obtain ⟨t, ht, hr, hset⟩ := ih (i := i) hi
      exact ⟨t, ht, hr, fun t' reader hr => Forall₂.cons hs (hset t' reader hr)⟩

theorem setConcatenated_eq : ∀ {sizes : List ℕ} {tables : List NormTable} {i doc : ℕ}
    {t : NormTable}, tables[i]? = some t → InBlock sizes i doc → ∀ field value,
    setConcatenated sizes tables doc field value
      = tables.set i (t.set (doc - start sizes i) field value)
  | [], _, i, doc, _, _, hblock, _, _ => by
    have := hblock.lt_length
    simp at this
  | size :: sizes, [], i, doc, _, ht, _, _, _ => by simp at ht
  | size :: sizes, t' :: tables, 0, doc, t, ht, hblock, field, value => by
    obtain rfl := some.inj ht
    have hlt := hblock.2
    rw [start_cons_succ, start_zero] at hlt
    unfold setConcatenated
    rw [if_pos (by omega)]
    rfl
  | size :: sizes, t' :: tables, i + 1, doc, t, ht, hblock, field, value => by
    obtain ⟨hlo, hhi⟩ := hblock
    rw [start_cons_succ] at hlo hhi
    have hrest : InBlock sizes i (doc - size) := ⟨by omega, by omega⟩
    unfold setConcatenated
    rw [if_neg (by omega), setConcatenated_eq (show tables[i]? = some t from ht) hrest,
      start_cons_succ, Nat.sub_sub]
    rfl

theorem set_self_of_getElem? {α : Type} {l : List α} {i : ℕ} {a : α} (h : l[i]? = some a) :
    l.set i a = l := by
  obtain ⟨hi, rfl⟩ := List.getElem?_eq_some_iff.1 h
  exact set_getElem_self hi

theorem concatenated_set {i : ℕ} {t t' : NormTable} (ht : tables[i]? = some t)
    (hfield : t' field = t field) (sizes : List ℕ) :
    concatenated sizes (tables.set i t') field
      = concatenated sizes tables field := by
  have hmap : (tables.set i t').map (fun t => t field) = tables.map fun t => t field := by
    rw [map_set, hfield]
    exact set_self_of_getElem? (by rw [getElem?_map, ht, map_some])
  have hzip : ∀ tables : List NormTable, concatenated sizes tables field
      = (zipWith (fun size bytes => bytes.getD (createFakeNorms size)) sizes
          (tables.map fun t => t field)).flatten := by
    intro tables
    rw [zipWith_map_right]
    rfl
  rw [hzip, hzip, hmap]

end Reading

section Committing

variable {tables : List NormTable} {subs : List (SubReader Term)} {d d' : Directory}

theorem HoldEach.undeleteAll (h : HoldEach tables subs d) :
    HoldEach tables (subs.map fun s => ⟨s.segment, s.reader.sendUndeleteAll⟩) d := by
  unfold HoldEach
  rw [forall₂_map_right_iff]
  exact h.imp fun _ _ hs => hs.undeleteAll

theorem HoldEach.mem (h : HoldEach tables subs d) {s : SubReader Term} (hs : s ∈ subs) :
    ∃ t, HoldsNorms t s.reader d := by
  obtain ⟨i, hi⟩ := mem_iff_getElem?.1 hs
  obtain ⟨t, -, ht, -⟩ := h.set hi
  exact ⟨t, ht⟩

theorem HoldEach.congr (h : HoldEach tables subs d)
    (hd : ∀ s ∈ subs, ∀ e, d' (.ofSegment s.segment.name e) = d (.ofSegment s.segment.name e)) :
    HoldEach tables subs d' := by
  induction h with
  | nil => exact Forall₂.nil
  | cons hs _ ih =>
    obtain ⟨hd, hds⟩ := forall_mem_cons.1 hd
    exact Forall₂.cons (hs.congr_directory fun e _ _ => hd e) (ih hds)

namespace IndexMultiReader

theorem commitAll_segments : ∀ (subs : List (SubReader Term)) (d : Directory),
    (commitAll subs d).2.map (·.segment) = subs.map (·.segment)
  | [], _ => rfl
  | s :: subs, d => congrArg (s.segment :: ·) (commitAll_segments subs (s.reader.commit d).1)

theorem commitAll_other {name : NSString} (e : Extension) :
    ∀ (subs : List (SubReader Term)) (d : Directory), (∀ s ∈ subs, name ≠ s.segment.name) →
    (commitAll subs d).1 (.ofSegment name e) = d (.ofSegment name e)
  | [], _, _ => rfl
  | s :: subs, d, hname => by
    obtain ⟨hs, hsubs⟩ := forall_mem_cons.1 hname
    exact (commitAll_other e subs _ hsubs).trans (commit_other s.reader hs d e)

end IndexMultiReader

/-- The readers commit one after another, and none touches the files of the others. -/
theorem HoldEach.commitAll : ∀ {subs : List (SubReader Term)} {tables : List NormTable}
    {d : Directory}, HoldEach tables subs d → (subs.map fun s => s.segment.name).Nodup →
    HoldEach tables (IndexMultiReader.commitAll subs d).2 (IndexMultiReader.commitAll subs d).1
      ∧ ∀ s ∈ (IndexMultiReader.commitAll subs d).2, s.reader.normsDirty = false
  | [], _, _, h, _ => by
    cases h
    exact ⟨Forall₂.nil, nofun⟩
  | s :: subs, t :: tables, d, h, hnames => by
    obtain ⟨hs, hrest⟩ := forall₂_cons.1 h
    obtain ⟨hfresh, hnames⟩ := nodup_cons.1 hnames
    have hname : ∀ s' ∈ subs, s'.segment.name ≠ s.segment.name := fun s' hs' heq =>
      hfresh (mem_map.2 ⟨s', hs', heq⟩)
    obtain ⟨hcommit, hclean⟩ := hs.commit
    have hrest' : HoldEach tables subs (s.reader.commit d).1 :=
      HoldEach.congr hrest fun s' hs' e => commit_other s.reader (hname s' hs') d e
    obtain ⟨hall, hcleans⟩ := HoldEach.commitAll hrest' hnames
    refine ⟨Forall₂.cons (hcommit.congr_directory fun e _ _ => ?_) hall,
      forall_mem_cons.2 ⟨hclean, hcleans⟩⟩
    exact IndexMultiReader.commitAll_other e subs _ fun s' hs' => (hname s' hs').symm

end Committing

end Etoile.Lucene
