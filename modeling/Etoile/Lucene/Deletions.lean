import Etoile.Lucene.SegmentReader

/-!
# Deletions across commits

A session is a reader of a segment and the directory, with the documents that are deleted and those
whose deletion is committed by the requests so far.  The vector of the reader holds the former, the
`.del` file the latter, and what the flags say of the difference is undone by a commit.
-/

namespace Etoile.Lucene

open Finset Option SegmentReader SegmentTermDocuments

variable {Term : Type} {segment : Segment Term}

structure Session (segment : Segment Term) where
  reader : SegmentReader segment
  directory : Directory
  deleted : Finset ℕ
  committed : Finset ℕ
  /-- some document was deleted or all undeleted since the last commit -/
  changed : Bool

inductive DeletionRequest (segment : Segment Term)
  | deleteDocument (docNum : Fin segment.maximalDocument)
  | deleteTerm (t : Term)
  | undeleteAll
  | numberOfDocuments
  | commit
  /-- closes the reader and opens another -/
  | close (owner : Bool)
  /-- opens another reader without closing this one -/
  | reopen (owner : Bool)

namespace Session

def ofDirectory (segment : Segment Term) (owner : Bool) (d : Directory) (committed : Finset ℕ) :
    Session segment where
  reader := initWithSegmentInfo segment owner d
  directory := d
  deleted := committed
  committed := committed
  changed := false

def documentsOf (segment : Segment Term) (t : Term) : Finset ℕ :=
  ((segment.postings t).map (·.doc)).toFinset

def step (s : Session segment) : DeletionRequest segment → Session segment
  | .deleteDocument docNum =>
    { s with
      reader := s.reader.deleteDocument docNum
      deleted := insert docNum.1 s.deleted
      changed := true }
  | .deleteTerm t =>
    { s with
      reader := (s.reader.deleteTerm t).2
      deleted := s.deleted ∪ documentsOf segment t
      changed := s.changed || decide (¬ documentsOf segment t ⊆ s.deleted) }
  | .undeleteAll =>
    { s with reader := s.reader.sendUndeleteAll, deleted := ∅, changed := true }
  | .numberOfDocuments => { s with reader := s.reader.numberOfDocuments.2 }
  | .commit =>
    { s with
      reader := (s.reader.commit s.directory).2
      directory := (s.reader.commit s.directory).1
      committed := s.deleted
      changed := false }
  | .close owner => .ofDirectory segment owner (s.reader.commit s.directory).1 s.deleted
  | .reopen owner => .ofDirectory segment owner s.directory s.committed

end Session

structure Session.Right (s : Session segment) : Prop where
  isDeleted : ∀ d, s.reader.isDeleted d = decide (d ∈ s.deleted)
  numberOfDocuments : s.reader.numberOfDocuments.1 = segment.maximalDocument - s.deleted.card
  termDocuments : ∀ t, Yields (TermDocuments.seekTerm (some t) s.reader.termDocuments)
    ((segment.postings t).filter (·.doc ∉ s.deleted))
  reopened : ∀ owner d,
    (initWithSegmentInfo segment owner s.directory).isDeleted d
      = decide (d ∈ s.committed)

section Holds

/-- A vector, or none, that holds the documents `D`. -/
def HoldsDeleted (segment : Segment Term) (D : Finset ℕ) (v : Option BitVector) : Prop :=
  (∀ v', v = some v' → v'.Holds segment.maximalDocument D) ∧ (v = none → D = ∅)

/-- The file, or its absence, that says the documents `D` are deleted. -/
def Stores (segment : Segment Term) (D : Finset ℕ) (d : Directory) : Prop :=
  (∃ v : BitVector, d (.ofSegment segment.name .del) = some v.fileBytes
      ∧ v.Holds segment.maximalDocument D)
    ∨ d (.ofSegment segment.name .del) = none ∧ D = ∅

variable {D : Finset ℕ} {r : SegmentReader segment} {d : Directory}

theorem HoldsDeleted.isDeleted (h : HoldsDeleted segment D r.deletedDocs) (n : ℕ) :
    r.isDeleted n = decide (n ∈ D) := by
  unfold SegmentReader.isDeleted
  rcases hv : r.deletedDocs with _ | v
  · simp [h.2 hv]
  · simpa using (h.1 v hv).bit n

theorem HoldsDeleted.numberOfDocuments (h : HoldsDeleted segment D r.deletedDocs) :
    r.numberOfDocuments.1 = segment.maximalDocument - D.card
      ∧ HoldsDeleted segment D r.numberOfDocuments.2.deletedDocs := by
  unfold SegmentReader.numberOfDocuments
  rcases hv : r.deletedDocs with _ | v
  · rw [hv] at h
    simp only [hv]
    refine ⟨by simp [h.2 rfl], h⟩
  · obtain ⟨hc, hcount⟩ := (h.1 v hv).counted
    simp only [hcount]
    exact ⟨trivial, fun v' hv' => some.inj hv' ▸ hc, fun hn => by simp at hn⟩

theorem HoldsDeleted.yields (h : HoldsDeleted segment D r.deletedDocs) :
    ∀ (ps : List Posting) (e : SegmentTermDocuments segment), e.rest = ps →
      e.deletedDocs = r.deletedDocs → Yields e (ps.filter (·.doc ∉ D))
  | [], e, hrest, _ => by
    simp [Yields, TermDocuments.hasNextDocument, hasNextDocument, hrest,
      next]
  | p :: ps, e, hrest, hv => by
    have hp := h.isDeleted p.doc
    unfold SegmentReader.isDeleted at hp
    by_cases hD : p.doc ∈ D
    · have hnext : TermDocuments.hasNextDocument e
          = TermDocuments.hasNextDocument { e with rest := ps } := by
        simp [TermDocuments.hasNextDocument, hasNextDocument, hrest, hv,
          next, hp, hD]
      rw [List.filter_cons_of_neg (by simpa using hD)]
      exact (h.yields ps { e with rest := ps } rfl hv).of_hasNextDocument hnext
    · have hnext : TermDocuments.hasNextDocument e
          = (true, { e with current := p, rest := ps }) := by
        simp [TermDocuments.hasNextDocument, hasNextDocument, hrest, hv,
          next, hp, hD]
      rw [List.filter_cons_of_pos (by simpa using hD)]
      simp only [Yields, hnext]
      refine ⟨trivial, rfl, rfl, fun n hn => ?_⟩
      obtain ⟨h1, h2⟩ := readPositions_of_current current
        (fun e => (e.rest, e.deletedDocs)) (fun _ => rfl) (fun _ => rfl) (fun _ => rfl) n
        { e with current := p, rest := ps } hn
      obtain ⟨hr, hd⟩ := Prod.mk.inj h2
      exact ⟨h1, h.yields ps _ hr (hd.trans hv)⟩

theorem HoldsDeleted.termDocuments (h : HoldsDeleted segment D r.deletedDocs) (t : Term) :
    Yields (TermDocuments.seekTerm (some t) r.termDocuments)
      ((segment.postings t).filter (·.doc ∉ D)) :=
  h.yields (segment.postings t) _ rfl rfl

theorem Stores.holds (h : Stores segment D d) (hD : D ⊆ range segment.maximalDocument) :
    HoldsDeleted segment D (openDeletions segment d) := by
  unfold openDeletions
  rcases h with ⟨v, hv, hholds⟩ | ⟨hnone, hempty⟩
  · have hread := hholds.reads segment.maximalDocument_lt hD []
    rw [List.append_nil] at hread
    rw [hv, bind_some, hread]
    exact ⟨fun v' hv' => some.inj hv' ▸ hholds.counted.1, fun hn => by simp at hn⟩
  · rw [hnone]
    exact ⟨fun v' hv' => by simp at hv', fun _ => hempty⟩

theorem Stores.congr {d' : Directory} (h : Stores segment D d)
    (hd : d' (.ofSegment segment.name .del) = d (.ofSegment segment.name .del)) :
    Stores segment D d' := by
  unfold Stores
  rwa [hd]

end Holds

/-- The flags tell how the deleted documents differ from the committed ones. -/
structure Tracks (segment : Segment Term) (D C : Finset ℕ) (r : SegmentReader segment)
    (d : Directory) : Prop where
  holds : HoldsDeleted segment D r.deletedDocs
  stores : Stores segment C d
  deleted_subset : D ⊆ range segment.maximalDocument
  committed_subset : C ⊆ range segment.maximalDocument
  dirty : r.deletedDocsDirty = true → r.deletedDocs ≠ none ∧ r.undeleteAll = false
  undone : r.undeleteAll = true → r.deletedDocs = none
  same : r.deletedDocsDirty = false → r.undeleteAll = false → D = C
  changes : r.deletedDocsDirty = true ∨ r.undeleteAll = true → r.hasChanges = true
  norms : r.normsDirty = false

variable {D C : Finset ℕ} {r : SegmentReader segment} {d : Directory}

theorem Tracks.ofDirectory (h : Stores segment C d)
    (hC : C ⊆ range segment.maximalDocument) (owner : Bool) :
    Tracks segment C C (initWithSegmentInfo segment owner d) d where
  holds := h.holds hC
  stores := h
  deleted_subset := hC
  committed_subset := hC
  dirty := nofun
  undone := nofun
  same _ _ := rfl
  changes hf := hf.elim nofun nofun
  norms := rfl

theorem Tracks.deleteDocument (h : Tracks segment D C r d) {n : ℕ}
    (hn : n < segment.maximalDocument) :
    Tracks segment (insert n D) C (r.deleteDocument n) d where
  holds := by
    refine ⟨fun v hv => ?_, fun hv => by cases hv⟩
    obtain rfl := some.inj hv
    rcases hr : r.deletedDocs with _ | v
    · obtain rfl := h.holds.2 hr
      exact (BitVector.holds_initWithSize _).setBit hn
    · exact (h.holds.1 v hr).setBit hn
  stores := h.stores
  deleted_subset := insert_subset (mem_range.2 hn) h.deleted_subset
  committed_subset := h.committed_subset
  dirty _ := ⟨nofun, rfl⟩
  undone := nofun
  same := nofun
  changes _ := rfl
  norms := h.norms

theorem Tracks.undeleteAll (h : Tracks segment D C r d) :
    Tracks segment ∅ C r.sendUndeleteAll d where
  holds := ⟨nofun, fun _ => rfl⟩
  stores := h.stores
  deleted_subset := empty_subset _
  committed_subset := h.committed_subset
  dirty := nofun
  undone _ := rfl
  same := nofun
  changes _ := rfl
  norms := h.norms

theorem Tracks.numberOfDocuments (h : Tracks segment D C r d) :
    Tracks segment D C r.numberOfDocuments.2 d := by
  have hholds := h.holds.numberOfDocuments.2
  unfold SegmentReader.numberOfDocuments at hholds ⊢
  rcases hr : r.deletedDocs with _ | v
  · exact h
  · rw [hr] at hholds
    refine ⟨hholds, h.stores, h.deleted_subset, h.committed_subset, fun hd => ?_, fun hu => ?_,
      h.same, h.changes, h.norms⟩
    · exact ⟨by simp, (h.dirty hd).2⟩
    · have := h.undone hu
      rw [hr] at this
      cases this

theorem Tracks.deleteTermLoop (shared : Bool) : ∀ {ps : List Posting} {D : Finset ℕ}
    {r : SegmentReader segment}, Tracks segment D C r d →
      (∀ p ∈ ps, p.doc < segment.maximalDocument) →
      Tracks segment (D ∪ (ps.map (·.doc)).toFinset) C
        (SegmentReader.deleteTermLoop shared ps r).2 d
  | [], D, r, h, _ => by simpa [SegmentReader.deleteTermLoop] using h
  | p :: ps, D, r, h, hps => by
    have hrest : ∀ q ∈ ps, q.doc < segment.maximalDocument := fun q hq =>
      hps q (List.mem_cons_of_mem _ hq)
    unfold SegmentReader.deleteTermLoop
    split_ifs with hskip
    · have hD : p.doc ∈ D := by
        rw [Bool.and_eq_true, h.holds.isDeleted, decide_eq_true_eq] at hskip
        exact hskip.2
      have hsame : D ∪ ((p :: ps).map (·.doc)).toFinset = D ∪ (ps.map (·.doc)).toFinset := by
        rw [List.map_cons, List.toFinset_cons, union_insert, insert_eq_of_mem
          (mem_union_left _ hD)]
      rw [hsame]
      exact h.deleteTermLoop shared hrest
    · have hmore : D ∪ ((p :: ps).map (·.doc)).toFinset
          = insert p.doc D ∪ (ps.map (·.doc)).toFinset := by
        rw [List.map_cons, List.toFinset_cons, union_insert, insert_union]
      rw [hmore]
      exact (h.deleteDocument (hps p List.mem_cons_self)).deleteTermLoop shared hrest

theorem Tracks.deleteTerm (h : Tracks segment D C r d) (t : Term) :
    Tracks segment (D ∪ Session.documentsOf segment t) C (r.deleteTerm t).2 d :=
  h.deleteTermLoop _ (segment.doc_lt t)

theorem commitDeletions_of_clean (h : r.deletedDocsDirty = false) : r.commitDeletions d = d := by
  unfold commitDeletions
  rw [h]
  cases r.deletedDocs <;> rfl

theorem commitDeletions_of_dirty {v : BitVector} (h : r.deletedDocsDirty = true)
    (hv : r.deletedDocs = some v) :
    r.commitDeletions d (.ofSegment segment.name .del) = some v.fileBytes := by
  unfold commitDeletions
  rw [h, hv]
  exact Directory.replaceFile_self (by simp)

/-- Writing the vector, or removing it, is what the committed documents were missing. -/
theorem Tracks.stores_commit (h : Tracks segment D C r d) :
    Stores segment D (r.commitUndeletions (r.commitDeletions d)) := by
  unfold commitUndeletions
  rcases hdirty : r.deletedDocsDirty with _ | _
  · rw [commitDeletions_of_clean hdirty]
    rcases hundo : r.undeleteAll with _ | _
    · rw [h.same hdirty hundo]
      exact h.stores
    · obtain rfl := h.holds.2 (h.undone hundo)
      right
      rw [Bool.true_and, Directory.fileExists]
      split_ifs with hfile
      · exact ⟨Directory.deleteFile_self, rfl⟩
      · exact ⟨by simpa using hfile, rfl⟩
  · obtain ⟨hsome, hundo⟩ := h.dirty hdirty
    obtain ⟨v, hv⟩ := ne_none_iff_exists'.1 hsome
    rw [hundo, Bool.false_and]
    exact Or.inl ⟨v, commitDeletions_of_dirty hdirty hv, h.holds.1 v hv⟩

theorem Tracks.doCommit (h : Tracks segment D C r d) :
    Tracks segment D D (r.doCommit d).2 (r.doCommit d).1 := by
  have hd : (r.doCommit d).1 = r.commitUndeletions (r.commitDeletions d) := by
    simp [SegmentReader.doCommit, h.norms]
  refine ⟨?_, hd ▸ h.stores_commit, h.deleted_subset, h.deleted_subset, nofun, nofun,
    fun _ _ => rfl, fun hf => hf.elim nofun nofun, rfl⟩
  simp only [SegmentReader.doCommit]
  split_ifs
  · refine ⟨fun v hv => ?_, fun hv => h.holds.2 (by simpa using hv)⟩
    obtain ⟨w, hw, rfl⟩ := map_eq_some_iff.1 hv
    exact (h.holds.1 w hw).counted.1
  · exact h.holds

theorem stores_writeToDirectory (infos : SegmentInfos) (h : Stores segment D d) :
    Stores segment D (infos.writeToDirectory d).1 :=
  h.congr (SegmentInfos.writeToDirectory_of_ne (by simp) (by simp))

theorem Tracks.commit (h : Tracks segment D C r d) :
    Tracks segment D D (r.commit d).2 (r.commit d).1 := by
  have hc := h.doCommit
  unfold SegmentReader.commit
  split_ifs with hchanges howner
  · split
    · exact ⟨hc.holds, stores_writeToDirectory _ hc.stores, hc.deleted_subset,
        hc.deleted_subset, nofun, nofun, fun _ _ => rfl, fun hf => hf.elim nofun nofun, rfl⟩
    · exact hc
  · exact ⟨hc.holds, hc.stores, hc.deleted_subset, hc.deleted_subset, nofun, nofun,
      fun _ _ => rfl, fun hf => hf.elim nofun nofun, rfl⟩
  · have hdirty : r.deletedDocsDirty = false := by
      by_contra hf
      exact hchanges (h.changes (Or.inl (by simpa using hf)))
    have hundo : r.undeleteAll = false := by
      by_contra hf
      exact hchanges (h.changes (Or.inr (by simpa using hf)))
    obtain rfl := h.same hdirty hundo
    exact h

theorem deleteTermLoop_skips (h : HoldsDeleted segment D r.deletedDocs) : ∀ {ps : List Posting},
    (∀ p ∈ ps, p.doc ∈ D) → deleteTermLoop true ps r = (0, r)
  | [], _ => rfl
  | p :: ps, hps => by
    have hp : r.isDeleted p.doc = true := by
      rw [h.isDeleted, decide_eq_true_eq]
      exact hps p List.mem_cons_self
    unfold deleteTermLoop
    rw [hp, Bool.true_and, if_pos rfl]
    exact deleteTermLoop_skips h fun q hq => hps q (List.mem_cons_of_mem _ hq)

theorem Tracks.deleteTerm_of_subset (h : Tracks segment D C r d) {t : Term}
    (ht : Session.documentsOf segment t ⊆ D) : (r.deleteTerm t).2 = r := by
  have hall : ∀ p ∈ segment.postings t, p.doc ∈ D := fun p hp =>
    ht (List.mem_toFinset.2 (List.mem_map_of_mem hp))
  unfold SegmentReader.deleteTerm
  rcases hr : r.deletedDocs with _ | v
  · have hnil : segment.postings t = [] := by
      refine List.eq_nil_iff_forall_not_mem.2 fun p hp => ?_
      have := hall p hp
      rw [h.holds.2 hr] at this
      exact absurd this (notMem_empty _)
    rw [hnil]
    rfl
  · rw [isSome_some, deleteTermLoop_skips h.holds hall]

namespace Session

variable {s : Session segment}

structure Valid (s : Session segment) : Prop where
  tracks : Tracks segment s.deleted s.committed s.reader s.directory
  /-- only the owner of the directory takes committed changes for new ones -/
  quiet : s.reader.directoryOwner = false → s.changed = false → s.reader.hasChanges = false

theorem valid_ofDirectory (h : Stores segment C d)
    (hC : C ⊆ range segment.maximalDocument) (owner : Bool) :
    Valid (ofDirectory segment owner d C) :=
  ⟨Tracks.ofDirectory h hC owner, fun _ _ => rfl⟩

theorem directoryOwner_commit (r : SegmentReader segment) (d : Directory) :
    (r.commit d).2.directoryOwner = r.directoryOwner := by
  unfold commit
  split_ifs
  · split <;> rfl
  · rfl
  · rfl

/-- A reader that does not own the directory has no changes left after a commit. -/
theorem hasChanges_commit {r : SegmentReader segment} (h : r.directoryOwner = false) :
    (r.commit d).2.hasChanges = false := by
  unfold commit
  rcases hchanges : r.hasChanges with _ | _
  · exact hchanges
  · rw [h]
    rfl

theorem Valid.step (h : s.Valid) (request : DeletionRequest segment) : (s.step request).Valid := by
  cases request with
  | deleteDocument docNum => exact ⟨h.tracks.deleteDocument docNum.2, nofun⟩
  | deleteTerm t =>
    refine ⟨h.tracks.deleteTerm t, fun howner hsame => ?_⟩
    simp only [Session.step, Bool.or_eq_false_iff, decide_eq_false_iff_not, not_not] at hsame
    have hr := h.tracks.deleteTerm_of_subset hsame.2
    simp only [Session.step, hr] at howner ⊢
    exact h.quiet howner hsame.1
  | undeleteAll => exact ⟨h.tracks.undeleteAll, nofun⟩
  | numberOfDocuments =>
    refine ⟨h.tracks.numberOfDocuments, ?_⟩
    have hquiet := h.quiet
    simp only [Session.step, numberOfDocuments]
    split <;> exact hquiet
  | commit =>
    refine ⟨h.tracks.commit, fun howner _ => hasChanges_commit ?_⟩
    rwa [Session.step, directoryOwner_commit] at howner
  | close owner => exact valid_ofDirectory h.tracks.commit.stores h.tracks.deleted_subset owner
  | reopen owner => exact valid_ofDirectory h.tracks.stores h.tracks.committed_subset owner

theorem Valid.right (h : s.Valid) : s.Right where
  isDeleted := h.tracks.holds.isDeleted
  numberOfDocuments := h.tracks.holds.numberOfDocuments.1
  termDocuments := h.tracks.holds.termDocuments
  reopened owner :=
    (Tracks.ofDirectory h.tracks.stores h.tracks.committed_subset owner).holds.isDeleted

/-- What the code takes for a change is one: the reader does not own the directory, or has not
committed anything since it was opened, or was changed since. -/
def Permitted (s : Session segment) : DeletionRequest segment → Prop
  | .commit | .close _ =>
    s.changed = true ∨ s.reader.hasChanges = false ∨ s.reader.directoryOwner = false
  | _ => True

def committedDirectory (s : Session segment) : Directory := (s.reader.commit s.directory).1

theorem Valid.commit_unchanged (h : s.Valid) (hp : s.Permitted .commit) (hs : s.changed = false) :
    s.committedDirectory = s.directory := by
  have hchanges : s.reader.hasChanges = false := by
    rcases hp with hc | hc | hc
    · rw [hs] at hc
      cases hc
    · exact hc
    · exact h.quiet hc hs
  unfold committedDirectory commit
  rw [hchanges]
  rfl

def AllPermitted : Session segment → List (DeletionRequest segment) → Prop
  | _, [] => True
  | s, request :: requests => s.Permitted request ∧ AllPermitted (s.step request) requests

/-- Every session of a run shows what the requests say, and a commit without a change leaves the
directory as it is. -/
def Follows : Session segment → List (DeletionRequest segment) → Prop
  | s, [] => s.Right
  | s, request :: requests =>
    s.Right ∧ ((request = .commit ∨ ∃ owner, request = .close owner) → s.changed = false →
      s.committedDirectory = s.directory) ∧ Follows (s.step request) requests

theorem Valid.follows : ∀ {s : Session segment} {requests : List (DeletionRequest segment)},
    s.Valid → s.AllPermitted requests → s.Follows requests
  | _, [], h, _ => h.right
  | s, request :: requests, h, hp => by
    refine ⟨h.right, fun hcommit hs => ?_, Valid.follows (h.step request) hp.2⟩
    rcases hcommit with rfl | ⟨owner, rfl⟩
    · exact h.commit_unchanged hp.1 hs
    · exact h.commit_unchanged hp.1 hs

/-- A run on an index whose `.del` file says that the documents `C` are deleted. -/
theorem run_follows (owner : Bool) (h : Stores segment C d)
    (hC : C ⊆ range segment.maximalDocument) {requests : List (DeletionRequest segment)}
    (hp : (ofDirectory segment owner d C).AllPermitted requests) :
    (ofDirectory segment owner d C).Follows requests :=
  (valid_ofDirectory h hC owner).follows hp

/-- The owner of the directory writes the segments file and still has changes. -/
theorem commit_owner {r : SegmentReader segment} {infos : SegmentInfos}
    (hchanges : r.hasChanges = true) (howner : r.directoryOwner = true)
    (hinfos : r.segmentInfos = some infos) (d : Directory) :
    (r.commit d).1 .segments = some infos.increased.fileBytes
      ∧ (r.commit d).2.hasChanges = true ∧ (r.commit d).2.directoryOwner = true
      ∧ (r.commit d).2.segmentInfos = some infos.increased := by
  unfold commit
  rw [if_pos hchanges, if_pos howner, hinfos]
  exact ⟨infos.writeToDirectory_segments (r.doCommit d).1, hchanges, howner, rfl⟩

def oneDocument : Segment Unit where
  name := []
  fieldInfos := []
  maximalDocument := 1
  maximalDocument_lt := by decide
  postings _ := []
  doc_lt := by simp
  compound _ := none

def oneSegment (version : ℤ) : SegmentInfos := ⟨version, 1, [([], 1)]⟩

theorem fits_oneSegment {version : ℤ} (h : 0 ≤ version ∧ version < 10) :
    (oneSegment version).Fits where
  version := by
    simp only [oneSegment]
    omega
  counter := by simp [oneSegment]
  length := by simp [oneSegment]
  segments := by simp [oneSegment]

def oneSegmentDirectory : Directory
  | .segments => some (oneSegment 0).fileBytes
  | _ => none

theorem stores_oneSegment : Stores oneDocument ∅ oneSegmentDirectory := Or.inr ⟨rfl, rfl⟩

def deletedReader : SegmentReader oneDocument :=
  (initWithSegmentInfo oneDocument true oneSegmentDirectory).deleteDocument 0

theorem segmentInfos_deletedReader : deletedReader.segmentInfos = some (oneSegment 0) := by
  have hread := (fits_oneSegment (show (0 : ℤ) ≤ 0 ∧ (0 : ℤ) < 10 by decide)).reads []
  rw [List.append_nil] at hread
  show (SegmentInfos.readFromDirectory (oneSegment 0).fileBytes).map Prod.fst = _
  rw [hread]
  rfl

/-- The second commit writes the segments file once more. -/
theorem commit_twice_ne : ∃ requests : List (DeletionRequest oneDocument),
    ¬ (ofDirectory oneDocument true oneSegmentDirectory ∅).Follows requests := by
  refine ⟨[.deleteDocument ⟨0, by decide⟩, .commit, .commit], fun h => ?_⟩
  obtain ⟨d, hd⟩ : ∃ d, d = deletedReader.commit oneSegmentDirectory := ⟨_, rfl⟩
  have hsame : (d.2.commit d.1).1 = d.1 := by
    rw [hd]
    exact h.2.2.2.2.2.1 (Or.inl rfl) rfl
  obtain ⟨hfile, hchanges, howner, hinfos⟩ :=
    commit_owner (r := deletedReader) rfl rfl segmentInfos_deletedReader oneSegmentDirectory
  rw [← hd] at hfile hchanges howner hinfos
  obtain ⟨hfile', -, -, -⟩ := commit_owner hchanges howner hinfos d.1
  rw [hsame, hfile, some.injEq] at hfile'
  exact (fits_oneSegment (show (0 : ℤ) ≤ 1 ∧ (1 : ℤ) < 10 by decide)).fileBytes_increased_ne
    (fits_oneSegment (show (0 : ℤ) ≤ 2 ∧ (2 : ℤ) < 10 by decide)) hfile'.symm

theorem run_follows_deleted :
    (ofDirectory oneDocument true oneSegmentDirectory ∅).Follows
      [.deleteDocument ⟨0, by decide⟩, .commit] :=
  run_follows true stores_oneSegment (empty_subset _) ⟨trivial, Or.inl rfl, trivial⟩

end Session

end Etoile.Lucene
