import Etoile.Lucene.IndexWriter

/-!
# The index modifier

`LCIndexModifier` has a writer or a reader of the directory open and closes the one to open the
other. Beside what is in the segments, the documents are kept that were added and not deleted since.
-/

namespace Etoile.Lucene

open List Option

variable {D T : Type}

def StoredDocument.delete (d : StoredDocument D) : StoredDocument D := { d with isDeleted := true }

/-- A reader on the segments; what it deletes is in its memory until it is closed. -/
structure DeletingReader (D : Type) where
  segmentInfos : List (SegmentInfo D)
  directory : List (SegmentInfo D)
  hasChanges : Bool

namespace DeletingReader

def deleteIn : ℕ → List (SegmentInfo D) → List (SegmentInfo D)
  | _, [] => []
  | docNum, si :: infos =>
    if docNum < si.numberOfDocuments then
      { si with documents := si.documents.modify docNum .delete } :: infos
    else si :: deleteIn (docNum - si.numberOfDocuments) infos

variable (r : DeletingReader D)

def deleteDocument (docNum : ℕ) : DeletingReader D :=
  { r with segmentInfos := deleteIn docNum r.segmentInfos, hasChanges := true }

/-- `-deleteTerm:`, where `contains t` is whether the term is in a document. -/
def deleteTerm (contains : T → D → Bool) (t : T) : DeletingReader D :=
  let found := (live r.segmentInfos).any fun d => contains t d.document
  { r with
    segmentInfos := r.segmentInfos.map fun si =>
      { si with documents := si.documents.map fun d =>
          if contains t d.document then d.delete else d }
    hasChanges := r.hasChanges || found }

def numberOfDocuments : ℕ :=
  (r.segmentInfos.map fun si => si.numberOfDocuments - si.documents.countP (·.isDeleted)).sum

/-- `-close` commits the changes. -/
def close : List (SegmentInfo D) := if r.hasChanges then r.segmentInfos else r.directory

end DeletingReader

/-- `indexWriter`, `indexReader`, or neither. -/
inductive IndexModifier.Opened (D : Type)
  | writer (segmentInfos : List (SegmentInfo D))
  | reader (segmentInfos : List (SegmentInfo D)) (hasChanges : Bool)
  | nothing

structure IndexModifier (D : Type) where
  directory : List (SegmentInfo D)
  opened : IndexModifier.Opened D
  added : ℕ
  /-- the documents that were added and not deleted since -/
  present : List (StoredDocument D)

inductive Operation (D T : Type)
  | addDocument (doc : D)
  | deleteDocument (docNum : ℕ)
  | deleteTerm (term : T)
  | flush
  | optimize
  | close

/-- The segments that are listed; one that is not in the directory cannot be read. -/
def readFromDirectory (directory : List (SegmentInfo D)) : Option (List (SegmentInfo D)) :=
  if directory.any (·.inRAM) then none else some directory

namespace IndexModifier

variable (p : MergePolicy) (contains : T → D → Bool) (m : IndexModifier D)

def closed : List (SegmentInfo D) :=
  match m.opened with
  | .writer infos => IndexWriter.close p ⟨infos, m.directory⟩
  | .reader infos hasChanges => DeletingReader.close ⟨infos, m.directory, hasChanges⟩
  | .nothing => m.directory

def openWriter : Option (IndexWriter D) :=
  (readFromDirectory (m.closed p)).map fun infos => ⟨infos, m.closed p⟩

def openReader : Option (DeletingReader D) :=
  (readFromDirectory (m.closed p)).map fun infos => ⟨infos, m.closed p, false⟩

def createIndexWriter : Option (IndexWriter D) :=
  match m.opened with
  | .writer infos => some ⟨infos, m.directory⟩
  | _ => m.openWriter p

def createIndexReader : Option (DeletingReader D) :=
  match m.opened with
  | .reader infos hasChanges => some ⟨infos, m.directory, hasChanges⟩
  | _ => m.openReader p

def withWriter (w : IndexWriter D) : IndexModifier D :=
  { m with directory := w.directory, opened := .writer w.segmentInfos }

def withReader (r : DeletingReader D) : IndexModifier D :=
  { m with directory := r.directory, opened := .reader r.segmentInfos r.hasChanges }

/-- What each method does; a number that no document has is not deleted. -/
def step : Operation D T → Option (IndexModifier D)
  | .addDocument doc => (m.createIndexWriter p).map fun w =>
      { m.withWriter (w.addDocument p ⟨m.added, doc, false⟩) with
        added := m.added + 1
        present := m.present ++ [⟨m.added, doc, false⟩] }
  | .deleteDocument docNum => (m.createIndexReader p).bind fun r =>
      ((stored r.segmentInfos)[docNum]?).map fun d =>
        { m.withReader (r.deleteDocument docNum) with
          present := m.present.filter fun e => e.addition ≠ d.addition }
  | .deleteTerm term => (m.createIndexReader p).map fun r =>
      { m.withReader (r.deleteTerm contains term) with
        present := m.present.filter fun e => !contains term e.document }
  | .flush =>
    match m.opened with
    | .writer _ => (m.openWriter p).map m.withWriter
    | _ => (m.openReader p).map m.withReader
  | .optimize => (m.createIndexWriter p).bind fun w => (w.optimize p).map m.withWriter
  | .close => some { m with directory := m.closed p, opened := .nothing }

/-- The receiver is `nil` where nothing is open. -/
def numberOfDocuments : ℕ :=
  match m.opened with
  | .writer infos => IndexWriter.numberOfDocuments ⟨infos, m.directory⟩
  | .reader infos hasChanges => DeletingReader.numberOfDocuments ⟨infos, m.directory, hasChanges⟩
  | .nothing => 0

def index : Option (List (StoredDocument D)) := (readFromDirectory m.directory).map live

def maximalDocument : ℕ :=
  match m.opened with
  | .reader infos _ => (stored infos).length
  | _ => (stored (m.closed p)).length

/-- `-initWithDirectory:analyzer:create:`; the documents that are there were added before. -/
def start (create : Bool) (directory : List (SegmentInfo D)) (added : ℕ) : IndexModifier D :=
  let directory := if create then [] else directory
  ⟨directory, .writer directory, added, live directory⟩

/-- The states of all runs, on any index of which each document was added once. -/
inductive Reachable : IndexModifier D → Prop
  | start {create : Bool} {directory : List (SegmentInfo D)} {added : ℕ} :
      Holds (live directory) added directory → (∀ si ∈ directory, si.inRAM = false) →
      Reachable (start create directory added)
  | step {m m' : IndexModifier D} {operation : Operation D T} :
      Reachable m → step p contains m operation = some m' → Reachable m'

/-- A writer is open on segments without deletions, or a reader, or no document is left. -/
def Countable : Prop :=
  match m.opened with
  | .writer infos => ∀ si ∈ infos, si.hasDeletions = false
  | .reader _ _ => True
  | .nothing => live m.directory = []

end IndexModifier

section Lists

variable {l : List (StoredDocument D)} {infos : List (SegmentInfo D)}

theorem undeleted_modify : ∀ {l : List (StoredDocument D)} {n : ℕ} {d : StoredDocument D},
    (l.map (·.addition)).Nodup → l[n]? = some d →
      undeleted (l.modify n .delete) = (undeleted l).filter fun e => e.addition ≠ d.addition
  | e :: l, 0, d, hnodup, hd => by
    obtain rfl : e = d := by simpa using hd
    have hother : ∀ x ∈ l, x.addition ≠ e.addition := fun x hx heq =>
      (nodup_cons.1 hnodup).1 (mem_map.2 ⟨x, hx, heq⟩)
    have hrest : (undeleted l).filter (fun x => x.addition ≠ e.addition) = undeleted l :=
      filter_eq_self.2 fun x hx => by simpa using hother x (mem_of_mem_filter hx)
    rcases he : e.isDeleted with _ | _
    · simpa [undeleted, StoredDocument.delete, he] using hrest.symm
    · simpa [undeleted, StoredDocument.delete, he] using hrest.symm
  | e :: l, n + 1, d, hnodup, hd => by
    have hd : l[n]? = some d := by simpa using hd
    have hne : e.addition ≠ d.addition := fun heq =>
      (nodup_cons.1 hnodup).1 (mem_map.2 ⟨d, mem_of_getElem? hd, heq.symm⟩)
    have ih := undeleted_modify (nodup_cons.1 hnodup).2 hd
    unfold undeleted at ih ⊢
    rcases he : e.isDeleted with _ | _
    · simp [he, hne, ih]
    · simp [he, ih]

theorem undeleted_map (P : D → Bool) (l : List (StoredDocument D)) :
    undeleted (l.map fun d => if P d.document then d.delete else d)
      = (undeleted l).filter fun d => !P d.document := by
  rw [undeleted, undeleted, List.filter_map, List.filter_filter]
  have hkept : (l.filter ((fun d : StoredDocument D => !d.isDeleted)
      ∘ fun d => if P d.document then d.delete else d))
        = l.filter fun d => !P d.document && !d.isDeleted := by
    refine filter_congr fun d _ => ?_
    rcases hP : P d.document with _ | _
    · simp [hP]
    · simp [hP, StoredDocument.delete]
  rw [hkept]
  refine (map_congr_left (g := id) fun d hd => ?_).trans (map_id _)
  have hP : P d.document = false ∧ d.isDeleted = false := by simpa using (mem_filter.1 hd).2
  simp [hP.1]

theorem modify_append_left {l m : List (StoredDocument D)} :
    ∀ {n : ℕ}, n < l.length → (l ++ m).modify n .delete = l.modify n .delete ++ m := by
  induction l with
  | nil => simp
  | cons d l ih =>
    rintro (_ | n) hn
    · simp
    · simpa using ih (by simpa using hn)

theorem stored_deleteIn : ∀ {infos : List (SegmentInfo D)} {n : ℕ},
    stored (DeletingReader.deleteIn n infos) = (stored infos).modify n .delete
  | [], n => by simp [DeletingReader.deleteIn, stored]
  | si :: infos, n => by
    have hcons : ∀ (si : SegmentInfo D) infos,
        stored (si :: infos) = si.documents ++ stored infos := fun _ _ => rfl
    unfold DeletingReader.deleteIn SegmentInfo.numberOfDocuments
    split_ifs with h
    · rw [hcons, hcons, modify_append_left h]
    · have hn : n = si.documents.length + (n - si.documents.length) := by omega
      rw [hcons, hcons, stored_deleteIn]
      conv_rhs => rw [hn]
      exact (modifyTailIdx_add ..).symm

theorem map_deleteIn_inRAM : ∀ {infos : List (SegmentInfo D)} {n : ℕ},
    (DeletingReader.deleteIn n infos).map (·.inRAM) = infos.map (·.inRAM)
  | [], _ => rfl
  | si :: infos, n => by
    unfold DeletingReader.deleteIn
    split_ifs
    · rfl
    · rw [map_cons, map_cons, map_deleteIn_inRAM]

end Lists

structure Committed (docs : List (StoredDocument D)) (added : ℕ) (infos : List (SegmentInfo D)) :
    Prop where
  holds : Holds docs added infos
  onDisk : ∀ si ∈ infos, si.inRAM = false

variable {docs : List (StoredDocument D)} {added : ℕ} {infos : List (SegmentInfo D)}

theorem Committed.readFromDirectory (h : Committed docs added infos) :
    readFromDirectory infos = some infos := by
  have hnone : infos.any (·.inRAM) = false := by simpa using h.onDisk
  simp [Lucene.readFromDirectory, hnone]

/-- Deleting documents keeps an index one, where the others are those that are to be left. -/
theorem Committed.of_delete (h : Committed docs added infos) {docs' : List (StoredDocument D)}
    {infos' : List (SegmentInfo D)} (hlive : live infos' = docs')
    (hadditions : (stored infos').map (·.addition) = (stored infos).map (·.addition))
    (hdisk : infos'.map (·.inRAM) = infos.map (·.inRAM)) : Committed docs' added infos' := by
  refine ⟨⟨hlive, hadditions ▸ h.holds.nodup, fun d hd => ?_⟩, fun si hsi => ?_⟩
  · obtain ⟨e, he, heq⟩ := mem_map.1 (hadditions ▸ mem_map_of_mem hd)
    exact heq ▸ h.holds.lt e he
  · obtain ⟨sj, hsj, heq⟩ := mem_map.1 (hdisk ▸ mem_map_of_mem hsi)
    exact heq ▸ h.onDisk sj hsj

namespace DeletingReader

/-- Until something is deleted the directory is what the reader has. -/
structure Inv (docs : List (StoredDocument D)) (added : ℕ) (r : DeletingReader D) : Prop where
  segments : Committed docs added r.segmentInfos
  unchanged : r.hasChanges = false → Committed docs added r.directory

variable {r : DeletingReader D}

theorem Inv.close (h : Inv docs added r) : Committed docs added r.close := by
  unfold DeletingReader.close
  split_ifs with hchanges
  · exact h.segments
  · exact h.unchanged (by simpa using hchanges)

theorem Inv.deleteDocument (h : Inv docs added r) {n : ℕ} {d : StoredDocument D}
    (hd : (stored r.segmentInfos)[n]? = some d) :
    Inv (docs.filter fun e => e.addition ≠ d.addition) added (r.deleteDocument n) := by
  refine ⟨h.segments.of_delete ?_ ?_ map_deleteIn_inRAM, nofun⟩
  · rw [live, DeletingReader.deleteDocument, stored_deleteIn,
      undeleted_modify h.segments.holds.nodup hd, ← h.segments.holds.live_eq, live]
  · rw [DeletingReader.deleteDocument, stored_deleteIn]
    refine ext_getElem? fun i => ?_
    rcases eq_or_ne n i with rfl | hne
    · simp [StoredDocument.delete, Function.comp_def]
    · simp [hne]

theorem Inv.deleteTerm (h : Inv docs added r) (contains : T → D → Bool) (t : T) :
    Inv (docs.filter fun d => !contains t d.document) added (r.deleteTerm contains t) := by
  have hstored : stored (r.deleteTerm contains t).segmentInfos
      = (stored r.segmentInfos).map fun d => if contains t d.document then d.delete else d := by
    simp [DeletingReader.deleteTerm, stored, flatMap_map, map_flatMap]
  refine ⟨h.segments.of_delete ?_ ?_ ?_, fun hchanges => ?_⟩
  · rw [live, hstored, undeleted_map, ← h.segments.holds.live_eq, live]
  · rw [hstored, List.map_map]
    refine map_congr_left fun d _ => ?_
    simp only [Function.comp_apply]
    split_ifs <;> rfl
  · simp [DeletingReader.deleteTerm]
  · obtain ⟨hr, hfound⟩ : r.hasChanges = false
        ∧ ∀ d ∈ live r.segmentInfos, contains t d.document = false := by
      simpa [DeletingReader.deleteTerm] using hchanges
    rw [h.segments.holds.live_eq] at hfound
    rw [filter_eq_self.2 fun d hd => by simp [hfound d hd]]
    exact h.unchanged hr

theorem numberOfDocuments_eq (infos directory : List (SegmentInfo D)) (hasChanges : Bool) :
    numberOfDocuments ⟨infos, directory, hasChanges⟩ = (live infos).length := by
  induction infos with
  | nil => rfl
  | cons si infos ih =>
    have hcount := length_eq_countP_add_countP (fun d : StoredDocument D => d.isDeleted)
      (l := si.documents)
    have hkept : (undeleted si.documents).length
        = si.documents.countP fun d => decide ¬d.isDeleted = true := by
      simp [undeleted, countP_eq_length_filter]
    have hlive : live (si :: infos) = undeleted si.documents ++ live infos := undeleted_append ..
    rw [hlive, length_append, ← ih]
    simp only [numberOfDocuments, map_cons, sum_cons, SegmentInfo.numberOfDocuments]
    omega

end DeletingReader

theorem IndexWriter.Inv.of_committed (h : Committed docs added infos) :
    IndexWriter.Inv docs added ⟨infos, infos⟩ :=
  ⟨h.holds, ⟨[], by simp, nofun⟩, h.onDisk⟩

theorem IndexWriter.Inv.close {p : MergePolicy} {w : IndexWriter D}
    (h : IndexWriter.Inv docs added w) : Committed docs added (w.close p) := by
  obtain ⟨hflushed, heq⟩ := h.flushRamSegments (p := p)
  rw [IndexWriter.close, ← heq]
  exact ⟨hflushed.holds, heq ▸ hflushed.onDisk⟩

namespace IndexModifier

variable {p : MergePolicy} {contains : T → D → Bool} {m m' : IndexModifier D}

def Inv (m : IndexModifier D) : Prop :=
  match m.opened with
  | .writer infos => IndexWriter.Inv m.present m.added ⟨infos, m.directory⟩
  | .reader infos hasChanges =>
    DeletingReader.Inv m.present m.added ⟨infos, m.directory, hasChanges⟩
  | .nothing => Committed m.present m.added m.directory

theorem Inv.closed (h : m.Inv) : Committed m.present m.added (m.closed p) := by
  unfold Inv at h
  unfold IndexModifier.closed
  rcases hopened : m.opened with infos | ⟨infos, hasChanges⟩ | _ <;> rw [hopened] at h
  · exact IndexWriter.Inv.close h
  · exact DeletingReader.Inv.close h
  · exact h

theorem Inv.openWriter (h : m.Inv) : m.openWriter p = some ⟨m.closed p, m.closed p⟩ := by
  rw [IndexModifier.openWriter, h.closed.readFromDirectory, map_some]

theorem Inv.openReader (h : m.Inv) : m.openReader p = some ⟨m.closed p, m.closed p, false⟩ := by
  rw [IndexModifier.openReader, h.closed.readFromDirectory, map_some]

theorem Inv.createIndexWriter (h : m.Inv) :
    ∃ w, m.createIndexWriter p = some w ∧ IndexWriter.Inv m.present m.added w := by
  have hnew := IndexWriter.Inv.of_committed (h.closed (p := p))
  unfold IndexModifier.createIndexWriter
  rcases hopened : m.opened with infos | ⟨infos, hasChanges⟩ | _
  · exact ⟨_, rfl, by simpa [Inv, hopened] using h⟩
  · exact ⟨_, h.openWriter, hnew⟩
  · exact ⟨_, h.openWriter, hnew⟩

theorem Inv.createIndexReader (h : m.Inv) :
    ∃ r, m.createIndexReader p = some r ∧ DeletingReader.Inv m.present m.added r
      ∧ (stored r.segmentInfos).length = m.maximalDocument p := by
  have hnew : DeletingReader.Inv m.present m.added ⟨m.closed p, m.closed p, false⟩ :=
    ⟨h.closed, fun _ => h.closed⟩
  unfold IndexModifier.createIndexReader maximalDocument
  rcases hopened : m.opened with infos | ⟨infos, hasChanges⟩ | _
  · exact ⟨_, h.openReader, hnew, rfl⟩
  · exact ⟨_, rfl, by simpa [Inv, hopened] using h, rfl⟩
  · exact ⟨_, h.openReader, hnew, rfl⟩

theorem index_of_committed {directory : List (SegmentInfo D)} (hm : m.directory = directory)
    (h : Committed m.present added directory) : m.index = some m.present := by
  rw [IndexModifier.index, hm, h.readFromDirectory, map_some, h.holds.live_eq]

/-- Every operation succeeds, if a document has the number to delete; the index that is left is
that of the present documents. -/
theorem Inv.step_spec (h : m.Inv) (contains : T → D → Bool) (operation : Operation D T)
    (hvalid : ∀ n, operation = .deleteDocument n → n < m.maximalDocument p) :
    ∃ m', m.step p contains operation = some m' ∧ m'.Inv
      ∧ (operation = .flush ∨ operation = .close → m'.index = some m'.present) := by
  have hclosed := h.closed (p := p)
  cases operation with
  | addDocument doc =>
    obtain ⟨w, hw, hinv⟩ := h.createIndexWriter (p := p)
    refine ⟨_, by rw [step, hw, map_some], ?_, by simp⟩
    exact hinv.addDocument doc
  | deleteDocument docNum =>
    obtain ⟨r, hr, hinv, hlength⟩ := h.createIndexReader (p := p)
    have hlt : docNum < (stored r.segmentInfos).length := hlength ▸ hvalid docNum rfl
    have hd := getElem?_eq_getElem hlt
    refine ⟨_, by rw [step, hr, bind_some, hd, map_some], ?_, by simp⟩
    exact hinv.deleteDocument hd
  | deleteTerm term =>
    obtain ⟨r, hr, hinv, -⟩ := h.createIndexReader (p := p)
    refine ⟨_, by rw [step, hr, map_some], ?_, by simp⟩
    exact hinv.deleteTerm contains term
  | flush =>
    have hwriter : (m.withWriter ⟨m.closed p, m.closed p⟩).Inv :=
      IndexWriter.Inv.of_committed hclosed
    have hreader : (m.withReader ⟨m.closed p, m.closed p, false⟩).Inv := ⟨hclosed, fun _ => hclosed⟩
    rw [step]
    rcases m.opened with infos | ⟨infos, hasChanges⟩ | _
    · exact ⟨_, by rw [h.openWriter, map_some], hwriter,
        fun _ => index_of_committed rfl hclosed⟩
    · exact ⟨_, by rw [h.openReader, map_some], hreader,
        fun _ => index_of_committed rfl hclosed⟩
    · exact ⟨_, by rw [h.openReader, map_some], hreader,
        fun _ => index_of_committed rfl hclosed⟩
  | optimize =>
    obtain ⟨w, hw, hinv⟩ := h.createIndexWriter (p := p)
    obtain ⟨w', hw', hinv', -⟩ := hinv.optimize (p := p)
    refine ⟨_, by rw [step, hw, bind_some, hw', map_some], ?_, by simp⟩
    exact hinv'
  | close => exact ⟨_, rfl, hclosed, fun _ => index_of_committed rfl hclosed⟩

theorem Inv.step (h : m.Inv) {operation : Operation D T}
    (hstep : m.step p contains operation = some m') : m'.Inv := by
  have hvalid : ∀ n, operation = .deleteDocument n → n < m.maximalDocument p := by
    rintro n rfl
    obtain ⟨r, hr, -, hlength⟩ := h.createIndexReader (p := p)
    by_contra hle
    rw [IndexModifier.step, hr, bind_some, getElem?_eq_none (by omega)] at hstep
    cases hstep
  obtain ⟨t, ht, hinv, -⟩ := h.step_spec contains operation hvalid
  rw [ht] at hstep
  exact some.inj hstep ▸ hinv

theorem Reachable.inv (h : Reachable p contains m) : m.Inv := by
  induction h with
  | @start create directory added hholds hdisk =>
    rcases create with _ | _
    · exact IndexWriter.Inv.of_committed ⟨hholds, hdisk⟩
    · exact IndexWriter.Inv.of_committed ⟨⟨rfl, by simp [stored], by simp [stored]⟩, by simp⟩
  | step _ hstep ih => exact ih.step hstep

/-- The count of a writer is that of its segments, with the documents that are deleted in them. -/
theorem Inv.numberOfDocuments_eq_iff (h : m.Inv) :
    m.numberOfDocuments = m.present.length ↔ m.Countable := by
  unfold Inv at h
  unfold numberOfDocuments Countable
  rcases hopened : m.opened with infos | ⟨infos, hasChanges⟩ | _ <;> rw [hopened] at h
  · have hlive : m.present = live infos := h.holds.live_eq.symm
    have hall : (live infos).length = (stored infos).length
        ↔ ∀ d ∈ stored infos, d.isDeleted = false := by
      simp [live, undeleted, length_filter_eq_length_iff]
    have hsegments : (∀ d ∈ stored infos, d.isDeleted = false)
        ↔ ∀ si ∈ infos, si.hasDeletions = false := by
      simp only [stored, SegmentInfo.hasDeletions, List.mem_flatMap, List.any_eq_false,
        Bool.not_eq_true]
      refine ⟨fun h si hsi d hd => h d ⟨si, hsi, hd⟩, ?_⟩
      rintro h d ⟨si, hsi, hd⟩
      exact h si hsi d hd
    change totalDocuments infos = m.present.length ↔ ∀ si ∈ infos, si.hasDeletions = false
    rw [hlive, totalDocuments_eq, eq_comm, hall, hsegments]
  · have hlive : m.present = live infos := h.segments.holds.live_eq.symm
    simp [DeletingReader.numberOfDocuments_eq, hlive]
  · have hlive : m.present = live m.directory := h.holds.live_eq.symm
    rw [hlive, length_eq_zero_iff.symm, eq_comm]

/-- In every run the index is exactly that of the present documents after each flush and close, and
the count is theirs exactly if the state is countable. -/
theorem sequentially_consistent_iff (h : Reachable p contains m) :
    (∀ operation : Operation D T,
      (∀ n, operation = .deleteDocument n → n < m.maximalDocument p) →
        ∃ m', m.step p contains operation = some m'
          ∧ (operation = .flush ∨ operation = .close → m'.index = some m'.present))
    ∧ (m.numberOfDocuments = m.present.length ↔ m.Countable) := by
  refine ⟨fun operation hvalid => ?_, h.inv.numberOfDocuments_eq_iff⟩
  obtain ⟨m', hm', -, hindex⟩ := h.inv.step_spec contains operation hvalid
  exact ⟨m', hm', hindex⟩

def defaults : MergePolicy := ⟨10, 10, 2 ^ 31 - 1, true, by simp, by simp⟩

def hasWord (term document : String) : Bool := term == document

/-- After one document was added and deleted by its number, and then another one was added. -/
def readded : IndexModifier String :=
  let deleted := ⟨[⟨0, "a", true⟩], false, true⟩
  ⟨[deleted], .writer [deleted, ⟨[⟨1, "b", false⟩], true, false⟩], 2, [⟨1, "b", false⟩]⟩

theorem reachable_readded : Reachable defaults hasWord readded := by
  have hfew : ∀ w : IndexWriter String, totalDocuments w.segmentInfos < 10 →
      w.maybeMergeSegments defaults 0 = w := by
    intro w hw
    have hsub := (rtakeWhile_suffix (fun si : SegmentInfo String =>
      decide (si.numberOfDocuments < defaults.targetMergeDocs 0)) w.segmentInfos).sublist
    have hle := ((hsub.map fun si => si.numberOfDocuments).sum_le_sum (by simp)).trans_lt hw
    rw [IndexWriter.maybeMergeSegments, if_neg]
    rintro ⟨-, hmerge⟩
    exact absurd (hmerge.trans_lt hle) (by simp [MergePolicy.targetMergeDocs, defaults])
  have hstart : Reachable defaults hasWord (start true [] 0) :=
    .start ⟨rfl, by simp [stored], by simp [stored]⟩ (by simp)
  have hadded : Reachable defaults hasWord
      ⟨[], .writer [⟨[⟨0, "a", false⟩], true, false⟩], 1, [⟨0, "a", false⟩]⟩ := by
    refine hstart.step (show step defaults hasWord _ (.addDocument "a") = _ from ?_)
    simp [step, start, createIndexWriter, IndexWriter.addDocument, hfew, withWriter,
      totalDocuments, SegmentInfo.numberOfDocuments, live, undeleted, stored]
  have hdeleted : Reachable defaults hasWord
      ⟨[⟨[⟨0, "a", false⟩], false, true⟩], .reader [⟨[⟨0, "a", true⟩], false, true⟩] true, 1, []⟩ :=
    hadded.step (show step defaults hasWord _ (.deleteDocument 0) = _ from rfl)
  refine hdeleted.step (show step defaults hasWord _ (.addDocument "b") = _ from ?_)
  simp [step, createIndexWriter, openWriter, closed, DeletingReader.close, readFromDirectory,
    IndexWriter.addDocument, hfew, withWriter, totalDocuments, SegmentInfo.numberOfDocuments,
    readded]

theorem sequentially_consistent_readded :
    (∃ m', readded.step defaults hasWord .flush = some m' ∧ m'.index = some m'.present)
    ∧ (readded.numberOfDocuments = readded.present.length ↔ readded.Countable) := by
  obtain ⟨hsteps, hcount⟩ := sequentially_consistent_iff reachable_readded
  obtain ⟨m', hm', hindex⟩ := hsteps .flush nofun
  exact ⟨⟨m', hm', hindex (.inl rfl)⟩, hcount⟩

/-- The writer counts both documents. -/
theorem not_sequentially_consistent :
    ¬∀ m, Reachable defaults hasWord m → m.numberOfDocuments = m.present.length := by
  intro h
  have hcount : 2 = 1 := h readded reachable_readded
  simp at hcount

/-- The directory is that of the present documents, in one segment, and nothing is left to merge. -/
structure Optimized (p : MergePolicy) (m : IndexModifier D) : Prop where
  index : m.index = some m.present
  single : m.directory.length ≤ 1
  clean : ∀ si ∈ m.directory, si.hasDeletions = false
    ∧ (p.useCompoundFile = true → si.usesCompoundFile = true)
  count : m.numberOfDocuments = m.present.length

/-- In every run `-optimize` ends, and the count is right again after it. -/
theorem optimized_of_reachable (h : Reachable p contains m) :
    ∃ m', m.step p contains .optimize = some m' ∧ m'.present = m.present ∧ Optimized p m' := by
  obtain ⟨w, hw, hinv⟩ := h.inv.createIndexWriter (p := p)
  obtain ⟨w', hw', hinv', heq, htest⟩ := hinv.optimize (p := p)
  obtain ⟨hsingle, hclean⟩ := IndexWriter.clean_of_needsMerge htest
  have hm : (m.withWriter w').Inv := hinv'
  have hcount := hm.numberOfDocuments_eq_iff.2 fun si hsi => (hclean si hsi).1
  have hholds := hinv'.holds
  rw [heq] at hsingle hclean hholds
  exact ⟨m.withWriter w', by rw [step, hw, bind_some, hw', map_some], rfl,
    index_of_committed rfl ⟨hholds, hinv'.onDisk⟩, hsingle, hclean, hcount⟩

theorem optimized_readded : ∃ m', readded.step defaults hasWord .optimize = some m'
    ∧ m'.present = readded.present ∧ Optimized defaults m' :=
  optimized_of_reachable reachable_readded

end IndexModifier

end Etoile.Lucene
