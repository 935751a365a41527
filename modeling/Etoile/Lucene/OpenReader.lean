import Etoile.Lucene.MultiNorms

/-!
# The norms of an open index

An index of one segment is read by its segment reader, any other by a multi reader over those of its
segments.  What both do with norms is true to a table of norms for each segment.
-/

namespace Etoile.Lucene

open Function IndexMultiReader List NormTable

variable {Term : Type}

/-- What `+openDirectory:` returns. -/
inductive OpenReader (Term : Type)
  | segment (s : SubReader Term)
  | multi (m : IndexMultiReader Term)

namespace OpenReader

/-- `+segmentReaderWithInfo:` or, when the reader owns the directory,
`+segmentReaderWithInfos:info:close:`. -/
def openSegment (owner : Bool) (d : Directory) (segment : Segment Term) : SubReader Term :=
  ⟨segment, SegmentReader.initWithSegmentInfo segment owner d⟩

def openDirectory (segments : List (Segment Term)) (d : Directory) : OpenReader Term :=
  match segments with
  | [only] => .segment (openSegment true d only)
  | segments => .multi (.initWithDirectory d (segments.map (openSegment false d)))

def subReaders : OpenReader Term → List (SubReader Term)
  | .segment s => [s]
  | .multi m => m.subReaders

def sendNorms (memory : NSString → Memory) (field : NSString) :
    OpenReader Term → Option (List UInt8 × OpenReader Term)
  | .segment s =>
    let sent := s.reader.sendNorms (memory s.segment.name) field
    some (sent.1, .segment { s with reader := sent.2 })
  | .multi m => (m.sendNorms memory field).map fun sent => (sent.1, .multi sent.2)

def setNorms (memory : NSString → Memory) (field : NSString) (bytes : List UInt8) (offset : ℕ) :
    OpenReader Term → Option (List UInt8)
  | .segment s => s.reader.setNorms (memory s.segment.name) field bytes offset
  | .multi m => m.setNorms memory field bytes offset

def setNorm (memory : NSString → Memory) (n : ℕ) (field : NSString) (value : UInt8) :
    OpenReader Term → Option (OpenReader Term)
  | .segment s =>
    (s.reader.setNorm (memory s.segment.name) n field value).map fun reader =>
      .segment { s with reader }
  | .multi m => (m.setNorm memory n field value).map .multi

def deleteDocument (n : ℕ) : OpenReader Term → Option (OpenReader Term)
  | .segment s => some (.segment { s with reader := s.reader.deleteDocument n })
  | .multi m => (m.deleteDocument n).map .multi

def undeleteAll : OpenReader Term → OpenReader Term
  | .segment s => .segment { s with reader := s.reader.sendUndeleteAll }
  | .multi m => .multi m.undeleteAll

def commit (d : Directory) : OpenReader Term → Directory × OpenReader Term
  | .segment s =>
    let committed := s.reader.commit d
    (committed.1, .segment { s with reader := committed.2 })
  | .multi m =>
    let committed := m.commit d
    (committed.1, .multi committed.2)

end OpenReader

/-- An open index with the norms `tables` of its segments. -/
structure OpenReader.Holds (segments : List (Segment Term)) (tables : List NormTable)
    (reader : OpenReader Term) (d : Directory) : Prop where
  opened : reader.subReaders.map (·.segment) = segments
  names : (segments.map (·.name)).Nodup
  each : HoldEach tables reader.subReaders d
  keeps : ∀ m, reader = .multi m → m.Keeps tables

namespace OpenReader

def CanCopy (reader : OpenReader Term) (field : NSString) : Prop :=
  ∀ s ∈ reader.subReaders, s.reader.Uncached field

/-- A multi reader has cached the norms, or there are none, or it can copy them. -/
def CanRead (reader : OpenReader Term) (field : NSString) : Prop :=
  match reader with
  | .segment _ => True
  | .multi m => m.normsCache field ≠ none ∨ m.hasNorms field = false ∨ reader.CanCopy field

variable {segments : List (Segment Term)} {tables : List NormTable} {reader : OpenReader Term}
  {d : Directory} {field : NSString}

theorem Holds.sizes (h : Holds segments tables reader d) :
    sizes reader.subReaders = segments.map (·.maximalDocument) := by
  rw [← h.opened, map_map]
  rfl

theorem Holds.segment {s : SubReader Term} (h : Holds segments tables (.segment s) d) :
    ∃ t, tables = [t] ∧ segments = [s.segment] ∧ HoldsNorms t s.reader d := by
  have heach := h.each
  rw [HoldEach, subReaders, forall₂_cons_right_iff] at heach
  obtain ⟨t, _, ht, hnil, rfl⟩ := heach
  rw [forall₂_nil_right_iff] at hnil
  subst hnil
  exact ⟨t, rfl, h.opened.symm, ht⟩

theorem Holds.of_segment {segment : Segment Term} {r : SegmentReader segment} {t : NormTable}
    (h : HoldsNorms t r d) : Holds [segment] [t] (.segment ⟨segment, r⟩) d where
  opened := rfl
  names := by simp
  each := Forall₂.cons h Forall₂.nil
  keeps _ hm := by cases hm

theorem concatenated_one (size : ℕ) (t : NormTable) (field : NSString) :
    concatenated [size] [t] field = t.shown size field := by
  simp [concatenated]

theorem Holds.multi {m m' : IndexMultiReader Term} {tables' : List NormTable}
    (h : Holds segments tables (.multi m) d) {d' : Directory}
    (hopened : m'.subReaders.map (·.segment) = m.subReaders.map (·.segment))
    (heach : HoldEach tables' m'.subReaders d') (hkeeps : m'.Keeps tables') :
    Holds segments tables' (.multi m') d' where
  opened := hopened.trans h.opened
  names := h.names
  each := heach
  keeps _ hm := by
    cases hm
    exact hkeeps

theorem Holds.sendNorms (h : Holds segments tables reader d) (hread : reader.CanRead field)
    (memory : NSString → Memory) :
    ∃ reader', reader.sendNorms memory field
        = some (concatenated (segments.map (·.maximalDocument)) tables field, reader')
      ∧ Holds segments tables reader' d := by
  rcases reader with s | m
  · obtain ⟨t, rfl, rfl, hs⟩ := h.segment
    obtain ⟨hbytes, hs'⟩ := hs.sendNorms (memory s.segment.name) field
    refine ⟨_, ?_, of_segment hs'⟩
    rw [map_cons, map_nil, concatenated_one, ← hbytes]
    rfl
  · have hkeeps := h.keeps m rfl
    rw [← h.sizes]
    unfold OpenReader.sendNorms IndexMultiReader.sendNorms
    simp only
    rcases hcache : m.normsCache field with _ | bytes
    · simp only
      rcases hnorms : m.hasNorms field with _ | _
      · have hnone : ∀ s ∈ m.subReaders, s.reader.hasNorms field = false := by
          simpa [hasNorms] using hnorms
        have hconcat := h.each.concatenated_of_none hnone
        refine ⟨_, ?_, h⟩
        rw [hconcat, hkeeps.maxDoc]
        rfl
      · have hcopy : CanCopy (.multi m) field := by
          rcases hread with hc | hn | hcopy
          · exact absurd hcache hc
          · rw [hnorms] at hn
            cases hn
          · exact hcopy
        have hall := h.each.readNorms hcopy memory 0 0 [] (by simp)
        change readNorms memory field 0 m.subReaders _ [] = _ at hall
        rw [Nat.zero_add, replaceBytesInRange_nil, OpenReader.subReaders, ← hkeeps.starts] at hall
        rw [if_pos rfl, hall]
        refine ⟨_, rfl, h.multi rfl h.each ⟨hkeeps.starts, hkeeps.maxDoc, fun field' bytes hb => ?_,
          hkeeps.changes⟩⟩
        by_cases hf : field' = field
        · subst hf
          simp only [update_self, Option.some.injEq] at hb
          exact hb.symm
        · simp only [update_of_ne hf] at hb
          exact hkeeps.cache field' bytes hb
    · refine ⟨_, ?_, h⟩
      rw [hkeeps.cache field bytes hcache]
      rfl

theorem Holds.setNorms (h : Holds segments tables reader d) (hcopy : reader.CanCopy field)
    (memory : NSString → Memory) {bytes : List UInt8} {offset : ℕ} (hle : offset ≤ bytes.length) :
    reader.setNorms memory field bytes offset = replaceBytesInRange bytes offset
      (concatenated (segments.map (·.maximalDocument)) tables field) := by
  rcases reader with s | m
  · obtain ⟨t, rfl, rfl, hs⟩ := h.segment
    rw [map_cons, map_nil, concatenated_one]
    exact hs.setNorms (hcopy s (by simp [subReaders])) _ _ _
  · have hkeeps := h.keeps m rfl
    have hlen := h.each.length_concatenated field
    rw [OpenReader.subReaders] at hlen
    rw [← h.sizes, OpenReader.subReaders]
    have hall : ∀ data : List UInt8, offset ≤ data.length →
        readNorms memory field offset m.subReaders m.starts data
          = replaceBytesInRange data offset
            (concatenated (Lucene.sizes m.subReaders) tables field) := by
      intro data hdata
      have hread := h.each.readNorms hcopy memory offset 0 data hdata
      rwa [OpenReader.subReaders, ← hkeeps.starts] at hread
    have htwice : ∀ x : List UInt8, x.length = m.maxDoc →
        (replaceBytesInRange bytes offset x).bind
            (readNorms memory field offset m.subReaders m.starts)
          = replaceBytesInRange bytes offset
            (concatenated (Lucene.sizes m.subReaders) tables field) := by
      intro x hx
      have hsame : x.length
          = (concatenated (Lucene.sizes m.subReaders) tables field).length := by
        rw [hx, hlen, hkeeps.maxDoc]
      rw [← replaceBytesInRange_again hsame]
      refine Option.bind_congr fun data hdata => hall data ?_
      rw [replaceBytesInRange, if_pos hle, Option.some.injEq] at hdata
      rw [← hdata, length_append, length_append, length_take]
      omega
    unfold OpenReader.setNorms IndexMultiReader.setNorms
    simp only
    rcases hcache : m.normsCache field with _ | cached
    · simp only
      split_ifs
      · rw [Option.bind_some, hall bytes hle]
      · exact htwice _ (by simp [createFakeNorms])
    · refine htwice _ ?_
      rw [hkeeps.cache field cached hcache, length_take, hlen, hkeeps.maxDoc, Nat.min_self]

theorem Holds.changeSubReader {m : IndexMultiReader Term} (h : Holds segments tables (.multi m) d)
    {doc : ℕ} (hdoc : doc < (segments.map (·.maximalDocument)).sum)
    (cache : NSString → Option (List UInt8))
    (change : (s : SubReader Term) → ℕ → Option (SegmentReader s.segment)) :
    ∃ i s t, InBlock (segments.map (·.maximalDocument)) i doc ∧ tables[i]? = some t ∧
      HoldsNorms t s.reader d ∧
      doc - start (segments.map (·.maximalDocument)) i < s.segment.maximalDocument ∧
      IndexMultiReader.changeSubReader { m with normsCache := cache } doc change
        = (change s (doc - start (segments.map (·.maximalDocument)) i)).map (fun reader =>
            { m with normsCache := cache, subReaders := m.subReaders.set i { s with reader } }) ∧
      m.subReaders[i]? = some s ∧
      ∀ t' reader, HoldsNorms t' reader d →
        HoldEach (tables.set i t') (m.subReaders.set i { s with reader }) d := by
  have hkeeps := h.keeps m rfl
  rw [← h.sizes, OpenReader.subReaders] at hdoc ⊢
  obtain ⟨i, hi, hblock⟩ := exists_inBlock hdoc
  have hlen : (Lucene.sizes m.subReaders).length = m.subReaders.length := by simp [Lucene.sizes]
  obtain ⟨s, hs⟩ : ∃ s, m.subReaders[i]? = some s :=
    ⟨_, getElem?_eq_getElem (hlen ▸ hi)⟩
  obtain ⟨t, ht, hr, hset⟩ := h.each.set hs
  have hsize : (Lucene.sizes m.subReaders)[i]? = some s.segment.maximalDocument := by
    rw [Lucene.sizes, getElem?_map, hs, Option.map_some]
  have hlt := hblock.2
  rw [start_succ hsize] at hlt
  have hlo := hblock.1
  refine ⟨i, s, t, hblock, ht, hr, by omega, ?_, hs, hset⟩
  have hstarts : m.starts = (range ((Lucene.sizes m.subReaders).length + 1)).map
      (start (Lucene.sizes m.subReaders)) := by
    rw [hkeeps.starts, startsFrom_eq]
    simp
  have hsearch := MultiReader.searchStarts_eq hstarts hblock
  rw [hlen] at hsearch
  unfold IndexMultiReader.changeSubReader
  simp only [hsearch, Option.bind_eq_bind, Option.bind_some,
    show objectAtIndex m.subReaders (i : ℤ) = some s from hs,
    MultiReader.objectAtIndex_starts hstarts hi.le, Int.toNat_natCast]
  rcases change s (doc - start (Lucene.sizes m.subReaders) i) <;> rfl

theorem map_segment_set {subs : List (SubReader Term)} {i : ℕ} {s : SubReader Term}
    (hs : subs[i]? = some s) (r : SegmentReader s.segment) :
    (subs.set i ⟨s.segment, r⟩).map (·.segment) = subs.map (·.segment) := by
  rw [map_set]
  exact set_self_of_getElem? (by rw [getElem?_map, hs, Option.map_some])

theorem Holds.multi_set {m : IndexMultiReader Term} (h : Holds segments tables (.multi m) d)
    (cache : NSString → Option (List UInt8)) {i : ℕ} {s : SubReader Term} {t : NormTable}
    {r : SegmentReader s.segment} (hs : m.subReaders[i]? = some s)
    (heach : HoldEach (tables.set i t) (m.subReaders.set i ⟨s.segment, r⟩) d)
    (hcache : ∀ field bytes, cache field = some bytes → bytes
      = concatenated (segments.map (·.maximalDocument)) (tables.set i t) field) :
    Holds segments (tables.set i t) (.multi { m with
      normsCache := cache, subReaders := m.subReaders.set i ⟨s.segment, r⟩, hasChanges := true })
      d := by
  have hkeeps := h.keeps m rfl
  have hopened := map_segment_set hs r
  have hsizes : Lucene.sizes (m.subReaders.set i ⟨s.segment, r⟩) = Lucene.sizes m.subReaders := by
    have := congrArg (map fun segment : Segment Term => segment.maximalDocument) hopened
    rwa [map_map, map_map] at this
  refine h.multi hopened heach ⟨?_, ?_, fun field bytes hb => ?_, fun _ _ _ => rfl⟩
  · exact hkeeps.starts.trans (by rw [hsizes])
  · exact hkeeps.maxDoc.trans (by rw [hsizes])
  · refine (hcache field bytes hb).trans ?_
    rw [← h.sizes]
    exact congrArg (concatenated · _ field) hsizes.symm

theorem Holds.setNorm (h : Holds segments tables reader d) {doc : ℕ}
    (hdoc : doc < (segments.map (·.maximalDocument)).sum) (memory : NSString → Memory)
    (field : NSString) (value : UInt8) :
    ∃ reader', reader.setNorm memory doc field value = some reader' ∧ Holds segments
      (setConcatenated (segments.map (·.maximalDocument)) tables doc field value)
      reader' d := by
  rcases reader with s | m
  · obtain ⟨t, rfl, rfl, hs⟩ := h.segment
    have hdoc' : doc < s.segment.maximalDocument := by simpa using hdoc
    obtain ⟨r, hr, hr'⟩ := hs.setNorm hdoc' (memory s.segment.name) field value
    refine ⟨.segment ⟨s.segment, r⟩, ?_, ?_⟩
    · show (s.reader.setNorm _ doc field value).map _ = _
      rw [hr]
      rfl
    · rw [map_cons, map_nil, setConcatenated, if_pos hdoc']
      exact of_segment hr'
  · obtain ⟨i, s, t, hblock, ht, hr, hlt, hchange, hs, hset⟩ := h.changeSubReader hdoc
      (update m.normsCache field none) fun s n =>
        s.reader.setNorm (memory s.segment.name) n field value
    obtain ⟨r, hr', hholds⟩ := hr.setNorm hlt (memory s.segment.name) field value
    rw [hr', Option.map_some] at hchange
    rw [setConcatenated_eq ht hblock]
    refine ⟨_, ?_, h.multi_set (update m.normsCache field none) hs (hset _ r hholds)
      fun field' bytes hb => ?_⟩
    · show ((m.doSetNorm memory doc field value).map _).map _ = _
      unfold doSetNorm
      rw [hchange]
      rfl
    · by_cases hf : field' = field
      · rw [hf, update_self] at hb
        cases hb
      · rw [update_of_ne hf] at hb
        rw [concatenated_set ht (by rw [NormTable.set, update_of_ne hf]), ← h.sizes]
        exact (h.keeps m rfl).cache field' bytes hb

theorem Holds.deleteDocument (h : Holds segments tables reader d) {doc : ℕ}
    (hdoc : doc < (segments.map (·.maximalDocument)).sum) :
    ∃ reader', reader.deleteDocument doc = some reader' ∧ Holds segments tables reader' d := by
  rcases reader with s | m
  · obtain ⟨t, rfl, rfl, hs⟩ := h.segment
    exact ⟨_, rfl, of_segment (hs.deleteDocument doc)⟩
  · obtain ⟨i, s, t, -, ht, hr, -, hchange, hs, hset⟩ := h.changeSubReader hdoc m.normsCache
      fun s n => some (s.reader.deleteDocument n)
    have hsame := set_self_of_getElem? ht
    have hdeleted := hset t _
      (hr.deleteDocument (doc - start (segments.map (·.maximalDocument)) i))
    have hholds := h.multi_set m.normsCache hs hdeleted fun field bytes hb => by
      rw [hsame, ← h.sizes]
      exact (h.keeps m rfl).cache field bytes hb
    rw [hsame] at hholds
    refine ⟨_, ?_, hholds⟩
    show ((m.changeSubReader doc fun s n => some (s.reader.deleteDocument n)).map _).map _ = _
    rw [show m.changeSubReader doc _ = _ from hchange]
    rfl

theorem Holds.undeleteAll (h : Holds segments tables reader d) :
    Holds segments tables reader.undeleteAll d := by
  rcases reader with s | m
  · obtain ⟨t, rfl, rfl, hs⟩ := h.segment
    exact of_segment hs.undeleteAll
  · have hkeeps := h.keeps m rfl
    have hsizes : Lucene.sizes m.undeleteAll.subReaders = Lucene.sizes m.subReaders := by
      simp [Lucene.sizes, IndexMultiReader.undeleteAll]
    refine h.multi ?_ (HoldEach.undeleteAll h.each) ⟨?_, ?_, ?_, fun _ _ _ => rfl⟩
    · simp [IndexMultiReader.undeleteAll]
    · rw [hsizes]
      exact hkeeps.starts
    · rw [hsizes]
      exact hkeeps.maxDoc
    · rw [hsizes]
      exact hkeeps.cache

theorem Holds.commit (h : Holds segments tables reader d) :
    Holds segments tables (reader.commit d).2 (reader.commit d).1
      ∧ ∀ s ∈ (reader.commit d).2.subReaders, s.reader.normsDirty = false := by
  rcases reader with s | m
  · obtain ⟨t, rfl, rfl, hs⟩ := h.segment
    obtain ⟨hc, hclean⟩ := hs.commit
    refine ⟨of_segment hc, fun s' hs' => ?_⟩
    obtain rfl := mem_singleton.1 hs'
    exact hclean
  · have hkeeps := h.keeps m rfl
    have hnames : (m.subReaders.map fun s => s.segment.name).Nodup := by
      have hnames := h.names
      rwa [← h.opened, map_map] at hnames
    obtain ⟨heach, hclean⟩ := HoldEach.commitAll h.each hnames
    have hopened := commitAll_segments m.subReaders d
    have hsizes : Lucene.sizes (commitAll m.subReaders d).2
        = Lucene.sizes m.subReaders := by
      have := congrArg (map fun segment : Segment Term => segment.maximalDocument) hopened
      rwa [map_map, map_map] at this
    have hkeeps' : m.hasChanges = true → ∀ infos, Keeps tables { m with
        subReaders := (commitAll m.subReaders d).2, segmentInfos := infos } :=
      fun hchanges _ => ⟨hkeeps.starts.trans (by rw [hsizes]), hkeeps.maxDoc.trans (by rw [hsizes]),
        fun field bytes hb => (hkeeps.cache field bytes hb).trans (by rw [hsizes]),
        fun _ _ _ => hchanges⟩
    unfold OpenReader.commit IndexMultiReader.commit
    simp only
    split_ifs with hchanges
    · rcases hinfos : m.segmentInfos with _ | infos
      · have hmulti := h.multi hopened heach (hkeeps' hchanges m.segmentInfos)
        rw [hinfos] at hmulti
        exact ⟨hmulti, hclean⟩
      · have hwritten : HoldEach tables (commitAll m.subReaders d).2
            (infos.writeToDirectory (commitAll m.subReaders d).1).1 :=
          HoldEach.congr heach fun _ _ _ =>
            SegmentInfos.writeToDirectory_of_ne (by simp) (by simp)
        exact ⟨h.multi hopened hwritten (hkeeps' hchanges _), hclean⟩
    · refine ⟨h, fun s hs => ?_⟩
      obtain ⟨t, ht⟩ := h.each.mem hs
      by_contra hdirty
      exact hchanges (hkeeps.changes s hs (ht.changes (by simpa using hdirty)))

theorem Holds.commit_other (h : Holds segments tables reader d) {name : NSString}
    (hname : name ∉ segments.map (·.name)) (e : Extension) :
    (reader.commit d).1 (.ofSegment name e) = d (.ofSegment name e) := by
  have hother : ∀ s ∈ reader.subReaders, name ≠ s.segment.name := by
    rintro s hs rfl
    rw [← h.opened, map_map] at hname
    exact hname (mem_map.2 ⟨s, hs, rfl⟩)
  rcases reader with s | m
  · exact Lucene.commit_other s.reader (hother s (mem_singleton_self s)) d e
  · have hall := commitAll_other e m.subReaders d hother
    unfold OpenReader.commit IndexMultiReader.commit
    simp only
    split_ifs
    · rcases m.segmentInfos with _ | infos
      · exact hall
      · exact (@SegmentInfos.writeToDirectory_of_ne infos _ _ (by simp) (by simp)).trans hall
    · rfl

theorem holdEach_openSegment (owner : Bool) : ∀ {segments : List (Segment Term)},
    (∀ segment ∈ segments, StoresNorms segment d) →
    HoldEach (segments.map (storedNorms · d)) (segments.map (openSegment owner d)) d
  | [], _ => Forall₂.nil
  | first :: segments, h => by
    obtain ⟨hs, hrest⟩ := forall_mem_cons.1 h
    exact Forall₂.cons (hs.holds owner) (holdEach_openSegment owner hrest)

theorem holds_openDirectory (hnames : (segments.map (·.name)).Nodup)
    (h : ∀ segment ∈ segments, StoresNorms segment d) :
    Holds segments (segments.map (storedNorms · d)) (openDirectory segments d) d := by
  have hmulti : Holds segments (segments.map (storedNorms · d))
      (.multi (.initWithDirectory d (segments.map (openSegment false d)))) d := by
    refine ⟨?_, hnames, holdEach_openSegment false h, fun m hm => ?_⟩
    · show (segments.map (openSegment false d)).map _ = _
      rw [map_map]
      exact map_id _
    · cases hm
      refine ⟨rfl, rfl, nofun, fun s hs hchanges => ?_⟩
      obtain ⟨segment, -, rfl⟩ := mem_map.1 hs
      cases hchanges
  unfold openDirectory
  split
  · exact Holds.of_segment ((h _ mem_cons_self).holds true)
  · exact hmulti

theorem Holds.reopen (h : Holds segments tables reader d)
    (hclean : ∀ s ∈ reader.subReaders, s.reader.normsDirty = false) :
    (∀ segment ∈ segments, StoresNorms segment d) ∧ segments.map (storedNorms · d) = tables := by
  have hall : ∀ {subs : List (SubReader Term)} {tables : List NormTable}, HoldEach tables subs d →
      (∀ s ∈ subs, s.reader.normsDirty = false) →
      (∀ s ∈ subs, StoresNorms s.segment d) ∧
        subs.map (fun s => storedNorms s.segment d) = tables := by
    intro subs tables h
    induction h with
    | nil => exact fun _ => ⟨nofun, rfl⟩
    | cons hs _ ih =>
      intro hclean
      obtain ⟨hs', hrest⟩ := forall_mem_cons.1 hclean
      obtain ⟨ih1, ih2⟩ := ih hrest
      exact ⟨forall_mem_cons.2 ⟨hs.stored, ih1⟩, by
        rw [map_cons, ih2, hs.storedNorms_eq hs']⟩
  obtain ⟨h1, h2⟩ := hall h.each hclean
  rw [← h.opened]
  refine ⟨fun segment hs => ?_, ?_⟩
  · obtain ⟨s, hmem, rfl⟩ := mem_map.1 hs
    exact h1 s hmem
  · rwa [map_map]

end OpenReader

end Etoile.Lucene
