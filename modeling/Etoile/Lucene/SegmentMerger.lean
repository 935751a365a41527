import Etoile.Lucene.OpenReader

/-!
# Merging segments

What the merger makes of the fields, the postings and the norms of the segments it is given.  The
documents that are deleted are left out and the others numbered anew.
-/

namespace Etoile.Lucene

open List Option SegmentReader

variable {Term : Type}

/-! ## The fields -/

/-- `-addName:isIndexed:…omitNorms:`, without what it keeps of term vectors. -/
def addName (fieldInfos : List FieldInfo) (name : NSString) (isIndexed omitNorms : Bool) :
    List FieldInfo :=
  if fieldInfos.any fun fi => fi.name = name then
    fieldInfos.map fun fi =>
      if fi.name = name then
        { fi with
          isIndexed := if fi.isIndexed != isIndexed then true else fi.isIndexed
          omitNorms := if fi.omitNorms != omitNorms then false else fi.omitNorms }
      else fi
  else fieldInfos ++ [⟨name, isIndexed, omitNorms⟩]

/-- `-fieldNames:` with `LCFieldOption_INDEXED` or `LCFieldOption_UNINDEXED`. -/
def fieldNames (segment : Segment Term) (indexed : Bool) : List NSString :=
  (segment.fieldInfos.filter fun fi => fi.isIndexed == indexed).map (·.name)

namespace SegmentMerger

def addFields (fieldInfos : List FieldInfo) (s : SubReader Term) : List FieldInfo :=
  (fieldNames s.segment false).foldl (fun fieldInfos name => addName fieldInfos name false false)
    ((fieldNames s.segment true).foldl
      (fun fieldInfos name => addName fieldInfos name true (!s.reader.hasNorms name)) fieldInfos)

/-- The field infos `-mergeFields` collects.  Those with term vectors are added before, which
changes nothing but the numbers. -/
def mergeFields (readers : List (SubReader Term)) : List FieldInfo := readers.foldl addFields []

/-! ## The documents -/

def live (s : SubReader Term) : List ℕ :=
  (range s.segment.maximalDocument).filter fun k => !s.reader.isDeleted k

/-- What `-mergeFields` returns. -/
def docCount (readers : List (SubReader Term)) : ℕ := (readers.map fun s => (live s).length).sum

def docMap (s : SubReader Term) (doc : ℕ) : ℕ :=
  ((range doc).filter fun k => !s.reader.isDeleted k).length

def appendPostings (t : Term) : ℕ → List (SubReader Term) → List Posting
  | _, [] => []
  | base, s :: readers =>
    (((s.segment.postings t).filter fun p => !s.reader.isDeleted p.doc).map fun p =>
      { p with doc := base + docMap s p.doc }) ++ appendPostings t (base + (live s).length) readers

variable {s : SubReader Term}

theorem docMap_lt {doc : ℕ} (hdoc : doc < s.segment.maximalDocument)
    (hlive : s.reader.isDeleted doc = false) : docMap s doc < (live s).length := by
  obtain ⟨n, hn⟩ : ∃ n, s.segment.maximalDocument = doc + 1 + n :=
    ⟨s.segment.maximalDocument - (doc + 1), by omega⟩
  unfold live docMap
  rw [hn, range_add, filter_append, range_succ, filter_append,
    filter_singleton]
  simp [hlive]

theorem appendPostings_lt (t : Term) : ∀ (base : ℕ) (readers : List (SubReader Term)),
    ∀ p ∈ appendPostings t base readers, p.doc < base + docCount readers
  | base, [], p, hp => by simp [appendPostings] at hp
  | base, s :: readers, p, hp => by
    rw [docCount, map_cons, sum_cons]
    rw [appendPostings, List.mem_append, List.mem_map] at hp
    rcases hp with ⟨q, hq, rfl⟩ | hp
    · obtain ⟨hmem, hlive⟩ := mem_filter.1 hq
      have := docMap_lt (s.segment.doc_lt t q hmem) (by simpa using hlive)
      simp only
      omega
    · have := appendPostings_lt t (base + (live s).length) readers p hp
      rw [docCount] at this
      omega

/-! ## The norms -/

def liveBytes (s : SubReader Term) (bytes : List UInt8) : List UInt8 :=
  (bytes.zipIdx.filter fun b => !s.reader.isDeleted b.2).map Prod.fst

def normBytes (memory : NSString → Memory) (readers : List (SubReader Term)) (field : NSString) :
    List UInt8 :=
  readers.flatMap fun s =>
    liveBytes s ((s.reader.setNorms (memory s.segment.name) field [] 0).getD [])

def writeNorms (memory : NSString → Memory) (name : NSString) (readers : List (SubReader Term))
    (fields : List (NSString × ℕ)) (d : Directory) : Directory :=
  fields.foldl (fun d f => d.writeFile (.ofSegment name (.f f.2)) (normBytes memory readers f.1)) d

/-- `-mergeNorms` -/
def mergeNorms (memory : NSString → Memory) (name : NSString) (readers : List (SubReader Term))
    (d : Directory) : Directory :=
  writeNorms memory name readers (normFields (mergeFields readers)) d

/-- The segment that is made of the readers; `compound` are the files of its compound file. -/
def mergedSegment (name : NSString) (readers : List (SubReader Term)) (compound : Directory)
    (h : docCount readers < 2 ^ 31) : Segment Term where
  name := name
  fieldInfos := mergeFields readers
  maximalDocument := docCount readers
  maximalDocument_lt := h
  postings t := appendPostings t 0 readers
  doc_lt t p hp := by simpa using appendPostings_lt t 0 readers p hp
  compound := compound

/-- The segment and the directory after a merge.  The files of a compound file are written, put in
it and deleted. -/
def merge (memory : NSString → Memory) (name : NSString) (useCompoundFile : Bool)
    (readers : List (SubReader Term)) (h : docCount readers < 2 ^ 31) (d : Directory) :
    Segment Term × Directory :=
  if useCompoundFile then
    (mergedSegment name readers (mergeNorms memory name readers fun _ => none) h,
      d.writeFile (.ofSegment name .cfs) [])
  else (mergedSegment name readers (fun _ => none) h, mergeNorms memory name readers d)

/-! ## Which fields have norms -/

def KeepsNorms (fieldInfos : List FieldInfo) (field : NSString) : Prop :=
  ∃ fi ∈ fieldInfos, fi.name = field ∧ fi.isIndexed = true ∧ fi.omitNorms = false

variable {fieldInfos : List FieldInfo}

theorem keepsNorms_iff {field : NSString} :
    KeepsNorms fieldInfos field ↔ ∃ f ∈ normFields fieldInfos, f.1 = field := by
  constructor
  · rintro ⟨fi, hfi, rfl, hindexed, homit⟩
    obtain ⟨i, hi⟩ := mem_iff_getElem?.1 hfi
    refine ⟨(fi.name, i), mem_filterMap.2 ⟨(fi, i), ?_, ?_⟩, rfl⟩
    · exact mem_zipIdx_iff_getElem?.2 hi
    · simp [hindexed, homit]
  · rintro ⟨f, hf, rfl⟩
    obtain ⟨⟨fi, i⟩, hfi, hsome⟩ := mem_filterMap.1 hf
    split_ifs at hsome with hkeeps
    cases hsome
    rw [Bool.and_eq_true, Bool.not_eq_true'] at hkeeps
    exact ⟨fi, mem_of_getElem? (mem_zipIdx_iff_getElem?.1 hfi), rfl, hkeeps⟩

variable {fieldInfos : List FieldInfo} {field : NSString}

theorem addName_names (fieldInfos : List FieldInfo) (name : NSString) (isIndexed omitNorms : Bool)
    (h : (fieldInfos.map (·.name)).Nodup) :
    ((addName fieldInfos name isIndexed omitNorms).map (·.name)).Nodup := by
  unfold addName
  split_ifs with hany
  · rw [List.map_map]
    convert h using 1
    refine map_congr_left fun fi _ => ?_
    simp only [Function.comp_apply]
    split_ifs <;> rfl
  · rw [map_append, nodup_append]
    refine ⟨h, by simp, fun a ha b hb hab => hany ?_⟩
    obtain ⟨fi, hfi, rfl⟩ := List.mem_map.1 ha
    rw [map_singleton, mem_singleton] at hb
    exact any_eq_true.2 ⟨fi, hfi, by simpa using hab.trans hb⟩

theorem KeepsNorms.addName (h : KeepsNorms fieldInfos field) (name : NSString)
    (isIndexed omitNorms : Bool) :
    KeepsNorms (addName fieldInfos name isIndexed omitNorms) field := by
  obtain ⟨fi, hfi, hname, hindexed, homit⟩ := h
  unfold Lucene.addName
  split_ifs with hany
  · refine ⟨_, mem_map_of_mem hfi, ?_⟩
    split_ifs <;> simp [hname, hindexed, homit]
  · exact ⟨fi, mem_append_left _ hfi, hname, hindexed, homit⟩

theorem keepsNorms_addName (fieldInfos : List FieldInfo) (field : NSString) :
    KeepsNorms (Lucene.addName fieldInfos field true false) field := by
  unfold Lucene.addName
  split_ifs with hany
  · obtain ⟨fi, hfi, hname⟩ := any_eq_true.1 hany
    refine ⟨_, mem_map_of_mem hfi, ?_⟩
    rw [if_pos (by simpa using hname)]
    refine ⟨by simpa using hname, ?_, ?_⟩ <;> simp
  · exact ⟨_, mem_append_right _ (mem_singleton_self _), rfl, rfl, rfl⟩

theorem KeepsNorms.foldl {isIndexed : Bool} (omitNorms : NSString → Bool) :
    ∀ {names : List NSString} {fieldInfos : List FieldInfo},
    KeepsNorms fieldInfos field ∨ isIndexed = true ∧ field ∈ names ∧ omitNorms field = false →
    KeepsNorms (names.foldl (fun fieldInfos name =>
      Lucene.addName fieldInfos name isIndexed (omitNorms name)) fieldInfos) field
  | [], fieldInfos, h => h.resolve_right (by simp)
  | name :: names, fieldInfos, h => by
    show KeepsNorms (names.foldl _ _) field
    refine KeepsNorms.foldl omitNorms ?_
    rcases h with h | ⟨rfl, hmem, homit⟩
    · exact Or.inl (h.addName _ _ _)
    · rcases mem_cons.1 hmem with rfl | hmem
      · beta_reduce
        rw [homit]
        exact Or.inl (keepsNorms_addName _ _)
      · exact Or.inr ⟨rfl, hmem, homit⟩

theorem addNames_names (isIndexed : Bool) (omitNorms : NSString → Bool) :
    ∀ (names : List NSString) {fieldInfos : List FieldInfo}, (fieldInfos.map (·.name)).Nodup →
    ((names.foldl (fun fieldInfos name =>
      Lucene.addName fieldInfos name isIndexed (omitNorms name)) fieldInfos).map (·.name)).Nodup
  | [], _, h => h
  | name :: names, _, h => addNames_names isIndexed omitNorms names (addName_names _ name _ _ h)

theorem mergeFields_names (readers : List (SubReader Term)) :
    ((mergeFields readers).map (·.name)).Nodup := by
  have hall : ∀ (readers : List (SubReader Term)) {fieldInfos : List FieldInfo},
      (fieldInfos.map (·.name)).Nodup →
      ((readers.foldl addFields fieldInfos).map (·.name)).Nodup := by
    intro readers
    induction readers with
    | nil => exact fun h => h
    | cons s readers ih =>
      exact fun h => ih (addNames_names false (fun _ => false) _ (addNames_names true _ _ h))
  exact hall readers (by simp)

theorem mem_fieldNames {t : NormTable} {d : Directory}
    (h : HoldsNorms t s.reader d) (hnorms : s.reader.hasNorms field = true) :
    field ∈ fieldNames s.segment true := by
  obtain ⟨n, hn⟩ := isSome_iff_exists.1 hnorms
  obtain ⟨hmem, hfield⟩ := norm_eq_some hn
  have hf : (n.field, n.number) ∈ normFields s.segment.fieldInfos := by
    rw [← h.fields]
    exact mem_map_of_mem hmem
  obtain ⟨fi, hfi, hname, hindexed, -⟩ := keepsNorms_iff.2 ⟨_, hf, hfield⟩
  exact List.mem_map.2 ⟨fi, mem_filter.2 ⟨hfi, by simp [hindexed]⟩, hname⟩

theorem keepsNorms_mergeFields {tables : List NormTable} {readers : List (SubReader Term)}
    {d : Directory} (h : HoldEach tables readers d) (hs : s ∈ readers)
    (hnorms : s.reader.hasNorms field = true) : KeepsNorms (mergeFields readers) field := by
  obtain ⟨t, ht⟩ := h.mem hs
  have hmem := mem_fieldNames ht hnorms
  have hall : ∀ (readers : List (SubReader Term)) (fieldInfos : List FieldInfo),
      KeepsNorms fieldInfos field ∨ s ∈ readers →
      KeepsNorms (readers.foldl addFields fieldInfos) field := by
    intro readers
    induction readers with
    | nil => exact fun _ h => h.resolve_right (by simp)
    | cons s' readers ih =>
      refine fun fieldInfos hor => ih _ ?_
      rcases hor with hkeeps | hs'
      · exact Or.inl (KeepsNorms.foldl (fun _ => false)
          (Or.inl (KeepsNorms.foldl _ (Or.inl hkeeps))))
      · rcases mem_cons.1 hs' with rfl | hs'
        · refine Or.inl (KeepsNorms.foldl (fun _ => false)
            (Or.inl (KeepsNorms.foldl (fun name => !s.reader.hasNorms name)
              (Or.inr ⟨rfl, hmem, ?_⟩))))
          rw [hnorms]
          rfl
        · exact Or.inr hs'
  exact hall readers [] (Or.inr hs)

/-! ## What the merged segment stores -/

def liveNorms (tables : List NormTable) (readers : List (SubReader Term)) (field : NSString) :
    List UInt8 :=
  (zipWith (fun t s => liveBytes s (t.shown s.segment.maximalDocument field)) tables
    readers).flatten

def mergedTable (tables : List NormTable) (readers : List (SubReader Term)) : NormTable :=
  fun field => (normField (mergeFields readers) field).map fun f => liveNorms tables readers f.1

variable {tables : List NormTable} {readers : List (SubReader Term)} {d : Directory}

theorem length_liveBytes {bytes : List UInt8} (h : bytes.length = s.segment.maximalDocument) :
    (liveBytes s bytes).length = (live s).length := by
  unfold liveBytes live
  rw [List.length_map, ← h, List.range_eq_range', ← List.zipIdx_map_snd 0 bytes, List.filter_map,
    List.length_map]
  rfl

theorem liveBytes_replicate (s : SubReader Term) (b : UInt8) :
    liveBytes s (replicate s.segment.maximalDocument b)
      = replicate (live s).length b := by
  refine eq_replicate_iff.2 ⟨length_liveBytes (by simp), fun x hx => ?_⟩
  obtain ⟨⟨y, i⟩, hy, rfl⟩ := List.mem_map.1 hx
  have hmem := mem_zipIdx (mem_filter.1 hy).1
  rw [hmem.2.2]
  simp

theorem length_liveNorms (h : HoldEach tables readers d) (field : NSString) :
    (liveNorms tables readers field).length = docCount readers := by
  induction h with
  | nil => rfl
  | cons hs _ ih =>
    rw [docCount] at ih ⊢
    rw [map_cons, sum_cons, ← ih, ← length_liveBytes (hs.length_shown field),
      ← length_append]
    rfl

/-- The norms of a field can be copied from a reader, or none of its documents is. -/
def CanMerge (s : SubReader Term) (field : NSString) : Prop :=
  live s = [] ∨ s.reader.Uncached field

theorem liveBytes_setNorms {t : NormTable} (h : HoldsNorms t s.reader d)
    (hmerge : CanMerge s field) (memory : Memory) :
    liveBytes s ((s.reader.setNorms memory field [] 0).getD [])
      = liveBytes s (t.shown s.segment.maximalDocument field) := by
  by_cases hun : s.reader.Uncached field
  · rw [h.setNorms hun, replaceBytesInRange_nil, getD_some]
  · have hempty := congrArg length (hmerge.resolve_right hun)
    have hnil : ∀ bytes : List UInt8, bytes.length = s.segment.maximalDocument →
        liveBytes s bytes = [] := fun bytes hbytes =>
      eq_nil_of_length_eq_zero ((length_liveBytes hbytes).trans hempty)
    rw [setNorms_of_not_uncached hun, replaceBytesInRange_nil, getD_some,
      hnil _ (h.length_shown field), hnil _ (by simp [Memory.bytes])]

theorem normBytes_eq (h : HoldEach tables readers d)
    (hmerge : ∀ s ∈ readers, CanMerge s field) (memory : NSString → Memory) :
    normBytes memory readers field = liveNorms tables readers field := by
  induction h with
  | nil => rfl
  | @cons t s tables readers hs _ ih =>
    obtain ⟨hfirst, hrest⟩ := forall_mem_cons.1 hmerge
    rw [normBytes, flatMap_cons, liveBytes_setNorms hs hfirst]
    exact congrArg _ (ih hrest)

theorem liveNorms_of_none (h : HoldEach tables readers d)
    (hnone : ∀ s ∈ readers, s.reader.hasNorms field = false) :
    liveNorms tables readers field = createFakeNorms (docCount readers) := by
  induction h with
  | nil => rfl
  | @cons t s tables readers hs _ ih =>
    obtain ⟨hno, hnone⟩ := forall_mem_cons.1 hnone
    rw [hs.hasNorms, isSome_eq_false_iff, isNone_iff_eq_none] at hno
    have hfirst : liveBytes s (t.shown s.segment.maximalDocument field)
        = replicate (live s).length encodedOne := by
      rw [NormTable.shown, hno, getD_none, createFakeNorms, liveBytes_replicate]
    show liveBytes s _ ++ liveNorms tables readers field = createFakeNorms _
    rw [hfirst, ih hnone, createFakeNorms, createFakeNorms, replicate_append_replicate]
    rfl

theorem normField_eq_none (h : normField fieldInfos field = none) :
    ¬ KeepsNorms fieldInfos field := by
  intro hkeeps
  obtain ⟨f, hf, hfield⟩ := keepsNorms_iff.1 hkeeps
  have := find?_eq_none.1 h f hf
  simp [hfield] at this

variable {f : NSString × ℕ}

theorem normField_eq_some
    (h : normField fieldInfos field = some f) : f ∈ normFields fieldInfos ∧ f.1 = field :=
  ⟨mem_of_find?_eq_some h, by simpa using find?_some h⟩

theorem shown_mergedTable (h : HoldEach tables readers d) (field : NSString) :
    (mergedTable tables readers).shown (docCount readers) field
      = liveNorms tables readers field := by
  unfold NormTable.shown mergedTable
  rcases hfind : normField (mergeFields readers) field with _ | f
  · have hnone : ∀ s ∈ readers, s.reader.hasNorms field = false := by
      intro s hs
      by_contra hnorms
      exact normField_eq_none hfind (keepsNorms_mergeFields h hs (by simpa using hnorms))
    rw [map_none, getD_none, liveNorms_of_none h hnone]
  · rw [map_some, getD_some, (normField_eq_some hfind).2]

/-! ## The files of a merged segment -/

variable {memory : NSString → Memory} {name : NSString}

theorem writeNorms_of_ne {file : FileName} : ∀ (fields : List (NSString × ℕ)) (d : Directory),
    (∀ f ∈ fields, file ≠ .ofSegment name (.f f.2)) →
    writeNorms memory name readers fields d file = d file
  | [], _, _ => rfl
  | f :: fields, d, h => by
    obtain ⟨hf, hfields⟩ := forall_mem_cons.1 h
    exact (writeNorms_of_ne fields _ hfields).trans (Directory.writeFile_of_ne hf)

theorem writeNorms_self : ∀ (fields : List (NSString × ℕ)) (d : Directory),
    (fields.map Prod.snd).Nodup → f ∈ fields →
    writeNorms memory name readers fields d (.ofSegment name (.f f.2))
      = some (normBytes memory readers f.1)
  | [], _, _, hf => by simp at hf
  | f' :: fields, d, hnodup, hf => by
    obtain ⟨hfresh, hnodup⟩ := nodup_cons.1 hnodup
    rcases mem_cons.1 hf with rfl | hf
    · refine (writeNorms_of_ne fields _ fun g hg heq => hfresh ?_).trans Directory.writeFile_self
      have hsame := (FileName.ofSegment.inj heq).2
      rw [Extension.f.injEq] at hsame
      exact hsame ▸ mem_map_of_mem hg
    · exact writeNorms_self fields _ hnodup hf

variable {useCompoundFile : Bool} {hcount : docCount readers < 2 ^ 31} {d' : Directory}

theorem merge_segment : (merge memory name useCompoundFile readers hcount d').1.name = name
    ∧ (merge memory name useCompoundFile readers hcount d').1.fieldInfos = mergeFields readers
    ∧ (merge memory name useCompoundFile readers hcount d').1.maximalDocument
      = docCount readers := by
  unfold merge
  split_ifs <;> exact ⟨rfl, rfl, rfl⟩

theorem merge_other {file : FileName} (h : ∀ e, file ≠ .ofSegment name e) :
    (merge memory name useCompoundFile readers hcount d').2 file = d' file := by
  unfold merge
  split_ifs
  · exact Directory.writeFile_of_ne (h _)
  · exact writeNorms_of_ne _ _ fun _ _ => h _

theorem storedNorm_merge (h : HoldEach tables readers d)
    (hmerge : ∀ f ∈ normFields (mergeFields readers), ∀ s ∈ readers, CanMerge s f.1)
    (hnew : ∀ e, d' (.ofSegment name e) = none)
    (hf : f ∈ normFields (mergeFields readers)) :
    storedNorm (merge memory name useCompoundFile readers hcount d').1
        (merge memory name useCompoundFile readers hcount d').2 f.2
      = liveNorms tables readers f.1 := by
  have hbytes : normBytes memory readers f.1 = liveNorms tables readers f.1 :=
    normBytes_eq h (hmerge f hf) memory
  have hself : ∀ d'' : Directory, mergeNorms memory name readers d'' (.ofSegment name (.f f.2))
      = some (normBytes memory readers f.1) := fun d'' =>
    writeNorms_self _ d'' (normFields_numbers _) hf
  have hother : ∀ e, (∀ i, e ≠ .f i) →
      mergeNorms memory name readers d' (.ofSegment name e) = none := fun e he =>
    (writeNorms_of_ne _ _ fun g _ heq => he g.2 (FileName.ofSegment.inj heq).2).trans (hnew e)
  unfold merge
  split_ifs
  · simp [storedNorm, openNorm, openCompound, Directory.fileExists,
      mergedSegment, hself, hbytes, Directory.writeFile_of_ne, hnew]
  · simp [storedNorm, openNorm, openCompound, Directory.fileExists,
      mergedSegment, hself, hbytes, hother]

theorem stores_merge (h : HoldEach tables readers d)
    (hmerge : ∀ f ∈ normFields (mergeFields readers), ∀ s ∈ readers, CanMerge s f.1)
    (hnew : ∀ e, d' (.ofSegment name e) = none) :
    StoresNorms (merge memory name useCompoundFile readers hcount d').1
        (merge memory name useCompoundFile readers hcount d').2
      ∧ storedNorms (merge memory name useCompoundFile readers hcount d').1
        (merge memory name useCompoundFile readers hcount d').2 = mergedTable tables readers := by
  obtain ⟨hname, hfields, hmax⟩ := @merge_segment Term readers memory name useCompoundFile hcount d'
  refine ⟨⟨?_, fun f hf => ?_, fun _ number => ?_⟩, ?_⟩
  · rw [hfields]
    exact mergeFields_names readers
  · rw [hfields] at hf
    rw [storedNorm_merge h hmerge hnew hf, length_liveNorms h, hmax]
  · rw [hname]
    unfold merge
    split_ifs
    · exact (Directory.writeFile_of_ne (by simp)).trans (hnew _)
    · exact (writeNorms_of_ne _ _ fun _ _ => by simp).trans (hnew _)
  · funext field
    unfold storedNorms mergedTable
    rw [hfields]
    refine map_congr fun f hf => ?_
    exact storedNorm_merge h hmerge hnew (normField_eq_some hf).1

end SegmentMerger

end Etoile.Lucene
