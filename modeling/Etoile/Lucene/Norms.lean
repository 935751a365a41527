import Etoile.Lucene.SegmentReader

/-!
# The norms of a segment

The norms of a field are a byte for each document.  They are read from the stream that was opened
with the reader until they are cached, set in the cache, and written to a separate file by a commit.
Where a method passes an object for its bytes, the bytes are those of the memory where it lies.
-/

namespace Etoile.Lucene

open Function Option SegmentReader

abbrev Memory := ℕ → UInt8

def Memory.bytes (memory : Memory) (length : ℕ) : List UInt8 := (List.range length).map memory

/-- `-replaceBytesInRange:withBytes:`, which extends the data as far as the range goes; `none` where
it raises. -/
def replaceBytesInRange (data : List UInt8) (location : ℕ) (bytes : List UInt8) :
    Option (List UInt8) :=
  if location ≤ data.length then
    some (data.take location ++ bytes ++ data.drop (location + bytes.length))
  else none

/-- `[LCDefaultSimilarity encodeNorm: 1.0f]` -/
def encodedOne : UInt8 := 124

def createFakeNorms (size : ℕ) : List UInt8 := List.replicate size encodedOne

variable {Term : Type} {segment : Segment Term}

namespace SegmentReader

variable (r : SegmentReader segment)

/-- `[norms objectForKey: field]` -/
def norm (field : NSString) : Option Norm := r.norms.find? fun norm => norm.field = field

def hasNorms (field : NSString) : Bool := (r.norm field).isSome

/-- `-setNorms:bytes:offset:`.  `[self fakeNorms]` and `[norm bytes]` are passed as they are, so
that what lies in the memory of these objects is copied. -/
def setNorms (memory : Memory) (field : NSString) (bytes : List UInt8) (offset : ℕ) :
    Option (List UInt8) :=
  match r.norm field with
  | none => replaceBytesInRange bytes offset (memory.bytes segment.maximalDocument)
  | some norm =>
    if 0 < norm.bytes.length then
      replaceBytesInRange bytes offset (memory.bytes segment.maximalDocument)
    else replaceBytesInRange bytes offset (norm.input.take segment.maximalDocument)

def changeNorm (field : NSString) (change : Norm → Norm) : SegmentReader segment :=
  { r with norms := r.norms.map fun norm => if norm.field = field then change norm else norm }

def setBytes (field : NSString) (bytes : List UInt8) : SegmentReader segment :=
  r.changeNorm field fun norm => { norm with bytes }

/-- `-getNorms:`, which caches what it reads; nothing raises at the offset 0. -/
def getNorms (memory : Memory) (field : NSString) : Option (List UInt8) × SegmentReader segment :=
  match r.norm field with
  | none => (none, r)
  | some norm =>
    if norm.bytes.length = 0 then
      let bytes := (r.setNorms memory field [] 0).getD []
      (some bytes, r.setBytes field bytes)
    else (some norm.bytes, r)

/-- `-norms:` -/
def sendNorms (memory : Memory) (field : NSString) : List UInt8 × SegmentReader segment :=
  ((r.getNorms memory field).1.getD (createFakeNorms segment.maximalDocument),
    (r.getNorms memory field).2)

def setDirty (field : NSString) : SegmentReader segment :=
  { r.changeNorm field (fun norm => { norm with dirty := true }) with normsDirty := true }

def doSetNorm (memory : Memory) (doc : ℕ) (field : NSString) (value : UInt8) :
    Option (SegmentReader segment) :=
  match r.norm field with
  | none => some r
  | some _ =>
    let sent := (r.setDirty field).sendNorms memory field
    (replaceBytesInRange sent.1 doc [value]).map (sent.2.setBytes field)

def setNorm (memory : Memory) (doc : ℕ) (field : NSString) (value : UInt8) :
    Option (SegmentReader segment) :=
  (r.doSetNorm memory doc field value).map fun r => { r with hasChanges := true }

end SegmentReader

abbrev NormTable := NSString → Option (List UInt8)

namespace NormTable

def set (t : NormTable) (doc : ℕ) (field : NSString) (value : UInt8) : NormTable :=
  update t field ((t field).map fun bytes => bytes.set doc value)

def shown (t : NormTable) (size : ℕ) (field : NSString) : List UInt8 :=
  (t field).getD (createFakeNorms size)

end NormTable

def normFields (fieldInfos : List FieldInfo) : List (NSString × ℕ) :=
  fieldInfos.zipIdx.filterMap fun fi =>
    if fi.1.isIndexed && !fi.1.omitNorms then some (fi.1.name, fi.2) else none

def normField (fieldInfos : List FieldInfo) (field : NSString) : Option (NSString × ℕ) :=
  (normFields fieldInfos).find? fun f => f.1 = field

/-- The norms with the number `number` that a reader opens. -/
def storedNorm (segment : Segment Term) (d : Directory) (number : ℕ) : List UInt8 :=
  openNorm segment d ((openCompound segment d).getD d) number

def storedNorms (segment : Segment Term) (d : Directory) : NormTable := fun field =>
  (normField segment.fieldInfos field).map fun f => storedNorm segment d f.2

/-- A directory with the norms of all documents of the segment, separate ones only beside a compound
file. -/
structure StoresNorms (segment : Segment Term) (d : Directory) : Prop where
  names : (segment.fieldInfos.map (·.name)).Nodup
  length : ∀ f ∈ normFields segment.fieldInfos,
    (storedNorm segment d f.2).length = segment.maximalDocument
  separate : d (.ofSegment segment.name .cfs) = none →
    ∀ number, d (.ofSegment segment.name (.s number)) = none

def Norm.value (norm : Norm) : List UInt8 :=
  if 0 < norm.bytes.length then norm.bytes else norm.input

/-- A reader with the norms of `t`, of which those that are not dirty are in the directory. -/
structure HoldsNorms (t : NormTable) (r : SegmentReader segment) (d : Directory) : Prop where
  stored : StoresNorms segment d
  fields : r.norms.map (fun norm => (norm.field, norm.number)) = normFields segment.fieldInfos
  norm : ∀ field, (r.norm field).map Norm.value = t field
  length : ∀ norm ∈ r.norms, norm.value.length = segment.maximalDocument
  clean : ∀ norm ∈ r.norms, norm.dirty = false →
    storedNorm segment d norm.number = norm.value
  dirty : ∀ norm ∈ r.norms, norm.dirty = true →
    norm.bytes.length = segment.maximalDocument ∧ r.normsDirty = true
  changes : r.normsDirty = true → r.hasChanges = true
  compound : r.cfsReader.isSome = d.fileExists (.ofSegment segment.name .cfs)

section Reading

variable {t : NormTable} {r r' : SegmentReader segment} {d d' : Directory} {field : NSString}

theorem replaceBytesInRange_nil (bytes : List UInt8) :
    replaceBytesInRange [] 0 bytes = some bytes := by
  simp [replaceBytesInRange]

theorem replaceBytesInRange_byte {bytes : List UInt8} {doc : ℕ} (h : doc < bytes.length)
    (value : UInt8) : replaceBytesInRange bytes doc [value] = some (bytes.set doc value) := by
  rw [replaceBytesInRange, if_pos h.le, List.set_eq_take_append_cons_drop, if_pos h]
  simp

theorem normFields_names {fieldInfos : List FieldInfo} (h : (fieldInfos.map (·.name)).Nodup) :
    ((normFields fieldInfos).map Prod.fst).Nodup := by
  rw [List.Nodup, List.pairwise_map] at h
  have hzip : fieldInfos.zipIdx.Pairwise fun a b => a.1.name ≠ b.1.name := by
    rwa [← List.zipIdx_map_fst 0 fieldInfos, List.pairwise_map] at h
  rw [List.Nodup, List.pairwise_map, normFields, List.pairwise_filterMap]
  refine hzip.imp fun hne f hf f' hf' => ?_
  split_ifs at hf hf'
  cases hf
  cases hf'
  exact hne

theorem normFields_numbers (fieldInfos : List FieldInfo) :
    ((normFields fieldInfos).map Prod.snd).Nodup := by
  have hzip : fieldInfos.zipIdx.Pairwise fun a b => a.2 ≠ b.2 := by
    have h : (List.range' 0 fieldInfos.length).Nodup := List.nodup_range'
    rwa [← List.zipIdx_map_snd 0 fieldInfos, List.Nodup, List.pairwise_map] at h
  rw [List.Nodup, List.pairwise_map, normFields, List.pairwise_filterMap]
  refine hzip.imp fun hne f hf f' hf' => ?_
  split_ifs at hf hf'
  cases hf
  cases hf'
  exact hne

theorem openNorms_eq (segment : Segment Term) (d cfsDir : Directory) :
    openNorms segment d cfsDir = (normFields segment.fieldInfos).map fun f =>
      { field := f.1, number := f.2, input := openNorm segment d cfsDir f.2 } := by
  unfold openNorms normFields
  rw [List.map_filterMap]
  refine List.filterMap_congr fun fi _ => ?_
  split_ifs <;> rfl

variable {n : Norm}

theorem SegmentReader.norm_eq_some (h : r.norm field = some n) : n ∈ r.norms ∧ n.field = field := by
  unfold SegmentReader.norm at h
  exact ⟨List.mem_of_find?_eq_some h, by simpa using List.find?_some h⟩

theorem SegmentReader.norm_changeNorm {change : Norm → Norm}
    (h : ∀ n, (change n).field = n.field) (field field' : NSString) :
    (r.changeNorm field change).norm field'
      = (r.norm field').map fun n => if n.field = field then change n else n := by
  have hfield : ∀ n : Norm, (if n.field = field then change n else n).field = n.field := by
    intro n
    split_ifs
    · exact h n
    · rfl
  unfold SegmentReader.norm changeNorm
  rw [List.find?_map]
  simp [hfield]

theorem HoldsNorms.value (h : HoldsNorms t r d) (hn : r.norm field = some n) :
    t field = some n.value := by
  rw [← h.norm, hn, map_some]

theorem HoldsNorms.shown (h : HoldsNorms t r d) (hn : r.norm field = none) : t field = none := by
  rw [← h.norm, hn, map_none]

theorem HoldsNorms.hasNorms (h : HoldsNorms t r d) (field : NSString) :
    r.hasNorms field = (t field).isSome := by
  rw [SegmentReader.hasNorms, ← h.norm, isSome_map]

theorem HoldsNorms.length_shown (h : HoldsNorms t r d) (field : NSString) :
    (t.shown segment.maximalDocument field).length = segment.maximalDocument := by
  unfold NormTable.shown
  rcases hn : r.norm field with _ | n
  · rw [h.shown hn]
    simp [createFakeNorms]
  · rw [h.value hn]
    exact h.length n (norm_eq_some hn).1

theorem HoldsNorms.field_nodup (h : HoldsNorms t r d) : (r.norms.map (·.field)).Nodup := by
  have hnames := normFields_names h.stored.names
  rwa [← h.fields, List.map_map] at hnames

theorem HoldsNorms.norm_of_mem (h : HoldsNorms t r d) (hn : n ∈ r.norms) :
    r.norm n.field = some n := by
  rcases hfind : r.norm n.field with _ | n'
  · have := List.find?_eq_none.1 hfind n hn
    simp at this
  · obtain ⟨hmem, hfield⟩ := norm_eq_some hfind
    exact congrArg some (List.inj_on_of_nodup_map h.field_nodup hmem hn hfield)

theorem HoldsNorms.congr (h : HoldsNorms t r d) (hnorms : r'.norms = r.norms)
    (hdirty : r.normsDirty = true → r'.normsDirty = true) (hcfs : r'.cfsReader = r.cfsReader)
    (hchanges : r'.normsDirty = true → r'.hasChanges = true) : HoldsNorms t r' d where
  stored := h.stored
  fields := hnorms ▸ h.fields
  norm field := by
    rw [SegmentReader.norm, hnorms]
    exact h.norm field
  length := hnorms ▸ h.length
  clean := hnorms ▸ h.clean
  dirty := by
    rw [hnorms]
    exact fun n hn hd => ⟨(h.dirty n hn hd).1, hdirty (h.dirty n hn hd).2⟩
  changes := hchanges
  compound := hcfs ▸ h.compound

theorem HoldsNorms.changeNorm {change : Norm → Norm} {value : List UInt8} (h : HoldsNorms t r d)
    (hfield : ∀ n, (change n).field = n.field ∧ (change n).number = n.number)
    (hvalue : ∀ n, r.norm field = some n → (change n).value = value
      ∧ value.length = segment.maximalDocument
      ∧ ((change n).dirty = false → storedNorm segment d n.number = value)
      ∧ ((change n).dirty = true → (change n).bytes.length = segment.maximalDocument
        ∧ r.normsDirty = true)) :
    HoldsNorms (update t field ((t field).map fun _ => value)) (r.changeNorm field change)
      d := by
  have hmem : ∀ n' ∈ (r.changeNorm field change).norms,
      (n' ∈ r.norms) ∨ ∃ n, r.norm field = some n ∧ n' = change n := by
    intro n' hn'
    obtain ⟨n, hn, rfl⟩ := List.mem_map.1 hn'
    split_ifs with hf
    · exact Or.inr ⟨n, hf ▸ h.norm_of_mem hn, rfl⟩
    · exact Or.inl hn
  refine ⟨h.stored, ?_, fun field' => ?_, ?_, ?_, ?_, h.changes, h.compound⟩
  · rw [← h.fields]
    unfold SegmentReader.changeNorm
    rw [List.map_map]
    refine List.map_congr_left fun n _ => ?_
    simp only [comp_apply]
    split_ifs
    · rw [(hfield n).1, (hfield n).2]
    · rfl
  · rw [norm_changeNorm fun n => (hfield n).1]
    by_cases hf : field' = field
    · rw [hf, update_self]
      rcases hn : r.norm field with _ | n
      · rw [h.shown hn]
        rfl
      · rw [h.value hn, map_some, if_pos (norm_eq_some hn).2, map_some,
          map_some, (hvalue n hn).1]
    · rw [update_of_ne hf, ← h.norm, map_map]
      rcases hn : r.norm field' with _ | n
      · rfl
      · have hne : n.field ≠ field := (norm_eq_some hn).2 ▸ hf
        simp [hne]
  · intro n' hn'
    rcases hmem n' hn' with hn | ⟨n, hn, rfl⟩
    · exact h.length n' hn
    · rw [(hvalue n hn).1]
      exact (hvalue n hn).2.1
  · intro n' hn' hclean
    rcases hmem n' hn' with hn | ⟨n, hn, rfl⟩
    · exact h.clean n' hn hclean
    · rw [(hfield n).2, (hvalue n hn).1]
      exact (hvalue n hn).2.2.1 hclean
  · intro n' hn' hdirty
    rcases hmem n' hn' with hn | ⟨n, hn, rfl⟩
    · exact h.dirty n' hn hdirty
    · exact (hvalue n hn).2.2.2 hdirty

/-- The field has norms and they are not cached, or there is no document to have one. -/
def SegmentReader.Uncached (r : SegmentReader segment) (field : NSString) : Prop :=
  segment.maximalDocument = 0 ∨ ∃ n, r.norm field = some n ∧ n.bytes.length = 0

theorem HoldsNorms.input (h : HoldsNorms t r d) (hn : r.norm field = some n)
    (hbytes : n.bytes.length = 0) :
    n.input.take segment.maximalDocument = t.shown segment.maximalDocument field := by
  have hlen := h.length n (norm_eq_some hn).1
  have hvalue : n.value = n.input := by
    rw [Norm.value, if_neg (by omega)]
  rw [hvalue] at hlen
  rw [NormTable.shown, h.value hn, hvalue, getD_some, List.take_of_length_le hlen.le]

theorem HoldsNorms.setNorms (h : HoldsNorms t r d) (hun : r.Uncached field) (memory : Memory)
    (bytes : List UInt8) (offset : ℕ) :
    r.setNorms memory field bytes offset
      = replaceBytesInRange bytes offset (t.shown segment.maximalDocument field) := by
  unfold SegmentReader.setNorms
  rcases hun with h0 | ⟨n, hn, hbytes⟩
  · have hnil : t.shown segment.maximalDocument field = [] :=
      List.eq_nil_of_length_eq_zero ((h.length_shown field).trans h0)
    rw [hnil]
    split
    · simp [h0, Memory.bytes]
    · split_ifs <;> simp [h0, Memory.bytes]
  · rw [hn]
    simp only
    rw [if_neg (by omega), h.input hn hbytes]

theorem SegmentReader.setNorms_of_not_uncached (hun : ¬ r.Uncached field) (memory : Memory)
    (bytes : List UInt8) (offset : ℕ) :
    r.setNorms memory field bytes offset
      = replaceBytesInRange bytes offset (memory.bytes segment.maximalDocument) := by
  unfold setNorms
  rcases hn : r.norm field with _ | n
  · rfl
  · have hpos : 0 < n.bytes.length := by
      by_contra h0
      exact hun (Or.inr ⟨n, hn, by omega⟩)
    simp only
    rw [if_pos hpos]

theorem HoldsNorms.update_self (h : HoldsNorms t r d) (hn : r.norm field = some n) :
    update t field ((t field).map fun _ => n.value) = t := by
  rw [h.value hn, map_some, ← h.value hn, update_eq_self]

theorem HoldsNorms.sendNorms (h : HoldsNorms t r d) (memory : Memory) (field : NSString) :
    (r.sendNorms memory field).1 = t.shown segment.maximalDocument field
      ∧ HoldsNorms t (r.sendNorms memory field).2 d := by
  unfold SegmentReader.sendNorms getNorms
  rcases hn : r.norm field with _ | n
  · simp only
    rw [NormTable.shown, h.shown hn]
    exact ⟨rfl, h⟩
  · simp only
    split_ifs with h0
    · have hread : (r.setNorms memory field [] 0).getD [] = n.value := by
        rw [h.setNorms (Or.inr ⟨n, hn, h0⟩), replaceBytesInRange_nil, getD_some,
          NormTable.shown, h.value hn, getD_some]
      have hlen := h.length n (norm_eq_some hn).1
      rw [hread]
      refine ⟨by simp [NormTable.shown, h.value hn], ?_⟩
      rw [← h.update_self hn]
      refine h.changeNorm (fun _ => ⟨rfl, rfl⟩) ?_
      intro n' hn'
      obtain rfl := some.inj (hn.symm.trans hn')
      refine ⟨?_, hlen, h.clean n (norm_eq_some hn).1,
        fun hd => ⟨hlen, (h.dirty n (norm_eq_some hn).1 hd).2⟩⟩
      unfold Norm.value
      split_ifs <;> simp_all
    · refine ⟨?_, h⟩
      simp [NormTable.shown, h.value hn, Norm.value, show 0 < n.bytes.length by omega]

theorem SegmentReader.changeNorm_changeNorm (r : SegmentReader segment) {change : Norm → Norm}
    (h : ∀ n, (change n).field = n.field) (change' : Norm → Norm) :
    (r.changeNorm field change).changeNorm field change'
      = r.changeNorm field fun n => change' (change n) := by
  unfold changeNorm
  simp only [List.map_map]
  congr 1
  refine List.map_congr_left fun n _ => ?_
  simp only [comp_apply]
  by_cases hf : n.field = field
  · rw [if_pos hf, if_pos hf, if_pos ((h n).trans hf)]
  · rw [if_neg hf, if_neg hf, if_neg hf]

theorem SegmentReader.setBytes_setBytes (r : SegmentReader segment)
    (bytes bytes' : List UInt8) :
    (r.setBytes field bytes).setBytes field bytes' = r.setBytes field bytes' :=
  @changeNorm_changeNorm Term segment field r (fun n => { n with bytes }) (fun _ => rfl) _

theorem SegmentReader.setBytes_setDirty (r : SegmentReader segment) (field : NSString)
    (bytes : List UInt8) :
    (r.setDirty field).setBytes field bytes
      = { r.changeNorm field (fun n => { n with dirty := true, bytes }) with
          normsDirty := true } := by
  have h := @changeNorm_changeNorm Term segment field r (fun n => { n with dirty := true })
    (fun _ => rfl) fun n => { n with bytes }
  unfold setBytes setDirty
  rw [← h]
  rfl

theorem SegmentReader.setBytes_sendNorms (r : SegmentReader segment) (memory : Memory)
    (bytes : List UInt8) :
    (r.sendNorms memory field).2.setBytes field bytes = r.setBytes field bytes := by
  unfold sendNorms getNorms
  rcases r.norm field with _ | n
  · rfl
  · simp only
    split_ifs
    · exact r.setBytes_setBytes _ _
    · rfl

theorem SegmentReader.norm_setDirty (r : SegmentReader segment) (field : NSString) :
    (r.setDirty field).norm field = (r.norm field).map fun n => { n with dirty := true } := by
  have h := @norm_changeNorm Term segment r (fun n => { n with dirty := true }) (fun _ => rfl)
    field field
  rw [show (r.setDirty field).norm field = _ from h]
  rcases hn : r.norm field with _ | n
  · rfl
  · rw [map_some, if_pos (norm_eq_some hn).2, map_some]

theorem SegmentReader.sendNorms_setDirty (r : SegmentReader segment) (memory : Memory)
    (field : NSString) :
    ((r.setDirty field).sendNorms memory field).1 = (r.sendNorms memory field).1 := by
  unfold sendNorms getNorms setNorms
  rw [norm_setDirty]
  rcases r.norm field with _ | n
  · rfl
  · simp only [map_some]
    split_ifs <;> rfl

theorem HoldsNorms.setNorm (h : HoldsNorms t r d) {doc : ℕ} (hdoc : doc < segment.maximalDocument)
    (memory : Memory) (field : NSString) (value : UInt8) :
    ∃ r', r.setNorm memory doc field value = some r' ∧ HoldsNorms (t.set doc field value) r' d := by
  unfold SegmentReader.setNorm doSetNorm
  rcases hn : r.norm field with _ | n
  · have hset : t.set doc field value = t := by
      rw [NormTable.set, h.shown hn, map_none, ← h.shown hn, update_eq_self]
    rw [hset]
    exact ⟨_, rfl, h.congr rfl id rfl fun _ => rfl⟩
  · have hlen := h.length n (norm_eq_some hn).1
    have hread : ((r.setDirty field).sendNorms memory field).1 = n.value := by
      rw [r.sendNorms_setDirty, (h.sendNorms memory field).1, NormTable.shown, h.value hn,
        getD_some]
    have hset : t.set doc field value
        = update t field ((t field).map fun _ => n.value.set doc value) := by
      rw [NormTable.set, h.value hn]
      rfl
    simp only [hread]
    rw [replaceBytesInRange_byte (by omega), map_some, map_some, hset,
      setBytes_sendNorms, setBytes_setDirty]
    refine ⟨_, rfl, ?_⟩
    have hmarked : HoldsNorms t { r with normsDirty := true, hasChanges := true } d :=
      h.congr rfl (fun _ => rfl) rfl fun _ => rfl
    refine hmarked.changeNorm (fun _ => ⟨rfl, rfl⟩) ?_
    intro n' _
    have hbytes : (n.value.set doc value).length = segment.maximalDocument := by
      rw [List.length_set, hlen]
    refine ⟨?_, hbytes, nofun, fun _ => ⟨hbytes, rfl⟩⟩
    rw [Norm.value, if_pos (by rw [hbytes]; omega)]

end Reading

end Etoile.Lucene
