import Etoile.Lib.Starts
import Etoile.Lucene.Streams
import Mathlib.Tactic

/-!
# The multi reader

`LCMultiReader` appends the documents of its sub-readers.  `starts` keeps where each of them starts,
empty ones at the start of the next, and a binary search finds the sub-reader of a document.
-/

namespace Etoile.Lucene

open List Option

variable {σ Term Document Vector : Type}

/-- What `LCMultiReader` sends to a reader, over the state `σ` of all objects. -/
structure IndexReader (σ Term Document Vector : Type) where
  maximalDocument : ℕ
  hasDeletions : σ → Bool
  numberOfDocuments : σ → ℤ
  document : ℤ → σ → Option Document
  isDeleted : ℤ → σ → Bool
  termFrequencyVectors : ℤ → σ → Option (List Vector)
  termFrequencyVector : ℤ → String → σ → Option Vector
  documentFrequency : Term → σ → ℕ
  deleteDocument : ℤ → σ → σ
  undeleteAll : σ → σ

structure MultiReader (σ Term Document Vector : Type) where
  subReaders : List (IndexReader σ Term Document Vector) := []
  starts : List ℕ := []
  maxDoc : ℕ := 0
  /-- `-1` when it has to be counted anew -/
  numDocs : ℤ := -1
  hasDeletions : Bool := false

namespace MultiReader

def initializeLoop (s : σ) : List (IndexReader σ Term Document Vector) →
    MultiReader σ Term Document Vector → MultiReader σ Term Document Vector
  | [], m => { m with starts := m.starts ++ [m.maxDoc] }
  | reader :: readers, m => initializeLoop s readers
      { m with
        starts := m.starts ++ [m.maxDoc]
        maxDoc := m.maxDoc + reader.maximalDocument
        hasDeletions := m.hasDeletions || reader.hasDeletions s }

def initWithReaders (sr : List (IndexReader σ Term Document Vector)) (s : σ) :
    MultiReader σ Term Document Vector :=
  initializeLoop s sr { subReaders := sr }

/-- `while (mid+1 < count && starts[mid+1] == midValue) mid++` -/
def lastMatch (starts : List ℕ) (count midValue mid : ℕ) : ℕ :=
  if mid + 1 < count ∧ starts[mid + 1]? = some midValue then
    lastMatch starts count midValue (mid + 1)
  else mid
  termination_by count - mid

def searchStarts (starts : List ℕ) (count : ℕ) (n lo hi : ℤ) : Option ℤ :=
  if lo ≤ hi then
    (objectAtIndex starts ((lo + hi) / 2)).bind fun midValue =>
      if n < midValue then searchStarts starts count n lo ((lo + hi) / 2 - 1)
      else if midValue < n then searchStarts starts count n ((lo + hi) / 2 + 1) hi
      else some (lastMatch starts count midValue ((lo + hi) / 2).toNat)
  else some hi
  termination_by (hi + 1 - lo).toNat

variable (m : MultiReader σ Term Document Vector)

def readerIndex (n : ℤ) : Option ℤ :=
  searchStarts m.starts m.subReaders.length n 0 (m.subReaders.length - 1)

/-- A message about the document `n` goes to its sub-reader. -/
def dispatch {α : Type} (n : ℤ) (message : IndexReader σ Term Document Vector → ℤ → α) :
    Option α := do
  let i ← m.readerIndex n
  let reader ← objectAtIndex m.subReaders i
  let start ← objectAtIndex m.starts i
  return message reader (n - start)

def document (n : ℤ) (s : σ) : Option (Option Document) :=
  m.dispatch n fun reader n => reader.document n s

def isDeleted (n : ℤ) (s : σ) : Option Bool :=
  m.dispatch n fun reader n => reader.isDeleted n s

def termFrequencyVectors (n : ℤ) (s : σ) : Option (Option (List Vector)) :=
  m.dispatch n fun reader n => reader.termFrequencyVectors n s

def termFrequencyVector (n : ℤ) (field : String) (s : σ) : Option (Option Vector) :=
  m.dispatch n fun reader n => reader.termFrequencyVector n field s

def numberOfDocuments (s : σ) : ℤ × MultiReader σ Term Document Vector :=
  if m.numDocs = -1 then
    let n := m.subReaders.foldl (fun n reader => n + reader.numberOfDocuments s) 0
    (n, { m with numDocs := n })
  else (m.numDocs, m)

def maximalDocument : ℕ := m.maxDoc

def documentFrequency (t : Term) (s : σ) : ℕ :=
  m.subReaders.foldl (fun total reader => total + reader.documentFrequency t s) 0

def doDelete (n : ℤ) (s : σ) : MultiReader σ Term Document Vector × σ :=
  match dispatch { m with numDocs := -1 } n fun reader n => reader.deleteDocument n s with
  | some s' => ({ m with numDocs := -1, hasDeletions := true }, s')
  | none => ({ m with numDocs := -1 }, s)

def doUndeleteAll (s : σ) : MultiReader σ Term Document Vector × σ :=
  ({ m with hasDeletions := false, numDocs := -1 },
    m.subReaders.foldl (fun s reader => reader.undeleteAll s) s)

end MultiReader

inductive Request (Term : Type)
  | document (n : ℤ)
  | isDeleted (n : ℤ)
  | termFrequencyVectors (n : ℤ)
  | termFrequencyVector (n : ℤ) (field : String)
  | numberOfDocuments
  | maximalDocument
  | hasDeletions
  | documentFrequency (t : Term)
  | deleteDocument (n : ℤ)
  | undeleteAll

/-- What a request leaves behind: only counting and the two kinds of changes touch anything. -/
def perform (ms : MultiReader σ Term Document Vector × σ) :
    Request Term → MultiReader σ Term Document Vector × σ
  | .numberOfDocuments => ((ms.1.numberOfDocuments ms.2).2, ms.2)
  | .deleteDocument n => ms.1.doDelete n ms.2
  | .undeleteAll => ms.1.doUndeleteAll ms.2
  | _ => ms

namespace MultiReader

def sizes (subs : List (IndexReader σ Term Document Vector)) : List ℕ :=
  subs.map (·.maximalDocument)

/-- The sub-readers and starts are those of `-initWithReaders:`, a count in the cache is right. -/
structure Built (subs : List (IndexReader σ Term Document Vector)) (s : σ)
    (m : MultiReader σ Term Document Vector) : Prop where
  subReaders : m.subReaders = subs
  starts : m.starts = (range (subs.length + 1)).map (start (sizes subs))
  maxDoc : m.maxDoc = (sizes subs).sum
  numDocs : m.numDocs = -1 ∨ m.numDocs = (subs.map (·.numberOfDocuments s)).sum

variable {subs : List (IndexReader σ Term Document Vector)} {s : σ}
  {m : MultiReader σ Term Document Vector}

theorem initializeLoop_spec (s : σ) : ∀ (rest : List (IndexReader σ Term Document Vector))
    (m : MultiReader σ Term Document Vector),
    (initializeLoop s rest m).starts = m.starts ++
        (range (rest.length + 1)).map (fun i => m.maxDoc + start (sizes rest) i)
      ∧ (initializeLoop s rest m).maxDoc = m.maxDoc + (sizes rest).sum
      ∧ (initializeLoop s rest m).subReaders = m.subReaders
      ∧ (initializeLoop s rest m).numDocs = m.numDocs
  | [], m => by simp [initializeLoop, sizes]
  | reader :: rest, m => by
    unfold initializeLoop
    obtain ⟨h1, h2, h3, h4⟩ := initializeLoop_spec s rest
      { m with
        starts := m.starts ++ [m.maxDoc]
        maxDoc := m.maxDoc + reader.maximalDocument
        hasDeletions := m.hasDeletions || reader.hasDeletions s }
    refine ⟨?_, ?_, h3, h4⟩
    · rw [h1]
      conv_rhs => rw [length_cons, range_succ_eq_map]
      simp [sizes, Nat.add_assoc, Function.comp_def]
    · rw [h2]
      simp [sizes, Nat.add_assoc]

theorem built_initWithReaders (subs : List (IndexReader σ Term Document Vector)) (s : σ) :
    Built subs s (initWithReaders subs s) := by
  obtain ⟨h1, h2, h3, h4⟩ := initializeLoop_spec s subs { subReaders := subs }
  refine ⟨h3, ?_, ?_, Or.inl h4⟩
  · rw [initWithReaders, h1]
    simp
  · rw [initWithReaders, h2]
    simp

section Search

variable {lens starts : List ℕ} {n : ℕ}

theorem objectAtIndex_starts (hstarts : starts = (range (lens.length + 1)).map (start lens))
    {i : ℕ} (hi : i ≤ lens.length) : objectAtIndex starts i = some (start lens i) := by
  rw [hstarts]
  show ((range (lens.length + 1)).map (start lens))[i]? = _
  simp [show i < lens.length + 1 by omega]

/-- The scan ends at the last of the starts that equal the one it started from. -/
theorem inBlock_lastMatch (hstarts : starts = (range (lens.length + 1)).map (start lens))
    (hn : n < lens.sum) (mid : ℕ) (hmid : mid < lens.length) (hstart : start lens mid = n) :
    InBlock lens (lastMatch starts lens.length n mid) n := by
  have hnext := objectAtIndex_starts hstarts (i := mid + 1) (by omega)
  change starts[mid + 1]? = _ at hnext
  have hle := start_le_succ lens mid
  unfold MultiReader.lastMatch
  split_ifs with hif
  · rw [hnext, some.injEq] at hif
    exact inBlock_lastMatch hstarts hn (mid + 1) hif.1 hif.2
  · refine ⟨hstart.le, ?_⟩
    by_cases hlast : mid + 1 < lens.length
    · rw [hnext, some.injEq, not_and] at hif
      have := hif hlast
      omega
    · rwa [show mid + 1 = lens.length by omega, start_length]
  termination_by lens.length - mid

theorem inBlock_searchStarts (hstarts : starts = (range (lens.length + 1)).map (start lens))
    (hn : n < lens.sum) (lo : ℕ) (hi : ℤ) (hlo : ∀ j < lo, start lens j ≤ n)
    (hhi : hi < lens.length) (hright : ∀ j : ℕ, hi < j → j ≤ lens.length → n < start lens j)
    (hle : (lo : ℤ) ≤ hi + 1) :
    ∃ i : ℕ, searchStarts starts lens.length n lo hi = some (i : ℤ) ∧ InBlock lens i n := by
  unfold MultiReader.searchStarts
  split_ifs with hif
  · obtain ⟨mid, hmid⟩ : ∃ mid : ℕ, (lo + hi) / 2 = mid := ⟨((lo + hi) / 2).toNat, by omega⟩
    rw [hmid, objectAtIndex_starts hstarts (i := mid) (by omega), bind_some]
    split_ifs with h1 h2
    · refine inBlock_searchStarts hstarts hn lo _ hlo (by omega) (fun j hj _ => ?_) (by omega)
      have := start_mono lens (show mid ≤ j by omega)
      omega
    · refine inBlock_searchStarts hstarts hn (mid + 1) hi (fun j hj => ?_) hhi hright (by omega)
      have := start_mono lens (show j ≤ mid by omega)
      omega
    · have heq : start lens mid = n := by omega
      rw [Int.toNat_natCast, heq]
      exact ⟨_, rfl, inBlock_lastMatch hstarts hn mid (by omega) heq⟩
  · have hpos : 0 < lo := by
      rcases Nat.eq_zero_or_pos lo with rfl | hpos
      · have := hright 0 (by omega) (by omega)
        rw [start_zero] at this
        omega
      · exact hpos
    obtain ⟨i, rfl⟩ : ∃ i, lo = i + 1 := ⟨lo - 1, by omega⟩
    have heq : hi = i := by omega
    exact ⟨i, congrArg some heq, hlo i (by omega), hright (i + 1) (by omega) (by omega)⟩
  termination_by (hi + 1 - lo).toNat

theorem searchStarts_eq (hstarts : starts = (range (lens.length + 1)).map (start lens)) {i : ℕ}
    (hn : InBlock lens i n) :
    searchStarts starts lens.length n 0 (lens.length - 1) = some (i : ℤ) := by
  have hsum : n < lens.sum := by
    have := start_mono lens (show i + 1 ≤ lens.length from hn.lt_length)
    rw [start_length] at this
    exact hn.2.trans_le this
  obtain ⟨j, hj, hblock⟩ := inBlock_searchStarts hstarts hsum 0 (lens.length - 1) (by simp)
    (by omega) (fun j hj hj' => by rwa [show j = lens.length by omega, start_length]) (by omega)
  rw [hn.unique hblock]
  exact hj

end Search

@[simp] theorem length_sizes : (sizes subs).length = subs.length := by
  simp [sizes]

theorem Built.starts_sizes (h : Built subs s m) :
    m.starts = (range ((sizes subs).length + 1)).map (start (sizes subs)) := by
  rw [h.starts, length_sizes]

theorem Built.readerIndex (h : Built subs s m) {i n : ℕ} (hn : InBlock (sizes subs) i n) :
    m.readerIndex n = some (i : ℤ) := by
  have hsearch := searchStarts_eq h.starts_sizes hn
  rw [length_sizes] at hsearch
  rw [MultiReader.readerIndex, h.subReaders]
  exact hsearch

theorem Built.dispatch (h : Built subs s m) {α : Type}
    {message : IndexReader σ Term Document Vector → ℤ → α} {i n : ℕ}
    {reader : IndexReader σ Term Document Vector} (hreader : subs[i]? = some reader)
    (hn : InBlock (sizes subs) i n) :
    m.dispatch n message = some (message reader (n - start (sizes subs) i)) := by
  have hi : i < subs.length := by simpa using hn.lt_length
  unfold MultiReader.dispatch
  rw [h.readerIndex hn, h.subReaders]
  simp only [bind_eq_bind, bind_some,
    objectAtIndex_starts h.starts_sizes (i := i) (by simpa using hi.le),
    show objectAtIndex subs (i : ℤ) = some reader from hreader]
  rfl

theorem Built.numberOfDocuments (h : Built subs s m) :
    (m.numberOfDocuments s).1 = (subs.map (·.numberOfDocuments s)).sum
      ∧ Built subs s (m.numberOfDocuments s).2 := by
  have hsum : m.subReaders.foldl (fun n reader => n + reader.numberOfDocuments s) 0
      = (subs.map (·.numberOfDocuments s)).sum := by
    rw [h.subReaders, sum_eq_foldl, foldl_map]
  unfold MultiReader.numberOfDocuments
  split_ifs with hcache
  · exact ⟨hsum, h.subReaders, h.starts, h.maxDoc, Or.inr hsum⟩
  · exact ⟨h.numDocs.resolve_left hcache, h⟩

theorem Built.doDelete (h : Built subs s m) (n : ℤ) :
    Built subs (m.doDelete n s).2 (m.doDelete n s).1 := by
  unfold MultiReader.doDelete
  split <;> exact ⟨h.subReaders, h.starts, h.maxDoc, Or.inl rfl⟩

theorem Built.perform (h : Built subs s m) (request : Request Term) :
    Built subs (perform (m, s) request).2 (perform (m, s) request).1 := by
  cases request with
  | numberOfDocuments => exact h.numberOfDocuments.2
  | deleteDocument n => exact h.doDelete n
  | undeleteAll => exact ⟨h.subReaders, h.starts, h.maxDoc, Or.inl rfl⟩
  | _ => exact h

theorem Built.run : ∀ {ms : MultiReader σ Term Document Vector × σ}
    (requests : List (Request Term)),
    Built subs ms.2 ms.1 →
      Built subs (requests.foldl Lucene.perform ms).2 (requests.foldl Lucene.perform ms).1
  | _, [], h => h
  | _, request :: requests, h => Built.run requests (h.perform request)

/-- The multi reader over `subs` numbers their documents one after another. -/
structure Concatenates (subs : List (IndexReader σ Term Document Vector)) (s : σ)
    (m : MultiReader σ Term Document Vector) : Prop where
  maximalDocument : m.maximalDocument = (sizes subs).sum
  numberOfDocuments : (m.numberOfDocuments s).1 = (subs.map (·.numberOfDocuments s)).sum
  documentFrequency : ∀ t, m.documentFrequency t s = (subs.map (·.documentFrequency t s)).sum
  covers : ∀ n < m.maximalDocument, ∃! i, InBlock (sizes subs) i n
  document : ∀ i reader n, subs[i]? = some reader → InBlock (sizes subs) i n →
    m.document n s = some (reader.document (n - start (sizes subs) i) s)
  isDeleted : ∀ i reader n, subs[i]? = some reader → InBlock (sizes subs) i n →
    m.isDeleted n s = some (reader.isDeleted (n - start (sizes subs) i) s)
  termFrequencyVectors : ∀ i reader n, subs[i]? = some reader → InBlock (sizes subs) i n →
    m.termFrequencyVectors n s = some (reader.termFrequencyVectors (n - start (sizes subs) i) s)
  termFrequencyVector : ∀ i reader n field, subs[i]? = some reader → InBlock (sizes subs) i n →
    m.termFrequencyVector n field s
      = some (reader.termFrequencyVector (n - start (sizes subs) i) field s)
  deleteDocument : ∀ i reader n, subs[i]? = some reader → InBlock (sizes subs) i n →
    (m.doDelete n s).2 = reader.deleteDocument (n - start (sizes subs) i) s
  undeleteAll : (m.doUndeleteAll s).2 = subs.foldl (fun s reader => reader.undeleteAll s) s

theorem Built.deleteDocument (h : Built subs s m) {i n : ℕ}
    {reader : IndexReader σ Term Document Vector} (hreader : subs[i]? = some reader)
    (hn : InBlock (sizes subs) i n) :
    (m.doDelete n s).2 = reader.deleteDocument (n - start (sizes subs) i) s := by
  have hclear : Built subs s { m with numDocs := -1 } :=
    ⟨h.subReaders, h.starts, h.maxDoc, Or.inl rfl⟩
  unfold MultiReader.doDelete
  rw [hclear.dispatch hreader hn]

theorem Built.concatenates (h : Built subs s m) : Concatenates subs s m where
  maximalDocument := h.maxDoc
  numberOfDocuments := h.numberOfDocuments.1
  documentFrequency t := by
    rw [MultiReader.documentFrequency, h.subReaders, sum_eq_foldl, foldl_map]
  covers n hn := existsUnique_inBlock (by rwa [← h.maxDoc])
  document _ _ _ := h.dispatch
  isDeleted _ _ _ := h.dispatch
  termFrequencyVectors _ _ _ := h.dispatch
  termFrequencyVector _ _ _ _ := h.dispatch
  deleteDocument _ _ _ := h.deleteDocument
  undeleteAll := by rw [doUndeleteAll, h.subReaders]

/-- Whatever was asked of the reader, it addresses the documents of its sub-readers one after
another. -/
theorem run_concatenates (subs : List (IndexReader σ Term Document Vector)) (s : σ)
    (requests : List (Request Term)) :
    Concatenates subs (requests.foldl perform (initWithReaders subs s, s)).2
      (requests.foldl perform (initWithReaders subs s, s)).1 :=
  (Built.run requests (built_initWithReaders subs s)).concatenates

end MultiReader

end Etoile.Lucene
