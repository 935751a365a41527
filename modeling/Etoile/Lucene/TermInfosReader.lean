import Etoile.Lucene.SegmentTermEnumerator

/-!
# The reader of the term dictionary

The index is read into memory at the first lookup that needs it.  A lookup searches it and then
scans the dictionary with an enumerator: every `-internalTermEnumerator` is a new copy, so the one
that is sought is not the one that is scanned.
-/

namespace Etoile.Lucene

open List Option

structure TermInfosReader where
  origEnum : SegmentTermEnumerator
  indexEnum : SegmentTermEnumerator
  /-- `indexTerms`, `indexInfos` and `indexPointers`, nil before the index is read -/
  index : Option (List (Entry × ℕ))

namespace TermInfosReader

def initWithDirectory (tis tii : List UInt8) (fieldInfos : FieldInfos) :
    Option TermInfosReader := do
  let origEnum ← SegmentTermEnumerator.initWithIndexInput tis fieldInfos false
  let indexEnum ← SegmentTermEnumerator.initWithIndexInput tii fieldInfos true
  return { origEnum, indexEnum, index := none }

def size (r : TermInfosReader) : ℤ := r.origEnum.size

def termEnumerator (r : TermInfosReader) : SegmentTermEnumerator := r.origEnum

def internalTermEnumerator (r : TermInfosReader) : SegmentTermEnumerator := r.termEnumerator

/-- The entries up to the first that cannot be read, and whether all could. -/
def readIndex (e : SegmentTermEnumerator) : Bool × List (Entry × ℕ) :=
  match _h : e.hasNextTerm with
  | none => (false, [])
  | some (false, _) => (true, [])
  | some (true, e') =>
    let (read, index) := readIndex e'
    (read, ((e'.termBuffer, e'.termInfo), e'.indexPointer) :: index)
  termination_by e.remaining
  decreasing_by exact SegmentTermEnumerator.remaining_lt _h

def ensureIndexIsRead (r : TermInfosReader) : Bool × TermInfosReader :=
  match r.index with
  | some _ => (true, r)
  | none => ((readIndex r.indexEnum).1, { r with index := some (readIndex r.indexEnum).2 })

/-- The array is nil before the index is read, and nil has no objects. -/
def indexTerms (r : TermInfosReader) : List Term := (r.index.getD []).map fun row => row.1.1

/-- What is sought is a copy that nobody keeps; before the index is read it is sought to nil. -/
def seekEnumerator (indexOffset : ℤ) (r : TermInfosReader) : Option SegmentTermEnumerator :=
  let pos := indexOffset * r.internalTermEnumerator.indexInterval - 1
  match r.index with
  | none => some (r.internalTermEnumerator.seek 0 pos Term.empty TermInfo.empty)
  | some index => (objectAtIndex index indexOffset).map fun row =>
      r.internalTermEnumerator.seek row.2 pos row.1.1 row.1.2

def scanAtPosition (position : ℤ) (e : SegmentTermEnumerator) : Option (Option Term) :=
  if e.position < position then
    match _h : e.hasNextTerm with
    | none => none
    | some (false, _) => some none
    | some (true, e') => scanAtPosition position e'
  else some (some e.termBuffer)
  termination_by e.remaining
  decreasing_by exact SegmentTermEnumerator.remaining_lt _h

def scanEnumeratorAtPosition (position : ℤ) (r : TermInfosReader) : Option (Option Term) :=
  scanAtPosition position r.internalTermEnumerator

def termAtPosition (position : ℤ) (r : TermInfosReader) : Option (Option Term) :=
  let enumerator := r.internalTermEnumerator
  if r.size = 0 then some none
  else if enumerator.position ≤ position
      ∧ position < enumerator.position + enumerator.indexInterval then
    r.scanEnumeratorAtPosition position
  else do
    let _ ← r.seekEnumerator (position.tdiv enumerator.indexInterval)
    r.scanEnumeratorAtPosition position

/-- The numbers of index entries for which a search below the first ends before it. -/
def SearchMisses (count : ℕ) : Prop := ∃ k, 3 * 2 ^ k ≤ count + 1 ∧ count + 2 ≤ 2 ^ (k + 2)

theorem searchMisses_halve {n : ℕ} (hn : 2 ≤ n) : SearchMisses (n / 2) ↔ SearchMisses (n + 1) := by
  unfold SearchMisses
  constructor
  · rintro ⟨k, hlo, hhi⟩
    refine ⟨k + 1, ?_, ?_⟩ <;> rw [pow_succ] <;> omega
  · rintro ⟨_ | k, hlo, hhi⟩
    · omega
    · rw [pow_succ] at hlo
      rw [show k + 1 + 2 = k + 2 + 1 by omega, pow_succ] at hhi
      exact ⟨k, by omega, by omega⟩

theorem not_searchMisses_one : ¬SearchMisses 1 := by
  rintro ⟨k, hlo, -⟩
  have hpow := Nat.one_le_two_pow (n := k)
  omega

theorem searchMisses_two : SearchMisses 2 := ⟨0, by omega, by omega⟩

variable [Collation]

def searchLoop (indexTerms : List Term) (term : Term) (lo hi : ℤ) : Option ℤ :=
  if lo < hi then
    (objectAtIndex indexTerms ((lo + hi) / 2)).bind fun midTerm =>
      match term.compare midTerm with
      | .lt => searchLoop indexTerms term lo ((lo + hi) / 2 - 1)
      | .gt => searchLoop indexTerms term ((lo + hi) / 2 + 1) hi
      | .eq => some ((lo + hi) / 2)
  else some hi
  termination_by (hi - lo).toNat

def indexOffset (term : Term) (r : TermInfosReader) : Option ℤ :=
  searchLoop r.indexTerms term 0 (r.indexTerms.length - 1)

def scanEnumerator (term : Term) (r : TermInfosReader) : Option (Option TermInfo) := do
  let enumerator ← r.internalTermEnumerator.scanTo term
  return if term.compare enumerator.termBuffer = .eq then some enumerator.termInfo else none

/-- The term is at or past the current one, but before the end of its block. -/
def needsNoSeek (term : Term) (r : TermInfosReader) : Option Bool :=
  let enumerator := r.internalTermEnumerator
  if term.compare enumerator.prevBuffer = .gt ∨ term.compare enumerator.termBuffer ≠ .lt then
    let enumOffset := enumerator.position.tdiv enumerator.indexInterval + 1
    if (r.indexTerms.length : ℤ) = enumOffset then some true
    else (objectAtIndex r.indexTerms enumOffset).map fun indexTerm =>
      term.compare indexTerm = .lt
  else some false

/-- `-termInfo:` once the index is read. -/
def findTermInfo (term : Term) (r : TermInfosReader) : Option (Option TermInfo) := do
  if ← r.needsNoSeek term then
    r.scanEnumerator term
  else
    let index ← r.indexOffset term
    if index < 0 then
      return none
    let _ ← r.seekEnumerator index
    r.scanEnumerator term

def termInfo (term : Term) (r : TermInfosReader) : Option (Option TermInfo) × TermInfosReader :=
  if r.size = 0 then (some none, r)
  else
    let (read, r) := r.ensureIndexIsRead
    (if read then r.findTermInfo term else none, r)

def findPosition (term : Term) (r : TermInfosReader) : Option ℤ := do
  let indexOffset ← r.indexOffset term
  let _ ← r.seekEnumerator indexOffset
  let enumerator ← r.internalTermEnumerator.scanTo term
  return if term.compare enumerator.termBuffer = .eq then enumerator.position else -1

def positionOfTerm (term : Term) (r : TermInfosReader) : Option ℤ × TermInfosReader :=
  if r.size = 0 then (some (-1), r)
  else
    let (read, r) := r.ensureIndexIsRead
    (if read then r.findPosition term else none, r)

def seekTerm (term : Term) (r : TermInfosReader) : Option SegmentTermEnumerator := do
  let enumerator := r.internalTermEnumerator
  let indexOffset ← r.indexOffset term
  let _ ← r.seekEnumerator indexOffset
  enumerator.scanTo term

def termEnumeratorWithTerm (term : Term) (r : TermInfosReader) :
    Option SegmentTermEnumerator × TermInfosReader :=
  let (read, r) := r.ensureIndexIsRead
  (if read then r.seekTerm term else none, r)

inductive Lookup
  | termInfo (term : Term)
  | termAtPosition (position : ℤ)
  | positionOfTerm (term : Term)
  | termEnumeratorWithTerm (term : Term)
  | termEnumerator

def perform (r : TermInfosReader) : Lookup → TermInfosReader
  | .termInfo term => (r.termInfo term).2
  | .termAtPosition _ => r
  | .positionOfTerm term => (r.positionOfTerm term).2
  | .termEnumeratorWithTerm term => (r.termEnumeratorWithTerm term).2
  | .termEnumerator => r

section search
variable {terms : List Term} {term first : Term}

theorem searchLoop_of_le (hfirst : terms.head? = some first) (hle : first ≤ term) :
    ∀ lo hi : ℤ, 0 ≤ lo → 0 ≤ hi → hi < terms.length →
      ∃ i : ℕ, searchLoop terms term lo hi = some (i : ℤ) ∧ i < terms.length := by
  intro lo hi hlo hhi hlen
  unfold searchLoop
  split_ifs with hlt
  · obtain ⟨n, hn, hmid, hterm⟩ :=
      @objectAtIndex_of_lt _ terms ((lo + hi) / 2) (by omega) (by omega)
    rw [hterm, bind_some, hmid]
    rcases hcompare : term.compare terms[n] with _ | _ | _
    · have hzero : n ≠ 0 := by
        rintro rfl
        rw [Term.compare_lt_iff] at hcompare
        rw [head?_eq_getElem?, getElem?_eq_getElem hn, some.injEq] at hfirst
        exact absurd hle (not_le.2 (hfirst ▸ hcompare))
      exact searchLoop_of_le hfirst hle lo (n - 1) hlo (by omega) (by omega)
    · exact ⟨n, rfl, hn⟩
    · exact searchLoop_of_le hfirst hle (n + 1) hi (by omega) hhi hlen
  · obtain ⟨i, rfl⟩ := Int.eq_ofNat_of_zero_le hhi
    exact ⟨i, rfl, by omega⟩
  termination_by lo hi => (hi - lo).toNat

/-- Below the first term every comparison goes down, from `hi` to `hi / 2 - 1`. -/
theorem searchLoop_of_lt (hlt : ∀ x ∈ terms, term < x) : ∀ hi : ℕ, hi < terms.length →
    ∃ i : ℤ, searchLoop terms term 0 hi = some i ∧ i < terms.length
      ∧ ((i = -1 ∧ SearchMisses (hi + 1)) ∨ (0 ≤ i ∧ ¬SearchMisses (hi + 1))) := by
  intro hi hlen
  rcases Nat.eq_zero_or_pos hi with rfl | hpos
  · unfold searchLoop
    exact ⟨0, if_neg (by omega), by omega, Or.inr ⟨le_rfl, not_searchMisses_one⟩⟩
  · obtain ⟨n, hn, hmid, hterm⟩ :=
      @objectAtIndex_of_lt _ terms ((0 + hi) / 2) (by omega) (by omega)
    have hdown : searchLoop terms term 0 hi = searchLoop terms term 0 ((0 + hi) / 2 - 1) := by
      rw [searchLoop, if_pos (by omega), hterm, bind_some,
        Term.compare_lt_iff.2 (hlt _ (getElem_mem hn))]
    rw [hdown]
    rcases Nat.lt_or_ge hi 2 with hone | htwo
    · obtain rfl : hi = 1 := by omega
      unfold searchLoop
      exact ⟨-1, if_neg (by omega), by omega, Or.inl ⟨rfl, searchMisses_two⟩⟩
    · obtain ⟨i, hsearch, hi', hcases⟩ := searchLoop_of_lt hlt (hi / 2 - 1) (by omega)
      have hhi : ((hi / 2 - 1 : ℕ) : ℤ) = (0 + hi) / 2 - 1 := by omega
      rw [Nat.sub_add_cancel (by omega), searchMisses_halve htwo] at hcases
      exact ⟨i, hhi ▸ hsearch, hi', hcases⟩

end search

end TermInfosReader

variable {fieldInfos : FieldInfos} {indexInterval : ℕ} {entries : List Entry}
  {rows : List (Entry × ℕ)} {r : TermInfosReader}

namespace TermInfosReader

/-- A reader of a dictionary with these entries, before or after its index is read. -/
structure Opened (fieldInfos : FieldInfos) (indexInterval : ℕ) (entries : List Entry)
    (rows : List (Entry × ℕ)) (r : TermInfosReader) : Prop where
  orig : r.origEnum.Positioned fieldInfos Entry.empty (entries.map (·, 0))
  position : r.origEnum.position = -1
  size : r.size = entries.length
  indexInterval_eq : r.origEnum.indexInterval = indexInterval
  indexEnum : r.indexEnum.Positioned fieldInfos Entry.empty rows
  isIndex : IsIndex indexInterval entries rows
  chain : (Entry.empty :: rows.map Prod.fst).IsChain (SegmentTermEnumerator.Follows fieldInfos)
  index : ∀ index, r.index = some index → r.indexTerms = rows.map fun row => row.1.1

theorem readIndex_of_positioned : ∀ {rows : List (Entry × ℕ)} {last : Entry}
    {e : SegmentTermEnumerator}, e.Positioned fieldInfos last rows →
      (last :: rows.map Prod.fst).IsChain (SegmentTermEnumerator.Follows fieldInfos) →
      (readIndex e).1 = true
        ∧ (readIndex e).2.map (fun row => row.1.1) = rows.map fun row => row.1.1
  | [], _, e, h, _ => by
    unfold readIndex
    split <;> simp_all [h.hasNextTerm_nil.1]
  | row :: rows, last, e, h, hchain => by
    rw [map_cons, isChain_cons_cons] at hchain
    obtain ⟨e', hnext, hpos, -, -⟩ := h.hasNextTerm_cons hchain.1
    obtain ⟨hread, hterms⟩ := readIndex_of_positioned hpos hchain.2
    unfold readIndex
    split
    · simp_all
    · simp_all
    · rename_i e'' hnext'
      rw [hnext, some.injEq, Prod.mk.injEq] at hnext'
      obtain ⟨-, rfl⟩ := hnext'
      refine ⟨hread, ?_⟩
      rw [map_cons, map_cons, hterms, hpos.term]

theorem Opened.ensureIndexIsRead (h : Opened fieldInfos indexInterval entries rows r) :
    r.ensureIndexIsRead.1 = true
      ∧ Opened fieldInfos indexInterval entries rows r.ensureIndexIsRead.2
      ∧ ∃ index, r.ensureIndexIsRead.2.index = some index := by
  unfold TermInfosReader.ensureIndexIsRead
  rcases hindex : r.index with _ | index
  · obtain ⟨hread, hterms⟩ := readIndex_of_positioned h.indexEnum h.chain
    refine ⟨hread, { h with index := ?_ }, _, rfl⟩
    exact fun _ _ => hterms
  · exact ⟨rfl, h, index, hindex⟩

theorem scanAtPosition_of_positioned : ∀ {rows : List (Entry × ℕ)} {last : Entry}
    {e : SegmentTermEnumerator}, e.Positioned fieldInfos last rows →
      (last :: rows.map Prod.fst).IsChain (SegmentTermEnumerator.Follows fieldInfos) →
      ∀ {k : ℕ} {entry : Entry}, (last :: rows.map Prod.fst)[k]? = some entry →
        scanAtPosition (e.position + k) e = some (some entry.1)
  | _, last, e, h, _, 0, entry, hentry => by
    obtain rfl : last = entry := by simpa using hentry
    unfold scanAtPosition
    rw [if_neg (by omega), h.term]
  | [], _, _, _, _, k + 1, _, hentry => by simp at hentry
  | row :: rows, last, e, h, hchain, k + 1, entry, hentry => by
    rw [map_cons, isChain_cons_cons] at hchain
    obtain ⟨e', hnext, hpos, -, hposition⟩ := h.hasNextTerm_cons hchain.1
    have hrest := scanAtPosition_of_positioned hpos hchain.2 (k := k) (by simpa using hentry)
    rw [hposition, show e.position + 1 + (k : ℤ) = e.position + (k + 1 : ℕ) by omega] at hrest
    rw [scanAtPosition, if_pos (by omega)]
    split <;> simp_all

section indexed
variable (h : Opened fieldInfos indexInterval entries rows r) {index : List (Entry × ℕ)}
  (hindex : r.index = some index)
include h hindex

theorem Opened.length_indexTerms :
    r.indexTerms.length = indexSize indexInterval entries.length := by
  rw [h.index index hindex, length_map, h.isIndex.length]

theorem Opened.mem_of_mem_indexTerms {t : Term} (ht : t ∈ r.indexTerms) :
    ∃ e ∈ entries, e.1 = t := by
  rw [h.index index hindex] at ht
  obtain ⟨row, hrow, rfl⟩ := mem_map.1 ht
  exact ⟨row.1, h.isIndex.mem row hrow, rfl⟩

theorem Opened.head?_indexTerms : r.indexTerms.head? = (entries.map Prod.fst).head? := by
  have hhead := h.isIndex.head
  rw [h.index index hindex, head?_map, head?_map, ← hhead, head?_map,
    Option.map_map]
  rfl

theorem Opened.seekEnumerator_isSome {i : ℤ} :
    (r.seekEnumerator i).isSome ↔ 0 ≤ i ∧ i < indexSize indexInterval entries.length := by
  have hlength := h.length_indexTerms hindex
  rw [indexTerms, hindex, getD_some, length_map] at hlength
  unfold TermInfosReader.seekEnumerator
  rw [hindex, isSome_map, ← hlength]
  rcases i with i | i
  · simp [objectAtIndex]
  · simp [objectAtIndex]

end indexed

variable [Collation]

theorem Opened.perform (h : Opened fieldInfos indexInterval entries rows r) (l : Lookup) :
    Opened fieldInfos indexInterval entries rows (r.perform l) := by
  have hread := h.ensureIndexIsRead.2.1
  cases l with
  | termInfo term =>
    unfold TermInfosReader.perform TermInfosReader.termInfo
    split_ifs
    · exact h
    · exact hread
  | termAtPosition position => exact h
  | positionOfTerm term =>
    unfold TermInfosReader.perform TermInfosReader.positionOfTerm
    split_ifs
    · exact h
    · exact hread
  | termEnumeratorWithTerm term => exact hread
  | termEnumerator => exact h

theorem Opened.history (h : Opened fieldInfos indexInterval entries rows r)
    (history : List Lookup) :
    Opened fieldInfos indexInterval entries rows (history.foldl TermInfosReader.perform r) := by
  induction history generalizing r with
  | nil => exact h
  | cons l history ih => exact ih (h.perform l)

end TermInfosReader

end Etoile.Lucene
