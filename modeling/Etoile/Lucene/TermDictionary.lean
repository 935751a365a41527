import Etoile.Lucene.TermInfosReader
import Mathlib.Tactic.NormNum

/-!
# The term dictionary as a sorted map
-/

namespace Etoile.Lucene

open Collation List Option SegmentTermEnumerator TermInfosReader TermInfosWriter

section dictionary
variable [Collation] {fieldInfos : FieldInfos} {indexInterval : ℕ} {entries : List Entry}
  {rows : List (Entry × ℕ)} {r : TermInfosReader} {term : Term}

def entriesFrom (term : Term) (entries : List Entry) : List Entry :=
  entries.filter fun e => term ≤ e.1

def Increasing (entries : List Entry) : Prop := entries.Pairwise fun e e' => e.1 < e'.1

theorem entriesFrom_eq_nil_iff : entriesFrom term entries = [] ↔ ∀ e ∈ entries, e.1 < term := by
  simp [entriesFrom]

theorem entriesFrom_of_getElem? : ∀ {entries : List Entry} {i : ℕ} {e : Entry},
    Increasing entries → entries[i]? = some e → entriesFrom e.1 entries = entries.drop i
  | x :: entries, 0, e, hsorted, he => by
    rw [Increasing, pairwise_cons] at hsorted
    obtain rfl : x = e := by simpa using he
    refine filter_eq_self.2 fun e' he' => ?_
    rcases mem_cons.1 he' with rfl | he'
    · simp
    · simpa using (hsorted.1 e' he').le
  | x :: entries, i + 1, e, hsorted, he => by
    rw [Increasing, pairwise_cons] at hsorted
    rw [getElem?_cons_succ] at he
    have hlt := hsorted.1 e (mem_of_getElem? he)
    rw [drop_succ_cons, ← entriesFrom_of_getElem? hsorted.2 he]
    exact filter_cons_of_neg (by simpa using hlt)

theorem forall_lt_or_exists_head (hne : entries ≠ []) (hsorted : Increasing entries) :
    (∀ e ∈ entries, term < e.1) ∨ ∃ first, entries.head? = some first ∧ first.1 ≤ term := by
  rcases entries with _ | ⟨first, entries⟩
  · exact absurd rfl hne
  · rw [Increasing, pairwise_cons] at hsorted
    rcases lt_or_ge term first.1 with hlt | hle
    · left
      rintro e he
      rcases mem_cons.1 he with rfl | he
      · exact hlt
      · exact hlt.trans (hsorted.1 e he)
    · exact Or.inr ⟨first, rfl, hle⟩

/-- A scan from before a term ends at the first entry from it on, or at the last entry. -/
theorem scanned_of_lt : ∀ {rows : List (Entry × ℕ)} {last : Entry}, last.1 < term →
    Increasing (rows.map Prod.fst) →
      (entriesFrom term (rows.map Prod.fst) = [] ∧
        scanned term last rows = ((rows.map Prod.fst).getLastD last, []))
      ∨ entriesFrom term (rows.map Prod.fst)
        = (scanned term last rows).1 :: (scanned term last rows).2.map Prod.fst
  | [], _, _, _ => Or.inl ⟨rfl, rfl⟩
  | row :: rows, last, hlt, hsorted => by
    rw [Increasing, map_cons, pairwise_cons] at hsorted
    obtain ⟨hfirst, hsorted⟩ := hsorted
    rw [scanned, if_pos hlt, map_cons, getLastD_cons]
    rcases lt_or_ge row.1.1 term with hrow | hrow
    · have hfilter : entriesFrom term (row.1 :: rows.map Prod.fst)
          = entriesFrom term (rows.map Prod.fst) :=
        filter_cons_of_neg (by simpa using hrow)
      rw [hfilter]
      exact scanned_of_lt hrow hsorted
    · right
      have hrest : entriesFrom term (rows.map Prod.fst) = rows.map Prod.fst :=
        filter_eq_self.2 fun e he => by simpa using hrow.trans (hfirst e he).le
      have hscanned : scanned term row.1 rows = (row.1, rows) := by
        rcases rows with _ | ⟨row', rows⟩
        · rfl
        · exact if_neg (not_lt.2 hrow)
      rw [hscanned, entriesFrom, filter_cons_of_pos (by simpa using hrow)]
      exact congrArg _ hrest

section opened
variable (h : Opened fieldInfos indexInterval entries rows r)
  (hwritable : Writable fieldInfos entries)
include h hwritable

theorem scanTo_opened (hterm : term ≠ Term.empty) :
    ∃ e, r.origEnum.scanTo term = some e ∧
      ((entriesFrom term entries = []
          ∧ e.Positioned fieldInfos (entries.getLastD Entry.empty) [])
        ∨ ∃ entry rest, entriesFrom term entries = entry :: rest.map Prod.fst
          ∧ e.Positioned fieldInfos entry rest
          ∧ e.position = entries.length - 1 - rest.length) := by
  have hchain := isChain_follows hwritable.fits hwritable.pointers
  have hscanned := @scanned_of_lt _ term (entries.map fun e => (e, 0)) Entry.empty
    (Term.empty_lt_iff.2 hterm)
  rw [map_fst_map_zero] at hscanned
  obtain ⟨e, hscan, hpos, -, hposition⟩ := h.orig.scanTo term (by rwa [map_fst_map_zero])
  refine ⟨e, hscan, ?_⟩
  rcases hscanned hwritable.increasing with ⟨hnil, hlast⟩ | hcons
  · rw [hlast] at hpos
    exact Or.inl ⟨hnil, hpos⟩
  · right
    have hle : term ≤ (scanned term Entry.empty (entries.map fun e => (e, 0))).1.1 := by
      have hmem : (scanned term Entry.empty (entries.map fun e => (e, 0))).1
          ∈ entriesFrom term entries := by
        rw [hcons]
        exact mem_cons_self
      simpa using (mem_filter.1 hmem).2
    refine ⟨_, _, hcons, hpos, ?_⟩
    rw [hposition hle, h.position, length_map]
    omega

theorem scanTo_of_getElem? {i : ℕ} {entry : Entry} (hentry : entries[i]? = some entry)
    (hterm : entry.1 ≠ Term.empty) :
    ∃ e, r.origEnum.scanTo entry.1 = some e ∧ e.termBuffer = entry.1
      ∧ entry.2.Same e.termInfo ∧ e.position = i := by
  obtain ⟨hi, -⟩ := List.getElem?_eq_some_iff.1 hentry
  have hfrom := entriesFrom_of_getElem? hwritable.increasing hentry
  rw [drop_eq_getElem_cons hi] at hfrom
  obtain ⟨e, hscan, ⟨hnil, -⟩ | ⟨entry', rest, hcons, hpos, hposition⟩⟩ :=
    scanTo_opened h hwritable hterm
  · rw [hnil] at hfrom
    cases hfrom
  · rw [hfrom, cons.injEq] at hcons
    have hlength := congrArg length hcons.2
    rw [length_drop, length_map] at hlength
    rw [getElem?_eq_getElem hi, some.injEq] at hentry
    rw [← hcons.1, hentry] at hpos
    refine ⟨e, hscan, hpos.term, hpos.termInfo, ?_⟩
    omega

theorem scanEnumerator_of_mem {entry : Entry} (he : entry ∈ entries)
    (hterm : entry.1 ≠ Term.empty) :
    ∃ ti, r.scanEnumerator entry.1 = some (some ti) ∧ entry.2.Same ti := by
  obtain ⟨i, hentry⟩ := mem_iff_getElem?.1 he
  obtain ⟨e, hscan, heq, hsame, -⟩ := scanTo_of_getElem? h hwritable hentry hterm
  refine ⟨e.termInfo, ?_, hsame⟩
  show (r.origEnum.scanTo entry.1).bind _ = _
  rw [hscan, bind_some, heq, if_pos (Term.compare_eq_iff.2 rfl)]
  rfl

theorem scanEnumerator_of_not_mem (hterm : term ≠ Term.empty) (hne : ∀ e ∈ entries, e.1 ≠ term) :
    r.scanEnumerator term = some none := by
  have hmiss : ∃ e, r.origEnum.scanTo term = some e ∧ term ≠ e.termBuffer := by
    obtain ⟨e, hscan, ⟨hnil, hpos⟩ | ⟨entry, rest, hcons, hpos, -⟩⟩ :=
      scanTo_opened h hwritable hterm
    · refine ⟨e, hscan, ?_⟩
      rw [hpos.term]
      rcases mem_cons.1 (getLastD_mem_cons (l := entries) (a := Entry.empty)) with
        hempty | hmem
      · rw [hempty]
        exact hterm
      · exact (hne _ hmem).symm
    · have hmem : entry ∈ entriesFrom term entries := by
        rw [hcons]
        exact mem_cons_self
      refine ⟨e, hscan, ?_⟩
      rw [hpos.term]
      exact (hne _ (mem_filter.1 hmem).1).symm
  obtain ⟨e, hscan, hne'⟩ := hmiss
  show (r.origEnum.scanTo term).bind _ = _
  rw [hscan, bind_some, if_neg (mt Term.compare_eq_iff.1 hne')]
  rfl

end opened

section indexed
variable (h : Opened fieldInfos indexInterval entries rows r) {index : List (Entry × ℕ)}
  (hindex : r.index = some index) (hpos : 0 < indexInterval)
include h hindex hpos

theorem indexOffset_of_le {first : Entry} (hfirst : entries.head? = some first)
    (hle : first.1 ≤ term) :
    ∃ i : ℕ, r.indexOffset term = some (i : ℤ) ∧ i < indexSize indexInterval entries.length := by
  have hlength := h.length_indexTerms hindex
  have hhead := h.head?_indexTerms hindex
  rw [head?_map, hfirst] at hhead
  have hsize := div_lt_indexSize hpos (length_pos_of_mem (mem_of_mem_head? hfirst))
  rw [Nat.zero_div] at hsize
  unfold indexOffset
  rw [← hlength]
  exact searchLoop_of_le hhead hle 0 _ le_rfl (by omega) (by omega)

theorem indexOffset_of_lt (hne : entries ≠ []) (hlt : ∀ e ∈ entries, term < e.1) :
    ∃ i : ℤ, r.indexOffset term = some i ∧ i < indexSize indexInterval entries.length
      ∧ ((i = -1 ∧ SearchMisses (indexSize indexInterval entries.length))
        ∨ (0 ≤ i ∧ ¬SearchMisses (indexSize indexInterval entries.length))) := by
  have hlength := h.length_indexTerms hindex
  have hsize := div_lt_indexSize hpos (length_pos_iff.2 hne)
  rw [Nat.zero_div] at hsize
  have hterms : ∀ t ∈ r.indexTerms, term < t := fun t ht => by
    obtain ⟨e, he, rfl⟩ := h.mem_of_mem_indexTerms hindex ht
    exact hlt e he
  obtain ⟨i, hsearch, hi, hcases⟩ :=
    searchLoop_of_lt hterms (r.indexTerms.length - 1) (by omega)
  rw [Nat.sub_add_cancel (by omega)] at hcases
  rw [← hlength]
  refine ⟨i, ?_, hi, hcases⟩
  unfold indexOffset
  rw [← hsearch]
  congr 1
  omega

/-- Whether a seek is needed can be told: the enumerator is before the first block. -/
theorem needsNoSeek_eq (hne : entries ≠ []) : ∃ b, r.needsNoSeek term = some b := by
  have hlength := h.length_indexTerms hindex
  have hsize := div_lt_indexSize hpos (length_pos_iff.2 hne)
  rw [Nat.zero_div] at hsize
  have hoffset : (-1 : ℤ).tdiv indexInterval + 1 = 0 ∨ (-1 : ℤ).tdiv indexInterval + 1 = 1 := by
    rcases Nat.lt_or_ge 1 indexInterval with hlt | hge
    · right
      rw [Int.neg_tdiv, Int.tdiv_eq_zero_of_lt (by omega) (by omega)]
      rfl
    · left
      obtain rfl : indexInterval = 1 := by omega
      rfl
  unfold needsNoSeek internalTermEnumerator termEnumerator
  simp only [h.position, h.indexInterval_eq]
  split_ifs with hat hend
  · exact ⟨true, rfl⟩
  · obtain ⟨n, hn, -, hterm⟩ := @objectAtIndex_of_lt _ r.indexTerms
      ((-1 : ℤ).tdiv indexInterval + 1) (by omega) (by omega)
    rw [hterm]
    exact ⟨_, rfl⟩
  · exact ⟨false, rfl⟩

/-- `-termInfo:` scans, or there is nothing to find. -/
theorem findTermInfo_eq (hne : entries ≠ []) (hsorted : Increasing entries) :
    r.findTermInfo term = r.scanEnumerator term
      ∨ (∀ e ∈ entries, term < e.1) ∧ r.findTermInfo term = some none := by
  obtain ⟨b, hseek⟩ := @needsNoSeek_eq _ _ _ _ _ _ term h _ hindex hpos hne
  have hfind : ∀ i : ℤ, 0 ≤ i → i < indexSize indexInterval entries.length →
      r.indexOffset term = some i → r.findTermInfo term = r.scanEnumerator term := by
    intro i hlo hhi hi
    obtain ⟨e, he⟩ := isSome_iff_exists.1 ((h.seekEnumerator_isSome hindex).2 ⟨hlo, hhi⟩)
    unfold findTermInfo
    simp only [hseek, hi, he, bind_eq_bind, bind_some, if_neg (not_lt.2 hlo)]
    split_ifs <;> rfl
  rcases forall_lt_or_exists_head hne hsorted with hlt | ⟨first, hfirst, hle⟩
  · obtain ⟨i, hi, hhi, ⟨rfl, -⟩ | ⟨hlo, -⟩⟩ := indexOffset_of_lt h hindex hpos hne hlt
    · unfold findTermInfo
      rcases b with _ | _
      · exact Or.inr ⟨hlt, by simp [hseek, hi]⟩
      · exact Or.inl (by simp [hseek])
    · exact Or.inl (hfind i hlo hhi hi)
  · obtain ⟨i, hi, hhi⟩ := indexOffset_of_le h hindex hpos hfirst hle
    exact Or.inl (hfind i (by omega) (by omega) hi)

/-- `-termEnumeratorWithTerm:` scans, or the search has ended before the index. -/
theorem seekTerm_eq (hne : entries ≠ []) (hsorted : Increasing entries) :
    (((∀ e ∈ entries, term < e.1) → ¬SearchMisses (indexSize indexInterval entries.length))
        ∧ r.seekTerm term = r.origEnum.scanTo term)
      ∨ (∀ e ∈ entries, term < e.1) ∧ SearchMisses (indexSize indexInterval entries.length)
        ∧ r.seekTerm term = none := by
  have hfind : ∀ i : ℤ, 0 ≤ i → i < indexSize indexInterval entries.length →
      r.indexOffset term = some i → r.seekTerm term = r.origEnum.scanTo term := by
    intro i hlo hhi hi
    obtain ⟨e, he⟩ := isSome_iff_exists.1 ((h.seekEnumerator_isSome hindex).2 ⟨hlo, hhi⟩)
    unfold seekTerm
    simp only [hi, he, bind_eq_bind, bind_some]
    rfl
  rcases forall_lt_or_exists_head hne hsorted with hlt | ⟨first, hfirst, hle⟩
  · obtain ⟨i, hi, hhi, ⟨rfl, hmiss⟩ | ⟨hlo, hmiss⟩⟩ := indexOffset_of_lt h hindex hpos hne hlt
    · have hseek : r.seekEnumerator (-1) = none := by
        rw [← not_isSome_iff_eq_none, h.seekEnumerator_isSome hindex]
        omega
      refine Or.inr ⟨hlt, hmiss, ?_⟩
      unfold seekTerm
      simp only [hi, hseek, bind_eq_bind, bind_some, bind_none]
    · exact Or.inl ⟨fun _ => hmiss, hfind i hlo hhi hi⟩
  · obtain ⟨i, hi, hhi⟩ := indexOffset_of_le h hindex hpos hfirst hle
    refine Or.inl ⟨fun hlt => ?_, hfind i (by omega) (by omega) hi⟩
    exact absurd hle (not_le.2 (hlt first (mem_of_mem_head? hfirst)))

omit hpos in
theorem seekTerm_of_length (hlength : r.indexTerms.length = 0) : r.seekTerm term = none := by
  have hoffset : r.indexOffset term = some (-1) := by
    unfold indexOffset searchLoop
    rw [hlength]
    exact if_neg (by omega)
  have hseek : r.seekEnumerator (-1) = none := by
    rw [← not_isSome_iff_eq_none, h.seekEnumerator_isSome hindex]
    omega
  unfold seekTerm
  simp only [hoffset, hseek, bind_eq_bind, bind_some, bind_none]

theorem findPosition_of_getElem? (hwritable : Writable fieldInfos entries) {i : ℕ} {entry : Entry}
    (hentry : entries[i]? = some entry) (hterm : entry.1 ≠ Term.empty) :
    r.findPosition entry.1 = some (i : ℤ) := by
  have hmem := mem_of_getElem? hentry
  have hindexed : ∃ i : ℕ, r.indexOffset entry.1 = some (i : ℤ)
      ∧ i < indexSize indexInterval entries.length := by
    rcases forall_lt_or_exists_head (ne_nil_of_mem hmem) hwritable.increasing with
      hlt | ⟨first, hfirst, hle⟩
    · exact absurd (hlt entry hmem) (lt_irrefl _)
    · exact indexOffset_of_le h hindex hpos hfirst hle
  obtain ⟨n, hn, hlt⟩ := hindexed
  obtain ⟨e, he⟩ := isSome_iff_exists.1
    ((h.seekEnumerator_isSome hindex (i := n)).2 ⟨by omega, by omega⟩)
  obtain ⟨e', hscan, hbuffer, -, hposition⟩ := scanTo_of_getElem? h hwritable hentry hterm
  unfold findPosition internalTermEnumerator termEnumerator
  simp only [hn, he, hscan, hbuffer, hposition, Term.compare_eq_iff, bind_eq_bind,
    bind_some, if_true]
  rfl

end indexed

theorem termAtPosition_of_getElem? (h : Opened fieldInfos indexInterval entries rows r)
    (hwritable : Writable fieldInfos entries) (hpos : 0 < indexInterval) {i : ℕ} {entry : Entry}
    (hentry : entries[i]? = some entry) : r.termAtPosition i = some (some entry.1) := by
  obtain ⟨hi, -⟩ := List.getElem?_eq_some_iff.1 hentry
  have hscan : r.scanEnumeratorAtPosition i = some (some entry.1) := by
    have hchain := isChain_follows hwritable.fits hwritable.pointers
    have hat := scanAtPosition_of_positioned h.orig (by rwa [map_fst_map_zero]) (k := i + 1)
      (by rw [map_fst_map_zero, getElem?_cons_succ, hentry])
    rw [h.position, show (-1 : ℤ) + (i + 1 : ℕ) = i by omega] at hat
    exact hat
  have hseek : ∃ e, r.seekEnumerator ((i : ℤ).tdiv indexInterval) = some e := by
    rcases hindex : r.index with _ | index
    · unfold seekEnumerator
      rw [hindex]
      exact ⟨_, rfl⟩
    · have hlt := div_lt_indexSize hpos hi
      rw [← isSome_iff_exists, h.seekEnumerator_isSome hindex, ← Int.ofNat_tdiv]
      exact ⟨Int.natCast_nonneg _, Int.ofNat_lt.2 hlt⟩
  obtain ⟨e, he⟩ := hseek
  unfold termAtPosition internalTermEnumerator termEnumerator
  simp only [h.size, h.indexInterval_eq, he, hscan, bind_eq_bind, bind_some, ite_self]
  exact if_neg (by omega)

structure IsSortedMapAt (entries : List Entry) (term : Term) (r : TermInfosReader) : Prop where
  termInfo_of_mem : ∀ entry ∈ entries, entry.1 = term →
    ∃ ti, (r.termInfo term).1 = some (some ti) ∧ entry.2.Same ti
  termInfo_of_not_mem : (∀ entry ∈ entries, entry.1 ≠ term) → (r.termInfo term).1 = some none
  termAtPosition : ∀ (i : ℕ) entry, entries[i]? = some entry →
    r.termAtPosition i = some (some entry.1)
  positionOfTerm : ∀ (i : ℕ) entry, entries[i]? = some entry →
    (r.positionOfTerm entry.1).1 = some (i : ℤ)
  termEnumeratorWithTerm : ∃ e, (r.termEnumeratorWithTerm term).1 = some e
    ∧ Enumerates Shows e (entriesFrom term entries)

/-- The terms a dictionary is right about: not the empty one, not after the last, and not before
the first where the search misses. -/
structure Findable (indexInterval : ℕ) (entries : List Entry) (term : Term) : Prop where
  written : ∀ entry ∈ entries, entry.1 ≠ Term.empty
  term_ne : term ≠ Term.empty
  exists_le : ∃ entry ∈ entries, term ≤ entry.1
  search : (∀ entry ∈ entries, term < entry.1) →
    ¬SearchMisses (indexSize indexInterval entries.length)

section claim
variable (h : Opened fieldInfos indexInterval entries rows r)
  (hwritable : Writable fieldInfos entries) (hpos : 0 < indexInterval)
include h hwritable hpos

omit hwritable hpos in
theorem termInfo_eq (hne : entries ≠ []) :
    (r.termInfo term).1 = r.ensureIndexIsRead.2.findTermInfo term := by
  have hlength := length_pos_iff.2 hne
  have hsize : r.size ≠ 0 := by
    rw [h.size]
    omega
  unfold TermInfosReader.termInfo
  rw [if_neg hsize]
  exact if_pos h.ensureIndexIsRead.1

omit hwritable hpos in
theorem positionOfTerm_eq (hne : entries ≠ []) :
    (r.positionOfTerm term).1 = r.ensureIndexIsRead.2.findPosition term := by
  have hlength := length_pos_iff.2 hne
  have hsize : r.size ≠ 0 := by
    rw [h.size]
    omega
  unfold positionOfTerm
  rw [if_neg hsize]
  exact if_pos h.ensureIndexIsRead.1

omit hwritable hpos in
theorem termEnumeratorWithTerm_eq :
    (r.termEnumeratorWithTerm term).1 = r.ensureIndexIsRead.2.seekTerm term := by
  unfold termEnumeratorWithTerm
  exact if_pos h.ensureIndexIsRead.1

omit hpos in
theorem enumerates_scanTo (hterm : term ≠ Term.empty) (hle : ∃ entry ∈ entries, term ≤ entry.1) :
    ∃ e, r.origEnum.scanTo term = some e ∧ Enumerates Shows e (entriesFrom term entries) := by
  obtain ⟨e, hscan, ⟨hnil, -⟩ | ⟨entry, rest, hcons, hat, -⟩⟩ := scanTo_opened h hwritable hterm
  · obtain ⟨entry, hentry, hle⟩ := hle
    exact absurd hle (not_le.2 (entriesFrom_eq_nil_iff.1 hnil entry hentry))
  · have hfollows : entries.Pairwise (Follows fieldInfos) :=
      hwritable.pointers.imp_of_mem fun _ he' hle => ⟨hwritable.fits _ he', hle⟩
    have hchain := (hfollows.filter fun e => decide (term ≤ e.1)).isChain
    rw [← entriesFrom, hcons] at hchain
    rw [hcons]
    exact ⟨e, hscan, hat.shows, hat.goesOn hchain⟩

theorem isSortedMapAt_of_findable (hfindable : Findable indexInterval entries term) :
    IsSortedMapAt entries term r := by
  obtain ⟨-, hopened, index, hindex⟩ := h.ensureIndexIsRead
  have hne : entries ≠ [] := by
    obtain ⟨entry, hentry, -⟩ := hfindable.exists_le
    exact ne_nil_of_mem hentry
  have hfind := @findTermInfo_eq _ _ _ _ _ _ term hopened _ hindex hpos hne hwritable.increasing
  refine ⟨?_, ?_, ?_, ?_, ?_⟩
  · rintro entry hentry rfl
    rw [termInfo_eq h hne]
    rcases hfind with hscan | ⟨hlt, -⟩
    · rw [hscan]
      exact scanEnumerator_of_mem hopened hwritable hentry hfindable.term_ne
    · exact absurd (hlt entry hentry) (lt_irrefl _)
  · intro hnot
    rw [termInfo_eq h hne]
    rcases hfind with hscan | ⟨-, hnone⟩
    · rw [hscan]
      exact scanEnumerator_of_not_mem hopened hwritable hfindable.term_ne hnot
    · exact hnone
  · intro i entry hentry
    exact termAtPosition_of_getElem? h hwritable hpos hentry
  · intro i entry hentry
    rw [positionOfTerm_eq h hne]
    exact findPosition_of_getElem? hopened hindex hpos hwritable hentry
      (hfindable.written entry (mem_of_getElem? hentry))
  · obtain ⟨e, hscan, henum⟩ :=
      enumerates_scanTo hopened hwritable hfindable.term_ne hfindable.exists_le
    rw [termEnumeratorWithTerm_eq h]
    rcases @seekTerm_eq _ _ _ _ _ _ term hopened _ hindex hpos hne hwritable.increasing with
      ⟨-, hseek⟩ | ⟨hlt, hmiss, -⟩
    · exact ⟨e, hseek.trans hscan, henum⟩
    · exact absurd hmiss (hfindable.search hlt)

theorem findable_of_isSortedMapAt (hmap : IsSortedMapAt entries term r)
    (hwritten : ∀ entry ∈ entries, entry.1 ≠ Term.empty) : Findable indexInterval entries term := by
  obtain ⟨-, hopened, index, hindex⟩ := h.ensureIndexIsRead
  obtain ⟨e, he, henum⟩ := hmap.termEnumeratorWithTerm
  rw [termEnumeratorWithTerm_eq h] at he
  have hne : entries ≠ [] := by
    rintro rfl
    have hlength := hopened.length_indexTerms hindex
    rw [length_nil, indexSize_zero] at hlength
    rw [seekTerm_of_length hopened hindex hlength] at he
    cases he
  have hsearch := @seekTerm_eq _ _ _ _ _ _ term hopened _ hindex hpos hne hwritable.increasing
  rw [he] at hsearch
  obtain ⟨hsearch, hscan⟩ | ⟨-, -, hnone⟩ := hsearch
  · have hterm : term ≠ Term.empty := by
      rintro rfl
      have hbuffer : r.ensureIndexIsRead.2.origEnum.termBuffer = Term.empty := hopened.orig.term
      rw [scanTo_of_le hbuffer.ge, some.injEq] at hscan
      have hall : entriesFrom Term.empty entries = entries :=
        filter_eq_self.2 fun entry _ => by simpa using Term.empty_le entry.1
      rw [hall] at henum
      rcases entries with _ | ⟨first, entries⟩
      · exact hne rfl
      · have hfirst : some e.termBuffer = some first.1 := henum.1.1
        rw [hscan, hbuffer, some.injEq] at hfirst
        exact hwritten first mem_cons_self hfirst.symm
    refine ⟨hwritten, hterm, ?_, hsearch⟩
    by_contra hnot
    have hnil : entriesFrom term entries = [] :=
      entriesFrom_eq_nil_iff.2 fun entry hentry => lt_of_not_ge fun hle => hnot ⟨entry, hentry, hle⟩
    rw [hnil] at henum
    cases henum
  · cases hnone

end claim

/-- Write the entries in order, close the writer and open its files. -/
def TermInfosReader.ofEntries (fieldInfos : FieldInfos) (indexInterval : ℕ)
    (entries : List Entry) : Option TermInfosReader :=
  let w := (TermInfosWriter.new fieldInfos indexInterval).addTerms entries
  initWithDirectory w.tis.close w.other.close fieldInfos

theorem exists_opened (hwritable : Writable fieldInfos entries) (hpos : 0 < indexInterval)
    (hlt : indexInterval < 2 ^ 31) (hwritten : ∀ entry ∈ entries, entry.1 ≠ Term.empty) :
    ∃ rows r, ofEntries fieldInfos indexInterval entries = some r
      ∧ Opened fieldInfos indexInterval entries rows r := by
  have hwrote := hwritable.wrote hpos hwritten
  obtain ⟨rows, hother, hindex⟩ := hwrote.other
  have hlength := hwritable.length_lt
  have hrows : rows.length < 2 ^ 63 := by
    have hle : indexSize indexInterval entries.length ≤ entries.length + indexInterval - 1 :=
      Nat.div_le_self _ _
    have hrows := hindex.length
    omega
  obtain ⟨origEnum, horig, hpositioned, hposition, hsize, hinterval⟩ :=
    initWithIndexInput_close hwrote.tis (by rw [length_map]; omega) hlt
  obtain ⟨indexEnum, hindexEnum, hindexPositioned, -, -, -⟩ :=
    initWithIndexInput_close hother hrows hlt
  refine ⟨rows, { origEnum, indexEnum, index := none }, ?_, ?_⟩
  · unfold ofEntries initWithDirectory
    simp only [horig, hindexEnum, bind_eq_bind, bind_some]
    rfl
  · have hfits : ∀ e ∈ rows.map Prod.fst, e.Fits fieldInfos := by
      intro e he
      obtain ⟨row, hrow, rfl⟩ := mem_map.1 he
      exact hwritable.fits _ (hindex.mem row hrow)
    refine ⟨hpositioned, hposition, ?_, hinterval, hindexPositioned, hindex,
      isChain_follows hfits hindex.pointers, nofun⟩
    rw [TermInfosReader.size, hsize, length_map]

theorem not_isSortedMapAt_of_empty {ti : TermInfo}
    (h : Opened fieldInfos indexInterval entries rows r) (hwritable : Writable fieldInfos entries)
    (hpos : 0 < indexInterval) (hwritten : ∀ entry ∈ entries, entry.1 ≠ Term.empty) :
    ¬IsSortedMapAt ((Term.empty, ti) :: entries) term r := by
  intro hmap
  have hzero := hmap.termAtPosition 0 _ rfl
  rcases hentries : entries with _ | ⟨first, rest⟩
  · have hsize : r.size = 0 := by rw [h.size, hentries, length_nil, Nat.cast_zero]
    unfold termAtPosition at hzero
    rw [if_pos hsize] at hzero
    cases hzero
  · have hfirst := termAtPosition_of_getElem? h hwritable hpos (i := 0)
      (by rw [hentries]; rfl)
    rw [hzero, some.injEq, some.injEq] at hfirst
    exact hwritten first (by rw [hentries]; exact mem_cons_self) hfirst.symm

/-- A dictionary is a sorted map, after any lookups, at exactly the terms that are findable. -/
theorem isSortedMapAt_history_iff (hwritable : Writable fieldInfos entries)
    (hpos : 0 < indexInterval) (hlt : indexInterval < 2 ^ 31) (history : List Lookup)
    (term : Term) :
    ∃ r, ofEntries fieldInfos indexInterval entries = some r
      ∧ (IsSortedMapAt entries term (history.foldl TermInfosReader.perform r)
        ↔ Findable indexInterval entries term) := by
  by_cases hwritten : ∀ entry ∈ entries, entry.1 ≠ Term.empty
  · obtain ⟨rows, r, hr, hopened⟩ := exists_opened hwritable hpos hlt hwritten
    have hafter := hopened.history history
    exact ⟨r, hr, fun hmap => findable_of_isSortedMapAt hafter hwritable hpos hmap hwritten,
      isSortedMapAt_of_findable hafter hwritable hpos⟩
  · have hnot : ¬Findable indexInterval entries term := fun h => hwritten h.written
    rcases entries with _ | ⟨⟨first, ti⟩, rest⟩
    · exact absurd nofun hwritten
    · obtain ⟨hfirst, hrest⟩ := pairwise_cons.1 hwritable.increasing
      obtain rfl : first = Term.empty := by
        by_contra hne
        refine hwritten fun entry hentry => ?_
        rcases mem_cons.1 hentry with rfl | hentry
        · exact hne
        · exact ((Term.empty_le first).trans_lt (hfirst entry hentry)).ne'
      have hwritable' : Writable fieldInfos rest :=
        ⟨hrest, (pairwise_cons.1 hwritable.pointers).2,
          fun e he => hwritable.fits e (mem_cons_of_mem _ he),
          (Nat.lt_succ_self _).trans hwritable.length_lt⟩
      have hwritten' : ∀ entry ∈ rest, entry.1 ≠ Term.empty := fun entry hentry =>
        (hfirst entry hentry).ne'
      obtain ⟨rows, r, hr, hopened⟩ := exists_opened hwritable' hpos hlt hwritten'
      refine ⟨r, ?_, fun hmap => absurd hmap ?_, fun h => absurd h hnot⟩
      · unfold ofEntries
        rw [addTerms_empty]
        exact hr
      · exact not_isSortedMapAt_of_empty (hopened.history history) hwritable' hpos hwritten'

theorem writable_singleton {e : Entry} (h : e.Fits fieldInfos) : Writable fieldInfos [e] where
  increasing := pairwise_singleton _ _
  pointers := pairwise_singleton _ _
  fits := by
    rintro _ he
    rwa [mem_singleton.1 he]
  length_lt := by
    rw [length_singleton]
    norm_num

end dictionary

/-- The field `a` alone. -/
def oneField : FieldInfos where
  names := [[97]]
  nodup := pairwise_singleton _ _
  length_lt := by
    rw [length_singleton]
    norm_num

/-- The term `b` of the field `a`. -/
def oneEntry : Entry := (⟨[97], [98]⟩, ⟨1, 0, 0, 0⟩)

theorem oneEntry_fits : oneEntry.Fits oneField := by
  refine ⟨mem_singleton_self _, ?_, ?_, ?_, ?_, ?_⟩ <;> simp [oneEntry]

theorem isSortedMapAt_history_one :
    ∃ r, @ofEntries units oneField 128 [oneEntry] = some r
      ∧ (@IsSortedMapAt units [oneEntry] oneEntry.1
          ([Lookup.termEnumerator].foldl (@TermInfosReader.perform units) r)
        ↔ @Findable units 128 [oneEntry] oneEntry.1) :=
  @isSortedMapAt_history_iff units oneField 128 [oneEntry]
    (@writable_singleton units _ _ oneEntry_fits) (by norm_num) (by norm_num)
    [Lookup.termEnumerator] oneEntry.1

/-- After the last term of a dictionary there is none, but its enumerator has a current one. -/
theorem not_isSortedMapAt_after :
    @Writable units oneField [oneEntry]
      ∧ ∃ r, @ofEntries units oneField 128 [oneEntry] = some r
        ∧ ¬@IsSortedMapAt units [oneEntry] ⟨[97], [99]⟩ r := by
  let _ := units
  have hwritten : ∀ entry ∈ [oneEntry], entry.1 ≠ Term.empty := by
    rintro entry hentry
    rw [mem_singleton.1 hentry]
    exact nofun
  have hwritable := writable_singleton oneEntry_fits
  obtain ⟨rows, r, hr, hopened⟩ :=
    exists_opened hwritable (by norm_num : 0 < 128) (by norm_num) hwritten
  refine ⟨hwritable, r, hr, fun hmap => ?_⟩
  obtain ⟨entry, hentry, hle⟩ :=
    (findable_of_isSortedMapAt hopened hwritable (by norm_num) hmap hwritten).exists_le
  rw [mem_singleton.1 hentry] at hle
  have hlt : ([98] : NSString) < [99] := Lex.rel (by decide)
  exact absurd hle (not_le.2 (Term.lt_iff.2 (Or.inr ⟨rfl, hlt⟩)))

end Etoile.Lucene
