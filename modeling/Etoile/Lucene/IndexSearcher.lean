import Etoile.Lucene.DirectoryStreams
import Etoile.Lucene.TopDocCollector

/-!
# Searches for the first hits

`-search:filter:maximum:` and `-search:filter:maximum:sort:` of the index searcher.  What they
return for a number of documents is the beginning of one ranking of all hits.
-/

namespace Etoile.Lucene

open PriorityQueue TopDocCollector

variable {F V : Type} [LinearOrder F] [Zero F] [LinearOrder V]

namespace FieldSortedHitQueue

variable (sort : ScoreDoc F → V)

/-- The comparators, a reversed one with its arguments exchanged, compare the documents as their
places in the sort; of documents at one place the greater one is the lesser. -/
def lessThan (a b : ScoreDoc F) : Bool :=
  match Ord.compare (sort a) (sort b) with
  | .eq => b.doc < a.doc
  | .gt => true
  | .lt => false

def key (d : ScoreDoc F) : Vᵒᵈ ×ₗ ℤᵒᵈ := toLex (OrderDual.toDual (sort d), OrderDual.toDual d.doc)

omit [LinearOrder F] [Zero F] in
theorem lessThan_iff (a b : ScoreDoc F) : lessThan sort a b = true ↔ key sort a < key sort b := by
  unfold lessThan key
  rw [Prod.Lex.toLex_lt_toLex]
  simp only [OrderDual.toDual_lt_toDual]
  rcases hcompare : Ord.compare (sort a) (sort b) with _ | _ | _
  · rw [compare_lt_iff_lt] at hcompare
    simp [hcompare.not_gt, hcompare.ne]
  · rw [compare_eq_iff_eq] at hcompare
    simp [hcompare]
  · rw [compare_gt_iff_gt] at hcompare
    simp [hcompare]

end FieldSortedHitQueue

/-- The size of the queue is compared with the number of its elements, which is unsigned. -/
structure TopFieldDocCollector (F : Type) where
  size : ℤ
  hq : List (ScoreDoc F)
  maxscore : F
  totalHits : ℕ

namespace TopFieldDocCollector

def collect (sort : ScoreDoc F → V) (c : TopFieldDocCollector F) (doc : ℤ) :
    Single F → TopFieldDocCollector F
  | .nan => c
  | .number score =>
    if 0 < score then
      { c with
        hq := (insert (FieldSortedHitQueue.lessThan sort) (toUnsigned c.size) ⟨doc, score⟩ c.hq).2
        maxscore := if score < c.maxscore then c.maxscore else score
        totalHits := c.totalHits + 1 }
    else c

def topDocs (sort : ScoreDoc F → V) (c : TopFieldDocCollector F) : Option (TopDocs F) :=
  (popInFront (FieldSortedHitQueue.lessThan sort) c.hq.length c.hq []).map fun scoreDocs =>
    ⟨c.totalHits, scoreDocs, c.maxscore⟩

variable {sort : ScoreDoc F → V} {c : TopFieldDocCollector F}

theorem foldl_collect (hits : List (ℤ × Single F)) :
    hits.foldl (fun c hit => c.collect sort hit.1 hit.2) c
      = ⟨c.size, (positives hits).foldl (fun heap d =>
            (insert (FieldSortedHitQueue.lessThan sort) (toUnsigned c.size) d heap).2) c.hq,
          (positives hits).foldl (fun m d => max m d.score) c.maxscore,
          c.totalHits + (positives hits).length⟩ := by
  induction hits generalizing c with
  | nil => simp [positives]
  | cons hit hits ih =>
    rw [List.foldl_cons, ih]
    obtain ⟨doc, score⟩ := hit
    rcases score with _ | score
    · rfl
    · unfold collect positives
      by_cases hpos : 0 < score
      · have hmax : max c.maxscore score = if score < c.maxscore then c.maxscore else score := by
          rcases lt_or_ge score c.maxscore with hlt | hle
          · rw [if_pos hlt, max_eq_left hlt.le]
          · rw [if_neg hle.not_gt, max_eq_right hle]
        simp [hpos, hmax]
        omega
      · simp [hpos]

end TopFieldDocCollector

/-- What the scorer and the filter hand to a collector, each document once and no more than an `int`
counts, and the sort that was asked for instead of the relevance. -/
structure QueryResult (F V : Type) [LinearOrder F] [Zero F] where
  hits : List (ℤ × Single F)
  sort : Option (ScoreDoc F → V)
  nodup : (hits.map Prod.fst).Nodup
  length_lt : (positives hits).length < 2 ^ 31

namespace QueryResult

variable (result : QueryResult F V) (fltMin : F)

/-- `-search:filter:maximum:` and `-search:filter:maximum:sort:`; the inner `none` is nil. -/
def search (nDocs : ℤ) : Option (Option (TopDocs F)) :=
  match result.sort with
  | none =>
    if nDocs ≤ 0 then some none
    else
      let collector := result.hits.foldl (fun c hit => c.collect hit.1 hit.2)
        (initWithMaximalHits nDocs.toNat)
      (collector.topDocs fltMin).map some
  | some sort =>
    let collector := result.hits.foldl (fun c hit => c.collect sort hit.1 hit.2)
      (⟨nDocs, [], fltMin, 0⟩ : TopFieldDocCollector F)
    (collector.topDocs sort).map some

def ranking : List (ScoreDoc F) :=
  match result.sort with
  | none => ranked ScoreDoc.key (positives result.hits)
  | some sort => ranked (FieldSortedHitQueue.key sort) (positives result.hits)

def maxScore : F :=
  match result.sort with
  | none => result.ranking.head?.elim fltMin ScoreDoc.score
  | some _ => (positives result.hits).foldl (fun m d => max m d.score) fltMin

theorem length_ranking : result.ranking.length = (positives result.hits).length := by
  unfold ranking
  split
  · exact (ranked_perm _ _).length_eq
  · exact (ranked_perm _ _).length_eq

omit [LinearOrder V] in
theorem eq_of_doc_eq {a b : ScoreDoc F} (ha : a ∈ positives result.hits)
    (hb : b ∈ positives result.hits) (h : a.doc = b.doc) : a = b := by
  have hnodup := result.nodup
  generalize result.hits = hits at ha hb hnodup
  have hsub : ((positives hits).map ScoreDoc.doc).Sublist (hits.map Prod.fst) := by
    clear ha hb hnodup
    induction hits with
    | nil => simp [positives]
    | cons hit hits ih =>
      obtain ⟨doc, score⟩ := hit
      rcases score with _ | score
      · exact ih.cons doc
      · unfold positives at ih ⊢
        by_cases hpos : 0 < score
        · simpa [hpos] using ih
        · simpa [hpos] using ih.cons doc
  exact List.inj_on_of_nodup_map (hnodup.sublist hsub) ha hb h

variable {result} {nDocs : ℤ}

theorem search_sorted {sort : ScoreDoc F → V} (hsort : result.sort = some sort) :
    result.search fltMin nDocs = some (some ⟨result.ranking.length,
      result.ranking.take (toUnsigned nDocs), result.maxScore fltMin⟩) := by
  have hinj : ∀ a ∈ positives result.hits, ∀ b ∈ positives result.hits,
      FieldSortedHitQueue.key sort a = FieldSortedHitQueue.key sort b → a = b := by
    intro a ha b hb h
    unfold FieldSortedHitQueue.key at h
    simp only [toLex_inj, Prod.mk.injEq, OrderDual.toDual_inj] at h
    exact result.eq_of_doc_eq ha hb h.2
  have hkept := keepsBest_foldl (FieldSortedHitQueue.lessThan_iff sort) (toUnsigned nDocs)
    (positives result.hits)
  have hpop := hkept.popInFront (FieldSortedHitQueue.lessThan_iff sort) hinj
  have hlength := result.length_ranking
  unfold search maxScore ranking
  unfold ranking at hlength
  rw [hsort] at hlength ⊢
  simp only [TopFieldDocCollector.topDocs, TopFieldDocCollector.foldl_collect, hpop,
    Option.map_some, hlength, Nat.zero_add]

theorem search_relevance (hsort : result.sort = none) (hpos : 0 < nDocs) :
    result.search fltMin nDocs = some (some ⟨result.ranking.length,
      result.ranking.take nDocs.toNat, result.maxScore fltMin⟩) := by
  have hinj : ∀ a ∈ positives result.hits, ∀ b ∈ positives result.hits,
      ScoreDoc.key a = ScoreDoc.key b → a = b := by
    intro a ha b hb h
    unfold ScoreDoc.key at h
    simp only [toLex_inj, Prod.mk.injEq, OrderDual.toDual_inj] at h
    exact result.eq_of_doc_eq ha hb h.2
  have hholds := holds_run nDocs.toNat result.hits
  have hpop := hholds.keepsBest.popInFront ScoreDoc.lessThan_iff hinj
  rw [← popAll_eq_popInFront] at hpop
  have hlength := result.length_ranking
  have htotal := hholds.totalHits
  unfold search maxScore ranking
  unfold ranking at hlength
  rw [hsort] at hlength ⊢
  simp only [if_neg hpos.not_ge, TopDocCollector.topDocs, hpop, htotal]
  rcases hranked : ranked ScoreDoc.key (positives result.hits) with _ | ⟨first, rest⟩
  · rw [hranked, List.length_nil] at hlength
    simp [← hlength]
  · rw [hranked, List.length_cons] at hlength
    obtain ⟨n, hn⟩ := Nat.exists_eq_add_of_le' (Int.lt_toNat.2 hpos : 0 < nDocs.toNat)
    simp [← hlength, hn]

theorem search_of_nonpos (hsort : result.sort = none) (hnonpos : nDocs ≤ 0) :
    result.search fltMin nDocs = some none := by
  unfold search
  rw [hsort]
  exact if_pos hnonpos

end QueryResult

end Etoile.Lucene
