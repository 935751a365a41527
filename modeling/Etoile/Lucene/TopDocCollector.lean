import Mathlib.Algebra.GroupWithZero.Nat
import Etoile.Lucene.PriorityQueueRuns
import Mathlib.Data.Prod.Lex

/-!
# The best documents

`LCTopDocCollector` keeps the best hits in a priority queue whose top is the worst of them, and
takes the queue apart from its top for the documents in order.

A `float` is no number, which no comparison holds of, or one of the numbers `F`.
-/

namespace Etoile.Lucene

open PriorityQueue

variable {F : Type} [LinearOrder F] [Zero F]

inductive Single (F : Type)
  | nan
  | number (x : F)

structure ScoreDoc (F : Type) where
  doc : ℤ
  score : F
deriving DecidableEq

namespace ScoreDoc

variable (d other : ScoreDoc F)

def compare : Ordering :=
  if d.score = other.score then
    if d.doc < other.doc then .gt else if d.doc = other.doc then .eq else .lt
  else if d.score < other.score then .lt
  else .gt

def lessThan : Bool := d.compare other = .lt

def key : F ×ₗ ℤᵒᵈ := toLex (d.score, OrderDual.toDual d.doc)

/-- `d` is as good a hit as the other one: it has a higher score, or the same and no higher
number. -/
def Before : Prop := other.score < d.score ∨ d.score = other.score ∧ d.doc ≤ other.doc

variable {d other}

omit [Zero F] in
theorem lessThan_iff (d other : ScoreDoc F) : d.lessThan other = true ↔ d.key < other.key := by
  unfold lessThan compare key
  rw [decide_eq_true_iff, Prod.Lex.toLex_lt_toLex]
  simp only [OrderDual.toDual_lt_toDual]
  rcases lt_trichotomy d.score other.score with hlt | heq | hgt
  · simp [hlt, hlt.ne]
  · simp only [heq, lt_irrefl, if_true, true_and, false_or]
    rcases lt_trichotomy d.doc other.doc with hdoc | hdoc | hdoc
    · simp [hdoc, hdoc.asymm]
    · simp [hdoc]
    · simp [hdoc, hdoc.asymm, hdoc.ne']
  · simp [hgt.asymm, hgt.ne']

omit [Zero F] in
theorem before_iff : d.Before other ↔ other.key ≤ d.key := by
  unfold Before key
  rw [Prod.Lex.toLex_le_toLex]
  simp only [OrderDual.toDual_le_toDual, eq_comm]

end ScoreDoc

structure TopDocs (F : Type) where
  totalHits : ℕ
  scoreDocuments : List (ScoreDoc F)
  maxScore : F

structure TopDocCollector (F : Type) where
  numHits : ℕ
  hq : List (ScoreDoc F)
  minScore : F
  totalHits : ℕ

namespace TopDocCollector

open PriorityQueue

def initWithMaximalHits (max : ℕ) : TopDocCollector F := ⟨max, [], 0, 0⟩

/-- `-score` of the top, which is zero for nil. -/
def topScore (hq : List (ScoreDoc F)) : F := hq.head?.elim 0 ScoreDoc.score

def collect (c : TopDocCollector F) (doc : ℤ) : Single F → TopDocCollector F
  | .nan => c
  | .number score =>
    if 0 < score then
      if c.hq.length < c.numHits ∨ c.minScore ≤ score then
        let hq := (insert ScoreDoc.lessThan c.numHits ⟨doc, score⟩ c.hq).2
        { c with hq := hq, minScore := topScore hq, totalHits := c.totalHits + 1 }
      else { c with totalHits := c.totalHits + 1 }
    else c

/-- As many documents are popped, each one put before those popped earlier; a nil raises. -/
def popAll : ℕ → List (ScoreDoc F) → List (ScoreDoc F) → Option (List (ScoreDoc F))
  | 0, _, scoreDocs => some scoreDocs
  | n + 1, hq, scoreDocs =>
    match hq.head? with
    | none => none
    | some top => popAll n (pop ScoreDoc.lessThan hq) (top :: scoreDocs)

/-- Where there were hits the score of the first document is taken, which has to be there. -/
def topDocs (fltMin : F) (c : TopDocCollector F) : Option (TopDocs F) := do
  let scoreDocs ← popAll c.hq.length c.hq []
  if c.totalHits = 0 then return ⟨c.totalHits, scoreDocs, fltMin⟩
  else
    let first ← scoreDocs.head?
    return ⟨c.totalHits, scoreDocs, first.score⟩

def positives (hits : List (ℤ × Single F)) : List (ScoreDoc F) :=
  hits.filterMap fun hit =>
    match hit.2 with
    | .nan => none
    | .number score => if 0 < score then some ⟨hit.1, score⟩ else none

end TopDocCollector

/-- `best` are the best `n` of the documents, the best one first. -/
structure AreBest (n : ℕ) (docs best : List (ScoreDoc F)) : Prop where
  length : best.length = min n docs.length
  sorted : best.Pairwise ScoreDoc.Before
  best : ∃ rest, (best ++ rest).Perm docs ∧ ∀ a ∈ best, ∀ b ∈ rest, a.Before b

namespace TopDocCollector

open PriorityQueue

variable {n : ℕ} {c : TopDocCollector F} {docs : List (ScoreDoc F)}

/-- What the queue holds, and what of the documents it has not got is no better. -/
structure Holds (n : ℕ) (c : TopDocCollector F) (docs : List (ScoreDoc F)) : Prop where
  numHits : c.numHits = n
  heap : IsHeap ScoreDoc.key c.hq
  length : c.hq.length = min n docs.length
  best : ∃ rest, (c.hq ++ rest).Perm docs ∧ ∀ a ∈ c.hq, ∀ b ∈ rest, b.key ≤ a.key
  minScore : c.minScore = topScore c.hq
  totalHits : c.totalHits = docs.length

theorem holds_init : Holds n (initWithMaximalHits n : TopDocCollector F) [] :=
  ⟨rfl, IsHeap.nil, by simp [initWithMaximalHits], ⟨[], by simp [initWithMaximalHits]⟩, rfl, rfl⟩

theorem Holds.keepsBest (h : Holds n c docs) : KeepsBest ScoreDoc.key n c.hq docs :=
  ⟨h.heap, h.length, h.best⟩

theorem Holds.skip (h : Holds n c docs) (hfull : n ≤ c.hq.length) {d : ScoreDoc F}
    (hle : ∀ a ∈ c.hq, d.key ≤ a.key) :
    Holds n { c with totalHits := c.totalHits + 1 } (docs ++ [d]) := by
  have hskip := h.keepsBest.skip hfull hle
  exact ⟨h.numHits, hskip.isHeap, hskip.length, hskip.best, h.minScore, by simp [h.totalHits]⟩

theorem Holds.insert (h : Holds n c docs) (d : ScoreDoc F) :
    Holds n { c with
      hq := (PriorityQueue.insert ScoreDoc.lessThan c.numHits d c.hq).2
      minScore := topScore (PriorityQueue.insert ScoreDoc.lessThan c.numHits d c.hq).2
      totalHits := c.totalHits + 1 } (docs ++ [d]) := by
  have hinsert := h.keepsBest.insert ScoreDoc.lessThan_iff d
  rw [← h.numHits] at hinsert
  refine ⟨h.numHits, hinsert.isHeap, ?_, hinsert.best, rfl, by simp [h.totalHits]⟩
  rw [← h.numHits]
  exact hinsert.length

theorem Holds.topScore_le (h : Holds n c docs) {d : ScoreDoc F} (hd : d.score < c.minScore) :
    ∀ a ∈ c.hq, d.key ≤ a.key := by
  intro a ha
  rw [h.minScore] at hd
  rcases hhead : c.hq.head? with _ | top
  · rw [List.head?_eq_none_iff] at hhead
    rw [hhead] at ha
    cases ha
  · rw [topScore, hhead] at hd
    have hlt : d.key < top.key := Prod.Lex.toLex_lt_toLex.2 (Or.inl hd)
    exact hlt.le.trans (h.heap.isLeast hhead a ha)

theorem Holds.collect (h : Holds n c docs) (doc : ℤ) (score : Single F) :
    Holds n (c.collect doc score) (docs ++ positives [(doc, score)]) := by
  rcases score with _ | score
  · simpa [TopDocCollector.collect, positives] using h
  · simp only [TopDocCollector.collect]
    split_ifs with hpos hroom
    · have hinsert := h.insert ⟨doc, score⟩
      simpa [positives, hpos] using hinsert
    · rw [not_or, not_le, h.numHits, Nat.not_lt] at hroom
      have hskip := h.skip hroom.1 (h.topScore_le (d := ⟨doc, score⟩) hroom.2)
      simpa [positives, hpos] using hskip
    · simpa [positives, hpos] using h

theorem holds_run (n : ℕ) (hits : List (ℤ × Single F)) :
    Holds n (hits.foldl (fun c hit => c.collect hit.1 hit.2) (initWithMaximalHits n))
      (positives hits) := by
  induction hits using List.reverseRecOn with
  | nil => exact holds_init
  | append_singleton hits hit ih =>
    rw [List.foldl_append]
    have hlast := ih.collect hit.1 hit.2
    rwa [positives, positives, ← List.filterMap_append] at hlast

omit [Zero F] in
theorem popAll_eq_popInFront : ∀ (m : ℕ) (hq scoreDocs : List (ScoreDoc F)),
    popAll m hq scoreDocs = popInFront ScoreDoc.lessThan m hq scoreDocs
  | 0, _, _ => rfl
  | m + 1, hq, scoreDocs => by
    unfold popAll popInFront
    rcases hq.head? with _ | top
    · rfl
    · exact popAll_eq_popInFront m _ _

omit [Zero F] in
theorem popAll_eq (m : ℕ) {hq scoreDocs : List (ScoreDoc F)} (hheap : IsHeap ScoreDoc.key hq)
    (hm : hq.length = m) : ∃ sorted, sorted.Perm hq ∧ sorted.Pairwise ScoreDoc.Before
      ∧ popAll m hq scoreDocs = some (sorted ++ scoreDocs) := by
  obtain ⟨sorted, hperm, hsorted, heq⟩ := popInFront_eq ScoreDoc.lessThan_iff m hheap hm
  exact ⟨sorted, hperm, hsorted.imp ScoreDoc.before_iff.2, by rw [popAll_eq_popInFront, heq]⟩

theorem Holds.topDocs (h : Holds n c docs) (hn : 1 ≤ n) (fltMin : F) :
    ∃ t, c.topDocs fltMin = some t ∧ t.totalHits = docs.length
      ∧ AreBest n docs t.scoreDocuments := by
  obtain ⟨sorted, hperm, hsorted, heq⟩ := @popAll_eq F _ c.hq.length c.hq [] h.heap rfl
  rw [List.append_nil] at heq
  have hbest : AreBest n docs sorted := by
    obtain ⟨rest, hrest, hle⟩ := h.best
    refine ⟨by rw [hperm.length_eq, h.length], hsorted, rest, ?_, fun a ha b hb => ?_⟩
    · exact (hperm.append_right rest).trans hrest
    · exact ScoreDoc.before_iff.2 (hle a (hperm.subset ha) b hb)
  by_cases hzero : c.totalHits = 0
  · exact ⟨⟨c.totalHits, sorted, fltMin⟩, by simp [TopDocCollector.topDocs, heq, hzero],
      h.totalHits, hbest⟩
  · have hpos : 0 < sorted.length := by
      have := h.totalHits
      rw [hbest.length]
      omega
    obtain ⟨first, rest, hcons⟩ := List.exists_cons_of_length_pos hpos
    exact ⟨⟨c.totalHits, sorted, first.score⟩,
      by simp [TopDocCollector.topDocs, heq, hzero, hcons], h.totalHits, hbest⟩

/-- For any hits the collector returns the best ones, and any queue serves the requests of a run
as a heap. -/
theorem collector_best (hn : 1 ≤ n) (fltMin : F) (hits : List (ℤ × Single F)) {α κ : Type}
    [LinearOrder κ] (key : α → κ) (maxSize : ℕ) (requests : List (PriorityQueue.Request α)) :
    (∃ t, (hits.foldl (fun c hit => c.collect hit.1 hit.2) (initWithMaximalHits n)).topDocs fltMin
        = some t ∧ t.totalHits = (positives hits).length
          ∧ AreBest n (positives hits) t.scoreDocuments)
      ∧ Along (step (byKey key) maxSize) (fun heap request =>
          Serves key maxSize heap (step (byKey key) maxSize heap request) request
            ∧ IsHeap key (step (byKey key) maxSize heap request)) [] requests :=
  ⟨(holds_run n hits).topDocs hn fltMin, run_serves (byKey_iff key) maxSize requests⟩

/-- Two hits are returned of three. -/
theorem collector_best_two : 1 ≤ 2 ∧
    ((∃ t, ([(0, .number 1), (1, .nan), (2, .number 3), (3, .number 3)].foldl
        (fun c hit => c.collect hit.1 hit.2) (initWithMaximalHits 2)).topDocs (1 : ℕ) = some t
          ∧ t.totalHits = (positives (F := ℕ)
            [(0, .number 1), (1, .nan), (2, .number 3), (3, .number 3)]).length
          ∧ AreBest 2 (positives [(0, .number 1), (1, .nan), (2, .number 3), (3, .number 3)])
            t.scoreDocuments)
      ∧ Along (step (byKey id) 1) (fun heap request =>
          Serves id 1 heap (step (byKey id) 1 heap request) request
            ∧ IsHeap id (step (byKey id) 1 heap request)) []
          [.put 5, .insert 7, .adjustTop 6, .pop]) :=
  ⟨by decide, collector_best (by decide) 1 _ (id : ℕ → ℕ) 1 _⟩

end TopDocCollector

end Etoile.Lucene
