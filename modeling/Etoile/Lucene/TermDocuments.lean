import Mathlib.Tactic

/-!
# Enumerators of postings

The messages of `LCTermDocuments` and `LCTermPositions`, and what it means that iterating over an
enumerator yields a list of postings: each document in turn with its frequency, and its positions as
far as one reads them.
-/

namespace Etoile.Lucene

structure Posting where
  doc : ℕ
  freq : ℕ
  positions : List ℕ
  deriving DecidableEq

class TermDocuments (E : Type) (Term : outParam Type) where
  seekTerm : Option Term → E → E
  hasNextDocument : E → Bool × E
  document : E → ℕ
  frequency : E → ℕ
  /-- the documents and frequencies put at the front of the arrays -/
  readDocuments : ℕ → E → List (ℕ × ℕ) × E
  nextPosition : E → ℕ × E

variable {E Term : Type} [TermDocuments E Term]

open TermDocuments

def readPositions : ℕ → E → List ℕ × E
  | 0, e => ([], e)
  | n + 1, e => ((nextPosition e).1 :: (readPositions n (nextPosition e).2).1,
      (readPositions n (nextPosition e).2).2)

/-- Iterating over `e` yields the postings, however many positions of each are read. -/
def Yields : E → List Posting → Prop
  | e, [] => (hasNextDocument e).1 = false
  | e, p :: ps => (hasNextDocument e).1 = true
      ∧ document (hasNextDocument e).2 = p.doc
      ∧ frequency (hasNextDocument e).2 = p.freq
      ∧ ∀ n ≤ p.positions.length,
        (readPositions n (hasNextDocument e).2).1 = p.positions.take n
          ∧ Yields (readPositions n (hasNextDocument e).2).2 ps

theorem Yields.length_eq : ∀ {ps qs : List Posting} {e : E}, Yields e ps → Yields e qs →
    ps.length = qs.length
  | [], [], _, _, _ => rfl
  | [], q :: qs, _, hp, hq => by
    simp only [Yields] at hp hq
    simp [hp] at hq
  | p :: ps, [], _, hp, hq => by
    simp only [Yields] at hp hq
    simp [hq] at hp
  | p :: ps, q :: qs, _, hp, hq => by
    simp only [Yields] at hp hq
    simpa using (hp.2.2.2 0 (Nat.zero_le _)).2.length_eq (hq.2.2.2 0 (Nat.zero_le _)).2

theorem Yields.of_hasNextDocument {e e' : E} (h : hasNextDocument e = hasNextDocument e') :
    ∀ {ps : List Posting}, Yields e' ps → Yields e ps
  | [], hy => by
    simp only [Yields] at hy ⊢
    rwa [h]
  | p :: ps, hy => by
    simp only [Yields] at hy ⊢
    rwa [h]

/-- The positions of the current posting are read one after another, and nothing else changes. -/
theorem readPositions_of_current {α : Type} (current : E → Posting) (kept : E → α)
    (hread : ∀ e : E, (nextPosition e).1 = (current e).positions.headD 0)
    (htail : ∀ e : E, (current (nextPosition e).2).positions = (current e).positions.tail)
    (hkept : ∀ e : E, kept (nextPosition e).2 = kept e) :
    ∀ (n : ℕ) (e : E), n ≤ (current e).positions.length →
      (readPositions n e).1 = (current e).positions.take n
        ∧ kept (readPositions n e).2 = kept e
  | 0, _, _ => by simp [readPositions]
  | n + 1, e, h => by
    rcases hp : (current e).positions with _ | ⟨x, xs⟩
    · simp [hp] at h
    · have hxs := htail e
      rw [hp, List.tail_cons] at hxs
      obtain ⟨h1, h2⟩ := readPositions_of_current current kept hread htail hkept n
        (nextPosition e).2 (by rw [hxs]; simpa [hp] using h)
      refine ⟨?_, ?_⟩
      · rw [readPositions, h1, hxs, hread, hp]
        rfl
      · rw [readPositions, h2, hkept]

structure ListEnumerator (Term : Type) where
  postings : Term → List Posting
  current : Posting := ⟨0, 0, []⟩
  rest : List Posting := []

instance : TermDocuments (ListEnumerator Term) Term where
  seekTerm t e := { e with rest := (t.map e.postings).getD [] }
  hasNextDocument e :=
    match e.rest with
    | [] => (false, e)
    | p :: ps => (true, { e with current := p, rest := ps })
  document e := e.current.doc
  frequency e := e.current.freq
  readDocuments size e := ((e.rest.take size).map fun p => (p.doc, p.freq),
    { e with rest := e.rest.drop size })
  nextPosition e := (e.current.positions.headD 0,
    { e with current := { e.current with positions := e.current.positions.tail } })

theorem ListEnumerator.yields : ∀ {ps : List Posting} {e : ListEnumerator Term}, e.rest = ps →
    Yields e ps
  | [], e, h => by simp [Yields, hasNextDocument, h]
  | p :: ps, e, h => by
    simp only [Yields, hasNextDocument, h]
    refine ⟨trivial, rfl, rfl, fun n hn => ?_⟩
    obtain ⟨h1, h2⟩ := readPositions_of_current ListEnumerator.current ListEnumerator.rest
      (fun _ => rfl) (fun _ => rfl) (fun _ => rfl) n { e with current := p, rest := ps } hn
    exact ⟨h1, ListEnumerator.yields h2⟩

end Etoile.Lucene

/-!
## Merged postings

The postings of several terms as one list, with every document once: what the positions of a phrase
with alternatives are to be.
-/

namespace Etoile.Lucene

open List

def combined (M : List Posting) (d : ℕ) : Posting where
  doc := d
  freq := ((M.filter fun p => p.doc = d).map Posting.freq).sum
  positions := ((M.filter fun p => p.doc = d).flatMap Posting.positions).mergeSort

/-- The documents of the postings in increasing order, each with all its positions. -/
def mergedPostings (M : List Posting) : List Posting :=
  (((M.map Posting.doc).toFinset.sort (· ≤ ·)).map (combined M))

variable {M M' : List Posting} {d : ℕ} {target : ℤ}

theorem combined_perm (h : M.Perm M') : combined M d = combined M' d := by
  have hown := h.filter fun p => p.doc = d
  have hsort : ∀ {l l' : List ℕ}, l.Perm l' → l.mergeSort = l'.mergeSort := by
    intro l l' hl
    have hsorted : ∀ l : List ℕ, l.mergeSort.Pairwise (· ≤ ·) := by
      intro l
      have hpairwise := pairwise_mergeSort' (· ≤ ·) l
      simpa using hpairwise
    exact ((mergeSort_perm l _).trans (hl.trans (mergeSort_perm l' _).symm)).eq_of_pairwise
      (fun _ _ _ _ => le_antisymm) (hsorted l) (hsorted l')
  rw [combined, combined, (hown.map _).sum_eq, hsort (hown.flatMap_right _)]

theorem combined_filter {P : Posting → Bool} (h : ∀ p ∈ M, p.doc = d → P p = true) :
    combined (M.filter P) d = combined M d := by
  have hown : (M.filter P).filter (fun p => p.doc = d) = M.filter fun p => p.doc = d := by
    rw [filter_filter]
    refine filter_congr fun p hp => ?_
    by_cases hd : p.doc = d
    · simp [hd, h p hp hd]
    · simp [hd]
  rw [combined, combined, hown]

theorem mergedPostings_perm (h : M.Perm M') : mergedPostings M = mergedPostings M' := by
  have hdocs : (M.map Posting.doc).toFinset = (M'.map Posting.doc).toFinset :=
    toFinset_eq_of_perm _ _ (h.map _)
  rw [mergedPostings, mergedPostings, hdocs]
  exact map_congr_left fun d _ => combined_perm h

@[simp] theorem mergedPostings_nil : mergedPostings [] = [] := by
  simp [mergedPostings]

theorem exists_mem_mergedPostings_iff {P : ℕ → Prop} :
    (∃ p ∈ mergedPostings M, P p.doc) ↔ ∃ p ∈ M, P p.doc := by
  simp [mergedPostings, combined]

theorem mergedPostings_cons (hmem : ∃ p ∈ M, p.doc = d) (hle : ∀ p ∈ M, d ≤ p.doc) :
    mergedPostings M = combined M d :: mergedPostings (M.filter fun p => p.doc ≠ d) := by
  have hdocs : (M.map Posting.doc).toFinset
      = insert d ((M.filter fun p => p.doc ≠ d).map Posting.doc).toFinset := by
    ext e
    simp only [mem_toFinset, mem_map, Finset.mem_insert, mem_filter,
      decide_eq_true_eq]
    constructor
    · rintro ⟨p, hp, rfl⟩
      by_cases heq : p.doc = d
      · exact Or.inl heq
      · exact Or.inr ⟨p, ⟨hp, heq⟩, rfl⟩
    · rintro (rfl | ⟨p, ⟨hp, -⟩, rfl⟩)
      · exact hmem
      · exact ⟨p, hp, rfl⟩
  have hmin : ∀ e ∈ ((M.filter fun p => p.doc ≠ d).map Posting.doc).toFinset, d ≤ e := by
    simp only [mem_toFinset, mem_map, mem_filter]
    rintro e ⟨p, ⟨hp, -⟩, rfl⟩
    exact hle p hp
  have hnew : d ∉ ((M.filter fun p => p.doc ≠ d).map Posting.doc).toFinset := by
    simp
  rw [mergedPostings, hdocs, Finset.sort_insert (r := (· ≤ ·)) hmin hnew, map_cons,
    mergedPostings]
  refine congrArg _ (map_congr_left fun e he => (combined_filter fun p _ hp => ?_).symm)
  rw [Finset.mem_sort] at he
  have hne : e ≠ d := fun heq => hnew (heq ▸ he)
  simpa [hp] using hne

theorem dropWhile_eq_filter {α κ : Type} [LinearOrder κ] {key : α → κ} {k : κ} : ∀ {l : List α},
    l.Pairwise (fun a b => key a ≤ key b) → l.dropWhile (key · < k) = l.filter (k ≤ key ·)
  | [], _ => rfl
  | a :: l, h => by
    rw [pairwise_cons] at h
    by_cases ha : key a < k
    · rw [dropWhile_cons_of_pos (by simpa using ha), filter_cons_of_neg (by simpa using ha),
        dropWhile_eq_filter h.2]
    · have hall : ∀ b ∈ a :: l, decide (k ≤ key b) = true := by
        intro b hb
        rcases mem_cons.1 hb with rfl | hb
        · simpa using ha
        · simpa using (not_lt.1 ha).trans (h.1 b hb)
      rw [dropWhile_cons_of_neg (by simpa using ha), filter_eq_self.2 hall]

theorem dropWhile_mergedPostings : (mergedPostings M).dropWhile (fun p => (p.doc : ℤ) < target)
    = mergedPostings (M.filter fun p => target ≤ (p.doc : ℤ)) := by
  have hdocs : ((M.filter fun p => target ≤ (p.doc : ℤ)).map Posting.doc).toFinset.sort (· ≤ ·)
      = ((M.map Posting.doc).toFinset.sort (· ≤ ·)).filter
        (fun d : ℕ => target ≤ (d : ℤ)) := by
    refine Perm.eq_of_pairwise (fun _ _ _ _ => le_antisymm)
      (Finset.pairwise_sort _ (· ≤ ·)) ((Finset.pairwise_sort _ (· ≤ ·)).filter _) ?_
    refine (perm_ext_iff_of_nodup (Finset.sort_nodup _ _)
      ((Finset.sort_nodup _ _).filter _)).2 fun e => ?_
    simp only [Finset.mem_sort, mem_toFinset, mem_map, mem_filter,
      decide_eq_true_eq]
    constructor
    · rintro ⟨p, ⟨hp, hle⟩, rfl⟩
      exact ⟨⟨p, hp, rfl⟩, hle⟩
    · rintro ⟨⟨p, hp, rfl⟩, hle⟩
      exact ⟨p, ⟨hp, hle⟩, rfl⟩
  have hdoc : (fun p : Posting => decide ((p.doc : ℤ) < target)) ∘ combined M
      = fun d : ℕ => decide ((d : ℤ) < target) := rfl
  have hsorted : ((M.map Posting.doc).toFinset.sort (· ≤ ·)).Pairwise
      fun d e : ℕ => (d : ℤ) ≤ (e : ℤ) :=
    (Finset.pairwise_sort _ _).imp fun h => by exact_mod_cast h
  rw [mergedPostings, mergedPostings, hdocs, dropWhile_map, hdoc, dropWhile_eq_filter hsorted]
  refine map_congr_left fun d hd => (combined_filter fun p _ hp => ?_).symm
  rw [mem_filter] at hd
  rw [hp]
  exact hd.2

end Etoile.Lucene
