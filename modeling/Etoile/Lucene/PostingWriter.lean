import Etoile.Lucene.Term
import Etoile.Lucene.TermDocuments

/-!
# Writing postings

How the segment merger writes the postings of a term: documents and frequencies in one file,
positions in another, and behind the documents the skip data, one entry for every interval.
-/

namespace Etoile.Lucene

open List

def freqCode (lastDoc : ℕ) (p : Posting) : List UInt8 :=
  if p.freq = 1 then writeVInt ((p.doc - lastDoc) * 2 + 1)
  else writeVInt ((p.doc - lastDoc) * 2) ++ writeVInt p.freq

/-- Differences that are negative are written as they are in 32 bits. -/
def positionCodes : ℤ → List ℕ → List UInt8
  | _, [] => []
  | lastPosition, x :: xs =>
    writeVInt ((x - lastPosition) % 2 ^ 32 : ℤ).toNat ++ positionCodes x xs

structure PostingWriter where
  freqOutput : List UInt8
  proxOutput : List UInt8
  skipBuffer : List UInt8 := []
  lastDoc : ℕ := 0
  df : ℕ := 0
  lastSkipDoc : ℕ := 0
  lastSkipFreqPointer : ℕ
  lastSkipProxPointer : ℕ

namespace PostingWriter

def resetSkip (freqOutput proxOutput : List UInt8) : PostingWriter where
  freqOutput := freqOutput
  proxOutput := proxOutput
  lastSkipFreqPointer := freqOutput.length
  lastSkipProxPointer := proxOutput.length

def bufferSkip (w : PostingWriter) : PostingWriter :=
  { w with
    skipBuffer := w.skipBuffer ++ (writeVInt (w.lastDoc - w.lastSkipDoc)
      ++ writeVInt ((w.freqOutput.length - w.lastSkipFreqPointer) % 2 ^ 32)
      ++ writeVInt ((w.proxOutput.length - w.lastSkipProxPointer) % 2 ^ 32))
    lastSkipDoc := w.lastDoc
    lastSkipFreqPointer := w.freqOutput.length
    lastSkipProxPointer := w.proxOutput.length }

def append (w : PostingWriter) (p : Posting) : PostingWriter :=
  { w with
    freqOutput := w.freqOutput ++ freqCode w.lastDoc p
    proxOutput := w.proxOutput ++ positionCodes 0 p.positions
    lastDoc := p.doc }

/-- The body of the loop in `-appendPosting:size:`, for a document of the merged segment. -/
def appendPosting (skipInterval : ℕ) (w : PostingWriter) (p : Posting) : PostingWriter :=
  let w := { w with df := w.df + 1 }
  if w.df % skipInterval = 0 then w.bufferSkip.append p else w.append p

end PostingWriter

/-- `-mergeTermInfo:size:`, which adds no term when there are no documents. -/
def mergeTermInfo (skipInterval : ℕ) (ps : List Posting) (freqOutput proxOutput : List UInt8) :
    Option TermInfo × List UInt8 × List UInt8 :=
  let w := ps.foldl (PostingWriter.appendPosting skipInterval)
    (PostingWriter.resetSkip freqOutput proxOutput)
  (if 0 < w.df then
      some ⟨w.df, freqOutput.length, proxOutput.length, w.freqOutput.length - freqOutput.length⟩
    else none,
    w.freqOutput ++ w.skipBuffer, w.proxOutput)

def lastDoc : ℕ → List Posting → ℕ
  | last, [] => last
  | _, p :: ps => lastDoc p.doc ps

def freqCodes : ℕ → List Posting → List UInt8
  | _, [] => []
  | last, p :: ps => freqCode last p ++ freqCodes p.doc ps

def proxCodes (ps : List Posting) : List UInt8 :=
  ps.flatMap fun p => positionCodes 0 p.positions

theorem freqCodes_append : ∀ (last : ℕ) (ps qs : List Posting),
    freqCodes last (ps ++ qs) = freqCodes last ps ++ freqCodes (lastDoc last ps) qs
  | _, [], _ => rfl
  | last, p :: ps, qs => by
    rw [cons_append, freqCodes, freqCodes_append, freqCodes, lastDoc, append_assoc]

@[simp] theorem lastDoc_append_singleton (p : Posting) : ∀ (last : ℕ) (ps : List Posting),
    lastDoc last (ps ++ [p]) = p.doc
  | _, [] => rfl
  | _, q :: ps => lastDoc_append_singleton p q.doc ps

/-- The document before the posting `i`, and how many bytes of both files are before it. -/
def docBefore (ps : List Posting) (i : ℕ) : ℕ := lastDoc 0 (ps.take i)

def freqOffset (ps : List Posting) (i : ℕ) : ℕ := (freqCodes 0 (ps.take i)).length

def proxOffset (ps : List Posting) (i : ℕ) : ℕ := (proxCodes (ps.take i)).length

/-- The number of postings before the skip entry `j`; what is before the first entry stands for an
entry in front of it. -/
def skipIndex (skipInterval j : ℕ) : ℕ := j * skipInterval - 1

/-- What is written for the entry behind `j`. -/
def skipEntry (skipInterval : ℕ) (ps : List Posting) (j : ℕ) : List UInt8 :=
  let i := skipIndex skipInterval j
  let i' := skipIndex skipInterval (j + 1)
  writeVInt (docBefore ps i' - docBefore ps i)
    ++ writeVInt ((freqOffset ps i' - freqOffset ps i) % 2 ^ 32)
    ++ writeVInt ((proxOffset ps i' - proxOffset ps i) % 2 ^ 32)

/-- The entries behind `j` in the skip data. -/
def skipEntries (skipInterval : ℕ) (ps : List Posting) (j : ℕ) : List UInt8 :=
  (range' j (ps.length / skipInterval - j)).flatMap (skipEntry skipInterval ps)

variable {K i : ℕ} {ps : List Posting}

@[simp] theorem docBefore_zero (ps : List Posting) : docBefore ps 0 = 0 := rfl

@[simp] theorem freqOffset_zero (ps : List Posting) : freqOffset ps 0 = 0 := rfl

@[simp] theorem proxOffset_zero (ps : List Posting) : proxOffset ps 0 = 0 := rfl

@[simp] theorem skipIndex_zero (K : ℕ) : skipIndex K 0 = 0 := by simp [skipIndex]

theorem take_succ_of_lt (h : i < ps.length) : ps.take (i + 1) = ps.take i ++ [ps[i]] := by
  rw [take_add_one, getElem?_eq_getElem h]
  rfl

theorem docBefore_succ (h : i < ps.length) : docBefore ps (i + 1) = ps[i].doc := by
  rw [docBefore, take_succ_of_lt h, lastDoc_append_singleton]

theorem freqCodes_take_succ (h : i < ps.length) : freqCodes 0 (ps.take (i + 1))
    = freqCodes 0 (ps.take i) ++ freqCode (docBefore ps i) ps[i] := by
  rw [take_succ_of_lt h, freqCodes_append]
  simp [freqCodes, docBefore]

theorem proxCodes_take_succ (h : i < ps.length) : proxCodes (ps.take (i + 1))
    = proxCodes (ps.take i) ++ positionCodes 0 ps[i].positions := by
  rw [take_succ_of_lt h, proxCodes, flatMap_append, ← proxCodes]
  simp

/-- The writer when it has written `i` of the postings. -/
def PostingWriter.after (K : ℕ) (ps : List Posting) (freqOutput proxOutput : List UInt8) (i : ℕ) :
    PostingWriter where
  freqOutput := freqOutput ++ freqCodes 0 (ps.take i)
  proxOutput := proxOutput ++ proxCodes (ps.take i)
  skipBuffer := (range (i / K)).flatMap (skipEntry K ps)
  lastDoc := docBefore ps i
  df := i
  lastSkipDoc := docBefore ps (skipIndex K (i / K))
  lastSkipFreqPointer := freqOutput.length + freqOffset ps (skipIndex K (i / K))
  lastSkipProxPointer := proxOutput.length + proxOffset ps (skipIndex K (i / K))

theorem PostingWriter.appendPosting_after (freqOutput proxOutput : List UInt8)
    (h : i < ps.length) :
    (after K ps freqOutput proxOutput i).appendPosting K ps[i]
      = after K ps freqOutput proxOutput (i + 1) := by
  by_cases hmod : (i + 1) % K = 0
  · have hdiv : (i + 1) / K = i / K + 1 := Nat.succ_div_of_mod_eq_zero hmod
    have hindex : skipIndex K (i / K + 1) = i := by
      have := Nat.div_mul_cancel (Nat.dvd_of_mod_eq_zero hmod)
      rw [hdiv] at this
      unfold skipIndex
      omega
    simp only [appendPosting, after, hmod, if_true, bufferSkip, append, hdiv, hindex, skipEntry,
      range_succ, flatMap_append, freqCodes_take_succ h, proxCodes_take_succ h,
      docBefore_succ h, freqOffset, proxOffset, length_append, append_assoc,
      flatMap_cons, flatMap_nil, append_nil, Nat.add_sub_add_left]
  · have hdiv : (i + 1) / K = i / K := Nat.succ_div_of_mod_ne_zero hmod
    simp only [appendPosting, after, hmod, if_false, append, hdiv, freqCodes_take_succ h,
      proxCodes_take_succ h, docBefore_succ h, append_assoc]

theorem PostingWriter.foldl_appendPosting (freqOutput proxOutput : List UInt8) :
    ∀ i ≤ ps.length, (ps.take i).foldl (appendPosting K) (resetSkip freqOutput proxOutput)
      = after K ps freqOutput proxOutput i
  | 0, _ => by simp [resetSkip, after, freqCodes, proxCodes]
  | i + 1, h => by
    rw [take_succ_of_lt h, foldl_append,
      foldl_appendPosting freqOutput proxOutput i (by omega)]
    exact appendPosting_after freqOutput proxOutput h

theorem mergeTermInfo_eq (K : ℕ) (ps : List Posting) (freqOutput proxOutput : List UInt8) :
    mergeTermInfo K ps freqOutput proxOutput
      = (if 0 < ps.length then
          some ⟨ps.length, freqOutput.length, proxOutput.length, (freqCodes 0 ps).length⟩
        else none,
        freqOutput ++ freqCodes 0 ps ++ skipEntries K ps 0, proxOutput ++ proxCodes ps) := by
  have hfold := @PostingWriter.foldl_appendPosting K ps freqOutput proxOutput ps.length le_rfl
  rw [take_length] at hfold
  unfold mergeTermInfo
  rw [hfold]
  simp only [PostingWriter.after, take_length, length_append, Nat.add_sub_cancel_left,
    skipEntries, range_eq_range', Nat.sub_zero]

/-- The documents are in order, and the numbers fit in an `int`. -/
structure InOrder (ps : List Posting) : Prop where
  sorted : ps.Pairwise fun p q => p.doc < q.doc
  doc_lt : ∀ p ∈ ps, p.doc < 2 ^ 31
  freq_eq : ∀ p ∈ ps, p.freq = p.positions.length
  freq_lt : ∀ p ∈ ps, p.freq < 2 ^ 31
  position_lt : ∀ p ∈ ps, ∀ x ∈ p.positions, x < 2 ^ 31

theorem length_writeVInt_pos (n : ℕ) : 0 < (writeVInt n).length := by
  unfold writeVInt varint
  split_ifs <;> simp

theorem length_freqCode_pos (last : ℕ) (p : Posting) : 0 < (freqCode last p).length := by
  unfold freqCode
  split_ifs
  · exact length_writeVInt_pos _
  · rw [length_append]
    exact Nat.add_pos_left (length_writeVInt_pos _) _

theorem freqOffset_succ (h : i < ps.length) : freqOffset ps (i + 1)
    = freqOffset ps i + (freqCode (docBefore ps i) ps[i]).length := by
  rw [freqOffset, freqCodes_take_succ h, length_append, freqOffset]

theorem proxOffset_succ (h : i < ps.length) : proxOffset ps (i + 1)
    = proxOffset ps i + (positionCodes 0 ps[i].positions).length := by
  rw [proxOffset, proxCodes_take_succ h, length_append, proxOffset]

theorem freqOffset_lt {j : ℕ} (hij : i < j) (hj : j ≤ ps.length) :
    freqOffset ps i < freqOffset ps j := by
  induction j, hij using Nat.le_induction with
  | base =>
    have := length_freqCode_pos (docBefore ps i) ps[i]
    rw [freqOffset_succ (by omega)]
    omega
  | succ j hij ih =>
    rw [freqOffset_succ (by omega)]
    have := ih (by omega)
    omega

theorem proxOffset_le {j : ℕ} (hij : i ≤ j) (hj : j ≤ ps.length) :
    proxOffset ps i ≤ proxOffset ps j := by
  induction j, hij using Nat.le_induction with
  | base => exact le_rfl
  | succ j hij ih =>
    rw [proxOffset_succ (by omega)]
    have := ih (by omega)
    omega

namespace InOrder

variable {j : ℕ} (hps : InOrder ps)

include hps

theorem docBefore_lt (hi : 1 ≤ i) (hij : i < j) (hj : j ≤ ps.length) :
    docBefore ps i < docBefore ps j := by
  obtain ⟨i, rfl⟩ : ∃ k, i = k + 1 := ⟨i - 1, by omega⟩
  obtain ⟨j, rfl⟩ : ∃ k, j = k + 1 := ⟨j - 1, by omega⟩
  rw [docBefore_succ (by omega), docBefore_succ (by omega)]
  exact pairwise_iff_getElem.1 hps.sorted i j (by omega) (by omega) (by omega)

theorem docBefore_le (hij : i ≤ j) (hj : j ≤ ps.length) : docBefore ps i ≤ docBefore ps j := by
  rcases Nat.eq_zero_or_pos i with rfl | hi
  · exact Nat.zero_le _
  · rcases hij.eq_or_lt with rfl | hlt
    · exact le_rfl
    · exact (hps.docBefore_lt hi hlt hj).le

theorem docBefore_lt_two_pow (hi : i ≤ ps.length) : docBefore ps i < 2 ^ 31 := by
  rcases Nat.eq_zero_or_pos i with rfl | hpos
  · simp
  · obtain ⟨i, rfl⟩ : ∃ k, i = k + 1 := ⟨i - 1, by omega⟩
    rw [docBefore_succ (by omega)]
    exact hps.doc_lt _ (getElem_mem _)

end InOrder

end Etoile.Lucene
