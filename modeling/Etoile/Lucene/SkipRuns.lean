import Etoile.Lucene.SkipTo

/-!
# Enumerators over runs of requests

An enumerator that is set to a term of a merged segment answers requests in any order as one that
iterates over the postings, as long as every skip counts the entries it passes.
-/

namespace Etoile.Lucene

open Option SegmentTermDocs

variable {Term : Type} {segment : Segment Term}

inductive PostingRequest
  | hasNextDocument
  | skipTo (target : ℤ)
  | readDocuments (size : ℕ)
  | nextPosition

inductive PostingAnswer
  /-- the document and its frequency, if there is one -/
  | document (found : Option (ℤ × ℤ))
  | documents (found : List (ℤ × ℤ))
  | position (position : ℤ)
  deriving DecidableEq

namespace PostingAnswer

/-- An answer without a document ends the enumeration, and one with a document does not. -/
def ends (ended : Bool) : PostingAnswer → Bool
  | document found => found.isNone
  | _ => ended

end PostingAnswer

namespace SegmentTermDocs

def entry (found : Bool) (e : SegmentTermDocs) : PostingAnswer :=
  .document (if found then some (e.doc, e.freq) else none)

def answer : PostingRequest → SegmentTermDocs → Option (PostingAnswer × SegmentTermDocs)
  | .hasNextDocument, e => e.hasNextDocument.map fun r => (entry r.1 r.2, r.2)
  | .skipTo target, e => (e.skipTo target).map fun r => (entry r.1 r.2, r.2)
  | .readDocuments size, e => (e.readDocuments size).map fun r => (.documents r.1, r.2)
  | .nextPosition, e => e.nextPosition.map fun r => (.position r.1, r.2)

def answers : List PostingRequest → SegmentTermDocs → Option (List PostingAnswer)
  | [], _ => some []
  | request :: requests, e =>
    (e.answer request).bind fun r => (answers requests r.2).map (r.1 :: ·)

end SegmentTermDocs

namespace SegmentTermDocuments

def entry (found : Bool) (e : SegmentTermDocuments segment) : PostingAnswer :=
  .document (if found then some (e.current.doc, e.current.freq) else none)

/-- The answers of an enumerator of postings that skips by iterating. -/
def answer : PostingRequest → SegmentTermDocuments segment →
    PostingAnswer × SegmentTermDocuments segment
  | .hasNextDocument, e =>
    (entry (hasNextDocument e).1 (hasNextDocument e).2, (hasNextDocument e).2)
  | .skipTo target, e => (entry (skipTo target e).1 (skipTo target e).2, (skipTo target e).2)
  | .readDocuments size, e =>
    (.documents ((TermDocuments.readDocuments size e).1.map fun d => ((d.1 : ℤ), (d.2 : ℤ))),
      (TermDocuments.readDocuments size e).2)
  | .nextPosition, e =>
    (.position (TermDocuments.nextPosition e).1, (TermDocuments.nextPosition e).2)

def answers : List PostingRequest → SegmentTermDocuments segment → List PostingAnswer
  | [], _ => []
  | request :: requests, e => (e.answer request).1 :: answers requests (e.answer request).2

end SegmentTermDocuments

/-- Postings that the merger wrote behind others, and what was written behind them. -/
structure MergedPostings where
  skipInterval : ℕ
  postings : List Posting
  freqOutput : List UInt8
  proxOutput : List UInt8
  freqRest : List UInt8
  proxRest : List UInt8
  one_le : 1 ≤ skipInterval
  inOrder : InOrder postings

namespace MergedPostings

variable (M : MergedPostings)

def merged : Option TermInfo × List UInt8 × List UInt8 :=
  mergeTermInfo M.skipInterval M.postings M.freqOutput M.proxOutput

structure Opens (e : SegmentTermDocs) : Prop where
  freqFile : e.freqStream.file = M.merged.2.1 ++ M.freqRest
  proxFile : ∀ s ∈ e.proxStream, s.file = M.merged.2.2 ++ M.proxRest
  skipInterval : e.skips.skipInterval = M.skipInterval
  skipFile : ∀ s ∈ e.skips.skipStream, s.file = e.freqStream.file

/-- The files; when there are no postings, the pointers are anywhere. -/
def files (freqPointer proxPointer : ℕ) (h : M.postings ≠ [] →
    freqPointer = M.freqOutput.length ∧ proxPointer = M.proxOutput.length) : PostingFiles where
  skipInterval := M.skipInterval
  postings := M.postings
  freqFile := M.merged.2.1 ++ M.freqRest
  proxFile := M.merged.2.2 ++ M.proxRest
  freqPointer := freqPointer
  proxPointer := proxPointer
  one_le := M.one_le
  inOrder := M.inOrder
  freq := by
    rcases eq_or_ne M.postings [] with hnil | hne
    · rw [hnil]
      exact ⟨_, by simp [freqCodes, skipEntries]; rfl⟩
    · refine ⟨M.freqRest, ?_⟩
      rw [merged, mergeTermInfo_eq, (h hne).1]
      simp only [List.append_assoc, List.drop_left]
  prox := by
    rcases eq_or_ne M.postings [] with hnil | hne
    · rw [hnil]
      exact ⟨_, by simp [proxCodes]; rfl⟩
    · refine ⟨M.proxRest, ?_⟩
      rw [merged, mergeTermInfo_eq, (h hne).2]
      simp only [List.append_assoc, List.drop_left]

def written : PostingFiles := M.files M.freqOutput.length M.proxOutput.length fun _ => ⟨rfl, rfl⟩

end MergedPostings

structure SkipSession (segment : Segment Term) where
  enumerator : SegmentTermDocs
  plain : SegmentTermDocuments segment
  /-- whether the last answer was that there are no more documents -/
  ended : Bool := false

namespace SkipSession

def start (M : MergedPostings) (segment : Segment Term) (e : SegmentTermDocs) :
    SkipSession segment where
  enumerator := e.seekTermInfo M.merged.1
  plain := { rest := M.postings, deletedDocs := e.deletedDocs }

def step (request : PostingRequest) (s : SkipSession segment) :
    Option (PostingAnswer × PostingAnswer × SkipSession segment) :=
  (s.enumerator.answer request).map fun r => (r.1, (s.plain.answer request).1,
    { enumerator := r.2, plain := (s.plain.answer request).2, ended := r.1.ends s.ended })

def Legal (s : SkipSession segment) : PostingRequest → Prop
  | .nextPosition => s.enumerator.proxStream.isSome ∧ s.ended = false
      ∧ s.plain.current.positions ≠ []
  | _ => True

def CanGoOn (s : SkipSession segment) : Prop :=
  s.ended = true → s.enumerator.proxStream.isSome → s.enumerator.proxCount = 0

/-- Every entry that is jumped over is counted, differences fit in an `int`, and where positions are
read documents are not read in batches. -/
def Permitted (M : MergedPostings) (s : SkipSession segment) : PostingRequest → Prop
  | .hasNextDocument => s.CanGoOn
  | .skipTo target => s.CanGoOn ∧ M.written.CountsAll s.enumerator.count.toNat target
      ∧ ∀ i < M.written.skips, (M.written.skipDoc i : ℤ) < target → M.written.BlockFits i
  | .readDocuments _ => s.enumerator.proxStream = none
  | .nextPosition => True

def AllLegal : SkipSession segment → List PostingRequest → Prop
  | _, [] => True
  | s, request :: requests => s.Legal request
      ∧ ∀ a b s', s.step request = some (a, b, s') → AllLegal s' requests

def AllPermitted (M : MergedPostings) : SkipSession segment → List PostingRequest → Prop
  | _, [] => True
  | s, request :: requests => s.Permitted M request
      ∧ ∀ a b s', s.step request = some (a, b, s') → AllPermitted M s' requests

def Follows (s : SkipSession segment) (requests : List PostingRequest) : Prop :=
  s.enumerator.answers requests = some (s.plain.answers requests)

structure Valid (F : PostingFiles) (s : SkipSession segment) : Prop where
  deletedDocs : s.enumerator.deletedDocs = s.plain.deletedDocs
  exists_at : ∃ c, F.FreqAt c s.enumerator ∧ F.InSkips c s.enumerator.skips
    ∧ s.plain.rest = F.postings.drop c
    ∧ if s.ended then F.ProxAt c s.enumerator
      else F.Unread c s.plain.current.positions s.enumerator

variable {F : PostingFiles} {s : SkipSession segment}

open SegmentTermDocuments (next nextFrom)

theorem Valid.exists_unread (h : s.Valid F) (hgo : s.CanGoOn) :
    ∃ c xs, F.FreqAt c s.enumerator ∧ F.Unread c xs s.enumerator
      ∧ F.InSkips c s.enumerator.skips ∧ s.plain.rest = F.postings.drop c := by
  obtain ⟨c, hfreq, hskips, hrest, hprox⟩ := h.exists_at
  rcases hended : s.ended with _ | _
  · rw [hended, if_neg Bool.false_ne_true] at hprox
    exact ⟨c, _, hfreq, hprox, hskips, hrest⟩
  · rw [hended, if_pos rfl] at hprox
    exact ⟨c, [], hfreq, hprox.unread_nil (hgo hended), hskips, hrest⟩

theorem valid_of_found {c : ℕ} {o : Option (Posting × List Posting)} {e : SegmentTermDocs}
    (plain : SegmentTermDocuments segment) (current : Posting)
    (hfound : F.Found c o e) (hdeleted : e.deletedDocs = plain.deletedDocs)
    (hskips : ∃ c' : ℕ, e.count = c' ∧ F.InSkips c' e.skips) (ended : Bool) :
    entry o.isSome e
        = SegmentTermDocuments.entry (plain.found current o).1 (plain.found current o).2
      ∧ Valid F ⟨e, (plain.found current o).2, (entry o.isSome e).ends ended⟩ := by
  obtain ⟨c', hcount, hskips⟩ := hskips
  match o with
  | none =>
    obtain ⟨hfreq, hprox⟩ := hfound
    have hc' : c' = F.postings.length := by
      have := hfreq.count
      omega
    refine ⟨rfl, hdeleted, _, hfreq, hc' ▸ hskips, ?_, hprox⟩
    rw [List.drop_length]
    rfl
  | some (p, ps) =>
    obtain ⟨j, -, hdrop, hfreq, hunread, hdoc, hfreq'⟩ := hfound
    have hc' : c' = j := by
      have := hfreq.count
      omega
    refine ⟨?_, hdeleted, j, hfreq, hc' ▸ hskips, hdrop.symm, hunread⟩
    simp [entry, SegmentTermDocuments.entry, SegmentTermDocuments.found, hdoc,
      hfreq']

theorem Valid.hasNextDocument (h : s.Valid F) (hgo : s.CanGoOn) :
    ∃ a s', s.step .hasNextDocument = some (a, a, s') ∧ s'.Valid F := by
  obtain ⟨c, xs, hfreq, hunread, hskips, hrest⟩ := h.exists_unread hgo
  obtain ⟨e, hnext, hkept, hfound⟩ := PostingFiles.hasNextDocument_eq hfreq hunread rfl
  have hskips' : F.InSkips (c + 1) e.skips := by
    rw [hkept.skips]
    exact hskips.mono (Nat.le_succ c)
  obtain ⟨ha, hvalid⟩ := valid_of_found s.plain s.plain.current hfound
    (hkept.deletedDocs.trans h.deletedDocs) (hfound.inSkips hskips') s.ended
  have hplain := SegmentTermDocuments.hasNextDocument_found s.plain
  rw [← h.deletedDocs, hrest] at hplain
  refine ⟨entry (next s.enumerator.deletedDocs (F.postings.drop c)).isSome e, _, ?_,
    hvalid⟩
  simp only [step, answer, SegmentTermDocuments.answer, hnext, map_some,
    hplain, ← ha]

theorem Valid.skipTo {target : ℤ} (h : s.Valid F) (hgo : s.CanGoOn)
    (hzero : F.CountsAll s.enumerator.count.toNat target)
    (hfits : ∀ i < F.skips, (F.skipDoc i : ℤ) < target → F.BlockFits i) :
    ∃ a s', s.step (.skipTo target) = some (a, a, s') ∧ s'.Valid F := by
  obtain ⟨c, xs, hfreq, hunread, hskips, hrest⟩ := h.exists_unread hgo
  rw [hfreq.count, Int.toNat_natCast] at hzero
  obtain ⟨e, hskip, hdeleted, -, hfound, hskips'⟩ :=
    PostingFiles.skipTo_eq hfreq hunread hskips hzero hfits
  obtain ⟨current, hloop⟩ := SegmentTermDocuments.skipLoop_eq target _ s.plain
    (Nat.lt_succ_self _)
  rw [← h.deletedDocs, hrest] at hloop
  obtain ⟨ha, hvalid⟩ := valid_of_found s.plain current hfound
    (hdeleted.trans h.deletedDocs) hskips' s.ended
  have hplain : SegmentTermDocuments.skipTo target s.plain = s.plain.found current
      (nextFrom s.enumerator.deletedDocs target (F.postings.drop c)) := by
    rw [SegmentTermDocuments.skipTo, hrest]
    exact hloop
  refine ⟨entry
    (nextFrom s.enumerator.deletedDocs target (F.postings.drop c)).isSome e, _, ?_, hvalid⟩
  simp only [step, answer, SegmentTermDocuments.answer, hskip, map_some,
    hplain, ← ha]

theorem Valid.readDocuments {size : ℕ} (h : s.Valid F) (hnone : s.enumerator.proxStream = none) :
    ∃ a s', s.step (.readDocuments size) = some (a, a, s') ∧ s'.Valid F := by
  obtain ⟨c, hfreq, hskips, hrest, hprox⟩ := h.exists_at
  obtain ⟨e, j, hread, hkept, hnone', hj, hfreq', hrest'⟩ :=
    PostingFiles.readLoop_eq _ c size _ hfreq hfreq.lt_fuel hnone
  rw [h.deletedDocs, ← hrest] at hread hrest'
  refine ⟨.documents ((SegmentTermDocuments.read s.plain.deletedDocs size s.plain.rest).1.map
    fun d => ((d.1 : ℤ), (d.2 : ℤ))), ⟨e, { s.plain with
      rest := (SegmentTermDocuments.read s.plain.deletedDocs size s.plain.rest).2 }, s.ended⟩, ?_,
    hkept.deletedDocs.trans h.deletedDocs, j, hfreq', ?_, hrest', ?_⟩
  · show ((s.enumerator.readDocuments size).map _).map _ = _
    rw [SegmentTermDocs.readDocuments, hread]
    rfl
  · simp only [hkept.skips]
    exact hskips.mono hj
  · have hnot : ∀ t, t ∉ e.proxStream := fun t ht => by
      rw [hnone'] at ht
      cases ht
    rcases hended : s.ended with _ | _
    · rw [hended, if_neg Bool.false_ne_true] at hprox
      refine ⟨hprox.lt, fun hsome => ?_, fun t ht => absurd ht (hnot t),
        fun t ht => absurd ht (hnot t), fun t ht => absurd ht (hnot t)⟩
      rw [isSome_iff_exists] at hsome
      obtain ⟨t, ht⟩ := hsome
      exact absurd ht (hnot t)
    · exact fun t ht => absurd ht (hnot t)

theorem Valid.nextPosition (h : s.Valid F) (hlegal : s.Legal .nextPosition) :
    ∃ a s', s.step .nextPosition = some (a, a, s') ∧ s'.Valid F := by
  obtain ⟨hsome, hended, hne⟩ := hlegal
  obtain ⟨c, hfreq, hskips, hrest, hprox⟩ := h.exists_at
  rw [hended, if_neg Bool.false_ne_true] at hprox
  rcases hpositions : s.plain.current.positions with _ | ⟨x, xs⟩
  · exact absurd hpositions hne
  · rw [hpositions] at hprox
    obtain ⟨e, hnext, hkept, hfreq', hunread, -⟩ := PostingFiles.nextPosition_eq hsome hfreq hprox
    have hplain : (s.plain.answer .nextPosition) = (.position x,
        { s.plain with current := { s.plain.current with positions := xs } }) := by
      simp [SegmentTermDocuments.answer, TermDocuments.nextPosition, hpositions]
    refine ⟨.position x,
      ⟨e, { s.plain with current := { s.plain.current with positions := xs } }, s.ended⟩, ?_, ?_⟩
    · simp only [step, answer, hnext, map_some, hplain]
      rfl
    · refine ⟨hkept.deletedDocs.trans h.deletedDocs, c, hfreq', ?_, hrest, ?_⟩
      · simp only [hkept.skips]
        exact hskips
      · rw [hended, if_neg Bool.false_ne_true]
        exact hunread

variable {M : MergedPostings}

theorem Valid.exists_step {p q : ℕ} {hpq} (h : s.Valid (M.files p q hpq))
    {request : PostingRequest} (hlegal : s.Legal request) (hp : s.Permitted M request) :
    ∃ a s', s.step request = some (a, a, s') ∧ s'.Valid (M.files p q hpq) := by
  cases request with
  | hasNextDocument => exact h.hasNextDocument hp
  | skipTo target => exact h.skipTo hp.1 hp.2.1 hp.2.2
  | readDocuments size => exact h.readDocuments hp
  | nextPosition => exact h.nextPosition hlegal

theorem Valid.follows {p q : ℕ} {hpq} : ∀ {requests : List PostingRequest}
    {s : SkipSession segment}, s.Valid (M.files p q hpq) → s.AllLegal requests →
      s.AllPermitted M requests → s.Follows requests
  | [], _, _, _, _ => rfl
  | request :: requests, s, h, hlegal, hp => by
    obtain ⟨a, s', hstep, hvalid⟩ := h.exists_step hlegal.1 hp.1
    have hrest := hvalid.follows (hlegal.2 a a s' hstep) (hp.2 a a s' hstep)
    obtain ⟨r, hr, heq⟩ := map_eq_some_iff.1 hstep
    obtain ⟨ha, hb, rfl⟩ : r.1 = a ∧ (s.plain.answer request).1 = a ∧ _ = s' := by
      simpa only [Prod.mk.injEq] using heq
    unfold Follows at hrest ⊢
    rw [answers, hr, bind_some, hrest, SegmentTermDocuments.answers, hb, ha]
    rfl

theorem seekTermInfo_none (e : SegmentTermDocs) :
    e.seekTermInfo none = { e with count := 0, df := 0, proxCount := 0 } := rfl

theorem valid_start (segment : Segment Term) {e : SegmentTermDocs}
    (he : M.Opens e) : ∃ p q hpq, (start M segment e).Valid (M.files p q hpq) := by
  have hmerged := mergeTermInfo_eq M.skipInterval M.postings M.freqOutput M.proxOutput
  rcases Nat.eq_zero_or_pos M.postings.length with hzero | hpos
  · have hnil := List.length_eq_zero_iff.1 hzero
    have hone := M.one_le
    have hti : M.merged.1 = none := by
      rw [MergedPostings.merged, hmerged, if_neg (by omega)]
    refine ⟨e.freqStream.offsetInFile, (e.proxStream.map (·.offsetInFile)).getD 0,
      fun hne => absurd hnil hne, ?_⟩
    unfold start
    rw [hti, seekTermInfo_none]
    refine ⟨rfl, 0, ?_, ⟨he.skipInterval, fun _ s hs => (he.skipFile s hs).trans he.freqFile, ?_⟩,
      rfl, ?_⟩
    · exact ⟨Nat.zero_le _, rfl, by simp [MergedPostings.files, hzero],
        fun h => absurd hzero (Nat.ne_of_gt h), he.freqFile, rfl⟩
    · intro hle
      simp only [MergedPostings.files] at hle
      omega
    · refine PostingFiles.ProxAt.unread_nil (fun s hs => ⟨he.proxFile s hs, ?_⟩) fun _ => rfl
      have hs' : e.proxStream = some s := hs
      simp [MergedPostings.files, hs']
  · have hti : M.merged.1 = some ⟨M.postings.length, M.freqOutput.length, M.proxOutput.length,
        (freqCodes 0 M.postings).length⟩ := by
      rw [MergedPostings.merged, hmerged, if_pos hpos]
    refine ⟨M.freqOutput.length, M.proxOutput.length, fun _ => ⟨rfl, rfl⟩, ?_⟩
    unfold start
    rw [hti]
    refine ⟨rfl, 0, ?_, ⟨he.skipInterval, fun _ s hs => (he.skipFile s hs).trans he.freqFile,
      fun _ => ⟨0, ?_, by omega⟩⟩, rfl, ?_⟩
    · exact ⟨Nat.zero_le _, rfl, rfl, fun _ => rfl, he.freqFile, unsigned_natCast _⟩
    · constructor
      case le => exact Nat.zero_le _
      case numSkips =>
        show ((M.postings.length : ℕ) : ℤ).tdiv e.skips.skipInterval = _
        rw [he.skipInterval]
        exact (Int.ofNat_tdiv _ _).symm
      case skipCount => rfl
      case skipDoc => simp [seekTermInfo, PostingFiles.skipDoc]
      case freqPointer =>
        simp [seekTermInfo, PostingFiles.skipFreq, MergedPostings.files]
      case proxPointer =>
        simp [seekTermInfo, PostingFiles.skipProx, MergedPostings.files]
      case skipPointer => simp [seekTermInfo, MergedPostings.files]
      case closed => exact fun _ => rfl
      case opened => exact fun h => absurd h Bool.false_ne_true
    · refine PostingFiles.ProxAt.unread_nil (fun s hs => ?_) fun _ => rfl
      obtain ⟨s', hs', rfl⟩ := mem_map.1 hs
      exact ⟨he.proxFile s' hs', unsigned_natCast _⟩

theorem writeVInt_of_lt {n : ℕ} (h : n < 128) : writeVInt n = [UInt8.ofNat n] := by
  unfold writeVInt varint
  rw [if_pos h]

def threePostings (skipInterval : ℕ) (h : 1 ≤ skipInterval) : MergedPostings where
  skipInterval := skipInterval
  postings := [⟨0, 1, [5]⟩, ⟨1, 1, [6]⟩, ⟨2, 1, [7]⟩]
  freqOutput := []
  proxOutput := []
  freqRest := []
  proxRest := []
  one_le := h
  inOrder := ⟨by decide, by decide, by decide, by decide, by decide⟩

theorem merged_threePostings_two : (threePostings 2 (by decide)).merged
    = (some ⟨3, 0, 0, 3⟩, [1, 3, 3, 0, 1, 1], [5, 6, 7]) := by
  simp [MergedPostings.merged, threePostings, mergeTermInfo, PostingWriter.appendPosting,
    PostingWriter.resetSkip, PostingWriter.bufferSkip, PostingWriter.append, freqCode,
    positionCodes, writeVInt_of_lt]

theorem merged_threePostings_sixteen : (threePostings 16 (by decide)).merged
    = (some ⟨3, 0, 0, 3⟩, [1, 3, 3], [5, 6, 7]) := by
  simp [MergedPostings.merged, threePostings, mergeTermInfo, PostingWriter.appendPosting,
    PostingWriter.resetSkip, PostingWriter.append, freqCode, positionCodes, writeVInt_of_lt]

def docsEnumerator (skipInterval : ℤ) (freqFile : List UInt8) : SegmentTermDocs where
  freqStream := { file := freqFile }
  deletedDocs := none
  skips := { skipInterval }

def positionsEnumerator (skipInterval : ℤ) (freqFile proxFile : List UInt8) : SegmentTermDocs where
  freqStream := { file := freqFile }
  proxStream := some { file := proxFile }
  deletedDocs := none
  skips := { skipInterval }

/-- A segment with no terms, whose enumerators are given other postings. -/
def noTerms : Segment Empty where
  name := []
  fieldInfos := []
  maximalDocument := 0
  maximalDocument_lt := by decide
  postings _ := []
  doc_lt := by simp
  compound _ := none

theorem opens_sixteen :
    (threePostings 16 (by decide)).Opens (positionsEnumerator 16 [1, 3, 3] [5, 6, 7]) := by
  constructor
  case freqFile =>
    rw [merged_threePostings_sixteen]
    rfl
  case proxFile =>
    rw [merged_threePostings_sixteen]
    rintro _ ⟨⟩
    rfl
  case skipInterval => rfl
  case skipFile => simp [positionsEnumerator]

theorem opens_two :
    (threePostings 2 (by decide)).Opens (docsEnumerator 2 [1, 3, 3, 0, 1, 1]) := by
  constructor
  case freqFile =>
    rw [merged_threePostings_two]
    rfl
  case proxFile => simp [docsEnumerator]
  case skipInterval => rfl
  case skipFile => simp [docsEnumerator]

theorem start_sixteen : start (threePostings 16 (by decide)) noTerms
      (positionsEnumerator 16 [1, 3, 3] [5, 6, 7])
    = ⟨(positionsEnumerator 16 [1, 3, 3] [5, 6, 7]).seekTermInfo (some ⟨3, 0, 0, 3⟩),
      { rest := [⟨0, 1, [5]⟩, ⟨1, 1, [6]⟩, ⟨2, 1, [7]⟩], deletedDocs := none }, false⟩ := by
  unfold start
  rw [merged_threePostings_sixteen]
  rfl

theorem start_two : start (threePostings 2 (by decide)) noTerms
      (docsEnumerator 2 [1, 3, 3, 0, 1, 1])
    = ⟨(docsEnumerator 2 [1, 3, 3, 0, 1, 1]).seekTermInfo (some ⟨3, 0, 0, 3⟩),
      { rest := [⟨0, 1, [5]⟩, ⟨1, 1, [6]⟩, ⟨2, 1, [7]⟩], deletedDocs := none }, false⟩ := by
  unfold start
  rw [merged_threePostings_two]
  rfl

end SkipSession

end Etoile.Lucene
