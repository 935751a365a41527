import Etoile.Lucene.SegmentTermDocs

/-!
# Reading postings

An enumerator that is at a posting in the files reads the postings from there on as they were
written, and skips those of deleted documents.
-/

namespace Etoile.Lucene

open List Option SegmentTermDocs

structure PostingFiles where
  skipInterval : ℕ
  postings : List Posting
  freqFile : List UInt8
  proxFile : List UInt8
  freqPointer : ℕ
  proxPointer : ℕ
  one_le : 1 ≤ skipInterval
  inOrder : InOrder postings
  freq : ∃ post, freqFile.drop freqPointer
    = freqCodes 0 postings ++ (skipEntries skipInterval postings 0 ++ post)
  prox : ∃ post, proxFile.drop proxPointer = proxCodes postings ++ post

theorem docDelta_even {n : ℕ} (h : n < 2 ^ 31) :
    ((n * 2 : ℕ) : ℤ).bmod (2 ^ 32) % 2 = 0
      ∧ docDelta (((n * 2 : ℕ) : ℤ).bmod (2 ^ 32)) = n := by
  unfold docDelta Int.bmod
  dsimp only
  split_ifs <;> omega

theorem docDelta_odd {n : ℕ} (h : n < 2 ^ 31) :
    ((n * 2 + 1 : ℕ) : ℤ).bmod (2 ^ 32) % 2 = 1
      ∧ docDelta (((n * 2 + 1 : ℕ) : ℤ).bmod (2 ^ 32)) = n := by
  unfold docDelta Int.bmod
  dsimp only
  split_ifs <;> omega

theorem bmod_add_bmod_sub {x : ℕ} (position : ℤ) (h : x < 2 ^ 31) :
    (position + ((((x - position) % 2 ^ 32 : ℤ).toNat : ℕ) : ℤ).bmod (2 ^ 32)).bmod (2 ^ 32)
      = x := by
  rw [Int.toNat_of_nonneg (Int.emod_nonneg _ (by decide)), Int.add_bmod_bmod]
  have hmod := Int.emod_add_mul_ediv (x - position) (2 ^ 32)
  have hsum : position + (x - position) % 2 ^ 32
      = x - 2 ^ 32 * ((x - position) / 2 ^ 32) := by omega
  rw [hsum, sub_eq_add_neg, ← mul_neg]
  have hmul := Int.add_mul_bmod_self_left (x : ℤ) (2 ^ 32) (-((x - position) / 2 ^ 32))
  rw [show ((2 ^ 32 : ℕ) : ℤ) = 2 ^ 32 by norm_num] at hmul
  rw [hmul, Int.bmod_eq_of_le (by omega) (by omega)]

theorem toNat_emod_lt (x : ℤ) : (x % 2 ^ 32).toNat < 2 ^ 32 := by
  have := Int.emod_lt_of_pos x (b := 2 ^ 32) (by decide)
  omega

variable {s : IndexInput} {rest : List UInt8}

theorem skipVInts_positionCodes : ∀ (xs : List ℕ) (last : ℤ) (s : IndexInput) (rest : List UInt8),
    s.rest = positionCodes last xs ++ rest →
      skipVInts xs.length s = some (s.advance (positionCodes last xs).length)
  | [], _, _, _, _ => rfl
  | x :: xs, last, s, rest, h => by
    rw [positionCodes, append_assoc] at h
    have hread := IndexInput.read_eq h (reads_writeVInt (toNat_emod_lt (x - last)))
    have ih := skipVInts_positionCodes xs x _ rest (IndexInput.rest_advance h)
    rw [length_cons, skipVInts, hread, bind_some, ih, positionCodes, length_append]
    simp [IndexInput.advance, Nat.add_assoc]

namespace SegmentTermDocs

variable {e : SegmentTermDocs}

def consume (e : SegmentTermDocs) (p : Posting) (bytes : ℕ) : SegmentTermDocs :=
  { e with
    freqStream := e.freqStream.advance bytes
    doc := p.doc
    freq := p.freq
    count := e.count + 1 }

def passPositions (e : SegmentTermDocs) (bytes : ℕ) : SegmentTermDocs :=
  { e with proxStream := e.proxStream.map (·.advance bytes) }

theorem readPosting_odd {docCode : ℤ} {s : IndexInput}
    (h : e.freqStream.read readVInt = some (docCode, s)) (hodd : docCode % 2 = 1) :
    e.readPosting = some { e with
      freqStream := s, doc := e.doc + docDelta docCode, freq := 1, count := e.count + 1 } := by
  unfold readPosting
  simp [h, hodd]

theorem readPosting_even {docCode freq : ℤ} {s s' : IndexInput}
    (h : e.freqStream.read readVInt = some (docCode, s)) (heven : docCode % 2 = 0)
    (h' : s.read readVInt = some (freq, s')) :
    e.readPosting = some { e with
      freqStream := s', doc := e.doc + docDelta docCode, freq := freq, count := e.count + 1 } := by
  unfold readPosting
  simp [h, heven, h']

theorem readPosting_eq {last : ℕ} {p : Posting}
    (hrest : e.freqStream.rest = freqCode last p ++ rest) (hdoc : e.doc = last)
    (hle : last ≤ p.doc) (hlt : p.doc < 2 ^ 31) (hfreq : p.freq < 2 ^ 31) :
    e.readPosting = some (e.consume p (freqCode last p).length) := by
  have hsum : (last : ℤ) + ((p.doc - last : ℕ) : ℤ) = p.doc := by omega
  by_cases hone : p.freq = 1
  · have hcode : freqCode last p = writeVInt ((p.doc - last) * 2 + 1) := if_pos hone
    obtain ⟨hodd, hdelta⟩ := @docDelta_odd (p.doc - last) (by omega)
    rw [hcode] at hrest
    have hread := IndexInput.read_eq hrest (reads_writeVInt (by omega))
    rw [readPosting_odd hread hodd, hdelta, hdoc, hsum, hcode, consume, hone]
    rfl
  · have hcode : freqCode last p = writeVInt ((p.doc - last) * 2) ++ writeVInt p.freq := if_neg hone
    obtain ⟨heven, hdelta⟩ := @docDelta_even (p.doc - last) (by omega)
    rw [hcode, append_assoc] at hrest
    have hread := IndexInput.read_eq hrest (reads_writeVInt (by omega))
    have hread' := IndexInput.read_eq (IndexInput.rest_advance hrest) (reads_writeVInt_of_lt hfreq)
    rw [readPosting_even hread heven hread', hdelta, hdoc, hsum, hcode, consume,
      length_append, IndexInput.advance_advance]

theorem nextPosition_of_read {delta x : ℤ} {s s' : IndexInput} (hs : e.proxStream = some s)
    (hread : s.read readVInt = some (delta, s')) (hx : (e.position + delta).bmod (2 ^ 32) = x) :
    e.nextPosition = some (x, { e with
      proxStream := some s', proxCount := e.proxCount - 1, position := x }) := by
  unfold nextPosition
  rw [hs, bind_eq_bind, bind_some, hread, ← hx]
  rfl

theorem skipPositions_eq {last : ℤ} {xs : List ℕ}
    (h : ∀ s ∈ e.proxStream, ∃ rest, s.rest = positionCodes last xs ++ rest)
    {n : ℤ} (hn : e.proxStream.isSome → n = xs.length) :
    e.skipPositions n = some (e.passPositions (positionCodes last xs).length) := by
  rcases hs : e.proxStream with _ | s
  · have hpass : e.passPositions (positionCodes last xs).length = e := by
      rw [passPositions, hs, map_none, ← hs]
    rw [hpass, skipPositions, hs]
  · unfold skipPositions passPositions
    obtain ⟨rest, hrest⟩ := h s hs
    simp [hs, hn (by rw [hs]; rfl), skipVInts_positionCodes xs last s rest hrest]

end SegmentTermDocs

namespace PostingFiles

variable {F : PostingFiles} {i : ℕ} {e : SegmentTermDocs}

theorem exists_freq (h : i < F.postings.length) :
    ∃ post, F.freqFile.drop (F.freqPointer + freqOffset F.postings i)
      = freqCode (docBefore F.postings i) F.postings[i] ++ post := by
  obtain ⟨post, hpost⟩ := F.freq
  have hsplit : F.postings = F.postings.take i ++ F.postings[i] :: F.postings.drop (i + 1) := by
    rw [← drop_eq_getElem_cons h, take_append_drop]
  have hcodes := freqCodes_append 0 (F.postings.take i) (F.postings[i] :: F.postings.drop (i + 1))
  rw [← hsplit] at hcodes
  rw [← drop_drop, hpost, hcodes, freqOffset, append_assoc, drop_left, freqCodes,
    append_assoc]
  exact ⟨_, rfl⟩

theorem exists_prox (h : i < F.postings.length) :
    ∃ post, F.proxFile.drop (F.proxPointer + proxOffset F.postings i)
      = positionCodes 0 F.postings[i].positions ++ post := by
  obtain ⟨post, hpost⟩ := F.prox
  have hsplit : F.postings = F.postings.take i ++ F.postings[i] :: F.postings.drop (i + 1) := by
    rw [← drop_eq_getElem_cons h, take_append_drop]
  have hcodes : proxCodes F.postings = proxCodes (F.postings.take i)
      ++ (positionCodes 0 F.postings[i].positions ++ proxCodes (F.postings.drop (i + 1))) := by
    nth_rewrite 1 [hsplit]
    simp only [proxCodes, flatMap_append, flatMap_cons]
  rw [← drop_drop, hpost, hcodes, proxOffset, append_assoc, drop_left,
    append_assoc]
  exact ⟨_, rfl⟩

/-- The enumerator has read `i` postings. -/
structure FreqAt (F : PostingFiles) (i : ℕ) (e : SegmentTermDocs) : Prop where
  le : i ≤ F.postings.length
  count : e.count = i
  df : e.df = F.postings.length
  doc : 0 < F.postings.length → e.doc = docBefore F.postings i
  file : e.freqStream.file = F.freqFile
  offset : e.freqStream.offsetInFile = F.freqPointer + freqOffset F.postings i

/-- The stream of positions, if there is one, is in front of those of posting `i`. -/
def ProxAt (F : PostingFiles) (i : ℕ) (e : SegmentTermDocs) : Prop :=
  ∀ s ∈ e.proxStream,
    s.file = F.proxFile ∧ s.offsetInFile = F.proxPointer + proxOffset F.postings i

/-- There are positions to be read before those of posting `i`. -/
structure Unread (F : PostingFiles) (i : ℕ) (xs : List ℕ) (e : SegmentTermDocs) : Prop where
  lt : ∀ x ∈ xs, x < 2 ^ 31
  proxCount : e.proxStream.isSome → e.proxCount = xs.length
  file : ∀ s ∈ e.proxStream, s.file = F.proxFile
  rest : ∀ s ∈ e.proxStream, ∃ rest, s.rest = positionCodes e.position xs ++ rest
  offset : ∀ s ∈ e.proxStream, s.offsetInFile + (positionCodes e.position xs).length
    = F.proxPointer + proxOffset F.postings i

structure Kept (e e' : SegmentTermDocs) : Prop where
  skips : e'.skips = e.skips
  deletedDocs : e'.deletedDocs = e.deletedDocs
  isSome : e'.proxStream.isSome = e.proxStream.isSome
  freqFile : e'.freqStream.file = e.freqStream.file

theorem Kept.trans {e e' e'' : SegmentTermDocs} (h : Kept e e') (h' : Kept e' e'') : Kept e e'' :=
  ⟨h'.skips.trans h.skips, h'.deletedDocs.trans h.deletedDocs, h'.isSome.trans h.isSome,
    h'.freqFile.trans h.freqFile⟩

theorem FreqAt.consume (h : F.FreqAt i e) (hi : i < F.postings.length) :
    e.readPosting = some (e.consume F.postings[i]
        (freqCode (docBefore F.postings i) F.postings[i]).length)
      ∧ F.FreqAt (i + 1) (e.consume F.postings[i]
        (freqCode (docBefore F.postings i) F.postings[i]).length) := by
  obtain ⟨post, hpost⟩ := exists_freq hi
  have hmem := getElem_mem hi
  have hrest : e.freqStream.rest = freqCode (docBefore F.postings i) F.postings[i] ++ post := by
    rw [IndexInput.rest, h.file, h.offset, hpost]
  have hle := F.inOrder.docBefore_le (Nat.le_succ i) hi
  rw [docBefore_succ hi] at hle
  refine ⟨readPosting_eq hrest (h.doc (by omega)) hle (F.inOrder.doc_lt _ hmem)
    (F.inOrder.freq_lt _ hmem), ?_⟩
  constructor
  case le => exact hi
  case count => simp [SegmentTermDocs.consume, h.count]
  case df => exact h.df
  case doc => simp [SegmentTermDocs.consume, docBefore_succ hi]
  case file => exact h.file
  case offset =>
    simp only [SegmentTermDocs.consume, IndexInput.advance, h.offset, freqOffset_succ hi]
    omega

theorem FreqAt.passPositions (h : F.FreqAt i e) (bytes : ℕ) : F.FreqAt i (e.passPositions bytes) :=
  ⟨h.le, h.count, h.df, h.doc, h.file, h.offset⟩

theorem kept_passPositions (e : SegmentTermDocs) (bytes : ℕ) : Kept e (e.passPositions bytes) := by
  refine ⟨rfl, rfl, ?_, rfl⟩
  simp [passPositions]

variable {xs : List ℕ}

theorem ProxAt.passPositions {last : ℤ} (hfile : ∀ s ∈ e.proxStream, s.file = F.proxFile)
    (hoffset : ∀ s ∈ e.proxStream, s.offsetInFile + (positionCodes last xs).length
      = F.proxPointer + proxOffset F.postings i) :
    F.ProxAt i (e.passPositions (positionCodes last xs).length) := by
  intro s hs
  obtain ⟨s', hs', rfl⟩ := mem_map.1 hs
  exact ⟨hfile s' hs', hoffset s' hs'⟩

theorem Unread.skipPositions (h : F.Unread i xs e) :
    ∃ bytes, e.skipPositions e.proxCount = some (e.passPositions bytes)
      ∧ F.ProxAt i (e.passPositions bytes) :=
  ⟨_, skipPositions_eq h.rest h.proxCount, ProxAt.passPositions h.file h.offset⟩

theorem ProxAt.exists_rest (h : F.ProxAt i e) (hi : i < F.postings.length) :
    ∀ s ∈ e.proxStream, ∃ rest, s.rest = positionCodes 0 F.postings[i].positions ++ rest := by
  intro s hs
  obtain ⟨post, hpost⟩ := exists_prox hi
  exact ⟨post, by rw [IndexInput.rest, (h s hs).1, (h s hs).2, hpost]⟩

theorem ProxAt.offset_succ (h : F.ProxAt i e) (hi : i < F.postings.length) :
    ∀ s ∈ e.proxStream, s.offsetInFile + (positionCodes 0 F.postings[i].positions).length
      = F.proxPointer + proxOffset F.postings (i + 1) := by
  intro s hs
  rw [(h s hs).2, proxOffset_succ hi]
  omega

theorem ProxAt.skippingDoc (h : F.ProxAt i e) (hi : i < F.postings.length)
    (hfreq : e.freq = F.postings[i].freq) :
    ∃ bytes, e.skippingDoc = some (e.passPositions bytes)
      ∧ F.ProxAt (i + 1) (e.passPositions bytes) := by
  have hlen : e.freq = F.postings[i].positions.length := by
    rw [hfreq, F.inOrder.freq_eq _ (getElem_mem hi)]
  exact ⟨_, skipPositions_eq (h.exists_rest hi) fun _ => hlen,
    ProxAt.passPositions (fun s hs => (h s hs).1) (h.offset_succ hi)⟩

theorem ProxAt.unread (h : F.ProxAt i e) (hi : i < F.postings.length)
    (hfreq : e.freq = F.postings[i].freq) :
    F.Unread (i + 1) F.postings[i].positions e.notePositions where
  lt := F.inOrder.position_lt _ (getElem_mem hi)
  proxCount _ := hfreq.trans (by rw [F.inOrder.freq_eq _ (getElem_mem hi)])
  file s hs := (h s hs).1
  rest := h.exists_rest hi
  offset := h.offset_succ hi

theorem ProxAt.unread_nil (h : F.ProxAt i e) (hcount : e.proxStream.isSome → e.proxCount = 0) :
    F.Unread i [] e where
  lt := by simp
  proxCount hs := by rw [hcount hs]; rfl
  file s hs := (h s hs).1
  rest s _ := ⟨s.rest, rfl⟩
  offset s hs := by simp [positionCodes, (h s hs).2]

/-- The enumerator is behind the posting that was found, or behind all of them. -/
def Found (F : PostingFiles) (i : ℕ) : Option (Posting × List Posting) → SegmentTermDocs → Prop
  | some (p, ps), e => ∃ j, i < j ∧ F.postings.drop j = ps ∧ F.FreqAt j e ∧ F.Unread j p.positions e
      ∧ e.doc = p.doc ∧ e.freq = p.freq
  | none, e => F.FreqAt F.postings.length e ∧ F.ProxAt F.postings.length e

theorem Found.mono {j : ℕ} {o : Option (Posting × List Posting)} (hij : i ≤ j)
    (h : F.Found j o e) : F.Found i o e := by
  match o with
  | none => exact h
  | some (p, ps) =>
    obtain ⟨k, hk, hrest⟩ := h
    exact ⟨k, by omega, hrest⟩

theorem nextLoop_eq : ∀ (fuel i : ℕ) (e : SegmentTermDocs), F.FreqAt i e → F.ProxAt i e →
    F.postings.length < i + fuel → ∀ o, o = SegmentTermDocuments.next e.deletedDocs
      (F.postings.drop i) →
      ∃ e', nextLoop fuel e = some (o.isSome, e') ∧ Kept e e'
        ∧ F.Found i o (if o.isSome then e'.notePositions else e')
  | 0, i, e, hfreq, _, hfuel, _, _ => by
    have := hfreq.le
    omega
  | fuel + 1, i, e, hfreq, hprox, hfuel, o, ho => by
    unfold nextLoop
    rcases hfreq.le.eq_or_lt with rfl | hi
    · rw [drop_length, SegmentTermDocuments.next] at ho
      rw [if_pos (by rw [hfreq.count, hfreq.df]), ho]
      exact ⟨e, rfl, ⟨rfl, rfl, rfl, rfl⟩, hfreq, hprox⟩
    · have hne : ¬e.count = e.df := by
        rw [hfreq.count, hfreq.df]
        omega
      obtain ⟨hread, hfreq'⟩ := hfreq.consume hi
      set e₁ := e.consume F.postings[i]
        (freqCode (docBefore F.postings i) F.postings[i]).length with he₁
      have hdeleted : e₁.isDeleted = e.deletedDocs.any (·.bit F.postings[i].doc) := by
        simp [he₁, isDeleted, consume]
      have hprox' : F.ProxAt i e₁ := hprox
      have hkept : Kept e e₁ := ⟨rfl, rfl, rfl, rfl⟩
      rw [drop_eq_getElem_cons hi, SegmentTermDocuments.next] at ho
      rw [if_neg hne, hread, bind_eq_bind, bind_some, hdeleted]
      by_cases hdel : e.deletedDocs.any (·.bit F.postings[i].doc)
      · obtain ⟨bytes, hskip, hprox₂⟩ := hprox'.skippingDoc hi rfl
        rw [if_pos hdel] at ho
        obtain ⟨e', hloop, hkept', hfound⟩ := nextLoop_eq fuel (i + 1) (e₁.passPositions bytes)
          (hfreq'.passPositions bytes) hprox₂ (by omega) o ho
        rw [if_pos hdel, hskip]
        exact ⟨e', hloop, (hkept.trans (kept_passPositions e₁ bytes)).trans hkept',
          hfound.mono (Nat.le_succ i)⟩
      · rw [if_neg hdel] at ho
        subst ho
        rw [if_neg hdel]
        exact ⟨e₁, rfl, hkept, i + 1, Nat.lt_succ_self i, rfl, ⟨hfreq'.le, hfreq'.count, hfreq'.df,
          hfreq'.doc, hfreq'.file, hfreq'.offset⟩, hprox'.unread hi rfl, rfl, rfl⟩

theorem FreqAt.lt_fuel (h : F.FreqAt i e) : F.postings.length < i + e.fuel := by
  obtain ⟨post, hpost⟩ := F.freq
  have hlen := congrArg length hpost
  have hle : ∀ j ≤ F.postings.length, j ≤ freqOffset F.postings j := by
    intro j
    induction j with
    | zero => simp
    | succ j ih =>
      intro hj
      have := freqOffset_lt (Nat.lt_add_one j) hj
      have := ih (by omega)
      omega
  have hall := hle _ le_rfl
  rw [freqOffset, take_length] at hall
  rw [length_drop, length_append] at hlen
  rw [fuel, h.file]
  omega

/-- `-hasNextDocument` finds what iterating over the postings finds. -/
theorem hasNextDocument_eq (hfreq : F.FreqAt i e) (hunread : F.Unread i xs e)
    {o : Option (Posting × List Posting)}
    (ho : o = SegmentTermDocuments.next e.deletedDocs (F.postings.drop i)) :
    ∃ e', e.hasNextDocument = some (o.isSome, e') ∧ Kept e e' ∧ F.Found i o e' := by
  obtain ⟨bytes, hskip, hprox⟩ := hunread.skipPositions
  have hfreq' := hfreq.passPositions bytes
  obtain ⟨e', hloop, hkept, hfound⟩ := nextLoop_eq _ i _ hfreq' hprox hfreq'.lt_fuel o ho
  unfold hasNextDocument
  rw [hskip, bind_eq_bind, bind_some, hloop]
  refine ⟨_, rfl, (kept_passPositions e bytes).trans (hkept.trans ?_), hfound⟩
  split_ifs <;> exact ⟨rfl, rfl, rfl, rfl⟩

theorem readLoop_eq : ∀ (fuel i size : ℕ) (e : SegmentTermDocs), F.FreqAt i e →
    F.postings.length < i + fuel → e.proxStream = none →
      ∃ e' j, readLoop fuel size e
          = some ((SegmentTermDocuments.read e.deletedDocs size (F.postings.drop i)).1.map
            fun d => ((d.1 : ℤ), (d.2 : ℤ)), e')
        ∧ Kept e e' ∧ e'.proxStream = none ∧ i ≤ j ∧ F.FreqAt j e'
        ∧ (SegmentTermDocuments.read e.deletedDocs size (F.postings.drop i)).2 = F.postings.drop j
  | 0, i, _, e, hfreq, hfuel, _ => by
    have := hfreq.le
    omega
  | fuel + 1, i, 0, e, hfreq, _, hnone => by
    unfold readLoop SegmentTermDocuments.read
    exact ⟨e, i, rfl, ⟨rfl, rfl, rfl, rfl⟩, hnone, le_rfl, hfreq, rfl⟩
  | fuel + 1, i, size + 1, e, hfreq, hfuel, hnone => by
    unfold readLoop
    rcases hfreq.le.eq_or_lt with rfl | hi
    · have hlt : ¬e.count < e.df := by
        rw [hfreq.count, hfreq.df]
        omega
      rw [if_neg hlt, drop_length, SegmentTermDocuments.read]
      exact ⟨e, _, rfl, ⟨rfl, rfl, rfl, rfl⟩, hnone, le_rfl, hfreq, by simp⟩
    · have hlt : e.count < e.df := by
        rw [hfreq.count, hfreq.df]
        omega
      obtain ⟨hread, hfreq'⟩ := hfreq.consume hi
      set e₁ := e.consume F.postings[i]
        (freqCode (docBefore F.postings i) F.postings[i]).length with he₁
      have hdeleted : e₁.isDeleted = e.deletedDocs.any (·.bit F.postings[i].doc) := by
        simp [he₁, isDeleted, consume]
      have hkept : Kept e e₁ := ⟨rfl, rfl, rfl, rfl⟩
      rw [if_pos hlt, hread, bind_eq_bind, bind_some, hdeleted,
        drop_eq_getElem_cons hi, SegmentTermDocuments.read]
      by_cases hdel : e.deletedDocs.any (·.bit F.postings[i].doc)
      · rw [if_pos hdel, if_pos hdel]
        obtain ⟨e', j, hloop, hkept', hnone', hj, hfreq₂, hrest⟩ :=
          readLoop_eq fuel (i + 1) (size + 1) e₁ hfreq' (by omega) hnone
        exact ⟨e', j, hloop, hkept.trans hkept', hnone', by omega, hfreq₂, hrest⟩
      · rw [if_neg hdel, if_neg hdel]
        obtain ⟨e', j, hloop, hkept', hnone', hj, hfreq₂, hrest⟩ :=
          readLoop_eq fuel (i + 1) size e₁ hfreq' (by omega) hnone
        rw [hloop]
        exact ⟨e', j, rfl, hkept.trans hkept', hnone', by omega, hfreq₂, hrest⟩

theorem nextPosition_eq {x : ℕ} (hsome : e.proxStream.isSome)
    (hfreq : F.FreqAt i e) (hunread : F.Unread i (x :: xs) e) :
    ∃ e', e.nextPosition = some ((x : ℤ), e') ∧ Kept e e' ∧ F.FreqAt i e' ∧ F.Unread i xs e'
      ∧ e'.proxStream.isSome := by
  obtain ⟨s, hs⟩ := isSome_iff_exists.1 hsome
  obtain ⟨rest, hrest⟩ := hunread.rest s hs
  have hoffset := hunread.offset s hs
  have hx := hunread.lt x mem_cons_self
  rw [positionCodes] at hrest hoffset
  rw [append_assoc] at hrest
  have hread := IndexInput.read_eq hrest (reads_writeVInt (toNat_emod_lt (x - e.position)))
  refine ⟨_, nextPosition_of_read hs hread (bmod_add_bmod_sub e.position hx),
    ⟨rfl, rfl, hsome.symm, rfl⟩, ⟨hfreq.le, hfreq.count, hfreq.df, hfreq.doc, hfreq.file,
    hfreq.offset⟩, ?_, rfl⟩
  constructor
  case lt => exact fun y hy => hunread.lt y (mem_cons_of_mem x hy)
  case proxCount =>
    have hcount := hunread.proxCount hsome
    rw [length_cons] at hcount
    intro _
    simp only
    omega
  case file =>
    rintro _ ⟨⟩
    exact hunread.file s hs
  case rest =>
    rintro _ ⟨⟩
    exact ⟨rest, IndexInput.rest_advance hrest⟩
  case offset =>
    rintro _ ⟨⟩
    rw [length_append] at hoffset
    simp only [IndexInput.advance]
    omega

end PostingFiles

end Etoile.Lucene
