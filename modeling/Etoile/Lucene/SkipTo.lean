import Etoile.Lucene.PostingFiles

/-!
# Skipping

What `-skipTo:` finds by the skip data is what iterating over the postings finds, unless an entry
for document 0 is not counted that should be.
-/

namespace Etoile.Lucene

open List Nat Option PostingFiles SegmentTermDocs

namespace PostingFiles

variable {F : PostingFiles} {e : SegmentTermDocs} {k : SkipState} {c j : ℕ} {target : ℤ}

/-- The document of the skip entry `j`. -/
def skipDoc (F : PostingFiles) (j : ℕ) : ℕ := docBefore F.postings (skipIndex F.skipInterval j)

def skipFreq (F : PostingFiles) (j : ℕ) : ℕ := freqOffset F.postings (skipIndex F.skipInterval j)

def skipProx (F : PostingFiles) (j : ℕ) : ℕ := proxOffset F.postings (skipIndex F.skipInterval j)

def skips (F : PostingFiles) : ℕ := F.postings.length / F.skipInterval

/-- The differences that are written behind the entry `j` fit in an `int`. -/
def BlockFits (F : PostingFiles) (j : ℕ) : Prop :=
  F.skipFreq (j + 1) - F.skipFreq j < 2 ^ 31 ∧ F.skipProx (j + 1) - F.skipProx j < 2 ^ 31

/-- The enumerator has read `j` skip entries. -/
structure SkipsAt (F : PostingFiles) (j : ℕ) (k : SkipState) : Prop where
  le : j ≤ F.skips
  numSkips : k.numSkips = F.skips
  skipCount : k.skipCount = j
  skipDoc : k.skipDoc = F.skipDoc j
  freqPointer : k.freqPointer = ((F.freqPointer + F.skipFreq j : ℕ) : ℤ)
  proxPointer : k.proxPointer = ((F.proxPointer + F.skipProx j : ℕ) : ℤ)
  skipPointer : k.skipPointer = ((F.freqPointer + (freqCodes 0 F.postings).length : ℕ) : ℤ)
  closed : k.haveSkipped = false → j = 0
  opened : k.haveSkipped = true → ∃ s, k.skipStream = some s
    ∧ ∃ post, s.rest = skipEntries F.skipInterval F.postings j ++ post

theorem skipIndex_le (h : j ≤ F.skips) : skipIndex F.skipInterval j ≤ F.postings.length := by
  have hmul := mul_le_mul_right F.skipInterval h
  have hdiv := div_mul_le_self F.postings.length F.skipInterval
  unfold skips at hmul
  unfold skipIndex
  omega

theorem skipIndex_mono (j : ℕ) : skipIndex F.skipInterval j ≤ skipIndex F.skipInterval (j + 1) := by
  unfold skipIndex
  rw [succ_mul]
  omega

theorem SkipsAt.openSkips {s : IndexInput} (h : F.SkipsAt j k) (hs : s.file = F.freqFile)
    (hfile : k.haveSkipped = false → ∀ s ∈ k.skipStream, s.file = F.freqFile) :
    F.SkipsAt j (SegmentTermDocs.openSkips s k) := by
  unfold SegmentTermDocs.openSkips
  rcases hopen : k.haveSkipped with _ | _
  · obtain rfl := h.closed hopen
    have hget : (k.skipStream.getD s).file = F.freqFile := by
      rcases hstream : k.skipStream with _ | s'
      · exact hs
      · exact hfile hopen s' hstream
    obtain ⟨post, hpost⟩ := F.freq
    refine ⟨h.le, h.numSkips, h.skipCount, h.skipDoc, h.freqPointer, h.proxPointer, h.skipPointer,
      nofun, fun _ => ⟨_, rfl, post, ?_⟩⟩
    rw [h.skipPointer, IndexInput.rest, IndexInput.seekToFileOffset, unsigned_natCast]
    show (k.skipStream.getD s).file.drop _ = _
    rw [hget, ← drop_drop, hpost, drop_left]
  · obtain ⟨s', hs', hrest⟩ := h.opened hopen
    refine ⟨h.le, h.numSkips, h.skipCount, h.skipDoc, h.freqPointer, h.proxPointer, h.skipPointer,
      ?_, fun _ => ⟨s', ?_, hrest⟩⟩
    · simp
    · simp [hs']

theorem openSkips_haveSkipped (s : IndexInput) (k : SkipState) :
    (openSkips s k).haveSkipped = true := by
  unfold openSkips
  split_ifs with hopen
  · exact hopen
  · rfl

theorem openSkips_skipInterval (s : IndexInput) (k : SkipState) :
    (openSkips s k).skipInterval = k.skipInterval := by
  unfold openSkips
  split_ifs <;> rfl

theorem readSkip_of_read {s s₁ s₂ s₃ : IndexInput} {doc freq prox : ℤ}
    (hs : k.skipStream = some s) (h₁ : s.read readVInt = some (doc, s₁))
    (h₂ : s₁.read readVInt = some (freq, s₂)) (h₃ : s₂.read readVInt = some (prox, s₃)) :
    readSkip k = some { k with
      skipStream := some s₃
      skipDoc := k.skipDoc + doc
      freqPointer := k.freqPointer + freq
      proxPointer := k.proxPointer + prox
      skipCount := k.skipCount + 1 } := by
  unfold readSkip
  simp [hs, h₁, h₂, h₃]

theorem skipEntries_succ (h : j < F.skips) : skipEntries F.skipInterval F.postings j
    = skipEntry F.skipInterval F.postings j ++ skipEntries F.skipInterval F.postings (j + 1) := by
  obtain ⟨n, hn⟩ : ∃ n, F.postings.length / F.skipInterval - j = n + 1 :=
    ⟨F.skips - j - 1, by unfold skips at h ⊢; omega⟩
  have hn' : F.postings.length / F.skipInterval - (j + 1) = n := by omega
  rw [skipEntries, skipEntries, hn, hn', range'_succ, flatMap_cons]

theorem SkipsAt.readSkip (h : F.SkipsAt j k) (hopen : k.haveSkipped = true) (hj : j < F.skips)
    (hfits : F.BlockFits j) :
    ∃ k', SegmentTermDocs.readSkip k = some k' ∧ F.SkipsAt (j + 1) k' ∧ k'.haveSkipped = true
      ∧ k'.skipInterval = k.skipInterval := by
  obtain ⟨s, hs, post, hrest⟩ := h.opened hopen
  have hindex := skipIndex_le (F := F) (j := j + 1) hj
  have hmono := skipIndex_mono (F := F) j
  have hdoc : F.skipDoc j ≤ F.skipDoc (j + 1) := F.inOrder.docBefore_le hmono hindex
  have hdoc' : F.skipDoc (j + 1) < 2 ^ 31 := F.inOrder.docBefore_lt_two_pow hindex
  have hprox : F.skipProx j ≤ F.skipProx (j + 1) := proxOffset_le hmono hindex
  have hfreq : F.skipFreq j ≤ F.skipFreq (j + 1) := by
    rcases hmono.eq_or_lt with heq | hlt
    · unfold skipFreq
      rw [heq]
    · exact (freqOffset_lt hlt hindex).le
  have hfreqmod : (F.skipFreq (j + 1) - F.skipFreq j) % 2 ^ 32
      = F.skipFreq (j + 1) - F.skipFreq j :=
    mod_eq_of_lt (by have := hfits.1; omega)
  have hproxmod : (F.skipProx (j + 1) - F.skipProx j) % 2 ^ 32
      = F.skipProx (j + 1) - F.skipProx j :=
    mod_eq_of_lt (by have := hfits.2; omega)
  have hentry : skipEntry F.skipInterval F.postings j = writeVInt (F.skipDoc (j + 1) - F.skipDoc j)
      ++ writeVInt (F.skipFreq (j + 1) - F.skipFreq j)
      ++ writeVInt (F.skipProx (j + 1) - F.skipProx j) := by
    rw [← hfreqmod, ← hproxmod]
    rfl
  rw [skipEntries_succ hj, hentry, append_assoc, append_assoc, append_assoc] at hrest
  have hrest₂ := IndexInput.rest_advance hrest
  have hrest₃ := IndexInput.rest_advance hrest₂
  refine ⟨_, readSkip_of_read hs
    (IndexInput.read_eq hrest (reads_writeVInt_of_lt (by omega)))
    (IndexInput.read_eq hrest₂ (reads_writeVInt_of_lt hfits.1))
    (IndexInput.read_eq hrest₃ (reads_writeVInt_of_lt hfits.2)), ?_, hopen, rfl⟩
  constructor
  case le => exact hj
  case numSkips => exact h.numSkips
  case skipCount => simp [h.skipCount]
  case skipDoc =>
    simp only [h.skipDoc]
    omega
  case freqPointer =>
    simp only [h.freqPointer]
    omega
  case proxPointer =>
    simp only [h.proxPointer]
    omega
  case skipPointer => exact h.skipPointer
  case closed => simp [hopen]
  case opened => exact fun _ => ⟨_, rfl, post, IndexInput.rest_advance hrest₃⟩

/-- The loop has found the entry `l`. -/
structure JumpsTo (F : PostingFiles) (target : ℤ) (c l : ℕ) (v : Scan) : Prop where
  le : l ≤ F.skips
  lt : (F.skipDoc l : ℤ) < target
  lastSkipDoc : v.lastSkipDoc = F.skipDoc l
  lastFreqPointer : v.lastFreqPointer = ((F.freqPointer + F.skipFreq l : ℕ) : ℤ)
  lastProxPointer : v.lastProxPointer = ((F.proxPointer + F.skipProx l : ℕ) : ℤ)
  numSkipped : (∀ i, c / F.skipInterval < i → i ≤ l → F.skipDoc i ≠ 0) →
    v.numSkipped = -1 - ((c % F.skipInterval : ℕ) : ℤ)
      + ((F.skipInterval * (l - c / F.skipInterval) : ℕ) : ℤ)

theorem docBefore_le_skipDoc_iff (hc : c ≤ F.postings.length) (hj : j ≤ F.skips)
    (hne : F.skipDoc j ≠ 0) : docBefore F.postings c ≤ F.skipDoc j ↔ c / F.skipInterval < j := by
  have hpos : 1 ≤ skipIndex F.skipInterval j := by
    by_contra hzero
    refine hne ?_
    rw [skipDoc, show skipIndex F.skipInterval j = 0 by omega, docBefore_zero]
  rw [div_lt_iff_lt_mul F.one_le]
  unfold skipDoc
  constructor
  · intro hle
    by_contra hge
    have hlt : skipIndex F.skipInterval j < c := by
      unfold skipIndex at hpos ⊢
      omega
    have := F.inOrder.docBefore_lt hpos hlt hc
    omega
  · intro hlt
    refine F.inOrder.docBefore_le ?_ (skipIndex_le hj)
    unfold skipIndex
    omega

variable {v : Scan}

theorem SkipsAt.visit (h : F.SkipsAt j v.skips)
    (hinterval : v.skips.skipInterval = F.skipInterval) (hc : c ≤ F.postings.length)
    (hlt : v.skips.skipDoc < target)
    (hnum : (∀ i, c / F.skipInterval < i → i < j → F.skipDoc i ≠ 0) →
      v.numSkipped = -1 - ((c % F.skipInterval : ℕ) : ℤ)
        + ((F.skipInterval * (j - (c / F.skipInterval + 1)) : ℕ) : ℤ)) :
    F.JumpsTo target c j (SegmentTermDocs.visit (docBefore F.postings c) v) := by
  refine ⟨h.le, h.skipDoc ▸ hlt, h.skipDoc, h.freqPointer, h.proxPointer, fun hzero => ?_⟩
  have hbefore := hnum fun i hi hij => hzero i hi hij.le
  unfold SegmentTermDocs.visit
  simp only [h.skipDoc, hinterval, hbefore]
  by_cases hj : c / F.skipInterval < j
  · have hne := hzero j hj le_rfl
    have hle := (docBefore_le_skipDoc_iff hc h.le hne).2 hj
    have hsub : j - c / F.skipInterval = j - (c / F.skipInterval + 1) + 1 := by omega
    rw [if_pos ⟨by exact_mod_cast hne, by exact_mod_cast hle⟩, hsub, mul_succ]
    omega
  · have hnot : ¬((F.skipDoc j : ℤ) ≠ 0 ∧ (docBefore F.postings c : ℤ) ≤ F.skipDoc j) := by
      rintro ⟨hne, hle⟩
      have hne' : F.skipDoc j ≠ 0 := by exact_mod_cast hne
      exact hj ((docBefore_le_skipDoc_iff hc h.le hne').1 (by exact_mod_cast hle))
    have hsub : j - (c / F.skipInterval + 1) = j - c / F.skipInterval := by omega
    rw [if_neg hnot, hsub]

/-- The loop stops where it is or finds an entry before the target, and then it has read no more
than the entry behind it. -/
theorem scanSkips_eq (hc : c ≤ F.postings.length)
    (hfits : ∀ i < F.skips, (F.skipDoc i : ℤ) < target → F.BlockFits i) :
    ∀ (fuel j : ℕ) (v : Scan), F.SkipsAt j v.skips → v.skips.haveSkipped = true →
      v.skips.skipInterval = F.skipInterval → F.skips < j + fuel →
      ((∀ i, c / F.skipInterval < i → i < j → F.skipDoc i ≠ 0) →
        v.numSkipped = -1 - ((c % F.skipInterval : ℕ) : ℤ)
          + ((F.skipInterval * (j - (c / F.skipInterval + 1)) : ℕ) : ℤ)) →
      ∃ v' j', scanSkips target (docBefore F.postings c) fuel v = some v'
        ∧ F.SkipsAt j' v'.skips ∧ v'.skips.haveSkipped = true
        ∧ v'.skips.skipInterval = F.skipInterval
        ∧ (v' = v ∧ j' = j ∨ ∃ l, F.JumpsTo target c l v' ∧ j ≤ l ∧ j' ≤ l + 1)
  | 0, j, v, hat, _, _, hfuel, _ => by
    have := hat.le
    omega
  | fuel + 1, j, v, hat, hopen, hinterval, hfuel, hnum => by
    unfold scanSkips
    by_cases hlt : v.skips.skipDoc < target
    · have hjump := hat.visit hinterval hc hlt hnum
      rw [if_pos hlt]
      by_cases hlast : v.skips.numSkips ≤ v.skips.skipCount
      · rw [if_pos hlast]
        exact ⟨_, j, rfl, hat, hopen, hinterval, Or.inr ⟨j, hjump, le_rfl, le_succ j⟩⟩
      · rw [hat.numSkips, hat.skipCount] at hlast
        rw [if_neg (by rwa [hat.numSkips, hat.skipCount])]
        have hj : j < F.skips := by omega
        obtain ⟨k, hread, hat', hopen', hinterval'⟩ :=
          hat.readSkip hopen hj (hfits j hj hjump.lt)
        rw [hread, bind_some]
        obtain ⟨v', j', hloop, hat₂, hopen₂, hinterval₂, hend⟩ := scanSkips_eq hc hfits fuel (j + 1)
          { visit (docBefore F.postings c) v with skips := k } hat' hopen'
          (hinterval'.trans hinterval) (by omega) fun hzero => by
            have hnum' := hjump.numSkipped fun i hi hij => hzero i hi (lt_succ_of_le hij)
            rw [Nat.add_sub_add_right]
            exact hnum'
        refine ⟨v', j', hloop, hat₂, hopen₂, hinterval₂, Or.inr ?_⟩
        rcases hend with ⟨rfl, rfl⟩ | ⟨l, hjump', hl, hl'⟩
        · exact ⟨j, ⟨hjump.le, hjump.lt, hjump.lastSkipDoc, hjump.lastFreqPointer,
            hjump.lastProxPointer, hjump.numSkipped⟩, le_rfl, le_rfl⟩
        · exact ⟨l, hjump', by omega, hl'⟩
    · rw [if_neg hlt]
      exact ⟨v, j, rfl, hat, hopen, hinterval, Or.inl ⟨rfl, rfl⟩⟩

/-- No skip entry for document 0 is between the postings that were read and an entry that is
jumped to. -/
def CountsAll (F : PostingFiles) (c : ℕ) (target : ℤ) : Prop :=
  ∀ i l, c / F.skipInterval < i → i ≤ l → l ≤ F.skips → c < skipIndex F.skipInterval l →
    (F.skipDoc l : ℤ) < target → F.skipDoc i ≠ 0

/-- An enumerator that has gone on to posting `c'`, past postings that are before the target. -/
structure Ahead (F : PostingFiles) (target : ℤ) (c c' : ℕ) (e e' : SegmentTermDocs) : Prop where
  le : c ≤ c'
  freq : F.FreqAt c' e'
  unread : ∃ xs, F.Unread c' xs e'
  lt : ∀ t, c < t → t ≤ c' → (docBefore F.postings t : ℤ) < target
  deletedDocs : e'.deletedDocs = e.deletedDocs
  isSome : e'.proxStream.isSome = e.proxStream.isSome

theorem JumpsTo.count {l : ℕ} (h : F.JumpsTo target c l v)
    (hzero : F.CountsAll c target) (hlt : c < skipIndex F.skipInterval l) :
    (c : ℤ) + v.numSkipped = skipIndex F.skipInterval l := by
  have hnum := h.numSkipped fun i hi hil => hzero i l hi hil h.le hlt h.lt
  have hmod := div_add_mod c F.skipInterval
  have hdiv : c / F.skipInterval ≤ l := by
    refine Nat.div_le_of_le_mul ?_
    rw [Nat.mul_comm]
    unfold skipIndex at hlt
    omega
  have hmul : F.skipInterval * (l - c / F.skipInterval)
      = l * F.skipInterval - F.skipInterval * (c / F.skipInterval) := by
    rw [Nat.mul_sub, Nat.mul_comm l]
  have hle := mul_le_mul_left F.skipInterval hdiv
  rw [Nat.mul_comm F.skipInterval l] at hle
  unfold skipIndex at hlt ⊢
  omega

theorem skipProx_eq (pp : ℤ) (e : SegmentTermDocs) : e.skipProx pp = { e with
    proxStream := e.proxStream.map (·.seekToFileOffset pp)
    proxCount := if e.proxStream.isSome then 0 else e.proxCount } := by
  cases e with
  | mk _ proxStream => cases proxStream <;> rfl

theorem JumpsTo.jump {l : ℕ} {xs : List ℕ}
    (h : F.JumpsTo target c l v) (hfreq : F.FreqAt c e) (hunread : F.Unread c xs e)
    (hzero : F.CountsAll c target) :
    ∃ c', F.Ahead target c c' e (e.jump v) ∧ l * F.skipInterval ≤ c' + 1
      ∧ (e.jump v).skips = v.skips := by
  unfold SegmentTermDocs.jump
  simp only [h.lastFreqPointer, unsigned_natCast, hfreq.offset]
  by_cases hlt : c < skipIndex F.skipInterval l
  · have hindex := skipIndex_le h.le
    have hoffset : freqOffset F.postings c < F.skipFreq l := freqOffset_lt hlt hindex
    rw [if_pos (by omega), skipProx_eq]
    refine ⟨skipIndex F.skipInterval l, ⟨hlt.le, ⟨hindex, ?_, hfreq.df, fun _ => h.lastSkipDoc,
      hfreq.file, ?_⟩, ⟨[], ProxAt.unread_nil ?_ ?_⟩, ?_, rfl, ?_⟩, ?_, rfl⟩
    · rw [hfreq.count, h.count hzero hlt]
    · exact unsigned_natCast _
    · intro s hs
      obtain ⟨s', hs', rfl⟩ := mem_map.1 hs
      refine ⟨hunread.file s' hs', ?_⟩
      rw [h.lastProxPointer]
      exact unsigned_natCast _
    · intro hs
      rw [isSome_map] at hs
      exact if_pos hs
    · intro t _ ht
      have := F.inOrder.docBefore_le ht hindex
      have := h.lt
      unfold skipDoc at this
      omega
    · rw [isSome_map]
    · unfold skipIndex at hlt ⊢
      omega
  · have hle : F.skipFreq l ≤ freqOffset F.postings c := by
      rcases (not_lt.1 hlt).eq_or_lt with heq | hlt'
      · exact (congrArg _ heq).le
      · exact (freqOffset_lt hlt' hfreq.le).le
    rw [if_neg (by omega)]
    refine ⟨c, ⟨le_rfl, ⟨hfreq.le, hfreq.count, hfreq.df, hfreq.doc, hfreq.file, hfreq.offset⟩,
      ⟨xs, hunread.lt, hunread.proxCount, hunread.file, hunread.rest, hunread.offset⟩,
      fun t ht ht' => absurd ht (by omega), rfl, rfl⟩, ?_, rfl⟩
    unfold skipIndex at hlt
    omega

/-- The skip data has been read no further than to the entry behind the postings read. -/
structure InSkips (F : PostingFiles) (c : ℕ) (k : SkipState) : Prop where
  skipInterval : k.skipInterval = F.skipInterval
  file : k.haveSkipped = false → ∀ s ∈ k.skipStream, s.file = F.freqFile
  exists_at : F.skipInterval ≤ F.postings.length →
    ∃ j, F.SkipsAt j k ∧ j * F.skipInterval ≤ c + F.skipInterval

theorem InSkips.mono {c' : ℕ} (h : F.InSkips c k) (hc : c ≤ c') : F.InSkips c' k := by
  refine ⟨h.skipInterval, h.file, fun hlen => ?_⟩
  obtain ⟨j, hat, hj⟩ := h.exists_at hlen
  exact ⟨j, hat, by omega⟩

theorem InSkips.atEnd (h : F.InSkips c k) : F.InSkips F.postings.length k := by
  refine ⟨h.skipInterval, h.file, fun hlen => ?_⟩
  obtain ⟨j, hat, -⟩ := h.exists_at hlen
  have hmul := mul_le_mul_right F.skipInterval hat.le
  have hdiv := div_mul_le_self F.postings.length F.skipInterval
  unfold skips at hmul
  exact ⟨j, hat, by omega⟩

theorem skipAhead_eq {xs : List ℕ} (hfreq : F.FreqAt c e) (hunread : F.Unread c xs e)
    (hskips : F.InSkips c e.skips) (hzero : F.CountsAll c target)
    (hfits : ∀ i < F.skips, (F.skipDoc i : ℤ) < target → F.BlockFits i) :
    ∃ e' c', e.skipAhead target = some e' ∧ F.Ahead target c c' e e'
      ∧ F.InSkips (c' + 1) e'.skips := by
  have hinterval := hskips.skipInterval
  unfold skipAhead
  by_cases hdf : e.skips.skipInterval ≤ e.df
  · rw [if_pos hdf]
    rw [hinterval, hfreq.df] at hdf
    have hlen : F.skipInterval ≤ F.postings.length := by omega
    have hone := F.one_le
    obtain ⟨j, hat, hj⟩ := hskips.exists_at hlen
    have hle : j ≤ c / F.skipInterval + 1 := by
      rw [← add_div_right _ (by omega)]
      exact (le_div_iff_mul_le (by omega)).2 hj
    have hdoc := hfreq.doc (by omega)
    set k := openSkips e.freqStream e.skips with hk
    have hat' : F.SkipsAt j k := hat.openSkips hfreq.file hskips.file
    have hinterval' : k.skipInterval = F.skipInterval :=
      (openSkips_skipInterval e.freqStream e.skips).trans hinterval
    obtain ⟨v, j', hloop, hat₂, hopen₂, hinterval₂, hend⟩ := scanSkips_eq hfreq.le hfits
      ((k.numSkips - k.skipCount).toNat + 1) j
      ⟨k, k.skipDoc, e.freqStream.offsetInFile, -1, -1 - e.count.tmod k.skipInterval⟩ hat'
      (openSkips_haveSkipped e.freqStream e.skips) hinterval'
      (by rw [hat'.numSkips, hat'.skipCount]; omega) fun _ => by
        rw [show j - (c / F.skipInterval + 1) = 0 by omega, hfreq.count, hinterval']
        rw [← Int.ofNat_tmod]
        simp
    rw [hdoc]
    simp only [bind_eq_bind, hloop, bind_some]
    rcases hend with ⟨rfl, rfl⟩ | ⟨l, hjump, hl, hl'⟩
    · have hstay : ∀ v : Scan, v.lastFreqPointer = e.freqStream.offsetInFile →
          e.jump v = { e with skips := v.skips } := by
        intro v hv
        unfold jump
        rw [hv, unsigned_natCast]
        exact if_neg (lt_irrefl _)
      rw [hstay _ rfl]
      refine ⟨_, c, rfl, ⟨le_rfl, ⟨hfreq.le, hfreq.count, hfreq.df, hfreq.doc, hfreq.file,
        hfreq.offset⟩, ⟨xs, hunread.lt, hunread.proxCount, hunread.file, hunread.rest,
        hunread.offset⟩, fun t ht ht' => absurd ht (by omega), rfl, rfl⟩, hinterval', ?_, ?_⟩
      · intro hclosed
        rw [openSkips_haveSkipped] at hclosed
        cases hclosed
      · exact fun _ => ⟨j', hat', by omega⟩
    · obtain ⟨c', hahead, hc', hkept⟩ := hjump.jump hfreq hunread hzero
      refine ⟨_, c', rfl, hahead, ?_, ?_, ?_⟩
      · rw [hkept, hinterval₂]
      · simp [hkept, hopen₂]
      · intro _
        have hmul := mul_le_mul_right F.skipInterval hl'
        rw [succ_mul] at hmul
        exact ⟨j', hkept ▸ hat₂, by omega⟩
  · rw [if_neg hdf]
    exact ⟨e, c, rfl, ⟨le_rfl, hfreq, ⟨xs, hunread⟩, fun t ht ht' => absurd ht (by omega), rfl,
      rfl⟩, hskips.mono (le_succ c)⟩

end PostingFiles

namespace SegmentTermDocuments

variable {Term : Type} {segment : Segment Term} {deletedDocs : Option BitVector} {target : ℤ}

/-- The loop `-skipTo:` behaves like. -/
def skipLoop (target : ℤ) : ℕ → SegmentTermDocuments segment → Bool × SegmentTermDocuments segment
  | 0, e => (false, e)
  | fuel + 1, e =>
    if (hasNextDocument e).1 then
      if ((hasNextDocument e).2.current.doc : ℤ) < target then
        skipLoop target fuel (hasNextDocument e).2
      else hasNextDocument e
    else hasNextDocument e

def skipTo (target : ℤ) (e : SegmentTermDocuments segment) :
    Bool × SegmentTermDocuments segment :=
  skipLoop target (e.rest.length + 1) e

def nextFrom (deletedDocs : Option BitVector) (target : ℤ) :
    List Posting → Option (Posting × List Posting)
  | [] => none
  | p :: ps =>
    if deletedDocs.any (·.bit p.doc) ∨ (p.doc : ℤ) < target then nextFrom deletedDocs target ps
    else some (p, ps)

theorem nextFrom_of_next_none : ∀ {ps : List Posting}, next deletedDocs ps = none →
    nextFrom deletedDocs target ps = none
  | [], _ => rfl
  | p :: ps, h => by
    unfold next at h
    split_ifs at h with hdel
    unfold nextFrom
    rw [if_pos (Or.inl hdel)]
    exact nextFrom_of_next_none h

theorem nextFrom_of_next_some (target : ℤ) {p : Posting} {qs : List Posting} :
    ∀ {ps : List Posting}, next deletedDocs ps = some (p, qs) → nextFrom deletedDocs target ps
      = if (p.doc : ℤ) < target then nextFrom deletedDocs target qs else some (p, qs)
  | [], h => by simp [next] at h
  | q :: ps, h => by
    unfold next at h
    split_ifs at h with hdel
    · rw [nextFrom, if_pos (Or.inl hdel)]
      exact nextFrom_of_next_some target h
    · obtain ⟨rfl, rfl⟩ := Prod.mk.inj (some.inj h)
      rw [nextFrom]
      simp only [hdel, Bool.false_eq_true, false_or]

theorem length_of_next {p : Posting} {qs : List Posting} : ∀ {ps : List Posting},
    next deletedDocs ps = some (p, qs) → qs.length < ps.length
  | [], h => by simp [next] at h
  | q :: ps, h => by
    unfold next at h
    split_ifs at h
    · have := length_of_next h
      rw [length_cons]
      omega
    · obtain ⟨-, rfl⟩ := Prod.mk.inj (some.inj h)
      simp

def found (e : SegmentTermDocuments segment) (current : Posting) :
    Option (Posting × List Posting) → Bool × SegmentTermDocuments segment
  | some (p, ps) => (true, { e with current := p, rest := ps })
  | none => (false, { e with current := current, rest := [] })

theorem hasNextDocument_found (e : SegmentTermDocuments segment) :
    hasNextDocument e = found e e.current (next e.deletedDocs e.rest) := by
  unfold hasNextDocument
  rcases next e.deletedDocs e.rest with _ | ⟨p, ps⟩ <;> rfl

theorem skipLoop_eq (target : ℤ) : ∀ (fuel : ℕ) (e : SegmentTermDocuments segment),
    e.rest.length < fuel →
    ∃ current, skipLoop target fuel e = found e current (nextFrom e.deletedDocs target e.rest)
  | 0, _, h => absurd h (not_lt_zero _)
  | fuel + 1, e, h => by
    rcases hnext : next e.deletedDocs e.rest with _ | ⟨p, ps⟩
    · refine ⟨e.current, ?_⟩
      simp [skipLoop, hasNextDocument, hnext, nextFrom_of_next_none hnext, found]
    · have hlen := length_of_next hnext
      have hfrom := nextFrom_of_next_some target hnext
      by_cases hlt : (p.doc : ℤ) < target
      · obtain ⟨current, hloop⟩ := skipLoop_eq target fuel
          { e with current := p, rest := ps } (by simp only; omega)
        refine ⟨current, ?_⟩
        simp only [skipLoop, hasNextDocument, hnext, if_true, hlt, hfrom, hloop]
        rcases nextFrom e.deletedDocs target ps with _ | ⟨q, qs⟩ <;> rfl
      · refine ⟨e.current, ?_⟩
        simp only [skipLoop, hasNextDocument, hnext, if_true, hlt, hfrom, if_false, found]

theorem nextFrom_drop (deletedDocs : Option BitVector) {ps : List Posting} {c : ℕ} :
    ∀ {c' : ℕ}, c ≤ c' → c' ≤ ps.length → (∀ t, c < t → t ≤ c' → (docBefore ps t : ℤ) < target) →
      nextFrom deletedDocs target (ps.drop c) = nextFrom deletedDocs target (ps.drop c')
  | c', hle, hlen, hlt => by
    induction c', hle using le_induction with
    | base => rfl
    | succ c' hle ih =>
      have hdoc := hlt (c' + 1) (by omega) le_rfl
      rw [docBefore_succ (by omega)] at hdoc
      rw [ih (by omega) fun t ht ht' => hlt t ht (by omega), drop_eq_getElem_cons (by omega),
        nextFrom, if_pos (Or.inr hdoc)]

end SegmentTermDocuments

namespace PostingFiles

variable {F : PostingFiles} {e : SegmentTermDocs} {c : ℕ} {target : ℤ}

open SegmentTermDocuments (next nextFrom)

theorem scanDocuments_eq (target : ℤ) : ∀ (fuel c : ℕ) (e : SegmentTermDocs) (xs : List ℕ),
    F.FreqAt c e → F.Unread c xs e → F.postings.length < c + fuel →
      ∃ e', e.scanDocuments target fuel
          = some ((nextFrom e.deletedDocs target (F.postings.drop c)).isSome, e')
        ∧ Kept e e' ∧ F.Found c (nextFrom e.deletedDocs target (F.postings.drop c)) e'
  | 0, c, e, _, hfreq, _, hfuel => by
    have := hfreq.le
    omega
  | fuel + 1, c, e, xs, hfreq, hunread, hfuel => by
    obtain ⟨e', hnext, hkept, hfound⟩ := hasNextDocument_eq hfreq hunread rfl
    unfold scanDocuments
    rw [hnext, bind_eq_bind, bind_some]
    rcases hfind : next e.deletedDocs (F.postings.drop c) with _ | ⟨p, ps⟩
    · rw [hfind] at hfound
      rw [SegmentTermDocuments.nextFrom_of_next_none hfind]
      exact ⟨e', rfl, hkept, hfound⟩
    · rw [hfind] at hfound
      rw [SegmentTermDocuments.nextFrom_of_next_some target hfind]
      obtain ⟨j, hj, hdrop, hfreq', hunread', hdoc, hfreq₂⟩ := hfound
      simp only [isSome_some, if_true, hdoc]
      by_cases hlt : (p.doc : ℤ) < target
      · obtain ⟨e₂, hscan, hkept', hfound'⟩ :=
          scanDocuments_eq target fuel j e' p.positions hfreq' hunread' (by omega)
        rw [hkept.deletedDocs, hdrop] at hscan hfound'
        rw [if_pos hlt, if_pos hlt, hscan]
        exact ⟨e₂, rfl, hkept.trans hkept', hfound'.mono hj.le⟩
      · rw [if_neg hlt, if_neg hlt]
        exact ⟨e', rfl, hkept, j, hj, hdrop, hfreq', hunread', hdoc, hfreq₂⟩

theorem Found.inSkips {o : Option (Posting × List Posting)} {k : SkipState} (h : F.Found c o e)
    (hskips : F.InSkips (c + 1) k) : ∃ c' : ℕ, e.count = c' ∧ F.InSkips c' k := by
  match o with
  | none => exact ⟨_, h.1.count, hskips.atEnd⟩
  | some (p, ps) =>
    obtain ⟨j, hj, -, hfreq, -⟩ := h
    exact ⟨j, hfreq.count, hskips.mono hj⟩

/-- `-skipTo:` finds what iterating until the target finds. -/
theorem skipTo_eq {xs : List ℕ} (hfreq : F.FreqAt c e) (hunread : F.Unread c xs e)
    (hskips : F.InSkips c e.skips) (hzero : F.CountsAll c target)
    (hfits : ∀ i < F.skips, (F.skipDoc i : ℤ) < target → F.BlockFits i) :
    ∃ e', e.skipTo target = some ((nextFrom e.deletedDocs target (F.postings.drop c)).isSome, e')
      ∧ e'.deletedDocs = e.deletedDocs ∧ e'.proxStream.isSome = e.proxStream.isSome
      ∧ F.Found c (nextFrom e.deletedDocs target (F.postings.drop c)) e'
      ∧ ∃ c' : ℕ, e'.count = c' ∧ F.InSkips c' e'.skips := by
  obtain ⟨e₁, c₁, hahead, hreach, hskips₁⟩ := skipAhead_eq hfreq hunread hskips hzero hfits
  obtain ⟨xs₁, hunread₁⟩ := hreach.unread
  obtain ⟨e₂, hscan, hkept, hfound⟩ := scanDocuments_eq target _ c₁ e₁ xs₁ hreach.freq
    hunread₁ hreach.freq.lt_fuel
  have hdrop := SegmentTermDocuments.nextFrom_drop e.deletedDocs hreach.le
    hreach.freq.le hreach.lt
  rw [hreach.deletedDocs, ← hdrop] at hscan hfound
  unfold skipTo
  rw [hahead, bind_eq_bind, bind_some, hscan]
  rw [← hkept.skips] at hskips₁
  exact ⟨e₂, rfl, hkept.deletedDocs.trans hreach.deletedDocs, hkept.isSome.trans hreach.isSome,
    hfound.mono hreach.le, hfound.inSkips hskips₁⟩

end PostingFiles

end Etoile.Lucene
