import Etoile.Lib.Starts
import Etoile.Lucene.TermDocuments

/-!
# Term documents of the multi reader

`LCMultiTermDocuments` (and `LCMultiTermPositions`, which differs in the enumerators its sub-readers
hand out) goes through the sub-readers and keeps the enumerators it got from them.  A kept one is
never handed out again: after another `-seekTerm:` its sub-reader is passed over.
-/

namespace Etoile.Lucene

open Function List

variable {E Term : Type} [TermDocuments E Term]

/-- A sub-reader: the enumerator that `-termDocuments` makes, and what it enumerates. -/
structure PostingsReader (E : Type) {Term : Type} [TermDocuments E Term] where
  maximalDocument : ℕ
  termDocuments : E
  postings : Term → List Posting
  enumerates : ∀ t, Yields (TermDocuments.seekTerm (some t) termDocuments) (postings t)

structure MultiTermDocuments (E : Type) {Term : Type} [TermDocuments E Term] where
  readers : List (PostingsReader E)
  starts : List ℕ
  term : Option Term := none
  base : ℕ := 0
  pointer : ℕ := 0
  readerTermDocs : List E := []
  /-- which of `readerTermDocs` it is -/
  current : Option ℕ := none

namespace MultiTermDocuments

def initWithReaders (r : List (PostingsReader E)) (s : List ℕ) : MultiTermDocuments E :=
  { readers := r, starts := s }

variable (m : MultiTermDocuments E)

def currentEnumerator : Option E := m.current.bind (m.readerTermDocs[·]?)

/-- What a message to `current` leaves of it. -/
def setCurrent (e : E) : MultiTermDocuments E :=
  match m.current with
  | some i => { m with readerTermDocs := m.readerTermDocs.set i e }
  | none => m

def document : ℕ := m.base + (m.currentEnumerator.map TermDocuments.document).getD 0

def frequency : ℕ := (m.currentEnumerator.map TermDocuments.frequency).getD 0

def nextPosition : ℕ × MultiTermDocuments E :=
  match m.currentEnumerator with
  | some e => ((TermDocuments.nextPosition e).1, m.setCurrent (TermDocuments.nextPosition e).2)
  | none => (0, m)

def seekTerm (t : Option Term) : MultiTermDocuments E :=
  { m with term := t, base := 0, pointer := 0, current := none }

/-- `ASSIGN(current, [self termDocuments: i])`; the result stays `nil` when one is kept. -/
def termDocuments (i : ℕ) : MultiTermDocuments E :=
  match m.term, m.readers[i]? with
  | some t, some reader =>
    if m.readerTermDocs.length ≤ i then
      { m with
        readerTermDocs :=
          m.readerTermDocs ++ [TermDocuments.seekTerm (some t) reader.termDocuments]
        current := some m.readerTermDocs.length }
    else { m with current := none }
  | _, _ => { m with current := none }

def nextReader : MultiTermDocuments E :=
  { ({ m with base := m.starts.getD m.pointer 0 } : MultiTermDocuments E).termDocuments m.pointer
    with pointer := m.pointer + 1 }

/-- Asks `current`, if there is one. -/
def currentHasNext : Bool × MultiTermDocuments E :=
  match m.currentEnumerator with
  | some e => ((TermDocuments.hasNextDocument e).1,
      m.setCurrent (TermDocuments.hasNextDocument e).2)
  | none => (false, m)

@[simp] theorem setCurrent_readers (e : E) : (m.setCurrent e).readers = m.readers := by
  unfold setCurrent
  split <;> rfl

@[simp] theorem setCurrent_pointer (e : E) : (m.setCurrent e).pointer = m.pointer := by
  unfold setCurrent
  split <;> rfl

@[simp] theorem termDocuments_readers (i : ℕ) : (m.termDocuments i).readers = m.readers := by
  unfold termDocuments
  split
  · split_ifs <;> rfl
  · rfl

@[simp] theorem nextReader_readers : m.nextReader.readers = m.readers := by
  simp [nextReader]

@[simp] theorem nextReader_pointer : m.nextReader.pointer = m.pointer + 1 := rfl

@[simp] theorem currentHasNext_readers : m.currentHasNext.2.readers = m.readers := by
  unfold currentHasNext
  split <;> simp

@[simp] theorem currentHasNext_pointer : m.currentHasNext.2.pointer = m.pointer := by
  unfold currentHasNext
  split <;> simp

def hasNextDocument (m : MultiTermDocuments E) : Bool × MultiTermDocuments E :=
  if m.currentHasNext.1 then m.currentHasNext
  else if m.currentHasNext.2.pointer < m.currentHasNext.2.readers.length then
    hasNextDocument m.currentHasNext.2.nextReader
  else (false, m.currentHasNext.2)
  termination_by m.readers.length - m.pointer
  decreasing_by simp_all; omega

/-- A batch from `current`; an empty one drops it. -/
def currentRead (size : ℕ) : List (ℕ × ℕ) × MultiTermDocuments E :=
  match m.currentEnumerator with
  | some e =>
    let read := TermDocuments.readDocuments size e
    if read.1 = [] then ([], { m.setCurrent read.2 with current := none })
    else (read.1.map fun d => (d.1 + m.base, d.2), m.setCurrent read.2)
  | none => ([], m)

@[simp] theorem currentRead_readers (size : ℕ) : (m.currentRead size).2.readers = m.readers := by
  unfold currentRead
  split
  · dsimp only
    split_ifs <;> simp
  · rfl

@[simp] theorem currentRead_pointer (size : ℕ) : (m.currentRead size).2.pointer = m.pointer := by
  unfold currentRead
  split
  · dsimp only
    split_ifs <;> simp
  · rfl

def readDocuments (size : ℕ) (m : MultiTermDocuments E) : List (ℕ × ℕ) × MultiTermDocuments E :=
  if (m.currentRead size).1 = [] then
    if (m.currentRead size).2.pointer < (m.currentRead size).2.readers.length then
      readDocuments size (m.currentRead size).2.nextReader
    else ([], (m.currentRead size).2)
  else m.currentRead size
  termination_by m.readers.length - m.pointer
  decreasing_by simp_all; omega

/-- `-skipTo:`, for fewer turns than the number. -/
def skipTo (target : ℤ) : ℕ → MultiTermDocuments E → Option (Bool × MultiTermDocuments E)
  | 0, _ => none
  | turns + 1, m =>
    if m.hasNextDocument.1 ∧ (m.hasNextDocument.2.document : ℤ) < target then
      skipTo target turns m.hasNextDocument.2
    else some m.hasNextDocument

end MultiTermDocuments

instance : TermDocuments (MultiTermDocuments E) Term where
  seekTerm t m := m.seekTerm t
  hasNextDocument := MultiTermDocuments.hasNextDocument
  document := MultiTermDocuments.document
  frequency := MultiTermDocuments.frequency
  readDocuments := MultiTermDocuments.readDocuments
  nextPosition := MultiTermDocuments.nextPosition

namespace MultiTermDocuments

section Current

variable {m : MultiTermDocuments E} {e : E}

@[simp] theorem setCurrent_term (e : E) : (m.setCurrent e).term = m.term := by
  unfold setCurrent
  split <;> rfl

@[simp] theorem setCurrent_starts (e : E) : (m.setCurrent e).starts = m.starts := by
  unfold setCurrent
  split <;> rfl

@[simp] theorem setCurrent_base (e : E) : (m.setCurrent e).base = m.base := by
  unfold setCurrent
  split <;> rfl

@[simp] theorem length_setCurrent (e : E) :
    (m.setCurrent e).readerTermDocs.length = m.readerTermDocs.length := by
  unfold setCurrent
  split <;> simp

theorem exists_current (h : m.currentEnumerator = some e) :
    ∃ i, m.current = some i ∧ m.readerTermDocs[i]? = some e :=
  Option.bind_eq_some_iff.1 h

theorem currentEnumerator_setCurrent (h : m.currentEnumerator = some e) (e' : E) :
    (m.setCurrent e').currentEnumerator = some e' := by
  obtain ⟨i, hi, he⟩ := exists_current h
  obtain ⟨hlt, -⟩ := List.getElem?_eq_some_iff.1 he
  simp [currentEnumerator, setCurrent, hi, hlt]

theorem setCurrent_setCurrent (e e' : E) : (m.setCurrent e).setCurrent e' = m.setCurrent e' := by
  rcases hi : m.current with _ | i <;> simp [setCurrent, hi]

theorem setCurrent_self (h : m.currentEnumerator = some e) : m.setCurrent e = m := by
  obtain ⟨i, hi, he⟩ := exists_current h
  obtain ⟨hlt, rfl⟩ := List.getElem?_eq_some_iff.1 he
  simp only [setCurrent, hi, set_getElem_self]
  rw [← hi]

theorem readPositions_eq : ∀ (n : ℕ) {m : MultiTermDocuments E} {e : E},
    m.currentEnumerator = some e →
      (readPositions n m).1 = (readPositions n e).1
        ∧ (readPositions n m).2 = m.setCurrent (readPositions n e).2
  | 0, m, e, h => ⟨rfl, (setCurrent_self h).symm⟩
  | n + 1, m, e, h => by
    have hnext : TermDocuments.nextPosition m = ((TermDocuments.nextPosition e).1,
        m.setCurrent (TermDocuments.nextPosition e).2) := by
      show m.nextPosition = _
      rw [nextPosition, h]
    obtain ⟨h1, h2⟩ :=
      readPositions_eq n (currentEnumerator_setCurrent h (TermDocuments.nextPosition e).2)
    simp only [readPositions, hnext]
    rw [h1, h2, setCurrent_setCurrent]
    exact ⟨rfl, rfl⟩

end Current

/-- The postings `ps` of a sub-reader that starts at `base`. -/
def shift (base : ℕ) (ps : List Posting) : List Posting :=
  ps.map fun p => { p with doc := base + p.doc }

/-- The postings of the sub-readers from `base` on, one sub-reader after another. -/
def concatenated (t : Term) : ℕ → List (PostingsReader E) → List Posting
  | _, [] => []
  | base, reader :: readers =>
    shift base (reader.postings t) ++ concatenated t (base + reader.maximalDocument) readers

def sizes (readers : List (PostingsReader E)) : List ℕ := readers.map (·.maximalDocument)

/-- The readers and starts of the multi reader, which no message changes. -/
structure Over (subs : List (PostingsReader E)) (m : MultiTermDocuments E) : Prop where
  readers : m.readers = subs
  starts : m.starts = (range (subs.length + 1)).map (start (sizes subs))

/-- The postings of the sub-readers from the `i`-th on. -/
def postingsFrom (readers : List (PostingsReader E)) (t : Term) (i : ℕ) : List Posting :=
  concatenated t (start (sizes readers) i) (readers.drop i)

variable {readers : List (PostingsReader E)} {m : MultiTermDocuments E} {t : Term} {e : E}

theorem postingsFrom_of_le {i : ℕ} (h : readers.length ≤ i) : postingsFrom readers t i = [] := by
  rw [postingsFrom, drop_of_length_le h]
  rfl

theorem postingsFrom_eq {i : ℕ} {reader : PostingsReader E} (h : readers[i]? = some reader) :
    postingsFrom readers t i = shift (start (sizes readers) i) (reader.postings t)
      ++ postingsFrom readers t (i + 1) := by
  obtain ⟨hi, rfl⟩ := List.getElem?_eq_some_iff.1 h
  have hs : (sizes readers)[i]? = some readers[i].maximalDocument := by simp [sizes, hi]
  rw [postingsFrom, drop_eq_getElem_cons hi, concatenated, postingsFrom, start_succ hs]

theorem Over.setCurrent (h : Over readers m) (e : E) : Over readers (m.setCurrent e) :=
  ⟨by simpa using h.readers, by simpa using h.starts⟩

theorem Over.nextReader (h : Over readers m) : Over readers m.nextReader := by
  refine ⟨by simpa using h.readers, ?_⟩
  rw [← h.starts]
  unfold MultiTermDocuments.nextReader termDocuments
  split
  · split_ifs <;> rfl
  · rfl

theorem Over.getD_starts (h : Over readers m) {i : ℕ} (hi : i ≤ readers.length) :
    m.starts.getD i 0 = start (sizes readers) i := by
  rw [h.starts]
  simp [getD, show i < readers.length + 1 by omega]

theorem Over.nextReader_fresh (h : Over readers m) (ht : m.term = some t)
    {reader : PostingsReader E} (hreader : readers[m.pointer]? = some reader)
    (hp : m.readerTermDocs.length = m.pointer) :
    m.nextReader.currentEnumerator
        = some (TermDocuments.seekTerm (some t) reader.termDocuments)
      ∧ m.nextReader.term = some t
      ∧ m.nextReader.base = start (sizes readers) m.pointer
      ∧ m.nextReader.readerTermDocs.length = m.pointer + 1 := by
  obtain ⟨hi, -⟩ := List.getElem?_eq_some_iff.1 hreader
  have hbase := h.getD_starts hi.le
  unfold MultiTermDocuments.nextReader termDocuments
  simp only [ht, h.readers, hreader, hp, le_refl, if_true, hbase]
  refine ⟨?_, trivial, trivial, by simp [hp]⟩
  simp [currentEnumerator, hp]

theorem hasNextDocument_of_true (h : m.currentEnumerator = some e)
    (hn : (TermDocuments.hasNextDocument e).1 = true) :
    m.hasNextDocument = (true, m.setCurrent (TermDocuments.hasNextDocument e).2) := by
  have hc : m.currentHasNext = (true, m.setCurrent (TermDocuments.hasNextDocument e).2) := by
    rw [currentHasNext, h, ← hn]
  rw [hasNextDocument, hc]
  rfl

theorem hasNextDocument_of_false {m' : MultiTermDocuments E} (h : m.currentHasNext = (false, m'))
    (hp : m'.pointer < m'.readers.length) : m.hasNextDocument = m'.nextReader.hasNextDocument := by
  rw [hasNextDocument, h]
  simp [hp]

theorem hasNextDocument_of_end {m' : MultiTermDocuments E} (h : m.currentHasNext = (false, m'))
    (hp : m'.readers.length ≤ m'.pointer) : m.hasNextDocument = (false, m') := by
  rw [hasNextDocument, h]
  simp [hp]

theorem Over.yields_current (n : ℕ) : ∀ (ps : List Posting) {m : MultiTermDocuments E} {e : E},
    Over readers m → m.term = some t → m.currentEnumerator = some e →
      m.readerTermDocs.length = m.pointer → Yields e ps → readers.length ≤ m.pointer + n →
      Yields m (shift m.base ps ++ postingsFrom readers t m.pointer)
  | p :: ps, m, e, hm, ht, he, hlen, hy, hn => by
    simp only [Yields] at hy
    obtain ⟨h1, h2, h3, h4⟩ := hy
    have hnext := hasNextDocument_of_true he h1
    have he' := currentEnumerator_setCurrent he (TermDocuments.hasNextDocument e).2
    refine ⟨by simp [TermDocuments.hasNextDocument, hnext], ?_, ?_, fun k hk => ?_⟩
    · simp [TermDocuments.hasNextDocument, TermDocuments.document, hnext, document, he', h2]
    · simp [TermDocuments.hasNextDocument, TermDocuments.frequency, hnext, frequency, he', h3]
    · obtain ⟨hk1, hk2⟩ := h4 k hk
      simp only [TermDocuments.hasNextDocument, hnext]
      obtain ⟨hr1, hr2⟩ := readPositions_eq k he'
      rw [hr1, hr2, setCurrent_setCurrent]
      refine ⟨hk1, ?_⟩
      have := Over.yields_current n ps (hm.setCurrent _) (by simpa using ht)
        (currentEnumerator_setCurrent he _) (by simpa using hlen) hk2 (by simpa using hn)
      simpa [shift] using this
  | [], m, e, hm, ht, he, hlen, hy, hn => by
    simp only [Yields] at hy
    have hc : m.currentHasNext
        = (false, m.setCurrent (TermDocuments.hasNextDocument e).2) := by
      rw [currentHasNext, he, ← hy]
    have hm' := hm.setCurrent (TermDocuments.hasNextDocument e).2
    rcases hr : readers[m.pointer]? with _ | reader
    · have hge := getElem?_eq_none_iff.1 hr
      rw [postingsFrom_of_le hge]
      show (m.hasNextDocument).1 = false
      rw [hasNextDocument_of_end hc (by rw [hm'.readers]; simpa using hge)]
    · obtain ⟨hlt, -⟩ := List.getElem?_eq_some_iff.1 hr
      obtain ⟨n, rfl⟩ : ∃ n', n = n' + 1 := ⟨n - 1, by omega⟩
      obtain ⟨f1, f2, f3, f4⟩ :=
        hm'.nextReader_fresh (by simpa using ht) (show readers[_]? = some reader by simpa using hr)
          (by simpa using hlen)
      refine Yields.of_hasNextDocument
        (hasNextDocument_of_false hc (by rw [hm'.readers]; simpa using hlt)) ?_
      have := Over.yields_current n (reader.postings t) hm'.nextReader f2 f1
        (by simpa using f4) (reader.enumerates t) (by simp; omega)
      simpa [shift, postingsFrom_eq hr, f3] using this

theorem nextReader_kept (hp : m.pointer < m.readerTermDocs.length) :
    m.nextReader.current = none ∧ m.nextReader.readerTermDocs = m.readerTermDocs
      ∧ m.nextReader.term = m.term := by
  unfold nextReader termDocuments
  split
  · rw [if_neg (by simpa using hp)]
    exact ⟨rfl, rfl, rfl⟩
  · exact ⟨rfl, rfl, rfl⟩

theorem currentHasNext_of_none (h : m.current = none) : m.currentHasNext = (false, m) := by
  simp [currentHasNext, currentEnumerator, h]

theorem Over.yields_between : ∀ (n : ℕ) {m : MultiTermDocuments E}, Over readers m →
    m.term = some t → m.current = none → m.readerTermDocs.length = m.pointer + n →
      Yields m (postingsFrom readers t m.readerTermDocs.length)
  | n, m, hm, ht, hc, hn => by
    have hcur := currentHasNext_of_none hc
    rcases hr : readers[m.pointer]? with _ | reader
    · have hge := getElem?_eq_none_iff.1 hr
      rw [postingsFrom_of_le (by omega)]
      show (m.hasNextDocument).1 = false
      rw [hasNextDocument_of_end hcur (by rwa [hm.readers])]
    · obtain ⟨hlt, -⟩ := List.getElem?_eq_some_iff.1 hr
      refine Yields.of_hasNextDocument
        (hasNextDocument_of_false hcur (by rwa [hm.readers])) ?_
      rcases n with _ | n
      · obtain ⟨f1, f2, f3, f4⟩ := hm.nextReader_fresh ht hr hn
        have := Over.yields_current readers.length (reader.postings t) hm.nextReader f2 f1
          (by simpa using f4) (reader.enumerates t) (by simp)
        rw [hn, Nat.add_zero, postingsFrom_eq hr]
        simpa [f3] using this
      · obtain ⟨k1, k2, k3⟩ := nextReader_kept (show m.pointer < _ by omega)
        have := Over.yields_between n hm.nextReader (k3.trans ht) k1
          (by rw [k2, nextReader_pointer]; omega)
        rwa [k2] at this

inductive Reached (readers : List (PostingsReader E)) : MultiTermDocuments E → Prop
  | new : Reached readers
      (initWithReaders readers ((range (readers.length + 1)).map (start (sizes readers))))
  | seekTerm {m : MultiTermDocuments E} (t : Option Term) : Reached readers m →
      Reached readers (m.seekTerm t)
  | hasNextDocument {m : MultiTermDocuments E} : Reached readers m →
      Reached readers m.hasNextDocument.2
  | readDocuments {m : MultiTermDocuments E} (size : ℕ) : Reached readers m →
      Reached readers (m.readDocuments size).2
  | nextPosition {m : MultiTermDocuments E} : Reached readers m → Reached readers m.nextPosition.2
  | skipTo {m : MultiTermDocuments E} {target : ℤ} {turns : ℕ}
      {r : Bool × MultiTermDocuments E} : Reached readers m →
      m.skipTo target turns = some r → Reached readers r.2

theorem Over.currentHasNext (h : Over readers m) : Over readers m.currentHasNext.2 := by
  unfold MultiTermDocuments.currentHasNext
  split
  · exact h.setCurrent _
  · exact h

theorem Over.hasNextDocument (h : Over readers m) : Over readers m.hasNextDocument.2 := by
  fun_induction MultiTermDocuments.hasNextDocument m with
  | case1 => exact h.currentHasNext
  | case2 _ _ _ ih => exact ih h.currentHasNext.nextReader
  | case3 => exact h.currentHasNext

theorem Over.currentRead (h : Over readers m) (size : ℕ) : Over readers (m.currentRead size).2 := by
  unfold MultiTermDocuments.currentRead
  split
  · dsimp only
    split_ifs
    · exact ⟨(h.setCurrent _).readers, (h.setCurrent _).starts⟩
    · exact h.setCurrent _
  · exact h

theorem Over.readDocuments (h : Over readers m) (size : ℕ) :
    Over readers (m.readDocuments size).2 := by
  fun_induction MultiTermDocuments.readDocuments size m with
  | case1 _ _ _ ih => exact ih (h.currentRead size).nextReader
  | case2 => exact h.currentRead size
  | case3 => exact h.currentRead size

theorem Over.skipTo {target : ℤ} : ∀ {turns : ℕ} {m : MultiTermDocuments E}
    {r : Bool × MultiTermDocuments E}, Over readers m → m.skipTo target turns = some r →
      Over readers r.2
  | turns + 1, m, r, h, hr => by
    unfold MultiTermDocuments.skipTo at hr
    split_ifs at hr
    · exact Over.skipTo h.hasNextDocument hr
    · obtain rfl := Option.some.inj hr
      exact h.hasNextDocument

theorem Reached.over (h : Reached readers m) : Over readers m := by
  induction h with
  | new => exact ⟨rfl, rfl⟩
  | seekTerm t _ ih => exact ⟨ih.readers, ih.starts⟩
  | hasNextDocument _ ih => exact ih.hasNextDocument
  | readDocuments size _ ih => exact ih.readDocuments size
  | @nextPosition m _ ih =>
    unfold MultiTermDocuments.nextPosition
    split
    · exact ih.setCurrent _
    · exact ih
  | skipTo _ hr ih => exact ih.skipTo hr

theorem Over.yields_seekTerm (h : Over readers m) (t : Term) :
    Yields (m.seekTerm (some t)) (postingsFrom readers t m.readerTermDocs.length) :=
  Over.yields_between m.readerTermDocs.length ⟨h.readers, h.starts⟩ rfl rfl (Nat.zero_add _).symm

theorem postingsFrom_suffix_succ (readers : List (PostingsReader E)) (t : Term) (i : ℕ) :
    postingsFrom readers t (i + 1) <:+ postingsFrom readers t i := by
  rcases hr : readers[i]? with _ | reader
  · have hge := getElem?_eq_none_iff.1 hr
    rw [postingsFrom_of_le (show readers.length ≤ i + 1 by omega)]
    exact nil_suffix
  · rw [postingsFrom_eq hr]
    exact suffix_append _ _

theorem postingsFrom_suffix (readers : List (PostingsReader E)) (t : Term) : ∀ k : ℕ,
    postingsFrom readers t k <:+ postingsFrom readers t 0
  | 0 => suffix_rfl
  | k + 1 => (postingsFrom_suffix_succ readers t k).trans (postingsFrom_suffix readers t k)

theorem length_postingsFrom_succ (readers : List (PostingsReader E)) (t : Term) (i : ℕ) :
    (postingsFrom readers t i).length = (postingsFrom readers t (i + 1)).length ↔
      ∀ reader, readers[i]? = some reader → reader.postings t = [] := by
  rcases hr : readers[i]? with _ | reader
  · have hge := getElem?_eq_none_iff.1 hr
    simp [postingsFrom_of_le hge, postingsFrom_of_le (show readers.length ≤ i + 1 by omega)]
  · rw [postingsFrom_eq hr]
    simp [shift]

theorem length_postingsFrom (readers : List (PostingsReader E)) (t : Term) (k : ℕ) :
    (postingsFrom readers t 0).length = (postingsFrom readers t k).length ↔
      ∀ i < k, ∀ reader, readers[i]? = some reader → reader.postings t = [] := by
  induction k with
  | zero => simp
  | succ k ih =>
    have h1 := (postingsFrom_suffix readers t k).length_le
    have h2 := (postingsFrom_suffix_succ readers t k).length_le
    rw [Nat.forall_lt_succ_right, ← ih, ← length_postingsFrom_succ]
    omega

/-- After `k` calls of `-hasNextDocument`. -/
def afterCalls (m : MultiTermDocuments E) (k : ℕ) : MultiTermDocuments E :=
  (fun m => m.hasNextDocument.2)^[k] m

/-- The first `k` calls stop short of the target, and the next one does not. -/
structure StopsAfter (target : ℤ) (m : MultiTermDocuments E) (k : ℕ) : Prop where
  short : ∀ j < k, (m.afterCalls j).hasNextDocument.1 = true
    ∧ ((m.afterCalls (j + 1)).document : ℤ) < target
  stop : (m.afterCalls k).hasNextDocument.1 = true →
    target ≤ ((m.afterCalls (k + 1)).document : ℤ)

theorem skipTo_eq {target : ℤ} : ∀ {k turns : ℕ} {m : MultiTermDocuments E},
    StopsAfter target m k → k < turns →
      m.skipTo target turns = some (m.afterCalls k).hasNextDocument
  | 0, turns + 1, m, h, _ => by
    have hstop := h.stop
    simp only [afterCalls, iterate_succ, iterate_zero, comp_apply,
      id_eq] at hstop ⊢
    unfold skipTo
    rw [if_neg]
    intro hn
    have := hstop hn.1
    omega
  | k + 1, turns + 1, m, h, hlt => by
    have h0 := h.short 0 (Nat.succ_pos k)
    simp only [afterCalls, iterate_succ, iterate_zero, comp_apply,
      id_eq] at h0
    have hrest : StopsAfter target m.hasNextDocument.2 k := by
      refine ⟨fun j hj => ?_, fun hn => ?_⟩
      · simpa [afterCalls] using h.short (j + 1) (by omega)
      · simpa [afterCalls] using h.stop (by simpa [afterCalls] using hn)
    unfold skipTo
    rw [if_pos h0, skipTo_eq hrest (by omega)]
    rfl

/-- The enumerator goes over the postings of all sub-readers, and skips by iterating. -/
structure Concatenates (readers : List (PostingsReader E)) (m : MultiTermDocuments E) (t : Term) :
    Prop where
  seekTerm : Yields (m.seekTerm (some t)) (concatenated t 0 readers)
  skipTo : ∀ m', Reached readers m' → ∀ target k turns, StopsAfter target m' k → k < turns →
    m'.skipTo target turns = some (m'.afterCalls k).hasNextDocument

theorem Over.concatenates_iff (h : Over readers m) (t : Term) :
    Concatenates readers m t ↔ ∀ i < m.readerTermDocs.length, ∀ reader,
      readers[i]? = some reader → reader.postings t = [] := by
  have hall : postingsFrom readers t 0 = concatenated t 0 readers := by simp [postingsFrom]
  rw [← length_postingsFrom, hall]
  constructor
  · intro hc
    exact hc.seekTerm.length_eq (h.yields_seekTerm t)
  · intro hlen
    refine ⟨?_, fun m' _ _ _ _ => skipTo_eq⟩
    have hsuffix := postingsFrom_suffix readers t m.readerTermDocs.length
    rw [hall] at hsuffix
    rw [← hsuffix.eq_of_length hlen.symm]
    exact h.yields_seekTerm t

def oneDocument : PostingsReader (ListEnumerator Unit) where
  maximalDocument := 1
  termDocuments := { postings := fun _ => [⟨0, 1, [0]⟩] }
  postings _ := [⟨0, 1, [0]⟩]
  enumerates _ := ListEnumerator.yields rfl

def seekingOneDocument : MultiTermDocuments (ListEnumerator Unit) :=
  (initWithReaders [oneDocument]
    ((range 2).map (start (sizes [oneDocument])))).seekTerm (some ())

theorem reached_seekingOneDocument : Reached [oneDocument] seekingOneDocument :=
  Reached.new.seekTerm (some ())

theorem length_seekingOneDocument :
    seekingOneDocument.hasNextDocument.2.readerTermDocs.length = 1 := by
  obtain ⟨hcur, -, -, hlen⟩ := reached_seekingOneDocument.over.nextReader_fresh
    (show seekingOneDocument.term = some () from rfl)
    (show [oneDocument][seekingOneDocument.pointer]? = some oneDocument from rfl) rfl
  rw [hasNextDocument_of_false (currentHasNext_of_none rfl) Nat.one_pos,
    hasNextDocument_of_true hcur rfl, length_setCurrent, hlen]
  rfl

end MultiTermDocuments

end Etoile.Lucene
