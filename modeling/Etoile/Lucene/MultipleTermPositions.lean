import Etoile.Lib.Fuel
import Etoile.Lib.Runs
import Etoile.Lucene.PriorityQueue
import Etoile.Lucene.TermDocuments

/-!
# Positions of several terms

`LCMultipleTermPositions` keeps the enumerators of its terms in a queue, ordered by the documents
they stand at.  Its next document is the one on top; the positions of all enumerators that are at
it are put together and sorted, and the enumerators go on.

`-skipTo:` asks a queue that it has emptied for its top, gets nil, and takes the document of nil,
which is 0, for one before the target.
-/

namespace Etoile.Lucene

open List PriorityQueue

/-- The messages of `LCTermPositions`. -/
class TermPositions (E : Type) (Term : outParam Type) extends TermDocuments E Term where
  skipTo : ℤ → E → Bool × E

open TermDocuments TermPositions

/-- What the protocol asks of an enumerator that stands at the first of some postings and has
read none of its positions. -/
class EnumeratesPostings (E : Type) {Term : outParam Type} [TermPositions E Term] where
  upcoming : E → List Posting
  document_eq : ∀ {e : E} {p ps}, upcoming e = p :: ps → document e = p.doc
  frequency_eq : ∀ {e : E} {p ps}, upcoming e = p :: ps → frequency e = p.positions.length
  /-- All its positions are read, and it goes on. -/
  read : ∀ {e : E} {p ps}, upcoming e = p :: ps →
    (readPositions p.positions.length e).1 = p.positions
      ∧ (hasNextDocument (readPositions p.positions.length e).2).1 = !ps.isEmpty
      ∧ (ps ≠ [] → upcoming (hasNextDocument (readPositions p.positions.length e).2).2 = ps)
  skip : ∀ {e : E} {p ps} {target : ℤ}, upcoming e = p :: ps → p.doc < target →
    (skipTo target e).1 = !(ps.dropWhile fun q => (q.doc : ℤ) < target).isEmpty
      ∧ ((ps.dropWhile fun q => (q.doc : ℤ) < target) ≠ [] →
        upcoming (skipTo target e).2 = ps.dropWhile fun q => (q.doc : ℤ) < target)

open EnumeratesPostings

variable {E Term : Type} [TermPositions E Term]

structure IntQueue where
  array : List ℕ := []
  index : ℕ := 0

namespace IntQueue

variable (q : IntQueue)

def add (is : List ℕ) : IntQueue := { q with array := q.array ++ is }

/-- `none` where there is no such object; the index has gone on all the same. -/
def next : Option ℕ × IntQueue := (q.array[q.index]?, { q with index := q.index + 1 })

def sort : IntQueue := { q with array := q.array.mergeSort }

def clear (_ : IntQueue) : IntQueue := {}

def size : ℕ := q.array.length - q.index

end IntQueue

structure MultipleTermPositions (E : Type) where
  doc : ℕ := 0
  freq : ℕ := 0
  termPositionsQueue : List E := []
  maxSize : ℕ
  posList : IntQueue := {}

namespace MultipleTermPositions

open PriorityQueue

def lessThan (a b : E) : Bool := document a < document b

/-- `-initWithTermPositions:`, which leaves out the enumerators without a document. -/
def initQueue (maxSize : ℕ) (termPositions : List E) : List E :=
  termPositions.foldl (fun queue tp =>
    if (hasNextDocument tp).1 then put lessThan maxSize (hasNextDocument tp).2 queue else queue) []

def initWithTermPositions (termPositions : List E) : MultipleTermPositions E where
  termPositionsQueue := initQueue termPositions.length termPositions
  maxSize := termPositions.length

def peekDocument (queue : List E) : ℕ := (queue.head?.map document).getD 0

def gather : List E × IntQueue → Option (List E × IntQueue)
  | ([], _) => none
  | (tp :: rest, posList) =>
    let read := readPositions (frequency tp) tp
    let next := hasNextDocument read.2
    some (if next.1 then downHeap lessThan (next.2 :: rest) else pop lessThan (next.2 :: rest),
      posList.add read.1)

def isAt (doc : ℕ) (s : List E × IntQueue) : Bool :=
  !s.1.isEmpty && peekDocument s.1 == doc

/-- The body of the loop is run once before its condition is tested. -/
def hasNextDocument (fuel : ℕ) (m : MultipleTermPositions E) :
    Option (Bool × MultipleTermPositions E) :=
  if m.termPositionsQueue = [] then some (false, m)
  else
    let doc := peekDocument m.termPositionsQueue
    ((gather (m.termPositionsQueue, m.posList.clear)).bind
      (whileLoop (isAt doc) gather fuel)).map fun s =>
        (true, { m with
          doc := doc
          freq := s.2.sort.size
          termPositionsQueue := s.1
          posList := s.2.sort })

def nextPosition (m : MultipleTermPositions E) : Option ℕ × MultipleTermPositions E :=
  (m.posList.next.1, { m with posList := m.posList.next.2 })

/-- The first enumerator is taken out and put back where it finds the target; nil stays nil. -/
def skipFirst (maxSize : ℕ) (target : ℤ) : List E → Option (List E)
  | [] => some []
  | tp :: rest =>
    let queue := pop lessThan (tp :: rest)
    some (if (TermPositions.skipTo target tp).1 then
      put lessThan maxSize (TermPositions.skipTo target tp).2 queue else queue)

def skipTo (fuel : ℕ) (target : ℤ) (m : MultipleTermPositions E) :
    Option (Bool × MultipleTermPositions E) :=
  (whileLoop (fun queue => peekDocument queue < target) (skipFirst m.maxSize target) fuel
    m.termPositionsQueue).bind fun queue =>
      hasNextDocument fuel { m with termPositionsQueue := queue }

inductive Request
  | hasNextDocument
  | nextPosition
  | skipTo (target : ℤ)

inductive Response
  | flag (b : Bool)
  | position (p : ℕ)
  | raised
deriving DecidableEq

def respond (m : MultipleTermPositions E) (fuel : ℕ) :
    Request → Option (Response × MultipleTermPositions E)
  | .hasNextDocument => (hasNextDocument fuel m).map fun r => (.flag r.1, r.2)
  | .nextPosition => some (m.nextPosition.1.elim .raised .position, m.nextPosition.2)
  | .skipTo target => (skipTo fuel target m).map fun r => (.flag r.1, r.2)

end MultipleTermPositions

/-- A place in a list of postings: the document and frequency last reported, the positions that
are left of it, and the postings to come. -/
structure MergedPlace where
  doc : ℕ
  freq : ℕ
  left : List ℕ
  rest : List Posting

namespace MergedPlace

open MultipleTermPositions

def start (postings : List Posting) : MergedPlace := ⟨0, 0, [], postings⟩

def goOn (s : MergedPlace) : List Posting → MultipleTermPositions.Response × MergedPlace
  | [] => (.flag false, { s with rest := [] })
  | p :: ps => (.flag true, ⟨p.doc, p.freq, p.positions, ps⟩)

def respond (s : MergedPlace) :
    MultipleTermPositions.Request → MultipleTermPositions.Response × MergedPlace
  | .hasNextDocument => s.goOn s.rest
  | .nextPosition =>
    match s.left with
    | [] => (.raised, s)
    | x :: xs => (.position x, { s with left := xs })
  | .skipTo target => s.goOn (s.rest.dropWhile fun p => (p.doc : ℤ) < target)

def HasTarget (s : MergedPlace) : MultipleTermPositions.Request → Prop
  | .skipTo target => target ≤ 0 ∨ ∃ p ∈ s.rest, target ≤ p.doc
  | _ => True

end MergedPlace

namespace MultipleTermPositions

open PriorityQueue

variable [EnumeratesPostings E] {maxSize : ℕ} {queue : List E} {tp : E} {p : Posting} {ps : List Posting}

/-- An enumerator that stands at the first of postings in increasing order. -/
structure Proper (tp : E) : Prop where
  stands : upcoming tp ≠ []
  increasing : (upcoming tp).Pairwise fun p q => p.doc < q.doc
  counted : ∀ p ∈ upcoming tp, p.freq = p.positions.length

structure QueueInv (maxSize : ℕ) (queue : List E) : Prop where
  heap : IsHeap (document : E → ℕ) queue
  length : queue.length ≤ maxSize
  proper : ∀ tp ∈ queue, Proper tp

omit [EnumeratesPostings E] in
theorem lessThan_iff (a b : E) : lessThan a b = true ↔ document a < document b := by
  simp [lessThan]

theorem Proper.exists_cons (h : Proper tp) : ∃ p ps, upcoming tp = p :: ps :=
  exists_cons_of_ne_nil h.stands

theorem Proper.document_le (h : Proper tp) (hp : p ∈ upcoming tp) : document tp ≤ p.doc := by
  obtain ⟨q, qs, hq⟩ := h.exists_cons
  have hincreasing := h.increasing
  rw [hq] at hp hincreasing
  rw [document_eq hq]
  rcases mem_cons.1 hp with rfl | hp
  · exact le_rfl
  · exact (rel_of_pairwise_cons hincreasing hp).le

theorem Proper.of_suffix (h : Proper tp) {tp' : E} (hsuffix : upcoming tp' <:+ upcoming tp)
    (hne : upcoming tp' ≠ []) : Proper tp' :=
  ⟨hne, h.increasing.sublist hsuffix.sublist, fun p hp => h.counted p (hsuffix.subset hp)⟩

theorem QueueInv.top_le (h : QueueInv maxSize queue) (hp : p ∈ queue.flatMap upcoming) :
    peekDocument queue ≤ p.doc := by
  obtain ⟨tp, htp, hmem⟩ := mem_flatMap.1 hp
  rcases queue with _ | ⟨top, rest⟩
  · cases htp
  · exact (h.heap.top_le tp htp).trans ((h.proper tp htp).document_le hmem)

theorem QueueInv.of_perm {queue' : List E} (h : QueueInv maxSize queue)
    (hheap : IsHeap (document : E → ℕ) queue') (hsub : ∀ tp ∈ queue', tp ∈ queue)
    (hlength : queue'.length ≤ queue.length) : QueueInv maxSize queue' :=
  ⟨hheap, hlength.trans h.length, fun tp htp => h.proper tp (hsub tp htp)⟩

omit [EnumeratesPostings E] in
/-- What is at the top does not matter to `-pop`. -/
theorem pop_cons_congr (a b : E) (rest : List E) :
    pop lessThan (a :: rest) = pop lessThan (b :: rest) := by
  rcases rest.eq_nil_or_concat with rfl | ⟨front, last, rfl⟩
  · rfl
  · rw [concat_eq_append, pop_concat, pop_concat]

variable {rest : List E}

theorem QueueInv.pop (h : QueueInv maxSize (tp :: rest)) :
    QueueInv maxSize (pop lessThan (tp :: rest)) := by
  have hperm := @pop_perm _ lessThan tp rest
  refine h.of_perm (h.heap.pop lessThan_iff) (fun tp' htp' => ?_) ?_
  · exact mem_cons_of_mem tp (hperm.subset htp')
  · rw [hperm.length_eq]
    exact Nat.le_succ _

theorem QueueInv.adjustTop {tp' : E} (h : QueueInv maxSize (tp :: rest))
    (hproper : Proper tp') : QueueInv maxSize (downHeap lessThan (tp' :: rest)) := by
  have hperm := @downHeap_perm _ lessThan (tp' :: rest)
  refine ⟨h.heap.adjustTop lessThan_iff, ?_, fun a ha => ?_⟩
  · rw [hperm.length_eq]
    exact h.length
  · rcases mem_cons.1 (hperm.subset ha) with rfl | ha
    · exact hproper
    · exact h.proper a (mem_cons_of_mem tp ha)

theorem QueueInv.put (h : QueueInv maxSize queue) (hfull : queue.length < maxSize)
    (hproper : Proper tp) : QueueInv maxSize (put lessThan maxSize tp queue) := by
  have hperm := @put_perm _ lessThan maxSize tp queue hfull
  refine ⟨h.heap.put lessThan_iff, ?_, fun a ha => ?_⟩
  · rw [hperm.length_eq]
    exact hfull
  · rcases mem_cons.1 (hperm.subset ha) with rfl | ha
    · exact hproper
    · exact h.proper a ha

theorem gather_eq (h : QueueInv maxSize (tp :: rest)) (htp : upcoming tp = p :: ps)
    (posList : IntQueue) : ∃ queue', gather (tp :: rest, posList)
      = some (queue', posList.add p.positions) ∧ QueueInv maxSize queue'
        ∧ (queue'.flatMap upcoming).Perm (ps ++ rest.flatMap upcoming) := by
  obtain ⟨hread, hnext, hupcoming⟩ := EnumeratesPostings.read htp
  have hproper := h.proper tp mem_cons_self
  simp only [gather, frequency_eq htp, hread, hnext]
  rcases ps with _ | ⟨q, qs⟩
  · refine ⟨_, rfl, ?_, ?_⟩
    · simp only [isEmpty_nil, Bool.not_true, Bool.false_eq_true, if_false]
      rw [pop_cons_congr _ tp]
      exact h.pop
    · simp only [isEmpty_nil, Bool.not_true, Bool.false_eq_true, if_false, nil_append]
      exact pop_perm.flatMap_right _
  · replace hupcoming := hupcoming (cons_ne_nil q qs)
    have hsuffix : upcoming (TermDocuments.hasNextDocument
        (readPositions p.positions.length tp).2).2 <:+ upcoming tp := by
      rw [hupcoming, htp]
      exact suffix_cons p _
    have hproper' := hproper.of_suffix hsuffix (by simp [hupcoming])
    refine ⟨_, rfl, ?_, ?_⟩
    · simp only [isEmpty_cons, Bool.not_false, if_true]
      exact h.adjustTop hproper'
    · simp only [isEmpty_cons, Bool.not_false, if_true]
      refine ((downHeap_perm _).flatMap_right _).trans ?_
      rw [flatMap_cons, hupcoming]

/-- What has been gathered of the postings `M` at the document `doc`, and what is still queued. -/
structure Gathering (maxSize : ℕ) (M : List Posting) (doc : ℕ) (s : List E × IntQueue) : Prop where
  queue : QueueInv maxSize s.1
  index : s.2.index = 0
  taken : ∃ taken, M.Perm (taken ++ s.1.flatMap upcoming) ∧ s.2.array = taken.flatMap (·.positions)
    ∧ ∀ p ∈ taken, p.doc = doc ∧ p.freq = p.positions.length
  le : ∀ p ∈ s.1.flatMap upcoming, doc ≤ p.doc

theorem Gathering.step {M : List Posting} {doc : ℕ} {s : List E × IntQueue}
    (h : Gathering maxSize M doc s) (htest : isAt doc s = true) : ∃ s', gather s = some s'
      ∧ Gathering maxSize M doc s' ∧ (s'.1.flatMap upcoming).length < (s.1.flatMap upcoming).length
      := by
  obtain ⟨queue, posList⟩ := s
  obtain ⟨taken, hperm, harray, htaken⟩ := h.taken
  have hqueue := h.queue
  have hle := h.le
  have hindex := h.index
  rcases queue with _ | ⟨tp, rest⟩
  · simp [isAt] at htest
  · have hproper := hqueue.proper tp mem_cons_self
    obtain ⟨p, ps, htp⟩ := hproper.exists_cons
    obtain ⟨queue', hgather, hqueue', hperm'⟩ := gather_eq hqueue htp posList
    have hat : p.doc = doc := by
      rw [← document_eq htp]
      simpa [isAt, peekDocument] using htest
    have hup : ((tp :: rest).flatMap upcoming) = p :: (ps ++ rest.flatMap upcoming) := by
      rw [flatMap_cons, htp, cons_append]
    simp only [hup] at hperm hle ⊢
    refine ⟨_, hgather, ⟨hqueue', hindex, ⟨taken ++ [p], ?_, ?_, ?_⟩, ?_⟩, ?_⟩
    · refine hperm.trans ?_
      rw [append_assoc, singleton_append]
      exact (hperm'.symm.cons p).append_left taken
    · simp only [IntQueue.add, flatMap_append, flatMap_singleton]
      rw [harray]
    · intro q hq
      rcases mem_append.1 hq with hq | hq
      · exact htaken q hq
      · rw [mem_singleton.1 hq]
        exact ⟨hat, hproper.counted p (by simp [htp])⟩
    · intro q hq
      exact hle q (mem_cons_of_mem p (hperm'.subset hq))
    · rw [hperm'.length_eq]
      exact Nat.lt_succ_self _

variable {M : List Posting}

theorem Gathering.lt {doc : ℕ} {s : List E × IntQueue}
    (h : Gathering maxSize M doc s) (htest : isAt doc s = false) :
    ∀ p ∈ s.1.flatMap upcoming, doc < p.doc := by
  intro p hp
  refine lt_of_le_of_ne (h.le p hp) ?_
  rintro rfl
  have htop := h.queue.top_le hp
  obtain ⟨queue, posList⟩ := s
  rcases queue with _ | ⟨tp, rest⟩
  · simp at hp
  · obtain ⟨q, qs, htp⟩ := (h.queue.proper tp mem_cons_self).exists_cons
    have hle := h.le q (by simp [htp])
    rw [← document_eq htp] at hle
    have heq : document tp = p.doc := le_antisymm htop hle
    simp [isAt, peekDocument, heq] at htest

theorem Gathering.finish {doc : ℕ} {s : List E × IntQueue}
    (h : Gathering maxSize M doc s) (htest : isAt doc s = false) :
    s.2.sort.array = (combined M doc).positions ∧ s.2.sort.size = (combined M doc).freq
      ∧ (M.filter fun p => p.doc ≠ doc).Perm (s.1.flatMap upcoming) := by
  obtain ⟨taken, hperm, harray, htaken⟩ := h.taken
  have hlater := h.lt htest
  have hown : (M.filter fun p => p.doc = doc).Perm taken := by
    have hfilter := hperm.filter fun p => p.doc = doc
    have htaken' : taken.filter (fun p => p.doc = doc) = taken :=
      filter_eq_self.2 fun p hp => by simpa using (htaken p hp).1
    have hqueue : (s.1.flatMap upcoming).filter (fun p => p.doc = doc) = [] :=
      filter_eq_nil_iff.2 fun p hp => by simpa using (hlater p hp).ne'
    rwa [filter_append, htaken', hqueue, append_nil] at hfilter
  have hothers : (M.filter fun p => p.doc ≠ doc).Perm (s.1.flatMap upcoming) := by
    have hfilter := hperm.filter fun p => p.doc ≠ doc
    have htaken' : taken.filter (fun p => p.doc ≠ doc) = [] :=
      filter_eq_nil_iff.2 fun p hp => by simpa using (htaken p hp).1
    have hqueue : (s.1.flatMap upcoming).filter (fun p => p.doc ≠ doc) = s.1.flatMap upcoming :=
      filter_eq_self.2 fun p hp => by simpa using (hlater p hp).ne'
    rwa [filter_append, htaken', hqueue, nil_append] at hfilter
  have hcombined : combined M doc = combined taken doc := by
    rw [combined_perm hperm]
    have hsplit := combined_filter (M := taken ++ s.1.flatMap upcoming) (d := doc)
      (P := fun p => p.doc = doc) (by simp)
    rw [← hsplit, combined_perm ((hperm.symm.filter _).trans hown)]
  have hself : taken.filter (fun p => p.doc = doc) = taken :=
    filter_eq_self.2 fun p hp => by simpa using (htaken p hp).1
  refine ⟨?_, ?_, hothers⟩
  · rw [hcombined, combined, hself, IntQueue.sort, harray]
  · have hfreq : taken.map Posting.freq = taken.map fun p => p.positions.length :=
      map_congr_left fun p hp => (htaken p hp).2
    rw [hcombined, combined, hself, hfreq, IntQueue.size, IntQueue.sort, h.index]
    simp [harray, length_flatMap]

structure Represents (m : MultipleTermPositions E) (s : MergedPlace) : Prop where
  queue : QueueInv m.maxSize m.termPositionsQueue
  rest : s.rest = mergedPostings (m.termPositionsQueue.flatMap upcoming)
  doc : m.doc = s.doc
  freq : m.freq = s.freq
  left : m.posList.array.drop m.posList.index = s.left

variable {m : MultipleTermPositions E} {s : MergedPlace}

theorem Represents.hasNextDocument (h : Represents m s) : ∃ m',
    Settles (fun fuel => hasNextDocument fuel m) ((!s.rest.isEmpty), m')
      ∧ (s.goOn s.rest).1 = .flag (!s.rest.isEmpty) ∧ Represents m' (s.goOn s.rest).2 := by
  by_cases hnil : m.termPositionsQueue = []
  · have hrest : s.rest = [] := by
      rw [h.rest, hnil]
      simp
    refine ⟨m, ?_, by simp [hrest, MergedPlace.goOn], ?_⟩
    · simp only [MultipleTermPositions.hasNextDocument, hnil, hrest]
      exact settles_some _
    · rw [hrest]
      exact ⟨h.queue, by simp [MergedPlace.goOn, hnil], h.doc, h.freq, h.left⟩
  · obtain ⟨tp, rest, hcons⟩ := exists_cons_of_ne_nil hnil
    have hqueue := h.queue
    have htop := fun p hp => @QueueInv.top_le _ _ _ _ _ _ p hqueue hp
    rw [hcons] at hqueue htop
    obtain ⟨p, ps, htp⟩ := (hqueue.proper tp mem_cons_self).exists_cons
    have hpeek : peekDocument (tp :: rest) = p.doc := document_eq htp
    rw [hpeek] at htop
    have hstart : Gathering m.maxSize ((tp :: rest).flatMap upcoming) p.doc
        (tp :: rest, m.posList.clear) :=
      ⟨hqueue, rfl, ⟨[], by simp, rfl, by simp⟩, htop⟩
    obtain ⟨s₁, hs₁, hgathering, -⟩ := hstart.step (by simp [isAt, hpeek])
    obtain ⟨s₂, hs₂, hend, htest⟩ := settles_whileLoop (fun s => (s.1.flatMap upcoming).length)
      (fun s hs htest => hs.step htest) hgathering
    obtain ⟨harray, hsize, hothers⟩ := hend.finish htest
    have hmerged : s.rest = combined ((tp :: rest).flatMap upcoming) p.doc
        :: mergedPostings (((tp :: rest).flatMap upcoming).filter fun q => q.doc ≠ p.doc) := by
      rw [h.rest, hcons]
      exact mergedPostings_cons ⟨p, by simp [htp], rfl⟩ htop
    refine ⟨{ m with
      doc := p.doc, freq := s₂.2.sort.size, termPositionsQueue := s₂.1, posList := s₂.2.sort },
      ?_, by simp [hmerged, MergedPlace.goOn], ?_⟩
    · simp only [MultipleTermPositions.hasNextDocument, hcons, reduceCtorEq, if_false, hpeek, hs₁,
        Option.bind_some, hmerged]
      exact hs₂.map _
    · rw [hmerged]
      refine ⟨hend.queue, mergedPostings_perm hothers, rfl, hsize, ?_⟩
      show s₂.2.sort.array.drop s₂.2.sort.index = _
      rw [harray, IntQueue.sort, hend.index, drop_zero]
      rfl

theorem Represents.nextPosition (h : Represents m s) :
    m.nextPosition.1.elim .raised .position = (s.respond .nextPosition).1
      ∧ Represents m.nextPosition.2 (s.respond .nextPosition).2 := by
  have hleft := h.left
  have hhead := congrArg head? hleft
  have htail := congrArg tail hleft
  rw [head?_drop] at hhead
  rw [tail_drop] at htail
  simp only [MultipleTermPositions.nextPosition, IntQueue.next, MergedPlace.respond, hhead]
  rcases hs : s.left with _ | ⟨x, xs⟩
  · refine ⟨rfl, ⟨h.queue, h.rest, h.doc, h.freq, ?_⟩⟩
    rw [htail, hs, tail_nil]
  · refine ⟨rfl, ⟨h.queue, h.rest, h.doc, h.freq, ?_⟩⟩
    rw [htail, hs, tail_cons]

variable {target : ℤ}

theorem skipFirst_eq (h : QueueInv maxSize (tp :: rest))
    (hbefore : (document tp : ℤ) < target) : ∃ queue',
      skipFirst maxSize target (tp :: rest) = some queue' ∧ QueueInv maxSize queue'
        ∧ (queue'.flatMap upcoming).Perm
          ((upcoming tp).filter (fun p => target ≤ (p.doc : ℤ)) ++ rest.flatMap upcoming)
        ∧ (queue'.flatMap upcoming).length < ((tp :: rest).flatMap upcoming).length := by
  have hproper := h.proper tp mem_cons_self
  obtain ⟨p, ps, htp⟩ := hproper.exists_cons
  have hp : (p.doc : ℤ) < target := by
    rwa [← document_eq htp]
  obtain ⟨hfound, hupcoming⟩ := EnumeratesPostings.skip htp hp
  have hincreasing := hproper.increasing
  rw [htp, pairwise_cons] at hincreasing
  have hleft : (upcoming tp).filter (fun q => target ≤ (q.doc : ℤ))
      = ps.dropWhile fun q => (q.doc : ℤ) < target := by
    rw [htp, filter_cons_of_neg (by simpa using hp)]
    have hsorted : ps.Pairwise fun q r => (q.doc : ℤ) ≤ (r.doc : ℤ) :=
      hincreasing.2.imp fun h => by exact_mod_cast h.le
    exact (dropWhile_eq_filter hsorted).symm
  have hpop := h.pop
  have hperm := @pop_perm _ (lessThan (E := E)) tp rest
  have hsuffix := dropWhile_suffix (fun q : Posting => decide ((q.doc : ℤ) < target)) (l := ps)
  rw [skipFirst, hfound, hleft]
  generalize (ps.dropWhile fun q => (q.doc : ℤ) < target) = later at hupcoming hsuffix ⊢
  have hlength : (later ++ rest.flatMap upcoming).length
      < ((tp :: rest).flatMap upcoming).length := by
    have hle := hsuffix.length_le
    rw [flatMap_cons, htp, length_append, length_append, length_cons]
    omega
  rcases later with _ | ⟨q, qs⟩
  · have hqueue := hperm.flatMap_right upcoming
    refine ⟨_, rfl, hpop, hqueue, ?_⟩
    simp only [isEmpty_nil, Bool.not_true, Bool.false_eq_true, if_false]
    rwa [hqueue.length_eq]
  · have hfull : (pop lessThan (tp :: rest)).length < maxSize := by
      rw [hperm.length_eq]
      exact h.length
    replace hupcoming := hupcoming (cons_ne_nil q qs)
    have hproper' : Proper (TermPositions.skipTo target tp).2 := by
      refine hproper.of_suffix ?_ (by simp [hupcoming])
      rw [hupcoming, htp]
      exact hsuffix.trans (suffix_cons p ps)
    have hqueue : ((put lessThan maxSize (TermPositions.skipTo target tp).2
        (pop lessThan (tp :: rest))).flatMap upcoming).Perm
          (q :: qs ++ rest.flatMap upcoming) := by
      refine ((put_perm hfull).flatMap_right _).trans ?_
      rw [flatMap_cons, hupcoming]
      exact (hperm.flatMap_right _).append_left _
    refine ⟨_, rfl, hpop.put hfull hproper', hqueue, ?_⟩
    simp only [isEmpty_cons, Bool.not_false, if_true]
    rwa [hqueue.length_eq]

/-- The queue of a loop that goes on to the target; `M` is what there is from the target on. -/
structure Skipping (maxSize : ℕ) (target : ℤ) (M : List Posting) (queue : List E) : Prop where
  inv : QueueInv maxSize queue
  later : ((queue.flatMap upcoming).filter fun p => target ≤ (p.doc : ℤ)).Perm M

theorem Skipping.step {M : List Posting} {rest : List E}
    (h : Skipping maxSize target M (tp :: rest)) (hbefore : (document tp : ℤ) < target) :
    ∃ queue', skipFirst maxSize target (tp :: rest) = some queue'
      ∧ Skipping maxSize target M queue'
      ∧ (queue'.flatMap upcoming).length < ((tp :: rest).flatMap upcoming).length := by
  obtain ⟨queue', hskip, hqueue', hperm, hlength⟩ := skipFirst_eq h.inv hbefore
  refine ⟨queue', hskip, ⟨hqueue', ?_⟩, hlength⟩
  refine (hperm.filter _).trans (Perm.trans ?_ h.later)
  rw [flatMap_cons, filter_append, filter_append, filter_filter]
  simp

theorem Skipping.settles (h : Skipping maxSize target M queue)
    (htarget : target ≤ 0 ∨ M ≠ []) : ∃ queue',
      Settles (fun fuel => whileLoop (fun queue => peekDocument queue < target)
        (skipFirst maxSize target) fuel queue) queue'
        ∧ QueueInv maxSize queue' ∧ (queue'.flatMap upcoming).Perm M := by
  have hstep : ∀ queue : List E, Skipping maxSize target M queue →
      decide ((peekDocument queue : ℤ) < target) = true →
        ∃ queue', skipFirst maxSize target queue = some queue' ∧ Skipping maxSize target M queue'
          ∧ (queue'.flatMap upcoming).length < (queue.flatMap upcoming).length := by
    intro queue hqueue htest
    rcases queue with _ | ⟨tp, rest⟩
    · have hlater := hqueue.later
      simp only [peekDocument, head?_nil, Option.map_none, Option.getD_none, Nat.cast_zero,
        decide_eq_true_eq] at htest
      rw [flatMap_nil, filter_nil, nil_perm] at hlater
      rcases htarget with htarget | htarget
      · omega
      · exact absurd hlater htarget
    · exact hqueue.step (of_decide_eq_true htest)
  obtain ⟨queue', hsettles, hend, htest⟩ := settles_whileLoop
    (fun queue : List E => (queue.flatMap upcoming).length) hstep h
  refine ⟨queue', hsettles, hend.inv, ?_⟩
  refine Perm.trans (Perm.of_eq ?_) hend.later
  refine (filter_eq_self.2 fun p hp => ?_).symm
  have htop := hend.inv.top_le hp
  have hle : target ≤ peekDocument queue' := by simpa using htest
  simp only [decide_eq_true_eq]
  omega

theorem Skipping.never (h : Skipping maxSize target [] queue) (hpos : 0 < target) (fuel : ℕ) :
    whileLoop (fun queue => peekDocument queue < target) (skipFirst maxSize target) fuel queue
      = none := by
  have hbefore : ∀ {tp : E} {rest : List E}, Skipping maxSize target [] (tp :: rest) →
      (document tp : ℤ) < target := by
    intro tp rest hqueue
    obtain ⟨p, ps, htp⟩ := (hqueue.inv.proper tp mem_cons_self).exists_cons
    have hlater := filter_eq_nil_iff.1 (perm_nil.1 hqueue.later) p (by simp [htp])
    rw [document_eq htp]
    simpa using hlater
  refine whileLoop_eq_none (I := Skipping maxSize target []) (fun queue hqueue => ?_)
    (fun queue queue' hqueue hskip => ?_) fuel h
  · rcases queue with _ | ⟨tp, rest⟩
    · simpa [peekDocument] using hpos
    · exact decide_eq_true (hbefore hqueue)
  · rcases queue with _ | ⟨tp, rest⟩
    · obtain rfl := Option.some.inj hskip
      exact hqueue
    · obtain ⟨queue'', hskip', hqueue'', -⟩ := hqueue.step (hbefore hqueue)
      rw [hskip', Option.some.injEq] at hskip
      rwa [← hskip]

theorem Represents.skipping (h : Represents m s) (target : ℤ) :
    Skipping m.maxSize target ((m.termPositionsQueue.flatMap upcoming).filter
      fun p => target ≤ (p.doc : ℤ)) m.termPositionsQueue :=
  ⟨h.queue, Perm.refl _⟩

theorem Represents.hasTarget_iff (h : Represents m s) (target : ℤ) :
    s.HasTarget (.skipTo target) ↔ target ≤ 0 ∨ ((m.termPositionsQueue.flatMap upcoming).filter
      fun p => target ≤ (p.doc : ℤ)) ≠ [] := by
  rw [MergedPlace.HasTarget, h.rest, exists_mem_mergedPostings_iff (P := fun d => target ≤ (d : ℤ)),
    Ne, filter_eq_nil_iff]
  simp only [decide_eq_true_eq, not_forall, not_not, exists_prop]

theorem Represents.skipTo (h : Represents m s) (htarget : s.HasTarget (.skipTo target)) : ∃ m',
    Settles (fun fuel => respond m fuel (.skipTo target)) ((s.respond (.skipTo target)).1, m')
      ∧ Represents m' (s.respond (.skipTo target)).2 := by
  obtain ⟨queue', hsettles, hqueue', hperm⟩ :=
    (h.skipping target).settles ((h.hasTarget_iff target).1 htarget)
  have hrest : (s.rest.dropWhile fun p => (p.doc : ℤ) < target)
      = mergedPostings (queue'.flatMap upcoming) := by
    rw [h.rest, dropWhile_mergedPostings, mergedPostings_perm hperm]
  have hskipped : Represents { m with termPositionsQueue := queue' }
      { s with rest := s.rest.dropWhile fun p => (p.doc : ℤ) < target } :=
    ⟨hqueue', hrest, h.doc, h.freq, h.left⟩
  obtain ⟨m', hnext, hflag, hm'⟩ := hskipped.hasNextDocument
  have hresponse : s.respond (.skipTo target)
      = ({ s with rest := s.rest.dropWhile fun p => (p.doc : ℤ) < target } : MergedPlace).goOn
        (s.rest.dropWhile fun p => (p.doc : ℤ) < target) := by
    rcases hdrop : s.rest.dropWhile fun p => (p.doc : ℤ) < target <;>
      simp [MergedPlace.respond, MergedPlace.goOn, hdrop]
  refine ⟨m', ?_, ?_⟩
  · rw [hresponse, hflag]
    exact Settles.map (fun r : Bool × MultipleTermPositions E => (Response.flag r.1, r.2))
      (Settles.bind (g := fun fuel queue =>
        MultipleTermPositions.hasNextDocument fuel { m with termPositionsQueue := queue })
        hsettles hnext)
  · rw [hresponse]
    exact hm'

theorem Represents.skipTo_eq_none (h : Represents m s) (htarget : ¬ s.HasTarget (.skipTo target))
    (fuel : ℕ) : respond m fuel (.skipTo target) = none := by
  rw [h.hasTarget_iff, not_or, not_not] at htarget
  have hskipping := h.skipping target
  rw [htarget.2] at hskipping
  rw [respond, MultipleTermPositions.skipTo, hskipping.never (not_le.1 htarget.1), Option.bind_none,
    Option.map_none]

/-- A request is answered as by the merged list, if it is not for a target beyond it. -/
theorem Represents.respond (h : Represents m s) {r : Request} (hr : s.HasTarget r) : ∃ m',
    Settles (fun fuel => respond m fuel r) ((s.respond r).1, m')
      ∧ Represents m' (s.respond r).2 := by
  rcases r with _ | _ | target
  · obtain ⟨m', hnext, hflag, hm'⟩ := h.hasNextDocument
    refine ⟨m', ?_, hm'⟩
    rw [MergedPlace.respond, hflag]
    exact hnext.map fun r => (Response.flag r.1, r.2)
  · obtain ⟨hresponse, hm'⟩ := h.nextPosition
    refine ⟨m.nextPosition.2, ?_, hm'⟩
    rw [← hresponse]
    exact settles_some _
  · exact h.skipTo hr

/-- An index that has increasing postings for every term, at the first of which its enumerators
start. -/
structure Reader (E Term : Type) [TermPositions E Term] [EnumeratesPostings E] where
  termPositionsWithTerm : Term → E
  postings : Term → List Posting
  increasing : ∀ t, (postings t).Pairwise fun p q => p.doc < q.doc
  counted : ∀ t, ∀ p ∈ postings t, p.freq = p.positions.length
  first : ∀ t, (TermDocuments.hasNextDocument (termPositionsWithTerm t)).1 = !(postings t).isEmpty
    ∧ (postings t ≠ [] →
      upcoming (TermDocuments.hasNextDocument (termPositionsWithTerm t)).2 = postings t)

def initWithIndexReader (reader : Reader E Term) (terms : List Term) : MultipleTermPositions E :=
  initWithTermPositions (terms.map reader.termPositionsWithTerm)

/-- Every request comes to an end, and its response and what the enumerator then has are those of
the merged list. -/
def Follows : MultipleTermPositions E → MergedPlace → List Request → Prop
  | _, _, [] => True
  | m, s, r :: rs => ∃ m', Settles (fun fuel => respond m fuel r) ((s.respond r).1, m')
      ∧ m'.doc = (s.respond r).2.doc ∧ m'.freq = (s.respond r).2.freq
      ∧ Follows m' (s.respond r).2 rs

/-- The queue takes an enumerator at the first posting of every term that has one. -/
theorem foldl_put_represents (reader : Reader E Term) {maxSize : ℕ} : ∀ (terms : List Term)
    {queue : List E}, QueueInv maxSize queue → queue.length + terms.length ≤ maxSize →
      ∃ queue', (terms.map reader.termPositionsWithTerm).foldl (fun queue tp =>
          if (TermDocuments.hasNextDocument tp).1 then
            put lessThan maxSize (TermDocuments.hasNextDocument tp).2 queue
          else queue) queue = queue'
        ∧ QueueInv maxSize queue' ∧ (queue'.flatMap upcoming).Perm
          (queue.flatMap upcoming ++ terms.flatMap reader.postings)
  | [], queue, hqueue, _ => ⟨queue, rfl, hqueue, by simp⟩
  | t :: terms, queue, hqueue, hlength => by
    obtain ⟨hfirst, hupcoming⟩ := reader.first t
    rw [length_cons] at hlength
    rw [map_cons, foldl_cons, flatMap_cons, hfirst]
    by_cases hpostings : reader.postings t = []
    · simpa [hpostings] using foldl_put_represents reader terms hqueue (by omega)
    · have hupcoming := hupcoming hpostings
      have hfull : queue.length < maxSize := by omega
      have hproper : Proper (TermDocuments.hasNextDocument (reader.termPositionsWithTerm t)).2 := by
        refine ⟨?_, ?_, ?_⟩ <;> rw [hupcoming]
        · exact hpostings
        · exact reader.increasing t
        · exact reader.counted t
      have hput := @put_perm _ lessThan maxSize
        (TermDocuments.hasNextDocument (reader.termPositionsWithTerm t)).2 queue hfull
      obtain ⟨queue', hfold, hqueue', hperm⟩ := foldl_put_represents reader terms
        (hqueue.put hfull hproper) (by rw [hput.length_eq, length_cons]; omega)
      refine ⟨queue', ?_, hqueue', hperm.trans ?_⟩
      · simpa [hpostings] using hfold
      · have hown := hput.flatMap_right upcoming
        rw [flatMap_cons, hupcoming] at hown
        rw [← append_assoc]
        exact (hown.trans perm_append_comm).append_right _

theorem represents_initWithIndexReader (reader : Reader E Term) (terms : List Term) :
    Represents (initWithIndexReader reader terms)
      (MergedPlace.start (mergedPostings (terms.flatMap reader.postings))) := by
  have hempty : QueueInv (terms.map reader.termPositionsWithTerm).length ([] : List E) :=
    ⟨by simp [IsHeap], Nat.zero_le _, by simp⟩
  obtain ⟨queue', hfold, hqueue', hperm⟩ :=
    foldl_put_represents reader terms hempty (by simp)
  rw [flatMap_nil, nil_append] at hperm
  subst hfold
  exact ⟨hqueue', (mergedPostings_perm hperm).symm, rfl, rfl, rfl⟩

theorem Represents.follows_iff_along : ∀ {requests : List Request} {m : MultipleTermPositions E}
    {s : MergedPlace}, Represents m s →
      (Follows m s requests ↔ Along (fun s r => (s.respond r).2) MergedPlace.HasTarget s requests)
  | [], _, _, _ => Iff.rfl
  | r :: rs, m, s, h => by
    constructor
    · rintro ⟨m', hsettles, -, -, hrest⟩
      have hr : s.HasTarget r := by
        by_contra hnot
        rcases r with _ | _ | target
        · exact hnot trivial
        · exact hnot trivial
        · obtain ⟨fuel, hfuel⟩ := hsettles.exists_eq
          rw [h.skipTo_eq_none hnot] at hfuel
          cases hfuel
      obtain ⟨m'', hsettles', hm''⟩ := h.respond hr
      obtain rfl : m' = m'' := congrArg Prod.snd (hsettles.unique hsettles')
      exact ⟨hr, hm''.follows_iff_along.1 hrest⟩
    · rintro ⟨hr, hrest⟩
      obtain ⟨m', hsettles, hm'⟩ := h.respond hr
      exact ⟨m', hsettles, hm'.doc, hm'.freq, hm'.follows_iff_along.2 hrest⟩

/-- A list of terms is enumerated as the merge of their postings, as long as no target is beyond
all documents that are left. -/
theorem follows_iff (reader : Reader E Term) (terms : List Term) (requests : List Request) :
    Follows (initWithIndexReader reader terms)
        (MergedPlace.start (mergedPostings (terms.flatMap reader.postings))) requests
      ↔ Along (fun s r => (s.respond r).2) MergedPlace.HasTarget
        (MergedPlace.start (mergedPostings (terms.flatMap reader.postings))) requests :=
  (represents_initWithIndexReader reader terms).follows_iff_along

end MultipleTermPositions

namespace ListEnumerator

instance : TermPositions (ListEnumerator Term) Term where
  skipTo target e :=
    match e.rest.dropWhile fun p => (p.doc : ℤ) < target with
    | [] => (false, { e with rest := [] })
    | p :: ps => (true, { e with current := p, rest := ps })

/-- No position of the current posting has been read, and so they are as many as they were. -/
def upcoming (e : ListEnumerator Term) : List Posting :=
  if ∀ p ∈ e.current :: e.rest, p.freq = p.positions.length then e.current :: e.rest else []

theorem upcoming_eq_cons {e : ListEnumerator Term} {p ps} (h : e.upcoming = p :: ps) :
    e.current = p ∧ e.rest = ps ∧ ∀ q ∈ p :: ps, q.freq = q.positions.length := by
  unfold upcoming at h
  split_ifs at h with hcounted
  obtain ⟨rfl, rfl⟩ := cons.inj h
  exact ⟨rfl, rfl, hcounted⟩

theorem upcoming_eq {e : ListEnumerator Term} {p ps} (hcurrent : e.current = p) (hrest : e.rest = ps)
    (hcounted : ∀ q ∈ p :: ps, q.freq = q.positions.length) : e.upcoming = p :: ps := by
  subst hcurrent hrest
  exact if_pos hcounted

instance : EnumeratesPostings (ListEnumerator Term) where
  upcoming := upcoming
  document_eq h := by
    obtain ⟨rfl, -, -⟩ := upcoming_eq_cons h
    rfl
  frequency_eq h := by
    obtain ⟨rfl, -, hcounted⟩ := upcoming_eq_cons h
    exact hcounted _ mem_cons_self
  read {e p ps} h := by
    obtain ⟨rfl, rfl, hcounted⟩ := upcoming_eq_cons h
    obtain ⟨hread, hrest⟩ := readPositions_of_current ListEnumerator.current ListEnumerator.rest
      (fun _ => rfl) (fun _ => rfl) (fun _ => rfl) e.current.positions.length e le_rfl
    refine ⟨by rw [hread, take_length], ?_⟩
    rcases hps : e.rest with _ | ⟨q, qs⟩
    · rw [hps] at hrest
      simp [hasNextDocument, hrest]
    · rw [hps] at hrest hcounted
      simp only [hasNextDocument, hrest]
      exact ⟨rfl, fun _ => upcoming_eq rfl rfl fun r hr => hcounted r (mem_cons_of_mem _ hr)⟩
  skip {e p ps target} h _ := by
    obtain ⟨rfl, rfl, hcounted⟩ := upcoming_eq_cons h
    have hsuffix := dropWhile_suffix (fun q : Posting => decide ((q.doc : ℤ) < target))
      (l := e.rest)
    simp only [TermPositions.skipTo]
    generalize (e.rest.dropWhile fun q => (q.doc : ℤ) < target) = later at hsuffix ⊢
    rcases later with _ | ⟨q, qs⟩
    · simp
    · exact ⟨rfl, fun _ => upcoming_eq rfl rfl fun r hr =>
        hcounted r (mem_cons_of_mem _ (hsuffix.subset hr))⟩

end ListEnumerator

namespace MultipleTermPositions

def oneTerm : Reader (ListEnumerator Unit) Unit where
  termPositionsWithTerm _ := { postings := fun _ => [⟨0, 1, [0]⟩], rest := [⟨0, 1, [0]⟩] }
  postings _ := [⟨0, 1, [0]⟩]
  increasing _ := by simp
  counted _ := by simp
  first _ := ⟨rfl, fun _ => rfl⟩

/-- There is one document, and one goes on to the second: this never ends. -/
theorem skipTo_does_not_end :
    ¬ ∃ fuel, respond (initWithIndexReader oneTerm [()]) fuel (.skipTo 1) ≠ none := by
  rintro ⟨fuel, h⟩
  refine h ((represents_initWithIndexReader oneTerm [()]).skipTo_eq_none ?_ fuel)
  simp [MergedPlace.HasTarget, MergedPlace.start, mergedPostings, combined, oneTerm]

end MultipleTermPositions

end Etoile.Lucene
