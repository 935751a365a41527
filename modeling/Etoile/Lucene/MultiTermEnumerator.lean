import Etoile.Lib.Union
import Etoile.Lucene.PriorityQueue
import Etoile.Lucene.TermDictionary

/-!
# The term enumerator of a multi reader

`LCMultiTermEnumerator` keeps the enumerators of its sub-readers in a queue, ordered by their
current terms and then by the first documents of their sub-readers.  Its next term is the one on
top; all enumerators that are at it give their document frequencies and go on.
-/

namespace Etoile.Lucene

open List Option TermEnumerator

variable {E : Type} [TermEnumerator E]

structure SegmentMergeInfo (E : Type) where
  base : ℕ
  termEnum : E
  term : Term

namespace SegmentMergeInfo

/-- The enumerator goes on, and the info with it unless the enumerator is at its end. -/
def next (base : ℕ) (termEnum : E) : Option (Option (SegmentMergeInfo E)) :=
  match h : hasNextTerm termEnum with
  | none => none
  | some (false, _) => some none
  | some (true, e) =>
    some (some ⟨base, e, (TermEnumerator.term e).get (TermEnumerator.isSome_term h)⟩)

def hasNextTerm (smi : SegmentMergeInfo E) : Option (Option (SegmentMergeInfo E)) :=
  next smi.base smi.termEnum

def remaining (smi : SegmentMergeInfo E) : ℕ := TermEnumerator.remaining smi.termEnum + 1

theorem remaining_lt {smi smi' : SegmentMergeInfo E} (h : smi.hasNextTerm = some (some smi')) :
    smi'.remaining < smi.remaining := by
  unfold hasNextTerm next at h
  split at h
  · cases h
  · cases h
  · rename_i e' hnext
    rw [some.injEq, some.injEq] at h
    have hlt := TermEnumerator.remaining_lt hnext
    rw [← h]
    exact Nat.succ_lt_succ hlt

variable [Collation]

def compare (smi other : SegmentMergeInfo E) : Ordering :=
  match smi.term.compare other.term with
  | .eq => if smi.base < other.base then .lt else if other.base < smi.base then .gt else .eq
  | comparison => comparison

def lessThan (a b : SegmentMergeInfo E) : Bool := a.compare b = .lt

def key (smi : SegmentMergeInfo E) : Term ×ₗ ℕ := toLex (smi.term, smi.base)

omit [TermEnumerator E] in
theorem lessThan_iff (a b : SegmentMergeInfo E) : lessThan a b = true ↔ a.key < b.key := by
  unfold lessThan compare
  rw [decide_eq_true_iff, Prod.Lex.lt_iff]
  show _ ↔ a.term < b.term ∨ a.term = b.term ∧ a.base < b.base
  rcases hcompare : a.term.compare b.term with _ | _ | _
  · rw [Term.compare_lt_iff] at hcompare
    exact ⟨fun _ => Or.inl hcompare, fun _ => rfl⟩
  · rw [Term.compare_eq_iff] at hcompare
    simp only [hcompare, lt_irrefl, true_and, false_or]
    split_ifs with hlt hgt
    · exact ⟨fun _ => hlt, fun _ => rfl⟩
    · exact ⟨nofun, fun h => absurd h hlt⟩
    · exact ⟨nofun, fun h => absurd h hlt⟩
  · rw [Term.compare_gt_iff] at hcompare
    refine ⟨nofun, ?_⟩
    rintro (h | h)
    · exact absurd h hcompare.asymm
    · exact absurd h.1 hcompare.ne'

end SegmentMergeInfo

structure MultiTermEnumerator (E : Type) where
  queue : List (SegmentMergeInfo E)
  maxSize : ℕ
  /-- nil before the first term and after the last -/
  term : Option Term
  docFreq : ℕ

structure TermReader (E : Type) where
  termEnumerator : E
  termEnumeratorWithTerm : Term → Option E

namespace MultiTermEnumerator

open PriorityQueue SegmentMergeInfo

def weight (queue : List (SegmentMergeInfo E)) : ℕ := (queue.map SegmentMergeInfo.remaining).sum

theorem weight_perm {queue queue' : List (SegmentMergeInfo E)} (h : queue.Perm queue') :
    weight queue = weight queue' := (h.map _).sum_eq

variable [Collation]

theorem weight_pop (top : SegmentMergeInfo E) (rest : List (SegmentMergeInfo E)) :
    weight (pop lessThan (top :: rest)) < weight (top :: rest) := by
  rw [weight_perm pop_perm]
  show weight rest < top.remaining + weight rest
  exact Nat.lt_add_of_pos_left (Nat.succ_pos _)

theorem weight_put {maxSize : ℕ} {top top' : SegmentMergeInfo E}
    {rest : List (SegmentMergeInfo E)} (h : top.hasNextTerm = some (some top')) :
    weight (put lessThan maxSize top' (pop lessThan (top :: rest))) < weight (top :: rest) := by
  have hlt := SegmentMergeInfo.remaining_lt h
  have hpop := weight_perm (@pop_perm _ lessThan top rest)
  rcases Nat.lt_or_ge (pop lessThan (top :: rest)).length maxSize with hfull | hfull
  · rw [weight_perm (put_perm hfull)]
    show top'.remaining + weight (pop lessThan (top :: rest)) < top.remaining + weight rest
    omega
  · unfold put
    rw [if_pos hfull]
    exact weight_pop top rest

def collect (maxSize : ℕ) (term : Term) (docFreq : ℕ) :
    List (SegmentMergeInfo E) → Option (ℕ × List (SegmentMergeInfo E))
  | [] => some (docFreq, [])
  | top :: rest =>
    if term.compare top.term = .eq then
      match _h : top.hasNextTerm with
      | none => none
      | some none =>
        collect maxSize term (docFreq + documentFrequency top.termEnum)
          (pop lessThan (top :: rest))
      | some (some top') =>
        collect maxSize term (docFreq + documentFrequency top.termEnum)
          (put lessThan maxSize top' (pop lessThan (top :: rest)))
    else some (docFreq, top :: rest)
  termination_by queue => weight queue
  decreasing_by
    · exact weight_pop top rest
    · exact weight_put _h

def hasNextTerm (m : MultiTermEnumerator E) : Option (Bool × MultiTermEnumerator E) :=
  match m.queue with
  | [] => some (false, { m with term := none })
  | top :: rest => (collect m.maxSize top.term 0 (top :: rest)).map fun p =>
      (true, { m with queue := p.2, term := some top.term, docFreq := p.1 })

section weight
variable {maxSize docFreq : ℕ} {top smi : SegmentMergeInfo E} {rest : List (SegmentMergeInfo E)}

theorem collect_of_eq_done (h : top.hasNextTerm = some none) :
    collect maxSize top.term docFreq (top :: rest)
      = collect maxSize top.term (docFreq + documentFrequency top.termEnum)
          (pop lessThan (top :: rest)) := by
  rw [collect, if_pos (Term.compare_eq_iff.2 rfl)]
  split <;> simp_all

theorem collect_of_eq_next (h : top.hasNextTerm = some (some smi)) :
    collect maxSize top.term docFreq (top :: rest)
      = collect maxSize top.term (docFreq + documentFrequency top.termEnum)
          (put lessThan maxSize smi (pop lessThan (top :: rest))) := by
  rw [collect, if_pos (Term.compare_eq_iff.2 rfl)]
  split <;> simp_all

theorem weight_collect {term : Term} {queue : List (SegmentMergeInfo E)}
    {p : ℕ × List (SegmentMergeInfo E)} (h : collect maxSize term docFreq queue = some p) :
    weight p.2 ≤ weight queue := by
  fun_induction collect maxSize term docFreq queue with
  | case1 =>
    rw [← some.inj h]
  | case2 => cases h
  | case3 docFreq top rest _ hnext ih => exact (ih h).trans (weight_pop top rest).le
  | case4 docFreq top rest _ top' hnext ih => exact (ih h).trans (weight_put hnext).le
  | case5 =>
    rw [← some.inj h]

theorem weight_collect_top {p : ℕ × List (SegmentMergeInfo E)}
    (h : collect maxSize top.term docFreq (top :: rest) = some p) :
    weight p.2 < weight (top :: rest) := by
  rcases hnext : top.hasNextTerm with _ | _ | smi
  · rw [collect, if_pos (Term.compare_eq_iff.2 rfl)] at h
    split at h <;> simp_all
  · rw [collect_of_eq_done hnext] at h
    exact (weight_collect h).trans_lt (weight_pop top rest)
  · rw [collect_of_eq_next hnext] at h
    exact (weight_collect h).trans_lt (weight_put hnext)

end weight

instance : TermEnumerator (MultiTermEnumerator E) where
  term := term
  documentFrequency := docFreq
  hasNextTerm := hasNextTerm
  remaining m := weight m.queue
  isSome_term {m m'} h := by
    unfold hasNextTerm at h
    split at h
    · cases h
    · obtain ⟨p, -, hp⟩ := map_eq_some_iff.1 h
      rw [Prod.mk.injEq] at hp
      rw [← hp.2]
      rfl
  remaining_lt {m m'} h := by
    unfold hasNextTerm at h
    split at h
    · cases h
    · rename_i top rest hqueue
      obtain ⟨p, hcollect, hp⟩ := map_eq_some_iff.1 h
      rw [Prod.mk.injEq] at hp
      rw [← hp.2, hqueue]
      exact weight_collect_top hcollect

/-- With a start term the enumerator of a sub-reader is put where it is, if it has a term. -/
def mergeInfo (t : Option Term) (base : ℕ) (reader : TermReader E) :
    Option (Option (SegmentMergeInfo E)) :=
  match t with
  | some t => (reader.termEnumeratorWithTerm t).map fun e =>
      (TermEnumerator.term e).map fun term => ⟨base, e, term⟩
  | none => next base reader.termEnumerator

def initQueue (maxSize : ℕ) (t : Option Term) :
    List (ℕ × TermReader E) → List (SegmentMergeInfo E) → Option (List (SegmentMergeInfo E))
  | [], queue => some queue
  | (base, reader) :: readers, queue => do
    match ← mergeInfo t base reader with
    | some smi => initQueue maxSize t readers (put lessThan maxSize smi queue)
    | none => initQueue maxSize t readers queue

def initWithReaders (readers : List (ℕ × TermReader E)) (t : Option Term) :
    Option (MultiTermEnumerator E) := do
  let queue ← initQueue readers.length t readers []
  let m : MultiTermEnumerator E := { queue, maxSize := readers.length, term := none, docFreq := 0 }
  if t.isSome ∧ 0 < queue.length then
    let next ← m.hasNextTerm
    return next.2
  else return m

def ShowsTerm {E : Type} [TermEnumerator E] (e : E) (a : Term × ℕ) : Prop :=
  TermEnumerator.term e = some a.1 ∧ documentFrequency e = a.2

def IncreasingTerms (l : List (Term × ℕ)) : Prop := l.Pairwise fun a b => a.1 < b.1

omit [Collation] in
theorem ShowsTerm.unique {e : E} {a a' : Term × ℕ} (h : ShowsTerm e a) (h' : ShowsTerm e a') :
    a = a' :=
  Prod.ext (some.inj (h.1.symm.trans h'.1)) (h.2.symm.trans h'.2)

def current (smi : SegmentMergeInfo E) : Term × ℕ :=
  (smi.term, documentFrequency smi.termEnum)

/-- After its current term the enumerator of an info goes through the list. -/
structure Ahead (smi : SegmentMergeInfo E) (l : List (Term × ℕ)) : Prop where
  goesOn : GoesOn ShowsTerm smi.termEnum l
  increasing : IncreasingTerms (current smi :: l)

theorem Ahead.unique {smi : SegmentMergeInfo E} {l l' : List (Term × ℕ)} (h : Ahead smi l)
    (h' : Ahead smi l') : l = l' :=
  h.goesOn.unique (fun _ _ _ ha ha' => ha.unique ha') h'.goesOn

open scoped Classical in
noncomputable def listed (smi : SegmentMergeInfo E) : List (Term × ℕ) :=
  if h : ∃ l, Ahead smi l then current smi :: h.choose else []

variable {l : List (Term × ℕ)}

theorem Ahead.listed_eq {smi : SegmentMergeInfo E} (h : Ahead smi l) :
    listed smi = current smi :: l := by
  have hex : ∃ l, Ahead smi l := ⟨l, h⟩
  unfold listed
  rw [dif_pos hex, hex.choose_spec.unique h]

noncomputable def allListed (queue : List (SegmentMergeInfo E)) : List (Term × ℕ) :=
  queue.flatMap listed

structure Queued (maxSize : ℕ) (queue : List (SegmentMergeInfo E)) : Prop where
  heap : IsHeap key queue
  length : queue.length ≤ maxSize
  ahead : ∀ smi ∈ queue, ∃ l, Ahead smi l

variable {maxSize : ℕ} {top smi : SegmentMergeInfo E} {queue rest : List (SegmentMergeInfo E)}

theorem Queued.put (h : Queued maxSize queue) (hlt : queue.length < maxSize)
    (hsmi : ∃ l, Ahead smi l) : Queued maxSize (put lessThan maxSize smi queue) where
  heap := h.heap.put lessThan_iff
  length := by
    rw [(put_perm hlt).length_eq]
    exact hlt
  ahead x hx := by
    rcases mem_cons.1 ((put_perm hlt).mem_iff.1 hx) with rfl | hx
    · exact hsmi
    · exact h.ahead x hx

theorem Queued.pop (h : Queued maxSize (top :: rest)) :
    Queued maxSize (pop lessThan (top :: rest)) where
  heap := h.heap.pop lessThan_iff
  length := by
    have hlength := h.length
    rw [length_cons] at hlength
    rw [pop_perm.length_eq]
    omega
  ahead x hx := h.ahead x (mem_cons_of_mem top (pop_perm.mem_iff.1 hx))

theorem Queued.term_le (h : Queued maxSize (top :: rest)) :
    ∀ a ∈ allListed (top :: rest), top.term ≤ a.1 := by
  intro a ha
  obtain ⟨smi, hsmi, ha⟩ := mem_flatMap.1 ha
  obtain ⟨l, hl⟩ := h.ahead smi hsmi
  have htop : top.term ≤ smi.term := by
    have hle := h.heap.top_le smi hsmi
    rcases Prod.Lex.le_iff.1 hle with hlt | heq
    · exact le_of_lt hlt
    · exact le_of_eq heq.1
  rw [hl.listed_eq] at ha
  rcases mem_cons.1 ha with rfl | ha
  · exact htop
  · exact htop.trans ((pairwise_cons.1 hl.increasing).1 a ha).le

/-- An enumerator that goes through a list is at its end, or at the first pair of it next. -/
theorem next_of_goesOn {base : ℕ} {e : E} : ∀ {l : List (Term × ℕ)}, GoesOn ShowsTerm e l →
    IncreasingTerms l → (l = [] ∧ SegmentMergeInfo.next base e = some none)
      ∨ ∃ smi l', SegmentMergeInfo.next base e = some (some smi) ∧ l = current smi :: l'
        ∧ Ahead smi l'
  | [], ⟨e', hnext⟩, _ => by
    left
    refine ⟨rfl, ?_⟩
    unfold SegmentMergeInfo.next
    split <;> simp_all
  | a :: l, ⟨e', hnext, hshows, hgo⟩, hinc => by
    right
    have hcurrent : current (⟨base, e', a.1⟩ : SegmentMergeInfo E) = a := Prod.ext rfl hshows.2
    refine ⟨⟨base, e', a.1⟩, l, ?_, by rw [hcurrent], hgo, by rwa [hcurrent]⟩
    unfold SegmentMergeInfo.next
    split
    · simp_all
    · simp_all
    · rename_i e'' hnext'
      obtain rfl : e' = e'' := by
        rw [hnext] at hnext'
        cases hnext'
        rfl
      simp only [hshows.1, get_some]

theorem allListed_perm {queue' : List (SegmentMergeInfo E)} (h : queue.Perm queue') :
    (allListed queue).Perm (allListed queue') := h.flatMap_right listed

theorem Ahead.allListed_cons (h : Ahead top l) :
    allListed (top :: rest) = current top :: (l ++ allListed rest) := by
  rw [allListed, flatMap_cons, h.listed_eq, cons_append]
  rfl

theorem Queued.turn (docFreq : ℕ) {l : List (Term × ℕ)} (h : Queued maxSize (top :: rest))
    (hl : Ahead top l) :
    ∃ queue, collect maxSize top.term docFreq (top :: rest)
        = collect maxSize top.term (docFreq + documentFrequency top.termEnum) queue
      ∧ Queued maxSize queue ∧ weight queue < weight (top :: rest)
      ∧ (allListed queue).Perm (l ++ allListed rest) := by
  have hlength := h.length
  have hpop : (PriorityQueue.pop lessThan (top :: rest)).length = rest.length := pop_perm.length_eq
  rw [length_cons] at hlength
  rcases next_of_goesOn hl.goesOn (pairwise_cons.1 hl.increasing).2 with
    ⟨rfl, hnext⟩ | ⟨smi, l', hnext, rfl, hsmi⟩
  · exact ⟨_, collect_of_eq_done hnext, h.pop, weight_pop top rest, allListed_perm pop_perm⟩
  · refine ⟨_, collect_of_eq_next hnext, h.pop.put (by omega) ⟨l', hsmi⟩, weight_put hnext, ?_⟩
    refine (allListed_perm (put_perm (by omega))).trans ?_
    rw [hsmi.allListed_cons, cons_append]
    exact ((allListed_perm pop_perm).append_left l').cons _

theorem Queued.collect {term : Term} : ∀ {queue : List (SegmentMergeInfo E)},
    Queued maxSize queue → ∀ docFreq, (∀ a ∈ allListed queue, term ≤ a.1) →
      ∃ queue', collect maxSize term docFreq queue
          = some (docFreq + total term (allListed queue), queue')
        ∧ Queued maxSize queue'
        ∧ (allListed queue').Perm ((allListed queue).filter fun a => a.1 ≠ term)
  | [], h, docFreq, _ => by
    refine ⟨[], ?_, h, Perm.refl _⟩
    unfold MultiTermEnumerator.collect
    rfl
  | top :: rest, h, docFreq, hle => by
    obtain ⟨l, hl⟩ := h.ahead top mem_cons_self
    rw [hl.allListed_cons] at hle ⊢
    rcases eq_or_ne term top.term with rfl | hne
    · obtain ⟨queue, heq, hqueue, hweight, hperm⟩ := h.turn docFreq hl
      obtain ⟨queue', hcollect, hqueue', hrest⟩ := hqueue.collect _ (fun a ha =>
        hle a (mem_cons_of_mem _ (hperm.mem_iff.1 ha)))
      refine ⟨queue', ?_, hqueue', ?_⟩
      · rw [heq, hcollect, total_perm hperm, current, total_cons_self, Nat.add_assoc]
      · rw [filter_cons_of_neg (by simp [current])]
        exact hrest.trans (hperm.filter _)
    · have hlt : term < top.term := lt_of_le_of_ne (hle _ mem_cons_self) hne
      have hall : ∀ a ∈ current top :: (l ++ allListed rest), a.1 ≠ term := by
        rw [← hl.allListed_cons]
        exact fun a ha => (hlt.trans_le (h.term_le a ha)).ne'
      refine ⟨top :: rest, ?_, h, ?_⟩
      · rw [MultiTermEnumerator.collect, if_neg (mt Term.compare_eq_iff.1 hne),
          total_eq_zero hall, Nat.add_zero]
      · rw [filter_eq_self.2 fun a ha => by simpa using hall a ha, hl.allListed_cons]
  termination_by queue => weight queue

theorem Queued.hasNextTerm {m : MultiTermEnumerator E} (h : Queued m.maxSize m.queue)
    (hqueue : m.queue = top :: rest) :
    ∃ m', m.hasNextTerm = some (true, m')
      ∧ ShowsTerm m' (top.term, total top.term (allListed m.queue))
      ∧ Queued m'.maxSize m'.queue
      ∧ (allListed m'.queue).Perm ((allListed m.queue).filter fun a => a.1 ≠ top.term) := by
  rw [hqueue] at h ⊢
  obtain ⟨queue', hcollect, hqueue', hperm⟩ := h.collect 0 h.term_le
  rw [Nat.zero_add] at hcollect
  let m' : MultiTermEnumerator E :=
    { m with
      queue := queue'
      term := some top.term
      docFreq := total top.term (allListed (top :: rest)) }
  refine ⟨m', ?_, ⟨rfl, rfl⟩, hqueue', hperm⟩
  unfold MultiTermEnumerator.hasNextTerm
  rw [hqueue]
  simp only [hcollect, map_some]
  rfl

theorem Queued.goesOn {m : MultiTermEnumerator E} (h : Queued m.maxSize m.queue) :
    ∃ U, IsUnion (allListed m.queue) U ∧ GoesOn ShowsTerm m U := by
  rcases hqueue : m.queue with _ | ⟨top, rest⟩
  · refine ⟨[], IsUnion.nil, { m with term := none }, ?_⟩
    show m.hasNextTerm = _
    unfold MultiTermEnumerator.hasNextTerm
    rw [hqueue]
  · obtain ⟨m', hnext, hshows, hqueued, hperm⟩ := h.hasNextTerm hqueue
    obtain ⟨U, hU, hgo⟩ := hqueued.goesOn
    obtain ⟨l, hl⟩ := h.ahead top (hqueue ▸ mem_cons_self)
    have hmem : ∃ a ∈ allListed (top :: rest), a.1 = top.term := by
      rw [hl.allListed_cons]
      exact ⟨_, mem_cons_self, rfl⟩
    rw [hqueue] at h hshows hperm
    exact ⟨_, (hU.perm hperm).cons hmem h.term_le, m', hnext, hshows, hgo⟩
  termination_by remaining m
  decreasing_by exact remaining_lt hnext

/-- The enumerator that a sub-reader is asked for goes through the list. -/
def Starts (t : Option Term) (reader : TermReader E) (l : List (Term × ℕ)) : Prop :=
  match t with
  | some t => ∃ e, reader.termEnumeratorWithTerm t = some e ∧ Enumerates ShowsTerm e l
  | none => GoesOn ShowsTerm reader.termEnumerator l

theorem mergeInfo_of_starts {t : Option Term} {reader : TermReader E} (base : ℕ) (h : Starts t reader l) (hl : IncreasingTerms l) :
    (l = [] ∧ mergeInfo t base reader = some none)
      ∨ ∃ smi l', mergeInfo t base reader = some (some smi) ∧ l = current smi :: l'
        ∧ Ahead smi l' := by
  rcases t with _ | t
  · exact next_of_goesOn h hl
  · obtain ⟨e, he, henum⟩ := h
    rcases l with _ | ⟨a, l⟩
    · left
      refine ⟨rfl, ?_⟩
      have hterm : TermEnumerator.term e = none := henum
      simp only [mergeInfo, he, map_some, hterm, map_none]
    · right
      obtain ⟨hshows, hgo⟩ := henum
      have hcurrent : current (⟨base, e, a.1⟩ : SegmentMergeInfo E) = a := Prod.ext rfl hshows.2
      refine ⟨⟨base, e, a.1⟩, l, ?_, by rw [hcurrent], hgo, by rwa [hcurrent]⟩
      simp only [mergeInfo, he, map_some, hshows.1]

theorem Queued.initQueue {t : Option Term} : ∀ {readers : List (ℕ × TermReader E)}
    {ls : List (List (Term × ℕ))} {queue : List (SegmentMergeInfo E)}, Queued maxSize queue →
      queue.length + readers.length ≤ maxSize →
      Forall₂ (fun p l => Starts t p.2 l ∧ IncreasingTerms l) readers ls →
      ∃ queue', initQueue maxSize t readers queue = some queue' ∧ Queued maxSize queue'
        ∧ (allListed queue').Perm (allListed queue ++ ls.flatten)
  | [], [], queue, h, _, Forall₂.nil => ⟨queue, rfl, h, by simp⟩
  | (base, reader) :: readers, l :: ls, queue, h, hlength, Forall₂.cons ⟨hl, hinc⟩ hls => by
    rw [length_cons] at hlength
    rw [flatten_cons]
    rcases mergeInfo_of_starts base hl hinc with ⟨rfl, hinfo⟩ | ⟨smi, l', hinfo, rfl, hsmi⟩
    · obtain ⟨queue', hinit, hqueue', hperm⟩ := h.initQueue (by omega) hls
      refine ⟨queue', ?_, hqueue', hperm⟩
      unfold MultiTermEnumerator.initQueue
      rw [hinfo]
      exact hinit
    · have hput := @put_perm _ lessThan maxSize smi queue (by omega)
      have hlength' := hput.length_eq
      rw [length_cons] at hlength'
      obtain ⟨queue', hinit, hqueue', hperm⟩ :=
        (h.put (by omega) ⟨l', hsmi⟩).initQueue (by omega) hls
      refine ⟨queue', ?_, hqueue', hperm.trans ?_⟩
      · unfold MultiTermEnumerator.initQueue
        rw [hinfo]
        exact hinit
      · have hlisted := allListed_perm hput
        rw [hsmi.allListed_cons] at hlisted
        have hcomm := @perm_append_comm _ (current smi :: l') (allListed queue)
        rw [← append_assoc]
        exact (hlisted.trans hcomm).append_right _

theorem exists_of_initQueue {t : Term} : ∀ {readers : List (ℕ × TermReader E)}
    {queue queue' : List (SegmentMergeInfo E)},
    initQueue maxSize (some t) readers queue = some queue' →
      ∀ p ∈ readers, ∃ e, p.2.termEnumeratorWithTerm t = some e
  | (base, reader) :: readers, queue, queue', h, p, hp => by
    unfold MultiTermEnumerator.initQueue at h
    obtain ⟨info, hinfo, hrest⟩ := bind_eq_some_iff.1 h
    obtain ⟨e, he, -⟩ := map_eq_some_iff.1 hinfo
    rcases mem_cons.1 hp with rfl | hp
    · exact ⟨e, he⟩
    · rcases info with _ | smi
      · exact exists_of_initQueue hrest p hp
      · exact exists_of_initQueue hrest p hp

/-- At the first term, where a start term is given, and else before it. -/
def EnumeratesFrom (t : Option Term) (m : MultiTermEnumerator E) (U : List (Term × ℕ)) : Prop :=
  if t.isSome then Enumerates ShowsTerm m U else GoesOn ShowsTerm m U

theorem initWithReaders_of_starts {t : Option Term} {readers : List (ℕ × TermReader E)}
    {ls : List (List (Term × ℕ))}
    (h : Forall₂ (fun p l => Starts t p.2 l ∧ IncreasingTerms l) readers ls) :
    ∃ m U, initWithReaders readers t = some m ∧ IsUnion ls.flatten U ∧ EnumeratesFrom t m U := by
  have hnil : Queued readers.length ([] : List (SegmentMergeInfo E)) :=
    ⟨fun k x p hx => by simp at hx, Nat.zero_le _, nofun⟩
  obtain ⟨queue, hinit, hqueue, hperm⟩ := hnil.initQueue (by simp) h
  let m : MultiTermEnumerator E := { queue, maxSize := readers.length, term := none, docFreq := 0 }
  have hm : Queued m.maxSize m.queue := hqueue
  obtain ⟨U, hU, hgo⟩ := hm.goesOn
  have hunion : IsUnion ls.flatten U := hU.perm hperm
  unfold initWithReaders EnumeratesFrom
  simp only [hinit, bind_eq_bind, bind_some]
  rcases t with _ | t
  · exact ⟨m, U, rfl, hunion, hgo⟩
  · rcases queue with _ | ⟨top, rest⟩
    · exact ⟨m, [], rfl, IsUnion.nil.perm hperm, rfl⟩
    · obtain ⟨m', hnext, hshows, -, -⟩ := hm.hasNextTerm rfl
      rcases U with _ | ⟨a, U⟩
      · obtain ⟨m'', hend⟩ := hgo
        cases hnext.symm.trans hend
      · obtain ⟨m'', hnext', hfirst, hgo⟩ := hgo
        have hmulti : m.hasNextTerm = some (true, m'') := hnext'
        refine ⟨m'', a :: U, ?_, hunion, hfirst, hgo⟩
        rw [if_pos ⟨rfl, Nat.succ_pos _⟩]
        show (m.hasNextTerm).bind _ = _
        rw [hmulti]
        rfl

end MultiTermEnumerator

end Etoile.Lucene
