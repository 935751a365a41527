import Etoile.Lucene.PriorityQueue
import Etoile.Lucene.Term

/-!
# The terms of a multi-term query

What prefix, range, wildcard and fuzzy queries enumerate, and what they put into the boolean query
that they are rewritten to.
-/

namespace Etoile.Lucene

open List PriorityQueue

/-- `F` are the numbers of boosts and similarities. -/
inductive MultiTermQuery (F : Type)
  | prefixed (term : Term)
  | range (lowerTerm : Term) (upperTerm : Option NSString) (inclusive : Bool)
  | wildcard (term : Term)
  | fuzzy (term : Term) (minimumSimilarity : F) (prefixLength : ℕ)

structure QueryReader (F : Type) where
  /-- `-termEnumeratorWithTerm:` goes through these. -/
  termsFrom : Term → List Term
  termDocuments : Term → Set ℕ
  wildcardEqualsTo : (pattern text : NSString) → Bool
  /-- `-similarity:`, for the prefix, the rest of the term and the minimum of an enumerator. -/
  similarity : (prefixed text : NSString) → F → NSString → F
  /-- `-difference`, for a similarity and the minimum. -/
  difference : F → F → F

variable {F : Type}

/-- `-hasPrefix:`, which says no to the empty string. -/
def NSString.hasPrefix (s start : NSString) : Bool := !start.isEmpty && start.isPrefixOf s

section Range

variable [Collation]

def beyond (upperTerm : Option NSString) (inclusive : Bool) (term : Term) : Bool :=
  match upperTerm with
  | none => false
  | some upper => Collated.mk upper < ⟨term.text⟩ || (!inclusive && upper = term.text)

/-- The loop of a range query; `checkLower` while the lower term may still come. -/
def rangeTerms (lowerTerm : Term) (upperTerm : Option NSString) (inclusive : Bool) :
    (checkLower : Bool) → List Term → List Term
  | _, [] => []
  | checkLower, term :: rest =>
    if term.field = lowerTerm.field then
      if checkLower = false ∨ Collated.mk lowerTerm.text < ⟨term.text⟩ then
        if beyond upperTerm inclusive term then []
        else term :: rangeTerms lowerTerm upperTerm inclusive false rest
      else rangeTerms lowerTerm upperTerm inclusive checkLower rest
    else []

def InRange (lowerTerm : Term) (upperTerm : Option NSString) (inclusive : Bool) (t : Term) : Prop :=
  t.field = lowerTerm.field
    ∧ (if inclusive then Collated.mk lowerTerm.text ≤ ⟨t.text⟩
      else Collated.mk lowerTerm.text < ⟨t.text⟩)
    ∧ beyond upperTerm inclusive t = false

variable {lowerTerm t u : Term} {upperTerm : Option NSString} {inclusive checkLower : Bool}
  {terms : List Term}

theorem Term.field_le (h : t ≤ u) : Collated.mk t.field ≤ ⟨u.field⟩ := by
  rcases h.lt_or_eq with hlt | rfl
  · rcases Term.lt_iff.1 hlt with hlt | ⟨hfield, -⟩
    · exact hlt.le
    · rw [hfield]
  · exact le_rfl

theorem Term.text_le (h : t ≤ u) (hfield : t.field = u.field) : Collated.mk t.text ≤ ⟨u.text⟩ := by
  rcases h.lt_or_eq with hlt | rfl
  · rcases Term.lt_iff.1 hlt with hlt | ⟨-, htext⟩
    · rw [hfield] at hlt
      exact absurd hlt (lt_irrefl _)
    · exact htext.le
  · exact le_rfl

theorem beyond_mono (h : t ≤ u) (hfield : t.field = u.field)
    (hbeyond : beyond upperTerm inclusive t) : beyond upperTerm inclusive u := by
  have htext := Term.text_le h hfield
  unfold beyond at hbeyond ⊢
  cases upperTerm with
  | none => exact hbeyond
  | some upper =>
    simp only [Bool.or_eq_true, decide_eq_true_eq, Bool.and_eq_true] at hbeyond ⊢
    rcases hbeyond with hlt | ⟨hexcl, rfl⟩
    · exact .inl (hlt.trans_le htext)
    · rcases htext.lt_or_eq with hlt | heq
      · exact .inl hlt
      · exact .inr ⟨hexcl, congrArg Collated.string heq⟩

theorem Term.field_eq_of_between (hlower : lowerTerm ≤ t) (h : t ≤ u)
    (hfield : u.field = lowerTerm.field) : t.field = lowerTerm.field := by
  have h₁ := Term.field_le hlower
  have h₂ := Term.field_le h
  rw [hfield] at h₂
  exact congrArg Collated.string (le_antisymm h₂ h₁)

theorem mem_rangeTerms : ∀ {checkLower : Bool} {terms : List Term}, terms.Pairwise (· < ·) →
    (∀ t ∈ terms, lowerTerm ≤ t) → (checkLower = true → inclusive = false) →
    (checkLower = false → inclusive = false → ∀ t ∈ terms, lowerTerm < t) →
      (t ∈ rangeTerms lowerTerm upperTerm inclusive checkLower terms
        ↔ t ∈ terms ∧ InRange lowerTerm upperTerm inclusive t)
  | _, [], _, _, _, _ => by simp [rangeTerms]
  | checkLower, term :: rest, hsorted, hlower, hcheck, hpast => by
    obtain ⟨hhead, htail⟩ := pairwise_cons.1 hsorted
    have hle := hlower term (by simp)
    have hbetween : ∀ u ∈ term :: rest, term ≤ u := by
      intro u hu
      rcases mem_cons.1 hu with rfl | hu
      · exact le_rfl
      · exact (hhead u hu).le
    rw [rangeTerms]
    split_ifs with hfield hlow hbeyond
    · refine iff_of_false (by simp) ?_
      rintro ⟨hmem, hf, -, hnot⟩
      rw [beyond_mono (hbetween t hmem) (hfield.trans hf.symm) hbeyond] at hnot
      cases hnot
    · have hin : InRange lowerTerm upperTerm inclusive term := by
        refine ⟨hfield, ?_, by simpa using hbeyond⟩
        cases inclusive with
        | true => exact Term.text_le hle hfield.symm
        | false =>
          rcases hlow with hoff | hlt
          · exact (Term.lt_iff.1 (hpast hoff rfl term (by simp))).resolve_left
              (congrArg Collated.mk hfield).le.not_gt |>.2
          · exact hlt
      have hrest : t ∈ rangeTerms lowerTerm upperTerm inclusive false rest
          ↔ t ∈ rest ∧ InRange lowerTerm upperTerm inclusive t :=
        mem_rangeTerms htail (fun u hu => hlower u (by simp [hu])) (by simp)
          fun _ _ u hu => hle.trans_lt (hhead u hu)
      rw [mem_cons, mem_cons, hrest]
      constructor
      · rintro (rfl | h)
        · exact ⟨.inl rfl, hin⟩
        · exact ⟨.inr h.1, h.2⟩
      · rintro ⟨rfl | h, ht⟩
        · exact .inl rfl
        · exact .inr ⟨h, ht⟩
    · rw [not_or, Bool.not_eq_false] at hlow
      have hskip : ¬ InRange lowerTerm upperTerm inclusive term := by
        rintro ⟨-, h, -⟩
        rw [hcheck hlow.1] at h
        exact hlow.2 h
      rw [mem_rangeTerms htail (fun u hu => hlower u (by simp [hu])) hcheck
        fun hoff => absurd hlow.1 (by simp [hoff]), mem_cons]
      refine ⟨fun h => ⟨.inr h.1, h.2⟩, ?_⟩
      rintro ⟨rfl | h, ht⟩
      · exact absurd ht hskip
      · exact ⟨h, ht⟩
    · refine iff_of_false (by simp) ?_
      rintro ⟨hmem, hf, -⟩
      exact hfield (Term.field_eq_of_between hle (hbetween t hmem) hf)

end Range

/-- `-hasNextTerm` of a filtered enumerator, over the terms behind the current one: the first that
is equal, unless the end comes first. -/
def nextTerm (inField isEqual : Term → Bool) : List Term → Option (Term × List Term)
  | [] => none
  | term :: rest =>
    if inField term then
      if isEqual term then some (term, rest) else nextTerm inField isEqual rest
    else none

theorem nextTerm_lt {inField isEqual : Term → Bool} : ∀ {terms : List Term} {term : Term}
    {rest : List Term}, nextTerm inField isEqual terms = some (term, rest) →
      rest.length < terms.length
  | [], _, _, h => by simp [nextTerm] at h
  | t :: terms, _, _, h => by
    rw [nextTerm] at h
    split_ifs at h
    · obtain ⟨-, rfl⟩ := Prod.mk.inj (Option.some.inj h)
      exact Nat.lt_succ_self _
    · exact (nextTerm_lt h).trans (Nat.lt_succ_self _)

/-- The terms that a filtered enumerator shows; `-setEnumerator:` looks at the first like
`-hasNextTerm` at the others. -/
def filteredTerms (inField isEqual : Term → Bool) (terms : List Term) : List Term :=
  match _h : nextTerm inField isEqual terms with
  | none => []
  | some (term, rest) => term :: filteredTerms inField isEqual rest
  termination_by terms.length
  decreasing_by exact nextTerm_lt _h

structure ScoreTerm (F : Type) where
  term : Term
  score : F

section Queue

variable [LinearOrder F] [Zero F] [Collation]

def ScoreTerm.lessThan (a b : ScoreTerm F) : Bool :=
  if a.score = b.score then a.term.compare b.term = .lt else a.score < b.score

/-- `-insert:`. -/
def insertScoreTerm (maxSize : ℕ) (element : ScoreTerm F) (heap : List (ScoreTerm F)) :
    List (ScoreTerm F) :=
  if heap.length < maxSize then put ScoreTerm.lessThan maxSize element heap
  else match heap with
    | [] => []
    | top :: rest =>
      if element.lessThan top then top :: rest
      else downHeap ScoreTerm.lessThan (element :: rest)

/-- The terms that are kept: `minScore` is 0 again for every term. -/
def queueTerms (maxSize : ℕ) : List (ScoreTerm F) → List (ScoreTerm F) → List (ScoreTerm F)
  | heap, [] => heap
  | heap, term :: terms =>
    queueTerms maxSize (if heap.length < maxSize ∨ 0 < term.score then
      insertScoreTerm maxSize term heap else heap) terms

/-- `-pop` for as many elements as there are. -/
def popTerms : ℕ → List (ScoreTerm F) → List (ScoreTerm F)
  | 0, _ => []
  | _ + 1, [] => []
  | size + 1, top :: rest =>
    top :: popTerms size (pop ScoreTerm.lessThan (top :: rest))

omit [Zero F] in
theorem popTerms_perm : ∀ {size : ℕ} {heap : List (ScoreTerm F)}, heap.length = size →
    (popTerms size heap).Perm heap
  | 0, heap, h => by
    rw [length_eq_zero_iff.1 h]
    exact .nil
  | size + 1, [], h => by cases h
  | size + 1, top :: rest, h => by
    have hpop : (pop ScoreTerm.lessThan (top :: rest)).Perm rest :=
      pop_perm
    rw [popTerms]
    refine .cons top ((popTerms_perm ?_).trans hpop)
    rw [hpop.length_eq]
    exact Nat.succ.inj h

theorem queueTerms_perm {maxSize : ℕ} : ∀ {terms heap : List (ScoreTerm F)},
    heap.length + terms.length ≤ maxSize → (queueTerms maxSize heap terms).Perm (heap ++ terms)
  | [], heap, _ => by simp [queueTerms]
  | term :: terms, heap, h => by
    rw [length_cons] at h
    have hlt : heap.length < maxSize := by omega
    have hput : (put ScoreTerm.lessThan maxSize term heap).Perm (term :: heap) :=
      put_perm hlt
    rw [queueTerms, if_pos (.inl hlt)]
    unfold insertScoreTerm
    rw [if_pos hlt]
    have hlength := hput.length_eq
    rw [length_cons] at hlength
    refine (queueTerms_perm (by omega)).trans ?_
    exact (hput.append_right terms).trans perm_middle.symm

end Queue

namespace MultiTermQuery

variable [LinearOrder F] [Zero F] [One F] [Collation] (reader : QueryReader F)

def enumerated : MultiTermQuery F → List (ScoreTerm F)
  | prefixed p => ((reader.termsFrom p).takeWhile fun t =>
      t.text.hasPrefix p.text && t.field = p.field).map fun t => ⟨t, 1⟩
  | range lowerTerm upperTerm inclusive =>
    (rangeTerms lowerTerm upperTerm inclusive (!inclusive) (reader.termsFrom lowerTerm)).map
      fun t => ⟨t, 1⟩
  | wildcard term =>
    (filteredTerms (fun t => t.field = term.field)
      (fun t => reader.wildcardEqualsTo term.text t.text)
      (reader.termsFrom ⟨term.field, []⟩)).map fun t => ⟨t, 1⟩
  | fuzzy term minimumSimilarity prefixLength =>
    if 0 ≤ minimumSimilarity ∧ minimumSimilarity < 1 then
      let start := term.text.take prefixLength
      let text := term.text.drop prefixLength
      let similarity := fun t : Term =>
        reader.similarity start text minimumSimilarity (t.text.drop start.length)
      (filteredTerms (fun t => t.field = term.field && (t.text.hasPrefix start || start.isEmpty))
        (fun t => minimumSimilarity < similarity t) (reader.termsFrom ⟨term.field, start⟩)).map
          fun t => ⟨t, reader.difference (similarity t) minimumSimilarity⟩
    else []

/-- The terms in the order in which they are added; a fuzzy query goes through its queue. -/
def added (maxClauseCount : ℕ) : MultiTermQuery F → List (ScoreTerm F)
  | fuzzy term minimumSimilarity prefixLength =>
    let stQueue := queueTerms maxClauseCount []
      ((fuzzy term minimumSimilarity prefixLength).enumerated reader)
    popTerms stQueue.length stQueue
  | m => m.enumerated reader

theorem added_perm {maxClauseCount : ℕ} : ∀ {m : MultiTermQuery F},
    (m.enumerated reader).length ≤ maxClauseCount →
      (m.added reader maxClauseCount).Perm (m.enumerated reader)
  | prefixed _, _ => .refl _
  | range .., _ => .refl _
  | wildcard _, _ => .refl _
  | fuzzy .., h => by
    exact (popTerms_perm rfl).trans (queueTerms_perm (by simpa using h))

end MultiTermQuery

end Etoile.Lucene
