import Etoile.Lucene.QueryRewriting

/-!
# What rewriting does to the meaning of a query

A query in the store is the tree of its clauses.  Rewriting it goes over to another tree, which
matches the same documents wherever no query of one prohibited clause, no minimum of optional
clauses above rewritten ones, and no more terms than there may be clauses are met.
-/

namespace Etoile.Lucene

inductive Query (F : Type)
  | term (term : Term) (boost : F)
  | multiTerm (query : MultiTermQuery F) (boost : F)
  | boolean (clauses : List (Occur × Query F)) (boost : F) (disableCoord : Bool)
      (minNrShouldMatch : ℤ)

variable {F : Type}

namespace Query

mutual
def depth : Query F → ℕ
  | term _ _ => 1
  | multiTerm _ _ => 1
  | boolean clauses _ _ _ => depthAll clauses + 1

def depthAll : List (Occur × Query F) → ℕ
  | [] => 0
  | (_, q) :: qs => max q.depth (depthAll qs)
end

mutual
def primitive : Query F → Bool
  | term _ _ => true
  | multiTerm _ _ => false
  | boolean clauses _ _ _ => primitiveAll clauses

def primitiveAll : List (Occur × Query F) → Bool
  | [] => true
  | (_, q) :: qs => q.primitive && primitiveAll qs
end

section Meaning

variable [LinearOrder F] [Zero F] [One F] [Mul F] [Collation] (reader : QueryReader F)
  (maxClauseCount : ℕ)

mutual
/-- The documents that a query denotes: a multi-term query the disjunction of the terms that it
enumerates, a boolean query its formula. -/
def Matches (d : ℕ) : Query F → Prop
  | term t _ => d ∈ reader.termDocuments t
  | multiTerm m _ => ∃ t ∈ m.enumerated reader, d ∈ reader.termDocuments t.term
  | boolean clauses _ _ min => BooleanFormula min (matchesAll d clauses)

def matchesAll (d : ℕ) : List (Occur × Query F) → List (Occur × Prop)
  | [] => []
  | (occur, q) :: qs => (occur, q.Matches d) :: matchesAll d qs
end

def FreeMinimum (clauses : List (Occur × Query F)) (min : ℤ) : Prop :=
  min ≤ 0 ∨ min ≤ 1 ∧ ∀ c ∈ clauses, c.1 ≠ .must

def SingleProhibited : List (Occur × Query F) → Prop
  | [(.mustNot, _)] => True
  | _ => False

mutual
def Sound : Query F → Prop
  | term _ _ => True
  | multiTerm m _ => (m.enumerated reader).length ≤ maxClauseCount
  | boolean clauses _ _ min => ¬ SingleProhibited clauses
      ∧ (primitiveAll clauses ∨ FreeMinimum clauses min) ∧ SoundAll clauses

def SoundAll : List (Occur × Query F) → Prop
  | [] => True
  | (_, q) :: qs => q.Sound ∧ SoundAll qs
end

def termClauses (boost : F) (terms : List (ScoreTerm F)) : List (Occur × Query F) :=
  terms.map fun t => (.should, term t.term (boost * t.score))

mutual
def rewritten : Query F → Query F
  | term t b => term t b
  | multiTerm m b => boolean (termClauses b (m.added reader maxClauseCount)) 1 true 0
  | boolean clauses b disableCoord min =>
    if primitiveAll clauses then boolean clauses b disableCoord min
    else boolean (rewrittenAll clauses) b false 0

def rewrittenAll : List (Occur × Query F) → List (Occur × Query F)
  | [] => []
  | (occur, q) :: qs => (occur, q.rewritten) :: rewrittenAll qs
end

theorem matchesAll_termClauses (d : ℕ) (boost : F) : ∀ terms : List (ScoreTerm F),
    matchesAll reader d (termClauses boost terms)
      = terms.map fun t => (.should, d ∈ reader.termDocuments t.term)
  | [] => rfl
  | t :: terms => by
    have htail := matchesAll_termClauses d boost terms
    rw [termClauses] at htail ⊢
    rw [List.map_cons, List.map_cons, matchesAll, Matches, htail]

omit [Mul F] in
theorem matchesAll_must {d : ℕ} : ∀ {clauses : List (Occur × Query F)},
    (∀ c ∈ clauses, c.1 ≠ .must) → ∀ c ∈ matchesAll reader d clauses, c.1 ≠ .must
  | [], _ => by simp [matchesAll]
  | (occur, q) :: qs, h => by
    intro c hc
    rw [matchesAll] at hc
    rcases List.mem_cons.1 hc with rfl | hc
    · exact h (occur, q) (by simp)
    · exact matchesAll_must (fun c hc => h c (by simp [hc])) c hc

mutual
theorem matches_rewritten (d : ℕ) : ∀ q : Query F, q.Sound reader maxClauseCount →
    ((q.rewritten reader maxClauseCount).Matches reader d ↔ q.Matches reader d)
  | term _ _, _ => by rw [rewritten]
  | multiTerm m b, h => by
    rw [Sound] at h
    rw [rewritten, Matches, Matches, matchesAll_termClauses,
      booleanFormula_disjunction fun t : ScoreTerm F => d ∈ reader.termDocuments t.term]
    have hmem := fun t => (m.added_perm reader h).mem_iff (a := t)
    simp only [hmem]
  | boolean clauses b disableCoord min, h => by
    rw [Sound] at h
    rw [rewritten]
    split_ifs with hp
    · rfl
    · have hmin : FreeMinimum clauses min := h.2.1.resolve_left hp
      rw [Matches, Matches, matchesAll_rewritten d clauses h.2.2]
      exact booleanFormula_zero_iff (hmin.imp id fun hm => ⟨hm.1, matchesAll_must reader hm.2⟩)

theorem matchesAll_rewritten (d : ℕ) : ∀ clauses : List (Occur × Query F),
    SoundAll reader maxClauseCount clauses →
      matchesAll reader d (rewrittenAll reader maxClauseCount clauses)
        = matchesAll reader d clauses
  | [], _ => by rw [rewrittenAll]
  | (occur, q) :: qs, h => by
    rw [SoundAll] at h
    rw [rewrittenAll, matchesAll, matchesAll, matchesAll_rewritten d qs h.2]
    rw [propext (matches_rewritten d q h.1)]
end

end Meaning

end Query

end Etoile.Lucene
