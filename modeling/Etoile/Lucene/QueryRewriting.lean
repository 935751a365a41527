import Etoile.Lucene.QueryTerms

/-!
# Boolean queries: their formulas, and how they are rewritten
-/

namespace Etoile.Lucene

inductive Occur
  | must
  | should
  | mustNot
  deriving DecidableEq

open Classical in
/-- What the clauses of a boolean query say of one document, for whether each of them matches it. -/
noncomputable def optionalMatches (clauses : List (Occur × Prop)) : ℕ :=
  (clauses.filter fun c => c.1 = .should ∧ c.2).length

/-- Every required clause matches, no prohibited one, and at least `min` of the optional ones; at
least one if there is no required clause. -/
structure BooleanFormula (min : ℤ) (clauses : List (Occur × Prop)) : Prop where
  required : ∀ c ∈ clauses, c.1 = .must → c.2
  prohibited : ∀ c ∈ clauses, c.1 = .mustNot → ¬ c.2
  minimum : min ≤ optionalMatches clauses
  optional : (∀ c ∈ clauses, c.1 ≠ .must) → 1 ≤ optionalMatches clauses

theorem booleanFormula_zero_iff {min : ℤ} {clauses : List (Occur × Prop)}
    (h : min ≤ 0 ∨ min ≤ 1 ∧ ∀ c ∈ clauses, c.1 ≠ .must) :
    BooleanFormula 0 clauses ↔ BooleanFormula min clauses := by
  refine ⟨fun hf => { hf with minimum := ?_ },
    fun hf => { hf with minimum := Int.natCast_nonneg _ }⟩
  rcases h with h | ⟨h, hnone⟩
  · have := Int.natCast_nonneg (optionalMatches clauses)
    omega
  · have := hf.optional hnone
    omega

theorem booleanFormula_disjunction {α : Type} (holds : α → Prop) (l : List α) :
    BooleanFormula 0 (l.map fun a => (.should, holds a)) ↔ ∃ a ∈ l, holds a := by
  have hcount : 1 ≤ optionalMatches (l.map fun a => (.should, holds a)) ↔ ∃ a ∈ l, holds a := by
    unfold optionalMatches
    rw [Nat.one_le_iff_ne_zero, Ne, List.length_eq_zero_iff, List.filter_eq_nil_iff]
    simp
  constructor
  · intro hf
    refine hcount.1 (hf.optional fun c hc => ?_)
    obtain ⟨a, -, rfl⟩ := List.mem_map.1 hc
    simp
  · intro h
    refine ⟨fun c hc hm => ?_, fun c hc hm => ?_, Int.natCast_nonneg _, fun _ => hcount.2 h⟩
    · obtain ⟨a, -, rfl⟩ := List.mem_map.1 hc
      cases hm
    · obtain ⟨a, -, rfl⟩ := List.mem_map.1 hc
      cases hm

end Etoile.Lucene

/-!
## Rewriting queries

The query objects, `-isEqual:` and `-rewrite:`.  Queries refer to each other, and the searcher asks
whether it got the same object back, so they are kept in a store.
-/

namespace Etoile.Lucene

open Function

structure BooleanClause where
  query : ℕ
  occur : Occur
  deriving DecidableEq

variable {F : Type}

/-- The term of a term query is nil after `-copy`. -/
inductive QueryKind (F : Type)
  | term (term : Option Term)
  | multiTerm (query : MultiTermQuery F)
  | boolean (clauses : List BooleanClause) (disableCoord : Bool) (minNrShouldMatch : ℤ)

structure QueryObject (F : Type) where
  boost : F
  kind : QueryKind F

structure QueryStore (F : Type) where
  object : ℕ → Option (QueryObject F)
  next : ℕ
  fresh : ∀ r, next ≤ r → object r = none

namespace QueryStore

def add (s : QueryStore F) (o : QueryObject F) : ℕ × QueryStore F where
  fst := s.next
  snd :=
    { object := update s.object s.next (some o)
      next := s.next + 1
      fresh := fun r hr => by
        rw [update_of_ne (by omega : r ≠ s.next)]
        exact s.fresh r (by omega) }

def setBoost (s : QueryStore F) (r : ℕ) (b : F) : QueryStore F where
  object := update s.object r ((s.object r).map fun o => { o with boost := b })
  next := s.next
  fresh r' hr' := by
    by_cases h : r' = r
    · subst h
      rw [update_self, s.fresh r' hr']
      rfl
    · rw [update_of_ne h, s.fresh r' hr']

/-- `-copyWithZone:` passes on the boost, and the clauses of a boolean query.  A multi-term query is
never copied: it is rewritten to one of another class. -/
def copy (s : QueryStore F) (o : QueryObject F) : Option (ℕ × QueryStore F) :=
  match o.kind with
  | .term _ => some (s.add ⟨o.boost, .term none⟩)
  | .multiTerm _ => none
  | .boolean clauses _ _ => some (s.add ⟨o.boost, .boolean clauses false 0⟩)

end QueryStore

section Equality

variable [LinearOrder F] [Collation]

def MultiTermQuery.isEqual (boost boost' : F) : MultiTermQuery F → MultiTermQuery F → Bool
  | prefixed p, prefixed p' => boost = boost' ∧ p = p'
  | range l u i, range l' u' i' => boost = boost' ∧ i = i' ∧ l = l' ∧ u = u'
  | wildcard t, wildcard t' => t = t'
  | fuzzy _ m n, fuzzy _ m' n' => m = m' ∧ n = n'
  | _, _ => false

/-- `-isEqualToArray:` of the clauses. -/
def equalClauses (isEqual : ℕ → ℕ → Option Bool) :
    List BooleanClause → List BooleanClause → Option Bool
  | [], [] => some true
  | c :: cs, c' :: cs' => do
    let same ← isEqual c.query c'.query
    if same = true ∧ c.occur = c'.occur then equalClauses isEqual cs cs' else some false
  | _, _ => some false

def equalObjects (isEqual : ℕ → ℕ → Option Bool) (r r' : ℕ) (o o' : QueryObject F) :
    Option Bool :=
  match o.kind, o'.kind with
  | .term t, .term t' => some (o.boost = o'.boost ∧ t.isSome ∧ t = t')
  | .multiTerm m, .multiTerm m' => some (r = r' ∨ m.isEqual o.boost o'.boost m')
  | .boolean cs _ min, .boolean cs' _ min' =>
    if o.boost = o'.boost then
      (equalClauses isEqual cs cs').map fun same => same = true ∧ min = min'
    else some false
  | _, _ => some false

/-- `-isEqual:`; `none` where the fuel runs out. -/
def isEqual (s : QueryStore F) : ℕ → ℕ → ℕ → Option Bool
  | 0, _, _ => none
  | fuel + 1, r, r' => do
    let o ← s.object r
    let o' ← s.object r'
    equalObjects (isEqual s fuel) r r' o o'

end Equality

section Rewriting

variable [LinearOrder F] [Zero F] [One F] [Mul F] [Collation] (reader : QueryReader F)
  (maxClauseCount : ℕ)

/-- `-addQuery:occur:` of a term query, for each of the terms; what is over the limit is dropped. -/
def addTerms (boost : F) : List (ScoreTerm F) → List BooleanClause → QueryStore F →
    List BooleanClause × QueryStore F
  | [], clauses, s => (clauses, s)
  | t :: ts, clauses, s =>
    let (tq, s) := s.add ⟨boost * t.score, .term (some t.term)⟩
    if maxClauseCount ≤ clauses.length then addTerms boost ts clauses s
    else addTerms boost ts (clauses ++ [⟨tq, .should⟩]) s

def rewriteMultiTerm (boost : F) (m : MultiTermQuery F) (s : QueryStore F) : ℕ × QueryStore F :=
  let (clauses, s) := addTerms maxClauseCount boost (m.added reader maxClauseCount) [] s
  s.add ⟨1, .boolean clauses true 0⟩

/-- The loop over the clauses from the index on: `clone` are the clauses of the clone, which nothing
else refers to before it is returned. -/
def rewriteClauses (rewrite : ℕ → QueryStore F → Option (ℕ × QueryStore F))
    (isEqual : QueryStore F → ℕ → ℕ → Option Bool) (clauses : List BooleanClause) :
    ℕ → List BooleanClause → Option (List BooleanClause) → QueryStore F →
      Option (Option (List BooleanClause) × QueryStore F)
  | _, [], clone, s => some (clone, s)
  | index, c :: cs, clone, s => do
    let (query, s) ← rewrite c.query s
    let same ← isEqual s query c.query
    if same then rewriteClauses rewrite isEqual clauses (index + 1) cs clone s
    else
      rewriteClauses rewrite isEqual clauses (index + 1) cs
        (some ((clone.getD clauses).set index ⟨query, c.occur⟩)) s

def singleProhibited : List BooleanClause → Option ℕ
  | [⟨query, .mustNot⟩] => some query
  | _ => none

def incorporateBoost (isEqual : QueryStore F → ℕ → ℕ → Option Bool) (boost : F)
    (query original : ℕ) (s : QueryStore F) : Option (ℕ × QueryStore F) :=
  if boost = 1 then some (query, s)
  else do
    let same ← isEqual s query original
    let o ← s.object query
    if same then do
      let (clone, s) ← s.copy o
      some (clone, s.setBoost clone (boost * o.boost))
    else some (query, s.setBoost query (boost * o.boost))

def returnClone (r : ℕ) (boost : F) :
    Option (List BooleanClause) × QueryStore F → ℕ × QueryStore F
  | (none, s) => (r, s)
  | (some clauses, s) => s.add ⟨boost, .boolean clauses false 0⟩

/-- `-rewrite:`; `none` where the fuel runs out. -/
def rewrite : ℕ → ℕ → QueryStore F → Option (ℕ × QueryStore F)
  | 0, _, _ => none
  | fuel + 1, r, s => do
    let o ← s.object r
    match o.kind with
    | .term _ => some (r, s)
    | .multiTerm m => some (rewriteMultiTerm reader maxClauseCount o.boost m s)
    | .boolean clauses _ _ =>
      match singleProhibited clauses with
      | some query => do
        let (rewritten, s) ← rewrite fuel query s
        incorporateBoost (fun s => isEqual s fuel) o.boost rewritten query s
      | none =>
        (rewriteClauses (rewrite fuel) (fun s => isEqual s fuel) clauses 0 clauses none s).map
          (returnClone r o.boost)

/-- `-rewrite:` of the searcher: until a query is rewritten to itself. -/
def searcherRewrite (depth : ℕ) : ℕ → ℕ → QueryStore F → Option (ℕ × QueryStore F)
  | 0, _, _ => none
  | fuel + 1, query, s => do
    let (rewrittenQuery, s) ← rewrite reader maxClauseCount depth query s
    if rewrittenQuery = query then some (query, s)
    else searcherRewrite depth fuel rewrittenQuery s

end Rewriting

end Etoile.Lucene
