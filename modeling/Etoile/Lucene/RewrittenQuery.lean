import Etoile.Lucene.QueryMeaning

/-!
# Queries in the store

A query object stands for the tree of its clauses.  Rewriting it adds the objects of the rewritten
tree to the store and leaves the ones that were there.
-/

namespace Etoile.Lucene

open Collation List Option Query

variable {F : Type} {s s' s₁ s₂ : QueryStore F} {r r' : ℕ}

namespace QueryStore

structure Extends (s s' : QueryStore F) : Prop where
  object : ∀ r o, s.object r = some o → s'.object r = some o
  next : s.next ≤ s'.next

theorem Extends.refl (s : QueryStore F) : Extends s s := ⟨fun _ _ h => h, le_rfl⟩

theorem Extends.trans (h₁ : Extends s s₁) (h₂ : Extends s₁ s₂) : Extends s s₂ :=
  ⟨fun r o h => h₂.object r o (h₁.object r o h), h₁.next.trans h₂.next⟩

theorem lt_next {o : QueryObject F} (h : s.object r = some o) : r < s.next := by
  by_contra hle
  rw [s.fresh r (by omega)] at h
  cases h

theorem extends_add (s : QueryStore F) (o : QueryObject F) : Extends s (s.add o).2 := by
  refine ⟨fun r o' h => ?_, Nat.le_succ _⟩
  have hne : r ≠ s.next := (lt_next h).ne
  simp only [add]
  rw [Function.update_of_ne hne, h]

@[simp] theorem add_object (s : QueryStore F) (o : QueryObject F) :
    (s.add o).2.object (s.add o).1 = some o := by
  simp [add]

@[simp] theorem add_fst (s : QueryStore F) (o : QueryObject F) : (s.add o).1 = s.next := rfl

mutual
def Represents (s : QueryStore F) : Query F → ℕ → Prop
  | .term t b, r => s.object r = some ⟨b, .term (some t)⟩
  | .multiTerm m b, r => s.object r = some ⟨b, .multiTerm m⟩
  | .boolean clauses b disableCoord min, r => ∃ cs,
      s.object r = some ⟨b, .boolean cs disableCoord min⟩ ∧ s.RepresentsAll clauses cs

def RepresentsAll (s : QueryStore F) : List (Occur × Query F) → List BooleanClause → Prop
  | [], [] => True
  | (occur, q) :: qs, c :: cs => c.occur = occur ∧ s.Represents q c.query ∧ s.RepresentsAll qs cs
  | _, _ => False
end

mutual
theorem Represents.mono (h : Extends s s') : ∀ {q : Query F} {r : ℕ}, s.Represents q r →
    s'.Represents q r
  | .term t b, r, hq => by
    rw [Represents] at hq ⊢
    exact h.object r _ hq
  | .multiTerm m b, r, hq => by
    rw [Represents] at hq ⊢
    exact h.object r _ hq
  | .boolean clauses b disableCoord min, r, hq => by
    rw [Represents] at hq ⊢
    obtain ⟨cs, hr, hcs⟩ := hq
    exact ⟨cs, h.object r _ hr, hcs.mono h⟩

theorem RepresentsAll.mono (h : Extends s s') : ∀ {clauses : List (Occur × Query F)}
    {cs : List BooleanClause}, s.RepresentsAll clauses cs → s'.RepresentsAll clauses cs
  | [], [], _ => by rw [RepresentsAll]; trivial
  | [], _ :: _, hq => by rw [RepresentsAll] at hq; exact hq.elim; all_goals simp
  | _ :: _, [], hq => by rw [RepresentsAll] at hq; exact hq.elim; all_goals simp
  | (occur, q) :: qs, c :: cs, hq => by
    rw [RepresentsAll] at hq ⊢
    exact ⟨hq.1, hq.2.1.mono h, hq.2.2.mono h⟩
end

theorem representsAll_append {more : List (Occur × Query F)} {ms : List BooleanClause} :
    ∀ {clauses : List (Occur × Query F)} {cs : List BooleanClause}, s.RepresentsAll clauses cs →
      s.RepresentsAll more ms → s.RepresentsAll (clauses ++ more) (cs ++ ms)
  | [], [], _, hm => hm
  | [], _ :: _, hq, _ => by rw [RepresentsAll] at hq; exact hq.elim; all_goals simp
  | _ :: _, [], hq, _ => by rw [RepresentsAll] at hq; exact hq.elim; all_goals simp
  | (occur, q) :: qs, c :: cs, hq, hm => by
    rw [RepresentsAll] at hq
    rw [cons_append, cons_append, RepresentsAll]
    exact ⟨hq.1, hq.2.1, representsAll_append hq.2.2 hm⟩

end QueryStore

open QueryStore

section Equality

variable [LinearOrder F] [Collation]

omit [Collation] in
theorem equalClauses_mono {eq eq' : ℕ → ℕ → Option Bool}
    (h : ∀ a b v, eq a b = some v → eq' a b = some v) :
    ∀ {cs cs' : List BooleanClause} {v : Bool}, equalClauses eq cs cs' = some v →
      equalClauses eq' cs cs' = some v
  | [], [], _, hv => hv
  | [], _ :: _, _, hv => hv
  | _ :: _, [], _, hv => hv
  | c :: cs, c' :: cs', v, hv => by
    rw [equalClauses] at hv ⊢
    obtain ⟨same, hsame, hrest⟩ := bind_eq_some_iff.1 hv
    simp only [h _ _ _ hsame, bind_eq_bind, bind_some]
    split_ifs at hrest ⊢
    · exact equalClauses_mono h hrest
    · exact hrest

theorem equalObjects_mono {eq eq' : ℕ → ℕ → Option Bool}
    (h : ∀ a b v, eq a b = some v → eq' a b = some v) {o o' : QueryObject F} {v : Bool}
    (hv : equalObjects eq r r' o o' = some v) : equalObjects eq' r r' o o' = some v := by
  unfold equalObjects at hv ⊢
  split at hv
  · exact hv
  · exact hv
  · split_ifs at hv ⊢
    · obtain ⟨same, hsame, rfl⟩ := map_eq_some_iff.1 hv
      rw [equalClauses_mono h hsame, map_some]
    · exact hv
  · exact hv

theorem isEqual_mono (h : Extends s s') : ∀ {fuel r r' : ℕ} {v : Bool},
    isEqual s fuel r r' = some v → isEqual s' fuel r r' = some v
  | 0, _, _, _, hv => by cases hv
  | fuel + 1, r, r', v, hv => by
    rw [isEqual] at hv ⊢
    obtain ⟨o, ho, hv⟩ := bind_eq_some_iff.1 hv
    obtain ⟨o', ho', hv⟩ := bind_eq_some_iff.1 hv
    simp only [h.object _ _ ho, h.object _ _ ho', bind_eq_bind, bind_some]
    exact equalObjects_mono (fun _ _ _ => isEqual_mono h) hv

theorem isEqual_of_objects {fuel : ℕ} {o o' : QueryObject F} (ho : s.object r = some o)
    (ho' : s.object r' = some o') :
    isEqual s (fuel + 1) r r' = equalObjects (isEqual s fuel) r r' o o' := by
  rw [isEqual]
  simp only [ho, ho', bind_eq_bind, bind_some]

mutual
theorem isEqual_self : ∀ {q : Query F} {fuel r : ℕ}, q.depth ≤ fuel → s.Represents q r →
    isEqual s fuel r r = some true
  | q, 0, r, hd, hq => by
    cases q <;> simp [depth] at hd
  | .term t b, fuel + 1, r, _, hq => by
    rw [Represents] at hq
    rw [isEqual_of_objects hq hq]
    simp [equalObjects]
  | .multiTerm m b, fuel + 1, r, _, hq => by
    rw [Represents] at hq
    rw [isEqual_of_objects hq hq]
    simp [equalObjects]
  | .boolean clauses b disableCoord min, fuel + 1, r, hd, hq => by
    rw [Represents] at hq
    rw [depth] at hd
    obtain ⟨cs, hr, hcs⟩ := hq
    have hall := equalClauses_self (Nat.le_of_succ_le_succ hd) hcs
    rw [isEqual_of_objects hr hr]
    simp [equalObjects, hall]

theorem equalClauses_self : ∀ {clauses : List (Occur × Query F)} {cs : List BooleanClause}
    {fuel : ℕ}, depthAll clauses ≤ fuel → s.RepresentsAll clauses cs →
      equalClauses (isEqual s fuel) cs cs = some true
  | _, [], _, _, _ => rfl
  | [], _ :: _, _, _, hq => by rw [RepresentsAll] at hq; exact hq.elim; all_goals simp
  | (occur, q) :: qs, c :: cs, fuel, hd, hq => by
    rw [RepresentsAll] at hq
    rw [depthAll] at hd
    rw [equalClauses, isEqual_self (by omega) hq.2.1]
    simpa using equalClauses_self (by omega) hq.2.2
end

end Equality

section Rewriting

variable [LinearOrder F] [Zero F] [One F] [Mul F] [Collation] {reader : QueryReader F}
  {maxClauseCount : ℕ}

omit [Zero F] [One F] [Collation] [LinearOrder F] in
theorem addTerms_spec (boost : F) : ∀ {terms : List (ScoreTerm F)} {clauses : List BooleanClause}
    {done : List (Occur × Query F)} {s : QueryStore F},
    clauses.length + terms.length ≤ maxClauseCount → s.RepresentsAll done clauses →
      Extends s (addTerms maxClauseCount boost terms clauses s).2
        ∧ (addTerms maxClauseCount boost terms clauses s).2.RepresentsAll
            (done ++ termClauses boost terms)
            (addTerms maxClauseCount boost terms clauses s).1
  | [], clauses, done, s, _, hdone => by
    rw [addTerms, termClauses, map_nil, append_nil]
    exact ⟨.refl s, hdone⟩
  | t :: terms, clauses, done, s, hlen, hdone => by
    rw [length_cons] at hlen
    have hext := s.extends_add ⟨boost * t.score, .term (some t.term)⟩
    have hnew : (s.add ⟨boost * t.score, .term (some t.term)⟩).2.RepresentsAll
        (done ++ [(.should, .term t.term (boost * t.score))])
        (clauses ++ [⟨s.next, .should⟩]) := by
      refine representsAll_append (hdone.mono hext) ?_
      rw [RepresentsAll, RepresentsAll, Represents]
      exact ⟨rfl, s.add_object _, trivial⟩
    have hlen' : (clauses ++ [(⟨s.next, .should⟩ : BooleanClause)]).length + terms.length
        ≤ maxClauseCount := by
      simp
      omega
    have hrest := addTerms_spec boost hlen' hnew
    rw [addTerms]
    simp only [add_fst, if_neg (by omega : ¬ maxClauseCount ≤ clauses.length)]
    refine ⟨hext.trans hrest.1, ?_⟩
    simpa [termClauses] using hrest.2

/-- Where a query is rewritten: the tree that it is rewritten to is added, and the object is another
one just if there was something to rewrite. -/
structure Rewrites (reader : QueryReader F) (maxClauseCount fuel : ℕ) (s : QueryStore F)
    (q : Query F) (r : ℕ) (s' : QueryStore F) (r' : ℕ) : Prop where
  keeps : Extends s s'
  represents : s'.Represents (q.rewritten reader maxClauseCount) r'
  same : q.primitive = true → r' = r
  other : q.primitive = false → r' ≠ r ∧ isEqual s' fuel r' r = some false

theorem rewriteMultiTerm_rewrites {m : MultiTermQuery F} {boost : F} {fuel : ℕ}
    (h : s.Represents (.multiTerm m boost) r) (hm : (m.enumerated reader).length ≤ maxClauseCount) :
    Rewrites reader maxClauseCount (fuel + 1) s (.multiTerm m boost) r
      (rewriteMultiTerm reader maxClauseCount boost m s).2
      (rewriteMultiTerm reader maxClauseCount boost m s).1 := by
  have hlen := (m.added_perm reader hm).length_eq
  have hnil : s.RepresentsAll [] [] := by
    rw [RepresentsAll]
    trivial
  have hfits : ([] : List BooleanClause).length + (m.added reader maxClauseCount).length
      ≤ maxClauseCount := by
    simpa [hlen] using hm
  obtain ⟨hext, hall⟩ := addTerms_spec boost hfits hnil
  rw [Represents] at h
  unfold rewriteMultiTerm
  set added := addTerms maxClauseCount boost (m.added reader maxClauseCount) [] s
  have hadd := added.2.extends_add ⟨1, .boolean added.1 true 0⟩
  refine ⟨hext.trans hadd, ?_, fun hp => (nomatch (hp : false = true)), fun _ => ⟨?_, ?_⟩⟩
  · rw [rewritten, Represents]
    exact ⟨added.1, add_object _ _, by simpa using hall.mono hadd⟩
  · have := lt_next (hext.object _ _ h)
    simp only [add_fst]
    omega
  · rw [isEqual_of_objects (add_object _ _) ((hext.trans hadd).object _ _ h)]
    rfl

theorem rewrite_boolean {fuel : ℕ} {boost : F} {clauses : List BooleanClause} {disableCoord : Bool}
    {min : ℤ} (h : s.object r = some ⟨boost, .boolean clauses disableCoord min⟩)
    (hclauses : singleProhibited clauses = none) :
    rewrite reader maxClauseCount (fuel + 1) r s
      = (rewriteClauses (rewrite reader maxClauseCount fuel) (fun s => isEqual s fuel) clauses 0
          clauses none s).map (returnClone r boost) := by
  rw [rewrite]
  simp only [h, hclauses, bind_eq_bind, bind_some]

omit [LinearOrder F] [Zero F] [One F] [Mul F] [Collation] in
theorem singleProhibited_eq_none : ∀ {clauses : List (Occur × Query F)} {cs : List BooleanClause},
    s.RepresentsAll clauses cs → ¬ SingleProhibited clauses → singleProhibited cs = none
  | [], [], _, _ => rfl
  | [], _ :: _, hq, _ => by rw [RepresentsAll] at hq; exact hq.elim; all_goals simp
  | _ :: _, [], _, _ => rfl
  | _ :: _ :: _, [_], hq, _ => by
    rw [RepresentsAll, RepresentsAll] at hq
    exact hq.2.2.elim
    all_goals simp
  | _, ⟨_, occur⟩ :: _ :: _, _, _ => by
    cases occur <;> rfl
  | [(occur, q)], [⟨query, occur'⟩], hq, h => by
    rw [RepresentsAll] at hq
    obtain ⟨rfl, -⟩ := hq
    cases occur' with
    | mustNot => exact absurd trivial h
    | must => rfl
    | should => rfl

mutual
theorem rewrite_spec : ∀ {q : Query F} {fuel r : ℕ} {s : QueryStore F}, q.depth ≤ fuel →
    s.Represents q r → q.Sound reader maxClauseCount →
      ∃ r' s', rewrite reader maxClauseCount fuel r s = some (r', s')
        ∧ Rewrites reader maxClauseCount fuel s q r s' r'
  | q, 0, _, _, hd, _, _ => by
    cases q <;> simp [depth] at hd
  | .term t b, fuel + 1, r, s, _, hq, _ => by
    have hr := hq
    rw [Represents] at hr
    refine ⟨r, s, ?_, .refl s, ?_, fun _ => rfl, fun h => (nomatch (h : true = false))⟩
    · rw [rewrite]
      simp only [hr, bind_eq_bind, bind_some]
    · rwa [rewritten]
  | .multiTerm m b, fuel + 1, r, s, _, hq, hs => by
    have hr := hq
    rw [Represents] at hr
    rw [Sound] at hs
    refine ⟨_, _, ?_, rewriteMultiTerm_rewrites hq hs⟩
    rw [rewrite]
    simp only [hr, bind_eq_bind, bind_some]
  | .boolean clauses b disableCoord min, fuel + 1, r, s, hd, hq, hs => by
    rw [Represents] at hq
    obtain ⟨cs, hr, hcs⟩ := hq
    rw [depth] at hd
    rw [Sound] at hs
    obtain ⟨cs', s', hrun, hext, hcs', hsame, hother⟩ := rewriteClauses_spec
      (Nat.le_of_succ_le_succ hd) hcs hs.2.2 (.inl ⟨rfl, nil_append cs⟩)
    rw [rewrite_boolean hr (singleProhibited_eq_none hcs hs.1)]
    have hrun' : rewriteClauses (rewrite reader maxClauseCount fuel) (fun s => isEqual s fuel) cs 0
        cs none s = some (if primitiveAll clauses then none else some ([] ++ cs'), s') := hrun
    rw [hrun', map_some]
    by_cases hp : primitiveAll clauses = true
    · rw [if_pos hp]
      refine ⟨r, s', rfl, hext, ?_, fun _ => rfl, fun h => ?_⟩
      · rw [rewritten, if_pos hp, Represents]
        exact ⟨cs, hext.object _ _ hr, hcs.mono hext⟩
      · rw [primitive, hp] at h
        cases h
    · rw [if_neg hp, nil_append]
      have hadd := s'.extends_add ⟨b, .boolean cs' false 0⟩
      refine ⟨s'.next, (s'.add ⟨b, .boolean cs' false 0⟩).2, rfl, hext.trans hadd, ?_,
        fun h => absurd h hp, fun _ => ⟨?_, ?_⟩⟩
      · rw [rewritten, if_neg hp, Represents]
        exact ⟨cs', add_object _ _, hcs'.mono hadd⟩
      · exact (lt_next (hext.object _ _ hr)).ne'
      · have hfalse := equalClauses_mono (fun _ _ _ => isEqual_mono hadd) (hother hp)
        have hclone := s'.add_object ⟨b, .boolean cs' false 0⟩
        rw [add_fst] at hclone
        rw [isEqual_of_objects hclone ((hext.trans hadd).object _ _ hr)]
        simp only [equalObjects, if_true]
        rw [hfalse]
        rfl

theorem rewriteClauses_spec : ∀ {qs : List (Occur × Query F)} {cs : List BooleanClause}
    {fuel : ℕ} {clauses done : List BooleanClause} {clone : Option (List BooleanClause)}
    {s : QueryStore F}, depthAll qs ≤ fuel → s.RepresentsAll qs cs →
    SoundAll reader maxClauseCount qs →
    clone = none ∧ done ++ cs = clauses ∨ clone = some (done ++ cs) →
      ∃ cs' s', rewriteClauses (rewrite reader maxClauseCount fuel) (fun s => isEqual s fuel)
            clauses done.length cs clone s
          = some (if primitiveAll qs then clone else some (done ++ cs'), s')
        ∧ Extends s s'
        ∧ s'.RepresentsAll (rewrittenAll reader maxClauseCount qs) cs'
        ∧ (primitiveAll qs = true → cs' = cs)
        ∧ (¬ primitiveAll qs = true → equalClauses (isEqual s' fuel) cs' cs = some false)
  | [], [], fuel, clauses, done, clone, s, _, hq, _, _ => by
    refine ⟨[], s, ?_, .refl s, ?_, fun _ => rfl, fun h => absurd rfl h⟩
    · rw [rewriteClauses, primitiveAll, if_pos rfl]
    · rwa [rewrittenAll]
  | [], _ :: _, _, _, _, _, _, _, hq, _, _ => by
    rw [RepresentsAll] at hq
    exact hq.elim
    all_goals simp
  | _ :: _, [], _, _, _, _, _, _, hq, _, _ => by
    rw [RepresentsAll] at hq
    exact hq.elim
    all_goals simp
  | (occur, q) :: qs, c :: cs, fuel, clauses, done, clone, s, hd, hq, hs, hclone => by
    rw [RepresentsAll] at hq
    obtain ⟨rfl, hc, hcs⟩ := hq
    rw [depthAll] at hd
    rw [SoundAll] at hs
    obtain ⟨query, s₁, hrun₁, hkeeps, hquery, hsame₁, hother₁⟩ :=
      rewrite_spec (by omega : q.depth ≤ fuel) hc hs.1
    rw [rewriteClauses, hrun₁]
    by_cases hp : q.primitive = true
    · obtain rfl := hsame₁ hp
      have hself : isEqual s₁ fuel c.query c.query = some true :=
        isEqual_self (by omega) (hc.mono hkeeps)
      have hlength : done.length + 1 = (done ++ [c]).length := by simp
      have hclone' : clone = none ∧ (done ++ [c]) ++ cs = clauses
          ∨ clone = some ((done ++ [c]) ++ cs) := by
        simpa using hclone
      obtain ⟨cs', s', hrun, hext, hcs', hsame, hother⟩ :=
        rewriteClauses_spec (by omega : depthAll qs ≤ fuel) (hcs.mono hkeeps) hs.2 hclone'
      simp only [bind_eq_bind, bind_some, hself, if_true, hlength, hrun]
      refine ⟨c :: cs', s', ?_, hkeeps.trans hext, ?_, ?_, ?_⟩
      · simp [primitiveAll, hp]
      · rw [rewrittenAll, RepresentsAll]
        exact ⟨rfl, hquery.mono hext, hcs'⟩
      · simpa [primitiveAll, hp] using hsame
      · intro hnot
        have hself' := isEqual_mono hext hself
        have htail := hother (by simpa [primitiveAll, hp] using hnot)
        simp [equalClauses, hself', htail]
    · have hp' : q.primitive = false := by simpa using hp
      have hfalse := (hother₁ hp').2
      have hlength : done.length + 1 = (done ++ [(⟨query, c.occur⟩ : BooleanClause)]).length := by
        simp
      have hset : (clone.getD clauses).set done.length ⟨query, c.occur⟩
          = (done ++ [⟨query, c.occur⟩]) ++ cs := by
        have hget : clone.getD clauses = done ++ c :: cs := by
          rcases hclone with ⟨rfl, h⟩ | rfl
          · exact h.symm
          · rfl
        rw [hget]
        simp
      have hclone' : some ((clone.getD clauses).set done.length ⟨query, c.occur⟩) = none
            ∧ (done ++ [⟨query, c.occur⟩]) ++ cs = clauses
          ∨ some ((clone.getD clauses).set done.length ⟨query, c.occur⟩)
            = some ((done ++ [⟨query, c.occur⟩]) ++ cs) := .inr (congrArg some hset)
      obtain ⟨cs', s', hrun, hext, hcs', hsame, hother⟩ :=
        rewriteClauses_spec (by omega : depthAll qs ≤ fuel) (hcs.mono hkeeps) hs.2 hclone'
      simp only [bind_eq_bind, bind_some, hfalse, Bool.false_eq_true, if_false,
        hlength, hrun]
      refine ⟨⟨query, c.occur⟩ :: cs', s', ?_, hkeeps.trans hext, ?_, ?_, ?_⟩
      · by_cases hrest : primitiveAll qs = true
        · rw [hsame hrest, if_pos hrest, hset]
          simp [primitiveAll, hp']
        · simp [primitiveAll, hp', hrest]
      · rw [rewrittenAll, RepresentsAll]
        exact ⟨rfl, hquery.mono hext, hcs'⟩
      · simp [primitiveAll, hp']
      · intro _
        have hfalse' := isEqual_mono hext hfalse
        simp [equalClauses, hfalse']
end

omit [LinearOrder F] [Zero F] [One F] [Collation] in
theorem primitive_termClauses (boost : F) (terms : List (ScoreTerm F)) :
    primitiveAll (termClauses boost terms) = true := by
  induction terms with
  | nil => rfl
  | cons t terms ih =>
    rw [termClauses] at ih ⊢
    simpa [primitiveAll, primitive] using ih

mutual
theorem primitive_rewritten : ∀ q : Query F,
    (q.rewritten reader maxClauseCount).primitive = true
  | .term _ _ => by
    rw [rewritten]
    rfl
  | .multiTerm m b => by
    rw [rewritten, primitive]
    exact primitive_termClauses ..
  | .boolean clauses b disableCoord min => by
    rw [rewritten]
    split_ifs with hp
    · exact hp
    · exact primitiveAll_rewritten clauses

theorem primitiveAll_rewritten : ∀ clauses : List (Occur × Query F),
    primitiveAll (rewrittenAll reader maxClauseCount clauses) = true
  | [] => by
    rw [rewrittenAll]
    rfl
  | (occur, q) :: qs => by
    rw [rewrittenAll, primitiveAll, primitive_rewritten q, primitiveAll_rewritten qs]
    rfl
end

omit [LinearOrder F] [Zero F] [One F] [Collation] in
theorem depthAll_termClauses (boost : F) (terms : List (ScoreTerm F)) :
    depthAll (termClauses boost terms) ≤ 1 := by
  induction terms with
  | nil => exact Nat.zero_le _
  | cons t terms ih =>
    rw [termClauses] at ih ⊢
    rw [map_cons, depthAll, depth]
    omega

mutual
theorem depth_rewritten : ∀ q : Query F,
    (q.rewritten reader maxClauseCount).depth ≤ q.depth + 1
  | .term _ _ => by
    rw [rewritten]
    exact Nat.le_succ _
  | .multiTerm m b => by
    have h := depthAll_termClauses b (m.added reader maxClauseCount)
    rw [rewritten, depth, depth]
    omega
  | .boolean clauses b disableCoord min => by
    have h := depthAll_rewritten clauses
    rw [rewritten]
    split_ifs with hp
    · exact Nat.le_succ _
    · rw [depth, depth]
      omega

theorem depthAll_rewritten : ∀ clauses : List (Occur × Query F),
    depthAll (rewrittenAll reader maxClauseCount clauses)
      ≤ depthAll clauses + 1
  | [] => by
    rw [rewrittenAll]
    exact Nat.le_succ _
  | (occur, q) :: qs => by
    have hq := depth_rewritten q
    have hqs := depthAll_rewritten qs
    rw [rewrittenAll, depthAll, depthAll]
    omega
end

omit [LinearOrder F] [Zero F] [One F] [Collation] in
theorem not_singleProhibited_termClauses (boost : F) (terms : List (ScoreTerm F)) :
    ¬ SingleProhibited (termClauses boost terms) := by
  rcases terms with _ | ⟨t, _ | ⟨u, terms⟩⟩ <;> exact id

theorem soundAll_termClauses (boost : F) (terms : List (ScoreTerm F)) :
    SoundAll reader maxClauseCount (termClauses boost terms) := by
  induction terms with
  | nil => trivial
  | cons t terms ih =>
    rw [termClauses] at ih ⊢
    rw [map_cons, SoundAll, Sound]
    exact ⟨trivial, ih⟩

theorem singleProhibited_rewritten : ∀ {clauses : List (Occur × Query F)},
    SingleProhibited (rewrittenAll reader maxClauseCount clauses) →
      SingleProhibited clauses
  | [], h => h
  | [(.mustNot, _)], _ => trivial
  | [(.must, _)], h => h
  | [(.should, _)], h => h
  | (occur, _) :: _ :: _, h => by
    rw [rewrittenAll, rewrittenAll] at h
    cases occur <;> exact h.elim

mutual
theorem sound_rewritten : ∀ {q : Query F}, q.Sound reader maxClauseCount →
    (q.rewritten reader maxClauseCount).Sound reader maxClauseCount
  | .term _ _, h => by rwa [rewritten]
  | .multiTerm m b, _ => by
    rw [rewritten, Sound]
    exact ⟨not_singleProhibited_termClauses _ _, .inl (primitive_termClauses ..),
      soundAll_termClauses ..⟩
  | .boolean clauses b disableCoord min, h => by
    rw [rewritten]
    split_ifs with hp
    · exact h
    · rw [Sound] at h ⊢
      exact ⟨fun hs => h.1 (singleProhibited_rewritten hs), .inl (primitiveAll_rewritten clauses),
        soundAll_rewritten h.2.2⟩

theorem soundAll_rewritten : ∀ {clauses : List (Occur × Query F)},
    SoundAll reader maxClauseCount clauses →
      SoundAll reader maxClauseCount (rewrittenAll reader maxClauseCount clauses)
  | [], _ => by
    rw [rewrittenAll]
    trivial
  | (occur, q) :: qs, h => by
    rw [SoundAll] at h
    rw [rewrittenAll, SoundAll]
    exact ⟨sound_rewritten h.1, soundAll_rewritten h.2⟩
end

theorem searcherRewrite_primitive {q : Query F} {depth : ℕ} (fuel : ℕ) (hd : q.depth ≤ depth)
    (hq : s.Represents q r) (hs : q.Sound reader maxClauseCount) (hp : q.primitive = true) :
    ∃ s', searcherRewrite reader maxClauseCount depth (fuel + 1) r s = some (r, s')
      ∧ Extends s s' := by
  obtain ⟨r', s', hrun, hr⟩ := rewrite_spec hd hq hs
  obtain rfl := hr.same hp
  refine ⟨s', ?_, hr.keeps⟩
  rw [searcherRewrite, hrun]
  simp

/-- Where a query is sound, the searcher gets to one that has nothing to rewrite and matches the
same documents, and changes no query that there was. -/
theorem searcherRewrite_matches (reader : QueryReader F) (maxClauseCount : ℕ) (s : QueryStore F)
    (r : ℕ) (q : Query F) (hq : s.Represents q r) (hs : q.Sound reader maxClauseCount)
    (depth fuel : ℕ) (hd : q.depth + 1 ≤ depth) (hfuel : 2 ≤ fuel) :
    ∃ r' s' q', searcherRewrite reader maxClauseCount depth fuel r s = some (r', s')
      ∧ s'.Represents q' r' ∧ q'.primitive = true
      ∧ (∀ d, q'.Matches reader d ↔ q.Matches reader d)
      ∧ Extends s s' := by
  obtain ⟨fuel, rfl⟩ : ∃ n, fuel = n + 1 + 1 := ⟨fuel - 2, by omega⟩
  obtain ⟨r₁, s₁, hrun, hr⟩ := rewrite_spec (by omega : q.depth ≤ depth) hq hs
  have hprimitive : (q.rewritten reader maxClauseCount).primitive = true := primitive_rewritten q
  have hmeaning := fun d => q.matches_rewritten reader maxClauseCount d hs
  by_cases hsame : r₁ = r
  · refine ⟨r, s₁, _, ?_, hsame ▸ hr.represents, hprimitive, hmeaning, hr.keeps⟩
    rw [searcherRewrite, hrun]
    simp [hsame]
  · have hdepth : (q.rewritten reader maxClauseCount).depth ≤ depth := by
      have h : (q.rewritten reader maxClauseCount).depth ≤ q.depth + 1 := depth_rewritten q
      omega
    obtain ⟨s₂, hrun₂, hext⟩ :=
      searcherRewrite_primitive fuel hdepth hr.represents (sound_rewritten hs) hprimitive
    refine ⟨r₁, s₂, _, ?_, hr.represents.mono hext, hprimitive, hmeaning, hr.keeps.trans hext⟩
    rw [searcherRewrite, hrun]
    simp [hsame, hrun₂]

end Rewriting

def twoDocuments : QueryReader ℕ where
  termsFrom _ := [⟨[1], [2]⟩, ⟨[1], [3]⟩]
  termDocuments t := {d | t.text = [2] ∧ d = 0 ∨ t.text = [3] ∧ d = 1}
  wildcardEqualsTo _ _ := false
  similarity _ _ _ _ := 0
  difference _ _ := 0

def requiredPrefix : QueryStore ℕ where
  object
    | 0 => some ⟨1, .multiTerm (.prefixed ⟨[1], [2]⟩)⟩
    | 1 => some ⟨1, .boolean [⟨0, .must⟩] false 0⟩
    | _ => none
  next := 2
  fresh
    | 0, h => by omega
    | 1, h => by omega
    | _ + 2, _ => rfl

theorem searcherRewrite_requiredPrefix : ∃ r' s' q',
    @searcherRewrite ℕ _ _ _ _ units twoDocuments 1024 3 2 1 requiredPrefix
        = some (r', s')
      ∧ s'.Represents q' r' ∧ q'.primitive = true
      ∧ (∀ d, @Matches ℕ _ _ _ units twoDocuments d q'
        ↔ @Matches ℕ _ _ _ units twoDocuments d
          (.boolean [(.must, .multiTerm (.prefixed ⟨[1], [2]⟩) 1)] 1 false 0))
      ∧ Extends requiredPrefix s' := by
  let _ := units
  refine searcherRewrite_matches twoDocuments 1024 requiredPrefix 1
    (.boolean [(.must, .multiTerm (.prefixed ⟨[1], [2]⟩) 1)] 1 false 0) ?_ ?_ 3 2 (by decide) le_rfl
  · rw [Represents]
    refine ⟨[⟨0, .must⟩], rfl, ?_⟩
    rw [RepresentsAll, RepresentsAll, Represents]
    exact ⟨rfl, rfl, trivial⟩
  · rw [Sound, SoundAll, SoundAll, Sound]
    exact ⟨id, .inr (.inl le_rfl), by decide, trivial⟩

/-- A boolean query of one prohibited clause is rewritten to the clause. -/
def prohibitedTerm : QueryStore ℕ where
  object
    | 0 => some ⟨1, .term (some ⟨[1], [2]⟩)⟩
    | 1 => some ⟨1, .boolean [⟨0, .mustNot⟩] false 0⟩
    | _ => none
  next := 2
  fresh
    | 0, h => by omega
    | 1, h => by omega
    | _ + 2, _ => rfl

theorem searcherRewrite_prohibitedTerm :
    prohibitedTerm.Represents (.boolean [(.mustNot, .term ⟨[1], [2]⟩ 1)] 1 false 0) 1
      ∧ @searcherRewrite ℕ _ _ _ _ units twoDocuments 1024 3 2 1 prohibitedTerm
        = some (0, prohibitedTerm)
      ∧ prohibitedTerm.Represents (.term ⟨[1], [2]⟩ 1) 0
      ∧ @Matches ℕ _ _ _ units twoDocuments 0 (.term ⟨[1], [2]⟩ 1)
      ∧ ¬ @Matches ℕ _ _ _ units twoDocuments 0
        (.boolean [(.mustNot, .term ⟨[1], [2]⟩ 1)] 1 false 0) := by
  let _ := units
  refine ⟨?_, rfl, ?_, ?_, ?_⟩
  · rw [Represents]
    refine ⟨[⟨0, .mustNot⟩], rfl, ?_⟩
    rw [RepresentsAll, RepresentsAll, Represents]
    exact ⟨rfl, rfl, trivial⟩
  · rw [Represents]
    rfl
  · rw [Matches]
    exact .inl ⟨rfl, rfl⟩
  · rw [Matches, matchesAll, matchesAll, Matches]
    intro h
    exact h.prohibited _ (mem_singleton_self _) rfl (.inl ⟨rfl, rfl⟩)

end Etoile.Lucene
