import Etoile.Lucene.QueryMeaning
import Etoile.Lucene.TermUnion
import Mathlib.Data.Set.Card

/-!
# Range queries

`-rewrite:` of a range query asks the reader for an enumerator from its lower term on, and adds a
clause for each term until one is beyond the range.  The terms in front of the range that the
enumerators of segments start at decide where the clauses are right.
-/

namespace Etoile.Lucene

open Collation List MultiTermEnumerator Option TermInfosReader TermInfosWriter

variable {F : Type}

structure RangeQuery (F : Type) where
  lowerTerm : Term
  upperTerm : Option Term
  inclusive : Bool
  boost : F

namespace RangeQuery

def initWithLowerTerm [One F] (lower upper : Option Term) (inclusive : Bool) :
    Option (RangeQuery F) :=
  match lower, upper with
  | none, none => none
  | some lower, none => some ⟨lower, none, inclusive, 1⟩
  | none, some upper => some ⟨⟨upper.field, []⟩, some upper, inclusive, 1⟩
  | some lower, some upper =>
    if lower.field = upper.field then some ⟨lower, some upper, inclusive, 1⟩ else none

/-- `-setBoost:`. -/
def setBoost (q : RangeQuery F) (b : F) : RangeQuery F := { q with boost := b }

def clause (q : RangeQuery F) (term : Term) : Occur × Query F := (.should, .term term q.boost)

/-- `-addQuery:occur:`, which drops what is over the limit. -/
def addQuery (maxClauseCount : ℕ) (q : RangeQuery F) (clauses : List (Occur × Query F))
    (term : Term) : List (Occur × Query F) :=
  if maxClauseCount ≤ clauses.length then clauses else clauses ++ [q.clause term]

variable [Collation] (maxClauseCount : ℕ) (q : RangeQuery F)

/-- The body of the loop, `none` where it breaks. -/
def visit (term : Option Term) (checkLower : Bool) (clauses : List (Occur × Query F)) :
    Option (Bool × List (Occur × Query F)) :=
  match term with
  | none => none
  | some term =>
    if term.field = q.lowerTerm.field then
      if checkLower = false ∨ Collated.mk q.lowerTerm.text < ⟨term.text⟩ then
        if beyond (q.upperTerm.map Term.text) q.inclusive term then none
        else some (false, q.addQuery maxClauseCount clauses term)
      else some (checkLower, clauses)
    else none

/-- The loop; `none` where the enumerator raises. -/
def addTerms {E : Type} [TermEnumerator E] (enumerator : E) (checkLower : Bool)
    (clauses : List (Occur × Query F)) : Option (List (Occur × Query F)) :=
  match q.visit maxClauseCount (TermEnumerator.term enumerator) checkLower clauses with
  | none => some clauses
  | some (checkLower, clauses) =>
    match _h : TermEnumerator.hasNextTerm enumerator with
    | none => none
    | some (false, _) => some clauses
    | some (true, enumerator') => addTerms enumerator' checkLower clauses
  termination_by TermEnumerator.remaining enumerator
  decreasing_by exact TermEnumerator.remaining_lt _h

end RangeQuery

inductive TermIndex [Collation]
  | segment (reader : Dictionary)
  | multi (subReaders : List (ℕ × Dictionary))

namespace TermIndex

variable [Collation]

def dictionaries : TermIndex → List Dictionary
  | segment reader => [reader]
  | multi subReaders => subReaders.map Prod.snd

def HasTerm (index : TermIndex) (t : Term) : Prop :=
  ∃ d ∈ index.dictionaries, ∃ entry ∈ d.entries, entry.1 = t

/-- The terms at which an enumerator from `t` on is where it should not be: the last one of a
segment that has none from there on, or the empty one. -/
def staleTerms (index : TermIndex) (t : Term) : Set Term :=
  {u | ∃ d ∈ index.dictionaries, ∃ entry, d.staleEntry t = some entry ∧ entry.1 = u}

/-- The enumerator for `t` goes through the list. -/
structure Shows (index : TermIndex) (t : Term) (l : List Term) : Prop where
  increasing : l.Pairwise (· < ·)
  mem_iff : ∀ u, u ∈ l ↔ ∃ d ∈ index.dictionaries, ∃ entry ∈ d.shown t, entry.1 = u

end TermIndex

def RangeQuery.clauses [Collation] (maxClauseCount : ℕ) (q : RangeQuery F) :
    TermIndex → Option (List (Occur × Query F))
  | .segment reader => do
    let enumerator ← reader.termReader.termEnumeratorWithTerm q.lowerTerm
    q.addTerms maxClauseCount enumerator (!q.inclusive) []
  | .multi subReaders => do
    let enumerator ←
      initWithReaders (subReaders.map fun p => (p.1, p.2.termReader)) (some q.lowerTerm)
    q.addTerms maxClauseCount enumerator (!q.inclusive) []

/-- `-rewrite:`; `none` where it raises. -/
def RangeQuery.rewrite [One F] [Collation] (maxClauseCount : ℕ) (q : RangeQuery F)
    (reader : TermIndex) : Option (Query F) :=
  (q.clauses maxClauseCount reader).map fun clauses => .boolean clauses 1 true 0

namespace RangeQuery

section loop
variable [Collation] {maxClauseCount : ℕ} {q : RangeQuery F}

omit [Collation] in
theorem foldl_addQuery : ∀ {terms : List Term} {clauses : List (Occur × Query F)},
    clauses.length ≤ maxClauseCount →
      terms.foldl (q.addQuery maxClauseCount) clauses
        = (clauses ++ terms.map q.clause).take maxClauseCount
  | [], clauses, h => by
    simp [take_of_length_le h]
  | term :: terms, clauses, h => by
    rw [foldl_cons]
    unfold addQuery
    split_ifs with hfull
    · have hlength : clauses.length = maxClauseCount := le_antisymm h hfull
      have hrest := @foldl_addQuery terms clauses h
      unfold addQuery at hrest
      rw [hrest, take_append_of_le_length hlength.ge, take_append_of_le_length hlength.ge]
    · have hrest := @foldl_addQuery terms (clauses ++ [q.clause term]) (by simp; omega)
      unfold addQuery at hrest
      rw [hrest]
      simp

theorem addTerms_of_visit {E : Type} [TermEnumerator E] {e : E} {checkLower checkLower' : Bool}
    {clauses clauses' : List (Occur × Query F)}
    (hvisit : q.visit maxClauseCount (TermEnumerator.term e) checkLower clauses
      = some (checkLower', clauses')) :
    (∀ e', TermEnumerator.hasNextTerm e = some (false, e') →
        q.addTerms maxClauseCount e checkLower clauses = some clauses')
      ∧ ∀ e', TermEnumerator.hasNextTerm e = some (true, e') →
        q.addTerms maxClauseCount e checkLower clauses
          = q.addTerms maxClauseCount e' checkLower' clauses' := by
  constructor
  all_goals
    intro e' hnext
    conv_lhs => unfold addTerms
    rw [hvisit]
    simp only []
    split <;> simp_all

theorem addTerms_of_enumerates {E : Type} [TermEnumerator E] : ∀ {l : List (Term × ℕ)} {e : E}
    {checkLower : Bool} {clauses : List (Occur × Query F)}, Enumerates ShowsTerm e l →
      q.addTerms maxClauseCount e checkLower clauses
        = some ((rangeTerms q.lowerTerm (q.upperTerm.map Term.text) q.inclusive checkLower
            (l.map Prod.fst)).foldl (q.addQuery maxClauseCount) clauses)
  | [], e, checkLower, clauses, h => by
    have hterm : TermEnumerator.term e = none := h
    unfold addTerms
    simp [hterm, visit, rangeTerms]
  | a :: l, e, checkLower, clauses, h => by
    obtain ⟨⟨hterm, -⟩, hgo⟩ := h
    -- where the loop goes on, it does so with the rest of the list
    have hrest : ∀ {checkLower' : Bool} {clauses' : List (Occur × Query F)},
        q.visit maxClauseCount (some a.1) checkLower clauses = some (checkLower', clauses') →
          q.addTerms maxClauseCount e checkLower clauses
            = some ((rangeTerms q.lowerTerm (q.upperTerm.map Term.text) q.inclusive checkLower'
              (l.map Prod.fst)).foldl (q.addQuery maxClauseCount) clauses') := by
      intro checkLower' clauses' hvisit
      rw [← hterm] at hvisit
      rcases l with _ | ⟨b, l⟩
      · obtain ⟨e', hnext⟩ := hgo
        simpa [rangeTerms] using (addTerms_of_visit hvisit).1 e' hnext
      · obtain ⟨e', hnext, hshows, hgo⟩ := hgo
        rw [(addTerms_of_visit hvisit).2 e' hnext]
        exact addTerms_of_enumerates ⟨hshows, hgo⟩
    have hbreak : q.visit maxClauseCount (some a.1) checkLower clauses = none →
        q.addTerms maxClauseCount e checkLower clauses = some clauses := by
      intro hvisit
      unfold addTerms
      rw [hterm, hvisit]
    rw [map_cons, rangeTerms]
    split_ifs with hfield hlower hbeyond
    · exact hbreak (by simp [visit, hfield, hlower, hbeyond])
    · exact hrest (by simp [visit, hfield, hlower, hbeyond])
    · exact hrest (by simp only [visit, if_pos hfield, if_neg hlower])
    · exact hbreak (by simp [visit, hfield])

end loop

end RangeQuery

namespace TermIndex

variable [Collation] {index : TermIndex} {t u : Term} {l : List Term}

theorem Shows.mem_or (h : index.Shows t l) (hu : u ∈ l) :
    u ∈ index.staleTerms t ∨ index.HasTerm u ∧ t ≤ u := by
  obtain ⟨d, hd, entry, hentry, rfl⟩ := (h.mem_iff u).1 hu
  rcases mem_append.1 hentry with hstale | hfrom
  · exact .inl ⟨d, hd, entry, by simpa using hstale, rfl⟩
  · obtain ⟨hmem, hle⟩ := mem_filter.1 hfrom
    exact .inr ⟨⟨d, hd, entry, hmem, rfl⟩, by simpa using hle⟩

theorem Shows.mem_of_hasTerm (h : index.Shows t l) (hu : index.HasTerm u) (hle : t ≤ u) :
    u ∈ l := by
  obtain ⟨d, hd, entry, hentry, rfl⟩ := hu
  refine (h.mem_iff _).2 ⟨d, hd, entry, mem_append_right _ ?_, rfl⟩
  exact mem_filter.2 ⟨hentry, by simpa using hle⟩

theorem Shows.mem_of_staleTerms (h : index.Shows t l) (hu : u ∈ index.staleTerms t) : u ∈ l := by
  obtain ⟨d, hd, entry, hentry, rfl⟩ := hu
  refine (h.mem_iff _).2 ⟨d, hd, entry, mem_append_left _ ?_, rfl⟩
  simp [hentry]

theorem lt_of_mem_staleTerms (h : u ∈ index.staleTerms t) :
    u < t ∨ t = Term.empty ∧ u = Term.empty := by
  obtain ⟨d, -, entry, hentry, rfl⟩ := h
  exact Dictionary.staleEntry_spec hentry

theorem HasTerm.ne_empty (h : index.HasTerm t) : t ≠ Term.empty := by
  obtain ⟨d, -, entry, hentry, rfl⟩ := h
  exact d.written entry hentry

theorem Shows.head_of_isLeast (h : index.Shows t l) (hu : IsLeast (index.staleTerms t) u) :
    ∃ rest, l = u :: rest := by
  have hmem := h.mem_of_staleTerms hu.1
  rcases l with _ | ⟨v, rest⟩
  · cases hmem
  · obtain ⟨hhead, -⟩ := pairwise_cons.1 h.increasing
    refine ⟨rest, ?_⟩
    rcases mem_cons.1 hmem with rfl | hrest
    · rfl
    · have hlt := hhead u hrest
      rcases h.mem_or mem_cons_self with hstale | ⟨-, hle⟩
      · exact absurd hlt (hu.2 hstale).not_gt
      · rcases lt_of_mem_staleTerms hu.1 with hbelow | ⟨rfl, rfl⟩
        · exact absurd (hlt.trans hbelow) hle.not_gt
        · exact absurd hlt (Term.empty_le v).not_gt

/-- Where nothing stale is shown, all that is shown is from `t` on. -/
theorem Shows.exists_isLeast (h : index.Shows t l) :
    (∃ u, IsLeast (index.staleTerms t) u) ∨ ∀ u ∈ l, index.HasTerm u ∧ t ≤ u := by
  rcases l with _ | ⟨v, rest⟩
  · exact .inr (by simp)
  have hfirst : ∀ u ∈ v :: rest, v ≤ u := by
    intro u hu
    rcases mem_cons.1 hu with rfl | hu
    · exact le_rfl
    · exact ((pairwise_cons.1 h.increasing).1 u hu).le
  rcases h.mem_or mem_cons_self with hstale | ⟨hterm, hle⟩
  · exact .inl ⟨v, hstale, fun u hu => hfirst u (h.mem_of_staleTerms hu)⟩
  · right
    intro u hu
    refine (h.mem_or hu).resolve_left fun hstale => ?_
    rcases lt_of_mem_staleTerms hstale with hlt | ⟨-, rfl⟩
    · exact absurd hlt (hle.trans (hfirst u hu)).not_gt
    · exact absurd (hfirst _ hu) (Term.empty_lt_iff.2 hterm.ne_empty).not_ge

theorem exists_shows (h : ∀ d ∈ index.dictionaries, d.Answers t) : ∃ l : List (Term × ℕ),
    index.Shows t (l.map Prod.fst) ∧ match index with
      | .segment reader => ∃ e, reader.termReader.termEnumeratorWithTerm t = some e
          ∧ Enumerates ShowsTerm e l
      | .multi subReaders => ∃ e,
          initWithReaders (subReaders.map fun p => (p.1, p.2.termReader)) (some t) = some e
            ∧ Enumerates ShowsTerm e l := by
  cases index with
  | segment reader =>
    have hreader := h reader mem_cons_self
    refine ⟨_, ⟨?_, fun u => ?_⟩, Dictionary.starts_shown hreader⟩
    · exact pairwise_map.2 (Dictionary.increasingTerms Dictionary.increasing_shown)
    · simp [dictionaries, Entry.docFreq]
  | multi subReaders =>
    obtain ⟨e, U, hinit, hunion, henum⟩ :=
      initWithReaders_of_starts_map (fun p => (p.2.shown t).map Entry.docFreq) fun p hp =>
        ⟨Dictionary.starts_shown (h p.2 (mem_map_of_mem hp)),
          Dictionary.increasingTerms Dictionary.increasing_shown⟩
    refine ⟨U, ⟨pairwise_map.2 hunion.increasing, fun u => ?_⟩, e, hinit, henum⟩
    constructor
    · intro hu
      obtain ⟨⟨_, n⟩, hU, rfl⟩ := mem_map.1 hu
      obtain ⟨⟨a, ha, hau⟩, -⟩ := (hunion.mem_iff _ n).1 hU
      obtain ⟨p, hp, ha⟩ := mem_flatMap.1 ha
      obtain ⟨entry, hentry, rfl⟩ := mem_map.1 ha
      exact ⟨p.2, mem_map_of_mem hp, entry, hentry, hau⟩
    · rintro ⟨d, hd, entry, hentry, rfl⟩
      obtain ⟨p, hp, rfl⟩ := mem_map.1 hd
      have hmem : entry.docFreq ∈ subReaders.flatMap fun p => (p.2.shown t).map Entry.docFreq :=
        mem_flatMap.2 ⟨p, hp, mem_map_of_mem hentry⟩
      exact mem_map.2 ⟨_, (hunion.mem_iff entry.1 _).2 ⟨⟨_, hmem, rfl⟩, rfl⟩, rfl⟩

end TermIndex

section terms
variable [Collation] {lowerTerm t u first : Term} {upperTerm : Option NSString}
  {inclusive checkLower : Bool} {terms rest : List Term}

theorem rangeTerms_sublist : ∀ {checkLower : Bool} {terms : List Term},
    (rangeTerms lowerTerm upperTerm inclusive checkLower terms).Sublist terms
  | _, [] => .slnil
  | checkLower, term :: terms => by
    rw [rangeTerms]
    split_ifs
    · exact nil_sublist _
    · exact rangeTerms_sublist.cons_cons term
    · exact rangeTerms_sublist.cons term
    · exact nil_sublist _

/-- Terms of the field in front of the lower one are passed over, where that is excluded. -/
theorem rangeTerms_filter : ∀ {terms : List Term}, terms.Pairwise (· < ·) →
    (∀ u ∈ terms, u < lowerTerm → u.field = lowerTerm.field) →
      rangeTerms lowerTerm upperTerm inclusive true (terms.filter (lowerTerm ≤ ·))
        = rangeTerms lowerTerm upperTerm inclusive true terms
  | [], _, _ => rfl
  | term :: terms, hsorted, hfield => by
    obtain ⟨hhead, htail⟩ := pairwise_cons.1 hsorted
    rcases le_or_gt lowerTerm term with hle | hlt
    · rw [filter_eq_self.2]
      intro u hu
      rw [decide_eq_true_iff]
      rcases mem_cons.1 hu with rfl | hu
      · exact hle
      · exact hle.trans (hhead u hu).le
    · have hterm := hfield term mem_cons_self hlt
      have hnot : ¬ Collated.mk lowerTerm.text < ⟨term.text⟩ :=
        (Term.text_le hlt.le hterm).not_gt
      rw [filter_cons_of_neg (by simpa using hlt), rangeTerms, if_pos hterm,
        if_neg (by simpa using hnot),
        rangeTerms_filter htail fun u hu => hfield u (mem_cons_of_mem _ hu)]

theorem InRange.le (h : InRange lowerTerm upperTerm inclusive t) : lowerTerm ≤ t := by
  obtain ⟨hfield, htext, -⟩ := h
  have hle : Collated.mk lowerTerm.text ≤ ⟨t.text⟩ := by
    cases inclusive with
    | true => simpa using htext
    | false => exact le_of_lt (by simpa using htext)
  by_contra hlt
  rcases Term.lt_iff.1 (not_le.1 hlt) with hfields | ⟨-, htexts⟩
  · rw [hfield] at hfields
    exact lt_irrefl _ hfields
  · exact absurd htexts hle.not_gt

end terms

namespace TermIndex

variable [Collation] {index : TermIndex} {lowerTerm t u first : Term}
  {upperTerm : Option NSString} {inclusive : Bool} {l : List Term}

/-- What the first of the stale terms does to the terms of a range: one of another field ends the
loop, and one of the field is passed over, or is beyond the range itself. -/
def Harmless (index : TermIndex) (lowerTerm : Term) (upperTerm : Option NSString)
    (inclusive : Bool) : Prop :=
  ∀ first, IsLeast (index.staleTerms lowerTerm) first →
    if first.field = lowerTerm.field then inclusive = false ∨ beyond upperTerm inclusive first
    else ∀ t, index.HasTerm t → ¬InRange lowerTerm upperTerm inclusive t

theorem Shows.mem_rangeTerms_iff (h : index.Shows lowerTerm l)
    (hharmless : index.Harmless lowerTerm upperTerm inclusive) :
    t ∈ rangeTerms lowerTerm upperTerm inclusive (!inclusive) l
      ↔ index.HasTerm t ∧ InRange lowerTerm upperTerm inclusive t := by
  rcases h.exists_isLeast with ⟨first, hfirst⟩ | hall
  · obtain ⟨rest, rfl⟩ := h.head_of_isLeast hfirst
    have hle : ∀ u ∈ first :: rest, first ≤ u := by
      intro u hu
      rcases mem_cons.1 hu with rfl | hu
      · exact le_rfl
      · exact ((pairwise_cons.1 h.increasing).1 u hu).le
    have hcond := hharmless first hfirst
    split_ifs at hcond with hfield
    · rcases Bool.eq_false_or_eq_true inclusive with rfl | rfl
      · -- beyond the range, with all that comes behind it
        have hbeyond := hcond.resolve_left (by simp)
        rw [rangeTerms, if_pos hfield, if_pos (.inl rfl), if_pos hbeyond]
        refine iff_of_false not_mem_nil ?_
        rintro ⟨hterm, hin⟩
        have hmem := h.mem_of_hasTerm hterm hin.le
        have := beyond_mono (hle t hmem) (hfield.trans hin.1.symm) hbeyond
        rw [hin.2.2] at this
        cases this
      · have hfields : ∀ u ∈ first :: rest, u < lowerTerm → u.field = lowerTerm.field := by
          intro u hu hlt
          refine (Term.field_eq_of_between (hle u hu) hlt.le hfield.symm).trans hfield
        rw [Bool.not_false, ← rangeTerms_filter h.increasing hfields,
          mem_rangeTerms (h.increasing.filter _) (by simp) (by simp) (by simp), mem_filter]
        constructor
        · rintro ⟨⟨hmem, hlower⟩, hin⟩
          refine ⟨((h.mem_or hmem).resolve_left fun hstale => ?_).1, hin⟩
          rcases lt_of_mem_staleTerms hstale with hlt | ⟨rfl, rfl⟩
          · exact absurd hlt hin.le.not_gt
          · exact lt_irrefl _ hin.2.1
        · rintro ⟨hterm, hin⟩
          exact ⟨⟨h.mem_of_hasTerm hterm hin.le, by simpa using hin.le⟩, hin⟩
    · rw [rangeTerms, if_neg hfield]
      exact iff_of_false not_mem_nil fun h => hcond t h.1 h.2
  · rw [mem_rangeTerms h.increasing (fun u hu => (hall u hu).2) (by simp)
      fun hoff hexcl => by simp [hexcl] at hoff]
    constructor
    · rintro ⟨hmem, hin⟩
      exact ⟨(hall t hmem).1, hin⟩
    · rintro ⟨hterm, hin⟩
      exact ⟨h.mem_of_hasTerm hterm hin.le, hin⟩

theorem Shows.exists_of_not_harmless (h : index.Shows lowerTerm l)
    (hharmless : ¬index.Harmless lowerTerm upperTerm inclusive) :
    (rangeTerms lowerTerm upperTerm inclusive (!inclusive) l = []
        ∧ ∃ t, index.HasTerm t ∧ InRange lowerTerm upperTerm inclusive t)
      ∨ ∃ first terms, first ∈ index.staleTerms lowerTerm
        ∧ rangeTerms lowerTerm upperTerm inclusive (!inclusive) l = first :: terms := by
  unfold Harmless at hharmless
  push Not at hharmless
  obtain ⟨first, hfirst, hcond⟩ := hharmless
  obtain ⟨rest, rfl⟩ := h.head_of_isLeast hfirst
  split_ifs at hcond with hfield
  · right
    push Not at hcond
    obtain ⟨hinclusive, hbeyond⟩ := hcond
    rw [rangeTerms, if_pos hfield, if_pos (.inl (by simpa using hinclusive)), if_neg hbeyond]
    exact ⟨first, _, hfirst.1, rfl⟩
  · left
    rw [rangeTerms, if_neg hfield]
    push Not at hcond
    exact ⟨rfl, hcond⟩

end TermIndex

def Within [Collation] (lower upper : Option Term) (inclusive : Bool) (t : Term) : Prop :=
  (∀ b ∈ lower, t.field = b.field
    ∧ if inclusive then Collated.mk b.text ≤ ⟨t.text⟩ else Collated.mk b.text < ⟨t.text⟩)
  ∧ ∀ b ∈ upper, t.field = b.field
    ∧ if inclusive then Collated.mk t.text ≤ ⟨b.text⟩ else Collated.mk t.text < ⟨b.text⟩

namespace RangeQuery

variable [One F] [Collation] {maxClauseCount : ℕ} {q : RangeQuery F} {lower upper : Option Term}
  {inclusive : Bool} {index : TermIndex} {t : Term}

theorem beyond_eq_false_iff : beyond (upper.map Term.text) inclusive t = false
    ↔ ∀ b ∈ upper, if inclusive then Collated.mk t.text ≤ ⟨b.text⟩
      else Collated.mk t.text < ⟨b.text⟩ := by
  cases upper with
  | none => simp [beyond]
  | some b =>
    cases inclusive with
    | true => simp [beyond]
    | false =>
      have hiff : Collated.mk t.text < ⟨b.text⟩
          ↔ Collated.mk t.text ≤ ⟨b.text⟩ ∧ ¬b.text = t.text := by
        rw [lt_iff_le_and_ne, ne_comm, Ne, Collated.mk.injEq]
      simp [beyond, hiff]

/-- The range that the loop selects, but for the empty text where a lower bound is missing. -/
theorem within_iff (h : initWithLowerTerm lower upper inclusive = some q) :
    Within lower upper inclusive t
      ↔ t.field = q.lowerTerm.field
        ∧ (inclusive = true ∧ Collated.mk q.lowerTerm.text ≤ ⟨t.text⟩
          ∨ inclusive = false ∧ (Collated.mk q.lowerTerm.text < ⟨t.text⟩ ∨ lower = none))
        ∧ beyond (q.upperTerm.map Term.text) inclusive t = false := by
  rw [beyond_eq_false_iff]
  unfold initWithLowerTerm at h
  unfold Within
  split at h
  · cases h
  · obtain rfl := some.inj h
    cases inclusive <;> simp
  · obtain rfl := some.inj h
    have hnil := nil_le ⟨t.text⟩
    cases inclusive <;> simp [hnil]
  · split_ifs at h with hfield
    obtain rfl := some.inj h
    cases inclusive <;> simp [hfield] <;> tauto

omit [Collation] in
theorem init_fields (h : initWithLowerTerm lower upper inclusive = some q) :
    q.upperTerm = upper ∧ q.inclusive = inclusive := by
  unfold initWithLowerTerm at h
  split at h
  · cases h
  · obtain rfl := some.inj h
    exact ⟨rfl, rfl⟩
  · obtain rfl := some.inj h
    exact ⟨rfl, rfl⟩
  · split_ifs at h
    obtain rfl := some.inj h
    exact ⟨rfl, rfl⟩

theorem within_of_inRange (h : initWithLowerTerm lower upper inclusive = some q)
    (hin : InRange q.lowerTerm (q.upperTerm.map Term.text) inclusive t) :
    Within lower upper inclusive t := by
  obtain ⟨hfield, htext, hbeyond⟩ := hin
  refine (within_iff h).2 ⟨hfield, ?_, hbeyond⟩
  cases inclusive with
  | true => exact .inl ⟨rfl, by simpa using htext⟩
  | false => exact .inr ⟨rfl, .inl (by simpa using htext)⟩

omit [Collation] in
theorem lowerTerm_text (h : initWithLowerTerm none upper inclusive = some q) :
    q.lowerTerm.text = [] := by
  unfold initWithLowerTerm at h
  cases upper with
  | none => cases h
  | some upper =>
    obtain rfl := some.inj h
    rfl

/-- A term within the bounds is one of the range, unless the bound that it has to be above is the
empty text that stands for a missing one. -/
theorem inRange_of_within (h : initWithLowerTerm lower upper inclusive = some q)
    (ht : Within lower upper inclusive t)
    (hne : lower = none → inclusive = false → t.text ≠ q.lowerTerm.text) :
    InRange q.lowerTerm (q.upperTerm.map Term.text) inclusive t := by
  have hle : lower = none → Collated.mk q.lowerTerm.text ≤ ⟨t.text⟩ := by
    rintro rfl
    rw [lowerTerm_text h]
    exact nil_le _
  obtain ⟨hfield, htext, hbeyond⟩ := (within_iff h).1 ht
  refine ⟨hfield, ?_, hbeyond⟩
  rcases htext with ⟨rfl, htext⟩ | ⟨rfl, htext | hlower⟩
  · simpa using htext
  · simpa using htext
  · rw [if_neg (by simp)]
    exact lt_of_le_of_ne (hle hlower) fun heq => hne hlower rfl (congrArg Collated.string heq).symm

theorem lowerTerm_le (h : initWithLowerTerm lower upper inclusive = some q)
    (ht : Within lower upper inclusive t) : q.lowerTerm ≤ t := by
  by_cases htext : t.text = q.lowerTerm.text
  · have hfield := ((within_iff h).1 ht).1
    have : t = q.lowerTerm := by
      cases t
      cases hlower : q.lowerTerm
      simp_all
    exact this.ge
  · exact (inRange_of_within h ht fun _ _ => htext).le

end RangeQuery

section rewrite
variable [One F] [Collation] {maxClauseCount : ℕ} {q : RangeQuery F} {lower upper : Option Term}
  {inclusive : Bool} {index : TermIndex} {t : Term}

theorem RangeQuery.rewrite_of_answers (h : ∀ d ∈ index.dictionaries, d.Answers q.lowerTerm) :
    ∃ l, index.Shows q.lowerTerm l ∧ q.rewrite maxClauseCount index
      = some (.boolean (((rangeTerms q.lowerTerm (q.upperTerm.map Term.text) q.inclusive
          (!q.inclusive) l).take maxClauseCount).map q.clause) 1 true 0) := by
  obtain ⟨l, hshows, hindex⟩ := TermIndex.exists_shows h
  refine ⟨_, hshows, ?_⟩
  unfold rewrite clauses
  cases index with
  | segment reader =>
    obtain ⟨e, he, henum⟩ := hindex
    simp [he, addTerms_of_enumerates henum, foldl_addQuery, map_take]
  | multi subReaders =>
    obtain ⟨e, he, henum⟩ := hindex
    simp [he, addTerms_of_enumerates henum, foldl_addQuery, map_take]

theorem RangeQuery.setBoost_rewrite_of_answers (boost : F)
    (h : ∀ d ∈ index.dictionaries, d.Answers q.lowerTerm) :
    ∃ l, index.Shows q.lowerTerm l ∧ (q.setBoost boost).rewrite maxClauseCount index
      = some (.boolean (((rangeTerms q.lowerTerm (q.upperTerm.map Term.text) q.inclusive
          (!q.inclusive) l).take maxClauseCount).map fun t => (.should, .term t boost)) 1 true 0) :=
  @rewrite_of_answers _ _ _ maxClauseCount (q.setBoost boost) index h

theorem RangeQuery.answers_of_rewrite {result : Query F}
    (h : q.rewrite maxClauseCount index = some result) :
    ∀ d ∈ index.dictionaries, d.Answers q.lowerTerm := by
  obtain ⟨clauses, hclauses, -⟩ := map_eq_some_iff.1 h
  cases index with
  | segment reader =>
    obtain ⟨e, he, -⟩ := bind_eq_some_iff.1 hclauses
    intro d hd
    rw [mem_singleton.1 hd]
    exact Dictionary.answers_iff.1 ⟨e, he⟩
  | multi subReaders =>
    obtain ⟨e, he, -⟩ := bind_eq_some_iff.1 hclauses
    obtain ⟨queue, hqueue, -⟩ := bind_eq_some_iff.1 he
    intro d hd
    obtain ⟨p, hp, rfl⟩ := mem_map.1 hd
    exact Dictionary.answers_iff.1 (exists_of_initQueue hqueue _ (mem_map_of_mem hp))

/-- One optional clause for each term of the index within the bounds, and no other. -/
def Selects (index : TermIndex) (lower upper : Option Term) (inclusive : Bool) (boost : F)
    (result : Option (Query F)) : Prop :=
  ∃ terms : List Term, terms.Nodup
    ∧ (∀ t, t ∈ terms ↔ index.HasTerm t ∧ Within lower upper inclusive t)
    ∧ result = some (.boolean (terms.map fun t => (.should, .term t boost)) 1 true 0)

/-- Where the clauses of the range from `start` on are right. -/
structure Selectable (index : TermIndex) (lower upper : Option Term) (inclusive : Bool)
    (start : Term) (maxClauseCount : ℕ) : Prop where
  answers : ∀ d ∈ index.dictionaries, d.Answers start
  count_le : {t | index.HasTerm t ∧ Within lower upper inclusive t}.ncard ≤ maxClauseCount
  /-- The empty text stands for a missing lower term, and is then excluded. -/
  text_ne : lower = none → inclusive = false →
    ∀ t, index.HasTerm t → Within lower upper inclusive t → t.text ≠ []
  harmless : index.Harmless start (upper.map Term.text) inclusive

theorem ncard_of_nodup {terms : List Term} (h : terms.Nodup) :
    {t | t ∈ terms}.ncard = terms.length := by
  have hset : {t | t ∈ terms} = (terms.toFinset : Set Term) := by
    ext
    simp
  rw [hset, Set.ncard_coe_finset, toFinset_card_of_nodup h]

theorem selectable_of_selects (hmax : 0 < maxClauseCount)
    (h : RangeQuery.initWithLowerTerm lower upper inclusive = some q) {boost : F}
    (hselects : Selects index lower upper inclusive boost
      ((q.setBoost boost).rewrite maxClauseCount index)) :
    Selectable index lower upper inclusive q.lowerTerm maxClauseCount := by
  obtain ⟨rfl, rfl⟩ := RangeQuery.init_fields h
  obtain ⟨terms, hnodup, hmem, hresult⟩ := hselects
  have hanswers : ∀ d ∈ index.dictionaries, d.Answers q.lowerTerm :=
    @RangeQuery.answers_of_rewrite _ _ _ maxClauseCount (q.setBoost boost) index _ hresult
  obtain ⟨l, hshows, hrewrite⟩ :=
    @RangeQuery.setBoost_rewrite_of_answers _ _ _ maxClauseCount q index boost hanswers
  rw [hrewrite] at hresult
  obtain rfl : (rangeTerms q.lowerTerm (q.upperTerm.map Term.text) q.inclusive (!q.inclusive)
      l).take maxClauseCount = terms := by
    have hclauses := some.inj hresult
    simp only [Query.boolean.injEq] at hclauses
    exact map_injective_iff.2 (fun t u htu => by simpa using htu) hclauses.1
  have hharmless : index.Harmless q.lowerTerm (q.upperTerm.map Term.text) q.inclusive := by
    by_contra hnot
    rcases hshows.exists_of_not_harmless hnot with ⟨hnil, t, hterm, hin⟩
      | ⟨first, rest, hstale, hcons⟩
    · have ht := (hmem t).2 ⟨hterm, RangeQuery.within_of_inRange h hin⟩
      rw [hnil] at ht
      simp at ht
    · obtain ⟨n, rfl⟩ := Nat.exists_eq_add_of_le' hmax
      rw [hcons, take_succ_cons] at hmem
      obtain ⟨hterm, hwithin⟩ := (hmem first).1 mem_cons_self
      rcases TermIndex.lt_of_mem_staleTerms hstale with hlt | ⟨-, hempty⟩
      · exact absurd hlt (RangeQuery.lowerTerm_le h hwithin).not_gt
      · exact hterm.ne_empty hempty
  refine ⟨hanswers, ?_, ?_, hharmless⟩
  · simp only [← hmem]
    rw [ncard_of_nodup hnodup]
    exact length_take_le _ _
  · intro hlower hexcl t hterm ht htext
    have hin := (hshows.mem_rangeTerms_iff hharmless).1
      (mem_of_mem_take ((hmem t).2 ⟨hterm, ht⟩))
    have hlt := hin.2.2.1
    rw [if_neg (by simp [hexcl]), htext] at hlt
    exact absurd hlt (nil_le _).not_gt

theorem selects_of_selectable
    (h : RangeQuery.initWithLowerTerm lower upper inclusive = some q) {boost : F}
    (hselectable : Selectable index lower upper inclusive q.lowerTerm maxClauseCount) :
    Selects index lower upper inclusive boost
      ((q.setBoost boost).rewrite maxClauseCount index) := by
  obtain ⟨rfl, rfl⟩ := RangeQuery.init_fields h
  obtain ⟨hanswers, hcount, htext, hharmless⟩ := hselectable
  obtain ⟨l, hshows, hrewrite⟩ :=
    @RangeQuery.setBoost_rewrite_of_answers _ _ _ maxClauseCount q index boost hanswers
  have hmem : ∀ t, t ∈ rangeTerms q.lowerTerm (q.upperTerm.map Term.text) q.inclusive
      (!q.inclusive) l ↔ index.HasTerm t ∧ Within lower q.upperTerm q.inclusive t := by
    intro t
    rw [hshows.mem_rangeTerms_iff hharmless]
    refine ⟨fun ⟨hterm, hin⟩ => ⟨hterm, RangeQuery.within_of_inRange h hin⟩, ?_⟩
    rintro ⟨hterm, ht⟩
    refine ⟨hterm, RangeQuery.inRange_of_within h ht fun hlower hexcl => ?_⟩
    subst hlower
    rw [RangeQuery.lowerTerm_text h]
    exact htext rfl hexcl t hterm ht
  have hnodup : (rangeTerms q.lowerTerm (q.upperTerm.map Term.text) q.inclusive
      (!q.inclusive) l).Nodup :=
    rangeTerms_sublist.nodup (hshows.increasing.imp ne_of_lt)
  simp only [← hmem] at hcount
  rw [ncard_of_nodup hnodup] at hcount
  rw [take_of_length_le hcount] at hrewrite
  exact ⟨_, hnodup, hmem, hrewrite⟩

/-- A range query selects its range exactly where every segment answers, there are no more terms
than there may be clauses, and the stale terms of the enumerators do no harm. -/
theorem rangeQuery_selects_iff (hmax : 0 < maxClauseCount)
    (h : RangeQuery.initWithLowerTerm lower upper inclusive = some q) (boost : F)
    (index : TermIndex) :
    Selects index lower upper inclusive boost ((q.setBoost boost).rewrite maxClauseCount index)
      ↔ Selectable index lower upper inclusive q.lowerTerm maxClauseCount :=
  ⟨selectable_of_selects hmax h, selects_of_selectable h⟩

end rewrite

/-- The range of the field `a` from the text `c` on, with the bound. -/
def fromC : RangeQuery ℕ := ⟨⟨[97], [99]⟩, none, true, 1⟩

/-- On a segment whose one term is `b`. -/
theorem rangeQuery_selects_iff_fromC :
    ∃ d : @Dictionary units, @Dictionary.entries units d = [oneEntry]
      ∧ (@Selects ℕ _ units (@TermIndex.segment units d)
          (some ⟨[97], [99]⟩) none true 1
          (@RangeQuery.rewrite ℕ _ units 1024 (fromC.setBoost 1)
            (@TermIndex.segment units d))
        ↔ @Selectable units (@TermIndex.segment units d)
          (some ⟨[97], [99]⟩) none true ⟨[97], [99]⟩ 1024) := by
  let _ := units
  obtain ⟨d, hd⟩ := exists_dictionary oneEntry_fits nofun
  exact ⟨d, hd, @rangeQuery_selects_iff ℕ _ _ 1024 fromC (some ⟨[97], [99]⟩) none true (by simp)
    rfl 1 (.segment d)⟩

/-- It gets a clause for `b`. -/
theorem not_selects_fromC :
    ∃ d : @Dictionary units, @Dictionary.entries units d = [oneEntry]
      ∧ ¬@Selects ℕ _ units (@TermIndex.segment units d)
          (some ⟨[97], [99]⟩) none true 1
          (@RangeQuery.rewrite ℕ _ units 1024 (fromC.setBoost 1)
            (@TermIndex.segment units d)) := by
  let _ := units
  obtain ⟨d, hd⟩ := exists_dictionary oneEntry_fits nofun
  refine ⟨d, hd, fun h => ?_⟩
  have hlt : oneEntry.1 < (⟨[97], [99]⟩ : Term) := by
    have htext : ([98] : NSString) < [99] := Lex.rel (by decide)
    exact Term.lt_iff.2 (.inr ⟨rfl, htext⟩)
  have hstale : d.staleEntry ⟨[97], [99]⟩ = some oneEntry := by
    simp [Dictionary.staleEntry, hd, Term.empty, hlt.not_ge]
  have hselectable : Selectable (.segment d) (some ⟨[97], [99]⟩) none true fromC.lowerTerm 1024 :=
    selectable_of_selects (by simp) rfl h
  have hleast : IsLeast ((TermIndex.segment d).staleTerms fromC.lowerTerm) oneEntry.1 := by
    refine ⟨⟨d, mem_cons_self, oneEntry, hstale, rfl⟩, ?_⟩
    rintro u ⟨d', hd', entry, hentry, rfl⟩
    rw [mem_singleton.1 hd'] at hentry
    rw [show fromC.lowerTerm = ⟨[97], [99]⟩ from rfl, hstale] at hentry
    exact (congrArg Prod.fst (some.inj hentry)).le
  have hharmless := hselectable.harmless oneEntry.1 hleast
  simp [fromC, oneEntry, beyond] at hharmless

end Etoile.Lucene
