import Etoile.Lucene.QueryHandler

/-!
# The queries that clauses are parsed to

The handler carries how a clause occurs, and its field, on to the clauses behind.  Where nothing
that is carried matters (`Clauses.Independent`), the query is the one that the clauses mean.
-/

namespace Etoile.Lucene

open List

variable {F : Type}

def occurOf (joiner : Joiner) (modifier : Modifier) (next : Joiner) : Occur :=
  match modifier with
  | .plus => .must
  | .minus | .not => .mustNot
  | .nothing => if joiner = .and ∨ next = .and then .must else .should

def Modifier.negative : Modifier → Bool
  | nothing | plus => false
  | minus | not => true

namespace Clauses

def wildcards : Clauses → Bool
  | nil => false
  | term _ _ _ text rest => wildcard text.text || rest.wildcards
  | group _ _ _ _ rest => rest.wildcards

/-- A clause for each operand, as its own operators and its own field say; a group is the query of
its contents. -/
def meant [One F] (defaultField : NSString) : Clauses → List (Occur × Query F)
  | nil => []
  | term joiner modifier field text rest =>
    (occurOf joiner modifier rest.joiner,
      termQuery ((field.map Word.text).getD defaultField) text.text) :: rest.meant defaultField
  | group joiner modifier _ contents rest =>
    (occurOf joiner modifier rest.joiner,
      .boolean (contents.meant defaultField) 1 contents.wildcards 0) :: rest.meant defaultField

def query [One F] (defaultField : NSString) (c : Clauses) : Query F :=
  .boolean (c.meant defaultField) 1 c.wildcards 0

end Clauses

/-- An operand that excludes is not followed by AND; one that has no operators is not in the place
of something carried over. -/
@[mk_iff]
structure Binds (carried : Bool) (joiner : Joiner) (modifier : Modifier) (next : Joiner) :
    Prop where
  negative : modifier.negative → next ≠ .and
  plain : modifier = .nothing → joiner = .nothing → next ≠ .and → carried = false

/-- No operand depends on what precedes it.  A term carries an exclusion over to the next operand,
and a group its modifier, or the AND in front of it; a field is carried over to all terms behind.
The contents of a group do not depend on anything, but they must not be more than the limit. -/
def Clauses.Independent (maxClauseCount : ℕ) (defaultField : NSString) :
    Bool → Option NSString → Clauses → Prop
  | _, _, nil => True
  | carried, carriedField, term joiner modifier field _ rest =>
    Binds carried joiner modifier rest.joiner
      ∧ (field = none → ∀ name ∈ carriedField, name = defaultField)
      ∧ rest.Independent maxClauseCount defaultField modifier.negative
        (field.map Word.text <|> carriedField)
  | carried, carriedField, group joiner modifier field contents rest =>
    Binds carried joiner modifier rest.joiner
      ∧ (contents.count ≤ maxClauseCount
        ∧ contents.Independent maxClauseCount defaultField false none)
      ∧ rest.Independent maxClauseCount defaultField (modifier ≠ .nothing || joiner = .and)
        (field.map Word.text <|> carriedField)

def headOccur (pending : Occur) (joiner : Joiner) : Modifier → Occur
  | .plus => .must
  | .minus | .not => .mustNot
  | .nothing =>
    match joiner with
    | .nothing => pending
    | .and => .must
    | .or => .should

def closing (next : Joiner) (occur : Occur) : Occur := if next = .and then .must else occur

def closed (next : Joiner) (clauses : List (Occur × Query F)) : List (Occur × Query F) :=
  if next = .and then lastMust clauses else clauses

theorem closed_concat (next : Joiner) (clauses : List (Occur × Query F)) (occur : Occur)
    (q : Query F) :
    closed next (clauses ++ [(occur, q)]) = clauses ++ [(closing next occur, q)] := by
  unfold closed closing
  split_ifs
  · simp [lastMust]
  · rfl

theorem length_lastMust (clauses : List (Occur × Query F)) :
    (lastMust clauses).length = clauses.length := by
  rcases eq_nil_or_concat clauses with rfl | ⟨front, ⟨occur, q⟩, rfl⟩
  · rfl
  · simp [lastMust]

theorem length_closed (next : Joiner) (clauses : List (Occur × Query F)) :
    (closed next clauses).length = clauses.length := by
  unfold closed
  split_ifs
  · exact length_lastMust clauses
  · rfl

theorem addClause_of_lt {maxClauseCount : ℕ} {clauses : List (Occur × Query F)}
    {clause : Occur × Query F} (h : clauses.length < maxClauseCount) :
    addClause maxClauseCount clauses clause = clauses ++ [clause] :=
  if_neg h.not_ge

theorem length_addClause_le {maxClauseCount : ℕ} {clauses : List (Occur × Query F)}
    {clause : Occur × Query F} (h : clauses.length ≤ maxClauseCount) :
    (addClause maxClauseCount clauses clause).length ≤ maxClauseCount := by
  unfold addClause
  split_ifs with hfull
  · exact h
  · rw [length_append, length_singleton]
    omega

namespace Level

variable {l : Level F} {joiner : Joiner} {modifier : Modifier} {field : Option Word}

@[simp] theorem clauses_head : (l.head joiner modifier field).clauses = closed joiner l.clauses := by
  cases field <;> cases modifier <;> cases joiner <;> rfl

@[simp] theorem occur_head :
    (l.head joiner modifier field).occur = headOccur l.occur joiner modifier := by
  cases field <;> cases modifier <;> cases joiner <;> rfl

@[simp] theorem field_head :
    (l.head joiner modifier field).field = (field.map Word.text <|> l.field) := by
  cases field <;> cases modifier <;> cases joiner <;> rfl

@[simp] theorem coordinationDisabled_head :
    (l.head joiner modifier field).coordinationDisabled = l.coordinationDisabled := by
  cases field <;> cases modifier <;> cases joiner <;> rfl

theorem clauses_addQuery {maxClauseCount : ℕ} (h : l.clauses.length < maxClauseCount)
    (q : Query F) : ((l.head joiner modifier field).addQuery maxClauseCount q).clauses
      = closed joiner l.clauses ++ [(headOccur l.occur joiner modifier, q)] := by
  unfold addQuery
  rw [clauses_head, occur_head]
  exact addClause_of_lt (by rwa [length_closed])

end Level

namespace Clauses

variable [One F] {maxClauseCount : ℕ} {d : NSString}

def built (maxClauseCount : ℕ) (d : NSString) :
    Occur → Option NSString → Clauses → List (Occur × Query F)
  | _, _, nil => []
  | pending, carriedField, term joiner modifier field text rest =>
    (closing rest.joiner (headOccur pending joiner modifier),
      termQuery ((field.map Word.text <|> carriedField).getD d) text.text)
    :: rest.built maxClauseCount d (fallBack (headOccur pending joiner modifier))
      (field.map Word.text <|> carriedField)
  | pending, carriedField, group joiner modifier field contents rest =>
    (closing rest.joiner (headOccur pending joiner modifier),
      (contents.run maxClauseCount d .init).query)
    :: rest.built maxClauseCount d (headOccur pending joiner modifier)
      (field.map Word.text <|> carriedField)

theorem clauses_run : ∀ (c : Clauses) (l : Level F), l.clauses.length + c.count ≤ maxClauseCount →
    (c.run maxClauseCount d l).clauses
      = closed c.joiner l.clauses ++ c.built maxClauseCount d l.occur l.field
  | nil, l, _ => by simp [run, joiner, closed, built]
  | term joiner modifier field text rest, l, h => by
    rw [count] at h
    have hadd := @Level.clauses_addQuery _ l joiner modifier field maxClauseCount (by omega)
      (termQuery ((field.map Word.text <|> l.field).getD d) text.text)
    have hrest := clauses_run rest
      ((l.head joiner modifier field).addTerm maxClauseCount d text.text) (by
        simp only [Level.addTerm, Level.field_head, hadd, length_append, length_closed,
          length_singleton]
        omega)
    rw [run, hrest, Clauses.joiner, built]
    simp only [Level.addTerm, Level.field_head, hadd, closed_concat, append_assoc,
      singleton_append]
    simp only [Level.addQuery, Level.occur_head, Level.field_head]
  | group joiner modifier field contents rest, l, h => by
    rw [count] at h
    have hadd := @Level.clauses_addQuery _ l joiner modifier field maxClauseCount (by omega)
      (contents.run maxClauseCount d .init).query
    have hrest := clauses_run rest
      ((l.head joiner modifier field).addQuery maxClauseCount
        (contents.run maxClauseCount d .init).query) (by
        simp only [hadd, length_append, length_closed, length_singleton]
        omega)
    rw [run, hrest, Clauses.joiner, built]
    simp only [hadd, closed_concat, append_assoc, singleton_append]
    simp only [Level.addQuery, Level.occur_head, Level.field_head]

theorem length_clauses_run : ∀ (c : Clauses) (l : Level F), l.clauses.length ≤ maxClauseCount →
    (c.run maxClauseCount d l).clauses.length ≤ maxClauseCount
  | nil, _, h => h
  | term joiner modifier field text rest, l, h => by
    refine length_clauses_run rest _ (length_addClause_le ?_)
    rwa [Level.clauses_head, length_closed]
  | group joiner modifier field contents rest, l, h => by
    refine length_clauses_run rest _ (length_addClause_le ?_)
    rwa [Level.clauses_head, length_closed]

theorem coordinationDisabled_run : ∀ (c : Clauses) (l : Level F),
    (c.run maxClauseCount d l).coordinationDisabled = (l.coordinationDisabled || c.wildcards)
  | nil, l => by simp [run, wildcards]
  | term joiner modifier field text rest, l => by
    rw [run, coordinationDisabled_run rest, wildcards, ← Bool.or_assoc]
    simp [Level.addTerm]
  | group joiner modifier field contents rest, l => by
    rw [run, coordinationDisabled_run rest, wildcards]
    simp [Level.addQuery]

theorem length_meant : ∀ c : Clauses, (c.meant d : List (Occur × Query F)).length = c.count
  | nil => rfl
  | term _ _ _ _ rest => by rw [meant, count, length_cons, length_meant rest]
  | group _ _ _ _ rest => by rw [meant, count, length_cons, length_meant rest]

variable {modifier : Modifier}

theorem closing_iff {carried : Bool} {pending : Occur} {joiner next : Joiner}
    (h : joiner = .nothing → (carried = false ↔ pending = .should)) :
    closing next (headOccur pending joiner modifier) = occurOf joiner modifier next
      ↔ Binds carried joiner modifier next := by
  rw [binds_iff]
  cases modifier <;> cases joiner <;> cases next <;>
    simp_all [closing, headOccur, occurOf, Modifier.negative]

theorem carried_term {carried : Bool} {pending : Occur} {joiner : Joiner}
    (h : joiner = .nothing → (carried = false ↔ pending = .should))
    (hbinds : Binds carried joiner modifier .nothing) :
    modifier.negative = false ↔ fallBack (headOccur pending joiner modifier) = .should := by
  have hplain := hbinds.plain
  cases modifier <;> cases joiner <;> simp_all [headOccur, fallBack, Modifier.negative]

theorem carried_group {carried : Bool} {pending : Occur} {joiner : Joiner}
    (h : joiner = .nothing → (carried = false ↔ pending = .should))
    (hbinds : Binds carried joiner modifier .nothing) :
    (decide (modifier ≠ .nothing) || decide (joiner = .and)) = false
      ↔ headOccur pending joiner modifier = .should := by
  have hplain := hbinds.plain
  cases modifier <;> cases joiner <;> simp_all [headOccur]

theorem termQuery_inj {f f' t : NSString} :
    (termQuery f t : Query F) = termQuery f' t ↔ f = f' := by
  unfold termQuery
  split_ifs <;> simp

theorem field_iff {field : Option Word} {carriedField : Option NSString} :
    (field.map Word.text <|> carriedField).getD d = (field.map Word.text).getD d
      ↔ (field = none → ∀ name ∈ carriedField, name = d) := by
  cases field <;> cases carriedField <;> simp

/-- A group is the query that is meant just where it is not cut off and no operand in it depends
on another. -/
theorem query_run_iff {c : Clauses} (h : c.built maxClauseCount d .should none
      = (c.meant d : List (Occur × Query F))
        ↔ c.Independent maxClauseCount d false none) :
    (c.run maxClauseCount d .init).query = (c.query d : Query F)
      ↔ c.count ≤ maxClauseCount ∧ c.Independent maxClauseCount d false none := by
  have hdisabled : (c.run maxClauseCount d (.init : Level F)).coordinationDisabled
      = c.wildcards := by
    rw [coordinationDisabled_run]
    exact Bool.false_or _
  have hquery : (c.run maxClauseCount d .init).query = (c.query d : Query F)
      ↔ (c.run maxClauseCount d .init).clauses = (c.meant d : List (Occur × Query F)) := by
    simp [Level.query, query, hdisabled]
  rw [hquery]
  by_cases hcount : c.count ≤ maxClauseCount
  · rw [clauses_run c .init (by simpa [Level.init] using hcount), ← h, and_iff_right hcount]
    have hclosed : closed c.joiner (Level.init : Level F).clauses = [] := by
      simp [closed, Level.init, lastMust]
    rw [hclosed]
    rfl
  · refine iff_of_false (fun heq => hcount ?_) fun hboth => hcount hboth.1
    rw [← length_meant (F := F) (d := d), ← heq]
    exact length_clauses_run c .init (Nat.zero_le _)

theorem built_eq_meant_iff : ∀ (c : Clauses) {carried : Bool} {pending : Occur}
    {carriedField : Option NSString},
    (c.joiner = .nothing → (carried = false ↔ pending = .should)) →
      (c.built maxClauseCount d pending carriedField = (c.meant d : List (Occur × Query F))
        ↔ c.Independent maxClauseCount d carried carriedField)
  | nil, _, _, _, _ => by simp [built, meant, Independent]
  | term joiner modifier field text rest, carried, pending, carriedField, h => by
    have hjoiner : joiner = .nothing → (carried = false ↔ pending = .should) := h
    rw [built, meant, Independent, cons.injEq, Prod.mk.injEq, termQuery_inj, field_iff,
      closing_iff hjoiner, and_assoc]
    refine and_congr_right fun hbinds => and_congr_right fun _ => ?_
    refine built_eq_meant_iff rest fun hnext => ?_
    rw [hnext] at hbinds
    exact carried_term hjoiner hbinds
  | group joiner modifier field contents rest, carried, pending, carriedField, h => by
    have hjoiner : joiner = .nothing → (carried = false ↔ pending = .should) := h
    have hcontents := query_run_iff
      (built_eq_meant_iff contents fun _ => iff_of_true rfl rfl)
    rw [built, meant, Independent, cons.injEq, Prod.mk.injEq, closing_iff hjoiner, and_assoc,
      ← hcontents]
    refine and_congr_right fun hbinds => and_congr_right fun _ => ?_
    refine built_eq_meant_iff rest fun hnext => ?_
    rw [hnext] at hbinds
    exact carried_group hjoiner hbinds

end Clauses

def termSize : Query F → ℕ
  | .term t _ => t.text.length
  | .multiTerm (.wildcard t) _ => t.text.length
  | _ => 0

def totalSize (clauses : List (Occur × Query F)) : ℕ :=
  (clauses.map fun clause => termSize clause.2).sum

@[simp] theorem totalSize_append (clauses clauses' : List (Occur × Query F)) :
    totalSize (clauses ++ clauses') = totalSize clauses + totalSize clauses' := by
  simp [totalSize]

@[simp] theorem totalSize_singleton (clause : Occur × Query F) :
    totalSize [clause] = termSize clause.2 := by
  simp [totalSize]

theorem termSize_termQuery [One F] (f t : NSString) :
    termSize (termQuery f t : Query F) = t.length := by
  unfold termQuery
  split_ifs <;> rfl

theorem totalSize_lastMust (clauses : List (Occur × Query F)) :
    totalSize (lastMust clauses) = totalSize clauses := by
  rcases eq_nil_or_concat clauses with rfl | ⟨front, ⟨occur, q⟩, rfl⟩
  · rfl
  · simp [lastMust]

theorem totalSize_closed (next : Joiner) (clauses : List (Occur × Query F)) :
    totalSize (closed next clauses) = totalSize clauses := by
  unfold closed
  split_ifs
  · exact totalSize_lastMust clauses
  · rfl

theorem totalSize_addClause_le (maxClauseCount : ℕ) (clauses : List (Occur × Query F))
    (clause : Occur × Query F) :
    totalSize (addClause maxClauseCount clauses clause)
      ≤ totalSize clauses + termSize clause.2 := by
  unfold addClause
  split_ifs
  · exact Nat.le_add_right _ _
  · simp

def Clauses.size : Clauses → ℕ
  | nil => 0
  | term _ _ _ text rest => text.text.length + rest.size
  | group _ _ _ _ rest => rest.size

theorem Clauses.totalSize_meant [One F] (d : NSString) :
    ∀ c : Clauses, totalSize (c.meant d : List (Occur × Query F)) = c.size
  | nil => rfl
  | term _ _ _ _ rest => by
    rw [meant, size, ← singleton_append, totalSize_append, totalSize_meant d rest]
    simp [termSize_termQuery]
  | group _ _ _ _ rest => by
    rw [meant, size, ← singleton_append, totalSize_append, totalSize_meant d rest]
    simp [termSize]

theorem Level.totalSize_addTerm [One F] (maxClauseCount : ℕ) (d : NSString) (l : Level F)
    (t : NSString) :
    totalSize (l.addTerm maxClauseCount d t).clauses ≤ totalSize l.clauses + t.length := by
  have hadd := totalSize_addClause_le maxClauseCount l.clauses
    (l.occur, termQuery (l.field.getD d) t)
  rwa [termSize_termQuery] at hadd

theorem Level.totalSize_addQuery [One F] (maxClauseCount : ℕ) (l l' : Level F) :
    totalSize (l.addQuery maxClauseCount l'.query).clauses ≤ totalSize l.clauses :=
  totalSize_addClause_le maxClauseCount l.clauses (l.occur, l'.query)

namespace QueryHandler

variable [One F] {maxClauseCount : ℕ} {again : NSString → NSString → Option (Query F)}
  {l : Level F} {d s : NSString}

theorem token_word (w : Word) : ∃ (l' : Level F) (s' : NSString),
    token maxClauseCount again (l.handler d s) w.text = some (l'.handler d s')
      ∧ totalSize l'.clauses ≤ totalSize l.clauses + w.text.length := by
  by_cases hoperator : w.text ∈ [andToken, orToken, notToken]
  · simp only [mem_cons, not_mem_nil, or_false] at hoperator
    rcases hoperator with hw | hw | hw
    · rw [hw]
      refine ⟨_, _, token_and, ?_⟩
      exact (totalSize_lastMust l.clauses).trans_le (Nat.le_add_right _ _)
    · rw [hw]
      exact ⟨_, _, token_or, Nat.le_add_right _ _⟩
    · rw [hw]
      exact ⟨_, _, token_not, Nat.le_add_right _ _⟩
  · exact ⟨_, _, token_term ⟨w, hoperator⟩, Level.totalSize_addTerm maxClauseCount d l w.text⟩

theorem tokens_flushed {begun : NSString} (hunits : ∀ ch ∈ begun, wordUnit ch) :
    ∃ (l' : Level F) (s' : NSString),
      (flushed begun).foldlM (token maxClauseCount again) (l.handler d s) = some (l'.handler d s')
        ∧ totalSize l'.clauses ≤ totalSize l.clauses + begun.length := by
  unfold flushed
  split_ifs with hnil
  · exact ⟨l, s, rfl, Nat.le_add_right _ _⟩
  · obtain ⟨l', s', htoken, hsize⟩ := token_word (l := l) (d := d) (s := s) ⟨begun, hnil, hunits⟩
    exact ⟨l', s', congrArg (· >>= pure) htoken, hsize⟩

theorem tokens_cut {depth length : ℕ} (hagain : Answers maxClauseCount again d depth length) :
    ∀ (c : Clauses) (l : Level F) (s : NSString) {front : List QueryToken} {w : Word}
      {begun : NSString}, c.depth ≤ depth → (respelled c.tokens).length ≤ length →
        c.tokens = front ++ [.word w] → begun.length < w.text.length →
        (∀ ch ∈ begun, wordUnit ch) → ∃ (l' : Level F) (s' : NSString),
          (front.map QueryToken.text ++ flushed begun).foldlM (token maxClauseCount again)
              (l.handler d s) = some (l'.handler d s')
            ∧ totalSize l'.clauses < totalSize l.clauses + c.size
  | .nil, l, s, front, w, begun, _, _, htokens, _, _ => by
    simp [Clauses.tokens] at htokens
  | .term joiner modifier field text rest, l, s, front, w, begun, hdepth, hlength, htokens, hlt,
      hunits => by
    rw [Clauses.tokens_term, respelled_append, length_append] at hlength
    rw [Clauses.tokens_term] at htokens
    rcases eq_nil_or_concat' rest.tokens with hnil | ⟨front', t, hconcat⟩
    · -- the word is the term
      rw [hnil, append_nil] at htokens
      obtain ⟨rfl, hword⟩ := append_inj' htokens rfl
      obtain rfl : text.toWord = w := by simpa using hword
      obtain ⟨s₁, hhead⟩ := tokens_head (l := l) (d := d) (s := s) joiner modifier field
      obtain ⟨l', s', hflushed, hsize⟩ :=
        tokens_flushed (l := l.head joiner modifier field) (d := d) (s := s₁) hunits
      refine ⟨l', s', ?_, ?_⟩
      · rw [foldlM_append, hhead]
        exact hflushed
      · rw [Level.clauses_head, totalSize_closed] at hsize
        rw [Clauses.size]
        omega
    · rw [hconcat, ← append_assoc] at htokens
      obtain ⟨rfl, hword⟩ := append_inj' htokens rfl
      obtain rfl : t = .word w := by simpa using hword
      obtain ⟨l', s', hrest, hsize⟩ := tokens_cut hagain rest
        ((l.head joiner modifier field).addTerm maxClauseCount d text.text)
        (text.text ++ [0x20]) hdepth (by omega) hconcat hlt hunits
      refine ⟨l', s', ?_, ?_⟩
      · rw [map_append, append_assoc, foldlM_append, tokens_term]
        exact hrest
      · have hadd := Level.totalSize_addTerm maxClauseCount d (l.head joiner modifier field)
          text.text
        rw [Level.clauses_head, totalSize_closed] at hadd
        rw [Clauses.size]
        omega
  | .group joiner modifier field contents rest, l, s, front, w, begun, hdepth, hlength, htokens,
      hlt, hunits => by
    have hcontents := hagain.contents hdepth hlength
    rw [Clauses.depth, max_le_iff] at hdepth
    rw [Clauses.tokens_group, respelled_append, length_append] at hlength
    rw [Clauses.tokens_group] at htokens
    rcases eq_nil_or_concat' rest.tokens with hnil | ⟨front', t, hconcat⟩
    · -- a parenthesis is not cut
      rw [hnil, append_nil, ← cons_append, ← append_assoc] at htokens
      have hmark := (append_inj' htokens rfl).2
      simp at hmark
    · rw [hconcat, ← append_assoc] at htokens
      obtain ⟨rfl, hword⟩ := append_inj' htokens rfl
      obtain rfl : t = .word w := by simpa using hword
      obtain ⟨l', s', hrest, hsize⟩ := tokens_cut hagain rest
        ((l.head joiner modifier field).addQuery maxClauseCount
          (contents.run maxClauseCount d .init).query) [] hdepth.2 (by omega) hconcat hlt hunits
      refine ⟨l', s', ?_, ?_⟩
      · rw [map_append, append_assoc, foldlM_append,
          tokens_group joiner modifier field hcontents]
        exact hrest
      · have hadd := Level.totalSize_addQuery maxClauseCount (l.head joiner modifier field)
          (contents.run maxClauseCount d .init)
        rw [Level.clauses_head, totalSize_closed] at hadd
        rw [Clauses.size]
        omega

variable {beyond : NSString → ℕ → Unichar}

theorem answer_tokens {depth length : ℕ} (hagain : Answers maxClauseCount again d depth length)
    {c : Clauses} (hdepth : c.depth ≤ depth) (hlength : (respelled c.tokens).length ≤ length) :
    answer maxClauseCount again d (c.tokens.map QueryToken.text)
      = some (c.run maxClauseCount d .init).query := by
  obtain ⟨s', htokens⟩ := tokens_clauses hagain c .init [] hdepth hlength
  exact congrArg (Option.map fun h => (h.flushQuery maxClauseCount).query) htokens

theorem endsInNumber_respelled (ts : List QueryToken) :
    CodeParser.endsInNumber (respelled ts) = false := by
  rcases eq_nil_or_concat' ts with rfl | ⟨front, t, rfl⟩
  · rfl
  · rw [respelled_append, respelled_cons, respelled_nil, append_nil, ← append_assoc,
      CodeParser.endsInNumber_append]
    rfl

theorem answers_parse : ∀ {fuel length : ℕ}, length + 1 < 2 ^ 32 →
    Answers maxClauseCount (parse (F := F) maxClauseCount beyond fuel) d fuel length
  | 0, _, _ => fun _ hdepth => absurd hdepth (Nat.not_lt_zero _)
  | fuel + 1, length, hlt => fun c hdepth hlength => by
    have htokens := CodeParser.tokens_of_spells
      (p := ⟨respelled c.tokens, beyond (respelled c.tokens)⟩) (by simp only; omega)
      (spells_respelled c.tokens) (by simp [endsInNumber_respelled])
    rw [parse, htokens]
    exact answer_tokens (answers_parse hlt) (by omega) hlength

theorem length_respelled_le {ts : List QueryToken} {s : NSString} (h : Spells ts s) :
    (respelled ts).length ≤ 2 * s.length := by
  induction h with
  | nil => simp
  | space h ih =>
    rw [length_cons]
    omega
  | word w _ h ih =>
    have hpos := length_pos_iff.2 w.ne_nil
    simp only [respelled_cons, QueryToken.text, length_append, length_singleton]
    omega
  | field name h ih =>
    have hpos := length_pos_iff.2 name.ne_nil
    simp only [respelled_cons, QueryToken.text, length_append, length_cons,
      length_nil]
    omega
  | mark m h ih =>
    simp only [respelled_cons, QueryToken.text, length_append, length_cons,
      length_nil]
    omega

theorem parse_of_spells {fuel : ℕ} {c : Clauses} (hspells : Spells c.tokens s)
    (hlength : 2 * s.length + 1 < 2 ^ 32) (hdepth : c.depth < fuel)
    (hlost : ¬(CodeParser.endsInNumber s ∧ beyond s s.length = 0x2E)) :
    parse (F := F) maxClauseCount beyond fuel d s
      = some (c.run maxClauseCount d .init).query := by
  rcases fuel with _ | fuel
  · omega
  · have htokens := CodeParser.tokens_of_spells (p := ⟨s, beyond s⟩) (by simp only; omega)
      hspells hlost
    rw [parse, htokens]
    exact answer_tokens (answers_parse hlength) (by omega) (length_respelled_le hspells)

theorem parse_ne_of_lost {fuel : ℕ} {c : Clauses} (hspells : Spells c.tokens s)
    (hlength : 2 * s.length + 1 < 2 ^ 32) (hdepth : c.depth < fuel)
    (hlost : CodeParser.endsInNumber s ∧ beyond s s.length = 0x2E) :
    parse (F := F) maxClauseCount beyond fuel d s ≠ some (c.query d) := by
  rcases fuel with _ | fuel
  · omega
  · obtain ⟨front, w, begun, hloses, htokens⟩ := CodeParser.tokens_of_lost (p := ⟨s, beyond s⟩)
      (by simp only; omega) hspells hlost
    have hagain : Answers maxClauseCount (parse (F := F) maxClauseCount beyond fuel) d fuel
        (2 * s.length) := answers_parse hlength
    obtain ⟨l', s', hcut, hsize⟩ := tokens_cut hagain c .init [] (by omega)
      (length_respelled_le hspells) hloses.tokens hloses.begun_lt hloses.units
    have hanswer : parse maxClauseCount beyond (fuel + 1) d s = some l'.query := by
      rw [parse, htokens]
      exact congrArg (Option.map fun h => (h.flushQuery maxClauseCount).query) hcut
    rw [hanswer]
    intro heq
    have hclauses : l'.clauses = c.meant d := by
      simp only [Level.query, Clauses.query, Option.some.injEq, Query.boolean.injEq] at heq
      exact heq.1
    rw [hclauses, Clauses.totalSize_meant] at hsize
    exact absurd hsize (by simp [Level.init, totalSize])

/-- A string that spells clauses is parsed to what they mean just where no operand depends on what
precedes it, there are no more clauses than the limit, and no number at the end is lost. -/
theorem parse_eq_query_iff {fuel : ℕ} {c : Clauses} (hspells : Spells c.tokens s)
    (hlength : 2 * s.length + 1 < 2 ^ 32) (hdepth : c.depth < fuel) :
    parse (F := F) maxClauseCount beyond fuel d s = some (c.query d)
      ↔ (c.count ≤ maxClauseCount ∧ c.Independent maxClauseCount d false none)
        ∧ ¬(CodeParser.endsInNumber s ∧ beyond s s.length = 0x2E) := by
  by_cases hlost : CodeParser.endsInNumber s ∧ beyond s s.length = 0x2E
  · exact iff_of_false (parse_ne_of_lost hspells hlength hdepth hlost) fun h => h.2 hlost
  · rw [parse_of_spells hspells hlength hdepth hlost, Option.some.injEq,
      Clauses.query_run_iff (Clauses.built_eq_meant_iff c fun _ => iff_of_true rfl rfl)]
    exact (and_iff_left hlost).symm

/-- `a`. -/
def textA : TermText where
  text := [0x61]
  ne_nil := by simp
  units := all_eq_true.1 rfl
  no_operator := by simp [andToken, orToken, notToken]

/-- `b`. -/
def textB : TermText where
  text := [0x62]
  ne_nil := by simp
  units := all_eq_true.1 rfl
  no_operator := by simp [andToken, orToken, notToken]

/-- `+a b`. -/
theorem parse_eq_query_plus :
    parse (F := ℕ) 1024 (fun _ _ => 0) 1 [0x64] [0x2B, 0x61, 0x20, 0x62]
      = some (Clauses.query [0x64]
        (.term .nothing .plus none textA (.term .nothing .nothing none textB .nil))) := by
  refine (parse_eq_query_iff ?_ (by simp) (by simp [Clauses.depth])).2 ⟨⟨?_, ?_⟩, by simp⟩
  · exact .mark .plus (.word textA.toWord (endsWord_space _)
      (.space (.word textB.toWord endsWord_nil .nil)))
  · simp [Clauses.count]
  · simp [Clauses.Independent, Clauses.joiner, Modifier.negative, binds_iff]

/-- In `+(a) b` the plus is carried over the group to `b`. -/
theorem not_parse_eq_query :
    ∃ c : Clauses, Spells c.tokens [0x2B, 0x28, 0x61, 0x29, 0x20, 0x62]
      ∧ parse (F := ℕ) 1024 (fun _ _ => 0) 2 [0x64] [0x2B, 0x28, 0x61, 0x29, 0x20, 0x62]
          = some (.boolean [(.must, .boolean [(.should, .term ⟨[0x64], [0x61]⟩ 1)] 1 false 0),
            (.must, .term ⟨[0x64], [0x62]⟩ 1)] 1 false 0)
      ∧ parse (F := ℕ) 1024 (fun _ _ => 0) 2 [0x64] [0x2B, 0x28, 0x61, 0x29, 0x20, 0x62]
          ≠ some (c.query [0x64]) := by
  have hparse : parse (F := ℕ) 1024 (fun _ _ => 0) 2 [0x64] [0x2B, 0x28, 0x61, 0x29, 0x20, 0x62]
      = some (.boolean [(.must, .boolean [(.should, .term ⟨[0x64], [0x61]⟩ 1)] 1 false 0),
        (.must, .term ⟨[0x64], [0x62]⟩ 1)] 1 false 0) := rfl
  refine ⟨.group .nothing .plus none (.term .nothing .nothing none textA .nil)
    (.term .nothing .nothing none textB .nil), ?_, hparse, fun heq => ?_⟩
  · exact .mark .plus (.mark .opening (.word textA.toWord (endsWord_unit .closing _)
      (.mark .closing (.space (.word textB.toWord endsWord_nil .nil)))))
  · rw [hparse] at heq
    simp [Clauses.query, Clauses.meant, occurOf, Clauses.joiner] at heq

end QueryHandler

end Etoile.Lucene
