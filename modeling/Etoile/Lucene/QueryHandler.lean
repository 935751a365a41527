import Etoile.Lucene.QueryMeaning
import Etoile.Lucene.TokenHandler

/-!
# The handler that builds a query

`QueryHandler` makes a clause of each term at its level, and hands what is between parentheses to
a handler of its own.  For a list of clauses it goes from one to the next with what it keeps at its
level only (`run_tokens`).
-/

namespace Etoile.Lucene

open List

variable {F : Type}

/-- `-addClause:` of a boolean query, which drops what is over the limit. -/
def addClause (maxClauseCount : ℕ) (clauses : List (Occur × Query F))
    (clause : Occur × Query F) : List (Occur × Query F) :=
  if maxClauseCount ≤ clauses.length then clauses else clauses ++ [clause]

/-- `-setOccur:` of the last clause, if there is one. -/
def lastMust (clauses : List (Occur × Query F)) : List (Occur × Query F) :=
  match clauses.getLast? with
  | none => clauses
  | some (_, q) => clauses.dropLast ++ [(.must, q)]

structure QueryHandler (F : Type) where
  parenthesesCount : ℤ
  queryString : NSString
  currentQuery : Option (Query F)
  occur : Occur
  clauses : List (Occur × Query F)
  coordinationDisabled : Bool
  defaultField : NSString
  field : Option NSString
  inRange : Bool

def andToken : NSString := [0x41, 0x4E, 0x44]

def orToken : NSString := [0x4F, 0x52]

def notToken : NSString := [0x4E, 0x4F, 0x54]

def wildcard (token : NSString) : Bool := token.any fun ch => ch = 0x2A || ch = 0x3F

def termQuery [One F] (f token : NSString) : Query F :=
  if wildcard token then .multiTerm (.wildcard ⟨f, token⟩) 1 else .term ⟨f, token⟩ 1

def fallBack (occur : Occur) : Occur :=
  if occur = .must ∨ occur = .should then .should else occur

namespace QueryHandler

def init (defaultField : NSString) : QueryHandler F where
  parenthesesCount := 0
  queryString := []
  currentQuery := none
  occur := .should
  clauses := []
  coordinationDisabled := false
  defaultField := defaultField
  field := none
  inRange := false

def appendToken (h : QueryHandler F) (token : NSString) : QueryHandler F :=
  { h with queryString := h.queryString ++ token ++ [0x20] }

variable (maxClauseCount : ℕ)

def addQuery (h : QueryHandler F) (q : Query F) : QueryHandler F :=
  { h with clauses := addClause maxClauseCount h.clauses (h.occur, q) }

def flushQuery (h : QueryHandler F) : QueryHandler F :=
  match h.currentQuery with
  | none => { h with queryString := [] }
  | some q => { h.addQuery maxClauseCount q with currentQuery := none, queryString := [] }

def query [One F] (h : QueryHandler F) : Query F :=
  .boolean h.clauses 1 h.coordinationDisabled 0

variable [One F]

def termToken (h : QueryHandler F) (token : NSString) : QueryHandler F :=
  let q := termQuery (h.field.getD h.defaultField) token
  let disabled := h.coordinationDisabled || wildcard token
  let h' := flushQuery maxClauseCount
    { h with currentQuery := some q, coordinationDisabled := disabled }
  { h' with occur := fallBack h'.occur }

def clauseToken (h : QueryHandler F) (token : NSString) : QueryHandler F :=
  -- a bracket or a brace
  if token = [0x5B] ∨ token = [0x7B] then { h with inRange := true }
  else if token = [0x5D] ∨ token = [0x7D] then { h with inRange := false }
  -- + and -
  else if token = [0x2B] then { h with occur := .must }
  else if token = [0x2D] then { h with occur := .mustNot }
  -- AND, or &&
  else if token = andToken ∨ token = [0x26, 0x26] then
    { h with clauses := lastMust h.clauses, occur := .must }
  else if token = notToken then { h.flushQuery maxClauseCount with occur := .mustNot }
  -- OR, or ||
  else if token = orToken ∨ token = [0x7C, 0x7C] then { h with occur := .should }
  -- a colon at the end
  else if token.getLast? = some 0x3A then { h with field := some token.dropLast }
  else if h.inRange then h
  else h.termToken maxClauseCount token

variable (again : NSString → NSString → Option (Query F))

/-- `-token:`; `again` parses what was between parentheses, with the default field. -/
def token (h : QueryHandler F) (token : NSString) : Option (QueryHandler F) :=
  if token = [0x28] then
    if h.parenthesesCount = 0 then
      some { h.flushQuery maxClauseCount with parenthesesCount := 1 }
    else some { h.appendToken token with parenthesesCount := h.parenthesesCount + 1 }
  else if token = [0x29] then
    if h.parenthesesCount - 1 = 0 then
      (again h.defaultField h.queryString).map fun q =>
        { h.addQuery maxClauseCount q with parenthesesCount := 0, queryString := [] }
    else some { h.appendToken token with parenthesesCount := h.parenthesesCount - 1 }
  else if 0 < h.parenthesesCount then some (h.appendToken token)
  else some ((h.clauseToken maxClauseCount token).appendToken token)

/-- What the handler answers for the tokens; `-endParsing` flushes the query. -/
def answer (defaultField : NSString) (tokens : List NSString) : Option (Query F) :=
  (tokens.foldlM (token maxClauseCount again) (init defaultField)).map fun h =>
    (h.flushQuery maxClauseCount).query

/-- `+parse:defaultField:`, for what is in memory behind each string; `none` where there are more
parentheses around one another than there is fuel. -/
def parse (beyond : NSString → ℕ → Unichar) : ℕ → NSString → NSString → Option (Query F)
  | 0, _, _ => none
  | fuel + 1, defaultField, string =>
    answer maxClauseCount (parse beyond fuel) defaultField (CodeParser.mk string (beyond string)).tokens

end QueryHandler

def Word.and : Word := ⟨andToken, by simp [andToken], all_eq_true.1 rfl⟩

def Word.or : Word := ⟨orToken, by simp [orToken], all_eq_true.1 rfl⟩

def Word.not : Word := ⟨notToken, by simp [notToken], all_eq_true.1 rfl⟩

structure TermText extends Word where
  no_operator : text ∉ [andToken, orToken, notToken]

inductive Joiner
  | nothing
  | and
  | or
deriving DecidableEq

inductive Modifier
  | nothing
  | plus
  | minus
  | not
deriving DecidableEq

/-- The clauses of a query, each with what joins it to the one before. -/
inductive Clauses
  | nil
  | term (joiner : Joiner) (modifier : Modifier) (field : Option Word) (text : TermText)
      (rest : Clauses)
  | group (joiner : Joiner) (modifier : Modifier) (field : Option Word) (contents : Clauses)
      (rest : Clauses)

def Joiner.tokens : Joiner → List QueryToken
  | nothing => []
  | and => [.word .and]
  | or => [.word .or]

def Modifier.tokens : Modifier → List QueryToken
  | nothing => []
  | plus => [.mark .plus]
  | minus => [.mark .minus]
  | not => [.word .not]

def headTokens (joiner : Joiner) (modifier : Modifier) (field : Option Word) : List QueryToken :=
  joiner.tokens ++ modifier.tokens ++ field.toList.map .field

namespace Clauses

def tokens : Clauses → List QueryToken
  | nil => []
  | term joiner modifier field text rest =>
    headTokens joiner modifier field ++ .word text.toWord :: rest.tokens
  | group joiner modifier field contents rest =>
    headTokens joiner modifier field
      ++ .mark .opening :: (contents.tokens ++ .mark .closing :: rest.tokens)

theorem tokens_term (joiner : Joiner) (modifier : Modifier) (field : Option Word) (text : TermText)
    (rest : Clauses) : (term joiner modifier field text rest).tokens
      = (headTokens joiner modifier field ++ [.word text.toWord]) ++ rest.tokens := by
  simp [tokens]

theorem tokens_group (joiner : Joiner) (modifier : Modifier) (field : Option Word)
    (contents rest : Clauses) : (group joiner modifier field contents rest).tokens
      = (headTokens joiner modifier field
        ++ .mark .opening :: (contents.tokens ++ [.mark .closing])) ++ rest.tokens := by
  simp [tokens]

def joiner : Clauses → Joiner
  | nil => .nothing
  | term joiner _ _ _ _ => joiner
  | group joiner _ _ _ _ => joiner

def count : Clauses → ℕ
  | nil => 0
  | term _ _ _ _ rest => rest.count + 1
  | group _ _ _ _ rest => rest.count + 1

def depth : Clauses → ℕ
  | nil => 0
  | term _ _ _ _ rest => rest.depth
  | group _ _ _ contents rest => max (contents.depth + 1) rest.depth

end Clauses

structure Level (F : Type) where
  occur : Occur
  field : Option NSString
  clauses : List (Occur × Query F)
  coordinationDisabled : Bool

namespace Level

def init : Level F := ⟨.should, none, [], false⟩

def join (l : Level F) : Joiner → Level F
  | .nothing => l
  | .and => { l with clauses := lastMust l.clauses, occur := .must }
  | .or => { l with occur := .should }

def modify (l : Level F) : Modifier → Level F
  | .nothing => l
  | .plus => { l with occur := .must }
  | .minus | .not => { l with occur := .mustNot }

def inField (l : Level F) : Option Word → Level F
  | none => l
  | some name => { l with field := some name.text }

def head (l : Level F) (joiner : Joiner) (modifier : Modifier) (field : Option Word) : Level F :=
  ((l.join joiner).modify modifier).inField field

def addQuery (maxClauseCount : ℕ) (l : Level F) (q : Query F) : Level F :=
  { l with clauses := addClause maxClauseCount l.clauses (l.occur, q) }

variable [One F]

def addTerm (maxClauseCount : ℕ) (defaultField : NSString) (l : Level F) (token : NSString) :
    Level F :=
  { l.addQuery maxClauseCount (termQuery (l.field.getD defaultField) token) with
    occur := fallBack l.occur
    coordinationDisabled := l.coordinationDisabled || wildcard token }

def query (l : Level F) : Query F := .boolean l.clauses 1 l.coordinationDisabled 0

def handler (l : Level F) (defaultField queryString : NSString) : QueryHandler F where
  parenthesesCount := 0
  queryString := queryString
  currentQuery := none
  occur := l.occur
  clauses := l.clauses
  coordinationDisabled := l.coordinationDisabled
  defaultField := defaultField
  field := l.field
  inRange := false

def inside (l : Level F) (defaultField queryString : NSString) (n : ℕ) : QueryHandler F :=
  { l.handler defaultField queryString with parenthesesCount := n + 1 }

end Level

/-- What the clauses change; a group is added as the query of its contents. -/
def Clauses.run [One F] (maxClauseCount : ℕ) (defaultField : NSString) :
    Level F → Clauses → Level F
  | l, nil => l
  | l, term joiner modifier field text rest =>
    rest.run maxClauseCount defaultField
      ((l.head joiner modifier field).addTerm maxClauseCount defaultField text.text)
  | l, group joiner modifier field contents rest =>
    rest.run maxClauseCount defaultField
      ((l.head joiner modifier field).addQuery maxClauseCount
        (contents.run maxClauseCount defaultField .init).query)

theorem Word.text_ne_singleton (w : Word) {ch : Unichar} (h : wordUnit ch = false) :
    w.text ≠ [ch] := fun heq => by
  have hunit := w.units ch (by simp [heq])
  simp [h] at hunit

theorem Word.field_ne_singleton (name : Word) (ch : Unichar) : name.text ++ [0x3A] ≠ [ch] :=
  fun heq => by
    have hlength := congrArg length heq
    have hpos := length_pos_iff.2 name.ne_nil
    simp only [length_append, length_singleton] at hlength
    omega

theorem Word.getLast_ne (w : Word) : w.text.getLast? ≠ some 0x3A := fun heq => by
  have hunit := w.units _ (mem_of_getLast? heq)
  simp [wordUnit_colon] at hunit

namespace QueryHandler

variable [One F] {maxClauseCount : ℕ} {again : NSString → NSString → Option (Query F)}
  {l : Level F} {d s : NSString}

theorem token_outside {t : NSString} (hopening : t ≠ [0x28]) (hclosing : t ≠ [0x29]) :
    token maxClauseCount again (l.handler d s) t
      = some (((l.handler d s).clauseToken maxClauseCount t).appendToken t) := by
  unfold token
  rw [if_neg hopening, if_neg hclosing, if_neg (by simp [Level.handler])]

theorem token_and : token maxClauseCount again (l.handler d s) andToken
    = some ((l.join .and).handler d (s ++ andToken ++ [0x20])) := rfl

theorem token_or : token maxClauseCount again (l.handler d s) orToken
    = some ((l.join .or).handler d (s ++ orToken ++ [0x20])) := rfl

theorem token_not : token maxClauseCount again (l.handler d s) notToken
    = some ((l.modify .not).handler d (notToken ++ [0x20])) := rfl

theorem token_plus : token maxClauseCount again (l.handler d s) [Mark.plus.unit]
    = some ((l.modify .plus).handler d (s ++ [Mark.plus.unit] ++ [0x20])) := rfl

theorem token_minus : token maxClauseCount again (l.handler d s) [Mark.minus.unit]
    = some ((l.modify .minus).handler d (s ++ [Mark.minus.unit] ++ [0x20])) := rfl

theorem token_opening : token maxClauseCount again (l.handler d s) [Mark.opening.unit]
    = some (l.inside d [] 0) := rfl

theorem token_closing : token maxClauseCount again (l.inside d s 0) [Mark.closing.unit]
    = (again d s).map fun q => (l.addQuery maxClauseCount q).handler d [] := rfl

theorem token_field (name : Word) :
    token maxClauseCount again (l.handler d s) (name.text ++ [0x3A])
      = some ((l.inField (some name)).handler d (s ++ (name.text ++ [0x3A]) ++ [0x20])) := by
  have hne : ∀ t : NSString, t.getLast? ≠ some 0x3A → name.text ++ [0x3A] ≠ t := by
    rintro t ht rfl
    exact ht (by simp)
  rw [token_outside (name.field_ne_singleton _) (name.field_ne_singleton _)]
  unfold clauseToken
  rw [if_neg (by simp [name.field_ne_singleton]), if_neg (by simp [name.field_ne_singleton]),
    if_neg (name.field_ne_singleton _), if_neg (name.field_ne_singleton _),
    if_neg (not_or.2 ⟨hne _ (by simp [andToken]), hne _ (by simp)⟩),
    if_neg (hne _ (by simp [notToken])),
    if_neg (not_or.2 ⟨hne _ (by simp [orToken]), hne _ (by simp)⟩), if_pos (by simp)]
  simp [Level.handler, Level.inField, appendToken]

theorem token_term (text : TermText) : token maxClauseCount again (l.handler d s) text.text
    = some ((l.addTerm maxClauseCount d text.text).handler d (text.text ++ [0x20])) := by
  have hne : ∀ {t : NSString}, ∀ ch ∈ t, wordUnit ch = false → text.text ≠ t := by
    rintro t ch hmem hch rfl
    simp [text.units ch hmem] at hch
  have hoperator := text.no_operator
  simp only [mem_cons, not_mem_nil, or_false, not_or] at hoperator
  rw [token_outside (hne 0x28 (by simp) rfl) (hne 0x29 (by simp) rfl)]
  unfold clauseToken
  rw [if_neg (not_or.2 ⟨hne 0x5B (by simp) rfl, hne 0x7B (by simp) rfl⟩),
    if_neg (not_or.2 ⟨hne 0x5D (by simp) rfl, hne 0x7D (by simp) rfl⟩),
    if_neg (hne 0x2B (by simp) rfl), if_neg (hne 0x2D (by simp) rfl),
    if_neg (not_or.2 ⟨hoperator.1, hne 0x26 (by simp) rfl⟩), if_neg hoperator.2.2,
    if_neg (not_or.2 ⟨hoperator.2.1, hne 0x7C (by simp) rfl⟩), if_neg text.getLast_ne,
    if_neg (by simp [Level.handler])]
  rfl

omit [One F] in
theorem inside_pos (n : ℕ) : 0 < (l.inside d s n).parenthesesCount := by
  simp only [Level.inside]
  omega

theorem token_inside {n : ℕ} {t : NSString} (hopening : t ≠ [0x28]) (hclosing : t ≠ [0x29]) :
    token maxClauseCount again (l.inside d s n) t
      = some (l.inside d (s ++ t ++ [0x20]) n) := by
  unfold token
  rw [if_neg hopening, if_neg hclosing, if_pos (inside_pos n)]
  rfl

theorem opening_inside (n : ℕ) :
    token maxClauseCount again (l.inside d s n) [Mark.opening.unit]
      = some (l.inside d (s ++ [Mark.opening.unit] ++ [0x20]) (n + 1)) := by
  have hmark : [Mark.opening.unit] = ([0x28] : NSString) := rfl
  unfold token
  rw [if_pos hmark, if_neg (inside_pos n).ne']
  rfl

theorem closing_inside (n : ℕ) :
    token maxClauseCount again (l.inside d s (n + 1)) [Mark.closing.unit]
      = some (l.inside d (s ++ [Mark.closing.unit] ++ [0x20]) n) := by
  have hmark : [Mark.closing.unit] ≠ ([0x28] : NSString) := by simp [Mark.unit]
  have hcount : (l.inside d s (n + 1)).parenthesesCount - 1 = (n : ℤ) + 1 := by
    simp [Level.inside]
  have hmark' : [Mark.closing.unit] = ([0x29] : NSString) := rfl
  unfold token
  rw [if_neg hmark, if_pos hmark', hcount, if_neg (by omega)]
  simp only [Level.inside, Level.handler, appendToken]

theorem tokens_inside {n : ℕ} : ∀ {ts : List QueryToken} {s : NSString},
    (∀ t ∈ ts, t.text ≠ [0x28] ∧ t.text ≠ [0x29]) →
      (ts.map QueryToken.text).foldlM (token maxClauseCount again) (l.inside d s n)
        = some (l.inside d (s ++ respelled ts) n)
  | [], s, _ => by simp
  | t :: ts, s, h => by
    simp only [mem_cons, forall_eq_or_imp] at h
    rw [map_cons, foldlM_cons, token_inside h.1.1 h.1.2]
    have hrest := tokens_inside (n := n) (s := s ++ t.text ++ [0x20]) h.2
    simpa using hrest

theorem headTokens_ne {joiner : Joiner} {modifier : Modifier} {field : Option Word} :
    ∀ t ∈ headTokens joiner modifier field, t.text ≠ [0x28] ∧ t.text ≠ [0x29] := by
  intro t ht
  simp only [headTokens, mem_append, mem_map, Option.mem_toList] at ht
  rcases ht with (ht | ht) | ⟨name, -, rfl⟩
  · cases joiner with
    | nothing => cases ht
    | and | or =>
      obtain rfl := mem_singleton.1 ht
      exact ⟨Word.text_ne_singleton _ rfl, Word.text_ne_singleton _ rfl⟩
  · cases modifier with
    | nothing => cases ht
    | plus | minus =>
      obtain rfl := mem_singleton.1 ht
      simp [QueryToken.text, Mark.unit]
    | not =>
      obtain rfl := mem_singleton.1 ht
      exact ⟨Word.text_ne_singleton _ rfl, Word.text_ne_singleton _ rfl⟩
  · exact ⟨name.field_ne_singleton _, name.field_ne_singleton _⟩

/-- Whatever the clauses are, inside of parentheses their tokens are collected. -/
theorem clauses_inside : ∀ (c : Clauses) (s : NSString) (n : ℕ),
    (c.tokens.map QueryToken.text).foldlM (token maxClauseCount again) (l.inside d s n)
      = some (l.inside d (s ++ respelled c.tokens) n)
  | .nil, s, n => by simp [Clauses.tokens]
  | .term joiner modifier field text rest, s, n => by
    have htext : ∀ t ∈ headTokens joiner modifier field ++ [.word text.toWord],
        t.text ≠ [0x28] ∧ t.text ≠ [0x29] := by
      intro t ht
      rcases mem_append.1 ht with ht | ht
      · exact headTokens_ne t ht
      · obtain rfl := mem_singleton.1 ht
        exact ⟨Word.text_ne_singleton _ rfl, Word.text_ne_singleton _ rfl⟩
    rw [Clauses.tokens_term, map_append, foldlM_append, tokens_inside htext]
    have hrest := clauses_inside rest
      (s ++ respelled (headTokens joiner modifier field ++ [.word text.toWord])) n
    rw [append_assoc, ← respelled_append] at hrest
    exact hrest
  | .group joiner modifier field contents rest, s, n => by
    rw [Clauses.tokens, map_append, foldlM_append, tokens_inside headTokens_ne]
    simp only [map_cons, map_append, Option.bind_eq_bind, Option.bind_some,
      foldlM_cons, foldlM_append, QueryToken.text, opening_inside,
      clauses_inside contents, closing_inside, clauses_inside rest]
    simp [QueryToken.text]

theorem tokens_join (joiner : Joiner) : ∃ s',
    (joiner.tokens.map QueryToken.text).foldlM (token maxClauseCount again) (l.handler d s)
      = some ((l.join joiner).handler d s') := by
  cases joiner with
  | nothing => exact ⟨s, rfl⟩
  | and => exact ⟨_, congrArg (· >>= pure) token_and⟩
  | or => exact ⟨_, congrArg (· >>= pure) token_or⟩

theorem tokens_modify (modifier : Modifier) : ∃ s',
    (modifier.tokens.map QueryToken.text).foldlM (token maxClauseCount again) (l.handler d s)
      = some ((l.modify modifier).handler d s') := by
  cases modifier with
  | nothing => exact ⟨s, rfl⟩
  | plus => exact ⟨_, congrArg (· >>= pure) token_plus⟩
  | minus => exact ⟨_, congrArg (· >>= pure) token_minus⟩
  | not => exact ⟨_, congrArg (· >>= pure) token_not⟩

theorem tokens_inField (field : Option Word) : ∃ s',
    ((field.toList.map QueryToken.field).map QueryToken.text).foldlM (token maxClauseCount again)
        (l.handler d s)
      = some ((l.inField field).handler d s') := by
  cases field with
  | none => exact ⟨s, rfl⟩
  | some name => exact ⟨_, congrArg (· >>= pure) (token_field name)⟩

theorem tokens_head (joiner : Joiner) (modifier : Modifier) (field : Option Word) : ∃ s',
    ((headTokens joiner modifier field).map QueryToken.text).foldlM (token maxClauseCount again)
        (l.handler d s)
      = some ((l.head joiner modifier field).handler d s') := by
  obtain ⟨s₁, hjoin⟩ := tokens_join (l := l) (d := d) (s := s) joiner
  obtain ⟨s₂, hmodify⟩ := tokens_modify (l := l.join joiner) (d := d) (s := s₁) modifier
  obtain ⟨s₃, hfield⟩ :=
    tokens_inField (l := (l.join joiner).modify modifier) (d := d) (s := s₂) field
  refine ⟨s₃, ?_⟩
  rw [headTokens, append_assoc, map_append, foldlM_append, hjoin]
  simp only [Option.bind_eq_bind, Option.bind_some]
  rw [map_append, foldlM_append, hmodify]
  exact hfield

theorem tokens_term (joiner : Joiner) (modifier : Modifier) (field : Option Word)
    (text : TermText) :
    ((headTokens joiner modifier field ++ [QueryToken.word text.toWord]).map
        QueryToken.text).foldlM
        (token maxClauseCount again) (l.handler d s)
      = some (((l.head joiner modifier field).addTerm maxClauseCount d text.text).handler d
        (text.text ++ [0x20])) := by
  obtain ⟨s', hhead⟩ := tokens_head (l := l) (d := d) (s := s) joiner modifier field
  rw [map_append, foldlM_append, hhead]
  exact congrArg (· >>= pure) (token_term text)

theorem tokens_group (joiner : Joiner) (modifier : Modifier) (field : Option Word)
    {contents : Clauses} {q : Query F} (h : again d (respelled contents.tokens) = some q) :
    ((headTokens joiner modifier field ++ QueryToken.mark .opening
          :: (contents.tokens ++ [QueryToken.mark .closing])).map QueryToken.text).foldlM
        (token maxClauseCount again) (l.handler d s)
      = some (((l.head joiner modifier field).addQuery maxClauseCount q).handler d []) := by
  obtain ⟨s', hhead⟩ := tokens_head (l := l) (d := d) (s := s) joiner modifier field
  rw [map_append, foldlM_append, hhead]
  simp only [Option.bind_eq_bind, Option.bind_some, map_cons, map_append, map_nil,
    foldlM_cons, foldlM_append, foldlM_nil, QueryToken.text, token_opening,
    clauses_inside, nil_append, token_closing, h, Option.map_some]
  rfl

/-- `again` answers what groups of the clauses are, up to a depth and a length. -/
def Answers (maxClauseCount : ℕ) (again : NSString → NSString → Option (Query F)) (d : NSString)
    (depth length : ℕ) : Prop :=
  ∀ c : Clauses, c.depth < depth → (respelled c.tokens).length ≤ length →
    again d (respelled c.tokens) = some (c.run maxClauseCount d .init).query

theorem Answers.contents {depth length : ℕ} {joiner : Joiner} {modifier : Modifier}
    {field : Option Word} {contents rest : Clauses}
    (hagain : Answers maxClauseCount again d depth length)
    (hdepth : (Clauses.group joiner modifier field contents rest).depth ≤ depth)
    (hlength : (respelled (Clauses.group joiner modifier field contents rest).tokens).length
      ≤ length) :
    again d (respelled contents.tokens) = some (contents.run maxClauseCount d .init).query := by
  rw [Clauses.depth, max_le_iff] at hdepth
  simp only [Clauses.tokens, respelled_append, respelled_cons, length_append] at hlength
  exact hagain contents (by omega) (by omega)

theorem tokens_clauses {depth length : ℕ} (hagain : Answers maxClauseCount again d depth length) :
    ∀ (c : Clauses) (l : Level F) (s : NSString), c.depth ≤ depth →
      (respelled c.tokens).length ≤ length → ∃ s',
        (c.tokens.map QueryToken.text).foldlM (token maxClauseCount again) (l.handler d s)
          = some ((c.run maxClauseCount d l).handler d s')
  | .nil, l, s, _, _ => ⟨s, rfl⟩
  | .term joiner modifier field text rest, l, s, hdepth, hlength => by
    rw [Clauses.tokens_term, respelled_append, length_append] at hlength
    obtain ⟨s', hrest⟩ := tokens_clauses hagain rest
      ((l.head joiner modifier field).addTerm maxClauseCount d text.text) (text.text ++ [0x20])
      hdepth (by omega)
    refine ⟨s', ?_⟩
    rw [Clauses.tokens_term, map_append, foldlM_append, tokens_term]
    exact hrest
  | .group joiner modifier field contents rest, l, s, hdepth, hlength => by
    have hcontents := hagain.contents hdepth hlength
    rw [Clauses.depth, max_le_iff] at hdepth
    rw [Clauses.tokens_group, respelled_append, length_append] at hlength
    obtain ⟨s', hrest⟩ := tokens_clauses hagain rest
      ((l.head joiner modifier field).addQuery maxClauseCount
        (contents.run maxClauseCount d .init).query) [] hdepth.2 (by omega)
    refine ⟨s', ?_⟩
    rw [Clauses.tokens_group, map_append, foldlM_append,
      tokens_group joiner modifier field hcontents]
    exact hrest

end QueryHandler

end Etoile.Lucene
