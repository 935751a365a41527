import Etoile.Lucene.FilteredTermEnumerator

/-!
# Wildcards

`LCWildcardTermEnumerator` makes a regular expression of a pattern: an asterisk becomes `.*`, a
question mark becomes `.?`, and everything else stays as it is.  The expression of a question mark
is also found where there is no character.
-/

namespace Etoile.Lucene

open List

namespace Wildcard

def asterisk : Unichar := 42

def questionMark : Unichar := 63

def fullStop : Unichar := 46

def caret : Unichar := 94

def dollar : Unichar := 36

def newline : Unichar := 10

/-- The backslash and `^ $ . [ ] | ( ) * + ? { }`. -/
def special : List Unichar := [92, 94, 36, 46, 91, 93, 124, 40, 41, 42, 43, 63, 123, 125]

/-- What a wildcard, or a piece of a regular expression, stands for is put together. -/
def Decomposes {α : Type} (item : α → NSString → Prop) : List α → NSString → Prop
  | [], text => text = []
  | a :: as, text => ∃ u v, text = u ++ v ∧ item a u ∧ Decomposes item as v

/-- The pieces of a regular expression that patterns without special characters become. -/
inductive Piece
  | literal (c : Unichar)
  | anyCharacters
  | optionalCharacter

namespace Piece

def render : Piece → NSString
  | literal c => [c]
  | anyCharacters => [fullStop, asterisk]
  | optionalCharacter => [fullStop, questionMark]

def Plain : Piece → Prop
  | literal c => c ∉ special
  | _ => True

/-- What a piece matches; the full stop is for any character but a newline. -/
def Matches (isCharacter : NSString → Prop) : Piece → NSString → Prop
  | literal c, u => u = [c]
  | anyCharacters, u => newline ∉ u
  | optionalCharacter, u => u = [] ∨ isCharacter u ∧ newline ∉ u

end Piece

/-- The regular expression that `@"^%@$"` makes. -/
def anchored (expression : NSString) : NSString := caret :: expression ++ [dollar]

structure RegularExpressions where
  usesPCREParser : Bool
  isCharacter : NSString → Prop
  accepts : NSString → Bool
  /-- The length of the match that is found. -/
  find : (pattern text : NSString) → Option ℕ
  find_le : ∀ {pattern text n}, find pattern text = some n → n ≤ text.length
  accepts_plain : ∀ pieces : List Piece, (∀ p ∈ pieces, p.Plain) →
    accepts (anchored (pieces.flatMap Piece.render)) = true
  /-- Anchored at both ends, plain pieces are found as a whole or not at all. -/
  find_plain : ∀ (pieces : List Piece) (text : NSString), (∀ p ∈ pieces, p.Plain) →
    newline ∉ text → (Decomposes (Piece.Matches isCharacter) pieces text →
      find (anchored (pieces.flatMap Piece.render)) text = some text.length)
    ∧ (find (anchored (pieces.flatMap Piece.render)) text ≠ none →
      Decomposes (Piece.Matches isCharacter) pieces text)

/-- `-rangeOfString:` does not find a character in front of a mark that belongs to it. -/
structure Composition where
  isNonspacing : Unichar → Bool
  ascii : ∀ c : Unichar, c.val < 128 → isNonspacing c = false

variable (composition : Composition) (library : RegularExpressions)

def replaceInString (search : Unichar) (replace : NSString) : NSString → NSString
  | [] => []
  | c :: rest =>
    if c = search ∧ !rest.head?.any composition.isNonspacing then
      replace ++ replaceInString search replace rest
    else c :: replaceInString search replace rest

def expression (text : NSString) : NSString :=
  anchored (replaceInString composition questionMark [fullStop, questionMark]
    (replaceInString composition asterisk [fullStop, asterisk] text))

def wildcardEqualsTo (pattern text : NSString) : Bool :=
  match library.find (expression composition pattern) text with
  | none => false
  | some length => if library.usesPCREParser then 0 < length else true

/-- The instance variable is `endEnum`. -/
def termFilter (searchTerm : Term) : TermFilter Bool where
  isEqualToTerm t endEnum :=
    if searchTerm.field = t.field then
      some (wildcardEqualsTo composition library searchTerm.text t.text, endEnum)
    else some (false, true)
  endOfEnumerator endEnum := endEnum

/-- `-initWithReader:term:`. -/
def initWithReader {E : Type} [TermEnumerator E] [Collation] (reader : DictionaryReader E)
    (searchTerm : Term) :
    Option (FilteredTermEnumerator (termFilter composition library searchTerm) E) :=
  if library.accepts (expression composition searchTerm.text) then
    FilteredTermEnumerator.setEnumerator _
      (reader.termEnumeratorWithTerm ⟨searchTerm.field, []⟩) false
  else none

def StandsFor (isCharacter : NSString → Prop) (c : Unichar) (u : NSString) : Prop :=
  if c = asterisk then True
  else if c = questionMark then isCharacter u
  else u = [c]

def WildcardMatches (isCharacter : NSString → Prop) (pattern text : NSString) : Prop :=
  Decomposes (StandsFor isCharacter) pattern text

open Classical in
/-- The enumerator shows exactly the terms of the field whose texts match the pattern. -/
def Yields {E : Type} [TermEnumerator E] [Collation] (reader : DictionaryReader E)
    (searchTerm : Term) : Prop :=
  ∃ f, initWithReader composition library reader searchTerm = some f
    ∧ Enumerates FilteredTermEnumerator.ShowsTerm f (reader.terms.filter fun t =>
      t.field = searchTerm.field ∧ WildcardMatches library.isCharacter searchTerm.text t.text)

/-- The only special characters are wildcards, and no character has marks. -/
def PlainPattern (pattern : NSString) : Prop :=
  ∀ c ∈ pattern, (c = asterisk ∨ c = questionMark ∨ c ∉ special)
    ∧ composition.isNonspacing c = false

instance (pattern : NSString) : Decidable (PlainPattern composition pattern) :=
  inferInstanceAs (Decidable (∀ c ∈ pattern, _))

def piece (c : Unichar) : Piece :=
  if c = asterisk then .anyCharacters
  else if c = questionMark then .optionalCharacter
  else .literal c

/-- Whether a text is treated as documented: a plain pattern must not match it only with question
marks for nothing; the empty text is never found by PCREParser. -/
def Faithful (pattern text : NSString) : Prop :=
  if library.usesPCREParser ∧ text = [] then ¬ WildcardMatches library.isCharacter pattern []
  else if PlainPattern composition pattern ∧ newline ∉ text then
    Decomposes (Piece.Matches library.isCharacter) (pattern.map piece) text →
      WildcardMatches library.isCharacter pattern text
  else
    (∃ length, library.find (expression composition pattern) text = some length
      ∧ (library.usesPCREParser → 0 < length)) ↔ WildcardMatches library.isCharacter pattern text

variable {composition library}

theorem decomposes_map {α β : Type} {item : β → NSString → Prop} (f : α → β) :
    ∀ {as : List α} {text : NSString},
      Decomposes item (as.map f) text ↔ Decomposes (fun a => item (f a)) as text
  | [], _ => Iff.rfl
  | _ :: as, text => by simp only [map_cons, Decomposes, decomposes_map f]

theorem Decomposes.imp {α : Type} {item item' : α → NSString → Prop} :
    ∀ {as : List α} {text : NSString}, newline ∉ text →
      (∀ a ∈ as, ∀ u, newline ∉ u → item a u → item' a u) →
        Decomposes item as text → Decomposes item' as text
  | [], _, _, _, h => h
  | a :: as, text, hclean, himp, ⟨u, v, htext, hitem, hrest⟩ => by
    rw [htext, mem_append, not_or] at hclean
    rw [forall_mem_cons] at himp
    exact ⟨u, v, htext, himp.1 u hclean.1 hitem, hrest.imp hclean.2 himp.2⟩

theorem replaceInString_eq {search : Unichar} {replace : NSString} : ∀ {s : NSString},
    (∀ c ∈ s, composition.isNonspacing c = false) →
      replaceInString composition search replace s
        = s.flatMap fun c => if c = search then replace else [c]
  | [], _ => rfl
  | c :: rest, h => by
    rw [forall_mem_cons] at h
    have hhead : rest.head?.any composition.isNonspacing = false := by
      rcases rest with _ | ⟨d, rest⟩
      · rfl
      · exact h.2 d mem_cons_self
    rw [replaceInString, replaceInString_eq h.2, hhead, flatMap_cons]
    by_cases hc : c = search <;> simp [hc]

theorem PlainPattern.pieces {pattern : NSString} (h : PlainPattern composition pattern) :
    ∀ p ∈ pattern.map piece, p.Plain := by
  intro p hp
  obtain ⟨c, hc, rfl⟩ := mem_map.1 hp
  unfold piece
  split_ifs with hstar hquestion
  · trivial
  · trivial
  · exact ((h c hc).1.resolve_left hstar).resolve_left hquestion

theorem PlainPattern.expression_eq {pattern : NSString} (h : PlainPattern composition pattern) :
    expression composition pattern
      = anchored ((pattern.map piece).flatMap Piece.render) := by
  have hascii := composition.ascii
  have hmarks : ∀ c ∈ pattern.flatMap fun c => if c = asterisk then [fullStop, asterisk] else [c],
      composition.isNonspacing c = false := by
    intro d hd
    obtain ⟨c, hc, hmem⟩ := mem_flatMap.1 hd
    split_ifs at hmem
    · rcases mem_pair.1 hmem with rfl | rfl
      · exact hascii fullStop (by decide)
      · exact hascii asterisk (by decide)
    · rw [mem_singleton.1 hmem]
      exact (h c hc).2
  rw [expression, replaceInString_eq fun c hc => (h c hc).2, replaceInString_eq hmarks,
    flatMap_assoc, flatMap_map]
  refine congrArg anchored (flatMap_congr fun c hc => ?_)
  unfold piece
  by_cases hstar : c = asterisk
  · subst hstar
    rfl
  · by_cases hquestion : c = questionMark
    · subst hquestion
      rfl
    · simp [hstar, hquestion, Piece.render]

/-- In a text without newlines, what a character stands for its piece matches. -/
theorem matches_piece_of_standsFor {isCharacter : NSString → Prop} (c : Unichar) {u : NSString}
    (hclean : newline ∉ u) (h : StandsFor isCharacter c u) : (piece c).Matches isCharacter u := by
  unfold StandsFor at h
  unfold piece
  split_ifs at h ⊢ with hstar hquestion
  · exact hclean
  · exact Or.inr ⟨h, hclean⟩
  · exact h

variable {pattern text : NSString}

theorem WildcardMatches.decomposes {isCharacter : NSString → Prop}
    (hclean : newline ∉ text) (h : WildcardMatches isCharacter pattern text) :
    Decomposes (Piece.Matches isCharacter) (pattern.map piece) text :=
  (decomposes_map piece).2
    (Decomposes.imp hclean (fun c _ _ hu => matches_piece_of_standsFor c hu) h)

theorem wildcardEqualsTo_eq_true_iff :
    wildcardEqualsTo composition library pattern text = true
      ↔ ∃ length, library.find (expression composition pattern) text = some length
        ∧ (library.usesPCREParser = true → 0 < length) := by
  unfold wildcardEqualsTo
  rcases library.find (expression composition pattern) text with _ | length
  · simp
  · rcases library.usesPCREParser <;> simp

theorem wildcardEqualsTo_plain (hplain : PlainPattern composition pattern)
    (hclean : newline ∉ text) (htext : library.usesPCREParser = true → text ≠ []) :
    wildcardEqualsTo composition library pattern text = true
      ↔ Decomposes (Piece.Matches library.isCharacter) (pattern.map piece) text := by
  obtain ⟨hfinds, hfound⟩ := library.find_plain _ text hplain.pieces hclean
  rw [wildcardEqualsTo_eq_true_iff, hplain.expression_eq]
  constructor
  · rintro ⟨length, hlength, -⟩
    exact hfound (by simp [hlength])
  · intro h
    exact ⟨_, hfinds h, fun hpcre => length_pos_iff.2 (htext hpcre)⟩

theorem wildcardEqualsTo_iff_faithful :
    (wildcardEqualsTo composition library pattern text = true
      ↔ WildcardMatches library.isCharacter pattern text)
        ↔ Faithful composition library pattern text := by
  unfold Faithful
  split_ifs with hpcre hplain
  · obtain ⟨hpcre, rfl⟩ := hpcre
    have hnot : wildcardEqualsTo composition library pattern [] = false := by
      rw [← Bool.not_eq_true, wildcardEqualsTo_eq_true_iff]
      rintro ⟨length, hfind, hpos⟩
      have hle := library.find_le hfind
      have hlt := hpos hpcre
      simp only [length_nil] at hle
      omega
    simp [hnot]
  · rw [wildcardEqualsTo_plain hplain.1 hplain.2 fun h ht => hpcre ⟨h, ht⟩]
    exact ⟨fun h => h.1, fun h => ⟨h, fun hm => hm.decomposes hplain.2⟩⟩
  · rw [wildcardEqualsTo_eq_true_iff]

theorem decides_termFilter (searchTerm : Term) (l : List Term) :
    FilteredTermEnumerator.Decides (termFilter composition library searchTerm)
      (fun t => t.field = searchTerm.field)
      (fun t => wildcardEqualsTo composition library searchTerm.text t.text) l := by
  intro t _ s hs
  simp only [termFilter] at hs ⊢
  by_cases h : searchTerm.field = t.field
  · simp [h, hs]
  · simp [h, Ne.symm h]

section Terms

variable {E : Type} [TermEnumerator E] [Collation]

theorem enumerates_initWithReader (reader : DictionaryReader E) (searchTerm : Term)
    (haccepts : library.accepts (expression composition searchTerm.text) = true) :
    ∃ f, initWithReader composition library reader searchTerm = some f
      ∧ Enumerates FilteredTermEnumerator.ShowsTerm f (reader.terms.filter fun t =>
        decide (t.field = searchTerm.field)
          && wildcardEqualsTo composition library searchTerm.text t.text) := by
  unfold initWithReader
  rw [if_pos haccepts]
  refine reader.enumerates_filtered (decides_termFilter searchTerm _) rfl ?_ ?_
  · intro t _ ht
    exact Term.le_of_text_le (of_decide_eq_true ht).symm (Collation.nil_le _)
  · intro t _ u _ hstart hlt hu
    have hfield : u.field = (⟨searchTerm.field, []⟩ : Term).field := of_decide_eq_true hu
    exact decide_eq_true (@Term.field_eq_of_between _ ⟨searchTerm.field, []⟩ t u hstart hlt.le hfield)

theorem Yields.wildcardEqualsTo_iff {reader : DictionaryReader E} {searchTerm t : Term}
    (h : Yields composition library reader searchTerm) (ht : t ∈ reader.terms)
    (hfield : t.field = searchTerm.field) :
    wildcardEqualsTo composition library searchTerm.text t.text = true
      ↔ WildcardMatches library.isCharacter searchTerm.text t.text := by
  obtain ⟨f, hf, henum⟩ := h
  have haccepts : library.accepts (expression composition searchTerm.text) = true := by
    unfold initWithReader at hf
    split_ifs at hf with h
    exact h
  obtain ⟨f', hf', henum'⟩ := enumerates_initWithReader reader searchTerm haccepts
  obtain rfl : f = f' := Option.some.inj (hf.symm.trans hf')
  have hsame := henum'.unique (fun e a a' h h' => Option.some.inj (h.symm.trans h'))
    (fun e a h hnone => by cases h.symm.trans hnone) henum
  have hmem := congrArg (t ∈ ·) hsame
  simpa [ht, hfield] using hmem

end Terms

theorem render_injective : ∀ {ps qs : List Piece}, (∀ p ∈ ps, p.Plain) → (∀ q ∈ qs, q.Plain) →
    ps.flatMap Piece.render = qs.flatMap Piece.render → ps = qs
  | [], [], _, _, _ => rfl
  | [], q :: qs, _, _, h => by cases q <;> simp [Piece.render] at h
  | p :: ps, [], _, _, h => by cases p <;> simp [Piece.render] at h
  | p :: ps, q :: qs, hp, hq, h => by
    rw [forall_mem_cons] at hp hq
    have hstop : ∀ c, (Piece.literal c).Plain → c ≠ fullStop := by
      rintro c hc rfl
      exact hc (by simp [special, fullStop])
    have hne : asterisk ≠ questionMark := by decide
    cases p with
    | literal c =>
      cases q with
      | literal d =>
        simp only [flatMap_cons, Piece.render, cons_append, nil_append,
          cons.injEq] at h
        rw [h.1, render_injective hp.2 hq.2 h.2]
      | _ =>
        simp only [flatMap_cons, Piece.render, cons_append, cons.injEq] at h
        exact absurd h.1 (hstop c hp.1)
    | anyCharacters =>
      cases q with
      | literal d =>
        simp only [flatMap_cons, Piece.render, cons_append, cons.injEq] at h
        exact absurd h.1.symm (hstop d hq.1)
      | anyCharacters =>
        simp only [flatMap_cons, Piece.render, cons_append, nil_append,
          cons.injEq, true_and] at h
        rw [render_injective hp.2 hq.2 h]
      | optionalCharacter =>
        simp only [flatMap_cons, Piece.render, cons_append, cons.injEq, true_and] at h
        exact absurd h.1 hne
    | optionalCharacter =>
      cases q with
      | literal d =>
        simp only [flatMap_cons, Piece.render, cons_append, cons.injEq] at h
        exact absurd h.1.symm (hstop d hq.1)
      | anyCharacters =>
        simp only [flatMap_cons, Piece.render, cons_append, cons.injEq, true_and] at h
        exact absurd h.1.symm hne
      | optionalCharacter =>
        simp only [flatMap_cons, Piece.render, cons_append, nil_append,
          cons.injEq, true_and] at h
        rw [render_injective hp.2 hq.2 h]

open Classical in
noncomputable def plainExpressions : RegularExpressions where
  usesPCREParser := false
  isCharacter u := u.length = 1
  accepts _ := true
  find pattern text :=
    if ∃ pieces : List Piece, (∀ p ∈ pieces, p.Plain)
        ∧ anchored (pieces.flatMap Piece.render) = pattern
        ∧ Decomposes (Piece.Matches fun u => u.length = 1) pieces text then some text.length
    else none
  find_le h := by
    split_ifs at h
    exact (Option.some.inj h).symm.le
  accepts_plain _ _ := rfl
  find_plain pieces text hplain _ := by
    refine ⟨fun h => if_pos ⟨pieces, hplain, rfl, h⟩, fun h => ?_⟩
    split_ifs at h with hex
    · obtain ⟨pieces', hplain', heq, hmatches⟩ := hex
      rw [anchored, anchored, cons_append, cons_append, cons.injEq,
        append_cancel_right_eq] at heq
      rwa [render_injective hplain' hplain heq.2] at hmatches
    · exact absurd rfl h

def ascii : Composition where
  isNonspacing _ := false
  ascii _ _ := rfl

/-- The term `a` of the only field. -/
def oneLetter : @DictionaryReader ListTermEnumerator _ Collation.units :=
  @ListTermEnumerator.reader Collation.units [⟨[102], [97]⟩] (pairwise_singleton _ _)

end Wildcard

end Etoile.Lucene
