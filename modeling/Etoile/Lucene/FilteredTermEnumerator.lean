import Etoile.Lucene.QueryTerms

/-!
# Filtered enumerators of terms

`LCFilteredTermEnumerator` goes through the terms of another enumerator and shows those that its
subclass takes for equal, until the subclass has seen the end.
-/

namespace Etoile.Lucene

open List

/-- What a subclass of `LCFilteredTermEnumerator` overrides; `σ` are its instance variables.  There
is nothing to say of a comparison that goes wrong. -/
structure TermFilter (σ : Type) where
  isEqualToTerm : Term → σ → Option (Bool × σ)
  endOfEnumerator : σ → Bool

structure FilteredTermEnumerator {σ : Type} (filter : TermFilter σ) (E : Type) where
  actualEnum : E
  currentTerm : Option Term
  state : σ

namespace FilteredTermEnumerator

open TermEnumerator

variable {σ E : Type} [TermEnumerator E] {filter : TermFilter σ}

/-- The loop of `-hasNextTerm`, entered without a current term. -/
def hasNextTermLoop (filter : TermFilter σ) (e : E) (s : σ) :
    Option (Bool × FilteredTermEnumerator filter E) :=
  if filter.endOfEnumerator s then some (false, ⟨e, none, s⟩)
  else match _h : TermEnumerator.hasNextTerm e with
    | none => none
    | some (false, e') => some (false, ⟨e', none, s⟩)
    | some (true, e') =>
      match (term e').bind fun t => (filter.isEqualToTerm t s).map fun r => (t, r) with
      | none => none
      | some (t, true, s') => some (true, ⟨e', some t, s'⟩)
      | some (_, false, s') => hasNextTermLoop filter e' s'
  termination_by remaining e
  decreasing_by exact remaining_lt _h

def hasNextTerm (f : FilteredTermEnumerator filter E) :
    Option (Bool × FilteredTermEnumerator filter E) :=
  hasNextTermLoop filter f.actualEnum f.state

/-- `-setEnumerator:`. -/
def setEnumerator (filter : TermFilter σ) (e : E) (s : σ) :
    Option (FilteredTermEnumerator filter E) :=
  match term e with
  | none => (hasNextTermLoop filter e s).map Prod.snd
  | some t =>
    match filter.isEqualToTerm t s with
    | none => none
    | some (true, s') => some ⟨e, some t, s'⟩
    | some (false, s') => (hasNextTermLoop filter e s').map Prod.snd

theorem hasNextTermLoop_true {e : E} {s : σ} {f : FilteredTermEnumerator filter E}
    (h : hasNextTermLoop filter e s = some (true, f)) :
    f.currentTerm.isSome ∧ remaining f.actualEnum < remaining e := by
  fun_induction hasNextTermLoop filter e s with
  | case1 => cases h
  | case2 => cases h
  | case3 => cases h
  | case4 => cases h
  | case5 e s hend e' hnext t s' hequal =>
    cases h
    exact ⟨rfl, remaining_lt hnext⟩
  | case6 e s hend e' hnext t s' hequal ih =>
    obtain ⟨hsome, hlt⟩ := ih h
    exact ⟨hsome, hlt.trans (remaining_lt hnext)⟩

theorem hasNextTermLoop_false {e : E} {s : σ} {f : FilteredTermEnumerator filter E}
    (h : hasNextTermLoop filter e s = some (false, f)) : f.currentTerm = none := by
  fun_induction hasNextTermLoop filter e s with
  | case1 =>
    cases h
    rfl
  | case2 => cases h
  | case3 =>
    cases h
    rfl
  | case4 => cases h
  | case5 => cases h
  | case6 e s hend e' hnext t s' hequal ih => exact ih h

instance : TermEnumerator (FilteredTermEnumerator filter E) where
  term f := f.currentTerm
  documentFrequency f := documentFrequency f.actualEnum
  hasNextTerm := hasNextTerm
  remaining f := remaining f.actualEnum
  isSome_term h := (hasNextTermLoop_true h).1
  remaining_lt h := (hasNextTermLoop_true h).2

theorem GoesOn.congr {α : Type} {shows : E → α → Prop} {e e' : E}
    (h : TermEnumerator.hasNextTerm e = TermEnumerator.hasNextTerm e') :
    ∀ {l : List α}, GoesOn shows e l → GoesOn shows e' l
  | [], ⟨e₁, h₁⟩ => ⟨e₁, h ▸ h₁⟩
  | _ :: _, ⟨e₁, h₁, hshows, hrest⟩ => ⟨e₁, h ▸ h₁, hshows, hrest⟩

def ShowsTerm {E : Type} [TermEnumerator E] (e : E) (t : Term) : Prop := term e = some t

/-- A filter that takes for equal what is equal, and sees the end where the field ends. -/
def Decides (filter : TermFilter σ) (inField isEqual : Term → Bool) (l : List Term) : Prop :=
  ∀ t ∈ l, ∀ s, filter.endOfEnumerator s = false → ∃ s',
    filter.isEqualToTerm t s = some (inField t && isEqual t, s')
      ∧ filter.endOfEnumerator s' = !inField t

variable {inField isEqual : Term → Bool} {e : E} {s : σ} {l : List Term}

theorem hasNextTermLoop_of_end (h : filter.endOfEnumerator s = true) :
    hasNextTermLoop filter e s = some (false, ⟨e, none, s⟩) := by
  rw [hasNextTermLoop, if_pos h]

theorem hasNextTermLoop_of_next {e' : E} {t : Term} {equal : Bool} {s' : σ}
    (hs : filter.endOfEnumerator s = false)
    (hnext : TermEnumerator.hasNextTerm e = some (true, e')) (ht : term e' = some t)
    (hequal : filter.isEqualToTerm t s = some (equal, s')) :
    hasNextTermLoop filter e s =
      if equal then some (true, ⟨e', some t, s'⟩) else hasNextTermLoop filter e' s' := by
  have hcompared : ((term e').bind fun t => (filter.isEqualToTerm t s).map fun r => (t, r))
      = some (t, equal, s') := by
    rw [ht, Option.bind_some, hequal, Option.map_some]
  rw [hasNextTermLoop, if_neg (by simp [hs])]
  split <;> rename_i h <;> rw [hnext] at h <;> cases h
  rw [hcompared]
  cases equal <;> rfl

theorem hasNextTermLoop_of_last {e' : E} (hs : filter.endOfEnumerator s = false)
    (hnext : TermEnumerator.hasNextTerm e = some (false, e')) :
    hasNextTermLoop filter e s = some (false, ⟨e', none, s⟩) := by
  rw [hasNextTermLoop, if_neg (by simp [hs])]
  split <;> rename_i h <;> rw [hnext] at h <;> cases h
  rfl

theorem goesOn (c : Option Term) : ∀ {l : List Term} {e : E} {s : σ},
    Decides filter inField isEqual l → GoesOn ShowsTerm e l → filter.endOfEnumerator s = false →
      GoesOn ShowsTerm (⟨e, c, s⟩ : FilteredTermEnumerator filter E)
        ((l.takeWhile inField).filter isEqual)
  | [], e, s, _, ⟨e', hnext⟩, hs => ⟨_, hasNextTermLoop_of_last hs hnext⟩
  | t :: l, e, s, hfilter, ⟨e', hnext, hshows, hrest⟩, hs => by
    obtain ⟨s', hequal, hend⟩ := hfilter t mem_cons_self s hs
    have hfilter' : Decides filter inField isEqual l :=
      fun u hu => hfilter u (mem_cons_of_mem t hu)
    have hloop := hasNextTermLoop_of_next hs hnext hshows hequal
    by_cases hfield : inField t = true
    · rw [hfield, Bool.not_true] at hend
      rw [takeWhile_cons_of_pos hfield]
      by_cases hmatch : isEqual t = true
      · rw [filter_cons_of_pos hmatch]
        rw [hfield, hmatch] at hloop
        exact ⟨_, hloop, rfl, goesOn (some t) hfilter' hrest hend⟩
      · rw [filter_cons_of_neg hmatch]
        rw [hfield, Bool.eq_false_of_not_eq_true hmatch] at hloop
        exact GoesOn.congr hloop.symm (goesOn c hfilter' hrest hend)
    · rw [takeWhile_cons_of_neg hfield]
      rw [Bool.eq_false_of_not_eq_true hfield] at hloop hend
      exact ⟨_, hloop.trans (hasNextTermLoop_of_end hend)⟩

/-- Where `-hasNextTerm` leads first. -/
theorem exists_enumerates_of_goesOn
    (h : GoesOn ShowsTerm (⟨e, none, s⟩ : FilteredTermEnumerator filter E) l) :
    ∃ f, (hasNextTermLoop filter e s).map Prod.snd = some f ∧ Enumerates ShowsTerm f l := by
  cases l with
  | nil =>
    obtain ⟨f, hloop⟩ := h
    have hloop : hasNextTermLoop filter e s = some (false, f) := hloop
    refine ⟨f, by rw [hloop]; rfl, hasNextTermLoop_false hloop⟩
  | cons t l =>
    obtain ⟨f, hloop, hshows, hrest⟩ := h
    have hloop : hasNextTermLoop filter e s = some (true, f) := hloop
    exact ⟨f, by rw [hloop]; rfl, hshows, hrest⟩

theorem enumerates_setEnumerator (hfilter : Decides filter inField isEqual l)
    (hs : filter.endOfEnumerator s = false) (h : Enumerates ShowsTerm e l)
    (hnil : l = [] → GoesOn ShowsTerm e []) : ∃ f, setEnumerator filter e s = some f
      ∧ Enumerates ShowsTerm f ((l.takeWhile inField).filter isEqual) := by
  unfold setEnumerator
  cases l with
  | nil =>
    have hterm : term e = none := h
    rw [hterm]
    exact exists_enumerates_of_goesOn (goesOn none hfilter (hnil rfl) hs)
  | cons t l =>
    obtain ⟨hshows, hrest⟩ := h
    obtain ⟨s', hequal, hend⟩ := hfilter t mem_cons_self s hs
    have hfilter' : Decides filter inField isEqual l :=
      fun u hu => hfilter u (mem_cons_of_mem t hu)
    have hterm : term e = some t := hshows
    simp only [hterm, hequal]
    by_cases hfield : inField t = true
    · rw [hfield, Bool.not_true] at hend
      rw [takeWhile_cons_of_pos hfield]
      by_cases hmatch : isEqual t = true
      · rw [filter_cons_of_pos hmatch, hfield, hmatch]
        exact ⟨_, rfl, rfl, goesOn (some t) hfilter' hrest hend⟩
      · rw [filter_cons_of_neg hmatch, Bool.eq_false_of_not_eq_true hmatch, Bool.and_false]
        exact exists_enumerates_of_goesOn (goesOn none hfilter' hrest hend)
    · rw [Bool.eq_false_of_not_eq_true hfield] at hend ⊢
      rw [takeWhile_cons_of_neg hfield, Bool.false_and]
      exact exists_enumerates_of_goesOn ⟨_, hasNextTermLoop_of_end hend⟩

theorem takeWhile_eq_filter {α : Type} {P : α → Bool} : ∀ {l : List α},
    l.Pairwise (fun a b => P b = true → P a = true) → l.takeWhile P = l.filter P
  | [], _ => rfl
  | a :: l, h => by
    rw [pairwise_cons] at h
    by_cases ha : P a = true
    · rw [takeWhile_cons_of_pos ha, filter_cons_of_pos ha, takeWhile_eq_filter h.2]
    · rw [takeWhile_cons_of_neg ha, filter_cons_of_neg ha, eq_comm,
        filter_eq_nil_iff]
      exact fun b hb hP => ha (h.1 b hb hP)

end FilteredTermEnumerator

theorem Term.le_of_text_le [Collation] {t u : Term} (hfield : t.field = u.field)
    (h : Collated.mk t.text ≤ ⟨u.text⟩) : t ≤ u := by
  show t.key ≤ u.key
  rw [Prod.Lex.le_iff]
  exact Or.inr ⟨congrArg Collated.mk hfield, h⟩

open FilteredTermEnumerator

structure DictionaryReader (E : Type) [TermEnumerator E] [Collation] where
  terms : List Term
  sorted : terms.Pairwise (· < ·)
  termEnumeratorWithTerm : Term → E
  enumerates : ∀ t, Enumerates ShowsTerm (termEnumeratorWithTerm t) (terms.filter (t ≤ ·))
  ends : ∀ t, terms.filter (t ≤ ·) = [] → GoesOn ShowsTerm (termEnumeratorWithTerm t) []

namespace DictionaryReader

variable {E σ : Type} [TermEnumerator E] [Collation] {filter : TermFilter σ} {s : σ}
  {inField isEqual : Term → Bool}

/-- A filter that starts before the terms of its field, which are all together, shows all of them
that are equal. -/
theorem enumerates_filtered (reader : DictionaryReader E)
    (hfilter : Decides filter inField isEqual reader.terms) (hs : filter.endOfEnumerator s = false) {start : Term}
    (hstart : ∀ t ∈ reader.terms, inField t = true → start ≤ t)
    (htogether : ∀ t ∈ reader.terms, ∀ u ∈ reader.terms, start ≤ t → t < u →
      inField u = true → inField t = true) :
    ∃ f, setEnumerator filter (reader.termEnumeratorWithTerm start) s = some f
      ∧ Enumerates ShowsTerm f (reader.terms.filter fun t => inField t && isEqual t) := by
  have hfilter' : Decides filter inField isEqual (reader.terms.filter (start ≤ ·)) :=
    fun t ht => hfilter t (mem_filter.1 ht).1
  obtain ⟨f, hf, henum⟩ := enumerates_setEnumerator hfilter' hs (reader.enumerates start)
    (reader.ends start)
  refine ⟨f, hf, ?_⟩
  have hblock : (reader.terms.filter (start ≤ ·)).takeWhile inField
      = reader.terms.filter inField := by
    have hsorted : (reader.terms.filter (start ≤ ·)).Pairwise
        fun t u => inField u = true → inField t = true := by
      refine ((reader.sorted.filter _).imp_of_mem fun {t u} ht hu hlt hin => ?_)
      rw [mem_filter] at ht hu
      exact htogether t ht.1 u hu.1 (by simpa using ht.2) hlt hin
    rw [takeWhile_eq_filter hsorted, filter_filter]
    refine filter_congr fun t ht => ?_
    by_cases hin : inField t = true
    · simp [hin, hstart t ht hin]
    · simp [hin]
  rw [hblock, filter_filter] at henum
  simpa only [Bool.and_comm] using henum

end DictionaryReader

structure ListTermEnumerator where
  current : Option Term
  rest : List Term

instance : TermEnumerator ListTermEnumerator where
  term e := e.current
  documentFrequency _ := 1
  hasNextTerm e :=
    match e.rest with
    | [] => some (false, ⟨none, []⟩)
    | t :: rest => some (true, ⟨some t, rest⟩)
  remaining e := e.rest.length
  isSome_term {e e'} h := by
    rcases hrest : e.rest with _ | ⟨t, rest⟩ <;> rw [hrest] at h <;> cases h
    rfl
  remaining_lt {e e'} h := by
    rcases hrest : e.rest with _ | ⟨t, rest⟩ <;> rw [hrest] at h <;> cases h
    exact Nat.lt_succ_self _

namespace ListTermEnumerator

def ofTerms : List Term → ListTermEnumerator
  | [] => ⟨none, []⟩
  | t :: rest => ⟨some t, rest⟩

theorem goesOn (c : Option Term) : ∀ l : List Term, GoesOn ShowsTerm (⟨c, l⟩ : ListTermEnumerator) l
  | [] => ⟨_, rfl⟩
  | t :: l => ⟨_, rfl, rfl, goesOn (some t) l⟩

theorem enumerates_ofTerms : ∀ l : List Term, Enumerates ShowsTerm (ofTerms l) l
  | [] => rfl
  | t :: l => ⟨rfl, goesOn (some t) l⟩

def reader [Collation] (terms : List Term) (h : terms.Pairwise (· < ·)) :
    DictionaryReader ListTermEnumerator where
  terms := terms
  sorted := h
  termEnumeratorWithTerm t := ofTerms (terms.filter (t ≤ ·))
  enumerates t := enumerates_ofTerms _
  ends t h := by
    rw [h]
    exact ⟨_, rfl⟩

end ListTermEnumerator

end Etoile.Lucene
