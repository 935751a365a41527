import Etoile.Lucene.MultiTermEnumerator

/-!
# The terms of a multi reader as a sorted union
-/

namespace Etoile.Lucene

open List MultiTermEnumerator Option SegmentTermEnumerator TermInfosReader TermInfosWriter

section union
variable [Collation]

structure Dictionary where
  fieldInfos : FieldInfos
  indexInterval : ℕ
  entries : List Entry
  rows : List (Entry × ℕ)
  reader : TermInfosReader
  opened : Opened fieldInfos indexInterval entries rows reader
  writable : Writable fieldInfos entries
  indexInterval_pos : 0 < indexInterval
  written : ∀ entry ∈ entries, entry.1 ≠ Term.empty

def Entry.docFreq (e : Entry) : Term × ℕ := (e.1, e.2.docFreq)

namespace Dictionary

def termReader (d : Dictionary) : TermReader SegmentTermEnumerator where
  termEnumerator := d.reader.termEnumerator
  termEnumeratorWithTerm t := (d.reader.termEnumeratorWithTerm t).1

/-- All terms, or those not smaller than `t`. -/
def terms (t : Option Term) (d : Dictionary) : List (Term × ℕ) :=
  (match t with
    | some t => entriesFrom t d.entries
    | none => d.entries).map Entry.docFreq

variable {d : Dictionary} {t : Term}

omit [Collation] in
theorem showsTerm {e : SegmentTermEnumerator} {entry : Entry} (h : e.Shows entry) :
    ShowsTerm e entry.docFreq := ⟨h.1, h.2.docFreq⟩

theorem increasingTerms {entries : List Entry} (h : Increasing entries) :
    IncreasingTerms (entries.map Entry.docFreq) :=
  pairwise_map.2 h

/-- The lookup of a term raises where there is no entry, and where its search ends before the first
one. -/
def Answers (t : Term) (d : Dictionary) : Prop :=
  d.entries ≠ [] ∧ ((∀ entry ∈ d.entries, t < entry.1) →
    ¬SearchMisses (indexSize d.indexInterval d.entries.length))

/-- What an enumerator for a term shows before the entries from there on: it is not moved for the
empty term, and stays at the last entry where there are none. -/
def staleEntry (t : Term) (d : Dictionary) : Option Entry :=
  if t = Term.empty then some Entry.empty
  else if ∃ entry ∈ d.entries, t ≤ entry.1 then none
  else some (d.entries.getLastD Entry.empty)

def shown (t : Term) (d : Dictionary) : List Entry :=
  (d.staleEntry t).toList ++ entriesFrom t d.entries

theorem staleEntry_spec {entry : Entry} (h : d.staleEntry t = some entry) :
    entry.1 < t ∨ t = Term.empty ∧ entry.1 = Term.empty := by
  unfold staleEntry at h
  split_ifs at h with hterm hle
  · obtain rfl := some.inj h
    exact .inr ⟨hterm, rfl⟩
  · obtain rfl := some.inj h
    rcases mem_cons.1 (getLastD_mem_cons (l := d.entries) (a := Entry.empty))
      with hempty | hmem
    · rw [hempty]
      exact .inl (Term.empty_lt_iff.2 hterm)
    · exact .inl (not_le.1 fun h => hle ⟨_, hmem, h⟩)

theorem increasing_shown : Increasing (d.shown t) := by
  unfold shown
  rcases hstale : d.staleEntry t with _ | entry
  · exact d.writable.increasing.filter _
  · refine pairwise_cons.2 ⟨fun e he => ?_, d.writable.increasing.filter _⟩
    obtain ⟨hmem, hle⟩ := mem_filter.1 he
    rw [decide_eq_true_iff] at hle
    rcases staleEntry_spec hstale with hlt | ⟨-, hempty⟩
    · exact hlt.trans_le hle
    · rw [hempty]
      exact Term.empty_lt_iff.2 (d.written e hmem)

/-- An enumerator for a term starts at it or after it, if it starts at all, but for one entry. -/
theorem starts_shown (h : d.Answers t) :
    Starts (some t) d.termReader ((d.shown t).map Entry.docFreq) := by
  obtain ⟨hne, hsearch⟩ := h
  obtain ⟨-, hopened, index, hindex⟩ := d.opened.ensureIndexIsRead
  have hseek := @seekTerm_eq _ _ _ _ _ _ t hopened _ hindex d.indexInterval_pos hne
    d.writable.increasing
  have hscan : (d.reader.termEnumeratorWithTerm t).1
      = d.reader.ensureIndexIsRead.2.origEnum.scanTo t := by
    rw [termEnumeratorWithTerm_eq d.opened]
    rcases hseek with ⟨-, hscan⟩ | ⟨hlt, hmiss, -⟩
    · exact hscan
    · exact absurd hmiss (hsearch hlt)
  unfold shown staleEntry
  split_ifs with hterm hle
  · -- the enumerator is before its first entry, at a term that none has
    subst hterm
    have hbuffer : d.reader.ensureIndexIsRead.2.origEnum.termBuffer = Term.empty :=
      hopened.orig.term
    rw [scanTo_of_le hbuffer.ge] at hscan
    have hchain := isChain_follows d.writable.fits d.writable.pointers
    have hgo := hopened.orig.goesOn (by rwa [map_fst_map_zero])
    rw [map_fst_map_zero] at hgo
    have hall : entriesFrom Term.empty d.entries = d.entries :=
      filter_eq_self.2 fun entry _ => by simpa using Term.empty_le entry.1
    rw [hall]
    exact ⟨_, hscan, showsTerm hopened.orig.shows, hgo.map Entry.docFreq fun _ _ h => showsTerm h⟩
  · obtain ⟨e, he, henum⟩ := enumerates_scanTo hopened d.writable hterm hle
    exact ⟨e, hscan.trans he, henum.map Entry.docFreq fun _ _ h => showsTerm h⟩
  · -- the enumerator is at the last entry
    obtain ⟨e, he, ⟨hnil, hlast⟩ | ⟨entry, rest, hcons, -, -⟩⟩ :=
      scanTo_opened hopened d.writable hterm
    · rw [hnil]
      exact ⟨e, hscan.trans he, showsTerm hlast.shows, ⟨_, hlast.hasNextTerm_nil.1⟩⟩
    · have hmem : entry ∈ entriesFrom t d.entries := by
        rw [hcons]
        exact mem_cons_self
      rw [entriesFrom, mem_filter, decide_eq_true_iff] at hmem
      exact absurd ⟨entry, hmem.1, hmem.2⟩ hle

theorem answers_iff : (∃ e, d.termReader.termEnumeratorWithTerm t = some e) ↔ d.Answers t := by
  constructor
  · rintro ⟨e, he⟩
    have he' : (d.reader.termEnumeratorWithTerm t).1 = some e := he
    obtain ⟨-, hopened, index, hindex⟩ := d.opened.ensureIndexIsRead
    rw [termEnumeratorWithTerm_eq d.opened] at he'
    have hne : d.entries ≠ [] := by
      intro hnil
      have hlength := hopened.length_indexTerms hindex
      rw [hnil, length_nil, indexSize_zero] at hlength
      rw [seekTerm_of_length hopened hindex hlength] at he'
      cases he'
    refine ⟨hne, ?_⟩
    have hseek := @seekTerm_eq _ _ _ _ _ _ t hopened _ hindex d.indexInterval_pos hne
      d.writable.increasing
    rw [he'] at hseek
    rcases hseek with ⟨hsearch, -⟩ | ⟨-, -, hnone⟩
    · exact hsearch
    · cases hnone
  · intro h
    obtain ⟨e, he, -⟩ := starts_shown h
    exact ⟨e, he⟩

theorem findable_of_staleEntry (h : d.Answers t) (hstale : d.staleEntry t = none) :
    Findable d.indexInterval d.entries t := by
  unfold staleEntry at hstale
  split_ifs at hstale with hterm hle
  exact ⟨d.written, hterm, hle, h.2⟩

theorem starts_of_findable (h : Findable d.indexInterval d.entries t) :
    Starts (some t) d.termReader (d.terms (some t)) := by
  obtain ⟨e, he, henum⟩ := (isSortedMapAt_of_findable d.opened d.writable d.indexInterval_pos
    h).termEnumeratorWithTerm
  exact ⟨e, he, henum.map Entry.docFreq fun _ _ h => showsTerm h⟩

theorem starts_none : Starts none d.termReader (d.terms none) := by
  have hchain := isChain_follows d.writable.fits d.writable.pointers
  have hgo := d.opened.orig.goesOn (by rwa [map_fst_map_zero])
  rw [map_fst_map_zero] at hgo
  exact hgo.map Entry.docFreq fun _ _ h => showsTerm h

theorem increasing_terms : ∀ t, IncreasingTerms (d.terms t)
  | some _ => increasingTerms (d.writable.increasing.filter _)
  | none => increasingTerms d.writable.increasing

end Dictionary

/-- The multi reader enumerates the sorted union of the terms of its sub-readers, each given with
its start. -/
def EnumeratesUnion (subReaders : List (ℕ × Dictionary)) (t : Option Term) : Prop :=
  ∃ m U, initWithReaders (subReaders.map fun p => (p.1, p.2.termReader)) t = some m
    ∧ IsUnion (subReaders.flatMap fun p => p.2.terms t) U ∧ EnumeratesFrom t m U

section merge
variable {subReaders : List (ℕ × Dictionary)} {t : Option Term}

theorem initWithReaders_of_starts_map (f : ℕ × Dictionary → List (Term × ℕ))
    (h : ∀ p ∈ subReaders, Starts t p.2.termReader (f p) ∧ IncreasingTerms (f p)) :
    ∃ m U, initWithReaders (subReaders.map fun p => (p.1, p.2.termReader)) t = some m
      ∧ IsUnion (subReaders.flatMap f) U ∧ EnumeratesFrom t m U := by
  refine @initWithReaders_of_starts _ _ _ _ _ (subReaders.map f) ?_
  rw [forall₂_map_left_iff, forall₂_map_right_iff, forall₂_same]
  exact h

theorem findable_of_enumeratesUnion {term : Term} (h : EnumeratesUnion subReaders (some term)) :
    ∀ p ∈ subReaders, Findable p.2.indexInterval p.2.entries term := by
  obtain ⟨m, U, hinit, hunion, henum⟩ := h
  have hanswers : ∀ p ∈ subReaders, p.2.Answers term := by
    intro p hp
    obtain ⟨queue, hqueue, -⟩ := bind_eq_some_iff.1 hinit
    exact Dictionary.answers_iff.1 (exists_of_initQueue hqueue _ (mem_map_of_mem hp))
  obtain ⟨m', U', hinit', hunion', henum'⟩ :=
    initWithReaders_of_starts_map (fun p => (p.2.shown term).map Entry.docFreq) fun p hp =>
      ⟨Dictionary.starts_shown (hanswers p hp),
        Dictionary.increasingTerms Dictionary.increasing_shown⟩
  rw [hinit, some.injEq] at hinit'
  obtain rfl : U = U' := by
    subst hinit'
    refine @Enumerates.unique _ _ _ ShowsTerm (fun _ _ _ ha ha' => ha.unique ha') ?_ _ _ m henum
      henum'
    intro e a ha hnone
    cases ha.1.symm.trans hnone
  intro p hp
  rcases hstale : p.2.staleEntry term with _ | stale
  · exact Dictionary.findable_of_staleEntry (hanswers p hp) hstale
  · have hshown : stale ∈ p.2.shown term := by
      unfold Dictionary.shown
      rw [hstale]
      exact mem_cons_self
    have hkey : ∃ b ∈ subReaders.flatMap fun p => (p.2.shown term).map Entry.docFreq,
        b.1 = stale.1 :=
      ⟨stale.docFreq, mem_flatMap.2 ⟨p, hp, mem_map_of_mem hshown⟩, rfl⟩
    obtain ⟨⟨b, hb, hba⟩, -⟩ := (hunion.mem_iff _ _).1 ((hunion'.mem_iff stale.1 _).2 ⟨hkey, rfl⟩)
    obtain ⟨q, hq, hb⟩ := mem_flatMap.1 hb
    obtain ⟨entry, hentry, rfl⟩ := mem_map.1 hb
    obtain ⟨hmem, hle⟩ := mem_filter.1 hentry
    rw [decide_eq_true_iff] at hle
    have hentry : entry.1 = stale.1 := hba
    rcases Dictionary.staleEntry_spec hstale with hlt | ⟨-, hempty⟩
    · exact absurd hle (not_le.2 (hentry ▸ hlt))
    · exact absurd (hentry.trans hempty) (q.2.written entry hmem)

end merge

/-- The union is right exactly where every dictionary is. -/
theorem enumeratesUnion_iff (subReaders : List (ℕ × Dictionary)) (t : Option Term) :
    EnumeratesUnion subReaders t ↔
      ∀ term, t = some term → ∀ p ∈ subReaders, Findable p.2.indexInterval p.2.entries term := by
  constructor
  · rintro h term rfl
    exact findable_of_enumeratesUnion h
  · intro hfindable
    refine initWithReaders_of_starts_map _ fun p hp => ⟨?_, p.2.increasing_terms t⟩
    rcases t with _ | t
    · exact p.2.starts_none
    · exact p.2.starts_of_findable (hfindable t rfl p hp)

theorem exists_dictionary {fieldInfos : FieldInfos} {entry : Entry}
    (hfits : entry.Fits fieldInfos) (hentry : entry.1 ≠ Term.empty) :
    ∃ d : Dictionary, d.entries = [entry] := by
  have hwritten : ∀ e ∈ [entry], e.1 ≠ Term.empty := by
    rintro e he
    rwa [mem_singleton.1 he]
  obtain ⟨rows, r, -, hopened⟩ := exists_opened (writable_singleton hfits)
    (by norm_num : 0 < 128) (by norm_num) hwritten
  exact ⟨⟨fieldInfos, 128, [entry], rows, r, hopened, writable_singleton hfits, by norm_num,
    hwritten⟩, rfl⟩

end union

/-- The term `d` of the field `a`. -/
def laterEntry : Entry := (⟨[97], [100]⟩, ⟨1, 0, 0, 0⟩)

/-- From the term `c` on, the multi reader of `b` and `d` starts at `b`. -/
theorem not_enumeratesUnion_between :
    ∃ d d' : @Dictionary Collation.units, @Dictionary.entries Collation.units d = [oneEntry]
      ∧ @Dictionary.entries Collation.units d' = [laterEntry]
      ∧ ¬@EnumeratesUnion Collation.units [(0, d), (1, d')] (some ⟨[97], [99]⟩) := by
  let _ := Collation.units
  have hfits : laterEntry.Fits oneField := by
    refine ⟨mem_singleton_self _, ?_, ?_, ?_, ?_, ?_⟩ <;> simp [laterEntry]
  obtain ⟨d, hd⟩ := exists_dictionary oneEntry_fits nofun
  obtain ⟨d', hd'⟩ := exists_dictionary hfits nofun
  refine ⟨d, d', hd, hd', fun h => ?_⟩
  obtain ⟨entry, hentry, hle⟩ :=
    (findable_of_enumeratesUnion h (0, d) mem_cons_self).exists_le
  rw [hd, mem_singleton] at hentry
  rw [hentry] at hle
  have hlt : ([98] : NSString) < [99] := Lex.rel (by decide)
  exact absurd hle (not_le.2 (Term.lt_iff.2 (Or.inr ⟨rfl, hlt⟩)))

end Etoile.Lucene
