import Etoile.Lucene.Term
import Mathlib.Data.List.Chain

/-!
# The writer of the term dictionary

An entry is written as what it adds to the entry before: the terms share a prefix, and the pointers
grow.  Every `indexInterval`-th place of the dictionary has an entry in the index, which is written
the same way by the `other` writer, with a pointer into the dictionary after each entry.
-/

namespace Etoile.Lucene

open List

abbrev Entry := Term × TermInfo

def Entry.empty : Entry := (Term.empty, TermInfo.empty)

def LCTermInfos_FORMAT : ℤ := -2

def positionOfDifference : NSString → NSString → ℕ
  | c :: s, d :: other => if c = d then positionOfDifference s other + 1 else 0
  | _, _ => 0

def skipInterval : ℕ := 16

section bytes
variable (fieldInfos : FieldInfos)

def termBytes (lastTerm term : Term) : List UInt8 :=
  let start := positionOfDifference lastTerm.text term.text
  writeVInt start ++ writeVInt (term.text.length - start) ++ writeChars (term.text.drop start)
    ++ writeVInt (fieldInfos.fieldNumber term.field % 2 ^ 32).toNat

def termInfoBytes (lastTi ti : TermInfo) : List UInt8 :=
  writeVInt ti.docFreq
    ++ writeVLong (ti.freqPointer - lastTi.freqPointer)
    ++ writeVLong (ti.proxPointer - lastTi.proxPointer)
    ++ if skipInterval ≤ ti.docFreq then writeVInt ti.skipOffset else []

/-- An entry after another one; only in the index with a pointer, which is added to the last. -/
def entryBytes (isIndex : Bool) (last : Entry) (row : Entry × ℕ) : List UInt8 :=
  termBytes fieldInfos last.1 row.1.1 ++ termInfoBytes last.2 row.1.2
    ++ if isIndex then writeVLong row.2 else []

def entriesBytes (isIndex : Bool) : Entry → List (Entry × ℕ) → List UInt8
  | _, [] => []
  | last, row :: rows => entryBytes fieldInfos isIndex last row ++ entriesBytes isIndex row.1 rows

theorem entriesBytes_concat (isIndex : Bool) (row : Entry × ℕ) :
    ∀ (rows : List (Entry × ℕ)) (last : Entry),
      entriesBytes fieldInfos isIndex last (rows ++ [row])
        = entriesBytes fieldInfos isIndex last rows
          ++ entryBytes fieldInfos isIndex ((rows.map Prod.fst).getLastD last) row
  | [], last => by simp [entriesBytes]
  | r :: rows, last => by
    rw [cons_append, entriesBytes, entriesBytes, entriesBytes_concat isIndex row rows,
      append_assoc, map_cons, getLastD_cons]

end bytes

structure TermsOutput where
  output : List UInt8
  size : ℕ
  lastTerm : Term
  lastTi : TermInfo
  lastIndexPointer : ℕ

namespace TermsOutput

def new (indexInterval : ℕ) : TermsOutput where
  output := writeInt LCTermInfos_FORMAT ++ writeLong 0 ++ writeInt indexInterval
    ++ writeInt skipInterval
  size := 0
  lastTerm := Term.empty
  lastTi := TermInfo.empty
  lastIndexPointer := 0

def write (w : TermsOutput) (bytes : List UInt8) : TermsOutput :=
  { w with output := w.output ++ bytes }

def writeTerm (fieldInfos : FieldInfos) (w : TermsOutput) (term : Term) : TermsOutput :=
  { w.write (termBytes fieldInfos w.lastTerm term) with lastTerm := term }

def writeTermInfo (w : TermsOutput) (ti : TermInfo) : TermsOutput :=
  w.write (termInfoBytes w.lastTi ti)

def writeIndexPointer (w : TermsOutput) (offsetInFile : ℕ) : TermsOutput :=
  { w.write (writeVLong (offsetInFile - w.lastIndexPointer)) with
    lastIndexPointer := offsetInFile }

def setLastTi (w : TermsOutput) (ti : TermInfo) : TermsOutput :=
  { w with lastTi := ti, size := w.size + 1 }

def PointerOutOfOrder (w : TermsOutput) (ti : TermInfo) : Prop :=
  ti.freqPointer < w.lastTi.freqPointer ∨ ti.proxPointer < w.lastTi.proxPointer

instance (w : TermsOutput) (ti : TermInfo) : Decidable (w.PointerOutOfOrder ti) :=
  inferInstanceAs (Decidable (_ ∨ _))

/-- `-addTerm:termInfo:` of the index writer. -/
def addIndexTerm (fieldInfos : FieldInfos) (offsetInFile : ℕ) (w : TermsOutput) (term : Term)
    (ti : TermInfo) : TermsOutput :=
  if w.PointerOutOfOrder ti then w
  else (((w.writeTerm fieldInfos term).writeTermInfo ti).writeIndexPointer offsetInFile).setLastTi
    ti

def close (w : TermsOutput) : List UInt8 :=
  w.output.take 4 ++ writeLong w.size ++ w.output.drop 12

structure Holds (fieldInfos : FieldInfos) (indexInterval : ℕ) (isIndex : Bool)
    (rows : List (Entry × ℕ)) (w : TermsOutput) : Prop where
  output : w.output = (new indexInterval).output
    ++ entriesBytes fieldInfos isIndex Entry.empty rows
  size : w.size = rows.length
  last : (w.lastTerm, w.lastTi) = (rows.map Prod.fst).getLastD Entry.empty

section holds
variable {fieldInfos : FieldInfos} {indexInterval : ℕ} {isIndex : Bool}
  {rows : List (Entry × ℕ)} {w : TermsOutput}

theorem Holds.new : Holds fieldInfos indexInterval isIndex [] (new indexInterval) where
  output := by simp [entriesBytes]
  size := rfl
  last := rfl

theorem Holds.close (h : Holds fieldInfos indexInterval isIndex rows w) :
    w.close = writeInt LCTermInfos_FORMAT ++ writeLong rows.length ++ writeInt indexInterval
      ++ writeInt skipInterval ++ entriesBytes fieldInfos isIndex Entry.empty rows := by
  unfold TermsOutput.close
  rw [h.output, h.size, TermsOutput.new]
  simp only [append_assoc]
  rw [take_left' (length_writeInt _), drop_append, length_writeInt,
    drop_of_length_le (by simp), drop_left' (by simp)]
  rfl

theorem Holds.output_concat (h : Holds fieldInfos indexInterval isIndex rows w)
    (row : Entry × ℕ) :
    w.output ++ entryBytes fieldInfos isIndex (w.lastTerm, w.lastTi) row
      = (TermsOutput.new indexInterval).output
        ++ entriesBytes fieldInfos isIndex Entry.empty (rows ++ [row]) := by
  rw [h.output, h.last, entriesBytes_concat, append_assoc]

theorem Holds.add {term : Term} {ti : TermInfo}
    (h : Holds fieldInfos indexInterval false rows w) :
    Holds fieldInfos indexInterval false (rows ++ [((term, ti), 0)])
      (((w.writeTerm fieldInfos term).writeTermInfo ti).setLastTi ti) where
  output := by
    rw [← h.output_concat]
    simp [setLastTi, writeTermInfo, writeTerm, write, entryBytes]
  size := by simp [setLastTi, writeTermInfo, writeTerm, write, h.size]
  last := by
    rw [map_append, map_singleton, getLastD_concat]
    rfl

theorem Holds.addIndexTerm {term : Term} {ti : TermInfo} {offsetInFile : ℕ}
    (h : Holds fieldInfos indexInterval true rows w) (hti : ¬w.PointerOutOfOrder ti) :
    Holds fieldInfos indexInterval true
      (rows ++ [((term, ti), offsetInFile - w.lastIndexPointer)])
      (w.addIndexTerm fieldInfos offsetInFile term ti) := by
  unfold TermsOutput.addIndexTerm
  rw [if_neg hti]
  refine ⟨?_, ?_, ?_⟩
  · rw [← h.output_concat]
    simp [setLastTi, writeIndexPointer, writeTermInfo, writeTerm, write, entryBytes]
  · simp [setLastTi, writeIndexPointer, writeTermInfo, writeTerm, write, h.size]
  · rw [map_append, map_singleton, getLastD_concat]
    rfl

end holds

end TermsOutput

structure TermInfosWriter where
  fieldInfos : FieldInfos
  indexInterval : ℕ
  tis : TermsOutput
  other : TermsOutput

namespace TermInfosWriter

def new (fieldInfos : FieldInfos) (indexInterval : ℕ) : TermInfosWriter where
  fieldInfos
  indexInterval
  tis := TermsOutput.new indexInterval
  other := TermsOutput.new indexInterval

/-- At the start of a block the entry before it is put in the index, or the first one. -/
def addOther (w : TermInfosWriter) (term : Term) (ti : TermInfo) : TermInfosWriter :=
  let offsetInFile := w.tis.output.length
  if w.tis.size % w.indexInterval = 0 then
    { w with
      other :=
        if w.tis.size = 0 then w.other.addIndexTerm w.fieldInfos offsetInFile term ti
        else w.other.addIndexTerm w.fieldInfos offsetInFile w.tis.lastTerm w.tis.lastTi }
  else w

variable [Collation]

def addTerm (w : TermInfosWriter) (term : Term) (ti : TermInfo) : TermInfosWriter :=
  if term.compare w.tis.lastTerm ≠ .gt then w
  else if w.tis.PointerOutOfOrder ti then w
  else { w.addOther term ti with
    tis := ((w.tis.writeTerm w.fieldInfos term).writeTermInfo ti).setLastTi ti }

def addTerms (w : TermInfosWriter) (entries : List Entry) : TermInfosWriter :=
  entries.foldl (fun w e => w.addTerm e.1 e.2) w

end TermInfosWriter

def PointersLe (e e' : Entry) : Prop :=
  e.2.freqPointer ≤ e'.2.freqPointer ∧ e.2.proxPointer ≤ e'.2.proxPointer

structure Entry.Fits (fieldInfos : FieldInfos) (e : Entry) : Prop where
  field : e.1.field ∈ fieldInfos.names
  text : e.1.text.length < 2 ^ 31
  docFreq : e.2.docFreq < 2 ^ 31
  skipOffset : e.2.skipOffset < 2 ^ 31
  freqPointer : e.2.freqPointer < 2 ^ 63
  proxPointer : e.2.proxPointer < 2 ^ 63

theorem PointersLe.refl (e : Entry) : PointersLe e e := ⟨le_rfl, le_rfl⟩

theorem PointersLe.empty (e : Entry) : PointersLe Entry.empty e := ⟨Nat.zero_le _, Nat.zero_le _⟩

/-- How many entries the index of `size` entries has. -/
def indexSize (indexInterval size : ℕ) : ℕ := (size + indexInterval - 1) / indexInterval

section indexSize
variable {indexInterval size : ℕ}

theorem indexSize_eq_of (q r : ℕ) (hr : 0 < r) (hle : r ≤ indexInterval) :
    indexSize indexInterval (indexInterval * q + r) = q + 1 := by
  have hmul : (q + 1) * indexInterval = indexInterval * q + indexInterval := by ring
  have hmul' : (q + 1 + 1) * indexInterval = indexInterval * q + indexInterval + indexInterval := by
    ring
  exact Nat.div_eq_of_lt_le (by omega) (by omega)

theorem indexSize_mul (hpos : 0 < indexInterval) : ∀ q,
    indexSize indexInterval (indexInterval * q) = q
  | 0 => Nat.div_eq_of_lt (by omega)
  | q + 1 => indexSize_eq_of q indexInterval hpos le_rfl

theorem indexSize_zero : ∀ indexInterval, indexSize indexInterval 0 = 0
  | 0 => rfl
  | indexInterval + 1 => Nat.div_eq_of_lt (by omega)

theorem indexSize_succ (hpos : 0 < indexInterval) (hmod : size % indexInterval = 0) :
    indexSize indexInterval (size + 1) = indexSize indexInterval size + 1 := by
  have hdiv := Nat.div_add_mod size indexInterval
  rw [hmod, Nat.add_zero] at hdiv
  rw [← hdiv, indexSize_eq_of _ 1 (by omega) hpos, indexSize_mul hpos]

theorem indexSize_succ_of_ne (hpos : 0 < indexInterval) (hmod : size % indexInterval ≠ 0) :
    indexSize indexInterval (size + 1) = indexSize indexInterval size := by
  have hdiv := Nat.div_add_mod size indexInterval
  have hlt := Nat.mod_lt size hpos
  rw [← hdiv, Nat.add_assoc, indexSize_eq_of _ _ (by omega) hlt,
    indexSize_eq_of _ _ (by omega) hlt.le]

theorem div_lt_indexSize {i : ℕ} (hpos : 0 < indexInterval) (hi : i < size) :
    i / indexInterval < indexSize indexInterval size := by
  have hle : (i + indexInterval) / indexInterval ≤ indexSize indexInterval size :=
    Nat.div_le_div_right (by omega)
  rw [Nat.add_div_right i hpos] at hle
  omega

end indexSize

/-- The rows of the index of a dictionary, the first one for its first entry. -/
structure IsIndex (indexInterval : ℕ) (entries : List Entry) (rows : List (Entry × ℕ)) : Prop where
  length : rows.length = indexSize indexInterval entries.length
  head : (rows.map Prod.fst).head? = entries.head?
  mem : ∀ row ∈ rows, row.1 ∈ entries
  pointers : (rows.map Prod.fst).Pairwise PointersLe

namespace IsIndex
variable {indexInterval : ℕ} {entries : List Entry} {rows : List (Entry × ℕ)} {e : Entry}

theorem nil : IsIndex indexInterval [] [] where
  length := (indexSize_zero indexInterval).symm
  head := rfl
  mem := nofun
  pointers := Pairwise.nil

theorem skip (h : IsIndex indexInterval entries rows) (hpos : 0 < indexInterval)
    (hmod : entries.length % indexInterval ≠ 0) :
    IsIndex indexInterval (entries ++ [e]) rows where
  length := by rw [h.length, length_append, length_singleton,
    indexSize_succ_of_ne hpos hmod]
  head := by
    rcases entries with _ | ⟨x, entries⟩
    · simp at hmod
    · exact h.head
  mem row hrow := mem_append_left _ (h.mem row hrow)
  pointers := h.pointers

theorem add (h : IsIndex indexInterval entries rows) (hpos : 0 < indexInterval)
    (hmod : entries.length % indexInterval = 0) (pointer : ℕ)
    (hsorted : (entries ++ [e]).Pairwise PointersLe) :
    IsIndex indexInterval (entries ++ [e]) (rows ++ [(entries.getLastD e, pointer)]) where
  length := by
    rw [length_append, length_singleton, length_append, length_singleton,
      indexSize_succ hpos hmod, h.length]
  head := by
    have hhead := h.head
    rcases entries with _ | ⟨x, entries⟩
    · rcases rows with _ | ⟨row, rows⟩
      · rfl
      · simp at hhead
    · rcases rows with _ | ⟨row, rows⟩
      · simp at hhead
      · simpa using hhead
  mem row hrow := by
    rcases mem_append.1 hrow with hrow | hrow
    · exact mem_append_left _ (h.mem row hrow)
    · rw [mem_singleton.1 hrow]
      have hlast := getLastD_mem_cons (l := entries) (a := e)
      simpa [or_comm] using hlast
  pointers := by
    rw [map_append, map_singleton, pairwise_append]
    refine ⟨h.pointers, pairwise_singleton _ _, fun x hx y hy => ?_⟩
    rw [mem_singleton.1 hy]
    obtain ⟨row, hrow, rfl⟩ := mem_map.1 hx
    have hmem := h.mem row hrow
    rcases entries.eq_nil_or_concat with rfl | ⟨front, last, rfl⟩
    · cases hmem
    · rw [concat_eq_append] at hmem hsorted ⊢
      rw [getLastD_concat]
      rcases mem_append.1 hmem with hmem | hmem
      · rw [pairwise_append, pairwise_append] at hsorted
        exact hsorted.1.2.2 _ hmem _ (mem_singleton_self _)
      · rw [mem_singleton.1 hmem]
        exact PointersLe.refl _

end IsIndex

namespace TermInfosWriter

structure Wrote (fieldInfos : FieldInfos) (indexInterval : ℕ) (entries : List Entry)
    (w : TermInfosWriter) : Prop where
  fieldInfos_eq : w.fieldInfos = fieldInfos
  indexInterval_eq : w.indexInterval = indexInterval
  tis : w.tis.Holds fieldInfos indexInterval false (entries.map (·, 0))
  other : ∃ rows, w.other.Holds fieldInfos indexInterval true rows
    ∧ IsIndex indexInterval entries rows

variable {fieldInfos : FieldInfos} {indexInterval : ℕ} {entries : List Entry} {e : Entry}
  {w : TermInfosWriter}

theorem Wrote.new : Wrote fieldInfos indexInterval [] (new fieldInfos indexInterval) where
  fieldInfos_eq := rfl
  indexInterval_eq := rfl
  tis := TermsOutput.Holds.new
  other := ⟨[], TermsOutput.Holds.new, IsIndex.nil⟩

theorem Wrote.last (h : Wrote fieldInfos indexInterval entries w) :
    (w.tis.lastTerm, w.tis.lastTi) = entries.getLastD Entry.empty := by
  rw [h.tis.last, map_map]
  exact congrArg (getLastD · _) (map_id entries)

theorem Wrote.addOther (h : Wrote fieldInfos indexInterval entries w) (hpos : 0 < indexInterval)
    (hsorted : (entries ++ [e]).Pairwise PointersLe) :
    ∃ rows, (w.addOther e.1 e.2).other.Holds fieldInfos indexInterval true rows
      ∧ IsIndex indexInterval (entries ++ [e]) rows := by
  obtain ⟨rows, hother, hindex⟩ := h.other
  have hsize : w.tis.size = entries.length := by rw [h.tis.size, length_map]
  unfold TermInfosWriter.addOther
  rw [hsize, h.indexInterval_eq, h.fieldInfos_eq]
  by_cases hmod : entries.length % indexInterval = 0
  · have hadd := hindex.add hpos hmod (w.tis.output.length - w.other.lastIndexPointer) hsorted
    have hadded : (if entries.length = 0
          then w.other.addIndexTerm fieldInfos w.tis.output.length e.1 e.2
          else w.other.addIndexTerm fieldInfos w.tis.output.length w.tis.lastTerm w.tis.lastTi)
        = w.other.addIndexTerm fieldInfos w.tis.output.length (entries.getLastD e).1
          (entries.getLastD e).2 := by
      rcases entries with _ | ⟨x, entries⟩
      · rfl
      · have hlast := h.last
        rw [getLastD_cons] at hlast
        rw [if_neg (by simp), getLastD_cons, ← hlast]
    have hti : ¬w.other.PointerOutOfOrder (entries.getLastD e).2 := by
      have hlast : PointersLe (w.other.lastTerm, w.other.lastTi) (entries.getLastD e) := by
        rw [hother.last]
        have hpointers := hadd.pointers
        rw [map_append, pairwise_append] at hpointers
        rcases mem_cons.1 (getLastD_mem_cons (l := rows.map Prod.fst)
          (a := Entry.empty)) with hempty | hrow
        · rw [hempty]
          exact PointersLe.empty _
        · exact hpointers.2.2 _ hrow _ (mem_singleton_self _)
      rintro (hlt | hlt)
      · exact absurd hlast.1 (not_le.2 hlt)
      · exact absurd hlast.2 (not_le.2 hlt)
    rw [if_pos hmod]
    show ∃ rows, (if entries.length = 0 then _ else _ : TermsOutput).Holds _ _ _ rows ∧ _
    rw [hadded]
    exact ⟨_, hother.addIndexTerm hti, hadd⟩
  · rw [if_neg hmod]
    exact ⟨rows, hother, hindex.skip hpos hmod⟩

variable [Collation]

theorem Wrote.addTerm (h : Wrote fieldInfos indexInterval entries w) (hpos : 0 < indexInterval)
    (hlt : (entries.getLastD Entry.empty).1 < e.1)
    (hsorted : (entries ++ [e]).Pairwise PointersLe) :
    Wrote fieldInfos indexInterval (entries ++ [e]) (w.addTerm e.1 e.2) := by
  have hlast := h.last
  have hterm : e.1.compare w.tis.lastTerm = .gt := by
    rw [Term.compare_gt_iff]
    rwa [← hlast] at hlt
  have hti : ¬w.tis.PointerOutOfOrder e.2 := by
    have hle : PointersLe (w.tis.lastTerm, w.tis.lastTi) e := by
      rw [hlast]
      rw [pairwise_append] at hsorted
      rcases mem_cons.1 (getLastD_mem_cons (l := entries) (a := Entry.empty)) with
        hempty | hmem
      · rw [hempty]
        exact PointersLe.empty _
      · exact hsorted.2.2 _ hmem _ (mem_singleton_self _)
    rintro (hlt | hlt)
    · exact absurd hle.1 (not_le.2 hlt)
    · exact absurd hle.2 (not_le.2 hlt)
  have hfis : (w.addOther e.1 e.2).fieldInfos = fieldInfos := by
    rw [← h.fieldInfos_eq]
    unfold TermInfosWriter.addOther
    split_ifs <;> rfl
  have hinterval : (w.addOther e.1 e.2).indexInterval = indexInterval := by
    rw [← h.indexInterval_eq]
    unfold TermInfosWriter.addOther
    split_ifs <;> rfl
  unfold TermInfosWriter.addTerm
  rw [if_neg (not_not.2 hterm), if_neg hti]
  refine ⟨hfis, hinterval, ?_, h.addOther hpos hsorted⟩
  rw [h.fieldInfos_eq, map_append]
  exact h.tis.add

theorem Wrote.addTerms (hpos : 0 < indexInterval) : ∀ {rest entries : List Entry}
    {w : TermInfosWriter}, Wrote fieldInfos indexInterval entries w →
      (∀ e ∈ rest, (entries.getLastD Entry.empty).1 < e.1) →
      rest.Pairwise (fun e e' => e.1 < e'.1) →
      (entries ++ rest).Pairwise PointersLe →
      Wrote fieldInfos indexInterval (entries ++ rest) (w.addTerms rest)
  | [], entries, w, h, _, _, _ => by rwa [append_nil]
  | e :: rest, entries, w, h, hfirst, hlt, hsorted => by
    rw [append_cons] at hsorted ⊢
    have he := h.addTerm hpos (hfirst e mem_cons_self) (pairwise_append.1 hsorted).1
    rw [pairwise_cons] at hlt
    refine Wrote.addTerms hpos he (fun e' he' => ?_) hlt.2 hsorted
    rw [getLastD_concat]
    exact hlt.1 e' he'

/-- What a writer is given: terms in order, in fields of the segment, and numbers that fit. -/
structure Writable (fieldInfos : FieldInfos) (entries : List Entry) : Prop where
  increasing : entries.Pairwise fun e e' => e.1 < e'.1
  pointers : entries.Pairwise PointersLe
  fits : ∀ e ∈ entries, e.Fits fieldInfos
  length_lt : entries.length < 2 ^ 31

theorem Writable.wrote (h : Writable fieldInfos entries) (hpos : 0 < indexInterval)
    (hempty : ∀ e ∈ entries, e.1 ≠ Term.empty) :
    Wrote fieldInfos indexInterval entries ((new fieldInfos indexInterval).addTerms entries) := by
  have hnew : Wrote fieldInfos indexInterval [] (new fieldInfos indexInterval) := Wrote.new
  exact hnew.addTerms hpos (fun e he => Term.empty_lt_iff.2 (hempty e he)) h.increasing
    (by simpa using h.pointers)

theorem addTerms_empty (ti : TermInfo) :
    (new fieldInfos indexInterval).addTerms ((Term.empty, ti) :: entries)
      = (new fieldInfos indexInterval).addTerms entries := by
  have hterm : Term.empty.compare Term.empty ≠ .gt := by
    rw [Ne, Term.compare_gt_iff]
    exact lt_irrefl _
  have hadd : (new fieldInfos indexInterval).addTerm Term.empty ti
      = new fieldInfos indexInterval := if_pos hterm
  rw [addTerms, foldl_cons, hadd, addTerms]

end TermInfosWriter

end Etoile.Lucene
