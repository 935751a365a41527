import Etoile.Lib.Fuel
import Mathlib.Data.List.DropRight
import Mathlib.Tactic

/-!
# The segments of an index writer

A segment is the list of its documents, some of which are deleted; merging copies the others. New
documents are segments in memory, which the `segments` file is not to list.
-/

namespace Etoile.Lucene

open List

variable {D : Type}

structure StoredDocument (D : Type) where
  addition : ℕ
  document : D
  isDeleted : Bool

structure SegmentInfo (D : Type) where
  documents : List (StoredDocument D)
  /-- its directory is that of the writer, not that of the index -/
  inRAM : Bool
  usesCompoundFile : Bool

namespace SegmentInfo

def numberOfDocuments (si : SegmentInfo D) : ℕ := si.documents.length

def hasDeletions (si : SegmentInfo D) : Bool := si.documents.any (·.isDeleted)

end SegmentInfo

def undeleted (l : List (StoredDocument D)) : List (StoredDocument D) := l.filter (!·.isDeleted)

def stored (infos : List (SegmentInfo D)) : List (StoredDocument D) := infos.flatMap (·.documents)

def live (infos : List (SegmentInfo D)) : List (StoredDocument D) := undeleted (stored infos)

def totalDocuments (infos : List (SegmentInfo D)) : ℕ := (infos.map (·.numberOfDocuments)).sum

structure MergePolicy where
  mergeFactor : ℕ
  minMergeDocs : ℕ
  maxMergeDocs : ℕ
  useCompoundFile : Bool
  two_le_mergeFactor : 2 ≤ mergeFactor
  two_le_minMergeDocs : 2 ≤ minMergeDocs

/-- The target sizes of `-maybeMergeSegments`. -/
def MergePolicy.targetMergeDocs (p : MergePolicy) (i : ℕ) : ℕ := p.minMergeDocs * p.mergeFactor ^ i

theorem MergePolicy.two_le_targetMergeDocs (p : MergePolicy) (i : ℕ) : 2 ≤ p.targetMergeDocs i := by
  have hpos : 0 < p.mergeFactor ^ i := pow_pos (by linarith [p.two_le_mergeFactor]) i
  exact p.two_le_minMergeDocs.trans (Nat.le_mul_of_pos_right _ hpos)

theorem MergePolicy.targetMergeDocs_lt (p : MergePolicy) (i : ℕ) :
    p.targetMergeDocs i < p.targetMergeDocs (i + 1) := by
  have h := p.two_le_targetMergeDocs i
  have hfactor := p.two_le_mergeFactor
  have hsucc : p.targetMergeDocs (i + 1) = p.targetMergeDocs i * p.mergeFactor := by
    unfold targetMergeDocs
    ring
  rw [hsucc]
  nlinarith

/-- The infos of a writer, and what the `segments` file lists. -/
structure IndexWriter (D : Type) where
  segmentInfos : List (SegmentInfo D)
  directory : List (SegmentInfo D)

namespace IndexWriter

variable (p : MergePolicy) (w : IndexWriter D)

/-- `-mergeSegments:`, to the last segment. -/
def mergeSegments (minSegment : ℕ) : IndexWriter D :=
  let merged := ⟨live (w.segmentInfos.drop minSegment), false, p.useCompoundFile⟩
  let infos := w.segmentInfos.take minSegment ++ [merged]
  ⟨infos, infos⟩

/-- `-flushRamSegments`, with the last segment before them if the merged one is not too large. -/
def flushRamSegments : IndexWriter D :=
  let ram := w.segmentInfos.rtakeWhile (·.inRAM)
  let others := w.segmentInfos.rdropWhile (·.inRAM)
  if ram.isEmpty then w
  else match others.getLast? with
    | none => w.mergeSegments p 0
    | some si =>
      if totalDocuments ram + si.numberOfDocuments > p.mergeFactor then
        w.mergeSegments p others.length
      else w.mergeSegments p (others.length - 1)

/-- The loop of `-maybeMergeSegments`: the last segments smaller than the target are merged. -/
def maybeMergeSegments (i : ℕ) (w : IndexWriter D) : IndexWriter D :=
  let isSmall := fun si : SegmentInfo D => decide (si.numberOfDocuments < p.targetMergeDocs i)
  if p.targetMergeDocs i ≤ p.maxMergeDocs
      ∧ p.targetMergeDocs i ≤ totalDocuments (w.segmentInfos.rtakeWhile isSmall) then
    maybeMergeSegments (i + 1) (w.mergeSegments p (w.segmentInfos.rdropWhile isSmall).length)
  else w
  termination_by p.maxMergeDocs + 1 - p.targetMergeDocs i
  decreasing_by
    have := p.targetMergeDocs_lt i
    omega

def addDocument (doc : StoredDocument D) : IndexWriter D :=
  maybeMergeSegments p 0 { w with segmentInfos := w.segmentInfos ++ [⟨[doc], true, false⟩] }

/-- The test of `-optimize`; no norms are set, so no segment has separate ones. -/
def needsMerge : Bool :=
  match w.segmentInfos with
  | [] => false
  | [si] => si.hasDeletions || si.inRAM || (p.useCompoundFile && !si.usesCompoundFile)
  | _ => true

/-- `-optimize`, which is left after as many turns as there are segments and one. -/
def optimize : Option (IndexWriter D) :=
  let flushed := w.flushRamSegments p
  whileLoop (needsMerge p)
    (fun w => some (w.mergeSegments p (w.segmentInfos.length - p.mergeFactor)))
    (flushed.segmentInfos.length + 2) flushed

/-- `-close`, which leaves this directory. -/
def close : List (SegmentInfo D) := (w.flushRamSegments p).directory

def numberOfDocuments : ℕ := totalDocuments w.segmentInfos

end IndexWriter

section Lists

variable {l m : List (SegmentInfo D)}

@[simp] theorem stored_append : stored (l ++ m) = stored l ++ stored m := flatMap_append

@[simp] theorem undeleted_append (l m : List (StoredDocument D)) :
    undeleted (l ++ m) = undeleted l ++ undeleted m := filter_append ..

@[simp] theorem undeleted_undeleted (l : List (StoredDocument D)) :
    undeleted (undeleted l) = undeleted l := by simp [undeleted]

theorem totalDocuments_eq (l : List (SegmentInfo D)) : totalDocuments l = (stored l).length := by
  simp [totalDocuments, stored, length_flatMap, SegmentInfo.numberOfDocuments]

end Lists

structure Holds (docs : List (StoredDocument D)) (added : ℕ) (infos : List (SegmentInfo D)) :
    Prop where
  live_eq : live infos = docs
  nodup : ((stored infos).map (·.addition)).Nodup
  lt : ∀ d ∈ stored infos, d.addition < added

namespace IndexWriter

/-- All is in the directory but for the last documents, which are in memory one by one. -/
structure Inv (docs : List (StoredDocument D)) (added : ℕ) (w : IndexWriter D) : Prop where
  holds : Holds docs added w.segmentInfos
  ram : ∃ ram, w.segmentInfos = w.directory ++ ram
    ∧ ∀ si ∈ ram, si.inRAM = true ∧ si.documents.length = 1
  onDisk : ∀ si ∈ w.directory, si.inRAM = false

variable {p : MergePolicy} {w : IndexWriter D} {docs : List (StoredDocument D)} {added : ℕ}

/-- Merging the segments from one on that include all that are in memory commits them. -/
theorem Inv.mergeSegments (h : Inv docs added w) {k : ℕ} (hk : k ≤ w.directory.length) :
    Inv docs added (w.mergeSegments p k) := by
  have hsplit : stored w.segmentInfos
      = stored (w.segmentInfos.take k) ++ stored (w.segmentInfos.drop k) := by
    rw [← stored_append, take_append_drop]
  have hstored : stored (w.mergeSegments p k).segmentInfos
      = stored (w.segmentInfos.take k) ++ live (w.segmentInfos.drop k) := by
    simp [IndexWriter.mergeSegments, stored]
  have hsub : (stored (w.mergeSegments p k).segmentInfos).Sublist (stored w.segmentInfos) := by
    rw [hstored, hsplit]
    exact filter_sublist.append_left _
  refine ⟨⟨?_, h.holds.nodup.sublist (hsub.map _), fun d hd => h.holds.lt d (hsub.subset hd)⟩,
    ⟨[], by simp [IndexWriter.mergeSegments], nofun⟩, ?_⟩
  · rw [← h.holds.live_eq, live, live, hstored, hsplit, undeleted_append, undeleted_append, live,
      undeleted_undeleted]
  · obtain ⟨ram, hram, -⟩ := h.ram
    intro si hsi
    rcases mem_append.1 hsi with hsi | hsi
    · rw [hram, take_append_of_le_length hk] at hsi
      exact h.onDisk si (mem_of_mem_take hsi)
    · rw [mem_singleton.1 hsi]

theorem Inv.length_rdropWhile (h : Inv docs added w) {P : SegmentInfo D → Bool}
    (hP : ∀ si : SegmentInfo D, si.inRAM = true → si.documents.length = 1 → P si = true) :
    (w.segmentInfos.rdropWhile P).length ≤ w.directory.length := by
  obtain ⟨ram, hram, hall⟩ := h.ram
  have hdrop : (w.directory ++ ram).rdropWhile P = w.directory.rdropWhile P := by
    rw [rdropWhile, rdropWhile, reverse_append, dropWhile_append_of_pos]
    intro si hsi
    obtain ⟨h1, h2⟩ := hall si (mem_reverse.1 hsi)
    exact hP si h1 h2
  rw [hram, hdrop]
  exact (List.rdropWhile_prefix P w.directory).length_le

theorem Inv.flushRamSegments (h : Inv docs added w) :
    Inv docs added (w.flushRamSegments p)
      ∧ (w.flushRamSegments p).segmentInfos = (w.flushRamSegments p).directory := by
  have hothers : (w.segmentInfos.rdropWhile fun si => si.inRAM).length ≤ w.directory.length :=
    h.length_rdropWhile fun _ hsi _ => hsi
  unfold IndexWriter.flushRamSegments
  simp only
  split_ifs with hempty
  · obtain ⟨ram, hram, hall⟩ := h.ram
    rcases eq_nil_or_concat ram with rfl | ⟨others, si, rfl⟩
    · exact ⟨h, by rw [hram, append_nil]⟩
    · have hsi := (hall si (by simp)).1
      rw [hram, concat_eq_append, ← append_assoc, rtakeWhile_concat_pos _ _ _ hsi]
        at hempty
      simp at hempty
  · split
    · exact ⟨h.mergeSegments (Nat.zero_le _), rfl⟩
    · split_ifs
      · exact ⟨h.mergeSegments hothers, rfl⟩
      · exact ⟨h.mergeSegments (by omega), rfl⟩

theorem Inv.maybeMergeSegments (h : Inv docs added w) (i : ℕ) :
    Inv docs added (w.maybeMergeSegments p i) := by
  induction i, w using IndexWriter.maybeMergeSegments.induct p with
  | case1 i w isSmall hmerge ih =>
    rw [IndexWriter.maybeMergeSegments, if_pos hmerge]
    refine ih (h.mergeSegments (h.length_rdropWhile fun si _ hone => ?_))
    have htarget := p.two_le_targetMergeDocs i
    exact decide_eq_true (by rw [SegmentInfo.numberOfDocuments, hone]; omega)
  | case2 i w isSmall hmerge =>
    rw [IndexWriter.maybeMergeSegments, if_neg hmerge]
    exact h

theorem Inv.addDocument (h : Inv docs added w) (d : D) :
    Inv (docs ++ [⟨added, d, false⟩]) (added + 1) (w.addDocument p ⟨added, d, false⟩) := by
  refine Inv.maybeMergeSegments ?_ 0
  obtain ⟨ram, hram, hall⟩ := h.ram
  have hstored : stored (w.segmentInfos ++ [⟨[⟨added, d, false⟩], true, false⟩])
      = stored w.segmentInfos ++ [⟨added, d, false⟩] := by simp [stored]
  refine ⟨⟨?_, ?_, fun e he => ?_⟩, ⟨ram ++ [⟨[⟨added, d, false⟩], true, false⟩], ?_, ?_⟩, h.onDisk⟩
  · rw [← h.holds.live_eq, live, hstored, undeleted_append]
    rfl
  · rw [hstored, map_append, nodup_append]
    refine ⟨h.holds.nodup, by simp, fun a ha b hb => ?_⟩
    obtain ⟨e, he, rfl⟩ := mem_map.1 ha
    have hlt := h.holds.lt e he
    simp only [map_cons, map_nil, mem_singleton] at hb
    omega
  · rw [hstored] at he
    rcases mem_append.1 he with he | he
    · exact Nat.lt_succ_of_lt (h.holds.lt e he)
    · rw [mem_singleton.1 he]
      exact Nat.lt_succ_self added
  · rw [hram, append_assoc]
  · intro si hsi
    rcases mem_append.1 hsi with hsi | hsi
    · exact hall si hsi
    · rw [mem_singleton.1 hsi]
      exact ⟨rfl, rfl⟩

theorem clean_of_needsMerge (h : needsMerge p w = false) : w.segmentInfos.length ≤ 1
    ∧ ∀ si ∈ w.segmentInfos, si.hasDeletions = false
      ∧ (p.useCompoundFile = true → si.usesCompoundFile = true) := by
  rcases hw : w.segmentInfos with _ | ⟨si, _ | _⟩ <;> simp_all [needsMerge]

theorem Inv.optimize (h : Inv docs added w) : ∃ w', w.optimize p = some w' ∧ Inv docs added w'
    ∧ w'.segmentInfos = w'.directory ∧ needsMerge p w' = false := by
  have hstart : Inv docs added (w.flushRamSegments p)
    ∧ (w.flushRamSegments p).segmentInfos = (w.flushRamSegments p).directory := h.flushRamSegments
  have hbody : ∀ w : IndexWriter D, (Inv docs added w ∧ w.segmentInfos = w.directory) →
      needsMerge p w = true → ∃ w', some (w.mergeSegments p (w.segmentInfos.length - p.mergeFactor))
        = some w' ∧ (Inv docs added w' ∧ w'.segmentInfos = w'.directory)
        ∧ w'.segmentInfos.length + (needsMerge p w').toNat
          < w.segmentInfos.length + (needsMerge p w).toNat := by
    rintro w ⟨hinv, heq⟩ hneeds
    refine ⟨_, rfl, ⟨hinv.mergeSegments (by rw [heq]; omega), rfl⟩, ?_⟩
    have hfactor := p.two_le_mergeFactor
    rw [hneeds]
    rcases hw : w.segmentInfos with _ | ⟨si, _ | ⟨si', rest⟩⟩
    · rw [needsMerge, hw] at hneeds
      cases hneeds
    · have hzero : 1 - p.mergeFactor = 0 := by omega
      simp [IndexWriter.mergeSegments, hw, hzero, needsMerge, SegmentInfo.hasDeletions, live,
        undeleted]
    · have hle := Bool.toNat_le (needsMerge p (w.mergeSegments p (w.segmentInfos.length
        - p.mergeFactor)))
      rw [hw] at hle
      simp only [IndexWriter.mergeSegments, hw, length_append, length_take,
        length_cons, length_nil] at hle ⊢
      simp only [Bool.toNat_true]
      omega
  have hturns : (w.flushRamSegments p).segmentInfos.length
      + (needsMerge p (w.flushRamSegments p)).toNat
        < (w.flushRamSegments p).segmentInfos.length + 2 := by
    have := Bool.toNat_le (needsMerge p (w.flushRamSegments p))
    omega
  obtain ⟨w', hw'⟩ := whileLoop_succeeds
    (fun w : IndexWriter D => w.segmentInfos.length + (needsMerge p w).toNat) hbody
    hstart hturns
  obtain ⟨⟨hinv, heq⟩, htest⟩ := whileLoop_preserves
    (I := fun w => Inv docs added w ∧ w.segmentInfos = w.directory) (fun s s' hs htest hs' => by
      obtain ⟨t, ht, hkeep, -⟩ := hbody s hs htest
      rw [ht] at hs'
      exact Option.some.inj hs' ▸ hkeep) hstart hw'
  exact ⟨w', hw', hinv, heq, htest⟩

end IndexWriter

end Etoile.Lucene
