import Etoile.Lucene.Norms

/-!
# Committing norms

A commit rewrites the dirty norms in files of their own, from which another reader opens what the
reader showed.  No other file of the segment changes but the deletions, and none of other segments.
-/

namespace Etoile.Lucene

open List SegmentReader

variable {Term : Type} {segment : Segment Term} {t : NormTable} {r : SegmentReader segment}
  {d d' : Directory}

def SegmentReader.normExtension (r : SegmentReader segment) (number : ℕ) : Extension :=
  if r.cfsReader.isSome then .s number else .f number

theorem rewrite_eq (r : SegmentReader segment) (d : Directory) (n : Norm) :
    r.rewrite d n
      = (d.writeFile (.ofSegment segment.name .tmp)
          (n.bytes.take segment.maximalDocument)).renameFile (.ofSegment segment.name .tmp)
        (.ofSegment segment.name (r.normExtension n.number)) := by
  unfold SegmentReader.rewrite normExtension
  split_ifs <;> rfl

theorem SegmentReader.normExtension_injective (r : SegmentReader segment) :
    Function.Injective r.normExtension := by
  intro i j h
  unfold normExtension at h
  split_ifs at h <;> exact Extension.noConfusion h id

theorem SegmentReader.normExtension_ne_tmp (r : SegmentReader segment) (number : ℕ) :
    r.normExtension number ≠ .tmp := by
  unfold normExtension
  split_ifs <;> nofun

def SegmentReader.rewriteAll (r : SegmentReader segment) (norms : List Norm) (d : Directory) :
    Directory :=
  norms.foldl (fun d norm => if norm.dirty then r.rewrite d norm else d) d

theorem SegmentReader.rewriteAll_of_ne (r : SegmentReader segment) {name : FileName}
    (htmp : name ≠ .ofSegment segment.name .tmp) : ∀ (norms : List Norm) (d : Directory),
    (∀ n ∈ norms, n.dirty = true →
      name ≠ .ofSegment segment.name (r.normExtension n.number)) →
    r.rewriteAll norms d name = d name
  | [], d, _ => rfl
  | n :: norms, d, h => by
    have hrest := r.rewriteAll_of_ne htmp norms
      (if n.dirty then r.rewrite d n else d) fun n' hn' => h n' (mem_cons_of_mem _ hn')
    refine hrest.trans ?_
    split_ifs with hdirty
    · rw [rewrite_eq]
      exact Directory.replaceFile_of_ne (h n mem_cons_self hdirty) htmp
    · rfl

theorem SegmentReader.rewriteAll_self (r : SegmentReader segment) : ∀ {norms : List Norm} {n : Norm}
    (d : Directory), (norms.map (·.number)).Nodup → n ∈ norms → n.dirty = true →
    r.rewriteAll norms d (.ofSegment segment.name (r.normExtension n.number))
      = some (n.bytes.take segment.maximalDocument)
  | [], n, d, _, hn, _ => by simp at hn
  | n' :: norms, n, d, hnodup, hn, hdirty => by
    rw [map_cons, nodup_cons] at hnodup
    have htmp : FileName.ofSegment segment.name (r.normExtension n.number)
        ≠ .ofSegment segment.name .tmp := fun h =>
      r.normExtension_ne_tmp n.number (FileName.ofSegment.inj h).2
    rcases mem_cons.1 hn with rfl | hn
    · have hrest := r.rewriteAll_of_ne htmp norms (r.rewrite d n) fun m hm _ heq =>
        hnodup.1 (mem_map.2 ⟨m, hm,
          (r.normExtension_injective (FileName.ofSegment.inj heq).2).symm⟩)
      show r.rewriteAll norms (if n.dirty then r.rewrite d n else d) _ = _
      rw [hdirty, if_pos rfl, hrest, rewrite_eq]
      exact Directory.replaceFile_self htmp
    · exact r.rewriteAll_self (if n'.dirty then r.rewrite d n' else d) hnodup.2 hn hdirty

theorem StoresNorms.congr (h : StoresNorms segment d)
    (hd : ∀ e, e ≠ .tmp → e ≠ .del →
      d' (.ofSegment segment.name e) = d (.ofSegment segment.name e)) :
    StoresNorms segment d'
      ∧ ∀ number, storedNorm segment d' number = storedNorm segment d number := by
  have hstored : ∀ number, storedNorm segment d' number = storedNorm segment d number := by
    intro number
    unfold storedNorm openNorm openCompound Directory.fileExists
    rw [hd .cfs (by simp) (by simp), hd (.s number) (by simp) (by simp)]
    split_ifs
    · rfl
    · rfl
    · simp only [Option.getD_none]
      rw [hd (.f number) (by simp) (by simp)]
  refine ⟨⟨h.names, fun f hf => ?_, fun hcfs number => ?_⟩, hstored⟩
  · rw [hstored]
    exact h.length f hf
  · rw [hd .cfs (by simp) (by simp)] at hcfs
    rw [hd (.s number) (by simp) (by simp)]
    exact h.separate hcfs number

theorem StoresNorms.storedNorms_congr (h : StoresNorms segment d)
    (hd : ∀ e, e ≠ .tmp → e ≠ .del →
      d' (.ofSegment segment.name e) = d (.ofSegment segment.name e)) :
    storedNorms segment d' = storedNorms segment d := by
  funext field
  exact Option.map_congr fun f _ => (h.congr hd).2 f.2

theorem HoldsNorms.congr_directory (h : HoldsNorms t r d)
    (hd : ∀ e, e ≠ .tmp → e ≠ .del →
      d' (.ofSegment segment.name e) = d (.ofSegment segment.name e)) : HoldsNorms t r d' where
  stored := (h.stored.congr hd).1
  fields := h.fields
  norm := h.norm
  length := h.length
  clean n hn hclean := by
    rw [(h.stored.congr hd).2]
    exact h.clean n hn hclean
  dirty := h.dirty
  changes := h.changes
  compound := by
    rw [h.compound, Directory.fileExists, Directory.fileExists, hd .cfs (by simp) (by simp)]

theorem commitDeletions_of_ne {name : FileName} (htmp : name ≠ .ofSegment segment.name .tmp)
    (hdel : name ≠ .ofSegment segment.name .del) :
    r.commitUndeletions (r.commitDeletions d) name = d name := by
  have hundo : ∀ d' : Directory, r.commitUndeletions d' name = d' name := by
    intro d'
    unfold commitUndeletions
    split_ifs
    · exact Directory.deleteFile_of_ne hdel
    · rfl
  rw [hundo]
  unfold commitDeletions
  rcases r.deletedDocs with _ | v
  · rfl
  · simp only
    split_ifs
    · exact Directory.replaceFile_of_ne hdel htmp
    · rfl

theorem HoldsNorms.number_nodup (h : HoldsNorms t r d) : (r.norms.map (·.number)).Nodup := by
  have hnumbers := normFields_numbers segment.fieldInfos
  rwa [← h.fields, map_map] at hnumbers

theorem HoldsNorms.normsDirty (h : HoldsNorms t r d) (hclean : r.normsDirty = false) :
    ∀ n ∈ r.norms, n.dirty = false := by
  intro n hn
  by_contra hd
  have := (h.dirty n hn (by simpa using hd)).2
  rw [hclean] at this
  cases this

/-- The files after a commit, those of the deletions and of dirty norms apart. -/
theorem doCommit_of_ne (r : SegmentReader segment) {name : FileName}
    (htmp : name ≠ .ofSegment segment.name .tmp) (hdel : name ≠ .ofSegment segment.name .del)
    (hne : ∀ n ∈ r.norms, n.dirty = true →
      name ≠ .ofSegment segment.name (r.normExtension n.number)) :
    (r.doCommit d).1 name = d name := by
  refine Eq.trans ?_ (commitDeletions_of_ne (r := r) htmp hdel)
  simp only [doCommit]
  split_ifs
  · exact r.rewriteAll_of_ne htmp _ _ hne
  · rfl

theorem doCommit_cfs (r : SegmentReader segment) (d : Directory) :
    (r.doCommit d).1 (.ofSegment segment.name .cfs) = d (.ofSegment segment.name .cfs) := by
  refine doCommit_of_ne r (by simp) (by simp) fun n _ _ heq => ?_
  have hext := (FileName.ofSegment.inj heq).2
  unfold normExtension at hext
  split_ifs at hext

theorem HoldsNorms.doCommit_self (h : HoldsNorms t r d) {n : Norm} (hn : n ∈ r.norms)
    (hdirty : n.dirty = true) :
    (r.doCommit d).1 (.ofSegment segment.name (r.normExtension n.number)) = some n.value := by
  obtain ⟨hlen, hnorms⟩ := h.dirty n hn hdirty
  have hbytes : n.bytes.take segment.maximalDocument = n.value := by
    rw [take_of_length_le hlen.le, Norm.value]
    split_ifs with hpos
    · rfl
    · have hvalue := h.length n hn
      rw [Norm.value, if_neg hpos] at hvalue
      rw [eq_nil_of_length_eq_zero (by omega : n.bytes.length = 0),
        eq_nil_of_length_eq_zero (by omega : n.input.length = 0)]
  simp only [doCommit]
  rw [hnorms, if_pos rfl, ← hbytes]
  exact r.rewriteAll_self _ h.number_nodup hn hdirty

theorem HoldsNorms.storedNorm_doCommit (h : HoldsNorms t r d) {n : Norm} (hn : n ∈ r.norms) :
    storedNorm segment (r.doCommit d).1 n.number = n.value := by
  have hcfs := doCommit_cfs r d
  have hother : n.dirty = false → (r.doCommit d).1 (.ofSegment segment.name
      (r.normExtension n.number)) = d (.ofSegment segment.name (r.normExtension n.number)) := by
    intro hclean
    refine doCommit_of_ne r (by simpa using r.normExtension_ne_tmp _) ?_ fun m hm hdirty heq => ?_
    · unfold normExtension
      split_ifs <;> simp
    · have hsame := inj_on_of_nodup_map h.number_nodup hm hn
        (r.normExtension_injective (FileName.ofSegment.inj heq).2.symm)
      rw [hsame, hclean] at hdirty
      cases hdirty
  have hcompound := h.compound
  rw [Directory.fileExists] at hcompound
  rcases hfile : d (.ofSegment segment.name .cfs) with _ | bytes
  · rw [hfile] at hcompound hcfs
    have hext : ∀ number, r.normExtension number = .f number := by
      intro number
      rw [normExtension, hcompound]
      rfl
    have hs : (r.doCommit d).1 (.ofSegment segment.name (.s n.number)) = none := by
      rw [doCommit_of_ne r (by simp) (by simp) fun m _ _ => by rw [hext]; simp]
      exact h.stored.separate hfile _
    rcases hdirty : n.dirty with _ | _
    · have hstored := h.clean n hn hdirty
      rw [← hstored]
      have hf := hother hdirty
      rw [hext] at hf
      simp [storedNorm, openNorm, openCompound, Directory.fileExists,
        hs, hcfs, hf, hfile, h.stored.separate hfile]
    · have hf := h.doCommit_self hn hdirty
      rw [hext] at hf
      simp [storedNorm, openNorm, openCompound, Directory.fileExists,
        hs, hcfs, hf]
  · rw [hfile] at hcompound hcfs
    have hext : ∀ number, r.normExtension number = .s number := by
      intro number
      rw [normExtension, hcompound]
      rfl
    rcases hdirty : n.dirty with _ | _
    · have hstored := h.clean n hn hdirty
      rw [← hstored]
      have hs := hother hdirty
      rw [hext] at hs
      simp [storedNorm, openNorm, openCompound, Directory.fileExists,
        hs, hcfs, hfile]
    · have hs := h.doCommit_self hn hdirty
      rw [hext] at hs
      simp [storedNorm, openNorm, Directory.fileExists, hs]

theorem HoldsNorms.number_mem (h : HoldsNorms t r d) {f : NSString × ℕ}
    (hf : f ∈ normFields segment.fieldInfos) : ∃ n ∈ r.norms, (n.field, n.number) = f := by
  rw [← h.fields] at hf
  exact mem_map.1 hf

theorem HoldsNorms.doCommit (h : HoldsNorms t r d) :
    HoldsNorms t (r.doCommit d).2 (r.doCommit d).1 ∧ (r.doCommit d).2.normsDirty = false := by
  have hcfs := doCommit_cfs r d
  have hnorms : (r.doCommit d).2.norms = r.norms.map fun n => { n with dirty := false } := by
    simp only [SegmentReader.doCommit]
    split_ifs with hdirty
    · rfl
    · conv_lhs => rw [← map_id r.norms]
      refine map_congr_left fun n hn => ?_
      have hclean := h.normsDirty (by simpa using hdirty) n hn
      rw [← hclean]
      rfl
  refine ⟨⟨⟨h.stored.names, fun f hf => ?_, fun hnone number => ?_⟩, ?_, fun field => ?_, ?_, ?_,
    ?_, nofun, ?_⟩, rfl⟩
  · obtain ⟨n, hn, rfl⟩ := h.number_mem hf
    rw [h.storedNorm_doCommit hn]
    exact h.length n hn
  · rw [hcfs] at hnone
    have hs := h.stored.separate hnone number
    have hcompound := h.compound
    rw [Directory.fileExists, hnone] at hcompound
    rw [doCommit_of_ne r (by simp) (by simp) fun m _ _ => ?_, hs]
    rw [normExtension, hcompound]
    simp
  · rw [← h.fields, hnorms, map_map]
    rfl
  · rw [← h.norm, SegmentReader.norm, hnorms, find?_map]
    rw [Option.map_map]
    rfl
  · rw [hnorms]
    intro n hn
    obtain ⟨m, hm, rfl⟩ := mem_map.1 hn
    exact h.length m hm
  · rw [hnorms]
    intro n hn _
    obtain ⟨m, hm, rfl⟩ := mem_map.1 hn
    exact h.storedNorm_doCommit (n := m) hm
  · rw [hnorms]
    intro n hn hdirty
    obtain ⟨m, hm, rfl⟩ := mem_map.1 hn
    cases hdirty
  · rw [Directory.fileExists, hcfs]
    exact h.compound

theorem HoldsNorms.commit (h : HoldsNorms t r d) :
    HoldsNorms t (r.commit d).2 (r.commit d).1 ∧ (r.commit d).2.normsDirty = false := by
  obtain ⟨hc, hdirty⟩ := h.doCommit
  unfold SegmentReader.commit
  split_ifs with hchanges howner
  · split
    · rename_i infos _
      have hwritten : HoldsNorms t (r.doCommit d).2 (infos.writeToDirectory (r.doCommit d).1).1 :=
        hc.congr_directory fun e _ _ => SegmentInfos.writeToDirectory_of_ne (by simp) (by simp)
      refine ⟨hwritten.congr rfl id rfl fun hd => ?_, hdirty⟩
      cases hd
    · exact ⟨hc, hdirty⟩
  · refine ⟨hc.congr rfl id rfl fun hd => ?_, hdirty⟩
    rw [hdirty] at hd
    cases hd
  · refine ⟨h, ?_⟩
    by_contra hd
    exact hchanges (h.changes (by simpa using hd))

/-- When nothing is dirty the norms are those that another reader would open. -/
theorem HoldsNorms.storedNorms_eq (h : HoldsNorms t r d) (hclean : r.normsDirty = false) :
    storedNorms segment d = t := by
  funext field
  rw [storedNorms, normField, ← h.norm, SegmentReader.norm, ← h.fields, find?_map,
    Option.map_map]
  refine Option.map_congr fun n hn => ?_
  have hmem := mem_of_find?_eq_some hn
  exact h.clean n hmem (h.normsDirty hclean n hmem)

theorem StoresNorms.holds (h : StoresNorms segment d) (owner : Bool) :
    HoldsNorms (storedNorms segment d) (initWithSegmentInfo segment owner d) d where
  stored := h
  fields := by
    show (openNorms segment d _).map _ = _
    rw [openNorms_eq, map_map]
    exact map_id _
  norm field := by
    show ((openNorms segment d _).find? _).map _ = _
    rw [openNorms_eq, find?_map, Option.map_map]
    rfl
  length n hn := by
    change n ∈ openNorms segment d _ at hn
    rw [openNorms_eq] at hn
    obtain ⟨f, hf, rfl⟩ := mem_map.1 hn
    exact h.length f hf
  clean n hn _ := by
    change n ∈ openNorms segment d _ at hn
    rw [openNorms_eq] at hn
    obtain ⟨f, hf, rfl⟩ := mem_map.1 hn
    rfl
  dirty n hn hdirty := by
    change n ∈ openNorms segment d _ at hn
    rw [openNorms_eq] at hn
    obtain ⟨f, hf, rfl⟩ := mem_map.1 hn
    cases hdirty
  changes := nofun
  compound := by
    show (openCompound segment d).isSome = _
    unfold openCompound
    split_ifs with hcfs
    · rw [hcfs]
      rfl
    · simpa using hcfs

theorem commit_other (r : SegmentReader segment) {name : NSString} (hname : name ≠ segment.name)
    (d : Directory) (e : Extension) :
    (r.commit d).1 (.ofSegment name e) = d (.ofSegment name e) := by
  have hfile : ∀ e', FileName.ofSegment name e ≠ .ofSegment segment.name e' := fun e' h =>
    hname (FileName.ofSegment.inj h).1
  have hc : (r.doCommit d).1 (.ofSegment name e) = d (.ofSegment name e) :=
    doCommit_of_ne r (hfile _) (hfile _) fun _ _ _ => hfile _
  unfold commit
  split_ifs
  · split
    · rw [SegmentInfos.writeToDirectory_of_ne (by simp) (by simp), hc]
    · exact hc
  · exact hc
  · rfl

theorem HoldsNorms.deleteDocument (h : HoldsNorms t r d) (docNum : ℕ) :
    HoldsNorms t (r.deleteDocument docNum) d :=
  h.congr rfl id rfl fun _ => rfl

theorem HoldsNorms.undeleteAll (h : HoldsNorms t r d) : HoldsNorms t r.sendUndeleteAll d :=
  h.congr rfl id rfl fun _ => rfl

end Etoile.Lucene
