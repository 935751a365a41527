import Etoile.Lucene.DirectoryStreams
import Mathlib.Data.List.Nodup

/-!
# Copies of directories in memory

`-initWithDirectory:` creates each file of the other directory, and reads what it writes there from
the directory that is initialised, not from the other one.
-/

namespace Etoile.Lucene

variable {N : Type*}

structure DirectoryFiles (N : Type*) where
  fileList : List N
  nodup : fileList.Nodup
  bytes : N → List UInt8

namespace RAMDirectory

variable [DecidableEq N]

def contents (d : RAMDirectory N) (name : N) : Option (List UInt8) := (d.files name).map d.buffers

/-- The body of the loop, with the streams that it opens; `none` where it raises. -/
def copyFile (d : RAMDirectory N) (name : N) : Option (RAMDirectory N) :=
  let os := d.outputCount
  let d := (d.respond (.createOutput name)).1
  let is := d.inputCount
  let d := (d.respond (.openInput name)).1
  match d.respond (.input is .length) with
  | (d, .number len) =>
    match d.respond (.input is (.readBytes [] 0 len)) with
    | (d, .bytes buf) =>
      match d.respond (.output os (.writeBytes buf len)) with
      | (d, .done) =>
        let d := (d.respond (.input is .close)).1
        some (d.respond (.output os .close)).1
      | _ => none
    | _ => none
  | _ => none

/-- The count of the files is an `int`. -/
def initWithDirectory (dir : DirectoryFiles N) : Option (RAMDirectory N) :=
  (dir.fileList.take (toInt dir.fileList.length).toNat).foldlM copyFile empty

def Copies (d : RAMDirectory N) (dir : DirectoryFiles N) : Prop :=
  ∀ name, d.contents name = if name ∈ dir.fileList then some (dir.bytes name) else none

def Blank (d : RAMDirectory N) : Prop := ∀ f, d.buffers f = []

theorem copyFile_of_blank {d : RAMDirectory N} (h : d.Blank) (name : N) :
    ∃ d', d.copyFile name = some d' ∧ d'.Blank
      ∧ d'.files = Function.update d.files name (some d.count) := by
  have hbuffers : d.buffers = fun _ => [] := funext h
  have hzero : toUnsigned 0 = 0 := rfl
  simp [copyFile, respond, createOutput, addInput, RAMInputStream.receive, replaceBytes,
    RAMOutputStream.receive, RAMOutputStream.writeBytes, hbuffers, hzero, Blank]

theorem copyFiles_of_blank : ∀ (names : List N) {d : RAMDirectory N}, d.Blank →
    ∃ d', names.foldlM copyFile d = some d' ∧ d'.Blank
      ∧ ∀ name, (d'.files name).isSome ↔ name ∈ names ∨ (d.files name).isSome
  | [], d, h => ⟨d, rfl, h, fun name => by simp⟩
  | name :: names, d, h => by
    obtain ⟨d₁, hfile, hblank, hfiles⟩ := copyFile_of_blank h name
    obtain ⟨d₂, hrest, hblank', hfiles'⟩ := copyFiles_of_blank names hblank
    refine ⟨d₂, ?_, hblank', fun other => ?_⟩
    · rw [List.foldlM_cons, hfile]
      exact hrest
    · rw [hfiles', hfiles]
      by_cases hname : other = name
      · simp [hname]
      · simp [hname]

omit [DecidableEq N] in
theorem Blank.contents_eq {d : RAMDirectory N} (h : d.Blank) (name : N) :
    d.contents name = if (d.files name).isSome then some [] else none := by
  unfold contents
  rcases d.files name with _ | f
  · rfl
  · simp [h f]

theorem initWithDirectory_eq (dir : DirectoryFiles N) :
    ∃ d, initWithDirectory dir = some d
      ∧ ∀ name, d.contents name
        = if name ∈ dir.fileList.take (toInt dir.fileList.length).toNat then some [] else none := by
  have hempty : (empty : RAMDirectory N).Blank := fun _ => rfl
  obtain ⟨d, hfold, hblank, hfiles⟩ :=
    copyFiles_of_blank (dir.fileList.take (toInt dir.fileList.length).toNat) hempty
  refine ⟨d, hfold, fun name => ?_⟩
  rw [hblank.contents_eq]
  simp [hfiles, empty]

theorem toInt_lt (n : ℤ) : toInt n < 2 ^ 31 := by
  unfold toInt
  have hlt := Int.bmod_lt (x := n) (m := 2 ^ 32) (by omega)
  omega

/-- A directory is copied where there is nothing in its files. -/
theorem copies_iff (dir : DirectoryFiles N) :
    (∃ d, initWithDirectory dir = some d ∧ d.Copies dir)
      ↔ dir.fileList.length < 2 ^ 31 ∧ ∀ name ∈ dir.fileList, dir.bytes name = [] := by
  obtain ⟨d, hd, hcontents⟩ := initWithDirectory_eq dir
  have hcopies : (∃ d, initWithDirectory dir = some d ∧ d.Copies dir) ↔ d.Copies dir := by
    simp [hd]
  rw [hcopies]
  constructor
  · intro h
    have hall : ∀ name ∈ dir.fileList,
        name ∈ dir.fileList.take (toInt dir.fileList.length).toNat ∧ dir.bytes name = [] := by
      intro name hname
      have heq := h name
      rw [hcontents, if_pos hname] at heq
      split_ifs at heq with htake
      exact ⟨htake, (Option.some.inj heq).symm⟩
    refine ⟨?_, fun name hname => (hall name hname).2⟩
    by_contra hlong
    -- a file behind the ones that are counted
    have hlt := toInt_lt dir.fileList.length
    have hrest : (toInt dir.fileList.length).toNat < dir.fileList.length := by omega
    have hmem := (hall _ (List.getElem_mem hrest)).1
    rw [List.mem_take_iff_getElem] at hmem
    obtain ⟨i, hi, heq⟩ := hmem
    have hindex := dir.nodup.getElem_inj_iff.1 heq
    omega
  · rintro ⟨hlength, hempty⟩ name
    rw [hcontents, toInt_natCast hlength, Int.toNat_natCast, List.take_length]
    split_ifs with hname
    · rw [hempty name hname]
    · rfl

/-- A file with one byte is empty in the copy. -/
theorem not_copies :
    ∃ d, initWithDirectory (⟨[0], by simp, fun _ => [7]⟩ : DirectoryFiles ℕ) = some d
      ∧ d.contents 0 = some [] ∧ ¬d.Copies ⟨[0], by simp, fun _ => [7]⟩ := by
  obtain ⟨d, hd, hcontents⟩ :=
    initWithDirectory_eq (⟨[0], by simp, fun _ => [7]⟩ : DirectoryFiles ℕ)
  have hzero : d.contents 0 = some [] := by
    rw [hcontents]
    exact if_pos (by decide)
  refine ⟨d, hd, hzero, fun h => ?_⟩
  have heq := h 0
  rw [hzero] at heq
  simp at heq

end RAMDirectory

end Etoile.Lucene
