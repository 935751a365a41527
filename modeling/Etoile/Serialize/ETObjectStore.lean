import Etoile.Lib.Runs
import Etoile.Lib.Streams

/-!
# Object stores

The buffer in memory and the bundle of files.  `B` are the branches, each of them the name of a
directory of the bundle, and a version of a branch is a pair.
-/

namespace Etoile.Serialize

variable {B : Type} [DecidableEq B]

inductive StoreCall (B : Type)
  | startVersion (aVersion : BitVec 32) (aBranch : B)
  | writeBytes (bytes : List UInt8)
  /-- The range has as many bytes as there are. -/
  | replaceRange (location : ℕ) (bytes : List UInt8)
  | commit

/-- `ETSerialObjectBuffer`; `branch` is `nil` before the first version. -/
structure ETSerialObjectBuffer (B : Type) where
  buffer : List UInt8 := []
  version : BitVec 32 := 0
  branch : Option B := none

namespace ETSerialObjectBuffer

def startVersion (s : ETSerialObjectBuffer B) (aVersion : BitVec 32) (aBranch : B) :
    ETSerialObjectBuffer B :=
  { s with version := aVersion, branch := some aBranch }

def dataForVersion (s : ETSerialObjectBuffer B) (aVersion : BitVec 32) (aBranch : B) :
    Option (List UInt8) :=
  if aVersion = s.version ∧ s.branch = some aBranch then some s.buffer else none

def writeBytes (s : ETSerialObjectBuffer B) (bytes : List UInt8) : ETSerialObjectBuffer B :=
  { s with buffer := s.buffer ++ bytes }

/-- `none` is the `NSRangeException`. -/
def replaceRange (s : ETSerialObjectBuffer B) (location : ℕ) (bytes : List UInt8) :
    Option (ETSerialObjectBuffer B) :=
  if location ≤ s.buffer.length then
    some { s with
      buffer := s.buffer.take location ++ bytes ++ s.buffer.drop (location + bytes.length) }
  else none

def commit (s : ETSerialObjectBuffer B) : ETSerialObjectBuffer B := s

def perform (s : ETSerialObjectBuffer B) : StoreCall B → Option (ETSerialObjectBuffer B)
  | .startVersion aVersion aBranch => some (s.startVersion aVersion aBranch)
  | .writeBytes bytes => some (s.writeBytes bytes)
  | .replaceRange location bytes => s.replaceRange location bytes
  | .commit => some s.commit

end ETSerialObjectBuffer

/-- A `FILE`, open for writing. -/
structure OpenFile (B : Type) extends Stream UInt8 where
  filename : B × BitVec 32

/-- `ETSerialObjectBundle`, with the files of its directory.  A stream that nothing refers to any
more is never closed, so what is pending for it does not reach its file. -/
structure ETSerialObjectBundle (B : Type) where
  files : B × BitVec 32 → Option (List UInt8)
  file : Option (OpenFile B) := none
  version : BitVec 32 := 0
  branch : Option B := none

namespace ETSerialObjectBundle

/-- The file of `file` and its stream after an operation of the stream. -/
def putFile (s : ETSerialObjectBundle B) (file : OpenFile B) (result : List UInt8 × Stream UInt8) :
    ETSerialObjectBundle B :=
  { s with
    files := Function.update s.files file.filename (some result.1)
    file := some ⟨result.2, file.filename⟩ }

/-- What is in the file of a version on disk; `fopen` has made it. -/
def contentsOf (s : ETSerialObjectBundle B) (filename : B × BitVec 32) : List UInt8 :=
  (s.files filename).getD []

/-- The directory of the branch is made where there is none; `fopen` empties the file. -/
def startVersion (s : ETSerialObjectBundle B) (aVersion : BitVec 32) (aBranch : B) :
    ETSerialObjectBundle B :=
  { files := Function.update s.files (aBranch, aVersion) (some [])
    file := some { filename := (aBranch, aVersion) }
    version := aVersion
    branch := some aBranch }

def dataForVersion (s : ETSerialObjectBundle B) (aVersion : BitVec 32) (aBranch : B) :
    Option (List UInt8) :=
  s.files (aBranch, aVersion)

/-- How much of what is pending `fwrite` hands on is left to the C library.  `none` is a write to
`NULL`. -/
def writeBytes (drained : List UInt8 → ℕ) (s : ETSerialObjectBundle B) (bytes : List UInt8) :
    Option (ETSerialObjectBundle B) :=
  s.file.map fun file => s.putFile file (file.write (s.contentsOf file.filename) drained bytes)

def replaceRange (drained : List UInt8 → ℕ) (s : ETSerialObjectBundle B) (location : ℕ)
    (bytes : List UInt8) : Option (ETSerialObjectBundle B) :=
  (s.file.map fun file => s.putFile file (file.seek (s.contentsOf file.filename) location)).bind
    fun s => s.writeBytes drained bytes

/-- `fclose` writes what is pending. -/
def commit (s : ETSerialObjectBundle B) : ETSerialObjectBundle B :=
  match s.file with
  | none => s
  | some file =>
    { s with
      files := Function.update s.files file.filename
        (some (file.contents (s.contentsOf file.filename)))
      file := none }

def perform (drained : List UInt8 → ℕ) (s : ETSerialObjectBundle B) :
    StoreCall B → Option (ETSerialObjectBundle B)
  | .startVersion aVersion aBranch => some (s.startVersion aVersion aBranch)
  | .writeBytes bytes => s.writeBytes drained bytes
  | .replaceRange location bytes => s.replaceRange drained location bytes
  | .commit => some s.commit

end ETSerialObjectBundle

end Etoile.Serialize

/-!
## The versions in a store

A store answers each version with what was written to it, as long as the buffer is given one
version only and the bundle's writes are made at the end of a file that has been closed before the
next is opened.
-/

namespace Etoile.Serialize

open Function Option

variable {B S : Type} [DecidableEq B]

/-- What has been written to each version since it was started, and the version that is being
written. -/
structure Versions (B : Type) where
  written : B × BitVec 32 → Option (List UInt8)
  current : Option (B × BitVec 32) := none

namespace Versions

def edit (w : Versions B) (f : List UInt8 → List UInt8) : Versions B :=
  match w.current with
  | none => w
  | some v => { w with written := update w.written v ((w.written v).map f) }

def perform (w : Versions B) : StoreCall B → Versions B
  | .startVersion aVersion aBranch =>
    { written := update w.written (aBranch, aVersion) (some [])
      current := some (aBranch, aVersion) }
  | .writeBytes bytes => w.edit (· ++ bytes)
  | .replaceRange location bytes =>
    w.edit fun b => b.take location ++ bytes ++ b.drop (location + bytes.length)
  | .commit => w

variable {w : Versions B} {f : List UInt8 → List UInt8}

theorem current_edit : (w.edit f).current = w.current := by
  unfold edit
  split
  · rfl
  · rfl

theorem written_edit (k : B × BitVec 32) :
    (w.edit f).written k = if w.current = some k then (w.written k).map f else w.written k := by
  unfold edit
  cases hw : w.current with
  | none => rfl
  | some v =>
    show update w.written v _ k = _
    rw [update_apply]
    by_cases hk : k = v
    · rw [if_pos hk, hk, if_pos rfl]
    · rw [if_neg hk, if_neg fun h => hk (some.inj h).symm]

end Versions

structure ObjectStore (S B : Type) where
  perform : S → StoreCall B → Option S
  commit : S → S
  dataForVersion : S → BitVec 32 → B → Option (List UInt8)

namespace ObjectStore

def buffer : ObjectStore (ETSerialObjectBuffer B) B where
  perform := ETSerialObjectBuffer.perform
  commit := ETSerialObjectBuffer.commit
  dataForVersion := ETSerialObjectBuffer.dataForVersion

def bundle (drained : List UInt8 → ℕ) : ObjectStore (ETSerialObjectBundle B) B where
  perform := ETSerialObjectBundle.perform drained
  commit := ETSerialObjectBundle.commit
  dataForVersion := ETSerialObjectBundle.dataForVersion

/-- A store beside the record of what was written; a store that raises is `none`. -/
def step (store : ObjectStore S B) (s : Option S × Versions B) (c : StoreCall B) :
    Option S × Versions B :=
  (s.1.bind fun t => store.perform t c, s.2.perform c)

/-- Once it has committed, the store answers every version with what was written to it. -/
def Answers (store : ObjectStore S B) (s : Option S × Versions B) : Prop :=
  ∃ t, s.1 = some t ∧ ∀ v b, store.dataForVersion (store.commit t) v b = s.2.written (b, v)

def KeepsApart (store : ObjectStore S B) (s : Option S × Versions B) (c : StoreCall B) : Prop :=
  store.Answers (store.step s c)

end ObjectStore

namespace ETSerialObjectBuffer

/-- Only one version is started, and before anything is written; what is replaced is there. -/
def Proper (s : ETSerialObjectBuffer B) : StoreCall B → Prop
  | .startVersion aVersion aBranch =>
    s.buffer = [] ∧ ∀ b, s.branch = some b → (b, s.version) = (aBranch, aVersion)
  | .replaceRange location _ => location ≤ s.buffer.length
  | _ => True

def current (s : ETSerialObjectBuffer B) : Option (B × BitVec 32) := s.branch.map (·, s.version)

theorem dataForVersion_eq (s : ETSerialObjectBuffer B) (v : BitVec 32) (b : B) :
    s.dataForVersion v b = if s.current = some (b, v) then some s.buffer else none := by
  unfold dataForVersion current
  cases hbranch : s.branch with
  | none => simp
  | some b' => simp [and_comm, eq_comm (a := v)]

def Linked (s : Option (ETSerialObjectBuffer B) × Versions B) : Prop :=
  ∀ t, s.1 = some t → s.2.current = t.current

structure Inv (s : Option (ETSerialObjectBuffer B) × Versions B) : Prop where
  answers : ObjectStore.buffer.Answers s
  linked : Linked s

variable {t : ETSerialObjectBuffer B} {w : Versions B}

theorem inv_iff : Inv (some t, w) ↔ w.current = t.current
    ∧ ∀ k, w.written k = if t.current = some k then some t.buffer else none := by
  constructor
  · rintro ⟨⟨t', ht', h⟩, hcurrent⟩
    obtain rfl := some.inj ht'
    exact ⟨hcurrent t rfl, fun k => by rw [← dataForVersion_eq]; exact (h k.2 k.1).symm⟩
  · rintro ⟨hcurrent, h⟩
    refine ⟨⟨t, rfl, fun v b => ?_⟩, fun t' ht' => ?_⟩
    · rw [h, ← dataForVersion_eq]
      rfl
    · obtain rfl := some.inj ht'
      exact hcurrent

theorem inv_edit (h : Inv (some t, w)) (f : List UInt8 → List UInt8) :
    Inv (some { t with buffer := f t.buffer }, w.edit f) := by
  rw [inv_iff] at h ⊢
  obtain ⟨hcurrent, hw⟩ := h
  refine ⟨Versions.current_edit.trans hcurrent, fun k => ?_⟩
  show _ = if t.current = some k then some (f t.buffer) else none
  rw [Versions.written_edit, hw, hcurrent]
  split_ifs
  · rfl
  · rfl

/-- A new version is answered if nothing has been written and there was no other. -/
theorem inv_startVersion (h : Inv (some t, w)) (aVersion : BitVec 32) (aBranch : B) :
    Inv (some (t.startVersion aVersion aBranch), w.perform (.startVersion aVersion aBranch))
      ↔ t.Proper (.startVersion aVersion aBranch) := by
  rw [inv_iff] at h ⊢
  obtain ⟨hcurrent, hw⟩ := h
  show some _ = some _ ∧ (∀ k, update w.written (aBranch, aVersion) (some []) k
    = if some (aBranch, aVersion) = some k then some t.buffer else none) ↔ _ ∧ _
  constructor
  · rintro ⟨-, h⟩
    refine ⟨?_, fun b hb => ?_⟩
    · have := h (aBranch, aVersion)
      rw [update_self, if_pos rfl] at this
      exact (some.inj this).symm
    · by_contra hne
      have := h (b, t.version)
      rw [update_of_ne hne, if_neg fun h => hne (some.inj h).symm, hw,
        if_pos (by rw [current, hb]; rfl)] at this
      cases this
  · rintro ⟨hbuffer, hsame⟩
    refine ⟨rfl, fun k => ?_⟩
    rw [update_apply, hbuffer]
    by_cases hk : k = (aBranch, aVersion)
    · rw [if_pos hk, hk, if_pos rfl]
    · rw [if_neg hk, if_neg fun h => hk (some.inj h).symm, hw, if_neg]
      intro hcur
      obtain ⟨b, hb, rfl⟩ := map_eq_some_iff.1 hcur
      exact hk (hsame b hb)

theorem Inv.step_iff (h : Inv (some t, w)) (c : StoreCall B) :
    Inv (ObjectStore.buffer.step (some t, w) c) ↔ t.Proper c := by
  cases c with
  | startVersion aVersion aBranch => exact inv_startVersion h aVersion aBranch
  | writeBytes bytes => exact iff_of_true (inv_edit h (· ++ bytes)) trivial
  | commit => exact iff_of_true h trivial
  | replaceRange location bytes =>
    show Inv (t.replaceRange location bytes, _) ↔ location ≤ t.buffer.length
    unfold replaceRange
    split_ifs with hlen
    · exact iff_of_true (inv_edit h fun b => b.take location ++ bytes
        ++ b.drop (location + bytes.length)) hlen
    · exact iff_of_false (fun h => by obtain ⟨t, ht, -⟩ := h.answers; cases ht) hlen

theorem Linked.step (h : Linked (some t, w)) (c : StoreCall B) :
    Linked (ObjectStore.buffer.step (some t, w) c) := by
  intro t' ht'
  have hcurrent : w.current = t.current := h t rfl
  cases c with
  | startVersion aVersion aBranch =>
    obtain rfl := some.inj ht'
    rfl
  | writeBytes bytes =>
    obtain rfl := some.inj ht'
    exact Versions.current_edit.trans hcurrent
  | commit =>
    obtain rfl := some.inj ht'
    exact hcurrent
  | replaceRange location bytes =>
    change t.replaceRange location bytes = some t' at ht'
    unfold replaceRange at ht'
    split_ifs at ht'
    obtain rfl := some.inj ht'
    exact Versions.current_edit.trans hcurrent

end ETSerialObjectBuffer

namespace ETSerialObjectBundle

def bytesOf (s : ETSerialObjectBundle B) (file : OpenFile B) : List UInt8 :=
  file.contents (s.contentsOf file.filename)

/-- Bytes are written at the end of the open file, what is replaced is there, and the file of
another version is not left while bytes are pending for it. -/
def Proper (s : ETSerialObjectBundle B) : StoreCall B → Prop
  | .startVersion aVersion aBranch => ∀ file, s.file = some file →
    file.filename = (aBranch, aVersion) ∨ s.bytesOf file = s.contentsOf file.filename
  | .writeBytes bytes => ∃ file, s.file = some file
    ∧ (bytes = [] ∨ file.position = (s.bytesOf file).length)
  | .replaceRange location bytes => ∃ file, s.file = some file
    ∧ (bytes = [] ∨ location ≤ (s.bytesOf file).length)
  | .commit => True

variable {drained : List UInt8 → ℕ} {t : ETSerialObjectBundle B} {w : Versions B}
  {file : OpenFile B}

/-- The file that is open is there, and is that of the version being written. -/
def Linked (s : Option (ETSerialObjectBundle B) × Versions B) : Prop :=
  ∀ t file, s.1 = some t → t.file = some file →
    s.2.current = some file.filename ∧ (t.files file.filename).isSome

structure Inv (s : Option (ETSerialObjectBundle B) × Versions B) : Prop where
  answers : ∃ t, s.1 = some t ∧ ∀ k, t.commit.files k = s.2.written k
  linked : Linked s

theorem files_commit (hfile : t.file = some file) :
    t.commit.files = update t.files file.filename (some (t.bytesOf file)) := by
  unfold commit
  rw [hfile]
  rfl

theorem files_commit_none (hfile : t.file = none) : t.commit.files = t.files := by
  unfold commit
  rw [hfile]

theorem contentsOf_putFile (result : List UInt8 × Stream UInt8) :
    (t.putFile file result).contentsOf file.filename = result.1 := by
  show (update t.files _ _ _).getD [] = _
  rw [update_self]
  rfl

theorem bytesOf_putFile (result : List UInt8 × Stream UInt8) :
    (t.putFile file result).bytesOf ⟨result.2, file.filename⟩
      = result.2.contents result.1 := by
  show result.2.contents ((t.putFile file result).contentsOf file.filename) = _
  rw [contentsOf_putFile]

theorem putFile_putFile (result result' : List UInt8 × Stream UInt8) :
    (t.putFile file result).putFile ⟨result.2, file.filename⟩ result' = t.putFile file result' := by
  unfold putFile
  rw [update_idem]

theorem replaceRange_eq (hfile : t.file = some file) (location : ℕ) (bytes : List UInt8) :
    t.replaceRange drained location bytes
      = some (t.putFile file ((file.seek (t.contentsOf file.filename) location).2.write
          (file.seek (t.contentsOf file.filename) location).1 drained bytes)) := by
  unfold replaceRange
  rw [hfile]
  show some ((t.putFile file _).putFile ⟨_, file.filename⟩ (Stream.write _
    ((t.putFile file _).contentsOf file.filename) drained bytes)) = _
  rw [putFile_putFile, contentsOf_putFile]

theorem not_inv_none : ¬ Inv ((none : Option (ETSerialObjectBundle B)), w) := by
  rintro ⟨⟨t, ht, -⟩, -⟩
  cases ht

theorem Linked.putFile (h : Linked (some t, w)) (hfile : t.file = some file)
    (result : List UInt8 × Stream UInt8) (f : List UInt8 → List UInt8) :
    Linked (some (t.putFile file result), w.edit f) := by
  intro t' file' ht' hfile'
  obtain rfl := some.inj ht'
  obtain rfl := some.inj hfile'
  refine ⟨Versions.current_edit.trans (h t file rfl hfile).1, ?_⟩
  show (update t.files _ _ _).isSome = true
  rw [update_self]
  rfl

omit [DecidableEq B] in
theorem linked_none : Linked ((none : Option (ETSerialObjectBundle B)), w) :=
  fun _ _ h => (by cases h)

omit [DecidableEq B] in
theorem linked_of_closed (hfile : t.file = none) : Linked (some t, w) := by
  intro t' file ht' hfile'
  obtain rfl := some.inj ht'
  rw [hfile] at hfile'
  cases hfile'

theorem linked_startVersion {v : BitVec 32} {b : B} :
    Linked (some (t.startVersion v b), w.perform (.startVersion v b)) := by
  intro t' file' ht' hfile'
  obtain rfl := some.inj ht'
  obtain rfl := some.inj hfile'
  refine ⟨rfl, ?_⟩
  show (update t.files _ _ _).isSome = true
  rw [update_self]
  rfl

theorem file_commit : t.commit.file = none := by
  unfold commit
  split
  · assumption
  · rfl

theorem Linked.step (h : Linked (some t, w)) (c : StoreCall B) :
    Linked ((ObjectStore.bundle drained).step (some t, w) c) := by
  cases c with
  | startVersion aVersion aBranch => exact linked_startVersion
  | commit => exact linked_of_closed file_commit
  | writeBytes bytes =>
    show Linked (t.writeBytes drained bytes, _)
    unfold writeBytes
    cases hfile : t.file with
    | none => exact linked_none
    | some file => exact h.putFile hfile _ _
  | replaceRange location bytes =>
    show Linked (t.replaceRange drained location bytes, _)
    cases hfile : t.file with
    | none =>
      unfold replaceRange
      rw [hfile]
      exact linked_none
    | some file =>
      rw [replaceRange_eq hfile]
      exact h.putFile hfile _ _

theorem inv_putFile (h : Inv (some t, w)) (hfile : t.file = some file)
    (result : List UInt8 × Stream UInt8) (f : List UInt8 → List UInt8) :
    Inv (some (t.putFile file result), w.edit f)
      ↔ result.2.contents result.1 = f (t.bytesOf file) := by
  have hfiles : (t.putFile file result).commit.files = update t.files file.filename
      (some (result.2.contents result.1)) := by
    rw [files_commit rfl, bytesOf_putFile]
    exact update_idem ..
  obtain ⟨⟨t', ht', hanswers⟩, hlinked⟩ := h
  obtain rfl := some.inj ht'
  have hcurrent : w.current = some file.filename := (hlinked t file rfl hfile).1
  change ∀ k, t.commit.files k = w.written k at hanswers
  rw [files_commit hfile] at hanswers
  have hwritten := hanswers file.filename
  rw [update_self] at hwritten
  constructor
  · rintro ⟨⟨t', ht', hanswers'⟩, -⟩
    obtain rfl := some.inj ht'
    have := hanswers' file.filename
    rw [hfiles, update_self, Versions.written_edit, if_pos hcurrent, ← hwritten] at this
    exact some.inj this
  · intro hresult
    refine ⟨⟨_, rfl, fun k => ?_⟩, hlinked.putFile hfile result f⟩
    rw [hfiles, Versions.written_edit, hcurrent, update_apply]
    by_cases hk : k = file.filename
    · rw [if_pos hk, hk, if_pos rfl, ← hwritten, hresult]
      rfl
    · rw [if_neg hk, if_neg fun h => hk (some.inj h).symm, ← hanswers,
        update_of_ne hk]

/-- A new version leaves the others as they are if nothing is pending for the last of them. -/
theorem inv_startVersion (h : Inv (some t, w)) (aVersion : BitVec 32) (aBranch : B) :
    Inv (some (t.startVersion aVersion aBranch), w.perform (.startVersion aVersion aBranch))
      ↔ t.Proper (.startVersion aVersion aBranch) := by
  have hfiles : (t.startVersion aVersion aBranch).commit.files
      = update t.files (aBranch, aVersion) (some []) := by
    rw [files_commit rfl]
    show update (update t.files _ _) _ _ = _
    rw [update_idem]
    show update t.files _
      (some (overlay ((update t.files _ _ _).getD []) 0 [])) = _
    rw [update_self, overlay_nil]
    rfl
  obtain ⟨⟨t', ht', hanswers⟩, hlinked⟩ := h
  obtain rfl := some.inj ht'
  change ∀ k, t.commit.files k = w.written k at hanswers
  have hwritten : ∀ k, (w.perform (.startVersion aVersion aBranch)).written k
      = if k = (aBranch, aVersion) then some [] else t.commit.files k := by
    intro k
    rw [hanswers]
    exact update_apply ..
  constructor
  · rintro ⟨⟨t', ht', hanswers'⟩, -⟩ file hfile
    obtain rfl := some.inj ht'
    by_cases hk : file.filename = (aBranch, aVersion)
    · exact .inl hk
    · right
      have := hanswers' file.filename
      rw [hfiles, hwritten, if_neg hk, update_of_ne hk, files_commit hfile,
        update_self] at this
      unfold contentsOf
      rw [this]
      rfl
  · intro hproper
    refine ⟨⟨_, rfl, fun k => ?_⟩, linked_startVersion⟩
    rw [hfiles, hwritten, update_apply]
    split_ifs with hk
    · rfl
    · cases hfile : t.file with
      | none => rw [files_commit_none hfile]
      | some file =>
        rw [files_commit hfile, update_apply]
        split_ifs with hk'
        · obtain ⟨-, hsome⟩ := hlinked t file rfl hfile
          rcases hproper file hfile with hsame | hsaved
          · exact absurd (hk'.trans hsame) hk
          · obtain ⟨b, hb⟩ := isSome_iff_exists.1 hsome
            rw [hk', hsaved, contentsOf, hb]
            rfl
        · rfl

theorem Inv.commit (h : Inv (some t, w)) : Inv (some t.commit, w) := by
  obtain ⟨⟨t', ht', hanswers⟩, -⟩ := h
  obtain rfl := some.inj ht'
  refine ⟨⟨_, rfl, fun k => ?_⟩, linked_of_closed file_commit⟩
  rw [files_commit_none file_commit]
  exact hanswers k

theorem Inv.step_iff (h : Inv (some t, w)) (c : StoreCall B) :
    Inv ((ObjectStore.bundle drained).step (some t, w) c) ↔ t.Proper c := by
  cases c with
  | startVersion aVersion aBranch => exact inv_startVersion h aVersion aBranch
  | commit => exact iff_of_true h.commit trivial
  | writeBytes bytes =>
    show Inv (t.writeBytes drained bytes, _) ↔ ∃ file, t.file = some file ∧ _
    unfold writeBytes
    cases hfile : t.file with
    | none => exact iff_of_false not_inv_none (by rintro ⟨file, hnone, -⟩; cases hnone)
    | some file =>
      refine (inv_putFile h hfile _ (· ++ bytes)).trans ?_
      rw [Stream.contents_write]
      refine overlay_eq_append_iff.trans ⟨fun h => ⟨file, rfl, h⟩, ?_⟩
      rintro ⟨file', hfile', h⟩
      obtain rfl := some.inj hfile'
      exact h
  | replaceRange location bytes =>
    show Inv (t.replaceRange drained location bytes, _) ↔ ∃ file, t.file = some file ∧ _
    cases hfile : t.file with
    | none =>
      unfold replaceRange
      rw [hfile]
      exact iff_of_false not_inv_none (by rintro ⟨file, hnone, -⟩; cases hnone)
    | some file =>
      rw [replaceRange_eq hfile]
      refine (inv_putFile h hfile _ fun b => b.take location ++ bytes
        ++ b.drop (location + bytes.length)).trans ?_
      rw [Stream.contents_write, Stream.contents_seek]
      refine overlay_eq_replace_iff.trans ⟨fun h => ⟨file, rfl, h⟩, ?_⟩
      rintro ⟨file', hfile', h⟩
      obtain rfl := some.inj hfile'
      exact h

end ETSerialObjectBundle

namespace ObjectStore

def Meets (C : S → StoreCall B → Prop) (s : Option S × Versions B) (c : StoreCall B) : Prop :=
  ∀ t, s.1 = some t → C t c

variable {store : ObjectStore S B} {C : S → StoreCall B → Prop}
  {L : Option S × Versions B → Prop} {s : Option S × Versions B} {calls : List (StoreCall B)}

/-- A store that stays linked to the record keeps versions apart just where each step does. -/
theorem keepsApart_iff
    (hstep : ∀ t w c, store.Answers (some t, w) → L (some t, w) →
      (store.KeepsApart (some t, w) c ∧ L (store.step (some t, w) c) ↔ C t c))
    (hlinked : ∀ t w c, L (some t, w) → L (store.step (some t, w) c))
    (hs : store.Answers s ∧ L s) :
    Along store.step store.KeepsApart s calls ↔ Along store.step (Meets C) s calls := by
  refine along_iff (I := fun s => store.Answers s ∧ L s) ?_ ?_ hs
  · rintro ⟨-, w⟩ c ⟨⟨t, rfl, hanswers⟩, hL⟩
    have := hstep t w c ⟨t, rfl, hanswers⟩ hL
    refine ⟨fun h t' ht' => ?_, fun h => (this.2 (h t rfl)).1⟩
    obtain rfl := some.inj ht'
    exact this.1 ⟨h, hlinked t w c hL⟩
  · rintro ⟨-, w⟩ c ⟨⟨t, rfl, hanswers⟩, hL⟩ h
    exact (hstep t w c ⟨t, rfl, hanswers⟩ hL).2 (h t rfl)

def newBuffer : Option (ETSerialObjectBuffer B) × Versions B :=
  (some {}, { written := fun _ => none })

def openBundle (files : B × BitVec 32 → Option (List UInt8)) :
    Option (ETSerialObjectBundle B) × Versions B :=
  (some { files }, { written := files })

/-- Both stores keep versions apart in just the runs whose calls are all proper. -/
theorem keepApart_iff_proper (drained : List UInt8 → ℕ)
    (files : B × BitVec 32 → Option (List UInt8)) (calls : List (StoreCall B)) :
    (Along buffer.step buffer.KeepsApart newBuffer calls
        ↔ Along buffer.step (Meets ETSerialObjectBuffer.Proper) newBuffer calls)
      ∧ (Along (bundle drained).step (bundle drained).KeepsApart (openBundle files) calls
        ↔ Along (bundle drained).step (Meets ETSerialObjectBundle.Proper) (openBundle files)
          calls) := by
  constructor
  · refine keepsApart_iff (L := ETSerialObjectBuffer.Linked) (fun t w c ha hL => ?_)
      (fun t w c hL => hL.step c) ⟨⟨{}, rfl, fun v b => ?_⟩, fun t ht => ?_⟩
    · rw [← ETSerialObjectBuffer.Inv.step_iff ⟨ha, hL⟩]
      exact ⟨fun h => ⟨h.1, h.2⟩, fun h => ⟨h.answers, h.linked⟩⟩
    · exact if_neg fun h => some_ne_none b h.2.symm
    · obtain rfl := some.inj ht
      rfl
  · refine keepsApart_iff (L := ETSerialObjectBundle.Linked) (fun t w c ha hL => ?_)
      (fun t w c hL => hL.step c)
      ⟨⟨{ files }, rfl, fun v b => rfl⟩, ETSerialObjectBundle.linked_of_closed rfl⟩
    obtain ⟨t', ht', ha⟩ := ha
    rw [← ETSerialObjectBundle.Inv.step_iff ⟨⟨t', ht', fun k => ha k.2 k.1⟩, hL⟩]
    constructor
    · rintro ⟨⟨t, ht, h⟩, hL⟩
      exact ⟨⟨t, ht, fun k => h k.2 k.1⟩, hL⟩
    · rintro ⟨⟨t, ht, h⟩, hL⟩
      exact ⟨⟨t, ht, fun v b => h (b, v)⟩, hL⟩

/-- The second version of a buffer starts with the bytes of the first, and a bundle puts what
follows a replacement in the wrong place. -/
theorem versions_not_apart :
    ¬ Along buffer.step buffer.KeepsApart newBuffer
        [.startVersion 0 "root", .writeBytes [1], .startVersion 1 "root"]
      ∧ ¬ Along (bundle fun _ => 0).step (bundle fun _ => 0).KeepsApart (openBundle fun _ => none)
        [.startVersion 0 "root", .writeBytes [0, 0], .replaceRange 0 [1], .writeBytes [2]] := by
  constructor
  · rintro ⟨-, -, ⟨t, ht, h⟩, -⟩
    obtain rfl := some.inj ht
    exact absurd (h 1 "root") (by decide)
  · rintro ⟨-, -, -, ⟨t, ht, h⟩, -⟩
    obtain rfl := some.inj ht
    exact absurd (h 0 "root") (by decide)

end ObjectStore

end Etoile.Serialize
