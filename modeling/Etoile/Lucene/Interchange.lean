import Etoile.Lucene.DirectoryStreams
import Mathlib.Data.Set.Function

/-!
# The directories are interchangeable

As long as no file with content is created again, no missing file opened or renamed, no stream used
after its end or its close, and no path read again that names another file by then, the directory
in memory answers every request as the one in the file system does.
-/

namespace Etoile.Lucene

open Bool FSDirectory Function List Option RAMOutputStream

variable {N : Type*}

theorem overwrite_of_le {data bytes : List UInt8} {offset : ℕ} (h : offset ≤ data.length) :
    overwrite data offset bytes
      = data.take offset ++ bytes ++ data.drop (offset + bytes.length) := by
  unfold overwrite
  split_ifs with hb
  · subst hb
    simp
  · rw [Nat.sub_eq_zero_of_le h, replicate_zero, append_nil]

theorem length_overwrite {data bytes : List UInt8} {offset : ℕ} (h : offset ≤ data.length) :
    (overwrite data offset bytes).length = max data.length (offset + bytes.length) := by
  rw [overwrite_of_le h]
  simp only [length_append, length_take, length_drop]
  omega

namespace FSIndexOutput

/-- Where an output to a file behaves as one to memory: `Named` says that the path still names the
file. -/
def Agrees (Named : Prop) (data : List UInt8) (o : FSIndexOutput N) : OutputRequest → Prop
  | .close => True
  | .writeBytes b len => o.isClosed = false
      ∧ (len ≤ b.length → len = 0 ∨ o.handle.offset ≤ data.length ∧ o.handle.offset + len < 2 ^ 31)
      ∧ (b.length < len → o.handle.offset = data.length)
  | .seekToFileOffset pos => o.isClosed = false ∧ pos < 2 ^ 31
  | .length => o.isClosed = false ∧ Named
  | .offsetInFile => o.isClosed = false
  | .flush => o.isClosed = false

end FSIndexOutput

structure SameWrite (o : FSIndexOutput N) (data : List UInt8)
    (r : (List UInt8 × ℤ) × Response N) (s : (List UInt8 × FSIndexOutput N) × Response N) :
    Prop where
  response : r.2 = s.2
  bytes : r.1.1 = s.1.1
  pointer : r.1.2 = s.1.2.handle.offset
  offset : s.1.2.handle.offset < 2 ^ 31
  inode : s.1.2.handle.inode = o.handle.inode
  small : s.1.1.length < 2 ^ 31
  grows : data.length ≤ s.1.1.length

theorem ram_writeBytes_eq {data b : List UInt8} {offset len : ℕ} (hb : len ≤ b.length)
    (hle : offset ≤ data.length) (hlt : offset + len < 2 ^ 31) :
    writeBytes (N := N) data offset b len
      = ((overwrite data offset (b.take len), ((offset + len : ℕ) : ℤ)), .done) := by
  have hp : toUnsigned (offset : ℤ) = offset := toUnsigned_natCast (by omega)
  have hnext : toInt ((offset : ℤ) + len) = ((offset + len : ℕ) : ℤ) := by
    rw [← toInt_natCast hlt]
    rfl
  have htail : toUnsigned ((offset + len : ℕ) : ℤ) = offset + len := toUnsigned_natCast (by omega)
  have hlen : (b.take len).length = len := by
    rw [length_take]
    omega
  unfold writeBytes
  rw [hp, hnext, htail, overwrite_of_le hle, hlen]
  split_ifs with hend hin
  · rw [hend, take_length, drop_of_length_le (by omega), append_nil]
  · have hdrop : (if offset + len < data.length then data.drop (offset + len) else [])
        = data.drop (offset + len) := by
      split_ifs with hshort
      · rfl
      · rw [drop_of_length_le (by omega)]
    simp only [hdrop]
  · omega

theorem ram_writeBytes_none {data b : List UInt8} {offset : ℕ} (hgt : data.length < offset)
    (hlt : offset < 2 ^ 31) :
    writeBytes (N := N) data offset b 0 = ((data, (offset : ℤ)), .done) := by
  have hp : toUnsigned (offset : ℤ) = offset := toUnsigned_natCast (by omega)
  unfold writeBytes
  rw [hp, if_neg (by omega), if_neg (by omega)]
  simp [toInt_natCast hlt]

theorem ram_writeBytes_raised {data b : List UInt8} {len : ℕ} (hb : b.length < len)
    (hlt : data.length < 2 ^ 31) : writeBytes (N := N) data data.length b len
      = ((data, (data.length : ℤ)), .raised) := by
  have hp : toUnsigned (data.length : ℤ) = data.length := toUnsigned_natCast (by omega)
  unfold writeBytes
  rw [hp, if_pos rfl, if_neg (by omega)]

variable {data : List UInt8}

theorem writeBytes_same {o : FSIndexOutput N} {size : ℕ} {b : List UInt8}
    {len : ℕ} {Named : Prop} (h : o.Agrees Named data (.writeBytes b len))
    (hoffset : o.handle.offset < 2 ^ 31) (hdata : data.length < 2 ^ 31) :
    SameWrite o data (receive data o.handle.offset (.writeBytes b len))
      (o.receive size data (.writeBytes b len)) := by
  obtain ⟨hopen, hfit, hlong⟩ := h
  simp only [receive, FSIndexOutput.receive, hopen, false_eq_true, if_false]
  by_cases hb : len ≤ b.length
  · have hlen : (b.take len).length = len := by
      rw [length_take]
      omega
    rw [if_pos hb]
    by_cases hle : o.handle.offset ≤ data.length
    · have hlt : o.handle.offset + len < 2 ^ 31 := by
        rcases hfit hb with rfl | h
        · exact hoffset
        · exact h.2
      have hsize := @length_overwrite data (b.take len) _ hle
      rw [hlen] at hsize
      rw [ram_writeBytes_eq hb hle hlt]
      refine ⟨rfl, rfl, rfl, hlt, rfl, ?_, ?_⟩
      · change (overwrite _ _ _).length < _
        omega
      · change _ ≤ (overwrite _ _ _).length
        omega
    · obtain rfl := (hfit hb).resolve_right fun h => hle h.1
      rw [ram_writeBytes_none (by omega) hoffset, take_zero, overwrite, if_pos rfl]
      exact ⟨rfl, rfl, rfl, hoffset, rfl, hdata, le_rfl⟩
  · rw [if_neg hb, hlong (by omega), ram_writeBytes_raised (by omega) hdata]
    refine ⟨rfl, rfl, ?_, hoffset, rfl, hdata, le_rfl⟩
    rw [hlong (by omega)]

theorem output_same {o : FSIndexOutput N} {size : ℕ} {Named : Prop}
    (hopen : o.isClosed = false) (hoffset : o.handle.offset < 2 ^ 31)
    (hdata : data.length < 2 ^ 31) (hsize : Named → size = data.length) :
    ∀ request : OutputRequest, o.Agrees Named data request →
      SameWrite o data (receive data o.handle.offset request)
        (o.receive size data request)
  | .writeBytes b len, h => writeBytes_same h hoffset hdata
  | .seekToFileOffset pos, h => by
    simp only [receive, FSIndexOutput.receive, hopen, false_eq_true, if_false,
      toInt_natCast h.2]
    exact ⟨rfl, rfl, rfl, h.2, rfl, hdata, le_rfl⟩
  | .offsetInFile, _ => by
    have hp : toUnsigned (o.handle.offset : ℤ) = o.handle.offset := toUnsigned_natCast (by omega)
    simp only [receive, FSIndexOutput.receive, hopen, false_eq_true, if_false,
      hp]
    exact ⟨rfl, rfl, rfl, hoffset, rfl, hdata, le_rfl⟩
  | .length, h => by
    simp only [receive, FSIndexOutput.receive, hopen, false_eq_true, if_false,
      hsize h.2]
    exact ⟨rfl, rfl, rfl, hoffset, rfl, hdata, le_rfl⟩
  | .flush, _ => by
    simp only [receive, FSIndexOutput.receive, hopen, false_eq_true, if_false]
    exact ⟨rfl, rfl, rfl, hoffset, rfl, hdata, le_rfl⟩
  | .close, _ => ⟨rfl, rfl, rfl, hoffset, rfl, hdata, le_rfl⟩

namespace FSIndexInput

def Agrees (data : List UInt8) (i : FSIndexInput N) : InputRequest → Prop
  | .close => True
  | .readByte => i.isClosed = false ∧ i.offset < data.length
  | .readBytes b offset len =>
    i.isClosed = false ∧ (offset ≤ b.length ∨ len = 0 ∨ i.offset = data.length)
  | .seekToFileOffset pos => i.isClosed = false ∧ (pos < i.length ∨ pos = data.length)
  | .offsetInFile => i.isClosed = false
  | .length => i.isClosed = false ∧ i.length = data.length

end FSIndexInput

/-- An open input to a file of the bytes `data`, at the place of one in memory. -/
structure At (data : List UInt8) (pointer : ℕ) (i : FSIndexInput N) (h : FileHandle) : Prop where
  handle : i.handle = some h
  pointer : pointer = h.offset
  offset : h.offset ≤ data.length
  length : i.length ≤ data.length

namespace At

variable {data : List UInt8} {pointer pos : ℕ} {i : FSIndexInput N} {h : FileHandle}

theorem offset_eq (ha : At data pointer i h) : i.offset = pointer := by
  rw [FSIndexInput.offset, ha.handle, ha.pointer]
  rfl

theorem withOffset (ha : At data pointer i h) (hpos : pos ≤ data.length) :
    At data pos (i.withOffset pos) ⟨h.inode, pos⟩ where
  handle := by
    rw [FSIndexInput.withOffset, ha.handle]
    rfl
  pointer := rfl
  offset := hpos
  length := ha.length

theorem seek (ha : At data pointer i h) (hpos : pos < i.length ∨ pos = data.length) :
    At data pos (i.seekToFileOffset data pos) ⟨h.inode, pos⟩ := by
  have hlength := ha.length
  have hle : pos ≤ data.length := by omega
  unfold FSIndexInput.seekToFileOffset
  split_ifs with hlt
  · exact ha.withOffset hle
  · obtain rfl := hpos.resolve_left hlt
    exact ha.withOffset hle

end At

theorem input_same {pointer : ℕ} {i : FSIndexInput N} {h : FileHandle}
    (hopen : i.isClosed = false) (ha : At data pointer i h) (hdata : data.length < 2 ^ 31) :
    ∀ request : InputRequest, i.Agrees data request →
      (RAMInputStream.receive (N := N) (some data) pointer request).2 = (i.receive data request).2
        ∧ ∃ h', h'.inode = h.inode
          ∧ At data (RAMInputStream.receive (N := N) (some data) pointer request).1
              (i.receive data request).1 h'
  | .readByte, hg => by
    have hlt : pointer < data.length := ha.offset_eq ▸ hg.2
    simp only [RAMInputStream.receive, FSIndexInput.receive, hopen, ha.offset_eq,
      getElem?_eq_getElem hlt, false_eq_true, if_false]
    exact ⟨trivial, ⟨h.inode, pointer + 1⟩, rfl, ha.withOffset hlt⟩
  | .readBytes b offset len, hg => by
    have hle : pointer ≤ data.length := ha.pointer ▸ ha.offset
    simp only [RAMInputStream.receive, FSIndexInput.receive, hopen, ha.offset_eq, getD_some,
      hle, false_eq_true, if_false, if_true]
    have hread : pointer + ((data.drop pointer).take len).length ≤ data.length := by
      simp only [length_take, length_drop]
      omega
    have hnext : (if offset ≤ b.length then pointer + ((data.drop pointer).take len).length
        else pointer) = pointer + ((data.drop pointer).take len).length := by
      split_ifs with hb
      · rfl
      · have hnone : ((data.drop pointer).take len).length = 0 := by
          have := hg.2.resolve_left hb
          rw [ha.offset_eq] at this
          simp only [length_take, length_drop]
          omega
        rw [hnone, Nat.add_zero]
    rw [hnext]
    exact ⟨trivial, ⟨h.inode, _ + _⟩, rfl, ha.withOffset hread⟩
  | .seekToFileOffset pos, hg => by
    have hlength := ha.length
    have hpos : pos < 2 ^ 31 := by
      rcases hg.2 with hpos | hpos <;> omega
    simp only [RAMInputStream.receive, FSIndexInput.receive, hopen, toInt_natCast hpos,
      toUnsigned_natCast (by omega : pos < 2 ^ 64), false_eq_true, if_false]
    exact ⟨trivial, ⟨h.inode, pos⟩, rfl, ha.seek hg.2⟩
  | .offsetInFile, _ => by
    simp only [RAMInputStream.receive, FSIndexInput.receive, hopen, ha.offset_eq,
      false_eq_true, if_false]
    exact ⟨trivial, h, rfl, ha⟩
  | .length, hg => by
    simp only [RAMInputStream.receive, FSIndexInput.receive, hopen, hg.2, getD_some,
      false_eq_true, if_false]
    exact ⟨trivial, h, rfl, ha⟩
  | .close, _ => ⟨rfl, h, rfl, ⟨ha.handle, ha.pointer, ha.offset, ha.length⟩⟩

def FSDirectory.Names (d : FSDirectory N) (path : N) (inode : ℕ) : Prop := d.files path = some inode

theorem FSDirectory.at_path {d : FSDirectory N} {path : N} {inode : ℕ}
    (hnames : d.Names path inode) : At (d.data inode) 0 (d.inputAtPath path) ⟨inode, 0⟩ := by
  unfold Names at hnames
  refine ⟨?_, rfl, Nat.zero_le _, ?_⟩
  · rw [FSDirectory.inputAtPath, hnames]
    rfl
  · rw [FSDirectory.inputAtPath, FSDirectory.fileLength, hnames]
    exact le_rfl

def FSDirectory.IsOpen (d : FSDirectory N) (inode : ℕ) : Prop :=
  (∃ i o, d.outputs i = some o ∧ o.isClosed = false ∧ o.handle.inode = inode)
    ∨ ∃ i s h, d.inputs i = some s ∧ s.isClosed = false ∧ s.handle = some h ∧ h.inode = inode

/-- Where the directory in the file system answers as one in memory. -/
def FSDirectory.Agrees (d : FSDirectory N) : StoreRequest N → Prop
  | .fileList => True
  | .fileExists _ => True
  | .fileLength _ => True
  | .deleteFile _ => True
  | .renameFile old _ => (d.files old).isSome
  | .createOutput name => ∀ inode, d.files name = some inode → d.data inode = [] ∧ ¬ d.IsOpen inode
  | .openInput name => (d.files name).isSome
  | .output i request => ∀ o, d.outputs i = some o →
      o.Agrees (d.Names o.path o.handle.inode) (d.data o.handle.inode) request
  | .input i request => ∀ s, d.inputs i = some s → s.Agrees (d.dataOf s) request
  | .copyInput i => ∀ s, d.inputs i = some s →
      s.isClosed = false ∧ ∃ h, s.handle = some h ∧ d.Names s.path h.inode

/-- The streams write the same file at the same place, as long as they are open. -/
def SameOutput (ρ : ℕ → ℕ) (L : Set ℕ) : Option RAMOutputStream → Option (FSIndexOutput N) → Prop
  | none, none => True
  | some p, some o => o.isClosed = false →
      o.handle.inode ∈ L ∧ p.file = ρ o.handle.inode ∧ p.pointer = o.handle.offset
        ∧ o.handle.offset < 2 ^ 31
  | _, _ => False

def SameInput (ρ : ℕ → ℕ) (L : Set ℕ) (data : ℕ → List UInt8) :
    Option RAMInputStream → Option (FSIndexInput N) → Prop
  | none, none => True
  | some p, some s => s.isClosed = false →
      ∃ h, h.inode ∈ L ∧ p.file = some (ρ h.inode) ∧ At (data h.inode) p.pointer s h
  | _, _ => False

/-- The file object `ρ inode` holds the bytes of the file `inode`, for the files `L` that have a
name or an open stream. -/
structure Paired (ρ : ℕ → ℕ) (L : Set ℕ) (r : RAMDirectory N) (d : FSDirectory N) : Prop where
  files : ∀ name, r.files name = (d.files name).map ρ
  named : ∀ name inode, d.files name = some inode → inode ∈ L
  single : ∀ a b inode, d.files a = some inode → d.files b = some inode → a = b
  outputs : ∀ i, SameOutput ρ L (r.outputs i) (d.outputs i)
  outputCount : r.outputCount = d.outputCount
  inputs : ∀ i, SameInput ρ L d.data (r.inputs i) (d.inputs i)
  inputCount : r.inputCount = d.inputCount
  buffers : ∀ inode ∈ L, r.buffers (ρ inode) = d.data inode
  small : ∀ inode ∈ L, (d.data inode).length < 2 ^ 31
  fresh : ∀ inode ∈ L, inode < d.count ∧ ρ inode < r.count
  injOn : Set.InjOn ρ L

section Streams

variable {ρ ρ' : ℕ → ℕ} {L L' : Set ℕ} {data data' : ℕ → List UInt8}

theorem SameOutput.mono {p : Option RAMOutputStream} {o : Option (FSIndexOutput N)}
    (h : SameOutput ρ L p o) (hL : L ⊆ L')
    (hρ : ∀ o', o = some o' → o'.isClosed = false →
      ρ' o'.handle.inode = ρ o'.handle.inode) : SameOutput ρ' L' p o := by
  rcases p with _ | p <;> rcases o with _ | o
  · trivial
  · exact h
  · exact h
  · intro hopen
    obtain ⟨hmem, hfile, hrest⟩ := h hopen
    exact ⟨hL hmem, by rw [hfile, hρ o rfl hopen], hrest⟩

theorem SameInput.mono {p : Option RAMInputStream} {i : Option (FSIndexInput N)}
    (h : SameInput ρ L data p i) (hL : L ⊆ L')
    (hρ : ∀ s f, i = some s → s.isClosed = false → s.handle = some f →
      ρ' f.inode = ρ f.inode ∧ (data f.inode).length ≤ (data' f.inode).length) :
    SameInput ρ' L' data' p i := by
  rcases p with _ | p <;> rcases i with _ | s
  · trivial
  · exact h
  · exact h
  · intro hopen
    obtain ⟨f, hmem, hfile, hat⟩ := h hopen
    obtain ⟨hsame, hgrows⟩ := hρ s f rfl hopen hat.handle
    exact ⟨f, hL hmem, by rw [hfile, hsame],
      ⟨hat.handle, hat.pointer, hat.offset.trans hgrows, hat.length.trans hgrows⟩⟩

end Streams

namespace Paired

variable {ρ : ℕ → ℕ} {L : Set ℕ} {r : RAMDirectory N} {d : FSDirectory N}

theorem empty : Paired (N := N) id ∅ .empty .empty where
  files _ := rfl
  named _ _ h := nomatch h
  single _ _ _ h := nomatch h
  outputs _ := trivial
  outputCount := rfl
  inputs _ := trivial
  inputCount := rfl
  buffers _ h := h.elim
  small _ h := h.elim
  fresh _ h := h.elim
  injOn := Set.injOn_empty _

theorem isSome_files (h : Paired ρ L r d) (name : N) :
    (r.files name).isSome = (d.files name).isSome := by
  rw [h.files, isSome_map]

theorem fileLength (h : Paired ρ L r d) (name : N) :
    ((r.files name).elim 0 fun f => (r.buffers f).length) = d.fileLength name := by
  unfold FSDirectory.fileLength
  rw [h.files]
  rcases hn : d.files name with _ | inode
  · rfl
  · exact congrArg length (h.buffers inode (h.named name inode hn))

theorem mem_of_isOpen (h : Paired ρ L r d) {inode : ℕ} (hopen : d.IsOpen inode) : inode ∈ L := by
  rcases hopen with ⟨i, o, ho, hclosed, rfl⟩ | ⟨i, s, f, hs, hclosed, hf, rfl⟩
  · have hsame := h.outputs i
    rw [ho] at hsame
    rcases hp : r.outputs i with _ | p <;> rw [hp] at hsame
    · exact hsame.elim
    · exact (hsame hclosed).1
  · have hsame := h.inputs i
    rw [hs] at hsame
    rcases hp : r.inputs i with _ | p <;> rw [hp] at hsame
    · exact hsame.elim
    · obtain ⟨f', hmem, -, hat⟩ := hsame hclosed
      obtain rfl := some.inj (hf.symm.trans hat.handle)
      exact hmem

theorem setFiles (h : Paired ρ L r d) {files' : N → Option ℕ}
    (hmem : ∀ name inode, files' name = some inode → inode ∈ L)
    (hone : ∀ a b inode, files' a = some inode → files' b = some inode → a = b) :
    Paired ρ L { r with files := fun name => (files' name).map ρ } { d with files := files' } :=
  { h with
    files := fun _ => rfl
    named := hmem
    single := hone }

variable [DecidableEq N]

theorem deleteFile (h : Paired ρ L r d) (name : N) :
    Paired ρ L { r with files := update r.files name none }
      { d with files := update d.files name none } := by
  have hfiles : update r.files name none
      = fun a => (update d.files name none a).map ρ := by
    funext a
    by_cases ha : a = name
    · subst ha
      simp
    · simp [ha, h.files]
  rw [hfiles]
  have hold : ∀ a inode, update d.files name none a = some inode →
      d.files a = some inode := by
    intro a inode ha
    by_cases hne : a = name
    · subst hne
      simp at ha
    · simpa [hne] using ha
  exact h.setFiles (fun a inode ha => h.named a inode (hold a inode ha))
    fun a b inode ha hb => h.single a b inode (hold a inode ha) (hold b inode hb)

theorem renamed_files {old : N} (new : N) {inode : ℕ}
    (hold : d.files old = some inode) : d.renameFile old new = { d with
      files := update (update d.files new (some inode)) old none } := by
  unfold renameFile
  rw [hold]
  by_cases hne : old = new
  · subst hne
    simp
  · simp [hne, hold]

theorem renameFile (h : Paired ρ L r d) {old : N} (new : N) (hold : (d.files old).isSome) :
    (r.renameFile old new).2 = .done
      ∧ Paired ρ L (r.renameFile old new).1 (d.renameFile old new) := by
  obtain ⟨inode, hinode⟩ := isSome_iff_exists.1 hold
  have hram : r.files old = some (ρ inode) := by
    rw [h.files, hinode]
    rfl
  unfold RAMDirectory.renameFile
  rw [renamed_files new hinode, hram]
  refine ⟨rfl, ?_⟩
  set files' := update (update d.files new (some inode)) old none
  have hfiles : update (update r.files new (some (ρ inode))) old none
      = fun a => (files' a).map ρ := by
    funext a
    by_cases hao : a = old
    · subst hao
      simp [files']
    by_cases han : a = new
    · subst han
      simp [files', hao]
    · simp [files', hao, han, h.files]
  have hcases : ∀ a i, files' a = some i →
      a = new ∧ i = inode ∨ a ≠ old ∧ a ≠ new ∧ d.files a = some i := by
    intro a i ha
    by_cases hao : a = old
    · subst hao
      simp [files'] at ha
    by_cases han : a = new
    · subst han
      simp only [files', ne_eq, hao, not_false_eq_true, update_of_ne,
        update_self, some.injEq] at ha
      exact .inl ⟨rfl, ha.symm⟩
    · exact .inr ⟨hao, han, by simpa [files', hao, han] using ha⟩
  change Paired ρ L { r with files := update (update r.files new _) old none } _
  rw [hfiles]
  refine h.setFiles (fun a i ha => ?_) fun a b i ha hb => ?_
  · rcases hcases a i ha with ⟨-, rfl⟩ | ⟨-, -, ha⟩
    · exact h.named old i hinode
    · exact h.named a i ha
  · rcases hcases a i ha with ⟨ha', hi⟩ | ⟨hao, -, ha'⟩ <;>
      rcases hcases b i hb with ⟨hb', hi'⟩ | ⟨hbo, -, hb'⟩
    · exact ha'.trans hb'.symm
    · exact absurd (h.single b old i hb' (hi ▸ hinode)) hbo
    · exact absurd (h.single a old i ha' (hi' ▸ hinode)) hao
    · exact h.single a b i ha' hb'

/-- A file that no name but this one has, and no open stream, is given to a new object. -/
theorem createOutput (h : Paired ρ L r d) {name : N} {inode count : ℕ} {data : ℕ → List UInt8}
    (hopen : ¬ d.IsOpen inode) (hname : ∀ a, d.files a = some inode → a = name)
    (hempty : data inode = []) (hdata : ∀ j, j ≠ inode → data j = d.data j)
    (hinode : inode < count) (hcount : d.count ≤ count) :
    Paired (update ρ inode r.count) (insert inode L) (r.createOutput name).1
      ({ d with files := update d.files name (some inode), data := data, count := count :
          FSDirectory N }.addOutput ⟨name, ⟨inode, 0⟩, false⟩) where
  files a := by
    by_cases ha : a = name
    · subst ha
      simp [RAMDirectory.createOutput, addOutput]
    · have hne : ∀ j, d.files a = some j → j ≠ inode := by
        rintro j hj rfl
        exact ha (hname a hj)
      simp only [RAMDirectory.createOutput, addOutput, update_of_ne ha,
        h.files]
      rcases hj : d.files a with _ | j
      · rfl
      · simp [hne j hj]
  named a j hj := by
    by_cases ha : a = name
    · subst ha
      simp only [addOutput, update_self, some.injEq] at hj
      exact .inl hj.symm
    · exact .inr (h.named a j (by simpa [addOutput, ha] using hj))
  single a b j ha hb := by
    simp only [addOutput, update_apply] at ha hb
    split_ifs at ha hb with hna hnb hnb
    · exact hna.trans hnb.symm
    · obtain rfl := some.inj ha
      exact hna.trans (hname b hb).symm
    · obtain rfl := some.inj hb
      exact (hname a ha).trans hnb.symm
    · exact h.single a b j ha hb
  outputs i := by
    simp only [RAMDirectory.createOutput, addOutput, h.outputCount]
    by_cases hi : i = d.outputCount
    · subst hi
      simp only [update_self]
      intro _
      exact ⟨Set.mem_insert .., (update_self inode r.count ρ).symm, rfl,
        Nat.two_pow_pos 31⟩
    · simp only [update_of_ne hi]
      refine (h.outputs i).mono (Set.subset_insert ..) fun o ho hclosed => ?_
      refine update_of_ne (fun heq => hopen ?_) ..
      exact .inl ⟨i, o, ho, hclosed, heq⟩
  outputCount := congrArg (· + 1) h.outputCount
  inputs i := by
    refine (h.inputs i).mono (Set.subset_insert ..) fun s f hs hclosed hf => ?_
    have hne : f.inode ≠ inode := fun heq => hopen (.inr ⟨i, s, f, hs, hclosed, hf, heq⟩)
    exact ⟨update_of_ne hne .., (congrArg length (hdata _ hne)).ge⟩
  inputCount := h.inputCount
  buffers j hj := by
    simp only [RAMDirectory.createOutput, addOutput]
    by_cases hne : j = inode
    · subst hne
      rw [update_self, update_self, hempty]
    · have hold := hj.resolve_left hne
      rw [update_of_ne hne, hdata j hne,
        update_of_ne (h.fresh j hold).2.ne, h.buffers j hold]
  small j hj := by
    simp only [addOutput]
    by_cases hne : j = inode
    · rw [hne, hempty]
      exact Nat.two_pow_pos 31
    · rw [hdata j hne]
      exact h.small j (hj.resolve_left hne)
  fresh j hj := by
    simp only [RAMDirectory.createOutput, addOutput]
    by_cases hne : j = inode
    · subst hne
      rw [update_self]
      exact ⟨hinode, Nat.lt_succ_self _⟩
    · obtain ⟨hlt, hlt'⟩ := h.fresh j (hj.resolve_left hne)
      rw [update_of_ne hne]
      exact ⟨hlt.trans_le hcount, hlt'.trans (Nat.lt_succ_self _)⟩
  injOn a ha b hb hab := by
    simp only [update_apply] at hab
    split_ifs at hab with hna hnb hnb
    · exact hna.trans hnb.symm
    · exact absurd hab (h.fresh b (hb.resolve_left hnb)).2.ne'
    · exact absurd hab (h.fresh a (ha.resolve_left hna)).2.ne
    · exact h.injOn (ha.resolve_left hna) (hb.resolve_left hnb) hab

variable {p : RAMInputStream} {s : FSIndexInput N}

omit [DecidableEq N] in
theorem addInput (h : Paired ρ L r d)
    (hs : SameInput ρ L d.data (some p) (some s)) : Paired ρ L (r.addInput p) (d.addInput s) := by
  refine { h with inputs := fun i => ?_, inputCount := congrArg (· + 1) h.inputCount }
  simp only [RAMDirectory.addInput, FSDirectory.addInput, h.inputCount]
  by_cases hi : i = d.inputCount
  · subst hi
    simpa only [update_self] using hs
  · simpa only [update_of_ne hi] using h.inputs i

omit [DecidableEq N] in
theorem openInput (h : Paired ρ L r d) {name : N} (hname : (d.files name).isSome) :
    Paired ρ L (r.addInput ⟨r.files name, 0⟩) (d.addInput (d.inputAtPath name)) := by
  obtain ⟨inode, hinode⟩ := isSome_iff_exists.1 hname
  refine h.addInput fun _ => ⟨⟨inode, 0⟩, h.named name inode hinode, ?_, at_path hinode⟩
  rw [h.files, hinode]
  rfl

omit [DecidableEq N] in
theorem copyInput (h : Paired ρ L r d) {i : ℕ}
    (hp : r.inputs i = some p) (hs : d.inputs i = some s) (hopen : s.isClosed = false)
    (hnames : ∃ f, s.handle = some f ∧ d.Names s.path f.inode) :
    (d.copyInput s).2 = .stream ∧
      Paired ρ L (r.addInput ⟨p.file, toUnsigned (toInt p.pointer)⟩) (d.copyInput s).1 := by
  have hsame := h.inputs i
  rw [hp, hs] at hsame
  obtain ⟨f, hmem, hfile, hat⟩ := hsame hopen
  obtain ⟨f', hf', hpath⟩ := hnames
  obtain rfl := some.inj (hf'.symm.trans hat.handle)
  have hpath' := hpath
  unfold Names at hpath'
  have hle : p.pointer ≤ (d.data f'.inode).length := hat.pointer ▸ hat.offset
  have hsmall := h.small f'.inode hmem
  have hclone := at_path hpath
  have hdata : d.dataOf (d.inputAtPath s.path) = d.data f'.inode := by
    rw [dataOf, hclone.handle]
    rfl
  have hlength : (d.inputAtPath s.path).length = (d.data f'.inode).length := by
    rw [FSDirectory.inputAtPath, FSDirectory.fileLength, hpath']
    rfl
  have hpointer : toUnsigned (toInt p.pointer) = p.pointer := by
    rw [toInt_natCast (by omega), toUnsigned_natCast (by omega)]
  unfold FSDirectory.copyInput
  simp only [hopen, false_eq_true, if_false, hdata, hat.offset_eq, hpointer]
  refine ⟨trivial, h.addInput fun _ => ⟨⟨f'.inode, p.pointer⟩, hmem, hfile, ?_⟩⟩
  refine hclone.seek ?_
  rw [hlength]
  exact Nat.lt_or_eq_of_le hle

omit [DecidableEq N] in
theorem input (h : Paired ρ L r d) {i : ℕ}
    (hp : r.inputs i = some p) (hs : d.inputs i = some s) (request : InputRequest)
    (hagrees : s.Agrees (d.dataOf s) request) :
    (RAMInputStream.receive (N := N) (p.file.map r.buffers) p.pointer request).2
        = (s.receive (d.dataOf s) request).2
      ∧ Paired ρ L
          { r with inputs := update r.inputs i (some { p with pointer :=
              (RAMInputStream.receive (N := N) (p.file.map r.buffers) p.pointer request).1 }) }
          { d with
            inputs := update d.inputs i (some (s.receive (d.dataOf s) request).1) } := by
  have hsame := h.inputs i
  rw [hp, hs] at hsame
  obtain ⟨hresponse, hstream⟩ : (RAMInputStream.receive (N := N) (p.file.map r.buffers) p.pointer
      request).2 = (s.receive (d.dataOf s) request).2
        ∧ SameInput ρ L d.data
          (some ⟨p.file, (RAMInputStream.receive (N := N) (p.file.map r.buffers) p.pointer
            request).1⟩) (some (s.receive (d.dataOf s) request).1) := by
    by_cases hclosed : s.isClosed = true
    · have hclose : request = .close := by
        cases request with
        | close => rfl
        | offsetInFile => exact absurd hclosed (eq_false_iff.1 hagrees)
        | _ => exact absurd hclosed (eq_false_iff.1 hagrees.1)
      subst hclose
      exact ⟨rfl, fun hfalse => (nomatch (hfalse : true = false))⟩
    · have hopen : s.isClosed = false := by simpa using hclosed
      obtain ⟨f, hmem, hfile, hat⟩ := hsame hopen
      have hram : p.file.map r.buffers = some (d.data f.inode) := by
        rw [hfile, map_some, h.buffers _ hmem]
      have hdata : d.dataOf s = d.data f.inode := by
        rw [dataOf, hat.handle]
        rfl
      rw [hdata] at hagrees ⊢
      rw [hram]
      obtain ⟨hresponse, f', hinode, hat'⟩ := input_same hopen hat (h.small _ hmem) request hagrees
      refine ⟨hresponse, fun _ => ⟨f', hinode ▸ hmem, ?_, ?_⟩⟩
      · rw [hinode]
        exact hfile
      · rwa [hinode]
  refine ⟨hresponse, { h with inputs := fun j => ?_ }⟩
  by_cases hj : j = i
  · subst hj
    simpa only [update_self] using hstream
  · simpa only [update_of_ne hj] using h.inputs j

omit [DecidableEq N] in
theorem setOutput (h : Paired ρ L r d) {i : ℕ} {p : RAMOutputStream} {o : FSIndexOutput N}
    (hsame : SameOutput ρ L (some p) (some o)) :
    Paired ρ L { r with outputs := update r.outputs i (some p) }
      { d with outputs := update d.outputs i (some o) } := by
  refine { h with outputs := fun j => ?_ }
  by_cases hj : j = i
  · subst hj
    simpa only [update_self] using hsame
  · simpa only [update_of_ne hj] using h.outputs j

omit [DecidableEq N] in
theorem write (h : Paired ρ L r d) {inode : ℕ} {bytes : List UInt8} (hmem : inode ∈ L)
    (hsmall : bytes.length < 2 ^ 31) (hgrows : (d.data inode).length ≤ bytes.length) :
    Paired ρ L { r with buffers := update r.buffers (ρ inode) bytes }
      { d with data := update d.data inode bytes } := by
  refine { h with inputs := fun i => ?_, buffers := fun j hj => ?_, small := fun j hj => ?_ }
  · refine (h.inputs i).mono subset_rfl fun s f _ _ _ => ⟨rfl, ?_⟩
    dsimp only
    by_cases hf : f.inode = inode
    · rw [hf, update_self]
      exact hgrows
    · rw [update_of_ne hf]
  · dsimp only
    by_cases hji : j = inode
    · rw [hji, update_self, update_self]
    · have hne : ρ j ≠ ρ inode := fun heq => hji (h.injOn hj hmem heq)
      rw [update_of_ne hji, update_of_ne hne]
      exact h.buffers j hj
  · dsimp only
    by_cases hji : j = inode
    · rw [hji, update_self]
      exact hsmall
    · rw [update_of_ne hji]
      exact h.small j hj

omit [DecidableEq N] in
theorem output (h : Paired ρ L r d) {i : ℕ} {p : RAMOutputStream} {o : FSIndexOutput N}
    (hp : r.outputs i = some p) (ho : d.outputs i = some o) (request : OutputRequest)
    (hagrees : o.Agrees (d.Names o.path o.handle.inode) (d.data o.handle.inode) request) :
    (receive (N := N) (r.buffers p.file) p.pointer request).2
        = (o.receive (d.fileLength o.path) (d.data o.handle.inode) request).2
      ∧ Paired ρ L
          { r with
            buffers := update r.buffers p.file
              (receive (N := N) (r.buffers p.file) p.pointer request).1.1
            outputs := update r.outputs i (some { p with pointer :=
              (receive (N := N) (r.buffers p.file) p.pointer request).1.2 }) }
          { d with
            data := update d.data o.handle.inode
              (o.receive (d.fileLength o.path) (d.data o.handle.inode) request).1.1
            outputs := update d.outputs i
              (some (o.receive (d.fileLength o.path) (d.data o.handle.inode) request).1.2) } := by
  have hsame := h.outputs i
  rw [hp, ho] at hsame
  by_cases hclosed : o.isClosed = true
  · have hclose : request = .close := by
      cases request with
      | close => rfl
      | offsetInFile => exact absurd hclosed (eq_false_iff.1 hagrees)
      | flush => exact absurd hclosed (eq_false_iff.1 hagrees)
      | _ => exact absurd hclosed (eq_false_iff.1 hagrees.1)
    subst hclose
    refine ⟨rfl, ?_⟩
    simp only [receive, FSIndexOutput.receive, update_eq_self]
    exact h.setOutput fun hfalse => (nomatch (hfalse : true = false))
  · have hopen : o.isClosed = false := by simpa using hclosed
    obtain ⟨hmem, hfile, hpointer, hoffset⟩ := hsame hopen
    have hsize : d.Names o.path o.handle.inode →
        d.fileLength o.path = (d.data o.handle.inode).length := by
      intro hnames
      rw [FSDirectory.fileLength, hnames]
      rfl
    rw [hfile, h.buffers _ hmem, hpointer]
    obtain ⟨hresponse, hbytes, hpointer', hoffset', hinode, hsmall, hgrows⟩ :=
      output_same hopen hoffset (h.small _ hmem) hsize request hagrees
    refine ⟨hresponse, ?_⟩
    rw [hbytes, hpointer']
    refine (h.write hmem hsmall hgrows).setOutput fun _ => ⟨?_, by rw [hinode], rfl, hoffset'⟩
    rw [hinode]
    exact hmem

end Paired

section Run

variable [DecidableEq N]

theorem respond_eq (r : RAMDirectory N) (d : FSDirectory N) (request : StoreRequest N)
    (h : ∃ ρ L, Paired ρ L r d) (hagrees : d.Agrees request) :
    (r.respond request).2 = (d.respond request).2
      ∧ ∃ ρ L, Paired ρ L (r.respond request).1 (d.respond request).1 := by
  obtain ⟨ρ, L, h⟩ := h
  cases request with
  | fileList =>
    refine ⟨?_, ρ, L, h⟩
    exact congrArg Response.names (funext h.isSome_files)
  | fileExists name => exact ⟨congrArg Response.flag (h.isSome_files name), ρ, L, h⟩
  | fileLength name => exact ⟨congrArg Response.number (h.fileLength name), ρ, L, h⟩
  | deleteFile name => exact ⟨rfl, ρ, L, h.deleteFile name⟩
  | renameFile old new =>
    obtain ⟨hresponse, hpaired⟩ := h.renameFile new hagrees
    exact ⟨hresponse, ρ, L, hpaired⟩
  | createOutput name =>
    refine ⟨rfl, ?_⟩
    change ∃ ρ L, Paired ρ L _ (d.createOutput name)
    unfold createOutput
    rcases hname : d.files name with _ | inode
    · refine ⟨_, _, h.createOutput ?_ ?_ (update_self ..)
        (fun j hj => update_of_ne hj ..) (Nat.lt_succ_self d.count) (Nat.le_succ _)⟩
      · exact fun hopen => (h.fresh _ (h.mem_of_isOpen hopen)).1.ne rfl
      · exact fun a ha => absurd rfl (h.fresh _ (h.named a _ ha)).1.ne
    · obtain ⟨hempty, hopen⟩ := hagrees inode hname
      have hpaired := h.createOutput hopen (fun a ha => h.single a name inode ha hname) hempty
        (fun _ _ => rfl) (h.fresh _ (h.named name _ hname)).1 le_rfl
      have hfiles : update d.files name (some inode) = d.files := by
        rw [← hname, update_eq_self]
      rw [hfiles] at hpaired
      exact ⟨_, _, hpaired⟩
  | openInput name =>
    have hsome : (d.files name).isSome := hagrees
    simp only [RAMDirectory.respond, respond, hsome, if_true]
    exact ⟨trivial, ρ, L, h.openInput hsome⟩
  | output i request =>
    have hsame := h.outputs i
    rcases hp : r.outputs i with _ | p <;> rcases ho : d.outputs i with _ | o <;>
      rw [hp, ho] at hsame
    · simp only [RAMDirectory.respond, respond, hp, ho]
      exact ⟨trivial, ρ, L, h⟩
    · exact hsame.elim
    · exact hsame.elim
    · obtain ⟨hresponse, hpaired⟩ := h.output hp ho request (hagrees o ho)
      simp only [RAMDirectory.respond, respond, hp, ho]
      exact ⟨hresponse, ρ, L, hpaired⟩
  | input i request =>
    have hsame := h.inputs i
    rcases hp : r.inputs i with _ | p <;> rcases hs : d.inputs i with _ | s <;>
      rw [hp, hs] at hsame
    · simp only [RAMDirectory.respond, respond, hp, hs]
      exact ⟨trivial, ρ, L, h⟩
    · exact hsame.elim
    · exact hsame.elim
    · obtain ⟨hresponse, hpaired⟩ := h.input hp hs request (hagrees s hs)
      simp only [RAMDirectory.respond, respond, hp, hs]
      exact ⟨hresponse, ρ, L, hpaired⟩
  | copyInput i =>
    have hsame := h.inputs i
    rcases hp : r.inputs i with _ | p <;> rcases hs : d.inputs i with _ | s <;>
      rw [hp, hs] at hsame
    · simp only [RAMDirectory.respond, respond, hp, hs]
      exact ⟨trivial, ρ, L, h⟩
    · exact hsame.elim
    · exact hsame.elim
    · obtain ⟨hopen, hnames⟩ := hagrees s hs
      obtain ⟨hresponse, hpaired⟩ := h.copyInput hp hs hopen hnames
      simp only [RAMDirectory.respond, respond, hp, hs]
      exact ⟨hresponse.symm, ρ, L, hpaired⟩

/-- In a run whose requests are all made where the file system behaves as memory does, the
directories answer alike. -/
theorem directories_interchangeable (requests : List (StoreRequest N))
    (h : MeetsAlong respond Agrees .empty requests) :
    responses RAMDirectory.respond .empty requests
      = responses respond .empty requests :=
  responses_eq respond_eq requests .empty .empty ⟨id, ∅, .empty⟩ h

end Run

def writeAndRead : List (StoreRequest ℕ) :=
  [.createOutput 0, .output 0 (.writeBytes [7, 8] 2), .output 0 .close, .openInput 0,
    .input 0 .readByte, .input 0 .readByte, .fileLength 0]

theorem directories_interchangeable_writeAndRead :
    responses RAMDirectory.respond .empty writeAndRead
      = responses respond .empty writeAndRead :=
  directories_interchangeable writeAndRead (by
    refine ⟨?_, ?_, ?_, rfl, ?_, ?_, trivial, trivial⟩
    · rintro inode ⟨⟩
    · rintro o ⟨⟩
      exact ⟨rfl, fun _ => .inr ⟨le_rfl, by decide⟩, fun hlt => absurd hlt (by decide)⟩
    · rintro o ⟨⟩
      trivial
    · rintro s ⟨⟩
      exact ⟨rfl, by decide⟩
    · rintro s ⟨⟩
      exact ⟨rfl, by decide⟩)

/-- A file of two bytes is created again: in the file system it keeps them. -/
theorem directories_not_interchangeable :
    ¬ ∀ requests : List (StoreRequest ℕ), responses RAMDirectory.respond .empty requests
      = responses respond .empty requests := by
  intro hall
  have h := hall [.createOutput 0, .output 0 (.writeBytes [7, 8] 2), .createOutput 0, .fileLength 0]
  have hram : (responses (RAMDirectory.respond (N := ℕ)) .empty [.createOutput 0,
      .output 0 (.writeBytes [7, 8] 2), .createOutput 0, .fileLength 0])[3]?
        = some (.number 0) := rfl
  have hfs : (responses (respond (N := ℕ)) .empty [.createOutput 0,
      .output 0 (.writeBytes [7, 8] 2), .createOutput 0, .fileLength 0])[3]?
        = some (.number 2) := rfl
  rw [h, hfs] at hram
  cases hram

end Etoile.Lucene
