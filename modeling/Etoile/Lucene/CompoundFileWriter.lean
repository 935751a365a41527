import Etoile.Lucene.Interchange
import Etoile.Lucene.StreamValues

/-!
# The writer of compound files

A compound file has a directory of the names and places of its files, and their bytes one after
another.  The places are only known after the files are copied, and are then written over the zeros
that were left for them.

The number of bytes to copy is an `int`, so that a file of `2 ^ 31` bytes or more is not copied, or
only its beginning.
-/

namespace Etoile.Lucene.Compound

open List Nat

inductive Kind
  | memory
  | fileSystem

inductive Output
  | memory (buffers : List UInt8) (pointer : ℤ)
  | fileSystem (data : List UInt8) (o : FSIndexOutput NSString)

namespace Output

def receive : Output → OutputRequest → Output × Response NSString
  | .memory buffers pointer, request =>
    let r := RAMOutputStream.receive buffers pointer request
    (.memory r.1.1 r.1.2, r.2)
  | .fileSystem data o, request =>
    let r := o.receive data.length data request
    (.fileSystem r.1.1 r.1.2, r.2)

/-- `-createOutput:`, which in the file system opens a file that exists as it is. -/
def create (name : NSString) (old : List UInt8) : Kind → Output
  | .memory => .memory [] 0
  | .fileSystem => .fileSystem old ⟨name, ⟨0, 0⟩, false⟩

def data : Output → List UInt8
  | .memory buffers _ => buffers
  | .fileSystem data _ => data

end Output

/-- An input stream, whose file has the same bytes as long as it is read. -/
inductive Input
  | memory (pointer : ℕ)
  | fileSystem (i : FSIndexInput NSString)

namespace Input

def receive (data : List UInt8) : Input → InputRequest → Input × Response NSString
  | .memory pointer, request =>
    let r := RAMInputStream.receive (some data) pointer request
    (.memory r.1, r.2)
  | .fileSystem i, request =>
    let r := i.receive data request
    (.fileSystem r.1, r.2)

def openAt (name : NSString) (data : List UInt8) (pointer : ℕ) : Kind → Input
  | .memory => .memory pointer
  | .fileSystem => .fileSystem ⟨name, some ⟨0, pointer⟩, data.length, false⟩

def openInput (name : NSString) (data : List UInt8) (kind : Kind) : Input :=
  openAt name data 0 kind

/-- `-readBytes:offset:length:`.  A negative length is the one of a very long range; in memory it is
cut to the file if the sum with the pointer is negative too. -/
def readBytes (data : List UInt8) (i : Input) (b : List UInt8) (offset : ℕ) (len : ℤ) :
    Input × Response NSString :=
  match i with
  | .memory pointer =>
    if len < 0 ∧ -len ≤ pointer then (.memory pointer, .raised)
    else receive data (.memory pointer) (.readBytes b offset (toUnsigned len))
  | .fileSystem i => receive data (.fileSystem i) (.readBytes b offset (toUnsigned len))

/-- `-copyWithZone:`; in the file system the path is opened again. -/
def copy (data : List UInt8) : Input → Input
  | .memory pointer => .memory (toUnsigned (toInt pointer))
  | .fileSystem i => .fileSystem
      (FSIndexInput.seekToFileOffset data ⟨i.path, some ⟨0, 0⟩, data.length, false⟩ i.offset)

end Input

/-- What is done with an output stream; `none` if it raises. -/
abbrev Writing := StateT Output Option

def send (request : OutputRequest) : Writing (Response NSString) := fun o =>
  match o.receive request with
  | (_, .raised) => none
  | (o, response) => some (response, o)

/-- The range of a negative length is beyond any data.  In memory no range is taken behind the
end. -/
def writeBytes (b : List UInt8) (len : ℤ) : Writing Unit :=
  if len < 0 then fun
    | .memory buffers pointer =>
      if buffers.length < toUnsigned pointer then
        some ((), .memory buffers (toInt (pointer + len)))
      else none
    | .fileSystem _ _ => none
  else do
    let _ ← send (.writeBytes b len.toNat)

/-- `-writeByte:` for each of the bytes. -/
def writeEach : List UInt8 → Writing Unit
  | [] => return ()
  | b :: bytes => do
    let _ ← send (.writeBytes [b] 1)
    writeEach bytes

def offsetInFile : Writing ℕ := do
  match ← send .offsetInFile with
  | .number n => return n
  | _ => fun _ => none

structure LCWriterFileEntry where
  file : NSString
  directoryOffset : ℕ
  dataOffset : ℕ

def writeDirectory : List NSString → Writing (List LCWriterFileEntry)
  | [] => return []
  | file :: files => do
    let directoryOffset ← offsetInFile
    writeEach (writeLong 0)
    writeEach (IndexOutput.writeString file)
    let entries ← writeDirectory files
    return ⟨file, directoryOffset, 0⟩ :: entries

section Files

variable (kind : Kind) (contents : NSString → List UInt8)

/-- That the offsets do not differ by the length afterwards is only reported. -/
def copyFile (source : LCWriterFileEntry) : Writing Unit :=
  let data := contents source.file
  let length := toInt data.length
  match ((Input.openInput source.file data kind).readBytes data [] 0 length).2 with
  | .bytes buffer => writeBytes buffer length
  | _ => fun _ => none

def copyFiles : List LCWriterFileEntry → Writing (List LCWriterFileEntry)
  | [] => return []
  | fe :: entries => do
    let dataOffset ← offsetInFile
    copyFile kind contents fe
    let entries ← copyFiles entries
    return { fe with dataOffset := dataOffset } :: entries

def writeOffsets : List LCWriterFileEntry → Writing Unit
  | [] => return ()
  | fe :: entries => do
    let _ ← send (.seekToFileOffset fe.directoryOffset)
    writeEach (writeLong fe.dataOffset)
    writeOffsets entries

def merge (files : List NSString) : Writing Unit := do
  writeEach (IndexOutput.writeVInt files.length)
  let entries ← writeDirectory files
  let entries ← copyFiles kind contents entries
  writeOffsets entries
  let _ ← send .close

end Files

structure LCCompoundFileWriter where
  entries : List NSString
  merged : Bool

namespace LCCompoundFileWriter

def new : LCCompoundFileWriter where
  entries := []
  merged := false

variable (w : LCCompoundFileWriter)

def addFile (file : NSString) : LCCompoundFileWriter :=
  if w.merged then w
  else if file ∈ w.entries then w
  else { w with entries := w.entries ++ [file] }

/-- The bytes of the compound file; there is none if nothing is merged, or if something raises. -/
def close (kind : Kind) (contents : NSString → List UInt8) (fileName : NSString)
    (old : List UInt8) : LCCompoundFileWriter × Option (List UInt8) :=
  if w.merged then (w, none)
  else if w.entries.length = 0 then (w, none)
  else ({ w with merged := true },
    (merge kind contents w.entries (Output.create fileName old kind)).map fun r => r.2.data)

end LCCompoundFileWriter

def Output.Is (kind : Kind) (d : List UInt8) (k : ℕ) : Output → Prop
  | .memory buffers pointer => kind = .memory ∧ buffers = d ∧ pointer = k ∧ k < 2 ^ 31
  | .fileSystem data o => kind = .fileSystem ∧ data = d ∧ o.handle.offset = k ∧ o.isClosed = false

def put (d : List UInt8) (k : ℕ) (b : List UInt8) : List UInt8 :=
  d.take k ++ b ++ d.drop (k + b.length)

section Put

variable {d a b c : List UInt8} {k : ℕ}

theorem put_nil : put d k [] = d := by
  simp [put]

theorem length_put_ge (hk : k ≤ d.length) : k + b.length ≤ (put d k b).length := by
  simp only [put, length_append, length_take, length_drop]
  omega

theorem put_put (hk : k ≤ d.length) : put (put d k a) (k + a.length) b = put d k (a ++ b) := by
  have hlength : (d.take k ++ a).length = k + a.length := by
    rw [length_append, length_take_of_le hk]
  have htake : (put d k a).take (k + a.length) = d.take k ++ a := by
    rw [put, ← hlength, take_left]
  have hdrop : (put d k a).drop (k + a.length + b.length) = d.drop (k + (a ++ b).length) := by
    rw [put, ← drop_drop, ← hlength, drop_left, drop_drop, hlength,
      length_append, add_assoc]
  rw [put, htake, hdrop, put, append_assoc (d.take k)]

theorem put_middle (h : b.length = c.length) : put (a ++ (b ++ d)) a.length c = a ++ (c ++ d) := by
  rw [put, take_left, ← h, ← drop_drop, drop_left, drop_left, append_assoc]

end Put

/-- At the place `k` of a file of the bytes `d`, it raises. -/
def Raises {α : Type} (kind : Kind) (p : Writing α) (d : List UInt8) (k : ℕ) : Prop :=
  ∀ o, Output.Is kind d k o → p o = none

/-- At the place `k` of a file of the bytes `d`, the result is `a`, and the stream is at another
place of other bytes. -/
def Writes {α : Type} (kind : Kind) (p : Writing α) (d : List UInt8) (k : ℕ) (a : α)
    (d' : List UInt8) (k' : ℕ) : Prop :=
  ∀ o, Output.Is kind d k o → ∃ o', p o = some (a, o') ∧ Output.Is kind d' k' o'

section Writes

variable {α β : Type} {kind : Kind} {p : Writing α} {d d' d'' : List UInt8} {k k' k'' : ℕ} {a : α}

variable {f : α → Writing β}

theorem bind_of_some {o o' : Output} (h : p o = some (a, o')) : (p >>= f) o = f a o' := by
  show (p o).bind (fun r => f r.1 r.2) = _
  rw [h, Option.bind_some]

theorem Writes.pure (a : α) : Writes kind (pure a) d k a d k := fun o ho => ⟨o, rfl, ho⟩

theorem Writes.bind {b : β} (hp : Writes kind p d k a d' k')
    (hf : Writes kind (f a) d' k' b d'' k'') : Writes kind (p >>= f) d k b d'' k'' := by
  intro o ho
  obtain ⟨o', hp', ho'⟩ := hp o ho
  obtain ⟨o'', hf', ho''⟩ := hf o' ho'
  exact ⟨o'', (bind_of_some hp').trans hf', ho''⟩

theorem Raises.bind_left (hp : Raises kind p d k) : Raises kind (p >>= f) d k := by
  intro o ho
  show (p o).bind (fun r => f r.1 r.2) = _
  rw [hp o ho, Option.bind_none]

theorem Writes.raises (hp : Writes kind p d k a d' k')
    (hf : Raises kind (f a) d' k') : Raises kind (p >>= f) d k := by
  intro o ho
  obtain ⟨o', hp', ho'⟩ := hp o ho
  exact (bind_of_some hp').trans (hf o' ho')

theorem Writes.send_writeBytes {b : List UInt8} {len : ℕ} (hb : len ≤ b.length) (hk : k ≤ d.length)
    (hfits : kind = .memory → k + len < 2 ^ 31) :
    Writes kind (send (.writeBytes b len)) d k .done (put d k (b.take len)) (k + len) := by
  have hlength : (b.take len).length = len := length_take_of_le hb
  have hput : overwrite d k (b.take len) = put d k (b.take len) := overwrite_of_le hk
  rintro (⟨buffers, pointer⟩ | ⟨data, o⟩)
  · rintro ⟨rfl, rfl, rfl, hlt⟩
    have hwrite := @ram_writeBytes_eq NSString buffers b k len hb hk (hfits rfl)
    refine ⟨.memory (put buffers k (b.take len)) ((k + len : ℕ) : ℤ), ?_, rfl, rfl, rfl, hfits rfl⟩
    simp only [send, Output.receive, RAMOutputStream.receive, hwrite, hput]
  · rintro ⟨rfl, rfl, rfl, hopen⟩
    refine ⟨.fileSystem (put data o.handle.offset (b.take len))
      { o with handle := ⟨o.handle.inode, o.handle.offset + len⟩ }, ?_, rfl, rfl, rfl, hopen⟩
    simp [send, Output.receive, FSIndexOutput.receive, hopen, hb, hput]

theorem Writes.writeEach : ∀ {bytes d : List UInt8} {k : ℕ}, k ≤ d.length →
    (kind = .memory → k + bytes.length < 2 ^ 31) →
      Writes kind (writeEach bytes) d k () (put d k bytes) (k + bytes.length)
  | [], d, k, _, _ => by
    rw [put_nil]
    exact Writes.pure ()
  | b :: bytes, d, k, hk, hfits => by
    have hfits' : kind = .memory → k + 1 + bytes.length < 2 ^ 31 := by
      intro hkind
      have := hfits hkind
      rw [length_cons] at this
      omega
    have hfirst := @Writes.send_writeBytes kind d k [b] 1 le_rfl hk
      (fun hkind => by have := hfits' hkind; omega)
    have hle : k + 1 ≤ (put d k [b]).length := @length_put_ge d [b] k hk
    have hrest := @Writes.writeEach bytes _ _ hle hfits'
    have hput : put (put d k [b]) (k + 1) bytes = put d k (b :: bytes) := put_put hk
    have hplace : k + 1 + bytes.length = k + (b :: bytes).length := by
      rw [length_cons]
      omega
    rw [hput, hplace] at hrest
    exact hfirst.bind hrest

theorem Writes.send_offsetInFile : Writes kind (send .offsetInFile) d k (.number k) d k := by
  rintro (⟨buffers, pointer⟩ | ⟨data, o⟩)
  · rintro ⟨rfl, rfl, rfl, hlt⟩
    refine ⟨.memory buffers k, ?_, rfl, rfl, rfl, hlt⟩
    simp only [send, Output.receive, RAMOutputStream.receive,
      toUnsigned_natCast (n := k) (by omega)]
  · rintro ⟨rfl, rfl, rfl, hopen⟩
    refine ⟨.fileSystem data o, ?_, rfl, rfl, rfl, hopen⟩
    simp [send, Output.receive, FSIndexOutput.receive, hopen]

theorem Writes.offsetInFile : Writes kind offsetInFile d k k d k :=
  Writes.send_offsetInFile.bind (Writes.pure k)

theorem Writes.seek {pos : ℕ} (hfits : kind = .memory → pos < 2 ^ 31) :
    Writes kind (send (.seekToFileOffset pos)) d k .done d pos := by
  rintro (⟨buffers, pointer⟩ | ⟨data, o⟩)
  · rintro ⟨rfl, rfl, rfl, hlt⟩
    refine ⟨.memory buffers pos, ?_, rfl, rfl, rfl, hfits rfl⟩
    simp only [send, Output.receive, RAMOutputStream.receive, toInt_natCast (hfits rfl)]
  · rintro ⟨rfl, rfl, rfl, hopen⟩
    refine ⟨.fileSystem data { o with handle := ⟨o.handle.inode, pos⟩ }, ?_, rfl, rfl, rfl, hopen⟩
    simp [send, Output.receive, FSIndexOutput.receive, hopen]

end Writes

def copied (data : List UInt8) : List UInt8 := data.take (toInt data.length).toNat

theorem toInt_length_cases (data : List UInt8) :
    toInt data.length ≤ data.length ∧ toInt data.length < 2 ^ 31 := by
  have hcases := IndexOutput.ofLength_cases data.length
  have heq : toInt data.length = IndexOutput.ofLength data.length := rfl
  omega

theorem length_copied (data : List UInt8) : (copied data).length = (toInt data.length).toNat := by
  have := toInt_length_cases data
  exact length_take_of_le (by omega)

theorem copied_eq {data : List UInt8} (h : data.length < 2 ^ 31) : copied data = data := by
  simp [copied, toInt_natCast h]

theorem Writes.writeBytes {kind : Kind} {d b : List UInt8} {k : ℕ} {len : ℤ} (hlen : 0 ≤ len)
    (hb : len.toNat ≤ b.length) (hk : k ≤ d.length)
    (hfits : kind = .memory → k + len.toNat < 2 ^ 31) :
    Writes kind (writeBytes b len) d k () (put d k (b.take len.toNat)) (k + len.toNat) := by
  unfold Compound.writeBytes
  rw [if_neg (by omega)]
  exact (Writes.send_writeBytes hb hk hfits).bind (Writes.pure ())

section Files

variable {kind : Kind} {contents : NSString → List UInt8} {d : List UInt8} {k : ℕ}

theorem Input.readBytes_natCast {data b : List UInt8} {i : Input} {offset len : ℕ}
    (hlen : len < 2 ^ 64) :
    i.readBytes data b offset len = i.receive data (.readBytes b offset len) := by
  rcases i with pointer | i
  · have hneg : ¬((len : ℤ) < 0 ∧ -(len : ℤ) ≤ pointer) := by omega
    rw [Input.readBytes, if_neg hneg, toUnsigned_natCast hlen]
  · rw [Input.readBytes, toUnsigned_natCast hlen]

theorem receive_openInput {name : NSString} {data : List UInt8} {len : ℕ} :
    ((Input.openInput name data kind).receive data (.readBytes [] 0 len)).2
      = .bytes (data.take len) := by
  cases kind
  · simp [Input.openInput, Input.openAt, Input.receive, RAMInputStream.receive, replaceBytes]
  · simp [Input.openInput, Input.openAt, Input.receive, FSIndexInput.receive, FSIndexInput.offset,
      replaceBytes]

theorem readBytes_openInput {name : NSString} {data : List UInt8} (hlen : 0 ≤ toInt data.length) :
    ((Input.openInput name data kind).readBytes data [] 0 (toInt data.length)).2
      = .bytes (copied data) := by
  have hlt := (toInt_length_cases data).2
  obtain ⟨n, hn⟩ := Int.eq_ofNat_of_zero_le hlen
  rw [hn] at hlt
  rw [copied, hn, Input.readBytes_natCast (by omega), receive_openInput, Int.toNat_natCast]

theorem Writes.copyFile {fe : LCWriterFileEntry} (hlen : 0 ≤ toInt (contents fe.file).length)
    (hk : k ≤ d.length) (hfits : kind = .memory → k + (copied (contents fe.file)).length < 2 ^ 31) :
    Writes kind (copyFile kind contents fe) d k () (put d k (copied (contents fe.file)))
      (k + (copied (contents fe.file)).length) := by
  have hcopied := length_copied (contents fe.file)
  have hwrite := @Writes.writeBytes kind d (copied (contents fe.file)) k _ hlen hcopied.ge hk
    (by rwa [← hcopied])
  rw [← hcopied, take_length] at hwrite
  simp only [Compound.copyFile, readBytes_openInput hlen]
  exact hwrite

end Files

def entry (offset : ℕ) (file : NSString) : List UInt8 :=
  writeLong offset ++ IndexOutput.writeString file

def blank (files : List NSString) : List UInt8 := files.flatMap (entry 0)

def directory (stored : NSString → List UInt8) : ℕ → List NSString → List UInt8
  | _, [] => []
  | k, file :: files => entry k file ++ directory stored (k + (stored file).length) files

/-- The bytes of a compound file in which the files have the bytes `stored`. -/
def archive (stored : NSString → List UInt8) (files : List NSString) : List UInt8 :=
  let count := IndexOutput.writeVInt files.length
  count ++ (directory stored (count ++ blank files).length files ++ files.flatMap stored)

def placed : ℕ → List NSString → List LCWriterFileEntry
  | _, [] => []
  | k, file :: files => ⟨file, k, 0⟩ :: placed (k + (entry 0 file).length) files

def located (stored : NSString → List UInt8) : ℕ → List LCWriterFileEntry → List LCWriterFileEntry
  | _, [] => []
  | k, fe :: entries =>
    { fe with dataOffset := k } :: located stored (k + (stored fe.file).length) entries

theorem length_entry (m n : ℕ) (file : NSString) :
    (entry m file).length = (entry n file).length := by
  simp [entry]

theorem length_directory {stored : NSString → List UInt8} : ∀ (files : List NSString) (k : ℕ),
    (directory stored k files).length = (blank files).length
  | [], _ => rfl
  | file :: files, k => by
    have hrest := @length_directory stored files (k + (stored file).length)
    simp only [blank] at hrest
    simp only [directory, blank, flatMap_cons, length_append, hrest, length_entry k 0]

theorem map_file_placed : ∀ (files : List NSString) (k : ℕ),
    (placed k files).map LCWriterFileEntry.file = files
  | [], _ => rfl
  | file :: files, k => by
    simp only [placed, map_cons, map_file_placed files]

section Files

variable {kind : Kind} {contents : NSString → List UInt8}

theorem Writes.writeDirectory : ∀ {files : List NSString} {d : List UInt8} {k : ℕ}, k ≤ d.length →
    (kind = .memory → k + (blank files).length < 2 ^ 31) →
      Writes kind (writeDirectory files) d k (placed k files) (put d k (blank files))
        (k + (blank files).length)
  | [], d, k, _, _ => by
    rw [blank, flatMap_nil, put_nil]
    exact Writes.pure []
  | file :: files, d, k, hk, hfits => by
    have hblank : blank (file :: files) = entry 0 file ++ blank files := flatMap_cons
    rw [hblank, length_append] at hfits
    have hlong : (entry 0 file).length
        = (writeLong 0).length + (IndexOutput.writeString file).length := length_append
    have hzero : Writes kind (Compound.writeEach (writeLong 0)) d k () (put d k (writeLong 0))
        (k + (writeLong 0).length) :=
      Writes.writeEach hk (fun hkind => by have := hfits hkind; omega)
    have hname := @Writes.writeEach kind (IndexOutput.writeString file) _ _
      (length_put_ge (b := writeLong 0) hk) (fun hkind => by have := hfits hkind; omega)
    rw [put_put hk, add_assoc, ← hlong] at hname
    have hrest := @Writes.writeDirectory files _ _ (length_put_ge (b := entry 0 file) hk)
      (fun hkind => by have := hfits hkind; omega)
    rw [put_put hk, add_assoc, ← length_append, ← hblank] at hrest
    exact Writes.offsetInFile.bind (hzero.bind (hname.bind (hrest.bind (Writes.pure _))))

def stored (contents : NSString → List UInt8) (file : NSString) : List UInt8 :=
  copied (contents file)

variable {d : List UInt8}

theorem Writes.copyFiles {entries : List LCWriterFileEntry} {k : ℕ}
    (hlen : ∀ fe ∈ entries, 0 ≤ toInt (contents fe.file).length) (hk : k ≤ d.length)
    (hfits : kind = .memory →
      k + ((entries.map LCWriterFileEntry.file).flatMap (stored contents)).length < 2 ^ 31) :
    Writes kind (copyFiles kind contents entries) d k (located (stored contents) k entries)
      (put d k ((entries.map LCWriterFileEntry.file).flatMap (stored contents)))
      (k + ((entries.map LCWriterFileEntry.file).flatMap (stored contents)).length) := by
  induction entries generalizing d k with
  | nil =>
    rw [map_nil, flatMap_nil, put_nil]
    exact Writes.pure []
  | cons fe entries ih =>
    rw [forall_mem_cons] at hlen
    rw [map_cons, flatMap_cons, length_append] at hfits ⊢
    have hfile : Writes kind (Compound.copyFile kind contents fe) d k ()
        (put d k (stored contents fe.file)) (k + (stored contents fe.file).length) :=
      Writes.copyFile hlen.1 hk fun hkind => by
        have := hfits hkind
        rw [stored] at this
        omega
    have hrest := ih hlen.2 (length_put_ge (b := stored contents fe.file) hk)
      (fun hkind => by have := hfits hkind; omega)
    rw [put_put hk, add_assoc] at hrest
    exact Writes.offsetInFile.bind (hfile.bind (hrest.bind (Writes.pure _)))

theorem Raises.copyFile {fe : LCWriterFileEntry} {d : List UInt8} {k : ℕ}
    (hlt : toInt (contents fe.file).length < 0) :
    Raises .fileSystem (copyFile .fileSystem contents fe) d k := by
  unfold Compound.copyFile
  dsimp only
  split
  · rw [Compound.writeBytes, if_pos hlt]
    rintro (_ | _) ho
    · exact absurd ho.1 nofun
    · rfl
  · exact fun _ _ => rfl

theorem Raises.copyFiles : ∀ {entries : List LCWriterFileEntry} {d : List UInt8} {k : ℕ},
    (∃ fe ∈ entries, toInt (contents fe.file).length < 0) → k ≤ d.length →
      Raises .fileSystem (copyFiles .fileSystem contents entries) d k
  | fe :: entries, d, k, hneg, hk => by
    refine Writes.offsetInFile.raises ?_
    rcases lt_or_ge (toInt (contents fe.file).length) 0 with hlt | hge
    · exact Raises.bind_left (Raises.copyFile hlt)
    · have hrest : ∃ fe ∈ entries, toInt (contents fe.file).length < 0 := by
        obtain ⟨fe', hmem, hlt⟩ := hneg
        rcases mem_cons.1 hmem with rfl | hmem
        · omega
        · exact ⟨fe', hmem, hlt⟩
      have hfile := @Writes.copyFile .fileSystem _ _ _ _ hge hk nofun
      exact hfile.raises (Raises.bind_left (Raises.copyFiles hrest (length_put_ge hk)))

theorem Writes.writeOffsets {stored : NSString → List UInt8} {c : List UInt8} :
    ∀ {files : List NSString} {a : List UInt8} {k n : ℕ},
      (kind = .memory → (a ++ blank files).length < 2 ^ 31) →
        ∃ k', Writes kind (writeOffsets (located stored n (placed a.length files)))
          (a ++ (blank files ++ c)) k () (a ++ (directory stored n files ++ c)) k'
  | [], a, k, n, _ => ⟨k, Writes.pure ()⟩
  | file :: files, a, k, n, hfits => by
    have hblank : blank (file :: files) = entry 0 file ++ blank files := flatMap_cons
    have hlength : (a ++ entry n file).length = a.length + (entry 0 file).length := by
      rw [length_append, length_entry n 0]
    have hlong : (writeLong (0 : ℕ)).length = (writeLong n).length := by simp
    rw [hblank, ← append_assoc, length_append] at hfits
    obtain ⟨k', hrest⟩ := @Writes.writeOffsets stored c files (a ++ entry n file)
      (a.length + (writeLong n).length) (n + (stored file).length) (fun hkind => by
        have := hfits hkind
        rw [length_append] at this
        rw [length_append, hlength]
        exact this)
    rw [hlength] at hrest
    have hseek : Writes kind (send (.seekToFileOffset a.length))
        (a ++ (blank (file :: files) ++ c)) k .done (a ++ (blank (file :: files) ++ c)) a.length :=
      Writes.seek fun hkind => by have := hfits hkind; rw [length_append] at this; omega
    have hpatch := @Writes.writeEach kind (writeLong n) (a ++ (blank (file :: files) ++ c)) a.length
      (by rw [length_append]; omega) (fun hkind => by
        have := hfits hkind
        rw [length_append, entry, length_append, hlong] at this
        omega)
    have hput : put (a ++ (blank (file :: files) ++ c)) a.length (writeLong n)
        = a ++ entry n file ++ (blank files ++ c) := by
      rw [hblank, entry, append_assoc, append_assoc, put_middle hlong]
      simp only [entry, append_assoc]
    rw [hput] at hpatch
    refine ⟨k', ?_⟩
    have hdone : a ++ (directory stored n (file :: files) ++ c)
        = a ++ entry n file ++ (directory stored (n + (stored file).length) files ++ c) := by
      simp only [directory, append_assoc]
    rw [hdone]
    exact hseek.bind (hpatch.bind hrest)

theorem send_close (o : Output) : ∃ o', send .close o = some (.done, o') ∧ o'.data = o.data := by
  rcases o with ⟨buffers, pointer⟩ | ⟨data, o⟩
  · exact ⟨_, rfl, rfl⟩
  · exact ⟨_, rfl, rfl⟩

theorem Output.Is.data {k : ℕ} : ∀ {o : Output}, Output.Is kind d k o → o.data = d
  | .memory _ _, ho => ho.2.1
  | .fileSystem _ _, ho => ho.2.1

theorem put_zero {d b : List UInt8} : put d 0 b = b ++ d.drop b.length := by
  rw [put, take_zero, nil_append, zero_add]

theorem length_archive {stored : NSString → List UInt8} {files : List NSString} :
    (archive stored files).length = (IndexOutput.writeVInt files.length).length
      + (blank files).length + (files.flatMap stored).length := by
  simp only [archive, length_append, length_directory]
  omega

section Start

variable {d b : List UInt8} {files : List NSString}

theorem Writes.first (hfits : kind = .memory → b.length < 2 ^ 31) :
    Writes kind (Compound.writeEach b) d 0 () (put d 0 b) b.length := by
  have hfirst := @Writes.writeEach kind b _ _ (zero_le d.length) (by rwa [zero_add])
  rwa [zero_add] at hfirst

theorem Writes.second (hfits : kind = .memory → b.length + (blank files).length < 2 ^ 31) :
    Writes kind (Compound.writeDirectory files) (put d 0 b) b.length (placed b.length files)
      (put d 0 (b ++ blank files)) (b ++ blank files).length := by
  have hd : 0 ≤ d.length := zero_le _
  have hle : b.length ≤ (put d 0 b).length := by
    have := length_put_ge (b := b) hd
    rwa [zero_add] at this
  have hput := put_put (a := b) (b := blank files) hd
  have hsecond := Writes.writeDirectory hle hfits
  rw [zero_add] at hput
  rwa [hput, ← length_append] at hsecond

theorem Writes.third (hlen : ∀ file ∈ files, 0 ≤ toInt (contents file).length)
    (hfits : kind = .memory →
      b.length + (files.flatMap (Compound.stored contents)).length < 2 ^ 31) (m : ℕ) :
    Writes kind (Compound.copyFiles kind contents (placed m files)) (put d 0 b) b.length
      (located (Compound.stored contents) b.length (placed m files))
      (put d 0 (b ++ files.flatMap (Compound.stored contents)))
      (b ++ files.flatMap (Compound.stored contents)).length := by
  have hd : 0 ≤ d.length := zero_le _
  have hle : b.length ≤ (put d 0 b).length := by
    have := length_put_ge (b := b) hd
    rwa [zero_add] at this
  have hput := put_put (a := b) (b := files.flatMap (Compound.stored contents)) hd
  rw [zero_add] at hput
  have hfiles := map_file_placed files m
  have hentries : ∀ fe ∈ placed m files, 0 ≤ toInt (contents fe.file).length := by
    intro fe hmem
    refine hlen _ ?_
    rw [← hfiles]
    exact mem_map_of_mem hmem
  have hthird := Writes.copyFiles hentries hle (by rwa [hfiles])
  rwa [hfiles, hput, ← length_append] at hthird

end Start

/-- The bytes of the compound file, and what is left of the file that it replaces. -/
theorem merge_eq {files : List NSString} {o : Output} (ho : Output.Is kind d 0 o)
    (hlen : ∀ file ∈ files, 0 ≤ toInt (contents file).length)
    (hfits : kind = .memory → (archive (stored contents) files).length < 2 ^ 31) :
    (merge kind contents files o).map (fun r => r.2.data)
      = some (archive (stored contents) files
        ++ d.drop (archive (stored contents) files).length) := by
  have hlength : (IndexOutput.writeVInt files.length ++ blank files
      ++ files.flatMap (stored contents)).length = (archive (stored contents) files).length := by
    rw [length_archive, length_append, length_append]
  have hsum := @length_archive (stored contents) files
  have hfirst := @Writes.first kind d (IndexOutput.writeVInt files.length)
    (fun hkind => by have := hfits hkind; omega)
  have hsecond := @Writes.second kind d (IndexOutput.writeVInt files.length) files
    (fun hkind => by have := hfits hkind; omega)
  have hthird := @Writes.third kind _ d (IndexOutput.writeVInt files.length ++ blank files) _ hlen
    (fun hkind => by have := hfits hkind; rw [length_append]; omega)
    (IndexOutput.writeVInt files.length).length
  have hput : put d 0 (IndexOutput.writeVInt files.length ++ blank files
      ++ files.flatMap (stored contents)) = IndexOutput.writeVInt files.length ++ (blank files
      ++ (files.flatMap (stored contents) ++ d.drop (archive (stored contents) files).length)) := by
    rw [put_zero, hlength, append_assoc, append_assoc]
  rw [hput, hlength] at hthird
  obtain ⟨k', hoffsets⟩ := @Writes.writeOffsets kind (stored contents)
    (files.flatMap (stored contents) ++ d.drop (archive (stored contents) files).length) files
    (IndexOutput.writeVInt files.length) (archive (stored contents) files).length
    (IndexOutput.writeVInt files.length ++ blank files).length
    (fun hkind => by have := hfits hkind; rw [length_append]; omega)
  have hrun : Writes kind (Compound.writeEach (IndexOutput.writeVInt files.length) >>= fun _ =>
      Compound.writeDirectory files >>= fun entries =>
      Compound.copyFiles kind contents entries >>= Compound.writeOffsets) d 0 () _ k' :=
    hfirst.bind (hsecond.bind (hthird.bind hoffsets))
  obtain ⟨o', hmerged, ho'⟩ := hrun o ho
  obtain ⟨o'', hclose, hdata⟩ := send_close o'
  have hmerge : merge kind contents files o = some ((), o'') := by
    have hassoc : merge kind contents files
        = (Compound.writeEach (IndexOutput.writeVInt files.length) >>= fun _ =>
          Compound.writeDirectory files >>= fun entries =>
          Compound.copyFiles kind contents entries >>= Compound.writeOffsets)
          >>= fun _ => send .close >>= fun _ => Pure.pure () := by
      simp only [merge, bind_assoc]
    rw [hassoc, bind_of_some hmerged, bind_of_some hclose]
    rfl
  rw [hmerge, Option.map_some, hdata, ho'.data, archive]
  simp only [append_assoc]

theorem merge_none {files : List NSString} {o : Output}
    (ho : Output.Is .fileSystem d 0 o) (hneg : ∃ file ∈ files, toInt (contents file).length < 0) :
    merge .fileSystem contents files o = none := by
  have hfirst := @Writes.first .fileSystem d (IndexOutput.writeVInt files.length) nofun
  have hsecond := @Writes.second .fileSystem d (IndexOutput.writeVInt files.length) files nofun
  have hle := length_put_ge (d := d) (b := IndexOutput.writeVInt files.length ++ blank files)
    (zero_le _)
  rw [zero_add] at hle
  have hentries : ∃ fe ∈ placed (IndexOutput.writeVInt files.length).length files,
      toInt (contents fe.file).length < 0 := by
    obtain ⟨file, hmem, hlt⟩ := hneg
    rw [← map_file_placed files (IndexOutput.writeVInt files.length).length] at hmem
    obtain ⟨fe, hfe, rfl⟩ := mem_map.1 hmem
    exact ⟨fe, hfe, hlt⟩
  exact hfirst.raises (hsecond.raises (Raises.bind_left (Raises.copyFiles hentries hle))) o ho

end Files

namespace LCCompoundFileWriter

variable {files : List NSString} {kind : Kind} {contents : NSString → List UInt8}
  {fileName : NSString} {old : List UInt8}

def adding (files : List NSString) : LCCompoundFileWriter := files.foldl addFile new

theorem foldl_addFile : ∀ {files : List NSString} {entries : List NSString},
    (entries ++ files).Nodup →
      files.foldl addFile ⟨entries, false⟩ = ⟨entries ++ files, false⟩
  | [], entries, _ => by rw [append_nil]; rfl
  | file :: files, entries, h => by
    have hnew : file ∉ entries := by
      rw [nodup_append] at h
      exact fun hmem => h.2.2 file hmem file mem_cons_self rfl
    have hadd : addFile ⟨entries, false⟩ file = ⟨entries ++ [file], false⟩ := by
      simp [addFile, hnew]
    rw [append_cons] at h ⊢
    rw [foldl_cons, hadd, foldl_addFile h]

theorem adding_eq (h : files.Nodup) : adding files = ⟨files, false⟩ := foldl_addFile h

/-- What of the file that is there already lies behind the bytes of the compound file. -/
def rest (kind : Kind) (old : List UInt8) (size : ℕ) : List UInt8 :=
  match kind with
  | .memory => []
  | .fileSystem => old.drop size

theorem is_create : Output.Is kind (match kind with | .memory => [] | .fileSystem => old) 0
    (Output.create fileName old kind) := by
  cases kind
  · exact ⟨rfl, rfl, rfl, by omega⟩
  · exact ⟨rfl, rfl, rfl, rfl⟩

theorem close_adding (hfiles : files.Nodup) (hne : files ≠ []) :
    ((adding files).close kind contents fileName old).2
      = (merge kind contents files (Output.create fileName old kind)).map fun r => r.2.data := by
  have hlength : ¬ files.length = 0 := fun h => hne (length_eq_zero_iff.1 h)
  simp only [close, adding_eq hfiles, Bool.false_eq_true, if_false, hlength]

theorem close_eq (hfiles : files.Nodup) (hne : files ≠ [])
    (hlen : ∀ file ∈ files, 0 ≤ toInt (contents file).length)
    (hfits : kind = .memory → (archive (stored contents) files).length < 2 ^ 31) :
    ((adding files).close kind contents fileName old).2
      = some (archive (stored contents) files
        ++ rest kind old (archive (stored contents) files).length) := by
  rw [close_adding hfiles hne, merge_eq is_create hlen hfits]
  cases kind
  · simp [rest]
  · rfl

theorem close_none (hfiles : files.Nodup) (hne : files ≠ [])
    (hneg : ∃ file ∈ files, toInt (contents file).length < 0) :
    ((adding files).close .fileSystem contents fileName old).2 = none := by
  rw [close_adding hfiles hne, merge_none (@is_create _ _ old) hneg, Option.map_none]

end LCCompoundFileWriter

end Etoile.Lucene.Compound
