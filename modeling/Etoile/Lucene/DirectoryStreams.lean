import Mathlib.Algebra.Group.Nat.Defs
import Mathlib.Algebra.Group.Int.Defs
import Etoile.Lib.Responses
import Mathlib.Data.Int.Basic

/-!
# Directories and their streams

`LCRAMDirectory` and `LCFSDirectory` with the streams they open, as two machines that answer the
same requests.  The file system keeps the bytes of a file as long as a handle is open on it, under
whatever name; `N` are the names of files in the directory.
-/

namespace Etoile.Lucene

open Function

variable {N : Type*}

inductive Response (N : Type*)
  | done
  | nothing
  | raised
  | stream
  | flag (b : Bool)
  | number (n : ℕ)
  | byte (b : UInt8)
  /-- A byte that the code never sets. -/
  | unset
  | bytes (b : List UInt8)
  | names (listed : N → Bool)

inductive OutputRequest
  | writeBytes (b : List UInt8) (len : ℕ)
  | seekToFileOffset (pos : ℕ)
  | offsetInFile
  | length
  | flush
  | close

inductive InputRequest
  | readByte
  | readBytes (b : List UInt8) (offset len : ℕ)
  | seekToFileOffset (pos : ℕ)
  | offsetInFile
  | length
  | close

inductive StoreRequest (N : Type*)
  | fileList
  | fileExists (name : N)
  | fileLength (name : N)
  | deleteFile (name : N)
  | renameFile (old new : N)
  | createOutput (name : N)
  | openInput (name : N)
  | output (i : ℕ) (request : OutputRequest)
  | input (i : ℕ) (request : InputRequest)
  | copyInput (i : ℕ)

/-- `-replaceBytesInRange:withBytes:`, which raises for a range that starts behind the end. -/
def replaceBytes (b : List UInt8) (offset : ℕ) (bytes : List UInt8) : Response N :=
  if offset ≤ b.length then .bytes (b.take offset ++ bytes ++ b.drop (offset + bytes.length))
  else .raised

/-- Conversion to `int`. -/
def toInt (i : ℤ) : ℤ := i.bmod (2 ^ 32)

/-- Conversion to `unsigned long long`. -/
def toUnsigned (i : ℤ) : ℕ := (i % 2 ^ 64).toNat

theorem toUnsigned_natCast {n : ℕ} (h : n < 2 ^ 64) : toUnsigned (n : ℤ) = n := by
  unfold toUnsigned
  omega

theorem toInt_natCast {n : ℕ} (h : n < 2 ^ 31) : toInt (n : ℤ) = n := by
  unfold toInt
  exact Int.bmod_eq_of_le (by omega) (by omega)

structure RAMOutputStream where
  file : ℕ
  pointer : ℤ

structure RAMInputStream where
  file : Option ℕ
  pointer : ℕ

/-- The files by name, the bytes of every file object, and the streams. -/
structure RAMDirectory (N : Type*) where
  files : N → Option ℕ
  buffers : ℕ → List UInt8
  count : ℕ
  outputs : ℕ → Option RAMOutputStream
  outputCount : ℕ
  inputs : ℕ → Option RAMInputStream
  inputCount : ℕ

namespace RAMOutputStream

def writeBytes (buffers : List UInt8) (pointer : ℤ) (b : List UInt8) (len : ℕ) :
    (List UInt8 × ℤ) × Response N :=
  if toUnsigned pointer = buffers.length then
    if len ≤ b.length then ((buffers ++ b.take len, toInt (pointer + len)), .done)
    else ((buffers, pointer), .raised)
  else if toUnsigned pointer < buffers.length then
    let new1 := buffers.take (toUnsigned pointer)
    let tail := toUnsigned (toInt (pointer + len))
    let new2 := if tail < buffers.length then buffers.drop tail else []
    if len ≤ b.length then ((new1 ++ b.take len ++ new2, toInt (pointer + len)), .done)
    else ((new1, pointer), .raised)
  else ((buffers, toInt (pointer + len)), .done)

def receive (buffers : List UInt8) (pointer : ℤ) :
    OutputRequest → (List UInt8 × ℤ) × Response N
  | .writeBytes b len => writeBytes buffers pointer b len
  | .seekToFileOffset pos => ((buffers, toInt pos), .done)
  | .offsetInFile => ((buffers, pointer), .number (toUnsigned pointer))
  | .length => ((buffers, pointer), .number buffers.length)
  | .flush => ((buffers, pointer), .done)
  | .close => ((buffers, pointer), .done)

end RAMOutputStream

namespace RAMInputStream

/-- The pointer afterwards; `file` is nil for a stream opened on a missing file. -/
def receive (file : Option (List UInt8)) (pointer : ℕ) : InputRequest → ℕ × Response N
  | .readByte =>
    match file with
    | none => (pointer + 1, .unset)
    | some buffers =>
      match buffers[pointer]? with
      | some b => (pointer + 1, .byte b)
      | none => (pointer, .raised)
  | .readBytes b offset len =>
    let buffers := file.getD []
    if pointer ≤ buffers.length then
      let bytes := (buffers.drop pointer).take len
      (if offset ≤ b.length then pointer + bytes.length else pointer, replaceBytes b offset bytes)
    else (pointer, .raised)
  | .seekToFileOffset pos => (toUnsigned (toInt pos), .done)
  | .offsetInFile => (pointer, .number pointer)
  | .length => (pointer, .number (file.getD []).length)
  | .close => (pointer, .done)

end RAMInputStream

namespace RAMDirectory

variable [DecidableEq N]

def empty : RAMDirectory N := ⟨fun _ => none, fun _ => [], 0, fun _ => none, 0, fun _ => none, 0⟩

def renameFile (d : RAMDirectory N) (old new : N) : RAMDirectory N × Response N :=
  match d.files old with
  | none => (d, .raised)
  | some f =>
    ({ d with files := update (update d.files new (some f)) old none }, .done)

def createOutput (d : RAMDirectory N) (name : N) : RAMDirectory N × Response N :=
  ({ d with
      files := update d.files name (some d.count)
      buffers := update d.buffers d.count []
      count := d.count + 1
      outputs := update d.outputs d.outputCount (some ⟨d.count, 0⟩)
      outputCount := d.outputCount + 1 }, .stream)

def addInput (d : RAMDirectory N) (i : RAMInputStream) : RAMDirectory N :=
  { d with
    inputs := update d.inputs d.inputCount (some i)
    inputCount := d.inputCount + 1 }

def respond (d : RAMDirectory N) : StoreRequest N → RAMDirectory N × Response N
  | .fileList => (d, .names fun name => (d.files name).isSome)
  | .fileExists name => (d, .flag (d.files name).isSome)
  | .fileLength name => (d, .number ((d.files name).elim 0 fun f => (d.buffers f).length))
  | .deleteFile name => ({ d with files := update d.files name none }, .flag true)
  | .renameFile old new => d.renameFile old new
  | .createOutput name => d.createOutput name
  | .openInput name => (d.addInput ⟨d.files name, 0⟩, .stream)
  | .output i request =>
    match d.outputs i with
    | none => (d, .nothing)
    | some o =>
      let r := RAMOutputStream.receive (d.buffers o.file) o.pointer request
      ({ d with
          buffers := update d.buffers o.file r.1.1
          outputs := update d.outputs i (some { o with pointer := r.1.2 }) }, r.2)
  | .input i request =>
    match d.inputs i with
    | none => (d, .nothing)
    | some s =>
      let r := RAMInputStream.receive (s.file.map d.buffers) s.pointer request
      ({ d with inputs := update d.inputs i (some { s with pointer := r.1 }) }, r.2)
  | .copyInput i =>
    match d.inputs i with
    | none => (d, .nothing)
    | some s => (d.addInput ⟨s.file, toUnsigned (toInt s.pointer)⟩, .stream)

end RAMDirectory

structure FileHandle where
  inode : ℕ
  offset : ℕ

structure FSIndexOutput (N : Type*) where
  path : N
  handle : FileHandle
  isClosed : Bool

structure FSIndexInput (N : Type*) where
  path : N
  handle : Option FileHandle
  length : ℕ
  isClosed : Bool

structure FSDirectory (N : Type*) where
  files : N → Option ℕ
  data : ℕ → List UInt8
  count : ℕ
  outputs : ℕ → Option (FSIndexOutput N)
  outputCount : ℕ
  inputs : ℕ → Option (FSIndexInput N)
  inputCount : ℕ

/-- Writing at an offset: a gap before it is filled with zeros, and what follows is kept. -/
def overwrite (data : List UInt8) (offset : ℕ) (bytes : List UInt8) : List UInt8 :=
  if bytes = [] then data
  else (data ++ List.replicate (offset - data.length) 0).take offset ++ bytes
    ++ data.drop (offset + bytes.length)

namespace FSIndexOutput

/-- A closed handle raises; `-length` asks for the file that is at the path now. -/
def receive (sizeAtPath : ℕ) (data : List UInt8) (o : FSIndexOutput N) :
    OutputRequest → (List UInt8 × FSIndexOutput N) × Response N
  | .close => ((data, { o with isClosed := true }), .done)
  | request =>
    if o.isClosed then ((data, o), .raised)
    else match request with
      | .writeBytes b len =>
        if len ≤ b.length then
          ((overwrite data o.handle.offset (b.take len),
            { o with handle := ⟨o.handle.inode, o.handle.offset + len⟩ }), .done)
        else ((data, o), .raised)
      | .seekToFileOffset pos => ((data, { o with handle := ⟨o.handle.inode, pos⟩ }), .done)
      | .offsetInFile => ((data, o), .number o.handle.offset)
      | .length => ((data, o), .number sizeAtPath)
      | _ => ((data, o), .done)

end FSIndexOutput

namespace FSIndexInput

def withOffset (i : FSIndexInput N) (offset : ℕ) : FSIndexInput N :=
  { i with handle := i.handle.map fun h => ⟨h.inode, offset⟩ }

def offset (i : FSIndexInput N) : ℕ := i.handle.elim 0 FileHandle.offset

/-- `data` is what the handle reads, nothing for nil. -/
def seekToFileOffset (data : List UInt8) (i : FSIndexInput N) (pos : ℕ) : FSIndexInput N :=
  if pos < i.length then i.withOffset pos else i.withOffset data.length

def receive (data : List UInt8) (i : FSIndexInput N) :
    InputRequest → FSIndexInput N × Response N
  | .readByte =>
    if i.isClosed then (i, .raised)
    else match data[i.offset]? with
      | some b => (i.withOffset (i.offset + 1), .byte b)
      | none => (i, .unset)
  | .readBytes b offset len =>
    if i.isClosed then (i, .bytes b)
    else
      let bytes := (data.drop i.offset).take len
      (i.withOffset (i.offset + bytes.length), replaceBytes b offset bytes)
  | .seekToFileOffset pos => (if i.isClosed then i else i.seekToFileOffset data pos, .done)
  | .offsetInFile => (i, if i.isClosed then .raised else .number i.offset)
  | .length => (i, .number (if i.isClosed then 0 else i.length))
  | .close => ({ i with isClosed := true }, .done)

end FSIndexInput

namespace FSDirectory

variable [DecidableEq N]

def empty : FSDirectory N := ⟨fun _ => none, fun _ => [], 0, fun _ => none, 0, fun _ => none, 0⟩

def fileLength (d : FSDirectory N) (name : N) : ℕ :=
  (d.files name).elim 0 fun inode => (d.data inode).length

/-- The target is removed first, then the file moved, if it is still there. -/
def renameFile (d : FSDirectory N) (old new : N) : FSDirectory N :=
  if (d.files old).isSome then
    let removed := update d.files new none
    match removed old with
    | none => { d with files := removed }
    | some inode =>
      { d with files := update (update removed new (some inode)) old none }
  else d

def addOutput (d : FSDirectory N) (o : FSIndexOutput N) : FSDirectory N :=
  { d with
    outputs := update d.outputs d.outputCount (some o)
    outputCount := d.outputCount + 1 }

def createOutput (d : FSDirectory N) (name : N) : FSDirectory N :=
  match d.files name with
  | some inode => d.addOutput ⟨name, ⟨inode, 0⟩, false⟩
  | none =>
    { d with
      files := update d.files name (some d.count)
      data := update d.data d.count []
      count := d.count + 1 : FSDirectory N }.addOutput ⟨name, ⟨d.count, 0⟩, false⟩

def addInput (d : FSDirectory N) (i : FSIndexInput N) : FSDirectory N :=
  { d with
    inputs := update d.inputs d.inputCount (some i)
    inputCount := d.inputCount + 1 }

/-- `-initWithFile:`, which keeps the length that the file has now. -/
def inputAtPath (d : FSDirectory N) (name : N) : FSIndexInput N :=
  ⟨name, (d.files name).map fun inode => ⟨inode, 0⟩, d.fileLength name, false⟩

def dataOf (d : FSDirectory N) (i : FSIndexInput N) : List UInt8 :=
  i.handle.elim [] fun h => d.data h.inode

def copyInput (d : FSDirectory N) (i : FSIndexInput N) : FSDirectory N × Response N :=
  if i.isClosed then (d, .raised)
  else
    let clone := d.inputAtPath i.path
    (d.addInput (clone.seekToFileOffset (d.dataOf clone) i.offset), .stream)

def respond (d : FSDirectory N) : StoreRequest N → FSDirectory N × Response N
  | .fileList => (d, .names fun name => (d.files name).isSome)
  | .fileExists name => (d, .flag (d.files name).isSome)
  | .fileLength name => (d, .number (d.fileLength name))
  | .deleteFile name => ({ d with files := update d.files name none }, .flag true)
  | .renameFile old new => (d.renameFile old new, .done)
  | .createOutput name => (d.createOutput name, .stream)
  | .openInput name =>
    if (d.files name).isSome then (d.addInput (d.inputAtPath name), .stream) else (d, .nothing)
  | .output i request =>
    match d.outputs i with
    | none => (d, .nothing)
    | some o =>
      let r := o.receive (d.fileLength o.path) (d.data o.handle.inode) request
      ({ d with
          data := update d.data o.handle.inode r.1.1
          outputs := update d.outputs i (some r.1.2) }, r.2)
  | .input i request =>
    match d.inputs i with
    | none => (d, .nothing)
    | some s =>
      let r := s.receive (d.dataOf s) request
      ({ d with inputs := update d.inputs i (some r.1) }, r.2)
  | .copyInput i =>
    match d.inputs i with
    | none => (d, .nothing)
    | some s => d.copyInput s

end FSDirectory

end Etoile.Lucene
