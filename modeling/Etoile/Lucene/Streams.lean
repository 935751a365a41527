import Etoile.Lib.VarInt

/-!
# Strings, and the streams and files of an index
-/

namespace Etoile.Lucene

abbrev Unichar := Fin 65536

instance neZero_unichar : NeZero 65536 := ⟨by decide⟩

instance lawfulBEq_unichar : LawfulBEq Unichar := inferInstance

abbrev NSString := List Unichar

instance lawfulBEq_string : LawfulBEq NSString := inferInstance

/-- `-objectAtIndex:`; `none` where it raises. -/
def objectAtIndex {α : Type} (array : List α) : ℤ → Option α
  | .ofNat i => array[i]?
  | .negSucc _ => none

theorem objectAtIndex_of_lt {α : Type} {array : List α} {i : ℤ} (hlo : 0 ≤ i)
    (hhi : i < array.length) :
    ∃ n, ∃ h : n < array.length, i = n ∧ objectAtIndex array i = some array[n] := by
  obtain ⟨n, rfl⟩ := Int.eq_ofNat_of_zero_le hlo
  have hn : n < array.length := by omega
  exact ⟨n, hn, rfl, List.getElem?_eq_getElem hn⟩

end Etoile.Lucene

/-!
## Index streams

How `LCIndexOutput` writes numbers and strings and `LCIndexInput` reads them back.
-/

namespace Etoile.Lucene

/-- `-writeInt:`, the highest byte first. -/
def writeInt (i : ℤ) : List UInt8 := (hostBytes 4 (BitVec.ofInt 32 i)).reverse.1

@[simp] theorem length_writeInt (i : ℤ) : (writeInt i).length = 4 :=
  (hostBytes 4 (BitVec.ofInt 32 i)).reverse.2

def readInt : Reader ℤ := do
  let b ← Reader.bytes 4
  return (ofHostBytes b.reverse).toInt

theorem reads_writeInt_bmod (i : ℤ) : Reads readInt (writeInt i) (i.bmod (2 ^ 32)) := by
  have hread := (Reads.bytes (hostBytes 4 (BitVec.ofInt 32 i)).reverse).bind_pure
    (f := fun b => (ofHostBytes b.reverse).toInt)
  have hval : (ofHostBytes (hostBytes 4 (BitVec.ofInt 32 i)).reverse.reverse).toInt
      = i.bmod (2 ^ 32) := by
    rw [Bytes.reverse_reverse, ofHostBytes_hostBytes, BitVec.toInt_ofInt]
  rwa [hval] at hread

theorem reads_writeInt {i : ℤ} (hlo : -2 ^ 31 ≤ i) (hhi : i < 2 ^ 31) :
    Reads readInt (writeInt i) i := by
  have hread := reads_writeInt_bmod i
  rwa [Int.bmod_eq_of_le (by omega) (by omega)] at hread

def writeLong (i : ℤ) : List UInt8 := writeInt (i / 2 ^ 32) ++ writeInt i

@[simp] theorem length_writeLong (i : ℤ) : (writeLong i).length = 8 := by
  rw [writeLong, List.length_append, length_writeInt, length_writeInt]

def readLong : Reader ℤ := do
  let high ← readInt
  let low ← readInt
  return high * 2 ^ 32 + low % 2 ^ 32

theorem reads_writeLong {i : ℤ} (hlo : -2 ^ 63 ≤ i) (hhi : i < 2 ^ 63) :
    Reads readLong (writeLong i) i := by
  have hhigh := reads_writeInt (i := i / 2 ^ 32) (by omega) (by omega)
  have hread :=
    (reads_writeInt_bmod i).bind_pure (f := fun low => i / 2 ^ 32 * 2 ^ 32 + low % 2 ^ 32)
  have hval : i / 2 ^ 32 * 2 ^ 32 + i.bmod (2 ^ 32) % 2 ^ 32 = i := by
    have hlow : i.bmod (2 ^ 32) % 2 ^ 32 = i % 2 ^ 32 := Int.bmod_emod
    omega
  rw [hval] at hread
  unfold readLong
  exact hhigh.bind hread

def writeVInt (i : ℕ) : List UInt8 := varint 25 i

/-- The bits of the fifth byte are shifted as an `int`, so the highest one is a sign. -/
def readVInt : Reader ℤ := do
  let i ← readVarint
  return (i : ℤ).bmod (2 ^ 32)

def writeVLong (i : ℕ) : List UInt8 := varint 57 i

def readVLong : Reader ℕ := readVarint

theorem reads_writeVInt {i : ℕ} (h : i < 2 ^ 32) :
    Reads readVInt (writeVInt i) ((i : ℤ).bmod (2 ^ 32)) :=
  (reads_varint (w := 25) h).bind_pure (f := fun i : ℕ => (i : ℤ).bmod (2 ^ 32))

theorem reads_writeVInt_of_lt {i : ℕ} (h : i < 2 ^ 31) : Reads readVInt (writeVInt i) i := by
  have hread := reads_writeVInt (i := i) (by omega)
  rwa [Int.bmod_eq_of_le (by omega) (by omega)] at hread

theorem reads_writeVLong {i : ℕ} (h : i < 2 ^ 64) : Reads readVLong (writeVLong i) i :=
  reads_varint h

def writeChar (code : Unichar) : List UInt8 :=
  if 0x01 ≤ code.val ∧ code.val ≤ 0x7F then [UInt8.ofNat code.val]
  else if 0x80 ≤ code.val ∧ code.val ≤ 0x7FF ∨ code.val = 0 then
    [UInt8.ofNat (0xC0 + code.val / 64), UInt8.ofNat (0x80 + code.val % 64)]
  else
    [UInt8.ofNat (0xE0 + code.val / 4096), UInt8.ofNat (0x80 + code.val / 64 % 64),
      UInt8.ofNat (0x80 + code.val % 64)]

def readChar : Reader Unichar := do
  let b ← Reader.byte
  if b.toNat < 0x80 then return Fin.ofNat 65536 b.toNat
  else if b.toNat < 0xE0 then
    let c ← Reader.byte
    return Fin.ofNat 65536 (b.toNat % 32 * 64 + c.toNat % 64)
  else
    let c ← Reader.byte
    let d ← Reader.byte
    return Fin.ofNat 65536 (b.toNat % 16 * 4096 + c.toNat % 64 * 64 + d.toNat % 64)

def writeChars (s : NSString) : List UInt8 := s.flatMap writeChar

def readChars : ℕ → Reader NSString
  | 0 => return []
  | length + 1 => do
    let c ← readChar
    let s ← readChars length
    return c :: s

def writeString (s : NSString) : List UInt8 := writeVInt s.length ++ writeChars s

def readString : Reader NSString := do
  let length ← readVInt
  readChars length.toNat

theorem toNat_ofNat_of_lt {n : ℕ} (h : n < 256) : (UInt8.ofNat n).toNat = n := by
  rw [UInt8.toNat_ofNat']
  omega

theorem reads_writeChar (code : Unichar) : Reads readChar (writeChar code) code := by
  have hlt := code.isLt
  have hcode : ∀ n, n = code.val → Fin.ofNat 65536 n = code := by
    rintro _ rfl
    exact Fin.ofNat_val_eq_self code
  unfold writeChar readChar
  split_ifs with h1 h2
  · refine (Reads.byte _).bind ?_
    rw [toNat_ofNat_of_lt (by omega), if_pos (by omega), hcode _ rfl]
    exact Reads.pure _
  · refine (Reads.byte _).bind ?_
    rw [toNat_ofNat_of_lt (by omega), if_neg (by omega), if_pos (by omega)]
    have hread := (Reads.byte (UInt8.ofNat (0x80 + code.val % 64))).bind_pure
      (f := fun c => Fin.ofNat 65536 ((0xC0 + code.val / 64) % 32 * 64 + c.toNat % 64))
    rwa [toNat_ofNat_of_lt (by omega), hcode _ (by omega)] at hread
  · refine (Reads.byte _).bind ?_
    rw [toNat_ofNat_of_lt (by omega), if_neg (by omega), if_neg (by omega)]
    refine (Reads.byte _).bind ?_
    rw [toNat_ofNat_of_lt (by omega)]
    have hread := (Reads.byte (UInt8.ofNat (0x80 + code.val % 64))).bind_pure
      (f := fun d => Fin.ofNat 65536 ((0xE0 + code.val / 4096) % 16 * 4096
        + (0x80 + code.val / 64 % 64) % 64 * 64 + d.toNat % 64))
    rwa [toNat_ofNat_of_lt (by omega), hcode _ (by omega)] at hread

theorem reads_writeChars : ∀ s : NSString, Reads (readChars s.length) (writeChars s) s
  | [] => Reads.pure []
  | code :: s => by
    unfold readChars
    exact (reads_writeChar code).bind ((reads_writeChars s).bind_pure (f := fun s => code :: s))

theorem reads_writeString {s : NSString} (h : s.length < 2 ^ 31) :
    Reads readString (writeString s) s :=
  (reads_writeVInt_of_lt h).bind (reads_writeChars s)

end Etoile.Lucene

/-!
## Index files

The files of an index by name, and what the directories do with them.
-/

namespace Etoile.Lucene

/-- The extensions of a segment's files; `f n` and `s n` hold the norms of the field `n`. -/
inductive Extension
  | cfs | fnm | fdx | fdt | tii | tis | frq | prx | del | tvx | tvd | tvf | tvp | tmp
  | f (number : ℕ)
  | s (number : ℕ)
  deriving DecidableEq

inductive FileName
  | segments
  | segmentsNew
  | deletable
  | deletableNew
  | ofSegment (segment : NSString) (extension : Extension)
  deriving DecidableEq

abbrev Directory := FileName → Option (List UInt8)

namespace Directory

variable (d : Directory)

def fileExists (name : FileName) : Bool := (d name).isSome

def writeFile (name : FileName) (bytes : List UInt8) : Directory := Function.update d name bytes

def deleteFile (name : FileName) : Directory := Function.update d name none

def renameFile (old new : FileName) : Directory :=
  match d old with
  | some bytes => (d.writeFile new bytes).deleteFile old
  | none => d

variable {d} {name name' : FileName} {bytes : List UInt8}

@[simp] theorem writeFile_self : d.writeFile name bytes name = some bytes := by
  simp [writeFile]

theorem writeFile_of_ne (h : name' ≠ name) : d.writeFile name bytes name' = d name' := by
  simp [writeFile, h]

@[simp] theorem deleteFile_self : d.deleteFile name name = none := by
  simp [deleteFile]

theorem deleteFile_of_ne (h : name' ≠ name) : d.deleteFile name name' = d name' := by
  simp [deleteFile, h]

theorem renameFile_writeFile {old new : FileName} :
    (d.writeFile old bytes).renameFile old new
      = ((d.writeFile old bytes).writeFile new bytes).deleteFile old := by
  simp [renameFile]

theorem replaceFile_self {old new : FileName} (h : new ≠ old) :
    (d.writeFile old bytes).renameFile old new new = some bytes := by
  rw [renameFile_writeFile, deleteFile_of_ne h, writeFile_self]

theorem replaceFile_of_ne {old new : FileName} (h : name ≠ new) (h' : name ≠ old) :
    (d.writeFile old bytes).renameFile old new name = d name := by
  rw [renameFile_writeFile, deleteFile_of_ne h', writeFile_of_ne h, writeFile_of_ne h']

end Directory

end Etoile.Lucene
