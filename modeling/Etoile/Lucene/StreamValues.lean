import Etoile.Lucene.Streams
import Mathlib.Data.List.TakeDrop

/-!
# Sequences of values in index streams

Values of all kinds are written one after another, and read back by the same kinds.

`-writeString:` keeps the length of its string in an `int`: what is written of a string of `2 ^ 31`
characters or more is either nothing behind a negative length, or only its beginning.
-/

namespace Etoile.Lucene

namespace IndexOutput

/-- `-writeVInt:` of any `long`; only the first shift can be of a negative number. -/
def writeVInt (i : ℤ) : List UInt8 :=
  if 0 ≤ i ∧ i < 128 then [UInt8.ofNat i.toNat]
  else UInt8.ofNat ((i % 128).toNat + 128) :: Lucene.writeVInt (i / 128 % 2 ^ 25).toNat

/-- What an `int` keeps of a length. -/
def ofLength (n : ℕ) : ℤ := (n : ℤ).bmod (2 ^ 32)

/-- `int length = [s length]`. -/
def length (s : NSString) : ℤ := (s.length : ℤ).bmod (2 ^ 32)

def writeString (s : NSString) : List UInt8 :=
  writeVInt (length s) ++ writeChars (s.take (length s).toNat)

variable {i : ℤ} {s : NSString}

/-- An `int` is written as the 32 bits it has. -/
theorem writeVInt_eq (hlo : -2 ^ 31 ≤ i) (hhi : i < 2 ^ 31) :
    writeVInt i = Lucene.writeVInt (i % 2 ^ 32).toNat := by
  rw [writeVInt, Lucene.writeVInt, Lucene.writeVInt]
  conv_rhs => rw [varint]
  by_cases hsmall : 0 ≤ i ∧ i < 128
  · have hnat : (i % 2 ^ 32).toNat = i.toNat := by omega
    rw [if_pos hsmall, hnat, if_pos (by omega)]
  · have hlow : (i % 2 ^ 32).toNat % 128 = (i % 128).toNat := by omega
    have hhigh : (i % 2 ^ 32).toNat / 128 % 2 ^ 25 = (i / 128 % 2 ^ 25).toNat := by omega
    rw [if_neg hsmall, if_neg (by omega), hlow, hhigh]

theorem reads_writeVInt (hlo : -2 ^ 31 ≤ i) (hhi : i < 2 ^ 31) :
    Reads readVInt (writeVInt i) i := by
  have hread := Lucene.reads_writeVInt (i := (i % 2 ^ 32).toNat) (by omega)
  have hval : (((i % 2 ^ 32).toNat : ℕ) : ℤ).bmod (2 ^ 32) = i := by
    rw [Int.toNat_of_nonneg (by omega), Int.bmod_def]
    split_ifs <;> omega
  rwa [hval, ← writeVInt_eq hlo hhi] at hread

/-- The low 32 bits of any `long` are read back, as a signed number. -/
theorem reads_writeVInt_bmod (i : ℤ) : Reads readVInt (writeVInt i) (i.bmod (2 ^ 32)) := by
  have hread : Reads readVarint (writeVInt i) (i % 2 ^ 32).toNat := by
    intro rest
    rw [writeVInt]
    split_ifs with hsmall
    · have hb : (UInt8.ofNat i.toNat).toNat = i.toNat := toNat_ofNat_of_lt (by omega)
      have hnat : (i % 2 ^ 32).toNat = i.toNat := by omega
      simp only [List.cons_append, List.nil_append, readVarint, hb, hnat]
      rw [if_pos (by omega)]
    · have hb : (UInt8.ofNat ((i % 128).toNat + 128)).toNat = (i % 128).toNat + 128 :=
        toNat_ofNat_of_lt (by omega)
      have htail : Reads readVarint (Lucene.writeVInt (i / 128 % 2 ^ 25).toNat)
          (i / 128 % 2 ^ 25).toNat := reads_varint (by omega)
      rw [List.cons_append, readVarint, hb, if_neg (by omega), htail, Option.map_some]
      simp only [Option.some.injEq, Prod.mk.injEq, and_true]
      omega
  have hvalue := hread.bind_pure (f := fun n : ℕ => (n : ℤ).bmod (2 ^ 32))
  have hmod : (i % 2 ^ 32).bmod (2 ^ 32) = i.bmod (2 ^ 32) := Int.emod_bmod _ _
  rwa [Int.toNat_of_nonneg (by omega), hmod] at hvalue

theorem bmod_eq_iff : i.bmod (2 ^ 32) = i ↔ -2 ^ 31 ≤ i ∧ i < 2 ^ 31 := by
  rw [Int.bmod_def]
  split_ifs <;> omega

theorem ofLength_cases (n : ℕ) :
    ofLength n = (n : ℤ) % 2 ^ 32 ∧ (n : ℤ) % 2 ^ 32 < 2 ^ 31
      ∨ ofLength n = (n : ℤ) % 2 ^ 32 - 2 ^ 32 ∧ (2 ^ 31 : ℤ) ≤ (n : ℤ) % 2 ^ 32 := by
  unfold ofLength
  rw [Int.bmod_def]
  push_cast
  split_ifs
  · left
    omega
  · right
    omega

theorem ofLength_eq_iff {n : ℕ} : ofLength n = n ↔ n < 2 ^ 31 := by
  have := ofLength_cases n
  omega

theorem toNat_ofLength_le (n : ℕ) : (ofLength n).toNat ≤ n := by
  have := ofLength_cases n
  omega

theorem toNat_ofLength_lt {n : ℕ} (h : ¬ n < 2 ^ 31) : (ofLength n).toNat < n := by
  have := ofLength_cases n
  omega

theorem reads_ofLength (n : ℕ) : Reads readVInt (writeVInt (ofLength n)) (ofLength n) := by
  have := ofLength_cases n
  exact reads_writeVInt (by omega) (by omega)

theorem length_cases (s : NSString) :
    length s = (s.length : ℤ) % 2 ^ 32 ∧ (s.length : ℤ) % 2 ^ 32 < 2 ^ 31
      ∨ length s = (s.length : ℤ) % 2 ^ 32 - 2 ^ 32 ∧ (2 ^ 31 : ℤ) ≤ (s.length : ℤ) % 2 ^ 32 :=
  ofLength_cases s.length

theorem length_eq_iff : length s = s.length ↔ s.length < 2 ^ 31 := ofLength_eq_iff

end IndexOutput

namespace IndexInput

def readString : Reader NSString := do
  let length ← readVInt
  if length < 0 then fun _ => none else readChars length.toNat

end IndexInput

section Strings

open IndexOutput (length length_cases length_eq_iff)

variable {s : NSString}

theorem reads_length (s : NSString) : Reads readVInt (IndexOutput.writeVInt (length s)) (length s) :=
  IndexOutput.reads_ofLength s.length

theorem reads_writeString_take (h : 0 ≤ length s) :
    Reads IndexInput.readString (IndexOutput.writeString s) (s.take (length s).toNat) := by
  unfold IndexInput.readString IndexOutput.writeString
  refine (reads_length s).bind ?_
  rw [if_neg (not_lt.2 h)]
  have hle : (length s).toNat ≤ s.length := IndexOutput.toNat_ofLength_le s.length
  have hread := reads_writeChars (s.take (length s).toNat)
  rwa [List.length_take_of_le hle] at hread

theorem reads_writeString_of_length (h : s.length < 2 ^ 31) :
    Reads IndexInput.readString (IndexOutput.writeString s) s := by
  have hlength := length_eq_iff.2 h
  have hread := reads_writeString_take (s := s) (by omega)
  rwa [hlength, Int.toNat_natCast, List.take_length] at hread

theorem readString_writeString_of_neg (h : length s < 0) (rest : List UInt8) :
    IndexInput.readString (IndexOutput.writeString s ++ rest) = none := by
  unfold IndexInput.readString IndexOutput.writeString
  rw [List.append_assoc, (reads_length s).bind_apply, if_pos h]

/-- A string is read back if its length is one of an `int`, and only then. -/
theorem readString_writeString_iff (s : NSString) (rest : List UInt8) :
    (∃ rest', IndexInput.readString (IndexOutput.writeString s ++ rest) = some (s, rest'))
      ↔ s.length < 2 ^ 31 := by
  rw [← length_eq_iff]
  by_cases hneg : length s < 0
  · have hne : length s ≠ s.length := by omega
    simp [readString_writeString_of_neg hneg, hne]
  · have hread := reads_writeString_take (not_lt.1 hneg) rest
    have hcases := length_cases s
    simp only [hread, Option.some.injEq, Prod.mk.injEq, exists_and_left, exists_eq', and_true,
      List.take_eq_self_iff]
    omega

end Strings

/-- What is written: each kind of number has the range it is written for. -/
inductive Value
  | byte (b : UInt8)
  | int (i : BitVec 32)
  | vInt (i : Fin (2 ^ 31))
  | long (i : BitVec 64)
  | vLong (i : Fin (2 ^ 63))
  | string (s : NSString)

inductive Kind
  | byte
  | int
  | vInt
  | long
  | vLong
  | string

inductive Item
  | byte (b : UInt8)
  | number (i : ℤ)
  | string (s : NSString)

def Value.kind : Value → Kind
  | .byte _ => .byte
  | .int _ => .int
  | .vInt _ => .vInt
  | .long _ => .long
  | .vLong _ => .vLong
  | .string _ => .string

def Value.item : Value → Item
  | .byte b => .byte b
  | .int i => .number i.toInt
  | .vInt i => .number i
  | .long i => .number i.toInt
  | .vLong i => .number i
  | .string s => .string s

def Value.write : Value → List UInt8
  | .byte b => [b]
  | .int i => writeInt i.toInt
  | .vInt i => IndexOutput.writeVInt i
  | .long i => writeLong i.toInt
  | .vLong i => writeVLong i
  | .string s => IndexOutput.writeString s

def Kind.read : Kind → Reader Item
  | .byte => do return .byte (← Reader.byte)
  | .int => do return .number (← readInt)
  | .vInt => do return .number (← readVInt)
  | .long => do return .number (← readLong)
  | .vLong => do return .number (← readVLong)
  | .string => do return .string (← IndexInput.readString)

def writeValues (values : List Value) : List UInt8 := values.flatMap Value.write

def readItems : List Kind → Reader (List Item)
  | [] => return []
  | kind :: kinds => do
    let item ← kind.read
    let items ← readItems kinds
    return item :: items

/-- The length of a string is that of an `int`. -/
def Value.Fits : Value → Prop
  | .string s => s.length < 2 ^ 31
  | _ => True

theorem Value.reads : ∀ {v : Value}, v.Fits → Reads v.kind.read v.write v.item
  | .byte b, _ => (Reads.byte b).bind_pure
  | .int i, _ => (reads_writeInt i.le_toInt i.toInt_lt).bind_pure
  | .vInt i, _ => (IndexOutput.reads_writeVInt (by omega) (by omega)).bind_pure
  | .long i, _ => (reads_writeLong i.le_toInt i.toInt_lt).bind_pure
  | .vLong i, _ => (reads_writeVLong (by omega)).bind_pure
  | .string _, h => (reads_writeString_of_length h).bind_pure

theorem Value.not_reads {v : Value} (h : ¬ v.Fits) (rest rest' : List UInt8) :
    v.kind.read (v.write ++ rest) ≠ some (v.item, rest') := by
  cases v with
  | string s =>
    intro hread
    obtain ⟨s', l, hstring, hitem⟩ := Reader.bind_eq_some_iff.1 hread
    cases hitem
    exact h ((readString_writeString_iff s rest).1 ⟨_, hstring⟩)
  | _ => exact absurd trivial h

/-- A sequence of values is read back and ends where it should, if and only if every string in it
has a length that an `int` can hold. -/
theorem readItems_writeValues_iff (values : List Value) :
    readItems (values.map Value.kind) (writeValues values) = some (values.map Value.item, [])
      ↔ ∀ v ∈ values, v.Fits := by
  induction values with
  | nil => exact iff_of_true rfl (List.forall_mem_nil _)
  | cons v values ih =>
    have hwrite : writeValues (v :: values) = v.write ++ writeValues values := List.flatMap_cons
    rw [List.forall_mem_cons, ← ih, hwrite, List.map_cons, List.map_cons, readItems]
    constructor
    · intro hread
      obtain ⟨item, l, hitem, hrest⟩ := Reader.bind_eq_some_iff.1 hread
      obtain ⟨items, l', hitems, hlast⟩ := Reader.bind_eq_some_iff.1 hrest
      cases hlast
      have hv : v.Fits := by
        by_contra hv
        exact Value.not_reads hv _ _ hitem
      rw [Value.reads hv] at hitem
      cases hitem
      exact ⟨hv, hitems⟩
    · rintro ⟨hv, hitems⟩
      rw [(Value.reads hv).bind_apply]
      exact Reader.bind_eq_some_iff.2 ⟨_, _, hitems, rfl⟩

/-- A string of `2 ^ 31` zeros. -/
theorem long_string_not_read_back :
    readItems ([Value.string (List.replicate (2 ^ 31) 0)].map Value.kind)
        (writeValues [Value.string (List.replicate (2 ^ 31) 0)])
      ≠ some ([Value.string (List.replicate (2 ^ 31) 0)].map Value.item, []) := by
  rw [Ne, readItems_writeValues_iff, List.forall_mem_singleton, Value.Fits, List.length_replicate]
  exact lt_irrefl _

end Etoile.Lucene
