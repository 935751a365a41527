import Etoile.Lib.VarInt

/-!
# Varints of 64 bits

An integer is stored seven bits to a byte, the lowest first, and each byte but the last has its
high bit set.  The encoder compares with powers of two that it makes by shifting an `int`; an `int`
that is shifted out of its bits is undefined, and `platform` says what it comes to.  The decoder
does not know where its buffer ends; `beyond` is what lies behind it.
-/

namespace Etoile.Serialize

def ETVarintMaxBytes : ℕ := 10

def zigZag (x : BitVec 64) : BitVec 64 := (x <<< 1) ^^^ x.sshiftRight 63

def unZigZag (x : BitVec 64) : BitVec 64 := (x >>> 1) ^^^ -(x &&& 1)

section Encoding

variable (platform : ℕ → BitVec 32)

/-- `1 << n`, as it is compared with an `unsigned long long`. -/
def shiftedOne (n : ℕ) : BitVec 64 :=
  (if n < 31 then 1#32 <<< n else platform n).signExtend 64

def varintByte (value : BitVec 64) (byte_index : ℕ) : UInt8 :=
  let shift_bits := 7 * byte_index
  let byte := UInt8.ofBitVec ((value >>> shift_bits).setWidth 8)
  if value < shiftedOne platform (shift_bits + 7) then byte &&& 0x7F else byte ||| 0x80

def varintBytes (value : BitVec 64) : ℕ → ℕ → List UInt8
  | 0, _ => []
  | left + 1, byte_index =>
    varintByte platform value byte_index ::
      if byte_index + 1 < ETVarintMaxBytes ∧ shiftedOne platform (7 * (byte_index + 1)) < value then
        varintBytes value left (byte_index + 1)
      else []

def varintValueWithZigZagEncoding (doZigZag : Bool) (num : BitVec 64) : List UInt8 :=
  varintBytes platform (if doZigZag then zigZag num else num) ETVarintMaxBytes 0

end Encoding

section Decoding

inductive VarintException
  | notAVarint
  | range
  deriving DecidableEq

/-- The loop of `ETUnsignedIntegerFromVarint`, for as many turns as are left, with the number of
bytes that have been read. -/
def fromVarint (bytes : ℕ → UInt8) : ℕ → ℕ → BitVec 64 → Except VarintException (BitVec 64) × ℕ
  | 0, byte_index, _ => (.error .notAVarint, byte_index)
  | left + 1, byte_index, value =>
    let byte := bytes byte_index
    let value := value ||| ((byte &&& 0x7F).toBitVec.setWidth 64 <<< (7 * byte_index))
    if byte &&& 0x80 ≠ 0 then fromVarint bytes left (byte_index + 1) value
    else (.ok value, byte_index + 1)

def ETUnsignedIntegerFromVarint (bytes : ℕ → UInt8) : Except VarintException (BitVec 64) × ℕ :=
  fromVarint bytes ETVarintMaxBytes 0 0

variable (beyond : ℕ → UInt8)

def memory (data : List UInt8) (i : ℕ) : UInt8 := (data[i]?).getD (beyond i)

def readVarintWithZigZagEncoding (doZigZag : Bool) (data : List UInt8) :
    Except VarintException (BitVec 64) :=
  (ETUnsignedIntegerFromVarint (memory beyond data)).1.map fun value =>
    if doZigZag then unZigZag value else value

/-- The buffer afterwards, and what is returned or raised; bytes that are not there cannot be
replaced. -/
def readAndPruneVarintWithZigZagEncoding (doZigZag : Bool) (data : List UInt8) :
    List UInt8 × Except VarintException (BitVec 64) :=
  match ETUnsignedIntegerFromVarint (memory beyond data) with
  | (.error e, _) => (data, .error e)
  | (.ok value, varint_length) =>
    if varint_length ≤ data.length then
      (data.drop varint_length, .ok (if doZigZag then unZigZag value else value))
    else (data, .error .range)

def readVarints (doZigZag : Bool) : ℕ → List UInt8 → Option (List (BitVec 64) × List UInt8)
  | 0, data => some ([], data)
  | n + 1, data =>
    match readAndPruneVarintWithZigZagEncoding beyond doZigZag data with
    | (data, .ok value) => (readVarints doZigZag n data).map fun r => (value :: r.1, r.2)
    | (_, .error _) => none

end Decoding

end Etoile.Serialize

/-!
## Reading varints

The decoder stops at the first byte whose high bit is not set, or raises after ten bytes.  It goes
past the end of a buffer that ends before that.
-/

namespace Etoile.Serialize

open Nat

theorem toNat_payload (b : UInt8) : (b &&& 0x7F).toNat = b.toNat % 128 := by
  rw [UInt8.toNat_and]
  exact and_two_pow_sub_one_eq_mod b.toNat 7

theorem flag_eq_zero_iff (b : UInt8) : b &&& 0x80 = 0 ↔ b.toNat < 128 := by
  have hbits : ∀ i : Fin 256, i.val &&& 128 = i.val / 128 * 128 := by decide +kernel
  have hb := b.toNat_lt
  have hflag : (b &&& 0x80).toNat = b.toNat / 128 * 128 := by
    rw [UInt8.toNat_and]
    exact hbits ⟨b.toNat, hb⟩
  rw [← UInt8.toNat_inj, hflag]
  show b.toNat / 128 * 128 = 0 ↔ b.toNat < 128
  omega

theorem toNat_flagged (b : UInt8) : (b ||| 0x80).toNat = b.toNat % 128 + 128 := by
  have hbits : ∀ i : Fin 256, i.val ||| 128 = i.val % 128 + 128 := by decide +kernel
  rw [UInt8.toNat_or]
  exact hbits ⟨b.toNat, b.toNat_lt⟩

section Scanning

variable {bytes : ℕ → UInt8} {left byte_index k : ℕ} {value : BitVec 64}

theorem fromVarint_last (h : (bytes byte_index).toNat < 128) :
    fromVarint bytes (left + 1) byte_index value
      = (.ok (value ||| ((bytes byte_index &&& 0x7F).toBitVec.setWidth 64 <<< (7 * byte_index))),
        byte_index + 1) := by
  rw [fromVarint, (flag_eq_zero_iff _).2 h]
  rfl

theorem fromVarint_more (h : 128 ≤ (bytes byte_index).toNat) :
    fromVarint bytes (left + 1) byte_index value
      = fromVarint bytes left (byte_index + 1)
        (value ||| ((bytes byte_index &&& 0x7F).toBitVec.setWidth 64 <<< (7 * byte_index))) := by
  have hne : bytes byte_index &&& 0x80 ≠ 0 := fun heq =>
    absurd ((flag_eq_zero_iff _).1 heq) (Nat.not_lt.2 h)
  rw [fromVarint]
  exact if_pos hne

theorem fromVarint_ok : ∀ {k left byte_index : ℕ} {value : BitVec 64}, k < left →
    (∀ j < k, 128 ≤ (bytes (byte_index + j)).toNat) → (bytes (byte_index + k)).toNat < 128 →
      ∃ v, fromVarint bytes left byte_index value = (.ok v, byte_index + k + 1)
  | 0, left + 1, byte_index, value, _, _, hlast => ⟨_, fromVarint_last hlast⟩
  | k + 1, left + 1, byte_index, value, hk, hmore, hlast => by
    have hfirst : 128 ≤ (bytes byte_index).toNat := hmore 0 (succ_pos k)
    rw [fromVarint_more hfirst]
    have hnext : ∀ j, byte_index + 1 + j = byte_index + (j + 1) := fun j => by omega
    obtain ⟨v, hv⟩ := @fromVarint_ok k left (byte_index + 1) _ (lt_of_succ_lt_succ hk)
      (fun j hj => by
        rw [hnext]
        exact hmore _ (succ_lt_succ hj))
      (by rwa [hnext])
    exact ⟨v, by rw [hv, hnext]⟩

theorem fromVarint_error : ∀ {left byte_index : ℕ} {value : BitVec 64},
    (∀ j < left, 128 ≤ (bytes (byte_index + j)).toNat) →
      fromVarint bytes left byte_index value = (.error .notAVarint, byte_index + left)
  | 0, _, _, _ => rfl
  | left + 1, byte_index, value, hmore => by
    have hfirst : 128 ≤ (bytes byte_index).toNat := hmore 0 (succ_pos left)
    rw [fromVarint_more hfirst, fromVarint_error fun j hj => ?_]
    · rw [succ_add, add_succ]
    · rw [succ_add]
      exact hmore _ (succ_lt_succ hj)

theorem lt_fromVarint : ∀ {k left byte_index : ℕ} {value : BitVec 64}, k < left →
    (∀ j < k, 128 ≤ (bytes (byte_index + j)).toNat) →
      byte_index + k < (fromVarint bytes left byte_index value).2 := by
  intro k left byte_index value hk hmore
  by_cases hlast : ∃ m, m < left ∧ (bytes (byte_index + m)).toNat < 128
  · obtain ⟨hm, hstop⟩ := Nat.find_spec hlast
    have hfirst : ∀ j < Nat.find hlast, 128 ≤ (bytes (byte_index + j)).toNat := fun j hj =>
      Nat.not_lt.1 fun hlt => Nat.find_min hlast hj ⟨hj.trans hm, hlt⟩
    have hle : k ≤ Nat.find hlast := Nat.not_lt.1 fun hlt => absurd hstop (by
      have := hmore _ hlt
      omega)
    obtain ⟨v, hv⟩ := @fromVarint_ok bytes _ left byte_index value hm hfirst hstop
    rw [hv]
    show byte_index + k < byte_index + Nat.find hlast + 1
    omega
  · rw [fromVarint_error fun j hj => Nat.not_lt.1 fun hlt => hlast ⟨j, hj, hlt⟩]
    exact Nat.add_lt_add_left hk byte_index

theorem last_of_ok : ∀ {left byte_index n : ℕ} {value v : BitVec 64},
    fromVarint bytes left byte_index value = (.ok v, n) →
      byte_index < n ∧ (bytes (n - 1)).toNat < 128
  | 0, _, _, _, _, h => nomatch h
  | left + 1, byte_index, n, value, v, h => by
    rcases lt_or_ge (bytes byte_index).toNat 128 with hlt | hge
    · rw [fromVarint_last hlt] at h
      cases h
      exact ⟨lt_succ_self _, hlt⟩
    · rw [fromVarint_more hge] at h
      obtain ⟨hlt, hlast⟩ := last_of_ok h
      exact ⟨lt_of_succ_lt hlt, hlast⟩

end Scanning

section Buffers

variable {beyond : ℕ → UInt8} {data : List UInt8}

theorem memory_of_lt {i : ℕ} (h : i < data.length) : memory beyond data i = data[i] := by
  unfold memory
  rw [List.getElem?_eq_getElem h]
  rfl

def BeginsWithVarint (data : List UInt8) : Prop :=
  ∃ b ∈ data.take ETVarintMaxBytes, b.toNat < 128

instance (data : List UInt8) : Decidable (BeginsWithVarint data) :=
  inferInstanceAs (Decidable (∃ b ∈ _, _))

theorem beginsWithVarint_iff : BeginsWithVarint data
    ↔ ∃ k, ∃ h : k < data.length, k < ETVarintMaxBytes ∧ (data[k]).toNat < 128 := by
  constructor
  · rintro ⟨b, hb, hlt⟩
    obtain ⟨k, hk, rfl⟩ := List.getElem_of_mem hb
    rw [List.length_take] at hk
    exact ⟨k, by omega, by omega, by rwa [List.getElem_take] at hlt⟩
  · rintro ⟨k, hk, hten, hlt⟩
    refine ⟨data[k], List.mem_take_iff_getElem.2 ⟨k, ?_, rfl⟩, hlt⟩
    exact Nat.lt_min.2 ⟨hten, hk⟩

variable (beyond) in
theorem read_of_begins (h : BeginsWithVarint data) : ∃ v n, n ≤ data.length
    ∧ ETUnsignedIntegerFromVarint (memory beyond data) = (.ok v, n) := by
  have hex := beginsWithVarint_iff.1 h
  obtain ⟨hk, hten, hstop⟩ := Nat.find_spec hex
  have hfirst : ∀ j < Nat.find hex, 128 ≤ (memory beyond data (0 + j)).toNat := fun j hj => by
    rw [zero_add, memory_of_lt (hj.trans hk)]
    exact Nat.not_lt.1 fun hlt => Nat.find_min hex hj ⟨hj.trans hk, hj.trans hten, hlt⟩
  obtain ⟨v, hv⟩ := @fromVarint_ok (memory beyond data) _ _ 0 0 hten hfirst (by
    rwa [zero_add, memory_of_lt hk])
  rw [zero_add] at hv
  exact ⟨v, _, hk, hv⟩

theorem flagged_of_not_begins (h : ¬ BeginsWithVarint data) {j : ℕ} (hj : j < data.length)
    (hten : j < ETVarintMaxBytes) : 128 ≤ (memory beyond data (0 + j)).toNat := by
  rw [zero_add, memory_of_lt hj]
  exact Nat.not_lt.1 fun hlt => h (beginsWithVarint_iff.2 ⟨j, hj, hten, hlt⟩)

variable (beyond) in
theorem read_of_long (h : ¬ BeginsWithVarint data) (hlong : ETVarintMaxBytes ≤ data.length) :
    ETUnsignedIntegerFromVarint (memory beyond data) = (.error .notAVarint, ETVarintMaxBytes) := by
  have herror := @fromVarint_error (memory beyond data) ETVarintMaxBytes 0 0 fun j hj =>
    flagged_of_not_begins h (lt_of_lt_of_le hj hlong) hj
  rwa [zero_add] at herror

/-- What is raised on what is not a varint, and what is read and changed before that. -/
structure RejectsNonVarints (beyond : ℕ → UInt8) (data : List UInt8) : Prop where
  raises : ∀ doZigZag, readVarintWithZigZagEncoding beyond doZigZag data = .error .notAVarint
    ↔ ¬ BeginsWithVarint data
  raisesPruning : ∀ doZigZag,
    (readAndPruneVarintWithZigZagEncoding beyond doZigZag data).2 = .error .notAVarint
      ↔ ¬ BeginsWithVarint data
  withinBuffer : (ETUnsignedIntegerFromVarint (memory beyond data)).2 ≤ data.length
  unchanged : ∀ doZigZag e,
    (readAndPruneVarintWithZigZagEncoding beyond doZigZag data).2 = .error e →
      (readAndPruneVarintWithZigZagEncoding beyond doZigZag data).1 = data

theorem readAndPrune_of_read {v : BitVec 64} {n : ℕ} (hn : n ≤ data.length)
    (h : ETUnsignedIntegerFromVarint (memory beyond data) = (.ok v, n)) (doZigZag : Bool) :
    readAndPruneVarintWithZigZagEncoding beyond doZigZag data
      = (data.drop n, .ok (if doZigZag then unZigZag v else v)) := by
  unfold readAndPruneVarintWithZigZagEncoding
  rw [h]
  exact if_pos hn

theorem rejectsNonVarints_iff (beyond : ℕ → UInt8) (data : List UInt8) :
    RejectsNonVarints beyond data ↔ BeginsWithVarint data ∨ ETVarintMaxBytes ≤ data.length := by
  constructor
  · intro h
    by_contra hnot
    rw [not_or, not_le] at hnot
    have hread := @lt_fromVarint (memory beyond data) data.length ETVarintMaxBytes 0 0 hnot.2
      fun j hj => flagged_of_not_begins hnot.1 hj (hj.trans hnot.2)
    have hwithin := h.withinBuffer
    unfold ETUnsignedIntegerFromVarint at hwithin
    omega
  · intro h
    by_cases hb : BeginsWithVarint data
    · obtain ⟨v, n, hn, hv⟩ := read_of_begins beyond hb
      have hprune := readAndPrune_of_read hn hv
      refine ⟨fun z => ?_, fun z => ?_, ?_, fun z e he => ?_⟩
      · unfold readVarintWithZigZagEncoding
        rw [hv]
        exact iff_of_false (by simp [Except.map]) (not_not.2 hb)
      · rw [hprune]
        exact iff_of_false (by simp) (not_not.2 hb)
      · rw [hv]
        exact hn
      · rw [hprune] at he
        cases he
    · have herror := read_of_long beyond hb (h.resolve_left hb)
      have hprune : ∀ z, readAndPruneVarintWithZigZagEncoding beyond z data
          = (data, .error .notAVarint) := fun z => by
        unfold readAndPruneVarintWithZigZagEncoding
        rw [herror]
      refine ⟨fun z => ?_, fun z => ?_, ?_, fun z e _ => ?_⟩
      · unfold readVarintWithZigZagEncoding
        rw [herror]
        exact iff_of_true rfl hb
      · rw [hprune]
        exact iff_of_true rfl hb
      · rw [herror]
        exact h.resolve_left hb
      · rw [hprune]

/-- One byte that says that another follows, and no other. -/
theorem truncated_not_rejects : ¬ RejectsNonVarints (fun _ => 0) [0x80] := by
  intro h
  have hwithin := h.withinBuffer
  revert hwithin
  decide

end Buffers

end Etoile.Serialize
