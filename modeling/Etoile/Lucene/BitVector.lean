import Etoile.Lucene.Streams
import Mathlib.Data.Nat.Bitwise
import Mathlib.Tactic

/-!
# Bit vectors

`LCBitVector` keeps its bits in bytes, eight and the rest of the size at least, and the number of
set bits once it was asked for.
-/

namespace Etoile.Lucene

open List Nat

structure BitVector where
  size : ℕ
  bits : List UInt8
  /-- `-1` when it has to be counted anew -/
  count : ℤ := -1

namespace BitVector

def initWithSize (n : ℕ) : BitVector := { size := n, bits := replicate (n / 8 + 1) 0 }

def setBit (v : BitVector) (bit : ℕ) : BitVector :=
  { v with
    bits := v.bits.modify (bit / 8) (· ||| 1 <<< UInt8.ofNat (bit % 8))
    count := -1 }

def bit (v : BitVector) (bit : ℕ) : Bool :=
  v.bits.getD (bit / 8) 0 &&& 1 <<< UInt8.ofNat (bit % 8) != 0

def BYTE_COUNTS : List ℕ := [
  0, 1, 1, 2, 1, 2, 2, 3, 1, 2, 2, 3, 2, 3, 3, 4,
  1, 2, 2, 3, 2, 3, 3, 4, 2, 3, 3, 4, 3, 4, 4, 5,
  1, 2, 2, 3, 2, 3, 3, 4, 2, 3, 3, 4, 3, 4, 4, 5,
  2, 3, 3, 4, 3, 4, 4, 5, 3, 4, 4, 5, 4, 5, 5, 6,
  1, 2, 2, 3, 2, 3, 3, 4, 2, 3, 3, 4, 3, 4, 4, 5,
  2, 3, 3, 4, 3, 4, 4, 5, 3, 4, 4, 5, 4, 5, 5, 6,
  2, 3, 3, 4, 3, 4, 4, 5, 3, 4, 4, 5, 4, 5, 5, 6,
  3, 4, 4, 5, 4, 5, 5, 6, 4, 5, 5, 6, 5, 6, 6, 7,
  1, 2, 2, 3, 2, 3, 3, 4, 2, 3, 3, 4, 3, 4, 4, 5,
  2, 3, 3, 4, 3, 4, 4, 5, 3, 4, 4, 5, 4, 5, 5, 6,
  2, 3, 3, 4, 3, 4, 4, 5, 3, 4, 4, 5, 4, 5, 5, 6,
  3, 4, 4, 5, 4, 5, 5, 6, 4, 5, 5, 6, 5, 6, 6, 7,
  2, 3, 3, 4, 3, 4, 4, 5, 3, 4, 4, 5, 4, 5, 5, 6,
  3, 4, 4, 5, 4, 5, 5, 6, 4, 5, 5, 6, 5, 6, 6, 7,
  3, 4, 4, 5, 4, 5, 5, 6, 4, 5, 5, 6, 5, 6, 6, 7,
  4, 5, 5, 6, 5, 6, 6, 7, 5, 6, 6, 7, 6, 7, 7, 8]

/-- `-count`, and the vector that remembers it. -/
def counted (v : BitVector) : BitVector :=
  if v.count = -1 then
    { v with count := ((v.bits.map fun b => BYTE_COUNTS.getD b.toNat 0).sum : ℕ) }
  else v

def fileBytes (v : BitVector) : List UInt8 :=
  writeInt v.size ++ writeInt v.counted.count ++ v.bits

/-- `-writeToDirectory:name:` -/
def writeToDirectory (v : BitVector) (d : Directory) (name : FileName) : Directory × BitVector :=
  (d.writeFile name v.fileBytes, v.counted)

def initWithDirectory : Reader BitVector := do
  let size ← readInt
  let count ← readInt
  let bits ← Reader.bytes (size.toNat / 8 + 1)
  return { size := size.toNat, bits := bits.1, count := count }

theorem toNat_mask {i : ℕ} (hi : i < 8) : (1 <<< UInt8.ofNat i : UInt8).toNat = 2 ^ i := by
  interval_cases i <;> rfl

theorem byte_bit (b : UInt8) {i : ℕ} (hi : i < 8) :
    (b &&& 1 <<< UInt8.ofNat i != 0) = b.toNat.testBit i := by
  have hand : (b &&& 1 <<< UInt8.ofNat i).toNat = (b.toNat.testBit i).toNat * 2 ^ i := by
    rw [UInt8.toNat_and, toNat_mask hi, and_two_pow]
  rw [Bool.eq_iff_iff, bne_iff_ne, ne_eq, ← UInt8.toNat_inj, hand]
  cases b.toNat.testBit i <;> simp

theorem byte_setBit (b : UInt8) {i : ℕ} (hi : i < 8) (j : ℕ) :
    (b ||| 1 <<< UInt8.ofNat i).toNat.testBit j = (b.toNat.testBit j || decide (i = j)) := by
  rw [UInt8.toNat_or, toNat_mask hi, testBit_or, testBit_two_pow]

theorem byte_count : ∀ b < 256, BYTE_COUNTS.getD b 0 = Nat.count (fun i => b.testBit i) 8 := by
  decide +kernel

theorem bit_eq (v : BitVector) (d : ℕ) : v.bit d = (v.bits.getD (d / 8) 0).toNat.testBit (d % 8) :=
  byte_bit _ (mod_lt _ (by decide))

theorem count_congr {p q : ℕ → Prop} [DecidablePred p] [DecidablePred q] {n : ℕ}
    (h : ∀ k < n, p k ↔ q k) : Nat.count p n = Nat.count q n :=
  (count_mono_left fun k hk => (h k hk).1).antisymm
    (count_mono_left fun k hk => (h k hk).2)

theorem sum_counts : ∀ bits : List UInt8,
    (bits.map fun b => BYTE_COUNTS.getD b.toNat 0).sum
      = Nat.count (fun d => (bits.getD (d / 8) 0).toNat.testBit (d % 8)) (8 * bits.length)
  | [] => by simp
  | b :: bits => by
    have hfirst : ∀ d < 8, ((b :: bits).getD (d / 8) 0).toNat.testBit (d % 8)
        = b.toNat.testBit d := by
      intro d hd
      rw [div_eq_of_lt hd, mod_eq_of_lt hd]
      rfl
    have hrest : ∀ d, ((b :: bits).getD ((8 + d) / 8) 0).toNat.testBit ((8 + d) % 8)
        = (bits.getD (d / 8) 0).toNat.testBit (d % 8) := by
      intro d
      rw [add_div_left d (by decide), add_mod_left]
      rfl
    rw [map_cons, sum_cons, sum_counts bits, byte_count _ b.toNat_lt,
      length_cons, mul_succ, add_comm (8 * bits.length), count_add]
    have h1 : Nat.count (fun i => b.toNat.testBit i) 8
        = Nat.count (fun d => ((b :: bits).getD (d / 8) 0).toNat.testBit (d % 8)) 8 :=
      count_congr fun d hd => by rw [hfirst d hd]
    rw [h1]
    exact congrArg _ (count_congr fun d _ => by rw [hrest d])

/-- The vector holds the documents `D` of the `n` there are. -/
structure Holds (n : ℕ) (D : Finset ℕ) (v : BitVector) : Prop where
  size : v.size = n
  length : v.bits.length = n / 8 + 1
  bit : ∀ d, v.bit d = decide (d ∈ D)
  count : v.count = -1 ∨ v.count = D.card

variable {n : ℕ} {D : Finset ℕ} {v : BitVector}

theorem holds_initWithSize (n : ℕ) : Holds n ∅ (initWithSize n) where
  size := rfl
  length := by simp [initWithSize]
  bit d := by
    rw [bit_eq]
    simp [initWithSize]
  count := Or.inl rfl

theorem Holds.setBit (h : Holds n D v) {d : ℕ} (hd : d < n) :
    Holds n (insert d D) (v.setBit d) where
  size := h.size
  length := by simp [BitVector.setBit, h.length]
  bit e := by
    have hlen : d / 8 < v.bits.length := by
      rw [h.length]
      exact Nat.lt_succ_of_le (Nat.div_le_div_right hd.le)
    have hbit := h.bit e
    rw [bit_eq] at hbit ⊢
    by_cases hbyte : d / 8 = e / 8
    · have hself : (v.setBit d).bits.getD (e / 8) 0
          = v.bits.getD (e / 8) 0 ||| 1 <<< UInt8.ofNat (d % 8) := by
        rw [hbyte] at hlen
        simp [BitVector.setBit, getD, hbyte, hlen]
      have hiff : d % 8 = e % 8 ↔ e = d := by omega
      rw [hself, byte_setBit _ (mod_lt _ (by decide)), hbit]
      simp [hiff, Bool.or_comm]
    · have hother : (v.setBit d).bits.getD (e / 8) 0 = v.bits.getD (e / 8) 0 := by
        simp [BitVector.setBit, getD, hbyte]
      have hne : e ≠ d := fun heq => hbyte (by rw [heq])
      rw [hother, hbit]
      simp [hne]
  count := Or.inl rfl

theorem Holds.lt (h : Holds n D v) {d : ℕ} (hd : d ∈ D) : d < 8 * v.bits.length := by
  have hbit := h.bit d
  by_contra hge
  have hlen : v.bits.length ≤ d / 8 := by omega
  rw [bit_eq, getD_eq_default _ _ hlen] at hbit
  simp [hd] at hbit

theorem Holds.card (h : Holds n D v) :
    (v.bits.map fun b => BYTE_COUNTS.getD b.toNat 0).sum = D.card := by
  rw [sum_counts, count_eq_card_filter_range]
  congr 1
  ext d
  rw [Finset.mem_filter, Finset.mem_range, ← bit_eq, h.bit, decide_eq_true_eq]
  exact ⟨And.right, fun hd => ⟨h.lt hd, hd⟩⟩

theorem Holds.counted (h : Holds n D v) : Holds n D v.counted ∧ v.counted.count = D.card := by
  unfold BitVector.counted
  split_ifs with hcount
  · rw [h.card]
    exact ⟨⟨h.size, h.length, h.bit, Or.inr rfl⟩, rfl⟩
  · exact ⟨h, h.count.resolve_left hcount⟩

theorem counted_bits (v : BitVector) : v.counted.bits = v.bits := by
  unfold counted
  split_ifs <;> rfl

theorem counted_size (v : BitVector) : v.counted.size = v.size := by
  unfold counted
  split_ifs <;> rfl

theorem Holds.reads (h : Holds n D v) (hn : n < 2 ^ 31) (hD : D ⊆ Finset.range n) :
    Reads initWithDirectory v.fileBytes v.counted := by
  obtain ⟨hc, hcount⟩ := h.counted
  have hcard : D.card ≤ n := by simpa using Finset.card_le_card hD
  have hlen : v.bits.length = (v.size : ℤ).toNat / 8 + 1 := by
    rw [h.length, h.size, Int.toNat_natCast]
  have hsize : Reads readInt (writeInt v.size) (v.size : ℤ) := by
    rw [h.size]
    exact reads_writeInt (by omega) (by omega)
  have hcounted : Reads readInt (writeInt v.counted.count) v.counted.count := by
    rw [hcount]
    exact reads_writeInt (by omega) (by omega)
  unfold fileBytes initWithDirectory
  rw [append_assoc]
  refine hsize.bind (hcounted.bind ?_)
  have hbits := (Reads.bytes ⟨v.bits, hlen⟩).bind_pure (f := fun bits =>
    ({ size := (v.size : ℤ).toNat, bits := bits.1, count := v.counted.count } : BitVector))
  have heq : ({ size := (v.size : ℤ).toNat, bits := v.bits, count := v.counted.count } : BitVector)
      = v.counted := by
    rw [Int.toNat_natCast, ← v.counted_bits, ← v.counted_size]
  rwa [heq] at hbits

end BitVector

end Etoile.Lucene
