import Etoile.Lib.Bytes

/-!
# Numbers in bytes of seven bits

The lowest seven bits come first, and every byte but the last has its high bit set.  What the
encoder shifts down it cuts to `w` bits, so it is right for numbers of `w + 7` bits.
-/

namespace Etoile

open Option

def varint (w n : ℕ) : List UInt8 :=
  if n < 128 then [UInt8.ofNat n]
  else UInt8.ofNat (n % 128 + 128) :: varint w (n / 128 % 2 ^ w)
  termination_by n
  decreasing_by
    have := Nat.mod_le (n / 128) (2 ^ w)
    omega

def readVarint : Reader ℕ
  | [] => none
  | b :: rest =>
    if b.toNat < 128 then some (b.toNat, rest)
    else (readVarint rest).map fun p => (b.toNat - 128 + 128 * p.1, p.2)

theorem reads_varint {w n : ℕ} (h : n < 2 ^ (w + 7)) : Reads readVarint (varint w n) n := by
  intro rest
  have hpow : 2 ^ (w + 7) = 128 * 2 ^ w := by ring
  unfold varint
  split_ifs with hn
  · have hb : (UInt8.ofNat n).toNat = n := by
      rw [UInt8.toNat_ofNat']
      omega
    simp only [List.cons_append, List.nil_append, readVarint, hb, hn, if_true]
  · have hb : (UInt8.ofNat (n % 128 + 128)).toNat = n % 128 + 128 := by
      rw [UInt8.toNat_ofNat']
      omega
    have hlt : n / 128 < 2 ^ w := by omega
    have ih := @reads_varint w (n / 128) (by omega) rest
    rw [Nat.mod_eq_of_lt hlt, List.cons_append, readVarint, hb, if_neg (by omega), ih]
    simp only [map_some, some.injEq, Prod.mk.injEq, and_true]
    omega
  termination_by n

theorem exists_reads_varint (w n : ℕ) : ∃ m, Reads readVarint (varint w n) m := by
  unfold varint
  split_ifs with hn
  · have hb : (UInt8.ofNat n).toNat = n := by
      rw [UInt8.toNat_ofNat']
      omega
    exact ⟨n, fun rest => by simp [readVarint, hb, hn]⟩
  · have hb : (UInt8.ofNat (n % 128 + 128)).toNat = n % 128 + 128 := by
      rw [UInt8.toNat_ofNat']
      omega
    have hle := Nat.mod_le (n / 128) (2 ^ w)
    obtain ⟨m, hm⟩ := exists_reads_varint w (n / 128 % 2 ^ w)
    refine ⟨n % 128 + 128 * m, fun rest => ?_⟩
    rw [List.cons_append, readVarint, hb, if_neg (by omega), hm, map_some,
      Nat.add_sub_cancel]
  termination_by n

theorem consumes_readVarint : Consumes readVarint
  | b :: l, n, rest, h => by
    rw [readVarint] at h
    split_ifs at h
    · cases h
      exact Nat.le_succ _
    · obtain ⟨⟨m, rest'⟩, hm, heq⟩ := map_eq_some_iff.1 h
      cases heq
      exact (consumes_readVarint l m rest' hm).trans (Nat.le_succ _)

end Etoile
