import Mathlib.Tactic.Positivity
import Mathlib.Tactic.Ring

/-!
# Floats of one byte

A float is the integer of its bits: of two that are not negative, the larger one has the larger
bits.
-/

namespace Etoile.Lucene.SmallFloat

/-- `(char)`, as it is read again. -/
def char (i : ℤ) : ℕ := (i % 0x100).toNat

def floatToByte (numMantissaBits : ℕ) (zeroExp bits : ℤ) : ℕ :=
  let fzero := (63 - zeroExp) <<< numMantissaBits
  let smallfloat := bits >>> (24 - numMantissaBits)
  if smallfloat < fzero then if bits ≤ 0 then char 0 else char 1
  else if smallfloat ≥ fzero + 0x100 then char (-1)
  else char (smallfloat - fzero)

def byteToFloat (numMantissaBits : ℕ) (zeroExp : ℤ) (b : ℕ) : ℤ :=
  if b = 0 then 0
  else (b % 0x100 : ℤ) <<< (24 - numMantissaBits) + (63 - zeroExp) <<< (24 : ℕ)

def floatToByte315 (bits : ℤ) : ℕ :=
  let smallfloat := bits >>> (24 - 3 : ℕ)
  if smallfloat < (63 - 15) <<< (3 : ℕ) then if bits ≤ 0 then char 0 else char 1
  else if smallfloat ≥ (63 - 15) <<< (3 : ℕ) + 0x100 then char (-1)
  else char (smallfloat - (63 - 15) <<< (3 : ℕ))

def byte315ToFloat (b : ℕ) : ℤ :=
  if b = 0 then 0 else (b % 0x100 : ℤ) <<< (24 - 3 : ℕ) + (63 - 15) <<< (24 : ℕ)

def floatToByte52 (bits : ℤ) : ℕ :=
  let smallfloat := bits >>> (24 - 5 : ℕ)
  if smallfloat < (63 - 2) <<< (5 : ℕ) then if bits ≤ 0 then char 0 else char 1
  else if smallfloat ≥ (63 - 2) <<< (5 : ℕ) + 0x100 then char (-1)
  else char (smallfloat - (63 - 2) <<< (5 : ℕ))

def byte52ToFloat (b : ℕ) : ℤ :=
  if b = 0 then 0 else (b % 0x100 : ℤ) <<< (24 - 5 : ℕ) + (63 - 2) <<< (24 : ℕ)

/-- No float of a byte is more than an `int`. -/
structure Supported (numMantissaBits : ℕ) (zeroExp : ℤ) : Prop where
  mantissa : numMantissaBits ≤ 24
  exponent : zeroExp ≤ 63
  largest : byteToFloat numMantissaBits zeroExp 0xff < 2 ^ 31

variable (m : ℕ) (z : ℤ)

/-- What the coding of one float is to be. -/
structure RoundedDown (v : ℤ) : Prop where
  zero : v = 0 → floatToByte m z v = 0
  underflow : 0 < v → v < byteToFloat m z 1 → floatToByte m z v = 1
  down : byteToFloat m z 1 ≤ v → byteToFloat m z (floatToByte m z v) ≤ v
  overflow : byteToFloat m z 0xff < v → floatToByte m z v = 0xff

structure Coded (x y : ℤ) : Prop where
  mono : floatToByte m z x ≤ floatToByte m z y
  rounded : RoundedDown m z x ∧ RoundedDown m z y
  decoded : ∀ b < 0x100, floatToByte m z (byteToFloat m z b) = b
  special315 : floatToByte315 x = floatToByte 3 15 x ∧ ∀ b, byte315ToFloat b = byteToFloat 3 15 b
  special52 : floatToByte52 x = floatToByte 5 2 x ∧ ∀ b, byte52ToFloat b = byteToFloat 5 2 b

/-- The float is not one of those that are below the smallest one and have its exponent and
mantissa without the last bits. -/
def OffZero (v : ℤ) : Prop := v ≠ 0 → v >>> (24 - m) ≠ (63 - z) <<< m

variable {m : ℕ} {z v : ℤ}

theorem byteToFloat_eq (hs : Supported m z) {b : ℕ} (hb : b ≠ 0) (hlt : b < 0x100) :
    byteToFloat m z b = (b + (63 - z) <<< m) * 2 ^ (24 - m) := by
  have hpow : (2 : ℤ) ^ 24 = 2 ^ m * 2 ^ (24 - m) := by
    rw [← pow_add, Nat.add_sub_cancel' hs.mantissa]
  have hmod : (b : ℤ) % 0x100 = b := by omega
  simp only [byteToFloat, hb, if_false, hmod, Int.shiftLeft_eq, hpow]
  ring

theorem char_eq {i : ℤ} (h0 : 0 ≤ i) (h : i < 0x100) : (char i : ℤ) = i := by
  unfold char
  omega

/-- The three ranges of a float that is not negative. -/
theorem floatToByte_cases (hv : 0 ≤ v) :
    (v >>> (24 - m) < (63 - z) <<< m ∧ floatToByte m z v = min v 1)
    ∨ ((63 - z) <<< m + 0x100 ≤ v >>> (24 - m) ∧ floatToByte m z v = 0xff)
    ∨ ((63 - z) <<< m ≤ v >>> (24 - m) ∧ v >>> (24 - m) < (63 - z) <<< m + 0x100
      ∧ (floatToByte m z v : ℤ) = v >>> (24 - m) - (63 - z) <<< m) := by
  unfold floatToByte
  rcases lt_or_ge (v >>> (24 - m)) ((63 - z) <<< m) with hlow | hlow
  · refine .inl ⟨hlow, ?_⟩
    simp only [hlow, if_true, char]
    split_ifs <;> omega
  · rcases lt_or_ge (v >>> (24 - m)) ((63 - z) <<< m + 0x100) with hhigh | hhigh
    · refine .inr (.inr ⟨hlow, hhigh, ?_⟩)
      simp only [hlow.not_gt, ge_iff_le, hhigh.not_ge, if_false]
      exact char_eq (by omega) (by omega)
    · exact .inr (.inl ⟨hhigh, by simp [hlow.not_gt, hhigh, char]⟩)

theorem shifted (v : ℤ) : v >>> (24 - m) * 2 ^ (24 - m) ≤ v
    ∧ v < (v >>> (24 - m) + 1) * 2 ^ (24 - m) := by
  have hpos : (0 : ℤ) < 2 ^ (24 - m) := by positivity
  rw [Int.shiftRight_eq_div_pow]
  push_cast
  exact ⟨Int.ediv_mul_le v hpos.ne', Int.lt_ediv_add_one_mul_self v hpos⟩

theorem fzero_nonneg (hs : Supported m z) : 0 ≤ (63 - z) <<< m := by
  have := hs.exponent
  rw [Int.shiftLeft_eq]
  exact mul_nonneg (by omega) (by positivity)

theorem floatToByte_zero (hs : Supported m z) : floatToByte m z 0 = 0 := by
  have hzero := fzero_nonneg hs
  rcases floatToByte_cases (m := m) (z := z) (le_refl 0) with ⟨-, h⟩ | ⟨h, -⟩ | ⟨-, -, h⟩
  · simpa using h
  · simp only [Int.zero_shiftRight] at h
    omega
  · simp only [Int.zero_shiftRight] at h
    omega

theorem floatToByte_byteToFloat (hs : Supported m z) {b : ℕ} (hb : b < 0x100) :
    floatToByte m z (byteToFloat m z b) = b := by
  rcases Nat.eq_zero_or_pos b with rfl | hpos
  · exact floatToByte_zero hs
  · have hzero := fzero_nonneg hs
    have hshift : byteToFloat m z b >>> (24 - m) = b + (63 - z) <<< m := by
      rw [byteToFloat_eq hs hpos.ne' hb, Int.shiftRight_eq_div_pow]
      push_cast
      exact Int.mul_ediv_cancel _ (by positivity)
    have hnonneg : 0 ≤ byteToFloat m z b := by
      rw [byteToFloat_eq hs hpos.ne' hb]
      positivity
    rcases floatToByte_cases (m := m) (z := z) hnonneg with ⟨h, -⟩ | ⟨h, -⟩ | ⟨-, -, h⟩ <;> omega

theorem RoundedDown.of_offZero (hs : Supported m z) (hv : 0 ≤ v) (hoff : OffZero m z v) :
    RoundedDown m z v := by
  have hpos : (0 : ℤ) < 2 ^ (24 - m) := by positivity
  have hzero := fzero_nonneg hs
  obtain ⟨hle, hlt⟩ := shifted (m := m) v
  have hfirst := byteToFloat_eq hs one_ne_zero (by omega)
  have hlast := byteToFloat_eq (b := 0xff) hs (by omega) (by omega)
  push_cast at hfirst hlast
  constructor
  · rintro rfl
    exact floatToByte_zero hs
  · intro hne hunder
    have hsmall : v >>> (24 - m) < 1 + (63 - z) <<< m :=
      lt_of_mul_lt_mul_right (hle.trans_lt (hfirst ▸ hunder)) hpos.le
    have := hoff hne.ne'
    rcases floatToByte_cases (m := m) (z := z) hv with ⟨-, h⟩ | ⟨h, -⟩ | ⟨h, -, -⟩
    · omega
    · omega
    · omega
  · intro hfrom
    have hsmall : 1 + (63 - z) <<< m < v >>> (24 - m) + 1 :=
      lt_of_mul_lt_mul_right ((hfirst ▸ hfrom).trans_lt hlt) hpos.le
    rcases floatToByte_cases (m := m) (z := z) hv with ⟨h, -⟩ | ⟨hbig, h⟩ | ⟨-, hbig, h⟩
    · omega
    · rw [h, hlast]
      exact (mul_le_mul_of_nonneg_right (by omega) hpos.le).trans hle
    · rw [byteToFloat_eq hs (by omega) (by omega), h]
      simpa using hle
  · intro hover
    have hsmall : 255 + (63 - z) <<< m < v >>> (24 - m) + 1 :=
      lt_of_mul_lt_mul_right ((hlast ▸ hover).trans hlt) hpos.le
    rcases floatToByte_cases (m := m) (z := z) hv with ⟨h, -⟩ | ⟨-, h⟩ | ⟨-, _, h⟩ <;> omega

theorem RoundedDown.offZero (hs : Supported m z) (hv : 0 ≤ v) (h : RoundedDown m z v) :
    OffZero m z v := by
  intro hne heq
  have hpos : (0 : ℤ) < 2 ^ (24 - m) := by positivity
  have hfirst := byteToFloat_eq hs one_ne_zero (by omega)
  have hunder : v < byteToFloat m z 1 := by
    have := (shifted (m := m) v).2
    rw [heq] at this
    rw [hfirst, Nat.cast_one, add_comm]
    exact this
  have hone := h.underflow (by omega) hunder
  rcases floatToByte_cases (m := m) (z := z) hv with ⟨h, -⟩ | ⟨h, -⟩ | ⟨-, -, h⟩ <;> omega

theorem floatToByte_mono {x y : ℤ} (hx : 0 ≤ x) (hxy : x ≤ y)
    (hoff : OffZero m z y) : floatToByte m z x ≤ floatToByte m z y := by
  have hle : x >>> (24 - m) ≤ y >>> (24 - m) := by
    simp only [Int.shiftRight_eq_div_pow]
    exact Int.ediv_le_ediv (by positivity) hxy
  rcases eq_or_ne y 0 with rfl | hy
  · rw [le_antisymm hxy hx]
  have := hoff hy
  rcases floatToByte_cases (m := m) (z := z) hx with ⟨_, h⟩ | ⟨_, h⟩ | ⟨_, _, h⟩ <;>
    rcases floatToByte_cases (m := m) (z := z) (hx.trans hxy) with ⟨_, h'⟩ | ⟨_, h'⟩ | ⟨_, _, h'⟩ <;>
      omega

/-- Both floats are coded well just if neither has the exponent and the mantissa of zero, except
zero itself. -/
theorem coded_iff {x y : ℤ} (hs : Supported m z) (hx : 0 ≤ x) (hxy : x ≤ y) :
    Coded m z x y ↔ OffZero m z x ∧ OffZero m z y := by
  constructor
  · rintro ⟨-, hrounded, -, -, -⟩
    exact ⟨hrounded.1.offZero hs hx, hrounded.2.offZero hs (hx.trans hxy)⟩
  · rintro ⟨hoffx, hoffy⟩
    exact ⟨floatToByte_mono hx hxy hoffy, ⟨.of_offZero hs hx hoffx,
      .of_offZero hs (hx.trans hxy) hoffy⟩, fun b => floatToByte_byteToFloat hs,
      ⟨rfl, fun _ => rfl⟩, ⟨rfl, fun _ => rfl⟩⟩

theorem coded_one : Coded 3 15 0 0x3f800000 :=
  (coded_iff ⟨by decide, by decide, by decide⟩ (by decide) (by decide)).2
    ⟨fun h => absurd rfl h, fun _ => by decide⟩

/-- The next larger float is coded as zero, and the one before it as the smallest one. -/
theorem not_coded : ¬∀ x y : ℤ, 0 ≤ x → x ≤ y → Coded 3 15 x y := by
  intro h
  have := (h 0x2fffffff 0x30000000 (by decide) (by decide)).mono
  revert this
  decide

end Etoile.Lucene.SmallFloat
