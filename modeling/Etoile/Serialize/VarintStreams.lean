import Etoile.Serialize.ETVarint

/-!
# Varints in a row

Varints that are written one after the other are read back one by one if all of them were ended.
The encoder ends those below 2²⁸ but for three powers of two; what it compares the others with is
undefined.
-/

namespace Etoile.Serialize

open BitVec List

variable {platform : ℕ → BitVec 32} {value : BitVec 64}

theorem toNat_shiftedOne {n : ℕ} (h : n < 31) : (shiftedOne platform n).toNat = 2 ^ n := by
  have hlt : 2 ^ n < 2 ^ 31 := Nat.pow_lt_pow_right (by decide) h
  have hone : (1#32 <<< n).toNat = 2 ^ n := by
    rw [toNat_shiftLeft, Nat.shiftLeft_eq]
    show 1 * 2 ^ n % 2 ^ 32 = 2 ^ n
    omega
  have hmsb : (1#32 <<< n).msb = false := by
    rw [msb_eq_false_iff_two_mul_lt, hone]
    omega
  unfold shiftedOne
  rw [if_pos h, signExtend_eq_setWidth_of_msb_false hmsb, toNat_setWidth, hone]
  exact Nat.mod_eq_of_lt (by omega)

theorem toNat_shifted (n : ℕ) :
    (UInt8.ofBitVec ((value >>> n).setWidth 8)).toNat = value.toNat / 2 ^ n % 256 := by
  show ((value >>> n).setWidth 8).toNat = _
  rw [toNat_setWidth, toNat_ushiftRight, Nat.shiftRight_eq_div_pow]

theorem varintByte_last {i : ℕ} (h : value < shiftedOne platform (7 * i + 7)) :
    (varintByte platform value i).toNat = value.toNat / 2 ^ (7 * i) % 128 := by
  unfold varintByte
  dsimp only
  rw [if_pos h, toNat_payload, toNat_shifted]
  omega

theorem varintByte_more {i : ℕ} (h : ¬ value < shiftedOne platform (7 * i + 7)) :
    (varintByte platform value i).toNat = value.toNat / 2 ^ (7 * i) % 128 + 128 := by
  unfold varintByte
  dsimp only
  rw [if_neg h, toNat_flagged, toNat_shifted]
  omega

theorem length_varintBytes_le : ∀ left i : ℕ, (varintBytes platform value left i).length ≤ left
  | 0, _ => Nat.le_refl 0
  | left + 1, i => by
    rw [varintBytes, length_cons]
    split_ifs
    · exact Nat.succ_le_succ (length_varintBytes_le left (i + 1))
    · exact Nat.succ_le_succ (Nat.zero_le left)

def Encodable (n : ℕ) : Prop := n < 2 ^ 28 ∧ n ≠ 2 ^ 7 ∧ n ≠ 2 ^ 14 ∧ n ≠ 2 ^ 21

instance (n : ℕ) : Decidable (Encodable n) := inferInstanceAs (Decidable (_ ∧ _))

/-- A number that is encoded is encoded as it should be, from each of its bytes on. -/
theorem varintBytes_eq (h : Encodable value.toNat) : ∀ {left i : ℕ}, left + i = ETVarintMaxBytes →
    i ≤ 3 → (i = 0 ∨ 2 ^ (7 * i) < value.toNat) →
      varintBytes platform value left i = varint 57 (value.toNat / 2 ^ (7 * i))
  | 0, i, hleft, hi, _ => absurd hleft (by
    unfold ETVarintMaxBytes
    omega)
  | left + 1, i, hleft, hi, hlow => by
    have hbound := h.1
    have hpow : 2 ^ (7 * i + 7) = 2 ^ (7 * i) * 128 := by rw [Nat.pow_add]
    have hone := @toNat_shiftedOne platform (7 * i + 7) (by omega)
    have hdiv : value.toNat / 2 ^ (7 * i) < 128 ↔ value.toNat < 2 ^ (7 * i + 7) := by
      rw [hpow, Nat.mul_comm (2 ^ (7 * i))]
      exact Nat.div_lt_iff_lt_mul (Nat.two_pow_pos _)
    rw [varintBytes, varint]
    by_cases hlast : value.toNat < 2 ^ (7 * i + 7)
    · have hbyte : varintByte platform value i = UInt8.ofNat (value.toNat / 2 ^ (7 * i)) := by
        have hsmall := hdiv.2 hlast
        rw [← UInt8.toNat_inj, varintByte_last (by rwa [lt_def, hone]), UInt8.toNat_ofNat',
          Nat.mod_eq_of_lt hsmall, Nat.mod_eq_of_lt (hsmall.trans (by decide))]
      rw [if_pos (hdiv.2 hlast), hbyte, if_neg]
      rintro ⟨-, hlt⟩
      rw [lt_def, Nat.mul_succ, hone] at hlt
      omega
    · have hbyte : varintByte platform value i
          = UInt8.ofNat (value.toNat / 2 ^ (7 * i) % 128 + 128) := by
        rw [← UInt8.toNat_inj, varintByte_more (by rwa [lt_def, hone]), UInt8.toNat_ofNat']
        omega
      have hnext : i + 1 ≤ 3 ∧ 2 ^ (7 * i + 7) < value.toNat := by
        rcases Nat.lt_or_ge i 3 with hlt | hge
        · refine ⟨hlt, lt_of_le_of_ne (Nat.not_lt.1 hlast) fun heq => ?_⟩
          obtain ⟨-, h1, h2, h3⟩ := h
          rcases i with _ | _ | _ | i
          · exact h1 heq.symm
          · exact h2 heq.symm
          · exact h3 heq.symm
          · omega
        · obtain rfl := Nat.le_antisymm hi hge
          exact absurd hbound hlast
      have hgo : i + 1 < ETVarintMaxBytes ∧ shiftedOne platform (7 * (i + 1)) < value := by
        rw [lt_def, Nat.mul_succ, hone]
        exact ⟨by unfold ETVarintMaxBytes; omega, hnext.2⟩
      have hquot : value.toNat / 2 ^ (7 * i) / 128 % 2 ^ 57 = value.toNat / 2 ^ (7 * (i + 1)) := by
        have hle := Nat.div_le_self value.toNat (2 ^ (7 * i + 7))
        rw [Nat.div_div_eq_div_mul, ← hpow, Nat.mul_succ]
        exact Nat.mod_eq_of_lt (lt_of_le_of_lt hle (hbound.trans (by decide)))
      rw [if_neg (mt hdiv.1 hlast), hbyte, if_pos hgo, hquot,
        varintBytes_eq h (by omega) hnext.1 (.inr hnext.2)]

theorem varintValue_eq (h : Encodable value.toNat) :
    varintBytes platform value ETVarintMaxBytes 0 = varint 57 value.toNat := by
  have heq := @varintBytes_eq platform value h ETVarintMaxBytes 0 rfl (Nat.zero_le 3) (.inl rfl)
  rwa [Nat.mul_zero, Nat.pow_zero, Nat.div_one] at heq

theorem or_payload {A k : ℕ} (hA : A < 2 ^ k) (hk : k ≤ 63) (b : UInt8) :
    BitVec.ofNat 64 A ||| ((b &&& 0x7F).toBitVec.setWidth 64 <<< k)
      = BitVec.ofNat 64 (A + b.toNat % 128 * 2 ^ k) := by
  have hsplit : 2 ^ 64 = 2 ^ k * 2 ^ (64 - k) := by
    rw [← Nat.pow_add]
    congr 1
    omega
  have hpos : 0 < 2 ^ (64 - k) := Nat.two_pow_pos _
  have hA' : A < 2 ^ 64 := lt_of_lt_of_le hA (Nat.pow_le_pow_right (by decide) (by omega))
  have hpayload : ((b &&& 0x7F).toBitVec.setWidth 64).toNat = b.toNat % 128 := by
    rw [toNat_setWidth]
    show (b &&& 0x7F).toNat % 2 ^ 64 = _
    rw [toNat_payload]
    omega
  have hshift : b.toNat % 128 * 2 ^ k % 2 ^ 64 = 2 ^ k * (b.toNat % 128 % 2 ^ (64 - k)) := by
    rw [hsplit, Nat.mul_comm, Nat.mul_mod_mul_left]
  have hsum : 2 ^ k * (b.toNat % 128 % 2 ^ (64 - k)) + A < 2 ^ 64 := by
    have hle := Nat.mul_le_mul_left (2 ^ k)
      (Nat.succ_le_of_lt (Nat.mod_lt (b.toNat % 128) hpos))
    rw [Nat.mul_succ, ← hsplit] at hle
    omega
  refine eq_of_toNat_eq ?_
  rw [toNat_or, toNat_shiftLeft, toNat_ofNat, toNat_ofNat, hpayload,
    Nat.shiftLeft_eq, hshift, Nat.mod_eq_of_lt hA', Nat.add_mod, hshift, Nat.mod_eq_of_lt hA',
    Nat.or_comm, ← Nat.two_pow_add_eq_or_of_lt hA, Nat.add_comm A, Nat.mod_eq_of_lt hsum]

theorem fromVarint_readVarint {bytes : ℕ → UInt8} : ∀ {l : List UInt8} {n : ℕ} {rest : List UInt8},
    readVarint l = some (n, rest) → ∀ {left i A : ℕ}, l.length - rest.length ≤ left →
      left + i ≤ ETVarintMaxBytes → (∀ j, ∀ h : j < l.length, bytes (i + j) = l[j]) →
        A < 2 ^ (7 * i) → fromVarint bytes left i (BitVec.ofNat 64 A)
          = (.ok (BitVec.ofNat 64 (A + n * 2 ^ (7 * i))), i + (l.length - rest.length))
  | b :: l, n, rest, h, left, i, A, hleft, hi, hbytes, hA => by
    have hb : bytes i = b := hbytes 0 (Nat.succ_pos _)
    have hpow : 2 ^ (7 * (i + 1)) = 2 ^ (7 * i) * 128 := by rw [Nat.mul_succ, Nat.pow_add]
    unfold ETVarintMaxBytes at hi
    rw [readVarint] at h
    split_ifs at h with hlast
    · cases h
      rw [length_cons] at hleft ⊢
      obtain ⟨left, rfl⟩ := Nat.exists_eq_succ_of_ne_zero (n := left) (by omega)
      rw [fromVarint_last (hb ▸ hlast), hb, or_payload hA (by omega), Nat.mod_eq_of_lt hlast,
        Nat.add_sub_cancel_left]
    · obtain ⟨⟨m, rest'⟩, hm, heq⟩ := Option.map_eq_some_iff.1 h
      obtain rfl : rest' = rest := congrArg Prod.snd heq
      obtain rfl : b.toNat - 128 + 128 * m = n := congrArg Prod.fst heq
      have hle := consumes_readVarint l m rest' hm
      rw [length_cons] at hleft ⊢
      obtain ⟨left, rfl⟩ := Nat.exists_eq_succ_of_ne_zero (n := left) (by omega)
      have hnext : ∀ j, ∀ h : j < l.length, bytes (i + 1 + j) = l[j] := fun j hj => by
        have hj' := hbytes (j + 1) (Nat.succ_lt_succ hj)
        rwa [getElem_cons_succ, ← Nat.succ_add_eq_add_succ] at hj'
      have hlt : A + b.toNat % 128 * 2 ^ (7 * i) < 2 ^ (7 * (i + 1)) := by
        have hmul : b.toNat % 128 * 2 ^ (7 * i) ≤ 127 * 2 ^ (7 * i) :=
          Nat.mul_le_mul_right _ (by omega)
        rw [hpow]
        omega
      have hvalue : A + b.toNat % 128 * 2 ^ (7 * i) + m * 2 ^ (7 * (i + 1))
          = A + (b.toNat - 128 + 128 * m) * 2 ^ (7 * i) := by
        have hb' := b.toNat_lt
        have hn : b.toNat % 128 = b.toNat - 128 := by omega
        rw [hpow, hn]
        ring
      have hlength : i + 1 + (l.length - rest'.length) = i + (l.length + 1 - rest'.length) := by
        omega
      rw [fromVarint_more (hb ▸ Nat.not_lt.1 hlast), hb, or_payload hA (by omega),
        fromVarint_readVarint hm (by omega) (by unfold ETVarintMaxBytes; omega) hnext hlt, hvalue,
        hlength]

section ZigZag

variable {x : BitVec 64}

theorem toNat_zigZag_of_nonneg (h : 2 * x.toNat < 2 ^ 64) : (zigZag x).toNat = 2 * x.toNat := by
  have hmsb := msb_eq_false_iff_two_mul_lt.2 h
  have hzero : x >>> 63 = 0#64 := by
    refine eq_of_toNat_eq ?_
    rw [toNat_ushiftRight, Nat.shiftRight_eq_div_pow, Nat.div_eq_of_lt (by omega)]
    rfl
  rw [zigZag, sshiftRight_eq_of_msb_false hmsb, hzero, xor_zero,
    toNat_shiftLeft, Nat.shiftLeft_eq]
  omega

theorem toNat_zigZag_of_neg (h : 2 ^ 64 ≤ 2 * x.toNat) :
    (zigZag x).toNat = 2 ^ 65 - 1 - 2 * x.toNat := by
  have hlt := x.isLt
  have hmsb := msb_eq_true_iff_two_mul_ge.2 h
  have hzero : ~~~x >>> 63 = 0#64 := by
    refine eq_of_toNat_eq ?_
    rw [toNat_ushiftRight, Nat.shiftRight_eq_div_pow, toNat_not,
      Nat.div_eq_of_lt (by omega)]
    rfl
  have hnot : ~~~(0#64) = allOnes 64 := by decide
  rw [zigZag, sshiftRight_eq_of_msb_true hmsb, hzero, hnot, xor_allOnes,
    toNat_not, toNat_shiftLeft, Nat.shiftLeft_eq]
  omega

theorem unZigZag_of_even (h : x.toNat % 2 = 0) : (unZigZag x).toNat = x.toNat / 2 := by
  have hand : x &&& 1 = 0#64 := by
    refine eq_of_toNat_eq ?_
    rw [toNat_and]
    exact (Nat.and_one_is_mod _).trans h
  rw [unZigZag, hand, neg_zero, xor_zero, toNat_ushiftRight,
    Nat.shiftRight_eq_div_pow, Nat.pow_one]

theorem unZigZag_of_odd (h : x.toNat % 2 = 1) : (unZigZag x).toNat = 2 ^ 64 - 1 - x.toNat / 2 := by
  have hand : x &&& 1 = 1#64 := by
    refine eq_of_toNat_eq ?_
    rw [toNat_and]
    exact (Nat.and_one_is_mod _).trans h
  have hneg : -(1#64) = allOnes 64 := by decide
  rw [unZigZag, hand, hneg, xor_allOnes, toNat_not, toNat_ushiftRight,
    Nat.shiftRight_eq_div_pow, Nat.pow_one]

theorem unZigZag_zigZag (x : BitVec 64) : unZigZag (zigZag x) = x := by
  refine eq_of_toNat_eq ?_
  rcases Nat.lt_or_ge (2 * x.toNat) (2 ^ 64) with h | h
  · have hz := toNat_zigZag_of_nonneg h
    rw [unZigZag_of_even (by omega), hz]
    omega
  · have hz := toNat_zigZag_of_neg h
    have hlt := x.isLt
    rw [unZigZag_of_odd (by omega), hz]
    omega

/-- The encoder stops where it should, for the number itself or its zig-zag encoding. -/
def Fits (doZigZag : Bool) (num : BitVec 64) : Prop :=
  if doZigZag then
    -2 ^ 27 ≤ num.toInt ∧ num.toInt < 2 ^ 27 ∧ num.toInt ≠ 2 ^ 6 ∧ num.toInt ≠ 2 ^ 13
      ∧ num.toInt ≠ 2 ^ 20
  else Encodable num.toNat

instance decidableFits (doZigZag : Bool) (num : BitVec 64) : Decidable (Fits doZigZag num) :=
  inferInstanceAs (Decidable (ite _ _ _))

theorem encodable_iff_fits (doZigZag : Bool) (num : BitVec 64) :
    Encodable (if doZigZag then zigZag num else num).toNat ↔ Fits doZigZag num := by
  cases doZigZag with
  | false => rfl
  | true =>
    show Encodable (zigZag num).toNat ↔ _ ∧ _
    have hlt := num.isLt
    unfold Encodable
    rcases Nat.lt_or_ge (2 * num.toNat) (2 ^ 64) with h | h
    · rw [toNat_zigZag_of_nonneg h, toInt_eq_toNat_cond, if_pos h]
      omega
    · rw [toNat_zigZag_of_neg h, toInt_eq_toNat_cond, if_neg (Nat.not_lt.2 h)]
      omega

end ZigZag

section Streams

variable {beyond : ℕ → UInt8} {doZigZag : Bool}

theorem readAndPrune_encoded {num : BitVec 64} (h : Fits doZigZag num) (rest : List UInt8) :
    readAndPruneVarintWithZigZagEncoding beyond doZigZag
      (varintValueWithZigZagEncoding platform doZigZag num ++ rest) = (rest, .ok num) := by
  have henc := (encodable_iff_fits doZigZag num).2 h
  generalize hv : (if doZigZag then zigZag num else num) = v at henc
  have hvarint : varintValueWithZigZagEncoding platform doZigZag num = varint 57 v.toNat := by
    unfold varintValueWithZigZagEncoding
    rw [hv]
    exact varintValue_eq henc
  have hlength := @length_varintBytes_le platform v ETVarintMaxBytes 0
  rw [varintValue_eq henc] at hlength
  have hsub : (varint 57 v.toNat ++ rest).length - rest.length = (varint 57 v.toNat).length := by
    rw [length_append, Nat.add_sub_cancel]
  have hread := @fromVarint_readVarint (memory beyond (varint 57 v.toNat ++ rest)) _ _ _
    (@reads_varint 57 _ v.isLt rest) ETVarintMaxBytes 0 0
    (by rwa [hsub]) (Nat.le_refl _) (fun j hj => by rw [Nat.zero_add, memory_of_lt hj])
    Nat.one_pos
  rw [hsub, Nat.zero_add, Nat.zero_add, Nat.mul_zero, Nat.pow_zero, Nat.mul_one,
    ofNat_toNat, setWidth_eq] at hread
  rw [hvarint, readAndPrune_of_read (by rw [length_append]; omega) hread, drop_left]
  cases doZigZag with
  | false =>
    rw [← hv]
    rfl
  | true =>
    rw [← hv]
    show (rest, Except.ok (unZigZag (zigZag num))) = _
    rw [unZigZag_zigZag]

theorem readVarints_encoded : ∀ {nums : List (BitVec 64)}, (∀ num ∈ nums, Fits doZigZag num) →
    readVarints beyond doZigZag nums.length
      (nums.flatMap (varintValueWithZigZagEncoding platform doZigZag)) = some (nums, [])
  | [], _ => rfl
  | num :: nums, h => by
    rw [length_cons, flatMap_cons, readVarints,
      readAndPrune_encoded (h num mem_cons_self)]
    show (readVarints beyond doZigZag nums.length _).map _ = _
    rw [readVarints_encoded fun n hn => h n (mem_cons_of_mem num hn)]
    rfl

def endsVarint (b : UInt8) : Bool := b.toNat < 128

theorem not_endsVarint_of_more {i : ℕ} (h : ¬ value < shiftedOne platform (7 * i + 7)) :
    ¬ endsVarint (varintByte platform value i) = true := by
  unfold endsVarint
  rw [varintByte_more h, decide_eq_true_eq]
  omega

theorem countP_varintBytes_le : ∀ left i : ℕ,
    (varintBytes platform value left i).countP endsVarint ≤ 1
  | 0, _ => Nat.zero_le 1
  | left + 1, i => by
    rw [varintBytes]
    split_ifs with hgo
    · rw [countP_cons_of_neg (not_endsVarint_of_more ?_)]
      · exact countP_varintBytes_le left (i + 1)
      · rw [lt_def]
        exact Nat.not_lt.2 (Nat.le_of_lt (lt_def.1 hgo.2))
    · exact countP_le_length

/-- A platform on which an `int` that is shifted out of its bits is zero. -/
def zeros (_ : ℕ) : BitVec 32 := 0

theorem countP_varintBytes_eq_zero (h : ¬ Encodable value.toNat) : ∀ left i : ℕ,
    i = 0 ∨ 5 ≤ i ∨ 2 ^ (7 * i) < value.toNat →
      (varintBytes zeros value left i).countP endsVarint = 0
  | 0, _, _ => rfl
  | left + 1, i, hi => by
    have hone : ∀ j, 5 ≤ j → shiftedOne zeros (7 * j) = 0 := fun j hj => by
      unfold shiftedOne
      rw [if_neg (show ¬ 7 * j < 31 by omega)]
      rfl
    have hmore : ¬ value < shiftedOne zeros (7 * i + 7) := by
      rcases Nat.lt_or_ge i 4 with hlt | hge
      · rw [lt_def, toNat_shiftedOne (by omega)]
        intro hsmall
        refine h ?_
        unfold Encodable
        have hcases : i = 0 ∨ i = 1 ∨ i = 2 ∨ i = 3 := by omega
        rcases hcases with rfl | rfl | rfl | rfl <;>
          simp only [Nat.reduceMul, Nat.reduceAdd] at hi hsmall <;> omega
      · rw [← Nat.mul_succ, hone _ (Nat.succ_le_succ hge), lt_def]
        exact Nat.not_lt_zero _
    rw [varintBytes, countP_cons_of_neg (not_endsVarint_of_more hmore)]
    split_ifs with hgo
    · refine countP_varintBytes_eq_zero h left (i + 1) ?_
      rcases Nat.lt_or_ge (i + 1) 5 with hlt | hge
      · have hpow := lt_def.1 hgo.2
        rw [toNat_shiftedOne (by omega)] at hpow
        exact .inr (.inr hpow)
      · exact .inr (.inl hge)
    · rfl

theorem countP_encoded_le : ∀ nums : List (BitVec 64),
    (nums.flatMap (varintValueWithZigZagEncoding zeros doZigZag)).countP endsVarint
      ≤ nums.countP fun num => Fits doZigZag num
  | [] => Nat.le_refl 0
  | num :: nums => by
    have ih := countP_encoded_le nums
    rw [flatMap_cons, countP_append]
    unfold varintValueWithZigZagEncoding at ih ⊢
    by_cases hnum : Fits doZigZag num
    · have hle := @countP_varintBytes_le zeros (if doZigZag then zigZag num else num)
        ETVarintMaxBytes 0
      rw [countP_cons_of_pos (by simpa using hnum)]
      omega
    · have hzero := countP_varintBytes_eq_zero (mt (encodable_iff_fits doZigZag num).1 hnum)
        ETVarintMaxBytes 0 (.inl rfl)
      rw [countP_cons_of_neg (by simpa using hnum), hzero, Nat.zero_add]
      exact ih

theorem le_countP_of_readVarints : ∀ {n : ℕ} {data : List UInt8}
    {r : List (BitVec 64) × List UInt8}, readVarints beyond doZigZag n data = some r →
      n ≤ data.countP endsVarint
  | 0, _, _, _ => Nat.zero_le _
  | n + 1, data, r, h => by
    unfold readVarints readAndPruneVarintWithZigZagEncoding at h
    rcases hread : ETUnsignedIntegerFromVarint (memory beyond data) with ⟨v | v, k⟩
    · rw [hread] at h
      cases h
    · rw [hread] at h
      obtain ⟨hpos, hlast⟩ := last_of_ok hread
      dsimp only at h
      by_cases hk : k ≤ data.length
      · rw [if_pos hk] at h
        obtain ⟨r', hr', -⟩ := Option.map_eq_some_iff.1 h
        have ih := le_countP_of_readVarints hr'
        have hlt : k - 1 < data.length := by omega
        rw [memory_of_lt hlt] at hlast
        have hmem : data[k - 1] ∈ data.take k :=
          mem_take_iff_getElem.2 ⟨k - 1, by omega, rfl⟩
        have hone : 0 < (data.take k).countP endsVarint :=
          countP_pos_iff.2 ⟨_, hmem, by simpa [endsVarint] using hlast⟩
        rw [← take_append_drop k data, countP_append]
        omega
      · rw [if_neg hk] at h
        cases h

/-- Each of the integers is encoded in ten bytes at most, and they are read back one by one, which
leaves nothing. -/
def RoundTrips (platform : ℕ → BitVec 32) (beyond : ℕ → UInt8) (doZigZag : Bool)
    (nums : List (BitVec 64)) : Prop :=
  readVarints beyond doZigZag nums.length
      (nums.flatMap (varintValueWithZigZagEncoding platform doZigZag)) = some (nums, [])
    ∧ ∀ num ∈ nums,
      (varintValueWithZigZagEncoding platform doZigZag num).length ≤ ETVarintMaxBytes

/-- Whatever the undefined shifts come to, and whatever lies behind the buffer. -/
theorem roundTrips_iff (doZigZag : Bool) (nums : List (BitVec 64)) :
    (∀ platform beyond, RoundTrips platform beyond doZigZag nums)
      ↔ ∀ num ∈ nums, Fits doZigZag num := by
  constructor
  · intro h
    have hcount := le_countP_of_readVarints (h zeros 0).1
    have heq := Nat.le_antisymm countP_le_length
      (hcount.trans (@countP_encoded_le doZigZag nums))
    intro num hnum
    simpa using countP_eq_length.1 heq num hnum
  · intro h platform beyond
    exact ⟨readVarints_encoded h, fun num _ => length_varintBytes_le _ _⟩

/-- The loop ends when the bits that are left are just a power of two. -/
theorem power_not_roundTrips : ¬ ∀ platform beyond, RoundTrips platform beyond false [128#64] := by
  intro h
  have hround := (h zeros 0).1
  revert hround
  decide

end Streams

end Etoile.Serialize
