import Mathlib

/-!
# Integer arithmetic on tagged words and BigInts

A value is a machine word: a small integer shifted left with the low bit set, or the address of
an object. `SmallIntMsg…` computes on the words and leaves overflows to
`smalltalk_overflow_handler`; `BigInt` computes with GMP and returns a small integer when the
result is an `int` that survives the shift.
-/

namespace Etoile.LanguageKit

open Int Option

/-- A word that holds no object, or the address of a BigInt with its low bit or-ed in. -/
inductive Word
  | int (bits : ℤ)
  | object (value : ℤ) (low : Bool)
  deriving DecidableEq

/-- The messages that a small integer and a BigInt both answer with an integer. -/
inductive Arith
  | plus | sub | mul | div | mod | bitwiseAnd | bitwiseOr
  deriving DecidableEq

/-- The overflowing instructions, in the order of the table `ops`. -/
inductive Overflow
  | add | subtract | multiply

def Fits (w : ℕ) (x : ℤ) : Prop := -2 ^ (w - 1) ≤ x ∧ x < 2 ^ (w - 1)

instance (w : ℕ) (x : ℤ) : Decidable (Fits w x) := inferInstanceAs (Decidable (_ ∧ _))

/-- The value of a C expression of `w` bits. -/
def wrap (w : ℕ) (x : ℤ) : ℤ := bmod x (2 ^ w)

def Word.lowBit : Word → Bool
  | .int bits => bits % 2 = 1
  | .object _ low => low

/-- `word | 1`. -/
def Word.setLow : Word → Word
  | .int bits => .int (if bits % 2 = 1 then bits else bits + 1)
  | .object value _ => .object value true

/-- `word ^ 1`. -/
def Word.flipLow : Word → Word
  | .int bits => .int (if bits % 2 = 1 then bits - 1 else bits + 1)
  | .object value low => .object value !low

/-- What `-bigIntWithLongLong:` stores. -/
def bigIntWithLongLong (w : ℕ) (aVal : ℤ) : ℤ :=
  if aVal < 2 ^ (w - 1) - 1 ∧ aVal > -(2 ^ (w - 1) - 1) then aVal
  else wrap 32 (aVal / 2 ^ 32) * 2 ^ 32 + aVal % 2 ^ 32

/-- The GMP function behind each message; dividing by zero raises a signal. -/
def Arith.gmp : Arith → ℤ → ℤ → Option ℤ
  | .plus, a, b => some (a + b)
  | .sub, a, b => some (a - b)
  | .mul, a, b => some (a * b)
  | .div, a, b => if b = 0 then none else some (a.tdiv b)
  | .mod, a, b => if b = 0 then none else some (a % b)
  | .bitwiseAnd, a, b => some (a.land b)
  | .bitwiseOr, a, b => some (a.lor b)

/-- How `op2` returns its number. -/
def op2Result (n : ℤ) : Word :=
  if Fits 32 n ∧ wrap 32 (2 * n) / 2 = n then .int (wrap 32 (2 * n) + 1) else .object n false

/-- `op2`, sent to a BigInt with a BigInt. -/
def bigIntOp (op : Arith) (v other : ℤ) : Option Word := (op.gmp v other).map op2Result

/-- `smalltalk_overflow_handler`. -/
def overflowHandler (w : ℕ) (val otherval : ℤ) : Overflow → Option Word
  | .add => bigIntOp .plus (bigIntWithLongLong w (val / 2)) (bigIntWithLongLong w (otherval / 2))
  | .multiply =>
    (bigIntOp .mul (bigIntWithLongLong w (val / 2)) (bigIntWithLongLong w (otherval / 2))).map
      Word.setLow
  | .subtract => none

/-- A trapping instruction: its exact result, or what the handler makes of the operands. -/
def trapping (w : ℕ) (op : Overflow) (exact x y : ℤ) : Option Word :=
  if Fits w exact then some (.int exact) else overflowHandler w x y op

/-- `RETURN_INT(x)`. -/
def returnInt (w : ℕ) (x : ℤ) : Word :=
  if wrap w (2 * x) / 2 ≠ x then .object (bigIntWithLongLong w x) false
  else .int (wrap w (2 * x) + 1)

def smallIntPlus (w : ℕ) (obj other : ℤ) : Option Word :=
  let val := other - other % 2
  trapping w .add (obj + val) obj val

def smallIntSub (w : ℕ) (obj other : ℤ) : Option Word :=
  match trapping w .subtract (0 - (other - other % 2)) 0 (other - other % 2) with
  | some (.int val) => trapping w .add (obj + val) obj val
  | _ => none

def smallIntMul (w : ℕ) (obj other : ℤ) : Option Word :=
  let val := obj - obj % 2
  let otherval := other / 2
  (trapping w .multiply (val * otherval) val otherval).map Word.flipLow

/-- The C operators of the messages that return by `RETURN_INT`. -/
def Arith.cOp : Arith → ℤ → ℤ → ℤ
  | .mod, a, b => a.tmod b
  | .bitwiseAnd, a, b => a.land b
  | .bitwiseOr, a, b => a.lor b
  | _, a, b => a.tdiv b

/-- `SmallIntMsg…` on two tagged words. -/
def smallIntOp (w : ℕ) (op : Arith) (obj other : ℤ) : Option Word :=
  match op with
  | .plus => smallIntPlus w obj other
  | .sub => smallIntSub w obj other
  | .mul => smallIntMul w obj other
  | .div | .mod =>
    if other / 2 = 0 then none else some (returnInt w (op.cOp (obj / 2) (other / 2)))
  | .bitwiseAnd | .bitwiseOr => some (returnInt w (op.cOp (obj / 2) (other / 2)))

/-- `SmallIntMsg…` behind `OTHER_OBJECT_CAST`. -/
def smallIntMsg (w : ℕ) (op : Arith) (obj : ℤ) : Word → Option Word
  | .object value false => bigIntOp op (bigIntWithLongLong w (obj / 2)) value
  | .int other => if other % 2 = 0 then none else smallIntOp w op obj other
  | .object _ true => none

/-- The argument of a message to a real object, after `BoxObject`. -/
def boxObject (w : ℕ) : Word → Option ℤ
  | .object value false => some value
  | .int bits => if bits % 2 = 0 then none else some (bigIntWithLongLong w (bits / 2))
  | .object _ true => none

/-- A message send: small integers by the static function, objects by a real message. -/
def send (w : ℕ) (op : Arith) (receiver argument : Word) : Option Word :=
  match receiver with
  | .int obj => if obj % 2 = 0 then none else smallIntMsg w op obj argument
  | .object value false => (boxObject w argument).bind (bigIntOp op value)
  | .object _ true => none

/-- The representations of an integer: its tagged word, when it has one, and a BigInt. -/
def Word.Denotes (w : ℕ) (n : ℤ) : Word → Prop
  | .int bits => bits = 2 * n + 1 ∧ Fits w bits
  | .object value low => value = n ∧ low = false

def Word.IsInt : Word → Prop
  | .int _ => True
  | .object _ _ => False

/-- The exact results: C's division truncates, and its remainder follows the dividend. -/
def Arith.exact : Arith → ℤ → ℤ → ℤ
  | .plus, a, b => a + b
  | .sub, a, b => a - b
  | .mul, a, b => a * b
  | .div, a, b => a.tdiv b
  | .mod, a, b => a.tmod b
  | .bitwiseAnd, a, b => a.land b
  | .bitwiseOr, a, b => a.lor b

/-- Where the result is exact. Negating the least tagged word has no handler; the handler of a
product shifts an operand that is shifted already; `mpz_mod` is never negative. -/
def ExactWhen (w : ℕ) (op : Arith) (lhs rhs : Word) (a b : ℤ) : Prop :=
  match op with
  | .sub => lhs.IsInt ∧ rhs.IsInt → b ≠ -2 ^ (w - 2)
  | .mul => lhs.IsInt ∧ rhs.IsInt → Fits w (2 * a * b) ∨ b = -1
  | .mod => ¬(lhs.IsInt ∧ rhs.IsInt) → 0 ≤ a ∨ b ∣ a
  | _ => True

theorem Word.Denotes.unique {w : ℕ} {r : Word} {n m : ℤ} (h : r.Denotes w n)
    (h' : r.Denotes w m) : n = m := by
  cases r with
  | int bits =>
    obtain ⟨h, -⟩ := h
    obtain ⟨h', -⟩ := h'
    omega
  | object value low => exact h.1.symm.trans h'.1

section Width

variable {w : ℕ} (hw : w = 32 ∨ w = 64)
include hw

theorem Fits.to_long_long {x : ℤ} (h : Fits w x) : -2 ^ 63 ≤ x ∧ x < 2 ^ 63 := by
  unfold Fits at h
  rcases hw with rfl | rfl <;> norm_num at h ⊢ <;> omega

omit hw in
theorem bigIntWithLongLong_of_longLong {aVal : ℤ} (h : -2 ^ 63 ≤ aVal ∧ aVal < 2 ^ 63) :
    bigIntWithLongLong w aVal = aVal := by
  unfold bigIntWithLongLong
  split_ifs with hsmall
  · rfl
  · have hhigh : wrap 32 (aVal / 2 ^ 32) = aVal / 2 ^ 32 := by
      unfold wrap bmod
      norm_num at h ⊢
      split_ifs <;> omega
    rw [hhigh]
    omega

theorem bigIntWithLongLong_eq {aVal : ℤ} (h : Fits w aVal) :
    bigIntWithLongLong w aVal = aVal := bigIntWithLongLong_of_longLong (h.to_long_long hw)

theorem op2Result_denotes (n : ℤ) : (op2Result n).Denotes w n := by
  unfold op2Result
  split_ifs with h
  · obtain ⟨-, h⟩ := h
    have hbits : wrap 32 (2 * n) + 1 = 2 * n + 1 ∧ -2 ^ 31 ≤ wrap 32 (2 * n) + 1
        ∧ wrap 32 (2 * n) + 1 < 2 ^ 31 := by
      unfold wrap bmod at h ⊢
      norm_num at h ⊢
      split_ifs at h ⊢ <;> omega
    obtain ⟨hbits, hlo, hhi⟩ := hbits
    refine ⟨hbits, ?_⟩
    unfold Fits
    rcases hw with rfl | rfl <;> norm_num at hlo hhi ⊢ <;> omega
  · exact ⟨rfl, rfl⟩

omit hw in
theorem op2Result_of_large {n : ℤ} (h : 2 ^ 30 ≤ n) : op2Result n = .object n false := by
  unfold op2Result
  rw [if_neg]
  rintro ⟨⟨-, hlt⟩, hn⟩
  unfold wrap bmod at hn
  norm_num at h hlt hn
  split_ifs at hn <;> omega

theorem returnInt_denotes {x : ℤ} (h : Fits w x) : (returnInt w x).Denotes w x := by
  unfold returnInt
  split_ifs with hx
  · exact ⟨bigIntWithLongLong_eq hw h, rfl⟩
  · rw [not_not] at hx
    have hbits : wrap w (2 * x) + 1 = 2 * x + 1 ∧ Fits w (wrap w (2 * x) + 1) := by
      unfold wrap bmod at hx ⊢
      unfold Fits
      rcases hw with rfl | rfl <;> norm_num at hx ⊢ <;> split_ifs at hx ⊢ <;> omega
    exact hbits

variable {a b : ℤ}

omit hw in
theorem Arith.gmp_eq (op : Arith) (hb : op = .div ∨ op = .mod → b ≠ 0)
    (hmod : op ≠ .mod) : op.gmp a b = some (op.exact a b) := by
  cases op <;> simp_all [Arith.gmp, Arith.exact]

omit hw in
/-- `mpz_mod` is the remainder of C just where it does not have to be negative. -/
theorem emod_eq_tmod (hb : b ≠ 0) : a % b = a.tmod b ↔ 0 ≤ a ∨ b ∣ a := by
  have hpos : 0 < b.natAbs := natAbs_pos.mpr hb
  rw [tmod_eq_emod]
  split_ifs with h
  · simp [h]
  · simp only [h, iff_false]
    omega

theorem bigIntOp_exact (op : Arith) (hb : op = .div ∨ op = .mod → b ≠ 0) :
    (∃ r, bigIntOp op a b = some r ∧ r.Denotes w (op.exact a b))
      ↔ (op = .mod → 0 ≤ a ∨ b ∣ a) := by
  unfold bigIntOp
  by_cases hmod : op = .mod
  · subst hmod
    have hb := hb (Or.inr rfl)
    have hgmp : Arith.mod.gmp a b = some (a % b) := if_neg hb
    rw [hgmp]
    constructor
    · rintro ⟨r, hr, hden⟩ -
      obtain rfl : op2Result (a % b) = r := by simpa using hr
      exact (emod_eq_tmod hb).mp ((op2Result_denotes hw _).unique hden)
    · intro h
      refine ⟨_, rfl, ?_⟩
      show (op2Result (a % b)).Denotes w (a.tmod b)
      rw [(emod_eq_tmod hb).mpr (h rfl)]
      exact op2Result_denotes hw _
  · rw [op.gmp_eq hb hmod]
    exact iff_of_true ⟨_, rfl, op2Result_denotes hw _⟩ (absurd · hmod)

omit hw in
theorem ldiff_lt {m n k : ℕ} (hm : m < 2 ^ k) : Nat.ldiff m n < 2 ^ k := by
  refine Nat.lt_pow_two_of_testBit _ fun i hi => ?_
  rw [Nat.testBit_ldiff, Nat.testBit_lt_two_pow (hm.trans_le (Nat.pow_le_pow_right two_pos hi)),
    Bool.false_and]

omit hw in
/-- `&` and `|` of integers of `k + 1` bits have `k + 1` bits: the natural numbers below them are
combined bit by bit. -/
theorem bitwise_fits {k : ℕ} : ∀ {a b : ℤ}, -2 ^ k ≤ a ∧ a < 2 ^ k → -2 ^ k ≤ b ∧ b < 2 ^ k →
    (-2 ^ k ≤ a.land b ∧ a.land b < 2 ^ k) ∧ (-2 ^ k ≤ a.lor b ∧ a.lor b < 2 ^ k)
  | .ofNat m, .ofNat n, ha, hb => by
    have hm : m < 2 ^ k := by zify; exact ha.2
    have hn : n < 2 ^ k := by zify; exact hb.2
    have hand : m &&& n < 2 ^ k := Nat.and_lt_two_pow m hn
    have hor : m ||| n < 2 ^ k := Nat.or_lt_two_pow hm hn
    zify at hand hor
    exact ⟨⟨by simp only [land]; omega, hand⟩, by simp only [lor]; omega, hor⟩
  | .ofNat m, .negSucc n, ha, hb => by
    have hm : m < 2 ^ k := by zify; exact ha.2
    have hn : n < 2 ^ k := by zify; omega
    have hand : Nat.ldiff m n < 2 ^ k := ldiff_lt hm
    have hor : Nat.ldiff n m < 2 ^ k := ldiff_lt hn
    zify at hand hor
    refine ⟨⟨?_, hand⟩, ?_, ?_⟩ <;> simp only [land, lor] <;> omega
  | .negSucc m, .ofNat n, ha, hb => by
    have hm : m < 2 ^ k := by zify; omega
    have hn : n < 2 ^ k := by zify; exact hb.2
    have hand : Nat.ldiff n m < 2 ^ k := ldiff_lt hn
    have hor : Nat.ldiff m n < 2 ^ k := ldiff_lt hm
    zify at hand hor
    refine ⟨⟨?_, hand⟩, ?_, ?_⟩ <;> simp only [land, lor] <;> omega
  | .negSucc m, .negSucc n, ha, hb => by
    have hm : m < 2 ^ k := by zify; omega
    have hn : n < 2 ^ k := by zify; omega
    have hand : m ||| n < 2 ^ k := Nat.or_lt_two_pow hm hn
    have hor : m &&& n < 2 ^ k := Nat.and_lt_two_pow m hn
    zify at hand hor
    refine ⟨⟨?_, ?_⟩, ?_, ?_⟩ <;> simp only [land, lor] <;> omega

theorem tagged_bounds {n : ℤ} (h : Fits w (2 * n + 1)) : -2 ^ (w - 2) ≤ n ∧ n < 2 ^ (w - 2) := by
  unfold Fits at h
  rcases hw with rfl | rfl <;> norm_num at h ⊢ <;> omega

theorem fits_of_tagged {n : ℤ} (h : Fits w (2 * n + 1)) : Fits w n ∧ Fits w (n / 2) := by
  unfold Fits at h ⊢
  rcases hw with rfl | rfl <;> norm_num at h ⊢ <;> omega

theorem fits_of_bounds {n : ℤ} (h : -2 ^ (w - 2) ≤ n ∧ n ≤ 2 ^ (w - 2)) : Fits w n := by
  unfold Fits
  rcases hw with rfl | rfl <;> norm_num at h ⊢ <;> omega

theorem trapping_add {a c : ℤ} (ha : Fits w (2 * a + 1)) (hc : Fits w (2 * c)) :
    ∃ r, trapping w .add (2 * a + 1 + 2 * c) (2 * a + 1) (2 * c) = some r
      ∧ r.Denotes w (a + c) := by
  unfold trapping
  split_ifs with hfit
  · exact ⟨_, rfl, by ring, hfit⟩
  · have hx : (2 * a + 1) / 2 = a := by omega
    have hy : 2 * c / 2 = c := by omega
    have hfc : Fits w c := by
      unfold Fits at hc ⊢
      constructor <;> omega
    unfold overflowHandler
    rw [hx, hy, bigIntWithLongLong_eq hw (fits_of_tagged hw ha).1, bigIntWithLongLong_eq hw hfc]
    exact ⟨_, rfl, op2Result_denotes hw _⟩

theorem smallIntPlus_exact (ha : Fits w (2 * a + 1)) (hb : Fits w (2 * b + 1)) :
    ∃ r, smallIntPlus w (2 * a + 1) (2 * b + 1) = some r ∧ r.Denotes w (a + b) := by
  have hval : 2 * b + 1 - (2 * b + 1) % 2 = 2 * b := by omega
  unfold smallIntPlus
  simp only [hval]
  refine trapping_add hw ha ?_
  have hb := tagged_bounds hw hb
  unfold Fits
  rcases hw with rfl | rfl <;> norm_num at hb ⊢ <;> omega

theorem smallIntSub_exact (ha : Fits w (2 * a + 1)) (hb : Fits w (2 * b + 1)) :
    (∃ r, smallIntSub w (2 * a + 1) (2 * b + 1) = some r ∧ r.Denotes w (a - b))
      ↔ b ≠ -2 ^ (w - 2) := by
  have hval : 2 * b + 1 - (2 * b + 1) % 2 = 2 * b := by omega
  have hneg : Fits w (0 - 2 * b) ↔ b ≠ -2 ^ (w - 2) := by
    have hb := tagged_bounds hw hb
    unfold Fits
    rcases hw with rfl | rfl <;> norm_num at hb ⊢ <;> omega
  unfold smallIntSub
  rw [hval]
  by_cases h : Fits w (0 - 2 * b)
  · have hstep : trapping w .subtract (0 - 2 * b) 0 (2 * b) = some (.int (2 * -b)) := by
      unfold trapping
      rw [if_pos h]
      congr 2
      ring
    rw [hstep, ← hneg]
    refine iff_of_true ?_ h
    rw [sub_eq_add_neg]
    exact trapping_add hw ha (by rwa [show 2 * -b = 0 - 2 * b by ring])
  · have hstep : trapping w .subtract (0 - 2 * b) 0 (2 * b) = none := by
      unfold trapping
      rw [if_neg h]
      rfl
    rw [hstep, ← hneg]
    exact iff_of_false (by rintro ⟨r, hr, -⟩; exact nomatch hr) h

omit hw in
/-- The low bit that the handler sets and the caller clears survives only in an object. -/
theorem setLow_flipLow_denotes {n m : ℤ} (h : (op2Result n).setLow.flipLow.Denotes w m) :
    n = m := by
  unfold op2Result at h
  split_ifs at h with hsmall
  · have hodd : (wrap 32 (2 * n) + 1) % 2 = 1 := by
      have hn := hsmall.2
      unfold wrap bmod at hn ⊢
      norm_num at hn ⊢
      split_ifs at hn ⊢ <;> omega
    obtain ⟨h, -⟩ := h
    simp only [hodd, if_true] at h
    omega
  · exact h.1

theorem smallIntMul_exact (ha : Fits w (2 * a + 1)) (hb : Fits w (2 * b + 1)) :
    (∃ r, smallIntMul w (2 * a + 1) (2 * b + 1) = some r ∧ r.Denotes w (a * b))
      ↔ Fits w (2 * a * b) ∨ b = -1 := by
  have hval : 2 * a + 1 - (2 * a + 1) % 2 = 2 * a := by omega
  have hother : (2 * b + 1) / 2 = b := by omega
  unfold smallIntMul
  simp only [hval, hother]
  by_cases hfit : Fits w (2 * a * b)
  · refine iff_of_true ⟨.int (2 * a * b + 1), ?_, by ring, ?_⟩ (Or.inl hfit)
    · have heven : ¬2 * a * b % 2 = 1 := by rw [mul_assoc]; omega
      unfold trapping
      rw [if_pos hfit, map_some]
      unfold Word.flipLow
      simp only [heven, if_false]
    · rw [mul_assoc] at hfit ⊢
      generalize a * b = n at hfit ⊢
      unfold Fits at hfit ⊢
      rcases hw with rfl | rfl <;> norm_num at hfit ⊢ <;> omega
  · have hshift : 2 * a / 2 = a := by omega
    have hhandler : trapping w .multiply (2 * a * b) (2 * a) b
        = some (op2Result (a * (b / 2))).setLow := by
      unfold trapping overflowHandler
      rw [if_neg hfit, hshift, bigIntWithLongLong_eq hw (fits_of_tagged hw ha).1,
        bigIntWithLongLong_eq hw (fits_of_tagged hw hb).2]
      rfl
    rw [hhandler, map_some]
    constructor
    · rintro ⟨r, hr, hden⟩
      obtain rfl := some.inj hr
      have hprod : a * (b / 2) = a * b := setLow_flipLow_denotes hden
      rcases eq_or_ne a 0 with rfl | hne
      · exact absurd (by rcases hw with rfl | rfl <;> norm_num [Fits]) hfit
      · have hhalf : b / 2 = b := mul_left_cancel₀ hne hprod
        rcases eq_or_ne b 0 with rfl | hb0
        · exact absurd (by rcases hw with rfl | rfl <;> norm_num [Fits]) hfit
        · exact Or.inr (by omega)
    · rintro (h | rfl)
      · exact absurd h hfit
      · have ha := tagged_bounds hw ha
        have hlarge : 2 ^ 30 ≤ a * (-1 / 2) := by
          unfold Fits at hfit
          rcases hw with rfl | rfl <;> norm_num at ha hfit ⊢ <;> omega
        refine ⟨_, rfl, ?_⟩
        rw [op2Result_of_large hlarge]
        exact ⟨by norm_num, rfl⟩

omit hw in
theorem tdiv_tmod_bounds {k : ℕ} (a b : ℤ) (h : -2 ^ k ≤ a ∧ a < 2 ^ k) :
    (-2 ^ k ≤ a.tdiv b ∧ a.tdiv b ≤ 2 ^ k) ∧ (-2 ^ k ≤ a.tmod b ∧ a.tmod b ≤ 2 ^ k) := by
  have hdiv : (a.tdiv b).natAbs ≤ a.natAbs := natAbs_tdiv_le_natAbs a b
  have hmod : (a.tmod b).natAbs ≤ a.natAbs := by
    rw [natAbs_tmod]
    exact Nat.mod_le _ _
  omega

/-- The messages that compute on the shifted words and return by `RETURN_INT`. -/
theorem returnInt_exact (op : Arith)
    (hop : op = .div ∨ op = .mod ∨ op = .bitwiseAnd ∨ op = .bitwiseOr)
    (ha : Fits w (2 * a + 1)) (hb : Fits w (2 * b + 1)) :
    (returnInt w (op.cOp a b)).Denotes w (op.exact a b) := by
  have ha := tagged_bounds hw ha
  have hb := tagged_bounds hw hb
  have hq := tdiv_tmod_bounds a b ha
  have hbit := bitwise_fits ha hb
  rcases hop with rfl | rfl | rfl | rfl
  · exact returnInt_denotes hw (fits_of_bounds hw hq.1)
  · exact returnInt_denotes hw (fits_of_bounds hw hq.2)
  · exact returnInt_denotes hw (fits_of_bounds hw ⟨hbit.1.1, hbit.1.2.le⟩)
  · exact returnInt_denotes hw (fits_of_bounds hw ⟨hbit.2.1, hbit.2.2.le⟩)

theorem smallIntOp_exact (op : Arith) (ha : Fits w (2 * a + 1))
    (hb : Fits w (2 * b + 1)) (hne : op = .div ∨ op = .mod → b ≠ 0) :
    (∃ r, smallIntOp w op (2 * a + 1) (2 * b + 1) = some r ∧ r.Denotes w (op.exact a b))
      ↔ ExactWhen w op (.int (2 * a + 1)) (.int (2 * b + 1)) a b := by
  have hshift : (2 * a + 1) / 2 = a ∧ (2 * b + 1) / 2 = b := by omega
  have hret := fun hop => returnInt_exact hw op hop ha hb
  cases op with
  | plus => exact iff_of_true (smallIntPlus_exact hw ha hb) trivial
  | sub => exact (smallIntSub_exact hw ha hb).trans ⟨fun h _ => h, fun h => h ⟨trivial, trivial⟩⟩
  | mul => exact (smallIntMul_exact hw ha hb).trans ⟨fun h _ => h, fun h => h ⟨trivial, trivial⟩⟩
  | div =>
    unfold smallIntOp
    rw [hshift.1, hshift.2, if_neg (hne (Or.inl rfl))]
    exact iff_of_true ⟨_, rfl, hret (Or.inl rfl)⟩ trivial
  | mod =>
    unfold smallIntOp
    rw [hshift.1, hshift.2, if_neg (hne (Or.inr rfl))]
    exact iff_of_true ⟨_, rfl, hret (by simp)⟩ (absurd ⟨trivial, trivial⟩ ·)
  | bitwiseAnd =>
    unfold smallIntOp
    rw [hshift.1, hshift.2]
    exact iff_of_true ⟨_, rfl, hret (by simp)⟩ trivial
  | bitwiseOr =>
    unfold smallIntOp
    rw [hshift.1, hshift.2]
    exact iff_of_true ⟨_, rfl, hret (by simp)⟩ trivial

omit hw in
theorem exactWhen_boxed (op : Arith) {lhs rhs : Word} (h : ¬(lhs.IsInt ∧ rhs.IsInt)) :
    ExactWhen w op lhs rhs a b ↔ (op = .mod → 0 ≤ a ∨ b ∣ a) := by
  cases op <;> simp [ExactWhen, h]

theorem boxObject_of_denotes {rhs : Word} {b : ℤ} (hb : rhs.Denotes w b) :
    boxObject w rhs = some b := by
  cases rhs with
  | int other =>
    obtain ⟨rfl, hb⟩ := hb
    have hodd : ¬(2 * b + 1) % 2 = 0 := by omega
    have hshift : (2 * b + 1) / 2 = b := by omega
    simp [boxObject, hshift, bigIntWithLongLong_eq hw (fits_of_tagged hw hb).1]
  | object value low =>
    obtain ⟨rfl, rfl⟩ := hb
    rfl

/-- A send between two integers is exact just when `ExactWhen` says so. -/
theorem send_exact_iff (op : Arith) {lhs rhs : Word} {a b : ℤ} (ha : lhs.Denotes w a)
    (hb : rhs.Denotes w b) (hne : op = .div ∨ op = .mod → b ≠ 0) :
    (∃ r, send w op lhs rhs = some r ∧ r.Denotes w (op.exact a b))
      ↔ ExactWhen w op lhs rhs a b := by
  have hbig := bigIntOp_exact hw op hne (a := a)
  cases lhs with
  | int obj =>
    obtain ⟨rfl, ha⟩ := ha
    have hodd : ¬(2 * a + 1) % 2 = 0 := by omega
    unfold send
    simp only [hodd, if_false]
    cases rhs with
    | int other =>
      obtain ⟨rfl, hb⟩ := hb
      have hodd : ¬(2 * b + 1) % 2 = 0 := by omega
      unfold smallIntMsg
      simp only [hodd, if_false]
      exact smallIntOp_exact hw op ha hb hne
    | object value low =>
      obtain ⟨rfl, rfl⟩ := hb
      have hshift : (2 * a + 1) / 2 = a := by omega
      unfold smallIntMsg
      simp only [hshift, bigIntWithLongLong_eq hw (fits_of_tagged hw ha).1]
      rw [exactWhen_boxed op (by rintro ⟨-, h⟩; exact h)]
      exact hbig
  | object value low =>
    obtain ⟨rfl, rfl⟩ := ha
    unfold send
    simp only [boxObject_of_denotes hw hb, bind_some]
    rw [exactWhen_boxed op (by rintro ⟨h, -⟩; exact h)]
    exact hbig

end Width

/-- `-7 rem: 3` in both representations, on 64 bits. -/
theorem send_exact_iff_seven :
    (∃ r, send 64 .mod (.int (-13)) (.int 7) = some r ∧ r.Denotes 64 (tmod (-7) 3))
      ↔ ExactWhen 64 .mod (.int (-13)) (.int 7) (-7) 3 :=
  send_exact_iff (Or.inr rfl) .mod (a := -7) (b := 3) (by unfold Word.Denotes; decide)
    (by unfold Word.Denotes; decide) (by decide)

/-- `2^61 * 4` gives `2^62`; and `-7 mod: 3` gives `-1` for tagged words, `2` for a BigInt. -/
theorem send_inexact :
    ((Word.int (2 ^ 62 + 1)).Denotes 64 (2 ^ 61) ∧ (Word.int 9).Denotes 64 4
      ∧ send 64 .mul (.int (2 ^ 62 + 1)) (.int 9) = some (.object (2 ^ 62) false)
      ∧ (2 : ℤ) ^ 62 ≠ 2 ^ 61 * 4)
    ∧ (Word.int (-13)).Denotes 64 (-7) ∧ (Word.object (-7) false).Denotes 64 (-7)
      ∧ (Word.int 7).Denotes 64 3
      ∧ send 64 .mod (.int (-13)) (.int 7) = some (.int (-1))
      ∧ send 64 .mod (.object (-7) false) (.int 7) = some (.int 5) := by
  unfold Word.Denotes
  decide

end Etoile.LanguageKit
