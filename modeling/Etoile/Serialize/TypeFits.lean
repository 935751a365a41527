import Etoile.Serialize.TypeReplay

/-!
# The types that are laid out as they are walked through

Conditions on a type, in terms of the sizes and offsets that the compiler gives to its parts.
-/

namespace Etoile.Serialize

open CType Nat

def CType.isStruct : CType → Bool
  | .struct _ _ => true
  | _ => false

def CType.Short : CType → Prop
  | .scalar _ => True
  | t => t.sizeof ≤ 4

def Members.Short : Members → Prop
  | .last _ t => t.Short
  | .cons _ t rest => t.Short ∧ rest.Short

def CType.Repeats : CType → Prop
  | .scalar _ => True
  | .struct name members =>
    members.Short ∧ (struct name members).sizeof = members.wordSize
  | .array n _ element =>
    element.sizeof = 4 ∧ element.wordSize = 4 ∧ (n = 0 ∨ element.isStruct = false)

def CType.Steady : CType → Prop
  | .scalar _ => True
  | .struct _ _ => False
  | .array n _ element => element.sizeof = 4 ∨ n = 0 ∧ element.sizeof ≤ 4

mutual

def CType.FitsAligned : CType → Prop
  | .scalar _ => True
  | .struct _ members => members.FitsFrom 0 0
  | .array n _ element => element.FitsAligned ∧ (n = 0 ∨ element.Repeats)

/-- The members before end at `stop`, and words have been taken up to `start`. -/
def Members.FitsFrom (stop start : ℕ) : Members → Prop
  | .last _ t => roundUp stop t.align = start ∧ t.FitsAligned
  | .cons _ t rest => roundUp stop t.align = start ∧ t.FitsAligned ∧ t.Steady
    ∧ rest.FitsFrom (start + t.sizeof) (start + max t.sizeof 4)

end

/-- No structure has two members, and none is followed by another in an array. -/
def CType.Plain : CType → Prop
  | .scalar _ => True
  | .struct _ (.last _ _) => True
  | .struct _ (.cons _ _ _) => False
  | .array n _ element => element.Plain ∧ (n = 0 ∨ element.isStruct = false)

structure CType.Fits (registered : List Char → Bool) (t : CType) : Prop where
  simple : t.simple registered = true
  depth : t.depth < 20
  aligned : t.FitsAligned
  plain : 4 ≤ t.align ∨ t.Plain

theorem Scalar.size_cases (c : Scalar) : c.size = 1 ∨ c.size = 2 ∨ c.size = 4 ∨ c.size = 8 := by
  cases c with
  | intrinsic type => cases type <;> decide
  | _ => decide

mutual

theorem CType.align_cases : ∀ t : CType, t.align = 1 ∨ t.align = 2 ∨ t.align = 4 ∨ t.align = 8
  | .scalar c => c.size_cases
  | .struct _ ms => ms.align_cases
  | .array _ _ element => element.align_cases

theorem Members.align_cases : ∀ ms : Members,
    ms.align = 1 ∨ ms.align = 2 ∨ ms.align = 4 ∨ ms.align = 8
  | .last _ t => t.align_cases
  | .cons _ t ms => by
    have ht := t.align_cases
    have hms := ms.align_cases
    rw [Members.align]
    omega

end

theorem CType.wordSize_flat : ∀ {t : CType}, t.flat = true → t.wordSize = t.sizeof
  | .scalar _, _ => rfl
  | .array n _ element, hflat => by
    rw [wordSize, sizeof, wordSize_flat (t := element) hflat]

theorem CType.sizeof_pos_flat : ∀ {t : CType}, t.flat = true → 0 < t.sizeof
  | .scalar c, _ => by
    have := c.size_cases
    rw [sizeof]
    omega
  | .array n _ element, hflat => by
    rw [sizeof]
    exact mul_pos (Nat.succ_pos n) (sizeof_pos_flat (t := element) hflat)

theorem Members.le_wordSize : ∀ ms : Members, 4 ≤ ms.wordSize
  | .last _ _ => le_max_right _ _
  | .cons _ t _ => (le_max_right t.wordSize WORD_SIZE).trans (le_add_right _ _)

section Strides

variable {t : CType} {p : ℕ}

theorem nextMember_scalar (c : Scalar) (hp : 4 ∣ p) : nextMember p c.size = p + max c.size 4 := by
  obtain ⟨k, rfl⟩ := hp
  unfold nextMember roundUp
  rcases c.size_cases with h | h | h | h <;> rw [h] <;> omega

theorem nextMember_four (hp : 4 ∣ p) : nextMember p 4 = p + 4 := by
  obtain ⟨k, rfl⟩ := hp
  unfold nextMember roundUp
  omega

theorem stride_array {n s : ℕ} : 4 + 4 * n = (n + 1) * s ↔ s = 4 := by
  constructor
  · intro h
    have hmul : (n + 1) * 4 = (n + 1) * s := by omega
    exact (Nat.eq_of_mul_eq_mul_left (Nat.succ_pos n) hmul).symm
  · rintro rfl
    omega

theorem stride_scalar {n s : ℕ} : 4 + s * n = (n + 1) * s ↔ s = 4 := by
  rw [succ_mul, mul_comm s n]
  omega

/-- The elements of the type are as far apart on both sides as for the compiler. -/
def CType.Strides (t : CType) (p : ℕ) : Prop :=
  t.wordSize = t.sizeof ∧ t.unit + t.extra p = t.sizeof

theorem strides_scalar (c : Scalar) : (scalar c).Strides p := ⟨rfl, rfl⟩

theorem strides_array {n : ℕ} {small : n + 1 < 2 ^ 32} :
    (array n small t).Strides p ↔ (array n small t).Repeats := by
  show (n + 1) * t.wordSize = (n + 1) * t.sizeof ∧ 4 + t.unit * n = (n + 1) * t.sizeof ↔ _ ∧ _ ∧ _
  rw [Nat.mul_right_inj (Nat.succ_ne_zero n)]
  cases t with
  | scalar c =>
    show c.size = c.size ∧ 4 + c.size * n = (n + 1) * c.size ↔ c.size = 4 ∧ c.size = 4 ∧ _
    rw [stride_scalar]
    simp [isStruct]
  | struct name ms =>
    show ms.wordSize = _ ∧ 4 + 0 * n = _ ↔ _ ∧ ms.wordSize = 4 ∧ _
    have hword := ms.le_wordSize
    rw [zero_mul, add_zero]
    constructor
    · rintro ⟨heq, hmul⟩
      rw [← heq] at hmul ⊢
      have hn : n = 0 := by
        by_contra hn
        have := mul_le_mul (by omega : 2 ≤ n + 1) hword
        omega
      rw [hn, zero_add, one_mul] at hmul
      exact ⟨hmul.symm, hmul.symm, .inl hn⟩
    · rintro ⟨hsize, hwords, hn | hn⟩
      · rw [hsize, hwords, hn]
        exact ⟨rfl, rfl⟩
      · cases hn
  | array n' _ element =>
    show _ ∧ 4 + 4 * n = _ ↔ _
    rw [stride_array]
    constructor
    · rintro ⟨heq, hsize⟩
      exact ⟨hsize, heq.trans hsize, .inr rfl⟩
    · rintro ⟨hsize, hwords, -⟩
      exact ⟨hwords.trans hsize.symm, hsize⟩

theorem strides_flat (hflat : t.flat = true) : t.Strides p ↔ t.Repeats := by
  cases t with
  | scalar c => exact iff_of_true (strides_scalar c) trivial
  | struct _ _ => cases hflat
  | array n small element => exact strides_array

/-- The next member of a structure is looked for where the serializer takes it from. -/
theorem steady_iff (hflat : t.flat = true) (hp : 4 ∣ p) :
    nextMember p t.unit + t.extra p = p + max t.sizeof 4 ↔ t.Steady := by
  cases t with
  | scalar c => exact iff_of_true (nextMember_scalar c hp) trivial
  | struct _ _ => cases hflat
  | array n _ element =>
    show nextMember p 4 + element.unit * n = p + max ((n + 1) * element.sizeof) 4 ↔ _ ∨ _ ∧ _
    rw [nextMember_four hp]
    cases element with
    | scalar c =>
      show p + 4 + c.size * n = p + max ((n + 1) * c.size) 4 ↔ c.size = 4 ∨ n = 0 ∧ c.size ≤ 4
      rcases c.size_cases with h | h | h | h <;> rw [h] <;> omega
    | struct _ _ => cases hflat
    | array n' small' element =>
      show p + 4 + 4 * n = p + max ((n + 1) * (array n' small' element).sizeof) 4 ↔ _
      constructor
      · intro h
        rcases le_total ((n + 1) * (array n' small' element).sizeof) 4 with hle | hle
        · rw [max_eq_right hle] at h
          have hn : n = 0 := by omega
          rw [hn, zero_add, one_mul] at hle
          exact .inr ⟨hn, hle⟩
        · rw [max_eq_left hle] at h
          exact .inl ((@stride_array n _).1 (by omega))
      · rintro (h | ⟨hn, hle⟩)
        · rw [h]
          omega
        · rw [hn, zero_add, one_mul, max_eq_right hle]

theorem steady_dvd : ∀ {t : CType}, t.Steady → 4 ∣ max t.sizeof 4
  | .scalar c, _ => by
    show 4 ∣ max c.size 4
    rcases c.size_cases with h | h | h | h <;> rw [h] <;> decide
  | .array n _ element, h => by
    show 4 ∣ max ((n + 1) * element.sizeof) 4
    rcases h with h | ⟨hn, hle⟩
    · rw [h, max_eq_left (by omega)]
      exact dvd_mul_left ..
    · rw [hn, zero_add, one_mul, max_eq_right hle]

end Strides

/-- What a member adds to the size of its structure for the deserializer. -/
def CType.share : CType → ℕ
  | .scalar c => max c.size 4
  | .struct _ _ => 0
  | .array _ _ _ => 4

def Members.share : Members → ℕ
  | .last _ t => t.share
  | .cons _ t rest => t.share + rest.share

section Shares

variable {p : ℕ}

theorem nextMember_share (hp : 4 ∣ p) : ∀ {t : CType}, t.flat = true →
    nextMember p t.unit = p + t.share
  | .scalar c, _ => nextMember_scalar c hp
  | .array _ _ _, _ => nextMember_four hp

theorem grown_eq_share : ∀ {ms : Members}, ms.flat = true → ∀ {stop start p : ℕ},
    ms.FitsFrom stop start → 4 ∣ p → ms.grown p = ms.share
  | .last _ t, hflat, _, _, p, _, hp => by
    rw [Members.grown, nextMember_share hp hflat, Nat.add_sub_cancel_left]
    rfl
  | .cons _ t ms, hflat, _, _, p, ⟨_, _, hsteady, hrest⟩, hp => by
    have hboth := Bool.and_eq_true_iff.1 hflat
    have hnext := (steady_iff hboth.1 hp).2 hsteady
    rw [Members.grown, hnext, nextMember_share hp hboth.1, Nat.add_sub_cancel_left,
      grown_eq_share hboth.2 hrest (Nat.dvd_add hp (steady_dvd hsteady))]
    rfl

theorem share_le : ∀ {t : CType}, t.flat = true →
    t.share ≤ max t.wordSize WORD_SIZE ∧ (t.share = max t.wordSize WORD_SIZE ↔ t.Short)
  | .scalar _, _ => ⟨le_rfl, iff_of_true rfl trivial⟩
  | .array n small t, hflat => by
    show 4 ≤ max _ 4 ∧ (4 = max _ 4 ↔ (array n small t).sizeof ≤ 4)
    rw [wordSize_flat hflat]
    omega

theorem share_members : ∀ {ms : Members}, ms.flat = true →
    ms.share ≤ ms.wordSize ∧ (ms.share = ms.wordSize ↔ ms.Short)
  | .last _ _, hflat => share_le hflat
  | .cons _ t ms, hflat => by
    have hboth := Bool.and_eq_true_iff.1 hflat
    obtain ⟨hle, hiff⟩ := share_le hboth.1
    obtain ⟨hle', hiff'⟩ := share_members hboth.2
    show t.share + ms.share ≤ max t.wordSize WORD_SIZE + ms.wordSize ∧ (_ = _ ↔ t.Short ∧ ms.Short)
    rw [← hiff, ← hiff']
    refine ⟨Nat.add_le_add hle hle', ?_⟩
    show t.share + ms.share = max t.wordSize WORD_SIZE + ms.wordSize ↔ _
    omega

theorem strides_struct {name : StructName} {ms : Members} (hflat : ms.flat = true)
    (hfits : ms.FitsFrom 0 0) (hp : 4 ∣ p) :
    (struct name ms).Strides p ↔ (struct name ms).Repeats := by
  have hshare := (share_members hflat).2
  show ms.wordSize = _ ∧ 0 + ms.grown p = _ ↔ ms.Short ∧ _ = ms.wordSize
  rw [grown_eq_share hflat hfits hp, ← hshare]
  omega

theorem short_dvd : ∀ {t : CType}, t.flat = true → t.Short → 4 ∣ max t.wordSize 4
  | .scalar c, _, _ => steady_dvd (t := .scalar c) trivial
  | .array _ _ t, hflat, h => by
    rw [wordSize_flat hflat, max_eq_right h]

theorem short_members_dvd : ∀ {ms : Members}, ms.flat = true → ms.Short → 4 ∣ ms.wordSize
  | .last _ _, hflat, h => short_dvd hflat h
  | .cons _ _ _, hflat, h => by
    have hboth := Bool.and_eq_true_iff.1 hflat
    exact Nat.dvd_add (short_dvd hboth.1 h.1) (short_members_dvd hboth.2 h.2)

end Shares

end Etoile.Serialize
