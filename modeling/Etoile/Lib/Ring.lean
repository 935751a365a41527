import Mathlib.Data.List.Basic
import Mathlib.Data.Nat.ModEq

/-!
# Rings with free-running counters

A counter that is never reset counts the elements that have passed, up to overflow; its low bits
are the index of a slot.  Elements that lie less than one turn of the ring apart have slots of
their own.
-/

namespace Etoile

section Counters

variable {w c p : ℕ}

def counter (w n : ℕ) : BitVec w := BitVec.ofNat w n

theorem counter_add (w n m : ℕ) : counter w n + BitVec.ofNat w m = counter w (n + m) := by
  unfold counter
  rw [BitVec.ofNat_add]

theorem counter_sub (h : c ≤ p) : counter w p - counter w c = counter w (p - c) := by
  obtain ⟨d, rfl⟩ := Nat.exists_eq_add_of_le h
  rw [Nat.add_sub_cancel_left]
  unfold counter
  rw [BitVec.ofNat_add, BitVec.add_comm, BitVec.add_sub_cancel]

theorem counter_sub_toNat (h : c ≤ p) (hlt : p - c < 2 ^ w) :
    (counter w p - counter w c).toNat = p - c := by
  rw [counter_sub h]
  exact Nat.mod_eq_of_lt hlt

/-- The distance of two counters is exact, as long as it does not overflow itself. -/
theorem counter_sub_eq {n : ℕ} (h : c ≤ p) (hlt : p - c < 2 ^ w) (hn : n < 2 ^ w) :
    counter w p - counter w c = BitVec.ofNat w n ↔ p - c = n := by
  rw [← BitVec.toNat_inj, counter_sub_toNat h hlt, BitVec.toNat_ofNat, Nat.mod_eq_of_lt hn]

theorem counter_mask {k : ℕ} (h : k ≤ w) (n : ℕ) :
    (counter w n &&& BitVec.ofNat w (2 ^ k - 1)).toNat = n % 2 ^ k := by
  have hk : 2 ^ k - 1 < 2 ^ w :=
    Nat.lt_of_lt_of_le (Nat.sub_lt (Nat.two_pow_pos k) Nat.one_pos)
      (Nat.pow_le_pow_right (by omega) h)
  unfold counter
  rw [BitVec.toNat_and, BitVec.toNat_ofNat, BitVec.toNat_ofNat, Nat.mod_eq_of_lt hk,
    Nat.and_two_pow_sub_one_eq_mod, Nat.mod_mod_of_dvd _ (Nat.pow_dvd_pow 2 h)]

end Counters

section Slots

variable {α : Type*} {size b i j lo p : ℕ} {ring : ℕ → α} {xs : List α} {x : α}

theorem slot_ne (hi : b ≤ i) (hi' : i < b + size) (hj : b ≤ j) (hj' : j < b + size) (hne : i ≠ j) :
    i % size ≠ j % size := by
  intro h
  rcases Nat.lt_or_gt_of_ne hne with hlt | hlt
  · have hd := (Nat.modEq_iff_dvd' hlt.le).1 h
    have := Nat.le_of_dvd (by omega) hd
    omega
  · have hd := (Nat.modEq_iff_dvd' hlt.le).1 h.symm
    have := Nat.le_of_dvd (by omega) hd
    omega

/-- The slots hold the elements from the position `lo` on. -/
def RingHolds (ring : ℕ → α) (size lo : ℕ) (xs : List α) : Prop :=
  ∀ n x, lo ≤ n → xs[n]? = some x → ring (n % size) = x

theorem RingHolds.nil : RingHolds ring size lo [] := fun _ _ _ h => by simp at h

theorem RingHolds.mono {lo' : ℕ} (h : RingHolds ring size lo xs) (hle : lo ≤ lo') :
    RingHolds ring size lo' xs := fun n x hn => h n x (hle.trans hn)

theorem RingHolds.push (h : RingHolds ring size lo xs) (hx : ring (xs.length % size) = x) :
    RingHolds ring size lo (xs ++ [x]) := by
  intro n y hn hy
  rcases Nat.lt_trichotomy n xs.length with hlt | rfl | hgt
  · rw [List.getElem?_append_left hlt] at hy
    exact h n y hn hy
  · simpa [hx] using hy
  · have hle : (xs ++ [x]).length ≤ n := by
      simp only [List.length_append, List.length_singleton]
      omega
    rw [List.getElem?_eq_none hle] at hy
    simp at hy

theorem RingHolds.update (h : RingHolds ring size lo xs) (hlo : b ≤ lo)
    (hlen : xs.length ≤ b + size) (hp : b ≤ p) (hp' : p < b + size)
    (hfree : p < lo ∨ xs.length ≤ p) (v : α) :
    RingHolds (Function.update ring (p % size) v) size lo xs := by
  intro n y hn hy
  obtain ⟨hlt, -⟩ := List.getElem?_eq_some_iff.1 hy
  rw [Function.update_of_ne (slot_ne (hlo.trans hn) (by omega) hp hp' (by omega))]
  exact h n y hn hy

theorem prefix_concat {l : List α} (h : l <+: xs) (hx : xs[l.length]? = some x) :
    l ++ [x] <+: xs := by
  obtain ⟨t, rfl⟩ := h
  rcases t with _ | ⟨y, t⟩
  · simp at hx
  · simp only [List.getElem?_append_right le_rfl, Nat.sub_self, List.getElem?_cons_zero,
      Option.some.injEq] at hx
    subst hx
    exact ⟨t, by simp⟩

end Slots

end Etoile
