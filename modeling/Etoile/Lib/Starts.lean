import Mathlib.Algebra.GroupWithZero.Nat
import Mathlib.Algebra.Order.BigOperators.Group.List

/-!
# Blocks laid end to end

Blocks of given lengths, some of them empty, one after another from 0 on.  Every position below the
total length is in exactly one of them.
-/

namespace Etoile

/-- Where the block `i` starts. -/
def start (lens : List ℕ) (i : ℕ) : ℕ := (lens.take i).sum

variable {lens : List ℕ} {i j n : ℕ}

@[simp] theorem start_zero (lens : List ℕ) : start lens 0 = 0 := rfl

@[simp] theorem start_cons_succ (a : ℕ) (lens : List ℕ) (i : ℕ) :
    start (a :: lens) (i + 1) = a + start lens i := by
  simp [start]

@[simp] theorem start_length (lens : List ℕ) : start lens lens.length = lens.sum := by
  simp [start]

theorem start_succ (h : lens[i]? = some n) : start lens (i + 1) = start lens i + n := by
  obtain ⟨hi, rfl⟩ := List.getElem?_eq_some_iff.1 h
  exact List.sum_take_succ lens i hi

theorem start_le_succ (lens : List ℕ) (i : ℕ) : start lens i ≤ start lens (i + 1) := by
  rcases h : lens[i]? with _ | n
  · have hi := List.getElem?_eq_none_iff.1 h
    rw [start, start, List.take_of_length_le hi, List.take_of_length_le (by omega)]
  · rw [start_succ h]
    omega

theorem start_mono (lens : List ℕ) : Monotone (start lens) :=
  monotone_nat_of_le_succ (start_le_succ lens)

/-- The position `n` is in the block `i`. -/
def InBlock (lens : List ℕ) (i n : ℕ) : Prop := start lens i ≤ n ∧ n < start lens (i + 1)

theorem InBlock.unique (hi : InBlock lens i n) (hj : InBlock lens j n) : i = j := by
  rcases lt_trichotomy i j with h | h | h
  · have := start_mono lens (show i + 1 ≤ j from h)
    have := hi.2
    have := hj.1
    omega
  · exact h
  · have := start_mono lens (show j + 1 ≤ i from h)
    have := hj.2
    have := hi.1
    omega

theorem exists_inBlock : ∀ {lens : List ℕ} {n : ℕ}, n < lens.sum →
    ∃ i < lens.length, InBlock lens i n
  | [], n, h => by simp at h
  | a :: lens, n, h => by
    by_cases hn : n < a
    · exact ⟨0, by simp, by simp, by simpa using hn⟩
    · rw [List.sum_cons] at h
      obtain ⟨i, hi, h1, h2⟩ := @exists_inBlock lens (n - a) (by omega)
      refine ⟨i + 1, by simpa using hi, ?_, ?_⟩ <;> rw [start_cons_succ] <;> omega

theorem InBlock.lt_length (h : InBlock lens i n) : i < lens.length := by
  by_contra hi
  have h1 := h.1
  have h2 := h.2
  rw [start, List.take_of_length_le (by omega)] at h1 h2
  omega

theorem existsUnique_inBlock (h : n < lens.sum) : ∃! i, InBlock lens i n := by
  obtain ⟨i, -, hi⟩ := exists_inBlock h
  exact ⟨i, hi, fun j hj => hj.unique hi⟩

end Etoile
