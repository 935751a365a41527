import Mathlib.Order.Lattice
import Mathlib.Algebra.GroupWithZero.Nat
import Mathlib.Algebra.BigOperators.Group.List.Basic

/-!
# Sorted unions

Pairs of a key and a number, such as come from several sources, and the sorted list that has every
key once, with the sum of its numbers.
-/

namespace Etoile

open List

variable {K : Type} [LinearOrder K] {k : K} {n : ℕ} {M M' U : List (K × ℕ)}

def total (k : K) (M : List (K × ℕ)) : ℕ := ((M.filter fun a => a.1 = k).map Prod.snd).sum

theorem total_cons_self : total k ((k, n) :: M) = n + total k M := by
  simp [total]

theorem total_perm (h : M.Perm M') : total k M = total k M' := ((h.filter _).map _).sum_eq

theorem total_eq_zero (h : ∀ a ∈ M, a.1 ≠ k) : total k M = 0 := by
  have hnil : (M.filter fun a => a.1 = k) = [] :=
    filter_eq_nil_iff.2 fun a ha => by simpa using h a ha
  rw [total, hnil]
  rfl

/-- `U` has the keys of `M` in order, each once. -/
structure IsUnion (M U : List (K × ℕ)) : Prop where
  increasing : U.Pairwise fun a b => a.1 < b.1
  mem_iff : ∀ k n, (k, n) ∈ U ↔ (∃ a ∈ M, a.1 = k) ∧ n = total k M

namespace IsUnion

theorem nil : IsUnion ([] : List (K × ℕ)) [] := ⟨Pairwise.nil, by simp⟩

theorem perm (h : IsUnion M U) (hperm : M.Perm M') : IsUnion M' U where
  increasing := h.increasing
  mem_iff k n := by
    rw [h.mem_iff, total_perm hperm]
    simp only [hperm.mem_iff]

theorem cons (hmem : ∃ a ∈ M, a.1 = k) (hle : ∀ a ∈ M, k ≤ a.1)
    (h : IsUnion (M.filter fun a => a.1 ≠ k) U) : IsUnion M ((k, total k M) :: U) := by
  have hkeys : ∀ b ∈ U, (∃ a ∈ M, a.1 = b.1) ∧ b.1 ≠ k := by
    intro b hb
    obtain ⟨⟨a, ha, hab⟩, -⟩ := (h.mem_iff b.1 b.2).1 hb
    rw [mem_filter, decide_eq_true_iff] at ha
    exact ⟨⟨a, ha.1, hab⟩, hab ▸ ha.2⟩
  refine ⟨pairwise_cons.2 ⟨fun b hb => ?_, h.increasing⟩, fun k' n' => ?_⟩
  · obtain ⟨⟨a, ha, hab⟩, hne⟩ := hkeys b hb
    exact lt_of_le_of_ne (hab ▸ hle a ha) hne.symm
  · rw [mem_cons, Prod.mk.injEq]
    rcases eq_or_ne k' k with rfl | hne
    · refine ⟨?_, fun hn => Or.inl ⟨rfl, hn.2⟩⟩
      rintro (hn | hU)
      · exact ⟨hmem, hn.2⟩
      · exact absurd rfl (hkeys _ hU).2
    · have htotal : total k' (M.filter fun a => a.1 ≠ k) = total k' M := by
        unfold total
        rw [filter_filter]
        congr 2
        refine filter_congr fun a _ => ?_
        rcases eq_or_ne a.1 k' with ha | ha
        · simp [ha, hne]
        · simp [ha]
      rw [h.mem_iff, htotal]
      refine ⟨?_, fun hn => Or.inr ⟨?_, hn.2⟩⟩
      · rintro (hn | ⟨⟨a, ha, hak⟩, hn⟩)
        · exact absurd hn.1 hne
        · exact ⟨⟨a, (mem_filter.1 ha).1, hak⟩, hn⟩
      · obtain ⟨⟨a, ha, hak⟩, -⟩ := hn
        exact ⟨a, mem_filter.2 ⟨ha, by simpa [hak] using hne⟩, hak⟩

end IsUnion

end Etoile
