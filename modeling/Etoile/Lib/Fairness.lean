import Mathlib.Data.Nat.Notation

/-!
# What fair schedules reach

A schedule says which step is made at each time.  In a state that is not a goal yet one step
helps: it lowers a measure that no other step raises, and it goes on to help until the measure is
lowered.  A schedule that comes back to every step then reaches a goal.
-/

namespace Etoile

variable {σ ι : Type*}

def stateAt (step : σ → ι → σ) (s : σ) (schedule : ℕ → ι) : ℕ → σ
  | 0 => s
  | n + 1 => step (stateAt step s schedule n) (schedule n)

theorem stateAt_invariant {step : σ → ι → σ} (I : σ → Prop) {C : σ → ι → Prop} {s : σ}
    {schedule : ℕ → ι} (hs : I s) (hstep : ∀ s i, I s → C s i → I (step s i)) :
    ∀ {n : ℕ}, (∀ m < n, C (stateAt step s schedule m) (schedule m)) →
      I (stateAt step s schedule n)
  | 0, _ => hs
  | n + 1, hC => hstep _ _ (stateAt_invariant I hs hstep fun m hm => hC m (Nat.lt_succ_of_lt hm))
    (hC n (Nat.lt_succ_self n))

section Reaching

variable {x : ℕ → σ} {schedule : ℕ → ι} {start : ℕ} {Goal : σ → Prop} {measure : σ → ℕ}
  {helper : σ → ι}
  (hfair : ∀ n k, ∃ m, k ≤ m ∧ schedule m = helper (x n))
  (hstep : ∀ n, start ≤ n → ¬ Goal (x n) → measure (x (n + 1)) < measure (x n)
    ∨ schedule n ≠ helper (x n) ∧ measure (x (n + 1)) = measure (x n)
      ∧ helper (x (n + 1)) = helper (x n))

include hfair hstep

omit hfair in
theorem lowers : ∀ (j : ℕ) {n : ℕ}, start ≤ n → schedule (n + j) = helper (x n) →
    ∃ m, n ≤ m ∧ (Goal (x m) ∨ measure (x m) < measure (x n))
  | 0, n, hn, hhelp => by
    by_cases hg : Goal (x n)
    · exact ⟨n, Nat.le_refl n, .inl hg⟩
    · rcases hstep n hn hg with hlt | ⟨hne, -, -⟩
      · exact ⟨n + 1, Nat.le_succ n, .inr hlt⟩
      · exact absurd hhelp hne
  | j + 1, n, hn, hhelp => by
    by_cases hg : Goal (x n)
    · exact ⟨n, Nat.le_refl n, .inl hg⟩
    · rcases hstep n hn hg with hlt | ⟨-, hmeasure, hhelper⟩
      · exact ⟨n + 1, Nat.le_succ n, .inr hlt⟩
      · obtain ⟨m, hm, hgoal⟩ := lowers j (Nat.le_succ_of_le hn) (by
          rw [hhelper, ← hhelp, Nat.succ_add, Nat.add_succ])
        exact ⟨m, Nat.le_of_succ_le hm, hmeasure ▸ hgoal⟩

theorem reaches_of_measure_lt : ∀ (k : ℕ) {n : ℕ}, start ≤ n → measure (x n) < k →
    ∃ m, n ≤ m ∧ Goal (x m)
  | 0, _, _, hk => absurd hk (Nat.not_lt_zero _)
  | k + 1, n, hn, hk => by
    obtain ⟨m, hm, hhelp⟩ := hfair n n
    obtain ⟨j, rfl⟩ := Nat.exists_eq_add_of_le hm
    obtain ⟨m, hm, hgoal | hlt⟩ := lowers hstep j hn hhelp
    · exact ⟨m, hm, hgoal⟩
    · obtain ⟨l, hl, hgoal⟩ := reaches_of_measure_lt k (Nat.le_trans hn hm)
        (Nat.lt_of_lt_of_le hlt (Nat.lt_succ_iff.1 hk))
      exact ⟨l, Nat.le_trans hm hl, hgoal⟩

variable (Goal measure helper)

theorem reaches {n : ℕ} (hn : start ≤ n) : ∃ m, n ≤ m ∧ Goal (x m) :=
  reaches_of_measure_lt hfair hstep _ hn (Nat.lt_succ_self _)

end Reaching

end Etoile
