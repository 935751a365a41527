import Mathlib.Data.Nat.Notation

/-!
# Places in a row
-/

namespace Etoile

variable {β : Type*}

/-- The next multiple of `k`. -/
def roundUp (n k : ℕ) : ℕ := (n + (k - 1)) / k * k

/-- What lies at `n` places, each of which leads to the next. -/
def inARow (f : ℕ → List β) (next : ℕ → ℕ) : ℕ → ℕ → List β
  | 0, _ => []
  | n + 1, place => f place ++ inARow f next n (next place)

theorem roundUp_zero (k : ℕ) : roundUp 0 k = 0 := by
  unfold roundUp
  rcases k with _ | k
  · rfl
  · rw [Nat.zero_add, Nat.add_sub_cancel, Nat.div_eq_of_lt (Nat.lt_succ_self k), Nat.zero_mul]

section Rows

variable {f g : ℕ → List β} {next next' : ℕ → ℕ} {place place' : ℕ}

theorem inARow_congr {Q : ℕ → Prop} (hf : ∀ p, Q p → f p = g p)
    (hnext : ∀ p, Q p → next p = next' p ∧ Q (next p)) :
    ∀ (n : ℕ) {place : ℕ}, Q place → inARow f next n place = inARow g next' n place
  | 0, _, _ => rfl
  | n + 1, place, hplace => by
    obtain ⟨heq, hQ⟩ := hnext place hplace
    unfold inARow
    rw [hf place hplace, inARow_congr hf hnext n hQ, heq]

theorem inARow_inj {n : ℕ} (hlength : (f place).length = (g place').length)
    (h : inARow f next (n + 1) place = inARow g next' (n + 1) place') :
    f place = g place' ∧ inARow f next n (next place) = inARow g next' n (next' place') :=
  List.append_inj h hlength

theorem length_inARow {k : ℕ} (hf : ∀ p, (f p).length = k) :
    ∀ (n place : ℕ), (inARow f next n place).length = n * k
  | 0, _ => (Nat.zero_mul k).symm
  | n + 1, place => by
    unfold inARow
    rw [List.length_append, hf, length_inARow hf n, Nat.succ_mul, Nat.add_comm]

end Rows

end Etoile
