import Mathlib.Data.Fintype.Card
import Mathlib.Order.Filter.AtTopBot.Basic

/-!
# Computations with fuel

A computation that may fail to end is run with some fuel.  It settles on a result if every amount
of fuel that is large enough gives that result.
-/

namespace Etoile

open Filter

variable {α β : Type*} {f : ℕ → Option α} {a b : α}

def Settles (f : ℕ → Option α) (a : α) : Prop := ∀ᶠ fuel in atTop, f fuel = some a

theorem settles_some (a : α) : Settles (fun _ => some a) a := Eventually.of_forall fun _ => rfl

theorem Settles.exists_eq (h : Settles f a) : ∃ fuel, f fuel = some a := h.exists

theorem Settles.unique (ha : Settles f a) (hb : Settles f b) : a = b := by
  obtain ⟨fuel, ha, hb⟩ := (ha.and hb).exists
  rw [ha] at hb
  exact Option.some.inj hb

theorem settles_of_succ (h : Settles (fun fuel => f (fuel + 1)) a) : Settles f a := by
  obtain ⟨n, hn⟩ := eventually_atTop.1 h
  refine eventually_atTop.2 ⟨n + 1, fun fuel hfuel => ?_⟩
  obtain ⟨k, rfl⟩ := Nat.exists_eq_add_of_le' (Nat.le_of_add_left_le hfuel : 1 ≤ fuel)
  exact hn k (by omega)

theorem Settles.bind {g : ℕ → α → Option β} {b : β} (hf : Settles f a)
    (hg : Settles (fun fuel => g fuel a) b) : Settles (fun fuel => (f fuel).bind (g fuel)) b := by
  filter_upwards [hf, hg] with fuel hf hg
  rw [hf]
  exact hg

theorem Settles.map (g : α → β) (hf : Settles f a) :
    Settles (fun fuel => (f fuel).map g) (g a) := by
  filter_upwards [hf] with fuel hf
  rw [hf]
  rfl

/-- A loop settles if each of its turns does; `P` is what holds with the turns that are left. -/
theorem settles_foldlM {f : ℕ → β → α → Option β} {P : β → List α → Prop}
    (hstep : ∀ b a as, P b (a :: as) → ∃ c, Settles (fun fuel => f fuel b a) c ∧ P c as) :
    ∀ {as : List α} {b : β}, P b as →
      ∃ c, Settles (fun fuel => as.foldlM (f fuel) b) c ∧ P c []
  | [], b, h => ⟨b, settles_some b, h⟩
  | a :: as, b, h => by
    obtain ⟨c, hc, hP⟩ := hstep b a as h
    obtain ⟨d, hd, hP'⟩ := settles_foldlM hstep hP
    exact ⟨d, hc.bind hd, hP'⟩

theorem settles_mapM {f : ℕ → α → Option β} {Q : α → β → Prop} :
    ∀ {as : List α}, (∀ a ∈ as, ∃ b, Settles (fun fuel => f fuel a) b ∧ Q a b) →
      ∃ bs, Settles (fun fuel => as.mapM (f fuel)) bs ∧ List.Forall₂ Q as bs
  | [], _ => ⟨[], settles_some [], .nil⟩
  | a :: as, h => by
    obtain ⟨b, hb, hQ⟩ := h a (by simp)
    obtain ⟨bs, hbs, hQ'⟩ := @settles_mapM f Q as fun a' ha' => h a' (by simp [ha'])
    refine ⟨b :: bs, ?_, .cons hQ hQ'⟩
    have hcons : ∀ fuel, (a :: as).mapM (f fuel)
        = (f fuel a).bind fun b => (as.mapM (f fuel)).map (b :: ·) := by
      intro fuel
      rw [List.mapM_cons]
      cases f fuel a with
      | none => rfl
      | some b => cases as.mapM (f fuel) <;> rfl
    simp only [hcons]
    exact hb.bind (hbs.map (b :: ·))

end Etoile

/-!
## While loops

A `while` loop whose body can fail, run for a number of turns.  An invariant of the body holds when
the loop is left, and a loop whose body succeeds and lowers a variant is left in time.
-/

namespace Etoile

open Option

variable {σ : Type} {test : σ → Bool} {body : σ → Option σ} {I : σ → Prop} {s s' : σ}

/-- `while (test s) s = body s`, for fewer turns than the number; `none` if the body fails or the
turns do not suffice. -/
def whileLoop (test : σ → Bool) (body : σ → Option σ) : ℕ → σ → Option σ
  | 0, _ => none
  | n + 1, s => if test s then (body s).bind (whileLoop test body n) else some s

theorem whileLoop_preserves (hbody : ∀ s s', I s → test s = true → body s = some s' → I s') :
    ∀ {n : ℕ} {s : σ}, I s → whileLoop test body n s = some s' → I s' ∧ test s' = false
  | n + 1, s, hI, h => by
    unfold whileLoop at h
    split_ifs at h with ht
    · obtain ⟨t, hbt, hrest⟩ := bind_eq_some_iff.1 h
      exact whileLoop_preserves hbody (hbody s t hI ht hbt) hrest
    · obtain rfl := some.inj h
      exact ⟨hI, Bool.eq_false_of_not_eq_true ht⟩

theorem whileLoop_succeeds (μ : σ → ℕ)
    (hbody : ∀ s, I s → test s = true → ∃ s', body s = some s' ∧ I s' ∧ μ s' < μ s) :
    ∀ {n : ℕ} {s : σ}, I s → μ s < n → ∃ s', whileLoop test body n s = some s'
  | n + 1, s, hI, hn => by
    unfold whileLoop
    split_ifs with ht
    · obtain ⟨t, hbt, hIt, hlt⟩ := hbody s hI ht
      rw [hbt]
      exact whileLoop_succeeds μ hbody hIt (by omega)
    · exact ⟨s, rfl⟩

theorem whileLoop_mono : ∀ {m n : ℕ} {s : σ}, m ≤ n → whileLoop test body m s = some s' →
    whileLoop test body n s = some s'
  | m + 1, n, s, hle, h => by
    obtain ⟨k, rfl⟩ := Nat.exists_eq_add_of_le' (Nat.le_of_add_left_le hle : 1 ≤ n)
    unfold whileLoop at h ⊢
    split_ifs at h ⊢
    · obtain ⟨t, hbt, hrest⟩ := bind_eq_some_iff.1 h
      rw [hbt]
      exact whileLoop_mono (by omega) hrest
    · exact h

/-- A loop that lowers a variant comes to an end, where its invariant holds and its test fails. -/
theorem settles_whileLoop (μ : σ → ℕ)
    (hbody : ∀ s, I s → test s = true → ∃ s', body s = some s' ∧ I s' ∧ μ s' < μ s) (hs : I s) :
    ∃ s', Settles (fun n => whileLoop test body n s) s' ∧ I s' ∧ test s' = false := by
  obtain ⟨s', hs'⟩ := whileLoop_succeeds μ hbody hs (Nat.lt_succ_self (μ s))
  refine ⟨s', Filter.eventually_atTop.2 ⟨_, fun n hn => whileLoop_mono hn hs'⟩, ?_⟩
  refine whileLoop_preserves (fun t t' ht htest hbt => ?_) hs hs'
  obtain ⟨u, hbu, hu, -⟩ := hbody t ht htest
  rw [hbu, some.injEq] at hbt
  rwa [← hbt]

theorem whileLoop_eq_none (htest : ∀ s, I s → test s = true)
    (hbody : ∀ s s', I s → body s = some s' → I s') : ∀ (n : ℕ) {s : σ}, I s →
      whileLoop test body n s = none
  | 0, _, _ => rfl
  | n + 1, s, hs => by
    rw [whileLoop, if_pos (htest s hs)]
    rcases hbs : body s with _ | s'
    · rfl
    · exact whileLoop_eq_none htest hbody n (hbody s s' hs hbs)

end Etoile
