import Mathlib.Data.List.Basic

/-!
# Reading a list token by token

A reader gives the token that begins with an element, and how many of the elements after it belong
to the token.
-/

namespace Etoile

variable {α τ : Type*}

def tokens (read : α → List α → τ × ℕ) : List α → List τ
  | [] => []
  | c :: t => (read c t).1 :: tokens read (t.drop (read c t).2)
termination_by s => s.length
decreasing_by simp only [List.length_drop, List.length_cons]; omega

def Throughout (P : α → List α → Prop) (read : α → List α → τ × ℕ) : List α → Prop
  | [] => True
  | c :: t => P c t ∧ Throughout P read (t.drop (read c t).2)
termination_by s => s.length
decreasing_by simp only [List.length_drop, List.length_cons]; omega

theorem tokens_nil (read : α → List α → τ × ℕ) : tokens read [] = [] := by rw [tokens]

theorem tokens_cons (read : α → List α → τ × ℕ) (c : α) (t : List α) :
    tokens read (c :: t) = (read c t).1 :: tokens read (t.drop (read c t).2) := by rw [tokens]

theorem throughout_cons (P : α → List α → Prop) (read : α → List α → τ × ℕ) (c : α) (t : List α) :
    Throughout P read (c :: t) ↔ P c t ∧ Throughout P read (t.drop (read c t).2) := by
  rw [Throughout]

/-- The tokens of two readers are the same just if the readers agree wherever a token begins, as
long as they go on at the same place after the same token. -/
theorem tokens_eq_iff {f g : α → List α → τ × ℕ} (h : ∀ c t, (f c t).1 = (g c t).1 → f c t = g c t)
    (s : List α) : tokens f s = tokens g s ↔ Throughout (fun c t => f c t = g c t) g s := by
  induction s using tokens.induct g with
  | case1 => simp only [tokens_nil, Throughout]
  | case2 c t ih =>
    rw [tokens_cons, tokens_cons, throughout_cons, List.cons.injEq]
    constructor
    · rintro ⟨htoken, hrest⟩
      have heq := h c t htoken
      rw [heq] at hrest
      exact ⟨heq, ih.1 hrest⟩
    · rintro ⟨heq, hrest⟩
      rw [heq]
      exact ⟨rfl, ih.2 hrest⟩

theorem tokens_map {υ : Type*} (e : τ → υ) (read : α → List α → τ × ℕ) (s : List α) :
    tokens (fun c t => (e (read c t).1, (read c t).2)) s = (tokens read s).map e := by
  induction s using tokens.induct read with
  | case1 => simp only [tokens_nil, List.map_nil]
  | case2 c t ih => rw [tokens_cons, tokens_cons, List.map_cons, ih]

theorem throughout_congr {υ : Type*} {P Q : α → List α → Prop} {f : α → List α → τ × ℕ}
    {g : α → List α → υ × ℕ} (hPQ : ∀ c t, P c t ↔ Q c t) (hfg : ∀ c t, (f c t).2 = (g c t).2)
    (s : List α) : Throughout P f s ↔ Throughout Q g s := by
  induction s using tokens.induct f with
  | case1 => simp only [Throughout]
  | case2 c t ih => rw [throughout_cons, throughout_cons, hPQ, ih, hfg]

end Etoile
