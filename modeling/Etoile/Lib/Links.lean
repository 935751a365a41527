import Mathlib.Data.List.Nodup
import Mathlib.Data.List.Perm.Basic

/-!
# Links kept at both ends

A relation is kept twice: every `a` has a list of what it is linked to, and every `b` that meets `P`
a list of what is linked to it.
-/

namespace Etoile

open Function

variable {α β : Type*} {P : β → Prop} {down : α → List β} {up up' : β → List α} {a : α} {b : β}
  {l : List β}

structure Linked (P : β → Prop) (down : α → List β) (up : β → List α) : Prop where
  nodup : ∀ a, (down a).Nodup
  nodup_up : ∀ b, (up b).Nodup
  mem_iff : ∀ a b, P b → (b ∈ down a ↔ a ∈ up b)

namespace Linked

theorem congr (h : Linked P down up) (hnodup : ∀ b, (up' b).Nodup)
    (heq : ∀ b, P b → up' b = up b) : Linked P down up' :=
  ⟨h.nodup, hnodup, fun a b hb => by rw [heq b hb, h.mem_iff a b hb]⟩

variable [DecidableEq α] [DecidableEq β]

/-- The lists of two ends are replaced, and change for each other only. -/
theorem relist {u : List α} (h : Linked P down up) (hl : l.Nodup)
    (hother : ∀ b', b' ≠ b → (b' ∈ l ↔ b' ∈ down a))
    (hsame : ¬ P b → up' = up)
    (hup : P b → up' = update up b u ∧ u.Nodup ∧ (a ∈ u ↔ b ∈ l)
      ∧ ∀ a', a' ≠ a → (a' ∈ u ↔ a' ∈ up b)) : Linked P (update down a l) up' := by
  have hnodup : ∀ a', (update down a l a').Nodup := by
    intro a'
    by_cases ha : a' = a
    · subst ha
      rw [update_self]
      exact hl
    · rw [update_of_ne ha]
      exact h.nodup a'
  have hdown : ∀ a' b', b' ≠ b → (b' ∈ update down a l a' ↔ b' ∈ down a') := by
    intro a' b' hb'
    by_cases ha : a' = a
    · subst ha
      rw [update_self, hother b' hb']
    · rw [update_of_ne ha]
  by_cases hP : P b
  · obtain ⟨rfl, hu, hab, hup⟩ := hup hP
    refine ⟨hnodup, ?_, ?_⟩
    · intro b'
      by_cases hb' : b' = b
      · subst hb'
        rw [update_self]
        exact hu
      · rw [update_of_ne hb']
        exact h.nodup_up b'
    · intro a' b' hPb'
      by_cases hb' : b' = b
      · subst hb'
        rw [update_self]
        by_cases ha : a' = a
        · subst ha
          rw [update_self, hab]
        · rw [update_of_ne ha, hup a' ha, h.mem_iff a' b' hPb']
      · rw [update_of_ne hb', hdown a' b' hb', h.mem_iff a' b' hPb']
  · obtain rfl := hsame hP
    refine ⟨hnodup, h.nodup_up, fun a' b' hPb' => ?_⟩
    rw [hdown a' b' (fun heq => hP (heq ▸ hPb')), h.mem_iff a' b' hPb']

theorem link (h : Linked P down up) (hb : b ∉ down a) (hl : l.Perm (b :: down a))
    (hup : P b → up' = update up b (up b ++ [a])) (hother : ¬ P b → up' = up) :
    Linked P (update down a l) up' := by
  refine h.relist (hl.nodup_iff.2 (List.nodup_cons.2 ⟨hb, h.nodup a⟩))
    (fun b' hb' => by simp [hl.mem_iff, hb']) hother fun hP => ⟨hup hP, ?_, ?_, ?_⟩
  · rw [List.nodup_append_comm]
    exact List.nodup_cons.2 ⟨fun ha => hb ((h.mem_iff a b hP).2 ha), h.nodup_up b⟩
  · simp [hl.mem_iff]
  · exact fun a' ha' => by simp [ha']

theorem unlink (h : Linked P down up) (hl : l.Perm ((down a).erase b))
    (hup : P b → up' = update up b ((up b).erase a)) (hother : ¬ P b → up' = up) :
    Linked P (update down a l) up' := by
  refine h.relist (hl.nodup_iff.2 ((h.nodup a).erase b))
    (fun b' hb' => by simp [hl.mem_iff, hb']) hother
    fun hP => ⟨hup hP, (h.nodup_up b).erase a, ?_, ?_⟩
  · simp [hl.mem_iff, (h.nodup_up b).mem_erase_iff, (h.nodup a).mem_erase_iff]
  · exact fun a' ha' => by simp [ha']

end Linked

end Etoile
