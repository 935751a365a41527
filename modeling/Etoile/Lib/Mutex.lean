import Mathlib.Logic.Function.Basic

/-!
# Mutual exclusion

Threads that are each somewhere in their code, some places of which are only reached with a lock.
The owner of the lock is the one thread that is at such a place.
-/

namespace Etoile

open Function

variable {T Pc : Type*}

def Mutex (holds : Pc → Bool) (owner : Option T) (pc : T → Pc) : Prop :=
  ∀ t, owner = some t ↔ holds (pc t) = true

namespace Mutex

variable {holds : Pc → Bool} {owner : Option T} {pc : T → Pc} {t u : T} {x : Pc}

theorem eq_of_holds (h : Mutex holds owner pc) (ht : holds (pc t) = true)
    (hu : holds (pc u) = true) : t = u :=
  Option.some.inj (((h t).2 ht).symm.trans ((h u).2 hu))

theorem not_holds (h : Mutex holds none pc) : holds (pc t) = false := by
  rw [← Bool.not_eq_true, ← h t]
  simp

variable [DecidableEq T]

theorem take (h : Mutex holds none pc) (hx : holds x = true) :
    Mutex holds (some t) (update pc t x) := by
  intro u
  by_cases hu : u = t
  · subst hu
    rw [update_self]
    exact iff_of_true rfl hx
  · rw [update_of_ne hu, h.not_holds]
    exact iff_of_false (fun heq => hu (Option.some.inj heq).symm) Bool.false_ne_true

theorem free (h : Mutex holds owner pc) (ht : holds (pc t) = true) (hx : holds x = false) :
    Mutex holds none (update pc t x) := by
  intro u
  refine iff_of_false (by simp) fun hu => ?_
  by_cases hut : u = t
  · subst hut
    rw [update_self, hx] at hu
    cases hu
  · rw [update_of_ne hut] at hu
    exact hut (h.eq_of_holds hu ht)

theorem stay (h : Mutex holds owner pc) (hx : holds x = holds (pc t)) :
    Mutex holds owner (update pc t x) := by
  intro u
  by_cases hu : u = t
  · subst hu
    rw [update_self, hx]
    exact h u
  · rw [update_of_ne hu]
    exact h u

end Mutex

end Etoile
