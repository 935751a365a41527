import Mathlib.Data.List.Basic

/-!
# Timelines of keyed maps

A timeline lists the maps a keyed store has gone through: `view T n` is the map after the `n`-th
change, and the map before any change is empty.  A change either records a value under one key or
restores an earlier map, and a restore is a change like any other: it gets a number of its own and
leaves every earlier map where it was.
-/

namespace Etoile

/-- The maps of versions `1, 2, …` of a keyed store; version `0` is the empty map. -/
structure Timeline (K V : Type*) where
  changes : List (K → Option V)

namespace Timeline

variable {K V : Type*}

def empty : Timeline K V := ⟨[]⟩

def version (T : Timeline K V) : ℕ := T.changes.length

def view (T : Timeline K V) : ℕ → K → Option V
  | 0 => fun _ => none
  | n + 1 => T.changes.getD n fun _ => none

def current (T : Timeline K V) : K → Option V := T.view T.version

def push (T : Timeline K V) (m : K → Option V) : Timeline K V := ⟨T.changes ++ [m]⟩

def record [DecidableEq K] (T : Timeline K V) (k : K) (v : V) : Timeline K V :=
  T.push (Function.update T.current k (some v))

def restore (T : Timeline K V) (w : ℕ) : Timeline K V := T.push (T.view w)

/-- A restore that puts the values of `d` over the restored map. -/
def restoreWith (T : Timeline K V) (w : ℕ) (d : K → Option V) : Timeline K V :=
  T.push fun k => (d k).or (T.view w k)

@[simp] theorem version_empty : (empty : Timeline K V).version = 0 := rfl

@[simp] theorem view_zero (T : Timeline K V) : T.view 0 = fun _ => none := rfl

@[simp] theorem version_push (T : Timeline K V) (m : K → Option V) :
    (T.push m).version = T.version + 1 := by
  simp [push, version]

@[simp] theorem version_record [DecidableEq K] (T : Timeline K V) (k : K) (v : V) :
    (T.record k v).version = T.version + 1 := version_push _ _

@[simp] theorem version_restore (T : Timeline K V) (w : ℕ) :
    (T.restore w).version = T.version + 1 := version_push _ _

@[simp] theorem version_restoreWith (T : Timeline K V) (w : ℕ) (d : K → Option V) :
    (T.restoreWith w d).version = T.version + 1 := version_push _ _

theorem view_push_of_ne {T : Timeline K V} {m : K → Option V} :
    ∀ {n : ℕ}, n ≠ T.version + 1 → (T.push m).view n = T.view n
  | 0, _ => rfl
  | n + 1, h => by
    have hn : n ≠ T.changes.length := fun hn => h (by rw [hn]; rfl)
    simp only [view, push, List.getD_eq_getElem?_getD]
    rcases Nat.lt_or_gt_of_ne hn with hlt | hgt
    · rw [List.getElem?_append_left hlt]
    · have hle : (T.changes ++ [m]).length ≤ n := by
        simp only [List.length_append, List.length_singleton]
        omega
      rw [List.getElem?_eq_none hle, List.getElem?_eq_none (Nat.le_of_lt hgt)]

theorem view_push_of_le {T : Timeline K V} {m : K → Option V} {n : ℕ} (h : n ≤ T.version) :
    (T.push m).view n = T.view n :=
  view_push_of_ne (Nat.ne_of_lt (Nat.lt_succ_of_le h))

@[simp] theorem view_push_self (T : Timeline K V) (m : K → Option V) :
    (T.push m).view (T.version + 1) = m := by
  simp [view, push, version]

@[simp] theorem current_push (T : Timeline K V) (m : K → Option V) : (T.push m).current = m := by
  simp [current]

theorem current_record [DecidableEq K] (T : Timeline K V) (k : K) (v : V) :
    (T.record k v).current = Function.update T.current k (some v) := current_push _ _

theorem current_restore (T : Timeline K V) (w : ℕ) : (T.restore w).current = T.view w :=
  current_push _ _

end Timeline

end Etoile
