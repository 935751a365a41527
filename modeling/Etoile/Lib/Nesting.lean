import Mathlib.Data.List.Basic

/-!
# Well nested words

A word of brackets of many kinds is a beginning of a balanced one if a stack machine can read it:
every closing bracket closes the one that was opened last.
-/

namespace Etoile

open List

variable {α : Type*}

inductive Bracket (α : Type*)
  | opening (a : α)
  | closing (a : α)

inductive Balanced : List (Bracket α) → Prop
  | nil : Balanced []
  | wrap {a : α} {u v : List (Bracket α)} (hu : Balanced u) (hv : Balanced v) :
    Balanced (.opening a :: (u ++ .closing a :: v))

def BalancedPrefix (w : List (Bracket α)) : Prop := ∃ v, Balanced (w ++ v)

theorem BalancedPrefix.shorten {u w : List (Bracket α)} (h : BalancedPrefix w) (hu : u <+: w) :
    BalancedPrefix u := by
  obtain ⟨v, hv⟩ := h
  obtain ⟨t, rfl⟩ := hu
  exact ⟨t ++ v, by rwa [← append_assoc]⟩

theorem Balanced.insert (a : α) {w : List (Bracket α)} (h : Balanced w) :
    ∀ {x y : List (Bracket α)}, w = x ++ y → Balanced (x ++ .opening a :: .closing a :: y) := by
  induction h with
  | nil =>
    intro x y hw
    obtain ⟨rfl, rfl⟩ := append_eq_nil_iff.1 hw.symm
    exact @Balanced.wrap _ a [] [] .nil .nil
  | @wrap b u v hu hv ihu ihv =>
    intro x y hw
    rcases x with _ | ⟨c, x⟩
    · obtain rfl : _ = y := hw
      exact @Balanced.wrap _ a [] _ .nil (.wrap hu hv)
    rw [cons_append, cons.injEq] at hw
    obtain ⟨rfl, hw⟩ := hw
    rcases append_eq_append_iff.1 hw with ⟨z, rfl, hz⟩ | ⟨z, rfl, rfl⟩
    · rcases z with _ | ⟨c, z⟩
      · obtain rfl : _ = y := hz
        have := @Balanced.wrap _ b _ v (@ihu u [] (by simp)) hv
        simpa using this
      · rw [cons_append, cons.injEq] at hz
        obtain ⟨rfl, hz⟩ := hz
        have := @Balanced.wrap _ b u _ hu (ihv hz)
        simpa using this
    · have := @Balanced.wrap _ b _ v (ihu rfl) hv
      simpa using this

/-- The brackets that are left open, the last of them first; `none` if one is closed that is not
the last. -/
def leftOpen [DecidableEq α] : List α → List (Bracket α) → Option (List α)
  | stack, [] => some stack
  | stack, .opening a :: w => leftOpen (a :: stack) w
  | [], .closing _ :: _ => none
  | b :: stack, .closing a :: w => if b = a then leftOpen stack w else none

variable [DecidableEq α]

theorem leftOpen_append : ∀ {stack : List α} {u v : List (Bracket α)},
    leftOpen stack (u ++ v) = (leftOpen stack u).bind (leftOpen · v)
  | _, [], _ => rfl
  | stack, .opening a :: u, v => @leftOpen_append (a :: stack) u v
  | [], .closing _ :: _, _ => rfl
  | b :: stack, .closing a :: u, v => by
    rw [cons_append, leftOpen, leftOpen]
    split_ifs with h
    · exact leftOpen_append
    · rfl

omit [DecidableEq α] in
theorem balanced_nested : ∀ stack : List α,
    Balanced ((stack.reverse.map Bracket.opening) ++ stack.map Bracket.closing)
  | [] => .nil
  | a :: stack => by
    have := (balanced_nested stack).insert a rfl
    simpa using this

theorem balanced_of_leftOpen : ∀ {w : List (Bracket α)} {stack left : List α},
    leftOpen stack w = some left →
    Balanced ((stack.reverse.map Bracket.opening) ++ w ++ left.map Bracket.closing)
  | [], stack, left, h => by
    obtain rfl : stack = left := Option.some.inj h
    simpa using balanced_nested stack
  | .opening a :: w, stack, left, h => by
    have := @balanced_of_leftOpen w (a :: stack) left h
    simpa using this
  | .closing a :: w, [], left, h => by cases h
  | .closing a :: w, b :: stack, left, h => by
    rw [leftOpen] at h
    split_ifs at h with hab
    subst hab
    have := (balanced_of_leftOpen h).insert b (append_assoc _ _ _)
    simpa using this

theorem balancedPrefix_of_leftOpen {w : List (Bracket α)} {left : List α}
    (h : leftOpen [] w = some left) : BalancedPrefix w :=
  ⟨_, by simpa using balanced_of_leftOpen h⟩

end Etoile
