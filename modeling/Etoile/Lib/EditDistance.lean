import Mathlib.Data.List.Basic

/-!
# Edit distance

The least number of insertions, deletions and substitutions that make one list of another, and how
it is computed from beginnings of the lists.
-/

namespace Etoile

open List

variable {α : Type*}

/-- A list is made of another by a number of edits, from the left to the right. -/
inductive Edits : List α → List α → ℕ → Prop
  | nil : Edits [] [] 0
  | delete {x xs ys k} : Edits xs ys k → Edits (x :: xs) ys (k + 1)
  | insert {y xs ys k} : Edits xs ys k → Edits xs (y :: ys) (k + 1)
  | keep {x xs ys k} : Edits xs ys k → Edits (x :: xs) (x :: ys) k
  | substitute {x y xs ys k} : Edits xs ys k → Edits (x :: xs) (y :: ys) (k + 1)

section Computation

variable [DecidableEq α]

/-- The least number of edits that a cell of the matrix needs, from those of its neighbours. -/
def leastEdits (same : Bool) (above left diagonal : ℕ) : ℕ :=
  min (min (above + 1) (left + 1)) (if same then diagonal else diagonal + 1)

theorem leastEdits_cases (same : Bool) (above left diagonal : ℕ) :
    leastEdits same above left diagonal = above + 1
      ∨ leastEdits same above left diagonal = left + 1
      ∨ leastEdits same above left diagonal = if same then diagonal else diagonal + 1 := by
  unfold leastEdits
  omega

theorem leastEdits_le (same : Bool) (above left diagonal : ℕ) :
    leastEdits same above left diagonal ≤ above + 1 ∧ leastEdits same above left diagonal ≤ left + 1
      ∧ leastEdits same above left diagonal ≤ if same then diagonal else diagonal + 1 := by
  unfold leastEdits
  omega

def levenshteinRow (x : α) (row : List α → ℕ) : List α → ℕ
  | [] => row [] + 1
  | y :: ys => leastEdits (x = y) (row (y :: ys)) (levenshteinRow x row ys) (row ys)

def levenshtein : List α → List α → ℕ
  | [], ys => ys.length
  | x :: xs, ys => levenshteinRow x (levenshtein xs) ys

@[simp] theorem levenshtein_nil_left (ys : List α) : levenshtein [] ys = ys.length := rfl

@[simp] theorem levenshtein_nil_right : ∀ xs : List α, levenshtein xs [] = xs.length
  | [] => rfl
  | _ :: xs => congrArg (· + 1) (levenshtein_nil_right xs)

theorem levenshtein_cons_cons (x y : α) (xs ys : List α) : levenshtein (x :: xs) (y :: ys)
    = leastEdits (x = y) (levenshtein xs (y :: ys)) (levenshtein (x :: xs) ys)
      (levenshtein xs ys) := rfl

end Computation

namespace Edits

variable {xs ys xs' ys' : List α} {k k' : ℕ}

theorem insertAll : ∀ ys : List α, Edits [] ys ys.length
  | [] => nil
  | _ :: ys => (insertAll ys).insert

theorem deleteAll : ∀ xs : List α, Edits xs [] xs.length
  | [] => nil
  | _ :: xs => (deleteAll xs).delete

theorem append (h : Edits xs ys k) (h' : Edits xs' ys' k') :
    Edits (xs ++ xs') (ys ++ ys') (k + k') := by
  induction h with
  | nil => simpa using h'
  | delete _ ih =>
    rw [Nat.add_right_comm]
    exact ih.delete
  | insert _ ih =>
    rw [Nat.add_right_comm]
    exact ih.insert
  | keep _ ih => exact ih.keep
  | substitute _ ih =>
    rw [Nat.add_right_comm]
    exact ih.substitute

theorem reverse (h : Edits xs ys k) : Edits xs.reverse ys.reverse k := by
  induction h with
  | nil => exact nil
  | delete _ ih =>
    rw [reverse_cons]
    simpa using ih.append (nil.delete)
  | insert _ ih =>
    rw [reverse_cons]
    simpa using ih.append (nil.insert)
  | keep _ ih =>
    rw [reverse_cons, reverse_cons]
    simpa using ih.append (nil.keep)
  | substitute _ ih =>
    rw [reverse_cons, reverse_cons]
    exact ih.append (nil.substitute)

theorem length_le (h : Edits xs ys k) : xs.length ≤ ys.length + k ∧ ys.length ≤ xs.length + k := by
  induction h <;> simp only [length_cons, length_nil] <;> omega

theorem exists_of_append (h : Edits xs ys k) : ∀ {front back : List α}, xs = front ++ back →
    ∃ us vs k', ys = us ++ vs ∧ k' ≤ k ∧ Edits front us k' := by
  induction h with
  | nil =>
    intro front back hxs
    obtain ⟨rfl, -⟩ := append_eq_nil_iff.1 hxs.symm
    exact ⟨[], [], 0, rfl, Nat.le_refl _, nil⟩
  | @delete x xs ys k _ ih =>
    intro front back hxs
    rcases front with _ | ⟨a, front⟩
    · exact ⟨[], ys, 0, rfl, Nat.zero_le _, nil⟩
    · obtain ⟨rfl, hrest⟩ := cons.inj hxs
      obtain ⟨us, vs, k', hys, hle, hedits⟩ := ih hrest
      exact ⟨us, vs, k' + 1, hys, Nat.succ_le_succ hle, hedits.delete⟩
  | @insert y xs ys k _ ih =>
    intro front back hxs
    obtain ⟨us, vs, k', rfl, hle, hedits⟩ := ih hxs
    exact ⟨y :: us, vs, k' + 1, rfl, Nat.succ_le_succ hle, hedits.insert⟩
  | @keep x xs ys k _ ih =>
    intro front back hxs
    rcases front with _ | ⟨a, front⟩
    · exact ⟨[], x :: ys, 0, rfl, Nat.zero_le _, nil⟩
    · obtain ⟨rfl, hrest⟩ := cons.inj hxs
      obtain ⟨us, vs, k', rfl, hle, hedits⟩ := ih hrest
      exact ⟨x :: us, vs, k', rfl, hle, hedits.keep⟩
  | @substitute x y xs ys k _ ih =>
    intro front back hxs
    rcases front with _ | ⟨a, front⟩
    · exact ⟨[], y :: ys, 0, rfl, Nat.zero_le _, nil⟩
    · obtain ⟨rfl, hrest⟩ := cons.inj hxs
      obtain ⟨us, vs, k', rfl, hle, hedits⟩ := ih hrest
      exact ⟨y :: us, vs, k' + 1, rfl, Nat.succ_le_succ hle, hedits.substitute⟩

end Edits

section Least

variable [DecidableEq α] {xs ys : List α} {k : ℕ}

theorem edits_levenshtein : ∀ xs ys : List α, Edits xs ys (levenshtein xs ys)
  | [], ys => Edits.insertAll ys
  | x :: xs, [] => by
    rw [levenshtein_nil_right]
    exact Edits.deleteAll _
  | x :: xs, y :: ys => by
    have habove := (edits_levenshtein xs (y :: ys)).delete (x := x)
    have hleft := (edits_levenshtein (x :: xs) ys).insert (y := y)
    have hdiagonal := edits_levenshtein xs ys
    rw [levenshtein_cons_cons]
    rcases leastEdits_cases (x = y) (levenshtein xs (y :: ys)) (levenshtein (x :: xs) ys)
      (levenshtein xs ys) with h | h | h <;> rw [h]
    · exact habove
    · exact hleft
    · by_cases hsame : x = y
      · subst hsame
        simpa using hdiagonal.keep
      · simpa [hsame] using hdiagonal.substitute

theorem levenshtein_le (h : Edits xs ys k) : levenshtein xs ys ≤ k := by
  induction h with
  | nil => exact Nat.le_refl _
  | @delete x xs ys k _ ih =>
    rcases ys with _ | ⟨y, ys⟩
    · simpa using ih
    · have hle := (leastEdits_le (x = y) (levenshtein xs (y :: ys)) (levenshtein (x :: xs) ys)
        (levenshtein xs ys)).1
      rw [levenshtein_cons_cons]
      omega
  | @insert y xs ys k _ ih =>
    rcases xs with _ | ⟨x, xs⟩
    · simpa using ih
    · have hle := (leastEdits_le (x = y) (levenshtein xs (y :: ys)) (levenshtein (x :: xs) ys)
        (levenshtein xs ys)).2.1
      rw [levenshtein_cons_cons]
      omega
  | @keep x xs ys k _ ih =>
    have hle := (leastEdits_le (x = x) (levenshtein xs (x :: ys)) (levenshtein (x :: xs) ys)
      (levenshtein xs ys)).2.2
    rw [levenshtein_cons_cons]
    simp only [decide_true, if_true] at hle ⊢
    omega
  | @substitute x y xs ys k _ ih =>
    have hle := (leastEdits_le (x = y) (levenshtein xs (y :: ys)) (levenshtein (x :: xs) ys)
      (levenshtein xs ys)).2.2
    rw [levenshtein_cons_cons]
    split_ifs at hle <;> omega

theorem levenshtein_reverse (xs ys : List α) :
    levenshtein xs.reverse ys.reverse = levenshtein xs ys := by
  refine Nat.le_antisymm (levenshtein_le (edits_levenshtein xs ys).reverse) (levenshtein_le ?_)
  simpa using (edits_levenshtein xs.reverse ys.reverse).reverse

theorem levenshtein_concat (x y : α) (xs ys : List α) : levenshtein (xs ++ [x]) (ys ++ [y])
    = leastEdits (x = y) (levenshtein xs (ys ++ [y])) (levenshtein (xs ++ [x]) ys)
      (levenshtein xs ys) := by
  rw [← levenshtein_reverse, ← levenshtein_reverse xs (ys ++ [y]),
    ← levenshtein_reverse (xs ++ [x]) ys, ← levenshtein_reverse xs ys]
  simp only [reverse_append, reverse_singleton, singleton_append]
  rfl

theorem length_le_levenshtein (xs ys : List α) :
    xs.length ≤ ys.length + levenshtein xs ys ∧ ys.length ≤ xs.length + levenshtein xs ys :=
  (edits_levenshtein xs ys).length_le

/-- The distance of the first `i` elements from the first `j`. -/
def distanceAt (xs ys : List α) (i j : ℕ) : ℕ := levenshtein (xs.take i) (ys.take j)

@[simp] theorem distanceAt_zero_left {j : ℕ} (hj : j ≤ ys.length) : distanceAt xs ys 0 j = j := by
  simp [distanceAt, hj]

@[simp] theorem distanceAt_zero_right {i : ℕ} (hi : i ≤ xs.length) : distanceAt xs ys i 0 = i := by
  simp [distanceAt, hi]

theorem distanceAt_length (xs ys : List α) :
    distanceAt xs ys xs.length ys.length = levenshtein xs ys := by
  simp [distanceAt]

theorem distanceAt_succ {i j : ℕ} (hi : i < xs.length) (hj : j < ys.length) :
    distanceAt xs ys (i + 1) (j + 1) = leastEdits (xs[i] = ys[j]) (distanceAt xs ys i (j + 1))
      (distanceAt xs ys (i + 1) j) (distanceAt xs ys i j) := by
  simp only [distanceAt]
  rw [take_succ_eq_append_getElem hi, take_succ_eq_append_getElem hj, levenshtein_concat]

theorem exists_distanceAt_le (xs ys : List α) (i : ℕ) :
    ∃ j ≤ ys.length, distanceAt xs ys i j ≤ levenshtein xs ys := by
  obtain ⟨us, vs, k', hys, hle, hedits⟩ :=
    (edits_levenshtein xs ys).exists_of_append (take_append_drop i xs).symm
  refine ⟨us.length, by rw [hys, length_append]; exact Nat.le_add_right _ _, ?_⟩
  have htake : ys.take us.length = us := by rw [hys, take_left]
  rw [distanceAt, htake]
  exact Nat.le_trans (levenshtein_le hedits) hle

end Least

end Etoile
