import Mathlib.Data.List.Nodup

/-!
# Doubly linked lists

A list that is kept by its first and its last cell, and by the links of its cells to their
neighbours; the links of other cells are of no account.
-/

namespace Etoile

open Function List

variable {α : Type} [DecidableEq α]

structure LinkedCells (α : Type) where
  first : Option α
  last : Option α
  next : α → Option α
  prev : α → Option α

namespace LinkedCells

structure Represents (s : LinkedCells α) (l : List α) : Prop where
  nodup : l.Nodup
  first : s.first = l.head?
  last : s.last = l.getLast?
  next : ∀ {xs a ys}, l = xs ++ a :: ys → s.next a = ys.head?
  prev : ∀ {xs a ys}, l = xs ++ a :: ys → s.prev a = xs.getLast?

def pushFront (a : α) (s : LinkedCells α) : LinkedCells α where
  first := some a
  last := if s.first = none then some a else s.last
  next := update s.next a s.first
  prev := update
    (match s.first with
      | none => s.prev
      | some b => update s.prev b (some a)) a none

def unlink (a : α) (s : LinkedCells α) : LinkedCells α where
  first := if s.prev a = none then s.next a else s.first
  last := if s.next a = none then s.prev a else s.last
  next := match s.prev a with
    | none => s.next
    | some b => update s.next b (s.next a)
  prev := match s.next a with
    | none => s.prev
    | some b => update s.prev b (s.prev a)

variable {s : LinkedCells α} {l xs ys : List α} {a : α}

omit [DecidableEq α] in
theorem represents_nil (h : s.first = none) (h' : s.last = none) : s.Represents [] where
  nodup := nodup_nil
  first := h
  last := h'
  next heq := by simp at heq
  prev heq := by simp at heq

theorem Represents.pushFront (h : s.Represents l) (ha : a ∉ l) :
    (s.pushFront a).Represents (a :: l) where
  nodup := nodup_cons.2 ⟨ha, h.nodup⟩
  first := rfl
  last := by
    unfold LinkedCells.pushFront
    rw [h.first, h.last]
    cases l with
    | nil => rfl
    | cons b l => simp [getLast?_cons_cons]
  next := by
    intro xs b ys heq
    rcases xs with _ | ⟨c, xs⟩
    · obtain ⟨rfl, rfl⟩ := cons.inj heq
      exact (update_self _ _ _).trans h.first
    · obtain ⟨rfl, rfl⟩ := cons.inj heq
      have hb : b ≠ a := by
        rintro rfl
        simp at ha
      exact (update_of_ne hb _ _).trans (h.next rfl)
  prev := by
    intro xs b ys heq
    rcases xs with _ | ⟨c, xs⟩
    · obtain ⟨rfl, rfl⟩ := cons.inj heq
      exact update_self _ _ _
    · obtain ⟨rfl, rfl⟩ := cons.inj heq
      have hb : b ≠ a := by
        rintro rfl
        simp at ha
      refine (update_of_ne hb _ _).trans ?_
      rw [h.first]
      rcases xs with _ | ⟨c, xs⟩
      · exact update_self _ _ _
      · have hbc : b ≠ c := by
          rintro rfl
          simpa using h.nodup
        have hold := h.prev rfl
        simpa [update_of_ne hbc, getLast?_cons_cons] using hold

omit [DecidableEq α] in
theorem append_eq_append_cons {us vs : List α} {b : α} (h : xs ++ ys = us ++ b :: vs) :
    (∃ ws, us = xs ++ ws ∧ ys = ws ++ b :: vs) ∨ ∃ ws, xs = us ++ b :: ws ∧ vs = ws ++ ys := by
  rcases append_eq_append_iff.1 h with ⟨ws, hus, hys⟩ | ⟨ws, hxs, hvs⟩
  · exact .inl ⟨ws, hus, hys⟩
  · rcases ws with _ | ⟨c, ws⟩
    · left
      exact ⟨[], by simpa using hxs.symm, by simpa using hvs.symm⟩
    · right
      obtain ⟨rfl, rfl⟩ := cons.inj hvs
      exact ⟨ws, hxs, rfl⟩

theorem Represents.unlink (h : s.Represents (xs ++ a :: ys)) :
    (s.unlink a).Represents (xs ++ ys) := by
  have hnext := h.next rfl
  have hprev := h.prev rfl
  have hnodup : (xs ++ ys).Nodup :=
    h.nodup.sublist (Sublist.append_left (sublist_cons_self a ys) xs)
  -- the last cell before and the first cell behind, where there are any
  have hbefore : ∀ p, xs.getLast? = some p → p ∈ xs := fun p => mem_of_getLast?
  have hbehind : ∀ q, ys.head? = some q → q ∈ ys := fun q => mem_of_head?
  have hdisjoint : ∀ b ∈ xs, ∀ c ∈ ys, b ≠ c := (nodup_append.1 hnodup).2.2
  refine ⟨hnodup, ?_, ?_, ?_, ?_⟩
  · unfold LinkedCells.unlink
    rw [hprev, hnext, h.first]
    cases xs with
    | nil => simp
    | cons c xs => simp
  · unfold LinkedCells.unlink
    rw [hprev, hnext, h.last]
    cases ys with
    | nil => simp
    | cons c ys => simp [getLast?_append, getLast?_cons]
  · intro us b vs heq
    unfold LinkedCells.unlink
    rw [hprev, hnext]
    rcases append_eq_append_cons heq with ⟨ws, rfl, rfl⟩ | ⟨ws, rfl, rfl⟩
    · have hold : s.next b = vs.head? :=
        h.next (show xs ++ a :: (ws ++ b :: vs) = (xs ++ a :: ws) ++ b :: vs by simp)
      rcases hlast : xs.getLast? with _ | p
      · exact hold
      · have hne : b ≠ p := (hdisjoint p (hbefore p hlast) b (by simp)).symm
        exact (update_of_ne hne _ _).trans hold
    · have hold : s.next b = (ws ++ a :: ys).head? :=
        h.next (show (us ++ b :: ws) ++ a :: ys = us ++ b :: (ws ++ a :: ys) by simp)
      rcases eq_nil_or_concat ws with rfl | ⟨ws, p, rfl⟩
      · simp
      · have hne : b ≠ p := by
          rintro rfl
          have := (nodup_append.1 hnodup).1
          simp [nodup_append] at this
        have hlast : (us ++ b :: ws.concat p).getLast? = some p := by
          simp [getLast?_append, getLast?_cons]
        rw [hlast]
        refine (update_of_ne hne _ _).trans (hold.trans ?_)
        cases ws <;> simp
  · intro us b vs heq
    unfold LinkedCells.unlink
    rw [hprev, hnext]
    rcases append_eq_append_cons heq with ⟨ws, rfl, rfl⟩ | ⟨ws, rfl, rfl⟩
    · have hold : s.prev b = (xs ++ a :: ws).getLast? :=
        h.prev (show xs ++ a :: (ws ++ b :: vs) = (xs ++ a :: ws) ++ b :: vs by simp)
      rcases ws with _ | ⟨q, ws⟩
      · simp
      · have hne : b ≠ q := by
          rintro rfl
          have := (nodup_append.1 hnodup).2.1
          simp at this
        rw [cons_append, head?_cons]
        refine (update_of_ne hne _ _).trans (hold.trans ?_)
        simp [getLast?_append, getLast?_cons]
    · have hold : s.prev b = us.getLast? :=
        h.prev (show (us ++ b :: ws) ++ a :: ys = us ++ b :: (ws ++ a :: ys) by simp)
      rcases hhead : ys.head? with _ | q
      · exact hold
      · have hne : b ≠ q := hdisjoint b (by simp) q (hbehind q hhead)
        exact (update_of_ne hne _ _).trans hold

end LinkedCells

end Etoile
