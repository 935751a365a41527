import Mathlib.Order.Lattice
import Mathlib.Data.List.Perm.Basic

/-!
# The priority queue

`LCPriorityQueue` keeps a heap from index 0 on: the parent of `i` is `i >> 1`, so that the root is
its own parent and has one other child, at 1.
-/

namespace Etoile.Lucene.PriorityQueue

open List Option

variable {α κ : Type} (lessThan : α → α → Bool)

/-- `node` goes up from the hole `i`; where the hole is at its own parent it stays there. -/
def upHeapLoop (node : α) (i : ℕ) (heap : List α) : List α :=
  match heap[i / 2]? with
  | none => heap.set i node
  | some parent =>
    if lessThan node parent then
      if i / 2 = i / 2 / 2 then (heap.set i parent).set (i / 2) node
      else upHeapLoop node (i / 2) (heap.set i parent)
    else heap.set i node
  termination_by i
  decreasing_by omega

def upHeap (heap : List α) : List α :=
  match heap.getLast? with
  | none => heap
  | some node => upHeapLoop lessThan node (heap.length - 1) heap

def put (maxSize : ℕ) (element : α) (heap : List α) : List α :=
  if maxSize ≤ heap.length then heap else upHeap lessThan (heap ++ [element])

/-- The smaller one of the children at `j` and `j + 1`. -/
def smallerChild (heap : List α) (j : ℕ) : ℕ :=
  match heap[j + 1]?, heap[j]? with
  | some right, some left => if lessThan right left then j + 1 else j
  | _, _ => j

theorem le_smallerChild (heap : List α) (j : ℕ) : j ≤ smallerChild lessThan heap j := by
  unfold smallerChild
  split
  · split_ifs
    · exact Nat.le_succ j
    · exact Nat.le_refl j
  · exact Nat.le_refl j

/-- `node` goes down from the hole `i`. -/
def downHeapLoop (node : α) (i : ℕ) (hi : 0 < i) (heap : List α) : List α :=
  match h : heap[smallerChild lessThan heap (2 * i)]? with
  | none => heap.set i node
  | some child =>
    if lessThan child node then
      downHeapLoop node (smallerChild lessThan heap (2 * i))
        (by have := le_smallerChild lessThan heap (2 * i); omega) (heap.set i child)
    else heap.set i node
  termination_by heap.length - i
  decreasing_by
    have hle := le_smallerChild lessThan heap (2 * i)
    have hlt := (List.getElem?_eq_some_iff.1 h).1
    rw [length_set]
    omega

/-- The first child of the root is the root, which is not less than itself. -/
def downHeap (heap : List α) : List α :=
  match heap with
  | node :: child :: rest =>
    if lessThan child node then
      downHeapLoop lessThan node 1 Nat.one_pos (child :: child :: rest)
    else heap
  | _ => heap

def pop (heap : List α) : List α :=
  match heap.getLast? with
  | none => heap
  | some last => downHeap lessThan (heap.set 0 last).dropLast

section perm
variable {lessThan}

theorem set_set_perm {node x : α} {heap : List α} {i j : ℕ} (hij : i ≠ j) (hi : i < heap.length)
    (hj : heap[j]? = some x) : ((heap.set i x).set j node).Perm (heap.set i node) := by
  obtain ⟨hj, rfl⟩ := List.getElem?_eq_some_iff.1 hj
  have hperm := @List.set_set_perm _ (heap.set i node) i j (by simpa) (by simpa)
  simpa [getElem_set_ne hij] using hperm

theorem upHeapLoop_perm (node : α) (i : ℕ) (heap : List α) (hi : i < heap.length) :
    (upHeapLoop lessThan node i heap).Perm (heap.set i node) := by
  unfold upHeapLoop
  split
  · exact Perm.refl _
  · rename_i parent hparent
    split_ifs with hless hroot
    · rcases eq_or_ne i 0 with rfl | hne
      · rw [set_set]
      · exact set_set_perm (by omega) hi hparent
    · have hrest := upHeapLoop_perm node (i / 2) (heap.set i parent)
        (by rw [length_set]; omega)
      exact hrest.trans (set_set_perm (by omega) hi hparent)
    · exact Perm.refl _
  termination_by i

theorem downHeapLoop_perm (node : α) (i : ℕ) (hpos : 0 < i) (heap : List α)
    (hi : i < heap.length) : (downHeapLoop lessThan node i hpos heap).Perm (heap.set i node) := by
  have hle := le_smallerChild lessThan heap (2 * i)
  unfold downHeapLoop
  split
  · exact Perm.refl _
  · rename_i child hchild
    have hlt := (List.getElem?_eq_some_iff.1 hchild).1
    split_ifs with hless
    · have hrest := downHeapLoop_perm node (smallerChild lessThan heap (2 * i)) (by omega)
        (heap.set i child) (by rwa [length_set])
      exact hrest.trans (set_set_perm (by omega) hi hchild)
    · exact Perm.refl _
  termination_by heap.length - i

theorem put_perm {maxSize : ℕ} {element : α} {heap : List α} (h : heap.length < maxSize) :
    (put lessThan maxSize element heap).Perm (element :: heap) := by
  unfold put upHeap
  rw [if_neg (by omega), getLast?_concat, length_append, length_singleton,
    Nat.add_sub_cancel]
  have hloop := @upHeapLoop_perm _ lessThan element heap.length (heap ++ [element]) (by simp)
  rw [set_append_right _ _ (Nat.le_refl _), Nat.sub_self] at hloop
  exact hloop.trans (perm_append_singleton element heap)

theorem downHeap_perm : ∀ heap : List α, (downHeap lessThan heap).Perm heap
  | [] => Perm.refl _
  | [_] => Perm.refl _
  | node :: child :: rest => by
    simp only [downHeap]
    split_ifs with hless
    · have hloop := @downHeapLoop_perm _ lessThan node 1 Nat.one_pos (child :: child :: rest)
        (by simp)
      exact hloop.trans (Perm.swap node child rest)
    · exact Perm.refl _

theorem pop_concat (top last : α) (front : List α) :
    pop lessThan (top :: (front ++ [last])) = downHeap lessThan (last :: front) := by
  have hlast : (top :: (front ++ [last])).getLast? = some last := by
    rw [← cons_append, getLast?_concat]
  unfold pop
  rw [hlast]
  show downHeap lessThan (last :: (front ++ [last])).dropLast = _
  rw [← cons_append, dropLast_concat]

theorem pop_perm {top : α} {rest : List α} : (pop lessThan (top :: rest)).Perm rest := by
  rcases rest.eq_nil_or_concat with rfl | ⟨front, last, rfl⟩
  · exact Perm.refl _
  · rw [concat_eq_append, pop_concat]
    exact (downHeap_perm _).trans (perm_append_singleton last front).symm

end perm

variable [LinearOrder κ] {key : α → κ} {lessThan}

def IsHeap (key : α → κ) (heap : List α) : Prop :=
  ∀ (k : ℕ) x p, heap[k]? = some x → heap[k / 2]? = some p → key p ≤ key x

theorem IsHeap.top_le {top : α} {rest : List α} (h : IsHeap key (top :: rest)) :
    ∀ x ∈ top :: rest, key top ≤ key x := by
  have hle : ∀ (k : ℕ) x, (top :: rest)[k]? = some x → key top ≤ key x := by
    intro k
    induction k using Nat.strongRecOn with
    | ind k ih =>
      intro x hx
      rcases Nat.eq_zero_or_pos k with rfl | hpos
      · obtain rfl : top = x := by simpa using hx
        exact le_rfl
      · have hlt := (List.getElem?_eq_some_iff.1 hx).1
        have hparent : (top :: rest)[k / 2]? = some (top :: rest)[k / 2] :=
          getElem?_eq_getElem (by omega)
        exact (ih (k / 2) (by omega) _ hparent).trans (h k x _ hx hparent)
  intro x hx
  obtain ⟨k, hk⟩ := mem_iff_getElem?.1 hx
  exact hle k x hk

/-- The heap but for a hole at `i`, in which no child of the hole is less than its parent nor than
`node`. -/
structure UpOrder (key : α → κ) (node : α) (i : ℕ) (heap : List α) : Prop where
  lt : i < heap.length
  off : ∀ (k : ℕ) x p, k ≠ i → k / 2 ≠ i → heap[k]? = some x → heap[k / 2]? = some p →
    key p ≤ key x
  grand : i ≠ 0 → ∀ (k : ℕ) x p, k / 2 = i → heap[k]? = some x → heap[i / 2]? = some p →
    key p ≤ key x
  below : ∀ (k : ℕ) x, k ≠ i → k / 2 = i → heap[k]? = some x → key node ≤ key x

section up
variable {node : α} {i : ℕ} {heap : List α}

theorem UpOrder.finish (h : UpOrder key node i heap)
    (hstop : i ≠ 0 → ∀ p, heap[i / 2]? = some p → key p ≤ key node) :
    IsHeap key (heap.set i node) := by
  intro k x p hx hp
  rcases eq_or_ne k i with rfl | hk
  · rw [getElem?_set_self h.lt, some.injEq] at hx
    rcases eq_or_ne k 0 with rfl | hzero
    · rw [Nat.zero_div, getElem?_set_self h.lt, some.injEq] at hp
      rw [← hx, ← hp]
    · rw [getElem?_set_ne (by omega)] at hp
      rw [← hx]
      exact hstop hzero p hp
  · rw [getElem?_set_ne hk.symm] at hx
    rcases eq_or_ne (k / 2) i with hparent | hparent
    · rw [hparent, getElem?_set_self h.lt, some.injEq] at hp
      rw [← hp]
      exact h.below k x hk hparent hx
    · rw [getElem?_set_ne hparent.symm] at hp
      exact h.off k x p hk hparent hx hp

theorem UpOrder.move (h : UpOrder key node i heap) {parent : α} (hi : i ≠ 0)
    (hparent : heap[i / 2]? = some parent) (hless : key node < key parent) :
    UpOrder key node (i / 2) (heap.set i parent) := by
  have hsibling : ∀ (k : ℕ) x, k ≠ i / 2 → k / 2 = i / 2 → (heap.set i parent)[k]? = some x →
      key parent ≤ key x := by
    intro k x hk hk2 hx
    rcases eq_or_ne k i with rfl | hne
    · rw [getElem?_set_self h.lt, some.injEq] at hx
      rw [hx]
    · rw [getElem?_set_ne hne.symm] at hx
      exact h.off k x parent hne (by omega) hx (by rwa [hk2])
  refine ⟨?_, ?_, ?_, ?_⟩
  · have hlt := h.lt
    rw [length_set]
    omega
  · intro k x p hk hk2 hx hp
    have hne : k ≠ i := by
      rintro rfl
      exact hk2 rfl
    rw [getElem?_set_ne hne.symm] at hx
    rcases eq_or_ne (k / 2) i with hki | hki
    · rw [hki, getElem?_set_self h.lt, some.injEq] at hp
      rw [← hp]
      exact h.grand hi k x parent hki hx hparent
    · rw [getElem?_set_ne hki.symm] at hp
      exact h.off k x p hne hki hx hp
  · intro hzero k x p hk hx hp
    rw [getElem?_set_ne (by omega)] at hp
    have hup := h.off (i / 2) parent p (by omega) (by omega) hparent hp
    exact hup.trans (hsibling k x (by omega) hk hx)
  · intro k x hk hk2 hx
    exact hless.le.trans (hsibling k x hk hk2 hx)

variable (hlessThan : ∀ a b, lessThan a b = true ↔ key a < key b)
include hlessThan

theorem UpOrder.upHeapLoop {i : ℕ} {heap : List α} (h : UpOrder key node i heap) :
    IsHeap key (upHeapLoop lessThan node i heap) := by
  have hlt := h.lt
  unfold PriorityQueue.upHeapLoop
  split
  · rename_i hnone
    rw [getElem?_eq_none_iff] at hnone
    omega
  · rename_i parent hparent
    split_ifs with hless hroot
    · rw [hlessThan] at hless
      rcases eq_or_ne i 0 with rfl | hne
      · rw [set_set]
        exact h.finish fun hne => absurd rfl hne
      · exact (h.move hne hparent hless).finish fun hne => by omega
    · rw [hlessThan] at hless
      exact UpOrder.upHeapLoop (h.move (by omega) hparent hless)
    · refine h.finish fun _ p hp => ?_
      rw [hparent, some.injEq] at hp
      rw [← hp, ← not_lt, ← hlessThan]
      exact hless
  termination_by i

theorem IsHeap.put {element : α} {maxSize : ℕ} (h : IsHeap key heap) :
    IsHeap key (put lessThan maxSize element heap) := by
  unfold PriorityQueue.put upHeap
  split_ifs with hfull
  · exact h
  · rw [getLast?_concat, length_append, length_singleton, Nat.add_sub_cancel]
    refine UpOrder.upHeapLoop hlessThan ⟨by simp, ?_, ?_, ?_⟩
    · intro k x p hk hk2 hx hp
      have hlt := (List.getElem?_eq_some_iff.1 hx).1
      rw [length_append, length_singleton] at hlt
      rw [getElem?_append_left (by omega)] at hx hp
      exact h k x p hx hp
    · intro hne k x p hk hx hp
      have hlt := (List.getElem?_eq_some_iff.1 hx).1
      rw [length_append, length_singleton] at hlt
      omega
    · intro k x hne hk hx
      have hlt := (List.getElem?_eq_some_iff.1 hx).1
      rw [length_append, length_singleton] at hlt
      omega

end up

/-- The heap but for a hole at `i`, whose parent is not greater than `node` nor than a child. -/
structure DownOrder (key : α → κ) (node : α) (i : ℕ) (heap : List α) : Prop where
  lt : i < heap.length
  off : ∀ (k : ℕ) x p, k ≠ i → k / 2 ≠ i → heap[k]? = some x → heap[k / 2]? = some p →
    key p ≤ key x
  above : i ≠ 0 → ∀ p, heap[i / 2]? = some p → key p ≤ key node
  grand : i ≠ 0 → ∀ (k : ℕ) x p, k / 2 = i → heap[k]? = some x → heap[i / 2]? = some p →
    key p ≤ key x

section down
variable {node : α} {i : ℕ} {heap : List α}

theorem DownOrder.finish (h : DownOrder key node i heap)
    (hstop : ∀ (k : ℕ) x, k ≠ i → k / 2 = i → heap[k]? = some x → key node ≤ key x) :
    IsHeap key (heap.set i node) :=
  UpOrder.finish ⟨h.lt, h.off, h.grand, hstop⟩ h.above

theorem DownOrder.move (h : DownOrder key node i heap) {c : ℕ} {child : α} (hc : c ≠ i)
    (hc2 : c / 2 = i) (hchild : heap[c]? = some child) (hle : key child ≤ key node)
    (hleast : ∀ (k : ℕ) x, k ≠ i → k / 2 = i → heap[k]? = some x → key child ≤ key x) :
    DownOrder key node c (heap.set i child) := by
  have hself : (heap.set i child)[i]? = some child := getElem?_set_self h.lt
  refine ⟨?_, ?_, ?_, ?_⟩
  · rw [length_set]
    exact (List.getElem?_eq_some_iff.1 hchild).1
  · intro k x p hk hk2 hx hp
    rcases eq_or_ne k i with rfl | hne
    · rw [hself, some.injEq] at hx
      rcases eq_or_ne k 0 with rfl | hzero
      · rw [Nat.zero_div, hself, some.injEq] at hp
        rw [← hx, ← hp]
      · rw [getElem?_set_ne (by omega)] at hp
        rw [← hx]
        exact h.grand hzero c child p hc2 hchild hp
    · rw [getElem?_set_ne hne.symm] at hx
      rcases eq_or_ne (k / 2) i with hki | hki
      · rw [hki, hself, some.injEq] at hp
        rw [← hp]
        exact hleast k x hne hki hx
      · rw [getElem?_set_ne hki.symm] at hp
        exact h.off k x p hne hki hx hp
  · intro _ p hp
    rw [hc2, hself, some.injEq] at hp
    rwa [← hp]
  · intro _ k x p hk hx hp
    rw [hc2, hself, some.injEq] at hp
    rw [getElem?_set_ne (by omega)] at hx
    rw [← hp]
    exact h.off k x child (by omega) (by omega) hx (by rwa [hk])

variable (hlessThan : ∀ a b, lessThan a b = true ↔ key a < key b)
include hlessThan

theorem smallerChild_le {j k : ℕ} {x : α} (hk : k = j ∨ k = j + 1) (hx : heap[k]? = some x) :
    ∃ child, heap[smallerChild lessThan heap j]? = some child ∧ key child ≤ key x := by
  have hlt := (List.getElem?_eq_some_iff.1 hx).1
  have hj : heap[j]? = some heap[j] := getElem?_eq_getElem (by omega)
  unfold smallerChild
  rcases hright : heap[j + 1]? with _ | right
  · obtain rfl : k = j := by
      rw [getElem?_eq_none_iff] at hright
      omega
    exact ⟨x, hx, le_rfl⟩
  · rw [hj]
    simp only
    split_ifs with hless
    · rw [hlessThan] at hless
      refine ⟨right, hright, ?_⟩
      rcases hk with rfl | rfl
      · rw [hj, some.injEq] at hx
        rw [← hx]
        exact hless.le
      · rw [hright, some.injEq] at hx
        rw [hx]
    · rw [hlessThan, not_lt] at hless
      refine ⟨heap[j], hj, ?_⟩
      rcases hk with rfl | rfl
      · rw [hj, some.injEq] at hx
        rw [hx]
      · rw [hright, some.injEq] at hx
        rwa [← hx]

omit [LinearOrder κ] hlessThan in
theorem smallerChild_eq (j : ℕ) :
    smallerChild lessThan heap j = j ∨ smallerChild lessThan heap j = j + 1 := by
  unfold smallerChild
  split
  · split_ifs
    · exact Or.inr rfl
    · exact Or.inl rfl
  · exact Or.inl rfl

theorem DownOrder.downHeapLoop {i : ℕ} {hpos : 0 < i} {heap : List α}
    (h : DownOrder key node i heap) : IsHeap key (downHeapLoop lessThan node i hpos heap) := by
  have hc := @smallerChild_eq _ lessThan heap (2 * i)
  have hleast : ∀ (k : ℕ) x, k ≠ i → k / 2 = i → heap[k]? = some x → ∃ child,
      heap[smallerChild lessThan heap (2 * i)]? = some child ∧ key child ≤ key x := by
    intro k x hk hk2 hx
    exact smallerChild_le hlessThan (by omega) hx
  unfold PriorityQueue.downHeapLoop
  split
  · rename_i hnone
    refine h.finish fun k x hk hk2 hx => ?_
    obtain ⟨child, hchild, -⟩ := hleast k x hk hk2 hx
    rw [hnone] at hchild
    cases hchild
  · rename_i child hchild
    have hlt := (List.getElem?_eq_some_iff.1 hchild).1
    have hle : ∀ (k : ℕ) x, k ≠ i → k / 2 = i → heap[k]? = some x → key child ≤ key x := by
      intro k x hk hk2 hx
      obtain ⟨child', hchild', hle⟩ := hleast k x hk hk2 hx
      rw [hchild, some.injEq] at hchild'
      rwa [hchild']
    split_ifs with hless
    · rw [hlessThan] at hless
      exact DownOrder.downHeapLoop (h.move (by omega) (by omega) hchild hless.le hle)
    · rw [hlessThan, not_lt] at hless
      exact h.finish fun k x hk hk2 hx => hless.trans (hle k x hk hk2 hx)
  termination_by heap.length - i
  decreasing_by
    rw [length_set]
    omega

theorem DownOrder.downHeap {rest : List α} (h : DownOrder key node 0 (node :: rest)) :
    IsHeap key (downHeap lessThan (node :: rest)) := by
  have hchild : ∀ (k : ℕ) x, k ≠ 0 → k / 2 = 0 → (node :: rest)[k]? = some x →
      rest[0]? = some x := by
    intro k x hk hk2 hx
    obtain rfl : k = 1 := by omega
    exact hx
  rcases rest with _ | ⟨child, rest⟩
  · exact h.finish fun k x hk hk2 hx => nomatch hchild k x hk hk2 hx
  · have heq : ∀ (k : ℕ) x, k ≠ 0 → k / 2 = 0 → (node :: child :: rest)[k]? = some x →
        child = x := fun k x hk hk2 hx => some.inj (hchild k x hk hk2 hx)
    simp only [PriorityQueue.downHeap]
    split_ifs with hless
    · rw [hlessThan] at hless
      exact DownOrder.downHeapLoop hlessThan (h.move (c := 1) (by omega) rfl rfl hless.le
        fun k x hk hk2 hx => (congrArg key (heq k x hk hk2 hx)).le)
    · rw [hlessThan, not_lt] at hless
      exact h.finish fun k x hk hk2 hx => hless.trans (congrArg key (heq k x hk hk2 hx)).le

theorem IsHeap.adjustTop {top top' : α} {rest : List α} (h : IsHeap key (top :: rest)) :
    IsHeap key (downHeap lessThan (top' :: rest)) := by
  have hsame : ∀ (k : ℕ) x, k ≠ 0 → (top' :: rest)[k]? = some x →
      (top :: rest)[k]? = some x := by
    rintro (_ | k) x hk hx
    · exact absurd rfl hk
    · exact hx
  refine DownOrder.downHeap hlessThan ⟨by simp, ?_, fun hne => absurd rfl hne,
    fun hne => absurd rfl hne⟩
  intro k x p hk hk2 hx hp
  exact h k x p (hsame k x hk hx) (hsame (k / 2) p hk2 hp)

theorem IsHeap.pop {top : α} {rest : List α} (h : IsHeap key (top :: rest)) :
    IsHeap key (pop lessThan (top :: rest)) := by
  rcases rest.eq_nil_or_concat with rfl | ⟨front, last, rfl⟩
  · intro k x p hx
    simp [PriorityQueue.pop, PriorityQueue.downHeap] at hx
  · rw [concat_eq_append] at h ⊢
    rw [pop_concat]
    have hsame : ∀ (k : ℕ) x, k ≠ 0 → (last :: front)[k]? = some x →
        (top :: (front ++ [last]))[k]? = some x := by
      rintro (_ | k) x hk hx
      · exact absurd rfl hk
      · rw [getElem?_cons_succ] at hx ⊢
        rwa [getElem?_append_left (List.getElem?_eq_some_iff.1 hx).1]
    refine DownOrder.downHeap hlessThan ⟨by simp, ?_, fun hne => absurd rfl hne,
      fun hne => absurd rfl hne⟩
    intro k x p hk hk2 hx hp
    exact h k x p (hsame k x hk hx) (hsame (k / 2) p hk2 hp)

end down

end Etoile.Lucene.PriorityQueue
