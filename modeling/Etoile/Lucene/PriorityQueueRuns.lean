import Etoile.Lib.Runs
import Etoile.Lucene.PriorityQueue
import Mathlib.Data.List.Induction
import Mathlib.Data.List.Sort

/-!
# Runs of the priority queue

Whatever a queue is asked for, it stays a heap and gives up least elements only: to `-pop`, and to
an element that `-insert:` is given when the queue is full.
-/

namespace Etoile.Lucene.PriorityQueue

open List PriorityQueue

variable {α κ : Type} (lessThan : α → α → Bool)

/-- `-insert:`; in a full queue the element takes the place of the top, unless it is less. -/
def insert (maxSize : ℕ) (element : α) (heap : List α) : Bool × List α :=
  if heap.length < maxSize then (true, put lessThan maxSize element heap)
  else match heap with
    | [] => (false, [])
    | top :: rest =>
      if lessThan element top then (false, top :: rest)
      else (true, downHeap lessThan (element :: rest))

/-- `-adjustTop` after the object at the top has changed. -/
def adjustTop (changed : α) : List α → List α
  | [] => []
  | _ :: rest => downHeap lessThan (changed :: rest)

inductive Request (α : Type)
  | put (element : α)
  | insert (element : α)
  | pop
  /-- The object at the top changes before. -/
  | adjustTop (changed : α)

def step (maxSize : ℕ) (heap : List α) : Request α → List α
  | .put element => put lessThan maxSize element heap
  | .insert element => (insert lessThan maxSize element heap).2
  | .pop => pop lessThan heap
  | .adjustTop changed => adjustTop lessThan changed heap

section Order

variable [LinearOrder κ] (key : α → κ)

def byKey (a b : α) : Bool := key a < key b

theorem byKey_iff (a b : α) : byKey key a b = true ↔ key a < key b := by
  simp [byKey]

def IsLeast (least : α) (elements : List α) : Prop := ∀ x ∈ elements, key least ≤ key x

def Serves (maxSize : ℕ) (heap heap' : List α) : Request α → Prop
  | .put element =>
    if heap.length < maxSize then heap'.Perm (element :: heap) else heap' = heap
  | .insert element =>
    if heap.length < maxSize then heap'.Perm (element :: heap)
    else ∃ least, IsLeast key least (element :: heap) ∧ (least :: heap').Perm (element :: heap)
  | .pop => ∀ top, heap.head? = some top → IsLeast key top heap ∧ (top :: heap').Perm heap
  | .adjustTop changed => heap ≠ [] → heap'.Perm (changed :: heap.tail)

variable {key} {lessThan} {heap : List α} {maxSize : ℕ}

theorem IsHeap.nil : IsHeap key ([] : List α) := fun k x p hx => by simp at hx

theorem IsHeap.isLeast {top : α} (h : IsHeap key heap) (htop : heap.head? = some top) :
    IsLeast key top heap := by
  obtain ⟨rest, rfl⟩ := head?_eq_some_iff.1 htop
  exact h.top_le

variable (hlessThan : ∀ a b, lessThan a b = true ↔ key a < key b)
include hlessThan

theorem IsHeap.insert (h : IsHeap key heap) (element : α) :
    IsHeap key (insert lessThan maxSize element heap).2 := by
  unfold PriorityQueue.insert
  split_ifs
  · exact h.put hlessThan
  · rcases heap with _ | ⟨top, rest⟩
    · exact IsHeap.nil
    · simp only
      split_ifs
      · exact h
      · exact h.adjustTop hlessThan

theorem insert_serves (h : IsHeap key heap) (element : α) :
    Serves key maxSize heap (insert lessThan maxSize element heap).2 (.insert element) := by
  unfold insert
  simp only [Serves]
  split_ifs with hfull
  · exact put_perm hfull
  · rcases heap with _ | ⟨top, rest⟩
    · exact ⟨element, by simp [IsLeast], Perm.refl _⟩
    · simp only
      split_ifs with hless
      · rw [hlessThan] at hless
        refine ⟨element, ?_, Perm.refl _⟩
        intro x hx
        rcases mem_cons.1 hx with rfl | hx
        · exact le_rfl
        · exact hless.le.trans (h.top_le x hx)
      · rw [hlessThan, not_lt] at hless
        refine ⟨top, ?_, ?_⟩
        · intro x hx
          rcases mem_cons.1 hx with rfl | hx
          · exact hless
          · exact h.top_le x hx
        · exact ((downHeap_perm _).cons top).trans (Perm.swap element top rest)

theorem IsHeap.step (h : IsHeap key heap) (request : Request α) :
    IsHeap key (step lessThan maxSize heap request) := by
  rcases request with element | element | _ | changed
  · exact h.put hlessThan
  · exact h.insert hlessThan element
  · rcases heap with _ | ⟨top, rest⟩
    · exact IsHeap.nil
    · exact h.pop hlessThan
  · rcases heap with _ | ⟨top, rest⟩
    · exact IsHeap.nil
    · exact h.adjustTop hlessThan

theorem step_serves (h : IsHeap key heap) (request : Request α) :
    Serves key maxSize heap (step lessThan maxSize heap request) request := by
  rcases request with element | element | _ | changed
  · simp only [Serves, step]
    split_ifs with hfull
    · exact put_perm hfull
    · exact if_pos (Nat.not_lt.1 hfull)
  · exact insert_serves hlessThan h element
  · intro top htop
    refine ⟨h.isLeast htop, ?_⟩
    obtain ⟨rest, rfl⟩ := head?_eq_some_iff.1 htop
    exact pop_perm.cons top
  · intro hne
    obtain ⟨top, rest, rfl⟩ := exists_cons_of_ne_nil hne
    exact downHeap_perm _

theorem run_serves (maxSize : ℕ) (requests : List (Request α)) :
    Along (step lessThan maxSize) (fun heap request =>
      Serves key maxSize heap (step lessThan maxSize heap request) request
        ∧ IsHeap key (step lessThan maxSize heap request)) [] requests :=
  Along.always (I := IsHeap key) (fun _ request h =>
    ⟨⟨step_serves hlessThan h request, h.step hlessThan request⟩, h.step hlessThan request⟩)
    IsHeap.nil

end Order

section Best

variable [LinearOrder κ] {key : α → κ} {lessThan : α → α → Bool} {n : ℕ} {heap elements : List α}

/-- The queue holds the greatest `n` of the elements. -/
structure KeepsBest (key : α → κ) (n : ℕ) (heap elements : List α) : Prop where
  isHeap : IsHeap key heap
  length : heap.length = min n elements.length
  best : ∃ rest, (heap ++ rest).Perm elements ∧ ∀ a ∈ heap, ∀ b ∈ rest, key b ≤ key a

theorem keepsBest_nil : KeepsBest key n [] [] := ⟨IsHeap.nil, by simp, [], by simp⟩

theorem KeepsBest.skip (h : KeepsBest key n heap elements) (hfull : n ≤ heap.length) {d : α}
    (hle : ∀ a ∈ heap, key d ≤ key a) : KeepsBest key n heap (elements ++ [d]) := by
  have hlen := h.length
  obtain ⟨rest, hperm, hbest⟩ := h.best
  refine ⟨h.isHeap, ?_, rest ++ [d], ?_, ?_⟩
  · rw [length_append, length_singleton]
    omega
  · rw [← append_assoc]
    exact hperm.append_right [d]
  · intro a ha b hb
    rcases mem_append.1 hb with hb | hb
    · exact hbest a ha b hb
    · rw [mem_singleton.1 hb]
      exact hle a ha

theorem KeepsBest.insert (hlessThan : ∀ a b, lessThan a b = true ↔ key a < key b)
    (h : KeepsBest key n heap elements) (d : α) :
    KeepsBest key n (insert lessThan n d heap).2 (elements ++ [d]) := by
  have hlen := h.length
  have hserves : Serves key n heap (PriorityQueue.insert lessThan n d heap).2 (.insert d) :=
    insert_serves hlessThan h.isHeap d
  obtain ⟨rest, hperm, hbest⟩ := h.best
  have hadd : (d :: heap ++ rest).Perm (elements ++ [d]) :=
    (hperm.cons d).trans (perm_append_singleton d elements).symm
  simp only [Serves] at hserves
  split_ifs at hserves with hfull
  · have hrest : rest = [] := by
      have hcount := hperm.length_eq
      rw [length_append] at hcount
      exact length_eq_zero_iff.1 (by omega)
    refine ⟨h.isHeap.insert hlessThan d, ?_, [], ?_, by simp⟩
    · rw [hserves.length_eq, length_append, length_cons, length_singleton]
      omega
    · rw [append_nil]
      rw [hrest, append_nil] at hadd
      exact hserves.trans hadd
  · obtain ⟨least, hleast, hkept⟩ := hserves
    refine ⟨h.isHeap.insert hlessThan d, ?_, least :: rest, ?_, ?_⟩
    · have hcount := hkept.length_eq
      rw [length_cons, length_cons, Nat.succ_inj] at hcount
      rw [length_append, length_singleton]
      omega
    · exact (perm_middle.trans (hkept.append_right rest)).trans hadd
    · intro a ha b hb
      have hmem : a ∈ d :: heap := hkept.subset (mem_cons_of_mem least ha)
      rcases mem_cons.1 hb with rfl | hb
      · exact hleast a hmem
      · by_cases ha' : a ∈ heap
        · exact hbest a ha' b hb
        · obtain rfl : a = d := (mem_cons.1 hmem).resolve_right ha'
          rcases mem_cons.1 (hkept.subset mem_cons_self) with rfl | hmem'
          · exact absurd (hkept.cons_inv.subset ha) ha'
          · exact (hbest least hmem' b hb).trans (hleast a mem_cons_self)

theorem keepsBest_foldl (hlessThan : ∀ a b, lessThan a b = true ↔ key a < key b)
    (n : ℕ) (elements : List α) :
    KeepsBest key n (elements.foldl (fun heap d => (insert lessThan n d heap).2) []) elements := by
  induction elements using reverseRecOn with
  | nil => exact keepsBest_nil
  | append_singleton elements d ih =>
    rw [foldl_append]
    exact ih.insert hlessThan d

/-- As many elements are popped, each one put before those popped earlier; a nil raises. -/
def popInFront (lessThan : α → α → Bool) : ℕ → List α → List α → Option (List α)
  | 0, _, popped => some popped
  | n + 1, heap, popped =>
    match heap.head? with
    | none => none
    | some top => popInFront lessThan n (pop lessThan heap) (top :: popped)

theorem popInFront_eq (hlessThan : ∀ a b, lessThan a b = true ↔ key a < key b) :
    ∀ (m : ℕ) {heap popped : List α}, IsHeap key heap → heap.length = m → ∃ sorted,
      sorted.Perm heap ∧ (sorted.Pairwise fun a b => key b ≤ key a)
        ∧ popInFront lessThan m heap popped = some (sorted ++ popped)
  | 0, heap, popped, _, hm => by
    rw [length_eq_zero_iff] at hm
    exact ⟨[], by rw [hm], Pairwise.nil, rfl⟩
  | m + 1, heap, popped, hheap, hm => by
    obtain ⟨top, rest, rfl⟩ := exists_cons_of_length_eq_add_one hm
    have hpop := @pop_perm _ lessThan top rest
    obtain ⟨sorted, hperm, hsorted, heq⟩ := @popInFront_eq hlessThan m
      (pop lessThan (top :: rest)) (top :: popped) (hheap.pop hlessThan) (by
        rw [hpop.length_eq]
        exact Nat.succ.inj hm)
    refine ⟨sorted ++ [top], ?_, ?_, ?_⟩
    · exact (perm_append_singleton top sorted).trans ((hperm.trans hpop).cons top)
    · rw [pairwise_append]
      refine ⟨hsorted, pairwise_singleton _ _, fun a ha b hb => ?_⟩
      rw [mem_singleton.1 hb]
      exact hheap.top_le a (mem_cons_of_mem top ((hperm.trans hpop).subset ha))
    · rw [append_assoc]
      exact heq

def ranked (key : α → κ) (elements : List α) : List α :=
  elements.mergeSort fun a b => key b ≤ key a

theorem ranked_perm (key : α → κ) (elements : List α) : (ranked key elements).Perm elements :=
  mergeSort_perm elements _

theorem pairwise_ranked (key : α → κ) (elements : List α) :
    (ranked key elements).Pairwise fun a b => key b ≤ key a := by
  have hsorted := @pairwise_mergeSort α (fun a b => decide (key b ≤ key a))
    (fun a b c hab hbc => by
      simp only [decide_eq_true_eq] at hab hbc ⊢
      exact hbc.trans hab)
    (fun a b => by simpa using le_total (key b) (key a)) elements
  simpa [ranked] using hsorted

/-- Where the keys tell the elements apart, the greatest of them are the first in their ranking. -/
theorem eq_take_ranked (hinj : ∀ a ∈ elements, ∀ b ∈ elements, key a = key b → a = b)
    {best rest : List α} (hlength : best.length = min n elements.length)
    (hsorted : best.Pairwise fun a b => key b ≤ key a) (hperm : (best ++ rest).Perm elements)
    (hle : ∀ a ∈ best, ∀ b ∈ rest, key b ≤ key a) : best = (ranked key elements).take n := by
  have hall : best ++ ranked key rest = ranked key elements := by
    have hmem : ∀ {a}, a ∈ best ++ ranked key rest → a ∈ elements := by
      intro a ha
      refine hperm.subset ?_
      rw [mem_append] at ha ⊢
      exact ha.imp id fun ha => (ranked_perm key rest).subset ha
    refine @Perm.eq_of_pairwise α (fun a b => key b ≤ key a) _ _ ?_ ?_
      (pairwise_ranked key elements) ?_
    · intro a b ha hb hba hab
      exact hinj a (hmem ha) b ((ranked_perm key elements).subset hb) (le_antisymm hab hba)
    · refine pairwise_append.2 ⟨hsorted, pairwise_ranked key rest, fun a ha b hb => ?_⟩
      exact hle a ha b ((ranked_perm key rest).subset hb)
    · exact (((ranked_perm key rest).append_left best).trans hperm).trans
        (ranked_perm key elements).symm
  rw [← hall]
  rcases le_or_gt n elements.length with hn | hn
  · rw [take_append_of_le_length (by omega), take_of_length_le (by omega)]
  · have hcount := hperm.length_eq
    rw [length_append] at hcount
    have hrest : rest = [] := length_eq_zero_iff.1 (by omega)
    have hnil : ranked key ([] : List α) = [] := perm_nil.1 (ranked_perm key [])
    rw [hrest, hnil, append_nil, take_of_length_le (by omega)]

theorem KeepsBest.popInFront (hlessThan : ∀ a b, lessThan a b = true ↔ key a < key b)
    (h : KeepsBest key n heap elements)
    (hinj : ∀ a ∈ elements, ∀ b ∈ elements, key a = key b → a = b) :
    popInFront lessThan heap.length heap [] = some ((ranked key elements).take n) := by
  obtain ⟨sorted, hperm, hsorted, heq⟩ := @popInFront_eq _ _ _ key lessThan hlessThan heap.length
    heap [] h.isHeap rfl
  obtain ⟨rest, hrest, hle⟩ := h.best
  rw [heq, append_nil, eq_take_ranked hinj (hperm.length_eq.trans h.length) hsorted
    ((hperm.append_right rest).trans hrest) fun a ha b hb => hle a (hperm.subset ha) b hb]

end Best

end Etoile.Lucene.PriorityQueue
