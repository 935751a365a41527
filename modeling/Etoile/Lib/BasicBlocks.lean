import Mathlib.Order.CompletePartialOrder
import Mathlib.Data.Set.Lattice

/-!
# Basic blocks under construction

A builder creates blocks and appends instructions to them. A stretch of building takes over some
blocks, leaves every other one that was there as it was, and may hand one open block on to what
follows. Whether all the rest of what it touched is ended is kept as one proposition, so that it
can be composed along with the stretches.
-/

namespace Etoile

open Function List

class Terminating (ι : Type) where
  isTerminator : ι → Bool

open Terminating

/-- The blocks created so far, and the instructions that were made while there was no block to
insert them in. -/
structure BlockCode (ι : Type) where
  blocks : ℕ → List ι
  count : ℕ
  detached : List ι

variable {ι : Type}

namespace BlockCode

variable {k : BlockCode ι} {b c : ℕ} {i : ι}

def empty : BlockCode ι := ⟨fun _ => [], 0, []⟩

/-- Append to a block; without one the instruction stays outside the function. -/
def emit (k : BlockCode ι) (place : Option ℕ) (i : ι) : BlockCode ι :=
  match place with
  | some b => { k with blocks := update k.blocks b (k.blocks b ++ [i]) }
  | none => { k with detached := k.detached ++ [i] }

/-- Create a block, with the number `k.count`, and fill it. -/
def add (k : BlockCode ι) (l : List ι) : BlockCode ι where
  blocks := update k.blocks k.count l
  count := k.count + 1
  detached := k.detached

def create (k : BlockCode ι) : BlockCode ι := k.add []

@[simp] theorem emit_count (place : Option ℕ) : (k.emit place i).count = k.count := by
  cases place <;> rfl

@[simp] theorem emit_some_detached : (k.emit (some b) i).detached = k.detached := rfl

@[simp] theorem emit_none_detached : (k.emit none i).detached = k.detached ++ [i] := rfl

@[simp] theorem emit_some_blocks :
    (k.emit (some b) i).blocks b = k.blocks b ++ [i] := update_self ..

theorem emit_blocks_of_ne (h : c ≠ b) : (k.emit (some b) i).blocks c = k.blocks c :=
  update_of_ne h ..

theorem emit_lost {place : Option ℕ} (h : k.detached ≠ []) : (k.emit place i).detached ≠ [] := by
  rcases place with _ | b
  · simp
  · exact h

@[simp] theorem create_count : k.create.count = k.count + 1 := rfl

@[simp] theorem create_detached : k.create.detached = k.detached := rfl

@[simp] theorem add_blocks {l : List ι} : (k.add l).blocks k.count = l := update_self ..

theorem add_blocks_of_ne {l : List ι} (h : b ≠ k.count) : (k.add l).blocks b = k.blocks b :=
  update_of_ne h ..

end BlockCode

variable [Terminating ι]

def Ended : List ι → Bool
  | [] => false
  | [i] => isTerminator i
  | i :: rest => !isTerminator i && Ended rest

theorem ended_append_terminator {t : ι} (ht : isTerminator t) :
    ∀ {l : List ι}, (∀ i ∈ l, isTerminator i = false) → Ended (l ++ [t])
  | [], _ => ht
  | [i], h => by
    simp [Ended, h i (by simp), ht]
  | i :: j :: rest, h => by
    have hrest := ended_append_terminator ht fun x hx => h x (mem_cons_of_mem _ hx)
    have hi : isTerminator i = false := h i (by simp)
    rw [cons_append, cons_append] at *
    rw [Ended, hi, Bool.not_false, Bool.true_and]
    · exact hrest
    · simp

theorem exists_terminator_of_ended : ∀ {l : List ι}, Ended l → ∃ i ∈ l, isTerminator i
  | [], h => by simp [Ended] at h
  | [i], h => ⟨i, by simp, h⟩
  | i :: j :: rest, h => by
    rw [Ended, Bool.and_eq_true] at h
    · obtain ⟨x, hx, ht⟩ := exists_terminator_of_ended h.2
      exact ⟨x, mem_cons_of_mem _ hx, ht⟩
    · simp

namespace BlockCode

variable {k k' k₁ k₂ : BlockCode ι} {P Q : Prop} {S T : Set ℕ} {b c : ℕ} {o : Option ℕ} {i : ι}

def hasTerminator (k : BlockCode ι) (b : ℕ) : Bool := (k.blocks b).getLast?.any isTerminator

def Open (k : BlockCode ι) (b : ℕ) : Prop := b < k.count ∧ ∀ i ∈ k.blocks b, isTerminator i = false

theorem Open.not_ended (h : k.Open b) : ¬ Ended (k.blocks b) := by
  intro he
  obtain ⟨i, hi, ht⟩ := exists_terminator_of_ended he
  rw [h.2 i hi] at ht
  cases ht

theorem Open.hasTerminator (h : k.Open b) : k.hasTerminator b = false := by
  unfold BlockCode.hasTerminator
  rcases hl : (k.blocks b).getLast? with _ | i
  · rfl
  · exact h.2 i (mem_of_getLast? hl)

/-- Every block ends with its one terminator, and no instruction is outside the blocks. -/
def Complete (k : BlockCode ι) : Prop := (∀ b < k.count, Ended (k.blocks b)) ∧ k.detached = []

/-- Building from `k` to `k'` took over the blocks in `S` and hands on the open block `o`; the
other blocks that it took over or made are all ended if and only if `P`. -/
structure Extends (P : Prop) (S : Set ℕ) (o : Option ℕ) (k k' : BlockCode ι) : Prop where
  grows : k.count ≤ k'.count
  attached : k'.detached = k.detached
  old : ∀ b ∈ S, b < k.count
  frame : ∀ b < k.count, b ∉ S → k'.blocks b = k.blocks b
  current : ∀ c, o = some c → k'.Open c ∧ (c ∈ S ∨ k.count ≤ c)
  ended : P ↔ ∀ b < k'.count, (b ∈ S ∨ k.count ≤ b) → o ≠ some b → Ended (k'.blocks b)

/-- Blocks were added, and the ones in `T` are those that are not ended yet. -/
structure Adds (T : Set ℕ) (k k' : BlockCode ι) : Prop where
  grows : k.count ≤ k'.count
  attached : k'.detached = k.detached
  frame : ∀ b < k.count, k'.blocks b = k.blocks b
  pending : ∀ b ∈ T, k.count ≤ b ∧ k'.Open b
  ended : ∀ b < k'.count, k.count ≤ b → b ∉ T → Ended (k'.blocks b)

namespace Adds

theorem add_open {l : List ι} (hl : ∀ i ∈ l, isTerminator i = false) :
    Adds {k.count} k (k.add l) where
  grows := Nat.le_succ _
  attached := rfl
  frame _ hb := add_blocks_of_ne hb.ne
  pending b hb := by
    rw [Set.mem_singleton_iff] at hb
    subst hb
    refine ⟨le_rfl, Nat.lt_succ_self _, ?_⟩
    rwa [add_blocks]
  ended b hb hle hne := by
    rw [Set.mem_singleton_iff] at hne
    change b < k.count + 1 at hb
    omega

theorem add_ended {l : List ι} (hl : Ended l) : Adds ∅ k (k.add l) where
  grows := Nat.le_succ _
  attached := rfl
  frame _ hb := add_blocks_of_ne hb.ne
  pending b hb := hb.elim
  ended b hb hle _ := by
    obtain rfl : b = k.count := by
      change b < k.count + 1 at hb
      omega
    rwa [add_blocks]

theorem create : Adds {k.count} k k.create := add_open (by simp)

theorem open_new (h : Adds {b} k k') : k'.Open b := (h.pending b rfl).2

theorem still_open (h : Adds T k k') (hc : k.Open c) : k'.Open c := by
  refine ⟨lt_of_lt_of_le hc.1 h.grows, ?_⟩
  rw [h.frame c hc.1]
  exact hc.2

theorem trans (h₁ : Adds S k k₁) (h₂ : Adds T k₁ k₂) : Adds (S ∪ T) k k₂ := by
  have hgrow := h₁.grows
  have hgrow' := h₂.grows
  refine ⟨hgrow.trans hgrow', h₂.attached.trans h₁.attached, fun b hb => ?_, ?_, ?_⟩
  · rw [h₂.frame b (by omega), h₁.frame b hb]
  · rintro b (hb | hb)
    · obtain ⟨hle, hlt, hopen⟩ := h₁.pending b hb
      refine ⟨hle, by omega, ?_⟩
      rwa [h₂.frame b hlt]
    · exact ⟨by have := (h₂.pending b hb).1; omega, (h₂.pending b hb).2⟩
  · intro b hb hle hnot
    rw [Set.mem_union, not_or] at hnot
    by_cases hlt : b < k₁.count
    · rw [h₂.frame b hlt]
      exact h₁.ended b hlt hle hnot.1
    · exact h₂.ended b hb (by omega) hnot.2

theorem of_eq (h : Adds S k k') (hST : S = T) : Adds T k k' := hST ▸ h

theorem add_all_ended : ∀ {bs : List (List ι)} {k : BlockCode ι}, (∀ l ∈ bs, Ended l) →
    Adds ∅ k (bs.foldl add k)
  | [], k, _ => ⟨le_rfl, rfl, fun _ _ => rfl, by simp, fun b hb hle => absurd hb (not_lt.2 hle)⟩
  | l :: bs, k, h => by
    have htail := add_all_ended (k := k.add l) fun l' hl' => h l' (mem_cons_of_mem _ hl')
    simpa using (add_ended (h l (by simp))).trans htail

end Adds

namespace Extends

theorem refl (h : k.Open c) : Extends True {c} (some c) k k where
  grows := le_rfl
  attached := rfl
  old b hb := by
    rw [Set.mem_singleton_iff.1 hb]
    exact h.1
  frame _ _ _ := rfl
  current d hd := by
    cases hd
    exact ⟨h, .inl rfl⟩
  ended := by
    refine ⟨fun _ b hb hS hne => ?_, fun _ => trivial⟩
    rcases hS with rfl | hle
    · exact absurd rfl hne
    · omega

theorem code (h : k.Open c) (hi : isTerminator i = false) :
    Extends True {c} (some c) k (k.emit (some c) i) where
  grows := le_rfl
  attached := rfl
  old b hb := by
    rw [Set.mem_singleton_iff.1 hb]
    exact h.1
  frame b _ hb := emit_blocks_of_ne hb
  current d hd := by
    cases hd
    refine ⟨⟨h.1, fun j hj => ?_⟩, .inl rfl⟩
    rw [emit_some_blocks, mem_append, mem_singleton] at hj
    rcases hj with hj | rfl
    · exact h.2 j hj
    · exact hi
  ended := by
    refine ⟨fun _ b hb hS hne => ?_, fun _ => trivial⟩
    rcases hS with rfl | hle
    · exact absurd rfl hne
    · rw [emit_count] at hb
      omega

theorem stop (h : k.Open c) (hi : isTerminator i) :
    Extends True {c} none k (k.emit (some c) i) where
  grows := le_rfl
  attached := rfl
  old b hb := by
    rw [Set.mem_singleton_iff.1 hb]
    exact h.1
  frame b _ hb := emit_blocks_of_ne hb
  current d hd := nomatch hd
  ended := by
    refine ⟨fun _ b hb hS _ => ?_, fun _ => trivial⟩
    rcases hS with rfl | hle
    · rw [emit_some_blocks]
      exact ended_append_terminator hi h.2
    · rw [emit_count] at hb
      omega

theorem congr (h : Extends P S o k k') (hPQ : P ↔ Q) : Extends Q S o k k' :=
  { h with ended := hPQ.symm.trans h.ended }

theorem still_open (h : Extends P S o k k') (hc : k.Open c) (hcS : c ∉ S) : k'.Open c := by
  refine ⟨lt_of_lt_of_le hc.1 h.grows, ?_⟩
  rw [h.frame c hc.1 hcS]
  exact hc.2

theorem of_eq (h : Extends P S o k k') (hST : S = T) : Extends P T o k k' := hST ▸ h

/-- A later stretch that starts in the block handed on, and takes over more of the old blocks. -/
theorem seq (h₁ : Extends P S (some c) k k₁) (h₂ : Extends Q (insert c T) o k₁ k₂)
    (hT : ∀ b ∈ T, b < k.count) (hdisj : Disjoint S T) : Extends (P ∧ Q) (S ∪ T) o k k₂ := by
  obtain ⟨hopen, hc⟩ := h₁.current c rfl
  have hST : ∀ b ∈ S, b ∉ T := fun b hb hb' => Set.disjoint_left.1 hdisj hb hb'
  have hgrow := h₁.grows
  refine ⟨h₁.grows.trans h₂.grows, h₂.attached.trans h₁.attached, ?_, ?_, ?_, ?_⟩
  · rintro b (hb | hb)
    · exact h₁.old b hb
    · exact hT b hb
  · intro b hb hnot
    rw [Set.mem_union, not_or] at hnot
    rw [h₂.frame b (by omega), h₁.frame b hb hnot.1]
    rw [Set.mem_insert_iff, not_or]
    refine ⟨?_, hnot.2⟩
    rintro rfl
    rcases hc with hc | hc
    · exact hnot.1 hc
    · omega
  · intro d hd
    obtain ⟨hod, hd'⟩ := h₂.current d hd
    refine ⟨hod, ?_⟩
    rcases hd' with (rfl | hd') | hd'
    · exact hc.imp .inl id
    · exact .inl (.inr hd')
    · exact .inr (by omega)
  · have hnext : ∀ d, o = some d → d = c ∨ d ∈ T ∨ k₁.count ≤ d := by
      intro d hd
      rcases (h₂.current d hd).2 with (hdc | hdT) | hd'
      · exact .inl hdc
      · exact .inr (.inl hdT)
      · exact .inr (.inr hd')
    have hmove : ∀ b < k₁.count, b ≠ c → b ∉ T → k₂.blocks b = k₁.blocks b := by
      intro b hb hbc hbT
      refine h₂.frame b hb ?_
      rw [Set.mem_insert_iff, not_or]
      exact ⟨hbc, hbT⟩
    rw [h₁.ended, h₂.ended]
    constructor
    · rintro ⟨hP, hQ⟩ b hb hS hne
      by_cases hbQ : b ∈ insert c T ∨ k₁.count ≤ b
      · exact hQ b hb hbQ hne
      · rw [not_or, Set.mem_insert_iff, not_or, not_le] at hbQ
        rw [hmove b hbQ.2 hbQ.1.1 hbQ.1.2]
        refine hP b hbQ.2 ?_ ?_
        · rcases hS with (hS | hS) | hS
          · exact .inl hS
          · exact absurd hS hbQ.1.2
          · exact .inr hS
        · rintro ⟨rfl⟩
          exact hbQ.1.1 rfl
    · intro hall
      refine ⟨fun b hb hS hne => ?_, fun b hb hS hne => ?_⟩
      · have hbc : b ≠ c := fun h => hne (h ▸ rfl)
        have hbT : b ∉ T := by
          intro hbT
          rcases hS with hS | hS
          · exact hST b hS hbT
          · exact absurd (hT b hbT) (not_lt.2 hS)
        rw [← hmove b hb hbc hbT]
        refine hall b (lt_of_lt_of_le hb h₂.grows) (hS.imp .inl id) ?_
        intro hob
        rcases hnext b hob with h | h | h
        · exact hbc h
        · exact hbT h
        · omega
      · refine hall b hb ?_ hne
        rcases hS with (rfl | hS) | hS
        · exact hc.imp .inl id
        · exact .inl (.inr hS)
        · exact .inr (by omega)

theorem trans (h₁ : Extends P S (some c) k k₁) (h₂ : Extends Q {c} o k₁ k₂) :
    Extends (P ∧ Q) S o k k₂ := by
  have h := h₁.seq (T := ∅) (by simpa using h₂) (by simp) (by simp)
  simpa using h

theorem par (h₁ : Extends P S none k k₁) (h₂ : Extends Q T o k₁ k₂)
    (hT : ∀ b ∈ T, b < k.count) (hdisj : Disjoint S T) : Extends (P ∧ Q) (S ∪ T) o k k₂ := by
  have hST : ∀ b ∈ S, b ∉ T := fun b hb hb' => Set.disjoint_left.1 hdisj hb hb'
  have hgrow := h₁.grows
  refine ⟨h₁.grows.trans h₂.grows, h₂.attached.trans h₁.attached, ?_, ?_, ?_, ?_⟩
  · rintro b (hb | hb)
    · exact h₁.old b hb
    · exact hT b hb
  · intro b hb hnot
    rw [Set.mem_union, not_or] at hnot
    rw [h₂.frame b (by omega) hnot.2, h₁.frame b hb hnot.1]
  · intro c hc
    refine ⟨(h₂.current c hc).1, ?_⟩
    rcases (h₂.current c hc).2 with hcT | hc'
    · exact .inl (.inr hcT)
    · exact .inr (by omega)
  · rw [h₁.ended, h₂.ended]
    constructor
    · rintro ⟨hP, hQ⟩ b hb hS hne
      by_cases hbQ : b ∈ T ∨ k₁.count ≤ b
      · exact hQ b hb hbQ hne
      · rw [not_or, not_le] at hbQ
        rw [h₂.frame b hbQ.2 hbQ.1]
        refine hP b hbQ.2 ?_ (by simp)
        rcases hS with (hS | hS) | hS
        · exact .inl hS
        · exact absurd hS hbQ.1
        · exact .inr hS
    · intro hall
      refine ⟨fun b hb hS _ => ?_, fun b hb hS hne => ?_⟩
      · have hbT : b ∉ T := by
          intro hbT
          rcases hS with hS | hS
          · exact hST b hS hbT
          · exact absurd (hT b hbT) (not_lt.2 hS)
        rw [← h₂.frame b hb hbT]
        refine hall b (lt_of_lt_of_le hb h₂.grows) (hS.imp .inl id) fun hob => ?_
        rcases (h₂.current b hob).2 with hbT' | hb'
        · exact hbT hbT'
        · omega
      · refine hall b hb ?_ hne
        rcases hS with hS | hS
        · exact .inl (.inr hS)
        · exact .inr (by omega)

theorem keep (h : Extends P S none k k') (hopen : k.Open c) (hc : c ∉ S) :
    Extends P (insert c S) (some c) k k' := by
  have hblock : k'.blocks c = k.blocks c := h.frame c hopen.1 hc
  refine ⟨h.grows, h.attached, ?_, ?_, ?_, ?_⟩
  · rintro b (rfl | hb)
    · exact hopen.1
    · exact h.old b hb
  · intro b hb hnot
    rw [Set.mem_insert_iff, not_or] at hnot
    exact h.frame b hb hnot.2
  · rintro d ⟨rfl⟩
    refine ⟨⟨lt_of_lt_of_le hopen.1 h.grows, ?_⟩, .inl (Set.mem_insert ..)⟩
    rw [hblock]
    exact hopen.2
  · rw [h.ended]
    refine ⟨fun hall b hb hS hne => ?_, fun hall b hb hS _ => ?_⟩
    · refine hall b hb ?_ (by simp)
      rcases hS with (rfl | hS) | hS
      · exact absurd rfl hne
      · exact .inl hS
      · exact .inr hS
    · refine hall b hb (hS.imp .inr id) ?_
      rintro ⟨rfl⟩
      rcases hS with hS | hS
      · exact hc hS
      · exact absurd hopen.1 (not_lt.2 hS)

theorem absorb (hadd : Adds T k k₁) (h : Extends P (S ∪ T) o k₁ k₂) (hS : ∀ b ∈ S, b < k.count) :
    Extends P S o k k₂ := by
  have hgrow := hadd.grows
  have hiff : ∀ b, b < k₁.count → b ∉ S → b ∉ T → b ∉ S ∪ T := by
    intro b _ h₁ h₂ h
    rcases h with h | h
    · exact h₁ h
    · exact h₂ h
  refine ⟨hadd.grows.trans h.grows, h.attached.trans hadd.attached, hS, ?_, ?_, ?_⟩
  · intro b hb hnot
    have hbT : b ∉ T := fun hbT => absurd (hadd.pending b hbT).1 (not_le.2 hb)
    rw [h.frame b (by omega) (hiff b (by omega) hnot hbT), hadd.frame b hb]
  · intro c hc
    refine ⟨(h.current c hc).1, ?_⟩
    rcases (h.current c hc).2 with (hcS | hcT) | hc'
    · exact .inl hcS
    · exact .inr (hadd.pending c hcT).1
    · exact .inr (by omega)
  · rw [h.ended]
    constructor
    · intro hall b hb hbS hne
      by_cases hb' : b ∈ S ∪ T ∨ k₁.count ≤ b
      · exact hall b hb hb' hne
      · rw [not_or, not_le, Set.mem_union, not_or] at hb'
        rw [h.frame b hb'.2 (hiff b hb'.2 hb'.1.1 hb'.1.2)]
        refine hadd.ended b hb'.2 ?_ hb'.1.2
        exact hbS.resolve_left hb'.1.1
    · intro hall b hb hbS hne
      refine hall b hb ?_ hne
      rcases hbS with (hbS | hbT) | hb'
      · exact .inl hbS
      · exact .inr (hadd.pending b hbT).1
      · exact .inr (by omega)

theorem absorb_create (h : Extends P (insert k.count S) o k.create k₂)
    (hS : ∀ b ∈ S, b < k.count) : Extends P S o k k₂ :=
  absorb .create (by rwa [Set.union_singleton]) hS

theorem abandon (h : Extends P S (some c) k k') : Extends False S none k k' := by
  refine { h with current := by simp, ended := ?_ }
  obtain ⟨hopen, hc⟩ := h.current c rfl
  refine ⟨False.elim, fun hall => ?_⟩
  exact hopen.not_ended (hall c hopen.1 hc (by simp))

theorem complete_iff (h : Extends P ∅ none empty k') : k'.Complete ↔ P := by
  rw [h.ended]
  constructor
  · exact fun hall b hb _ _ => hall.1 b hb
  · exact fun hall => ⟨fun b hb => hall b hb (.inr (Nat.zero_le b)) (by simp), h.attached⟩

end Extends

end BlockCode

end Etoile
