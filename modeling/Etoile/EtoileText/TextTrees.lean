import Mathlib.Algebra.Order.BigOperators.Group.List
import Mathlib.Algebra.Order.Group.Nat
import Mathlib.Data.Finset.Card
import Etoile.EtoileText.ETTextTree

/-!
# What a text tree stands for

The text of a tree is that of its leaves, one after the other, and each character has the custom
attributes of all that contain it, of which the inner ones win.
-/

namespace Etoile.EtoileText.TextHeap

open List

variable {κ ν : Type} {h h' : TextHeap κ ν} {x y : ℕ}

def overlay (outer inner : κ → Option ν) : κ → Option ν := fun key => (inner key).or (outer key)

def attributes (h : TextHeap κ ν) (x : ℕ) : κ → Option ν := (h.node x).customAttributes

def styledText : ℕ → TextHeap κ ν → (κ → Option ν) → ℕ → List (UInt16 × (κ → Option ν))
  | 0, _, _, _ => []
  | n + 1, h, outer, x =>
    let attributes := overlay outer (h.attributes x)
    match h.content x with
    | .fragment text => text.map fun ch => (ch, attributes)
    | .tree _ children => children.flatMap (styledText n h attributes)

def styled (h : TextHeap κ ν) (x : ℕ) : List (UInt16 × (κ → Option ν)) :=
  h.styledText h.next (fun _ => none) x

/-- The text of one begins at an offset in that of another, which contains it. -/
inductive OffsetIn (h : TextHeap κ ν) : ℕ → ℕ → ℕ → Prop
  | refl (x : ℕ) : OffsetIn h x x 0
  | child {x y c k : ℕ} {before after : List ℕ} :
    h.children x = before ++ c :: after → OffsetIn h c y k →
      OffsetIn h x y ((before.map h.length).sum + k)

def Within (h : TextHeap κ ν) : ℕ → ℕ → Prop := Relation.ReflTransGen fun x c => c ∈ h.children x

def AtEnd (h : TextHeap κ ν) (x : ℕ) : Prop :=
  ∀ z, h.Within z x → ∀ q, z ∈ h.children q → (h.children q).getLast? = some z

def Ranked (h : TextHeap κ ν) (rank : ℕ → ℕ) : Prop :=
  ∀ x c, c ∈ h.children x → rank c < rank x ∧ rank x < h.next

/-- All text of a tree is in its last child; the length of one tree may be wrong. -/
structure InvBut (h : TextHeap κ ν) (stale : Option ℕ) : Prop where
  lengths : ∀ x l cs, h.content x = .tree l cs → stale ≠ some x → l = (cs.map h.length).sum
  parents : ∀ x, ∀ c ∈ h.children x, h.parent c = some x
  nodup : ∀ x, (h.children x).Nodup
  last : ∀ x, ∀ c ∈ (h.children x).dropLast, h.length c = 0
  bound : ∀ x, ∀ c ∈ h.children x, x < h.next ∧ c < h.next
  parentTree : ∀ x p, h.parent x = some p → p < h.next ∧ ∃ l cs, h.content p = .tree l cs
  ranked : ∃ rank, h.Ranked rank ∧ ∀ x < h.next, rank x < h.next

def Inv (h : TextHeap κ ν) : Prop := h.InvBut none

variable {cs : List ℕ}

theorem children_of_tree {l : ℕ} (hx : h.content x = .tree l cs) : h.children x = cs := by
  unfold children
  rw [hx]

variable {text : List UInt16}

theorem children_of_fragment (hx : h.content x = .fragment text) : h.children x = [] := by
  unfold children
  rw [hx]

theorem length_of_tree {l : ℕ} (hx : h.content x = .tree l cs) : h.length x = l := by
  unfold length
  rw [hx]

theorem length_of_fragment (hx : h.content x = .fragment text) : h.length x = text.length := by
  unfold length
  rw [hx]

variable {rank : ℕ → ℕ}

theorem Ranked.within (hr : h.Ranked rank) (hw : h.Within x y) : rank y ≤ rank x := by
  induction hw with
  | refl => exact le_rfl
  | tail _ hc ih => exact (hr _ _ hc).1.le.trans ih

theorem Ranked.not_within (hr : h.Ranked rank) (hc : y ∈ h.children x) :
    ¬ h.Within y x := fun hw => by
  have := hr.within hw
  have := (hr x y hc).1
  omega

theorem OffsetIn.within {k : ℕ} (ho : h.OffsetIn x y k) : h.Within x y := by
  induction ho with
  | refl => exact .refl
  | child hc _ ih => exact .head (by rw [hc]; simp) ih

theorem OffsetIn.trans {z j k : ℕ} (ho : h.OffsetIn x y j) (ho' : h.OffsetIn y z k) :
    h.OffsetIn x z (j + k) := by
  induction ho with
  | refl => rwa [Nat.zero_add]
  | child hc _ ih =>
    rw [Nat.add_assoc]
    exact .child hc (ih ho')

variable {stale : Option ℕ}

theorem InvBut.within_total (hi : h.InvBut stale) {z : ℕ} (hx : h.Within x z)
    (hy : h.Within y z) : h.Within x y ∨ h.Within y x := by
  induction hx with
  | refl => exact .inr hy
  | @tail b c hxb hbc ih =>
    rcases Relation.ReflTransGen.cases_tail hy with rfl | ⟨b', hyb', hb'c⟩
    · exact .inl (.tail hxb hbc)
    · have heq := (hi.parents _ _ hbc).symm.trans (hi.parents _ _ hb'c)
      obtain rfl := Option.some.inj heq
      exact ih hyb'

theorem InvBut.within_unique (hi : h.InvBut stale) {c c' z : ℕ} (hc : c ∈ h.children x)
    (hc' : c' ∈ h.children x) (hz : h.Within c z) (hz' : h.Within c' z) : c = c' := by
  obtain ⟨rank, hr, -⟩ := hi.ranked
  have hsame : ∀ {a b : ℕ}, a ∈ h.children x → b ∈ h.children x → h.Within a b → a = b := by
    intro a b ha hb hab
    rcases Relation.ReflTransGen.cases_tail hab with rfl | ⟨p, hap, hpb⟩
    · rfl
    · have heq := (hi.parents _ _ hpb).symm.trans (hi.parents _ _ hb)
      obtain rfl := Option.some.inj heq
      exact absurd hap (hr.not_within ha)
  rcases hi.within_total hz hz' with hcc | hcc
  · exact hsame hc hc' hcc
  · exact (hsame hc' hc hcc).symm

theorem getLast_not_mem_dropLast {l : List ℕ} {a : ℕ} (hn : l.Nodup) (ha : l.getLast? = some a) :
    a ∉ l.dropLast := by
  obtain ⟨ys, rfl⟩ := getLast?_eq_some_iff.1 ha
  rw [dropLast_concat]
  intro hmem
  exact (nodup_append.1 hn).2.2 a hmem a (by simp) rfl

theorem Inv.last_child (hi : h.Inv) {l : ℕ} (hx : h.content x = .tree l cs)
    (hl : 0 < l) : ∃ before c, cs = before ++ [c] ∧ (∀ b ∈ before, h.length b = 0)
      ∧ h.length c = l := by
  have hsum := hi.lengths x l cs hx nofun
  have hlast := hi.last x
  rw [children_of_tree hx] at hlast
  rcases eq_nil_or_concat cs with rfl | ⟨before, c, rfl⟩
  · simp at hsum
    omega
  · rw [concat_eq_append, dropLast_concat] at hlast
    have hzero : (before.map h.length).sum = 0 := sum_eq_zero fun n hn => by
      obtain ⟨b, hb, rfl⟩ := mem_map.1 hn
      exact hlast b hb
    refine ⟨before, c, by simp, hlast, ?_⟩
    simp only [concat_eq_append, map_append, sum_append, hzero, map_cons,
      map_nil, sum_cons, sum_nil] at hsum
    omega

theorem InvBut.within_lt (hi : h.InvBut stale) (hw : h.Within x y) (hx : x < h.next) :
    y < h.next := by
  rcases Relation.ReflTransGen.cases_tail hw with rfl | ⟨p, -, hpy⟩
  · exact hx
  · exact (hi.bound p y hpy).2

theorem Inv.length_le (hi : h.Inv) (hw : h.Within x y) : h.length y ≤ h.length x := by
  induction hw with
  | refl => exact le_rfl
  | @tail b c _ hc ih =>
    refine le_trans ?_ ih
    unfold children at hc
    split at hc
    · exact absurd hc (not_mem_nil)
    · rename_i l cs hb
      rw [length_of_tree hb, hi.lengths b l cs hb nofun]
      exact single_le_sum (fun _ _ => Nat.zero_le _) _ (mem_map_of_mem hc)

theorem Inv.atEnd (hi : h.Inv) (hx : 0 < h.length x) : h.AtEnd x := by
  intro z hz q hq
  have hpos : 0 < h.length z := hx.trans_le (hi.length_le hz)
  have hne : h.children q ≠ [] := fun hnil => by
    rw [hnil] at hq
    exact absurd hq (not_mem_nil)
  obtain ⟨before, c, hbc⟩ := eq_nil_or_concat (h.children q) |>.resolve_left hne
  rw [hbc] at hq ⊢
  have hlast := hi.last q
  rw [hbc, concat_eq_append, dropLast_concat] at hlast
  rw [concat_eq_append] at hq ⊢
  rcases mem_append.1 hq with hz' | hz'
  · exact absurd (hlast z hz') hpos.ne'
  · obtain rfl := mem_singleton.1 hz'
    simp

theorem styledText_tree {l n : ℕ} (hx : h.content x = .tree l cs)
    (outer : κ → Option ν) : h.styledText (n + 1) outer x
      = cs.flatMap (h.styledText n (overlay outer (h.attributes x))) := by
  unfold styledText
  rw [hx]

theorem styledText_fragment {n : ℕ} (hx : h.content x = .fragment text)
    (outer : κ → Option ν) : h.styledText (n + 1) outer x
      = text.map fun ch => (ch, overlay outer (h.attributes x)) := by
  unfold styledText
  rw [hx]

theorem Ranked.styledText_eq (hr : h.Ranked rank) : ∀ {n m x : ℕ}
    (outer : κ → Option ν), rank x < n → rank x < m →
      h.styledText n outer x = h.styledText m outer x
  | 0, _, _, _, hn, _ => absurd hn (Nat.not_lt_zero _)
  | _, 0, _, _, _, hm => absurd hm (Nat.not_lt_zero _)
  | n + 1, m + 1, x, outer, hn, hm => by
    cases hx : h.content x with
    | fragment text => rw [styledText_fragment hx, styledText_fragment hx]
    | tree l cs =>
      rw [styledText_tree hx, styledText_tree hx]
      refine flatMap_congr fun c hc => ?_
      have hlt := (hr x c (by rwa [children_of_tree hx])).1
      exact hr.styledText_eq _ (by omega) (by omega)

theorem Inv.styledText_length (hi : h.Inv) (hr : h.Ranked rank) : ∀ {n x : ℕ}
    (outer : κ → Option ν), rank x < n → (h.styledText n outer x).length = h.length x
  | 0, _, _, hn => absurd hn (Nat.not_lt_zero _)
  | n + 1, x, outer, hn => by
    cases hx : h.content x with
    | fragment text => rw [styledText_fragment hx, length_of_fragment hx, length_map]
    | tree l cs =>
      rw [styledText_tree hx, length_of_tree hx, length_flatMap,
        hi.lengths x l cs hx nofun]
      congr 1
      refine map_congr_left fun c hc => ?_
      have hlt := (hr x c (by rwa [children_of_tree hx])).1
      exact hi.styledText_length hr _ (by omega)

theorem flatMap_last {α : Type} {f : ℕ → List α} {before : List ℕ} {c : ℕ}
    (hb : ∀ b ∈ before, f b = []) : (before ++ [c]).flatMap f = f c := by
  rw [flatMap_append, flatMap_eq_nil_iff.2 hb]
  simp

theorem childNodeFrom_last {anIndex c : ℕ} : ∀ (before : List ℕ) (start childIndex : ℕ)
    (childNode : ETTextTreeChild), (∀ b ∈ before, h.length b = 0) →
      anIndex < start + h.length c →
      h.childNodeFrom anIndex (before ++ [c]) start childIndex childNode
        = ⟨some (childIndex + before.length), start⟩
  | [], start, childIndex, _, _, hlt => by
    simp [childNodeFrom, hlt]
  | b :: before, start, childIndex, childNode, hzero, hlt => by
    have hb : h.length b = 0 := hzero b mem_cons_self
    rw [cons_append]
    unfold childNodeFrom
    dsimp only
    rw [hb, childNodeFrom_last before _ _ _ (fun b' hb' => hzero b' (mem_cons_of_mem _ hb'))
      (by omega)]
    simp only [length_cons, Nat.add_zero, ETTextTreeChild.mk.injEq, Option.some.injEq,
      and_true]
    omega

theorem childNodeForIndex_last {anIndex c : ℕ} {before : List ℕ}
    (hzero : ∀ b ∈ before, h.length b = 0) (hlt : anIndex < h.length c) :
    h.childNodeForIndex (before ++ [c]) anIndex = ⟨some before.length, 0⟩ := by
  unfold childNodeForIndex
  rw [childNodeFrom_last before 0 0 _ hzero (by omega), Nat.zero_add]

theorem objectAtIndex_last (before : List ℕ) (c : ℕ) :
    objectAtIndex (before ++ [c]) (some before.length) = some c := by
  simp [objectAtIndex]

theorem Inv.characterAtIndex (hi : h.Inv) (hr : h.Ranked rank) : ∀ {n x : ℕ}
    (outer : κ → Option ν), rank x < n → ∀ i < h.length x,
      h.characterAtIndex n x i = (h.styledText n outer x)[i]?.map Prod.fst
  | 0, _, _, hn => absurd hn (Nat.not_lt_zero _)
  | n + 1, x, outer, hn => fun i hlt => by
    unfold TextHeap.characterAtIndex
    cases hx : h.content x with
    | fragment text =>
      rw [styledText_fragment hx, getElem?_map, Option.map_map]
      dsimp only
      cases text[i]? <;> rfl
    | tree l cs =>
      rw [length_of_tree hx] at hlt
      obtain ⟨before, c, rfl, hzero, hc⟩ := hi.last_child hx (by omega)
      have hrank : ∀ b ∈ before ++ [c], rank b < n := fun b hb => by
        have := (hr x b (by rwa [children_of_tree hx])).1
        omega
      have hblank : ∀ b ∈ before,
          h.styledText n (overlay outer (h.attributes x)) b = [] := fun b hb => by
        rw [← length_eq_zero_iff,
          hi.styledText_length hr _ (hrank b (mem_append_left _ hb)), hzero b hb]
      rw [styledText_tree hx, flatMap_last hblank]
      dsimp only
      rw [childNodeForIndex_last hzero (by omega), objectAtIndex_last]
      exact hi.characterAtIndex hr _ (hrank c (by simp)) i (by omega)

structure SameAt (h h' : TextHeap κ ν) (x : ℕ) : Prop where
  attributes : h'.attributes x = h.attributes x
  fragment : ∀ text, h.content x = .fragment text → h'.content x = .fragment text
  tree : ∀ l cs, h.content x = .tree l cs → ∃ l', h'.content x = .tree l' cs

theorem SameAt.refl (h : TextHeap κ ν) (x : ℕ) : h.SameAt h x :=
  ⟨rfl, fun _ => id, fun l _ hx => ⟨l, hx⟩⟩

theorem SameAt.trans {h'' : TextHeap κ ν} (hs : h.SameAt h' x) (hs' : h'.SameAt h'' x) :
    h.SameAt h'' x where
  attributes := hs'.attributes.trans hs.attributes
  fragment text hx := hs'.fragment text (hs.fragment text hx)
  tree l cs hx := by
    obtain ⟨l', hx'⟩ := hs.tree l cs hx
    exact hs'.tree l' cs hx'

theorem SameAt.children (hs : h.SameAt h' x) : h'.children x = h.children x := by
  cases hx : h.content x with
  | fragment text => rw [children_of_fragment hx, children_of_fragment (hs.fragment text hx)]
  | tree l cs =>
    obtain ⟨l', hx'⟩ := hs.tree l cs hx
    rw [children_of_tree hx, children_of_tree hx']

theorem styledText_congr : ∀ {n x : ℕ} (outer : κ → Option ν),
    (∀ z, h.Within x z → h.SameAt h' z) → h'.styledText n outer x = h.styledText n outer x
  | 0, _, _, _ => rfl
  | n + 1, x, outer, hs => by
    have hsx := hs x .refl
    cases hx : h.content x with
    | fragment text =>
      rw [styledText_fragment hx, styledText_fragment (hsx.fragment text hx), hsx.attributes]
    | tree l cs =>
      obtain ⟨l', hx'⟩ := hsx.tree l cs hx
      rw [styledText_tree hx, styledText_tree hx', hsx.attributes]
      refine flatMap_congr fun c hc => ?_
      exact styledText_congr _ fun z hz => hs z (.head (by rwa [children_of_tree hx]) hz)

theorem OffsetIn.styledText (hi : h.Inv) (hr : h.Ranked rank) {k : ℕ}
    (ho : h.OffsetIn x y k) (hs : ∀ z < h.next, z ≠ y → h.SameAt h' z) :
    ∀ {n : ℕ} (outer : κ → Option ν), rank x < n →
      ∃ m outer' before after, rank y < m ∧ before.length = k
        ∧ h.styledText n outer x = before ++ h.styledText m outer' y ++ after
        ∧ h'.styledText n outer x = before ++ h'.styledText m outer' y ++ after := by
  induction ho with
  | refl x => exact fun {n} outer hn => ⟨n, outer, [], [], hn, rfl, by simp, by simp⟩
  | @child x y c k before after hc ho ih =>
    intro n outer hn
    obtain ⟨n, rfl⟩ : ∃ m, n = m + 1 := ⟨n - 1, by omega⟩
    have hmem : c ∈ h.children x := by rw [hc]; simp
    have hne : x ≠ y := by
      rintro rfl
      exact hr.not_within hmem ho.within
    obtain ⟨l, hx⟩ : ∃ l, h.content x = .tree l (before ++ c :: after) := by
      unfold TextHeap.children at hc
      split at hc
      · simp at hc
      · exact ⟨_, by rw [← hc]; assumption⟩
    have hlt := (hi.bound x c hmem).1
    obtain ⟨l', hx'⟩ := (hs x hlt hne).tree _ _ hx
    have hrank := (hr x c hmem).1
    obtain ⟨m, outer', bs, as, hm, hlen, hold, hnew⟩ := ih hs
      (overlay outer (h.attributes x)) (show rank c < n by omega)
    -- the other children do not contain it
    have hother : ∀ b ∈ h.children x, b ≠ c → ∀ z, h.Within b z → h.SameAt h' z := by
      intro b hb hbc z hz
      refine hs z (hi.within_lt hz (hi.bound x b hb).2) ?_
      rintro rfl
      exact hbc (hi.within_unique hb hmem hz ho.within)
    have hnodup := hi.nodup x
    rw [hc, nodup_append, nodup_cons] at hnodup
    have hbefore : before.flatMap (h'.styledText n (overlay outer (h.attributes x)))
        = before.flatMap (h.styledText n (overlay outer (h.attributes x))) :=
      flatMap_congr fun b hb => styledText_congr _ (hother b (by rw [hc]; simp [hb])
        (hnodup.2.2 b hb c (by simp)))
    have hafter : after.flatMap (h'.styledText n (overlay outer (h.attributes x)))
        = after.flatMap (h.styledText n (overlay outer (h.attributes x))) :=
      flatMap_congr fun b hb => styledText_congr _ (hother b (by rw [hc]; simp [hb]) (by
        rintro rfl
        exact hnodup.2.1.1 hb))
    refine ⟨m, outer', before.flatMap (h.styledText n (overlay outer (h.attributes x))) ++ bs,
      as ++ after.flatMap (h.styledText n (overlay outer (h.attributes x))), hm, ?_, ?_, ?_⟩
    · rw [length_append, hlen, length_flatMap]
      congr 2
      refine map_congr_left fun b hb => ?_
      have hb' := (hr x b (by rw [hc]; simp [hb])).1
      exact hi.styledText_length hr _ (by omega)
    · rw [styledText_tree hx, flatMap_append, flatMap_cons, hold]
      simp only [append_assoc]
    · rw [styledText_tree hx', (hs x hlt hne).attributes, flatMap_append, flatMap_cons,
        hbefore, hafter, hnew]
      simp only [append_assoc]

end Etoile.EtoileText.TextHeap
