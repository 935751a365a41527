import Etoile.Lib.Bounded
import Etoile.EtoileText.TextTreeEdits

/-!
# Text trees as attributed strings

In runs that keep all text in last children, every message edits the attributed strings of the
trees that contain its receiver, at the offset of the receiver.
-/

namespace Etoile.EtoileText

open Function List Nat Option

variable {κ ν : Type}

def Carries (attributes all : κ → Option ν) : Prop :=
  ∀ key value, attributes key = some value → all key = some value

def Extends (new base : List (UInt16 × (κ → Option ν))) : Prop :=
  Forall₂ (fun a b => a.1 = b.1 ∧ Carries b.2 a.2) new base

namespace TextHeap

variable {h h' : TextHeap κ ν} {x y : ℕ} {New New' : List (UInt16 × (κ → Option ν)) → Prop}

/-- A range of `x` is replaced, in all that contain it; nothing outside of that changes. -/
def Replaced (h h' : TextHeap κ ν) (x location len : ℕ)
    (New : List (UInt16 × (κ → Option ν)) → Prop) : Prop :=
  ∀ r < h.next,
    (∀ k, h.OffsetIn r x k → ∃ new, New new ∧ h'.styled r
      = (h.styled r).take (k + location) ++ new ++ (h.styled r).drop (k + location + len))
    ∧ (¬ h.Within r x → ¬ h.Within x r → h'.styled r = h.styled r)

structure Consistent (h : TextHeap κ ν) : Prop where
  lengths : ∀ x l cs, h.content x = .tree l cs → l = (cs.map h.length).sum
  parents : ∀ x, ∀ c ∈ h.children x, h.parent c = some x
  styled_length : ∀ x < h.next, (h.styled x).length = h.length x
  characters : ∀ x < h.next, ∀ i < h.length x,
    h.characterAtIndex h.next x i = (h.styled x)[i]?.map Prod.fst

theorem Inv.consistent (hi : h.Inv) : h.Consistent := by
  obtain ⟨rank, hr, hb⟩ := hi.ranked
  exact ⟨fun x l cs hx => hi.lengths x l cs hx nofun, hi.parents,
    fun x hx => hi.styledText_length hr _ (hb x hx),
    fun x hx => hi.characterAtIndex hr _ (hb x hx)⟩

variable {rank : ℕ → ℕ} {location len : ℕ}

theorem Replaced.of_edit (hi : h.Inv) (hr : h.Ranked rank) (hb : ∀ r < h.next, rank r < h.next)
    (hs : ∀ z < h.next, z ≠ x → h.SameAt h' z)
    (hfuel : ∀ r < h.next, h'.styled r = h'.styledText h.next (fun _ => none) r)
    (hloc : location + len ≤ h.length x)
    (hx : ∀ m outer, rank x < m → ∃ new, New new ∧ h'.styledText m outer x
      = (h.styledText m outer x).take location ++ new
        ++ (h.styledText m outer x).drop (location + len)) :
    h.Replaced h' x location len New := by
  intro r hlt
  refine ⟨fun k ho => ?_, fun hout _ => ?_⟩
  · obtain ⟨m, outer, before, after, hm, hk, hold, hnew⟩ :=
      ho.styledText hi hr hs (fun _ => none) (hb r hlt)
    obtain ⟨new, hN, hedit⟩ := hx m outer hm
    have hlen := hi.styledText_length hr outer hm
    refine ⟨new, hN, ?_⟩
    rw [hfuel r hlt, hnew, hedit]
    unfold styled
    rw [hold]
    subst hk
    simp only [append_assoc, add_assoc]
    rw [take_length_add_append, drop_length_add_append,
      take_append_of_le_length (by omega), drop_append_of_le_length (by omega)]
    simp only [append_assoc]
  · rw [hfuel r hlt]
    refine styledText_congr _ fun z hz => hs z (hi.within_lt hz hlt) ?_
    rintro rfl
    exact hout hz

theorem Replaced.mono (hrep : h.Replaced h' x location len New)
    (hN : ∀ new, New new → New' new) : h.Replaced h' x location len New' := fun r hr =>
  ⟨fun k ho => by
    obtain ⟨new, hnew, heq⟩ := (hrep r hr).1 k ho
    exact ⟨new, hN new hnew, heq⟩, (hrep r hr).2⟩

/-- What is done at the beginning of something is done at the beginning of what it begins. -/
theorem Replaced.of_leaf (hi : h.Inv) (hxy : h.OffsetIn x y 0)
    (hrep : h.Replaced h' y location len New) : h.Replaced h' x location len New := by
  intro r hr
  refine ⟨fun k ho => (hrep r hr).1 k (ho.trans hxy), fun hout hin => (hrep r hr).2 ?_ ?_⟩
  · intro hry
    rcases hi.within_total hry hxy.within with hw | hw
    · exact hout hw
    · exact hin hw
  · exact fun hyr => hin (hxy.within.trans hyr)

theorem ChangedAt.styled (hc : h.ChangedAt h' x) (r : ℕ) :
    h'.styled r = h'.styledText h.next (fun _ => none) r := by
  unfold TextHeap.styled
  rw [hc.next]

theorem Inv.editFragment (hi : h.Inv) {u s : List UInt16} (hx : h.content x = .fragment u) (hloc : location + len ≤ u.length) (hend : h.AtEnd x ∨ s = []) :
    Yields (tellParent x (h.setContent x
        (.fragment (u.take location ++ s ++ u.drop (location + len)))))
      fun h' => h'.Inv ∧ h.Replaced h' x location len (·.map Prod.fst = s) := by
  obtain ⟨rank, hr, hb⟩ := hi.ranked
  have hend' : h.AtEnd x
      ∨ (u.take location ++ s ++ u.drop (location + len)).length = u.length := by
    rcases hend with hend | rfl
    · exact .inl hend
    · rcases u with _ | ⟨ch, u⟩
      · simp at hloc
        simp
      · exact .inl (hi.atEnd (by rw [length_of_fragment hx]; simp))
  obtain ⟨h', heq, hinv, hs⟩ := hi.setText hx hend'
  have hc := ChangedAt.setContent x _ hs
  refine ⟨h', heq, hinv, .of_edit hi hr hb (fun z _ => hc.same z) (fun r _ => hc.styled r)
    (by rwa [length_of_fragment hx]) fun m outer hm => ?_⟩
  obtain ⟨m, rfl⟩ : ∃ k, m = k + 1 := ⟨m - 1, by omega⟩
  have hx' := (hs.same x).fragment _ (content_setContent ..)
  refine ⟨s.map fun ch => (ch, overlay outer (h.attributes x)), ?_, ?_⟩
  · rw [List.map_map]
    exact map_id s
  · rw [styledText_fragment hx, styledText_fragment hx', hc.attributes]
    simp only [map_append, map_take, map_drop]

theorem Inv.lastLeaf (hi : h.Inv) (hr : h.Ranked rank) : ∀ {n x : ℕ},
    rank x < n → 0 < h.length x → ∃ y u, h.content y = .fragment u ∧ u.length = h.length x
      ∧ h.OffsetIn x y 0
      ∧ (∀ s, h.appendString n x s = tellParent y (h.setContent y (.fragment (u ++ s))))
      ∧ ∀ s, h.replaceCharactersInRange n x 0 (h.length x) s
        = tellParent y (h.setContent y (.fragment s))
  | 0, _, hn, _ => absurd hn (not_lt_zero _)
  | n + 1, x, hn, hpos => by
    cases hx : h.content x with
    | fragment u =>
      rw [length_of_fragment hx]
      refine ⟨x, u, hx, rfl, .refl x, fun s => ?_, fun s => ?_⟩
      · unfold TextHeap.appendString
        rw [hx]
      · unfold TextHeap.replaceCharactersInRange
        rw [hx]
        unfold replaceCharacters
        dsimp only
        rw [if_pos (by omega)]
        simp
    | tree l cs =>
      rw [length_of_tree hx] at hpos ⊢
      obtain ⟨before, c, rfl, hzero, hc⟩ := hi.last_child hx hpos
      have hrank := (hr x c (by rw [children_of_tree hx]; simp)).1
      obtain ⟨y, u, hy, hu, ho, happend, hreplace⟩ :=
        hi.lastLeaf hr (show rank c < n by omega) (by omega)
      have ho' : h.OffsetIn x y ((before.map h.length).sum + 0) :=
        .child (children_of_tree hx) ho
      rw [sum_eq_zero fun k hk => by
        obtain ⟨b, hb, rfl⟩ := mem_map.1 hk
        exact hzero b hb] at ho'
      refine ⟨y, u, hy, hu.trans hc, ho', fun s => ?_, fun s => ?_⟩
      · unfold TextHeap.appendString
        rw [hx]
        dsimp only
        rw [if_neg hpos.ne', getLast?_concat]
        exact happend s
      · unfold TextHeap.replaceCharactersInRange
        rw [hx]
        dsimp only
        rw [if_neg (fun hl => hpos.ne' hl.1), childNodeForIndex_last hzero (by omega),
          objectAtIndex_last, bind_some, if_pos hc.le, ← hc]
        exact hreplace s

theorem Carries.overlay {a outer outer' : κ → Option ν} (ho : Carries outer outer') :
    Carries (overlay outer a) (overlay outer' a) := by
  intro key value hkey
  unfold TextHeap.overlay at hkey ⊢
  cases ha : a key with
  | none =>
    rw [ha, none_or] at hkey
    rw [none_or]
    exact ho key value hkey
  | some v => rwa [ha, some_or] at hkey

theorem styledText_extends (hr : h.Ranked rank) : ∀ {n m x : ℕ}
    {outer outer' : κ → Option ν}, Carries outer outer' → rank x < n → rank x < m →
      Extends (h.styledText n outer' x) (h.styledText m outer x)
  | 0, _, _, _, _, _, hn, _ => absurd hn (not_lt_zero _)
  | _, 0, _, _, _, _, _, hm => absurd hm (not_lt_zero _)
  | n + 1, m + 1, x, outer, outer', ho, hn, hm => by
    have ho' := Carries.overlay (a := h.attributes x) ho
    cases hx : h.content x with
    | fragment text =>
      rw [styledText_fragment hx, styledText_fragment hx]
      unfold Extends
      rw [forall₂_map_left_iff, forall₂_map_right_iff]
      exact forall₂_same.2 fun _ _ => ⟨rfl, ho'⟩
    | tree l cs =>
      rw [styledText_tree hx, styledText_tree hx]
      have hrank : ∀ c ∈ cs, rank c < rank x := fun c hc =>
        (hr x c (by rwa [children_of_tree hx])).1
      clear hx
      induction cs with
      | nil => exact .nil
      | cons c cs ih =>
        rw [flatMap_cons, flatMap_cons]
        have hc := hrank c mem_cons_self
        exact rel_append (styledText_extends hr ho' (by omega) (by omega))
          (ih fun d hd => hrank d (mem_cons_of_mem _ hd))

theorem Inv.flatMap_length (hi : h.Inv) (hr : h.Ranked rank) {m : ℕ}
    (outer : κ → Option ν) {cs : List ℕ} (hcs : ∀ c ∈ cs, rank c < m) :
    (cs.flatMap (h.styledText m outer)).length = (cs.map h.length).sum := by
  rw [length_flatMap]
  congr 1
  exact map_congr_left fun c hc => hi.styledText_length hr outer (hcs c hc)

theorem Inv.replaced_children (hi : h.Inv) {l l' : ℕ} {before mid mid' after : List ℕ}
    (hx : h.content x = .tree l (before ++ mid ++ after)) (hc : h.ChangedAt h' x)
    (hx' : h'.content x = .tree l' (before ++ mid' ++ after)) (hlt : x < h.next)
    (hbound : ∀ c ∈ mid', c < h.next) (hout : ∀ c ∈ mid', ¬ h.Within c x) :
    h.Replaced h' x (before.map h.length).sum (mid.map h.length).sum
      (Extends · (mid'.flatMap h.styled)) := by
  have hold : ∀ c ∈ before ++ mid ++ after, c ∈ h.children x := fun c => by
    rw [children_of_tree hx]
    exact id
  have hsplit : ∀ c ∈ before ++ mid' ++ after, c ∈ before ++ mid ++ after ∨ c ∈ mid' := by
    intro c hc
    simp only [mem_append] at hc ⊢
    tauto
  obtain ⟨rank, hr, hr', hb⟩ := hi.ranked_setChildren hx (before ++ mid' ++ after) hlt
    (fun c hc => (hsplit c hc).elim (fun hc => (hi.bound x c (hold c hc)).2) (hbound c))
    fun c hc => (hsplit c hc).imp_right (hout c)
  have hlen : (before.map h.length).sum + (mid.map h.length).sum ≤ h.length x := by
    rw [length_of_tree hx, hi.lengths x l _ hx nofun, map_append, map_append,
      sum_append_nat, sum_append_nat]
    omega
  refine .of_edit hi hr hb (fun z _ => hc.same z) (fun r _ => hc.styled r) hlen
    fun m outer hm => ?_
  obtain ⟨m, rfl⟩ : ∃ k, m = k + 1 := ⟨m - 1, by omega⟩
  have hrank : ∀ c ∈ before ++ mid ++ after, rank c < m := fun c hmem => by
    have := (hr x c (hold c hmem)).1
    omega
  have hrank' : ∀ c ∈ mid', rank c < m := fun c hmem => by
    have := (hr' x c (by rw [children_setContent]; simp [hmem])).1
    omega
  -- no child contains the tree
  have hsame : ∀ {cs : List ℕ}, (∀ c ∈ cs, c ∈ before ++ mid' ++ after) →
      cs.flatMap (h'.styledText m (overlay outer (h.attributes x)))
        = cs.flatMap (h.styledText m (overlay outer (h.attributes x))) := by
    intro cs hcs
    refine flatMap_congr fun c hmem => styledText_congr _ fun z hz => hc.same z ?_
    rintro rfl
    rcases hsplit c (hcs c hmem) with hc' | hc'
    · exact hr.not_within (hold c hc') hz
    · exact hout c hc' hz
  have hbefore := hi.flatMap_length hr (overlay outer (h.attributes x))
    (fun c hc => hrank c (by simp [hc]) : ∀ c ∈ before, rank c < m)
  have hmid := hi.flatMap_length hr (overlay outer (h.attributes x))
    (fun c hc => hrank c (by simp [hc]) : ∀ c ∈ mid, rank c < m)
  refine ⟨mid'.flatMap (h.styledText m (overlay outer (h.attributes x))), ?_, ?_⟩
  · clear hx' hsplit hr' hsame
    induction mid' with
    | nil => exact .nil
    | cons c cs ih =>
      rw [flatMap_cons, flatMap_cons]
      refine rel_append (styledText_extends hr (fun _ _ hkey => by cases hkey)
        (hrank' c mem_cons_self) (hb c (hbound c mem_cons_self))) ?_
      exact ih (fun d hd => hbound d (mem_cons_of_mem _ hd))
        (fun d hd => hout d (mem_cons_of_mem _ hd))
        fun d hd => hrank' d (mem_cons_of_mem _ hd)
  · rw [styledText_tree hx, styledText_tree hx', hc.attributes, ← hbefore, ← hmid]
    simp only [flatMap_append, append_assoc]
    rw [@hsame before (by simp +contextual), @hsame mid' (by simp +contextual),
      @hsame after (by simp +contextual), take_left, drop_length_add_append,
      drop_left]

theorem Inv.append (hi : h.Inv) {cs : List ℕ} (hx : h.content x = .tree 0 cs)
    (hlt : x < h.next) (hy : y < h.next) (hfree : ∀ q, y ∉ h.children q) (hout : ¬ h.Within y x)
    (hend : h.AtEnd x ∨ h.length y = 0) :
    Yields (h.appendTextFragment x y) fun h' =>
      h'.Inv ∧ h.Replaced h' x (h.length x) 0 (Extends · (h.styled y)) := by
  obtain ⟨h', heq, hinv, hc, l, hx'⟩ := hi.appendTextFragment hx hlt hy hfree hout hend
  have hrep := hi.replaced_children (show h.content x = .tree 0 (cs ++ [] ++ []) by simpa using hx)
    hc (show h'.content x = .tree l (cs ++ [y] ++ []) by simpa using hx') hlt (by simpa using hy)
    (by simpa using hout)
  rw [← hi.lengths x 0 cs hx nofun] at hrep
  rw [length_of_tree hx]
  exact ⟨h', heq, hinv, hrep.mono fun new hnew => by simpa using hnew⟩

theorem idxOf_middle {before after : List ℕ} {old : ℕ} (hnot : old ∉ before) :
    (before ++ old :: after).idxOf old = before.length := by
  rw [idxOf_append_of_notMem hnot, idxOf_cons_self, add_zero]

theorem Inv.replaceChild (hi : h.Inv) (aNode : Option ℕ) {l old : ℕ} {before after : List ℕ}
    (hx : h.content x = .tree l (before ++ old :: after)) (hlt : x < h.next)
    (hnode : ∀ y, aNode = some y → y < h.next ∧ h.parent y = some x ∧ y ∉ before ++ after
      ∧ ¬ h.Within y x ∧ (h.length y = 0 ∨ after = [] ∧ h.AtEnd x)) :
    Yields (h.replaceChild x old aNode) fun h' => h'.Inv
      ∧ h.Replaced h' x (before.map h.length).sum (h.length old)
        (Extends · (aNode.toList.flatMap h.styled)) := by
  have hcs : h.children x = before ++ old :: after := children_of_tree hx
  have hnodup := hi.nodup x
  rw [hcs] at hnodup
  obtain ⟨hnb, hna, hdisj⟩ := nodup_append.1 hnodup
  have hnotb : old ∉ before := fun hmem => hdisj old hmem old (by simp) rfl
  -- the children afterwards
  have hcs' : replaceObject ((before ++ old :: after).idxOf old) (before ++ old :: after) aNode
      = before ++ aNode.toList ++ after := by
    rw [idxOf_middle hnotb]
    cases aNode <;> simp [replaceObject, eraseIdx_append_of_length_le]
  have hmem : ∀ c ∈ before ++ aNode.toList ++ after,
      c ∈ before ++ after ∨ aNode = some c := by
    intro c hc
    simp only [mem_append, mem_toList] at hc ⊢
    tauto
  have hchild : ∀ c ∈ before ++ after, c ∈ h.children x := by
    intro c hc
    rw [hcs]
    simp only [mem_append, mem_cons] at hc ⊢
    tauto
  have hlast := hi.last x
  rw [hcs, dropLast_append_of_ne_nil (by simp)] at hlast
  have hinv : (h.setContent x (.tree l (before ++ aNode.toList ++ after))).InvBut (some x) := by
    refine hi.setChildren hx hlt (fun c hc => ?_) ?_ (fun c hc => ?_) (fun c hc => ?_)
      fun c hc => ?_
    · rcases hmem c hc with hc | hc
      · exact hi.parents x c (hchild c hc)
      · exact (hnode c hc).2.1
    · have hnodup' : (before ++ after).Nodup :=
        nodup_append.2 ⟨hnb, (nodup_cons.1 hna).2, fun a ha b hb =>
          hdisj a ha b (mem_cons_of_mem _ hb)⟩
      cases hN : aNode with
      | none => simpa using hnodup'
      | some y =>
        have hy := (hnode y hN).2.2.1
        simpa using nodup_middle.2 (nodup_cons.2 ⟨hy, hnodup'⟩)
    · rcases eq_nil_or_concat after with rfl | ⟨as, a, rfl⟩
      · refine hlast c (mem_append_left _ ?_)
        cases hN : aNode with
        | none =>
          rw [hN] at hc
          exact mem_of_mem_dropLast (by simpa using hc)
        | some y =>
          rw [hN] at hc
          simpa using hc
      · have hne : old :: as.concat a ≠ [] := by simp
        rw [concat_eq_append] at hc hlast hnode
        rw [append_assoc, ← append_assoc _ as, ← append_assoc,
          dropLast_concat] at hc
        rw [← cons_append, dropLast_concat] at hlast
        simp only [mem_append, mem_toList] at hc
        rcases hc with hc | hc | hc
        · exact hlast c (by simp [hc])
        · exact (hnode c hc).2.2.2.2.resolve_right (by simp)
        · exact hlast c (by simp [hc])
    · rcases hmem c hc with hc | hc
      · exact (hi.bound x c (hchild c hc)).2
      · exact (hnode c hc).1
    · rcases hmem c hc with hc | hc
      · refine .inl ?_
        rw [← hcs]
        exact hchild c hc
      · exact .inr (hnode c hc).2.2.2.1
  have hlen := funext (length_setChildren hx (before ++ aNode.toList ++ after))
  have hend : h.AtEnd x ∨ ((before ++ aNode.toList ++ after).map h.length).sum = l := by
    by_cases hold : 0 < h.length old
    · exact .inl ((hi.atEnd hold).lister (by rw [hcs]; simp))
    · have hsum := hi.lengths x l _ hx (Option.some_ne_none x).symm
      simp only [map_append, map_cons, sum_append_nat, sum_cons] at hsum ⊢
      cases hN : aNode with
      | none =>
        refine .inr ?_
        simp only [toList_none, map_nil, sum_nil]
        omega
      | some y =>
        refine (hnode y hN).2.2.2.2.symm.imp And.right fun hy => ?_
        simp only [toList_some, map_cons, map_nil, sum_cons, sum_nil]
        omega
  obtain ⟨rank, hr, -⟩ := hinv.ranked
  obtain ⟨h', heq, hinv', hs⟩ := hinv.recalculateLength (content_setContent ..) hlt (by
    rw [hlen]
    exact hend.imp_left fun hend => hend.setContent hr)
  obtain ⟨l', hx'⟩ := (hs.same x).tree l _ (content_setContent ..)
  refine ⟨h', ?_, hinv', ?_⟩
  · unfold TextHeap.replaceChild
    rw [hx]
    dsimp only
    rw [if_pos (by simp), hcs', heq]
  · have hrep := hi.replaced_children
      (show h.content x = .tree l (before ++ [old] ++ after) by simpa using hx)
      (ChangedAt.setContent x _ hs) hx' hlt
      (fun c hc => (hnode c (by simpa using hc)).1)
      fun c hc => (hnode c (by simpa using hc)).2.2.2.1
    simpa using hrep

def Compatible (a b : κ → Option ν) : Prop :=
  ∀ key value value', a key = some value → b key = some value' → value' = value

theorem Compatible.overlay {a inner outer : κ → Option ν} (ha : Compatible a inner)
    (ho : Carries a outer) : Carries a (overlay outer inner) := by
  intro key value hkey
  unfold TextHeap.overlay
  cases hi : inner key with
  | none => rw [none_or, ho key value hkey]
  | some value' => rw [some_or, ha key value value' hkey hi]

variable {a : κ → Option ν}

theorem Inv.styledText_carries (hi : h.Inv) (hr : h.Ranked rank) : ∀ {n x : ℕ} {outer : κ → Option ν}, rank x < n → Carries a outer →
      (∀ w, h.Within x w → 0 < h.length w → Compatible a (h.attributes w)) →
      ∀ p ∈ h.styledText n outer x, Carries a p.2
  | 0, _, _, hn, _, _ => absurd hn (not_lt_zero _)
  | n + 1, x, outer, hn, ho, hw => fun p hp => by
    have hpos : 0 < h.length x := by
      rw [← hi.styledText_length hr outer hn]
      exact length_pos_of_mem hp
    have ho' := Compatible.overlay (hw x .refl hpos) ho
    cases hx : h.content x with
    | fragment text =>
      rw [styledText_fragment hx] at hp
      obtain ⟨ch, -, rfl⟩ := mem_map.1 hp
      exact ho'
    | tree l cs =>
      rw [styledText_tree hx] at hp
      obtain ⟨c, hc, hpc⟩ := mem_flatMap.1 hp
      have hmem : c ∈ h.children x := by rwa [children_of_tree hx]
      have hrank := (hr x c hmem).1
      exact hi.styledText_carries hr (by omega) ho' (fun w hcw => hw w (.head hmem hcw)) p hpc

theorem styledText_fst (hc : ∀ z, h'.content z = h.content z)
    (hr : h.Ranked rank) : ∀ {n m x : ℕ} (outer outer' : κ → Option ν), rank x < n → rank x < m →
      (h'.styledText n outer' x).map Prod.fst = (h.styledText m outer x).map Prod.fst
  | 0, _, _, _, _, hn, _ => absurd hn (not_lt_zero _)
  | _, 0, _, _, _, _, hm => absurd hm (not_lt_zero _)
  | n + 1, m + 1, x, outer, outer', hn, hm => by
    cases hx : h.content x with
    | fragment text =>
      rw [styledText_fragment hx, styledText_fragment ((hc x).trans hx), List.map_map,
        List.map_map]
      rfl
    | tree l cs =>
      rw [styledText_tree hx, styledText_tree ((hc x).trans hx), map_flatMap,
        map_flatMap]
      refine flatMap_congr fun c hmem => ?_
      have hrank := (hr x c (by rwa [children_of_tree hx])).1
      exact styledText_fst hc hr _ _ (by omega) (by omega)

theorem content_setAttributes (x y : ℕ) (a : κ → Option ν) (h : TextHeap κ ν) :
    (h.setAttributes x a).content y = h.content y := by
  by_cases hy : y = x
  · subst hy
    simp [content, setAttributes, update]
  · simp [content, setAttributes, update, update_of_ne hy]

theorem parent_setAttributes (x y : ℕ) (a : κ → Option ν) (h : TextHeap κ ν) :
    (h.setAttributes x a).parent y = h.parent y := by
  by_cases hy : y = x
  · subst hy
    simp [parent, setAttributes, update]
  · simp [parent, setAttributes, update, update_of_ne hy]

theorem attributes_setAttributes (x : ℕ) (a : κ → Option ν) (h : TextHeap κ ν) :
    (h.setAttributes x a).attributes x = a := by
  simp [attributes, setAttributes, update]

theorem attributes_setAttributes_ne {x y : ℕ} (hne : y ≠ x) (a : κ → Option ν)
    (h : TextHeap κ ν) : (h.setAttributes x a).attributes y = h.attributes y := by
  simp [attributes, setAttributes, update, update_of_ne hne]

theorem Inv.setAttributes (hi : h.Inv) (x : ℕ) (a : κ → Option ν) : (h.setAttributes x a).Inv := by
  have hc := fun y => content_setAttributes x y a h
  have hlen : (h.setAttributes x a).length = h.length := by
    funext y
    unfold length
    rw [hc]
  refine hi.of_children (fun y => ?_) (parent_setAttributes x · a h) rfl
    (fun p l cs hp => ⟨l, cs, (hc p).trans hp⟩) (fun y l cs hy _ => ?_) fun y c hmem => ?_
  · unfold children
    rw [hc]
  · rw [hlen]
    exact hi.lengths y l cs ((hc y).symm.trans hy) nofun
  · rw [hlen]
    exact hi.last y c hmem

theorem Inv.restyle (hi : h.Inv) (hlt : x < h.next)
    (ha : ∀ y, h.Within x y → y ≠ x → 0 < h.length y → Compatible a (h.attributes y)) :
    h.Replaced (h.setAttributes x a) x 0 (h.length x)
      fun new => new.map Prod.fst = (h.styled x).map Prod.fst ∧ ∀ p ∈ new, Carries a p.2 := by
  obtain ⟨rank, hr, hb⟩ := hi.ranked
  have hc := fun y => content_setAttributes x y a h
  have hchildren : ∀ y, (h.setAttributes x a).children y = h.children y := fun y => by
    unfold children
    rw [hc]
  have hr' : (h.setAttributes x a).Ranked rank := fun y c hmem => by
    rw [hchildren] at hmem
    exact hr y c hmem
  refine .of_edit hi hr hb (fun z _ hz => ⟨attributes_setAttributes_ne hz a h,
      fun text => (hc z).trans, fun l cs hz => ⟨l, (hc z).trans hz⟩⟩) (fun r _ => rfl) (by omega)
    fun m outer hm => ⟨(h.setAttributes x a).styledText m outer x, ⟨?_, ?_⟩, ?_⟩
  · exact styledText_fst hc hr _ _ hm (hb x hlt)
  · obtain ⟨m, rfl⟩ : ∃ k, m = k + 1 := ⟨m - 1, by omega⟩
    have hself : Carries a (overlay outer ((h.setAttributes x a).attributes x)) := by
      rw [attributes_setAttributes]
      intro key value hkey
      unfold TextHeap.overlay
      rw [hkey, some_or]
    intro p hp
    cases hx : (h.setAttributes x a).content x with
    | fragment text =>
      rw [styledText_fragment hx] at hp
      obtain ⟨ch, -, rfl⟩ := mem_map.1 hp
      exact hself
    | tree l cs =>
      rw [styledText_tree hx] at hp
      obtain ⟨c, hmem, hpc⟩ := mem_flatMap.1 hp
      have hmem' : c ∈ (h.setAttributes x a).children x := by rwa [children_of_tree hx]
      have hrank := (hr' x c hmem').1
      refine (hi.setAttributes x a).styledText_carries hr' (by omega) hself
        (fun w hw hpos => ?_) p hpc
      have hwx : w ≠ x := by
        rintro rfl
        exact hr'.not_within hmem' hw
      rw [attributes_setAttributes_ne hwx]
      refine ha w ?_ hwx ?_
      · unfold Within at hw ⊢
        simp only [hchildren] at hw hmem'
        exact .head hmem' hw
      · unfold length at hpos ⊢
        rwa [hc] at hpos
  · rw [zero_add, take_zero, drop_of_length_le]
    · simp
    · rw [hi.styledText_length hr outer hm]

theorem node_allocate_ne {x : ℕ} (hne : x ≠ h.next) (t : ETText κ ν) :
    (h.allocate t).node x = h.node x := update_of_ne hne ..

theorem node_allocate (t : ETText κ ν) : (h.allocate t).node h.next = t :=
  update_self ..

structure Blank (t : ETText κ ν) : Prop where
  parent : t.parent = none
  content : (∃ text, t.content = .fragment text) ∨ t.content = .tree 0 []

variable {t : ETText κ ν}

theorem Inv.children_allocate (hi : h.Inv) (ht : Blank t) (y : ℕ) :
    (h.allocate t).children y = h.children y := by
  by_cases hy : y = h.next
  · subst hy
    have hnew : (h.allocate t).children h.next = [] := by
      unfold children content
      rw [node_allocate]
      rcases ht.content with ⟨text, ht⟩ | ht <;> rw [ht]
    have hold : h.children h.next = [] := eq_nil_iff_forall_not_mem.2 fun c hc =>
      absurd (hi.bound h.next c hc).1 (lt_irrefl _)
    rw [hnew, hold]
  · unfold children content
    rw [node_allocate_ne hy]

theorem Inv.ranked_allocate (hi : h.Inv) (ht : Blank t)
    (hr : h.Ranked rank) : (h.allocate t).Ranked rank := fun y c hc => by
  rw [hi.children_allocate ht] at hc
  exact ⟨(hr y c hc).1, (hr y c hc).2.trans (lt_succ_self _)⟩

theorem Inv.allocate (hi : h.Inv) (ht : Blank t) : (h.allocate t).Inv := by
  have hchildren := hi.children_allocate ht
  have hne : ∀ {y c : ℕ}, c ∈ h.children y → c ≠ h.next := fun {y c} hc =>
    (hi.bound y c hc).2.ne
  have hlen : ∀ {y c : ℕ}, c ∈ h.children y → (h.allocate t).length c = h.length c := by
    intro y c hc
    unfold length content
    rw [node_allocate_ne (hne hc)]
  exact {
    lengths := by
      intro y l cs hy _
      by_cases hyn : y = h.next
      · subst hyn
        unfold content at hy
        rw [node_allocate] at hy
        rcases ht.content with ⟨text, ht⟩ | ht
        · rw [ht] at hy
          cases hy
        · rw [ht] at hy
          cases hy
          rfl
      · unfold content at hy
        rw [node_allocate_ne hyn] at hy
        rw [hi.lengths y l cs hy nofun]
        congr 1
        exact map_congr_left fun c hc =>
          (hlen (show c ∈ h.children y by rwa [children_of_tree hy])).symm
    parents := fun y c hc => by
      rw [hchildren] at hc
      unfold parent
      rw [node_allocate_ne (hne hc)]
      exact hi.parents y c hc
    nodup := fun y => by
      rw [hchildren]
      exact hi.nodup y
    last := fun y c hc => by
      rw [hchildren] at hc
      rw [hlen (mem_of_mem_dropLast hc), hi.last y c hc]
    bound := fun y c hc => by
      rw [hchildren] at hc
      obtain ⟨hy, hc⟩ := hi.bound y c hc
      exact ⟨hy.trans (lt_succ_self _), hc.trans (lt_succ_self _)⟩
    parentTree := fun y p hp => by
      have hold : h.parent y = some p := by
        by_cases hyn : y = h.next
        · subst hyn
          unfold parent at hp
          rw [node_allocate, ht.parent] at hp
          cases hp
        · unfold parent at hp
          rwa [node_allocate_ne hyn] at hp
      obtain ⟨hlt, l, cs, hpc⟩ := hi.parentTree y p hold
      refine ⟨hlt.trans (lt_succ_self _), l, cs, ?_⟩
      unfold content
      rwa [node_allocate_ne hlt.ne]
    ranked := by
      obtain ⟨rank, hr, hb⟩ := hi.ranked
      refine ⟨fun y => if y = h.next then h.next else rank y, fun y c hc => ?_, fun y hy => ?_⟩
      · obtain ⟨hlt, hlt'⟩ := hi.ranked_allocate ht hr y c hc
        rw [hchildren] at hc
        dsimp only
        rw [if_neg (hne hc), if_neg (hi.bound y c hc).1.ne]
        exact ⟨hlt, hlt'⟩
      · dsimp only
        split_ifs with hyn
        · exact lt_succ_self _
        · have hylt : y < h.next := by
            change y < h.next + 1 at hy
            omega
          exact (hb y hylt).trans (lt_succ_self _) }

theorem sameAt_allocate {y : ℕ} (hy : y < h.next) (t : ETText κ ν) : h.SameAt (h.allocate t) y := by
  have hnode := node_allocate_ne hy.ne t
  refine ⟨?_, fun text htext => ?_, fun l cs htree => ⟨l, ?_⟩⟩
  · unfold attributes
    rw [hnode]
  · unfold content at htext ⊢
    rwa [hnode]
  · unfold content at htree ⊢
    rwa [hnode]

theorem setContent_self (h : TextHeap κ ν) (x : ℕ) : h.setContent x (h.content x) = h := by
  unfold setContent update content
  rw [update_eq_self]

theorem Inv.split_fragment (hi : h.Inv) {u : List UInt16} (hx : h.content x = .fragment u)
    (hlt : x < h.next) {i : ℕ} (hle : i ≤ u.length) (hC : i = 0 ∨ ∀ q, x ∉ h.children q) :
    Yields (h.splitAtIndex h.next x i) fun p => p.2.Inv
      ∧ p.2.styled p.1 = (h.styled x).take i ∧ h.Replaced p.2 x 0 i (· = []) := by
  obtain ⟨n, hn⟩ : ∃ n, h.next = n + 1 := ⟨h.next - 1, by omega⟩
  obtain ⟨rank, hr, hb⟩ := hi.ranked
  let t := { h.node x with parent := none, content := .fragment (u.take i) }
  have ht : Blank t := ⟨rfl, .inl ⟨_, rfl⟩⟩
  have hx₁ : (h.allocate t).content x = .fragment u := (sameAt_allocate hlt t).fragment u hx
  have hne : h.next ≠ x := hlt.ne'
  have heq : h.splitAtIndex h.next x i
      = some (h.next, (h.allocate t).setContent x (.fragment (u.drop i))) := by
    rw [hn]
    unfold TextHeap.splitAtIndex
    rw [hx]
    dsimp only
    rw [if_pos hle, hn]
  have hr' : ((h.allocate t).setContent x (.fragment (u.drop i))).Ranked rank := fun y c hc => by
    rw [children_setText hx₁] at hc
    exact hi.ranked_allocate ht hr y c hc
  have hstyled : h.styled x = u.map fun ch => (ch, overlay (fun _ => none) (h.attributes x)) := by
    unfold styled
    rw [hn, styledText_fragment hx]
  refine ⟨_, heq, ?_, ?_, ?_⟩
  · rcases hC with rfl | hfree
    · rw [drop_zero, ← hx₁, setContent_self]
      exact hi.allocate ht
    · have hfree' : ∀ q, x ∉ (h.allocate t).children q := fun q => by
        rw [hi.children_allocate ht]
        exact hfree q
      exact (hi.allocate ht).setFragment hx₁ (.inl (atEnd_of_unlisted hfree'))
        fun q hq => absurd hq (hfree' q)
  · have hnew : ((h.allocate t).setContent x (.fragment (u.drop i))).content h.next
        = .fragment (u.take i) := by
      rw [content_setContent_ne hne]
      unfold content
      rw [node_allocate]
    rw [hstyled, ← map_take]
    unfold styled
    dsimp only
    rw [show ((h.allocate t).setContent x (.fragment (u.drop i))).next = h.next + 1 from rfl,
      styledText_fragment hnew, attributes_setContent]
    unfold attributes
    rw [node_allocate]
  · refine .of_edit hi hr hb (fun z hz hzx =>
        (sameAt_allocate hz t).trans (sameAt_setContent_ne hzx _ _)) (fun r hlt => ?_)
      (by rw [length_of_fragment hx]; omega) fun m outer hm => ⟨[], rfl, ?_⟩
    · exact hr'.styledText_eq _ ((hb r hlt).trans (lt_succ_self _)) (hb r hlt)
    · obtain ⟨m, rfl⟩ : ∃ k, m = k + 1 := ⟨m - 1, by omega⟩
      rw [styledText_fragment hx, styledText_fragment (content_setContent ..),
        attributes_setContent, (sameAt_allocate hlt t).attributes]
      simp

theorem Inv.split_tree (hi : h.Inv) {l c : ℕ} (hx : h.content x = .tree l [c]) (hlt : x < h.next)
    (hl : 0 < l) : Yields (h.splitAtIndex h.next x 0) fun p => p.2.Inv
      ∧ p.2.styled p.1 = (h.styled x).take 0 ∧ h.Replaced p.2 x 0 0 (· = []) := by
  obtain ⟨n, hn⟩ : ∃ n, h.next = n + 1 := ⟨h.next - 1, by omega⟩
  obtain ⟨rank, hr, hb⟩ := hi.ranked
  let t := { h.node x with parent := none, content := .tree 0 [] }
  have ht : Blank t := ⟨rfl, .inr rfl⟩
  have hsum := hi.lengths x l [c] hx nofun
  have heq : h.splitAtIndex h.next x 0 = some (h.next, h.allocate t) := by
    have hself : (h.allocate t).setContent x (.tree l [c]) = h.allocate t := by
      obtain ⟨hattr, -, htree⟩ := sameAt_allocate hlt t
      have hcontent : (h.allocate t).content x = .tree l [c] := by
        unfold content at hx ⊢
        rwa [node_allocate_ne hlt.ne]
      rw [← hcontent, setContent_self]
    have hpos : 0 < h.length c := by
      simp at hsum
      omega
    have hnode : h.childNodeForIndex ([] ++ [c]) 0 = ⟨some 0, 0⟩ :=
      childNodeForIndex_last (fun b hb => absurd hb not_mem_nil) hpos
    rw [nil_append] at hnode
    rw [hn]
    unfold TextHeap.splitAtIndex
    rw [hx]
    dsimp only
    rw [hnode, if_neg (fun h => h rfl)]
    simp only [map_some, take_zero, drop_zero,
      children_of_tree hx, length_of_tree hx, hn]
    rw [show TextHeap.setContent x _ _ = _ from hself]
  have hr' := hi.ranked_allocate ht hr
  refine ⟨_, heq, hi.allocate ht, ?_, ?_⟩
  · have hnew : (h.allocate t).content h.next = .tree 0 [] := by
      unfold content
      rw [node_allocate]
    rw [take_zero]
    unfold styled
    dsimp only
    rw [show (h.allocate t).next = h.next + 1 from rfl, styledText_tree hnew, flatMap_nil]
  · refine .of_edit hi hr hb (fun z hz _ => sameAt_allocate hz t) (fun r hlt => ?_) (by omega)
      fun m outer hm => ⟨[], rfl, ?_⟩
    · exact hr'.styledText_eq _ ((hb r hlt).trans (lt_succ_self _)) (hb r hlt)
    · rw [take_zero, add_zero, drop_zero]
      exact styledText_congr _ fun z hz => sameAt_allocate (hi.within_lt hz hlt) t

/-- The message is sent to a tree whose text is where the code looks for it. -/
def Proper (h : TextHeap κ ν) : TextEvent κ ν → Prop
  | .appendTextFragment x aFragment => x < h.next ∧ aFragment < h.next
    ∧ (∃ cs, h.content x = .tree 0 cs) ∧ (∀ q, aFragment ∉ h.children q)
    ∧ ¬ h.Within aFragment x ∧ (h.AtEnd x ∨ h.length aFragment = 0)
  | .appendString x aString => x < h.next ∧
    match h.content x with
    | .fragment _ => h.AtEnd x ∨ aString = []
    | .tree l _ => 0 < l
  | .replaceCharactersInRange x location len aString =>
    x < h.next ∧ location + len ≤ h.length x ∧
    match h.content x with
    | .fragment _ => h.AtEnd x ∨ aString = []
    | .tree l _ => 0 < l ∧ location = 0 ∧ len = l
  | .setCustomAttributes x attributes location len =>
    x < h.next ∧ location = 0 ∧ len = h.length x
    ∧ ∀ y, h.Within x y → y ≠ x → 0 < h.length y → Compatible attributes (h.attributes y)
  | .splitAtIndex x anIndex => x < h.next ∧ anIndex ≤ h.length x ∧
    match h.content x with
    | .fragment _ => anIndex = 0 ∨ ∀ q, x ∉ h.children q
    | .tree l cs => anIndex = 0 ∧ 0 < l ∧ cs.length = 1
  | .replaceChild x oldChild aNode => x < h.next ∧ (∃ l cs, h.content x = .tree l cs)
    ∧ (oldChild ∈ h.children x → ∀ y, aNode = some y → y ≠ oldChild →
      y < h.next ∧ h.parent y = some x ∧ (∀ q, y ∉ h.children q) ∧ ¬ h.Within y x
        ∧ (h.length y = 0 ∨ (h.children x).getLast? = some oldChild ∧ h.AtEnd x))

def Edited (h h' : TextHeap κ ν) : TextEvent κ ν → Prop
  | .appendTextFragment x aFragment =>
    h.Replaced h' x (h.length x) 0 (Extends · (h.styled aFragment))
  | .appendString x aString => h.Replaced h' x (h.length x) 0 (·.map Prod.fst = aString)
  | .replaceCharactersInRange x location len aString =>
    h.Replaced h' x location len (·.map Prod.fst = aString)
  | .setCustomAttributes x attributes location len =>
    h.Replaced h' x location len fun new =>
      new.map Prod.fst = (((h.styled x).drop location).take len).map Prod.fst
        ∧ ∀ p ∈ new, Carries attributes p.2
  | .splitAtIndex x anIndex => h.Replaced h' x 0 anIndex (· = [])
    ∧ ∃ first, (h.splitAtIndex h.next x anIndex).map Prod.fst = some first
      ∧ h'.styled first = (h.styled x).take anIndex
  | .replaceChild x oldChild aNode =>
    (oldChild ∉ h.children x → ∀ r, h'.styled r = h.styled r)
    ∧ ∀ before after, h.children x = before ++ oldChild :: after →
      h.Replaced h' x (before.map h.length).sum (h.length oldChild)
        (Extends · (aNode.toList.flatMap h.styled))

theorem Inv.perform_appendString (hi : h.Inv) {s : List UInt16}
    (hC : h.Proper (.appendString x s)) : Yields (h.appendString h.next x s) fun h' =>
      h'.Inv ∧ h.Replaced h' x (h.length x) 0 (·.map Prod.fst = s) := by
  obtain ⟨rank, hr, hb⟩ := hi.ranked
  obtain ⟨hlt, hC⟩ := hC
  cases hx : h.content x with
  | fragment u =>
    rw [hx] at hC
    obtain ⟨n, hn⟩ : ∃ n, h.next = n + 1 := ⟨h.next - 1, by omega⟩
    have hedit := hi.editFragment hx (show u.length + 0 ≤ u.length by omega) hC
    rw [hn]
    unfold TextHeap.appendString
    rw [hx, length_of_fragment hx]
    simpa using hedit
  | tree l cs =>
    rw [hx] at hC
    have hpos : 0 < h.length x := by rwa [length_of_tree hx]
    obtain ⟨y, u, hy, hu, ho, happend, -⟩ := hi.lastLeaf hr (hb x hlt) hpos
    have hend : h.AtEnd y := hi.atEnd (by rw [length_of_fragment hy]; omega)
    have hedit := hi.editFragment (s := s) hy (show u.length + 0 ≤ u.length by omega) (.inl hend)
    rw [show u.take u.length ++ s ++ u.drop (u.length + 0) = u ++ s by simp] at hedit
    rw [happend, ← hu]
    exact hedit.mono fun h' hh => ⟨hh.1, hh.2.of_leaf hi ho⟩

theorem Inv.perform_replaceCharacters (hi : h.Inv) {s : List UInt16}
    (hC : h.Proper (.replaceCharactersInRange x location len s)) :
    Yields (h.replaceCharactersInRange h.next x location len s) fun h' =>
      h'.Inv ∧ h.Replaced h' x location len (·.map Prod.fst = s) := by
  obtain ⟨rank, hr, hb⟩ := hi.ranked
  obtain ⟨hlt, hloc, hC⟩ := hC
  cases hx : h.content x with
  | fragment u =>
    rw [hx] at hC
    rw [length_of_fragment hx] at hloc
    obtain ⟨n, hn⟩ : ∃ n, h.next = n + 1 := ⟨h.next - 1, by omega⟩
    have hedit := hi.editFragment hx hloc hC
    rw [hn]
    unfold TextHeap.replaceCharactersInRange replaceCharacters
    rw [hx]
    dsimp only
    rwa [if_pos hloc, bind_some]
  | tree l cs =>
    rw [hx] at hC
    obtain ⟨hpos, rfl, rfl⟩ := hC
    rw [← length_of_tree hx] at hpos ⊢
    obtain ⟨y, u, hy, hu, ho, -, hreplace⟩ := hi.lastLeaf hr (hb x hlt) hpos
    have hend : h.AtEnd y := hi.atEnd (by rw [length_of_fragment hy]; omega)
    have hedit := hi.editFragment (s := s) hy (show 0 + u.length ≤ u.length by omega) (.inl hend)
    rw [show u.take 0 ++ s ++ u.drop (0 + u.length) = s by simp] at hedit
    rw [hreplace, ← hu]
    exact hedit.mono fun h' hh => ⟨hh.1, hh.2.of_leaf hi ho⟩

theorem Inv.perform_setCustomAttributes (hi : h.Inv)
    (hC : h.Proper (.setCustomAttributes x a location len)) :
    Yields (h.perform (.setCustomAttributes x a location len)) fun h' =>
      h'.Inv ∧ h.Edited h' (.setCustomAttributes x a location len) := by
  obtain ⟨hlt, rfl, rfl, ha⟩ := hC
  refine ⟨h.setAttributes x a, ?_, hi.setAttributes x a, ?_⟩
  · unfold TextHeap.perform
    dsimp only
    unfold TextHeap.setCustomAttributes
    cases hx : h.content x with
    | fragment u => simp [length_of_fragment hx]
    | tree l cs => simp [length_of_tree hx]
  · refine (hi.restyle hlt ha).mono fun new hnew => ⟨?_, hnew.2⟩
    have hlen := hi.consistent.styled_length x hlt
    rw [drop_zero, ← hlen, take_length]
    exact hnew.1

theorem Inv.perform_splitAtIndex (hi : h.Inv) {i : ℕ} (hC : h.Proper (.splitAtIndex x i)) :
    Yields (h.perform (.splitAtIndex x i)) fun h' =>
      h'.Inv ∧ h.Edited h' (.splitAtIndex x i) := by
  obtain ⟨hlt, hle, hC⟩ := hC
  have hsplit : Yields (h.splitAtIndex h.next x i) fun p => p.2.Inv
      ∧ p.2.styled p.1 = (h.styled x).take i ∧ h.Replaced p.2 x 0 i (· = []) := by
    cases hx : h.content x with
    | fragment u =>
      rw [hx] at hC
      rw [length_of_fragment hx] at hle
      exact hi.split_fragment hx hlt hle hC
    | tree l cs =>
      rw [hx] at hC
      obtain ⟨rfl, hl, hone⟩ := hC
      obtain ⟨c, rfl⟩ := length_eq_one_iff.1 hone
      exact hi.split_tree hx hlt hl
  obtain ⟨⟨first, h'⟩, heq, hinv, hfirst, hrep⟩ := hsplit
  refine ⟨h', congrArg (Option.map Prod.snd) heq, hinv, hrep, first, ?_, hfirst⟩
  rw [heq, map_some]

theorem Inv.perform_replaceChild (hi : h.Inv) {old : ℕ} {aNode : Option ℕ}
    (hC : h.Proper (.replaceChild x old aNode)) :
    Yields (h.replaceChild x old aNode) fun h' =>
      h'.Inv ∧ h.Edited h' (.replaceChild x old aNode) := by
  obtain ⟨rank, hr, -⟩ := hi.ranked
  obtain ⟨hlt, ⟨l, cs, hx⟩, hC⟩ := hC
  have hcs := children_of_tree hx
  by_cases hold : old ∈ cs
  · obtain ⟨before, after, rfl⟩ := append_of_mem hold
    have hnodup := hi.nodup x
    rw [hcs] at hC hnodup
    have hnot := (nodup_cons.1 (nodup_middle.1 hnodup)).1
    have hnotb : old ∉ before := fun hmem => hnot (mem_append_left _ hmem)
    have hlastchild : (before ++ old :: after).getLast? = some old → after = [] := by
      intro hlast
      rcases eq_nil_or_concat after with rfl | ⟨as, a, rfl⟩
      · rfl
      · rw [concat_eq_append, ← cons_append, ← append_assoc,
          getLast?_concat] at hlast
        obtain rfl := some.inj hlast
        exact absurd (by simp) hnot
    refine (hi.replaceChild aNode hx hlt fun y hy => ?_).mono fun h' hh =>
      ⟨hh.1, fun hnotin => ?_, fun before' after' hcs' => ?_⟩
    · by_cases hyo : y = old
      · subst hyo
        have hmem : y ∈ h.children x := by rw [hcs]; simp
        refine ⟨(hi.bound x y hmem).2, hi.parents x y hmem, hnot, hr.not_within hmem, ?_⟩
        rcases Nat.eq_zero_or_pos (h.length y) with hzero | hpos
        · exact .inl hzero
        · have hend := hi.atEnd hpos
          have hlast := hend y .refl x hmem
          rw [hcs] at hlast
          exact .inr ⟨hlastchild hlast, hend.lister hmem⟩
      · obtain ⟨hylt, hparent, hfree, hout, hzero⟩ := hC (by simp) y hy hyo
        refine ⟨hylt, hparent, fun hmem => hfree x ?_, hout,
          hzero.imp_right fun hz => ⟨hlastchild hz.1, hz.2⟩⟩
        rw [hcs]
        simp only [mem_append, mem_cons] at hmem ⊢
        tauto
    · rw [hcs] at hnotin
      exact absurd (by simp) hnotin
    · -- there is only one way to find the child
      rw [hcs] at hcs'
      have hnotb' : old ∉ before' := fun hmem => by
        rw [hcs', nodup_append] at hnodup
        exact hnodup.2.2 old hmem old (by simp) rfl
      have hlen := congrArg (idxOf old) hcs'
      rw [idxOf_middle hnotb, idxOf_middle hnotb'] at hlen
      obtain ⟨rfl, -⟩ := append_inj hcs' hlen
      exact hh.2
  · refine ⟨h, ?_, hi, fun _ r => rfl, fun before after hcs' => ?_⟩
    · unfold TextHeap.replaceChild
      rw [hx]
      exact if_neg hold
    · rw [hcs] at hcs'
      exact absurd (by rw [hcs']; simp) hold

theorem Inv.perform (hi : h.Inv) : ∀ {e : TextEvent κ ν}, h.Proper e →
    Yields (h.perform e) fun h' => h'.Inv ∧ h.Edited h' e
  | .appendTextFragment _ _, ⟨hlt, hy, ⟨_, hx⟩, hfree, hout, hend⟩ =>
    hi.append hx hlt hy hfree hout hend
  | .appendString _ _, hC => hi.perform_appendString hC
  | .replaceCharactersInRange _ _ _ _, hC => hi.perform_replaceCharacters hC
  | .setCustomAttributes _ _ _ _, hC => hi.perform_setCustomAttributes hC
  | .splitAtIndex _ _, hC => hi.perform_splitAtIndex hC
  | .replaceChild _ _ _, hC => hi.perform_replaceChild hC

def Refines (h : TextHeap κ ν) (e : TextEvent κ ν) : Prop :=
  Yields (h.perform e) fun h' => h'.Consistent ∧ h.Edited h' e

/-- From any tree with all text in last children, in every run of proper messages. -/
theorem textTree_refines (hi : h.Inv) {events : List (TextEvent κ ν)}
    (hC : Along (orStay perform) Proper h events) :
    h.Consistent ∧ Along (orStay perform) Refines h events := by
  refine ⟨hi.consistent, Along.of_invariant (fun h e hi hC => ?_) hi hC⟩
  obtain ⟨h', heq, hinv, hedit⟩ := hi.perform hC
  refine ⟨⟨h', heq, hinv.consistent, hedit⟩, ?_⟩
  unfold orStay
  rwa [heq]

def twoFragments : TextHeap Unit Unit where
  node x := ⟨none, none, fun _ => none,
    if x = 0 then .tree 0 [] else .fragment (if x = 1 then [0x61] else [0x62])⟩
  next := 3

theorem twoFragments_children (x : ℕ) : twoFragments.children x = [] := by
  unfold children content twoFragments
  dsimp only
  split_ifs <;> rfl

theorem twoFragments_inv : twoFragments.Inv where
  lengths x l cs hx _ := by
    unfold content twoFragments at hx
    dsimp only at hx
    split_ifs at hx
    cases hx
    rfl
  parents x c hc := by simp [twoFragments_children] at hc
  nodup x := by simp [twoFragments_children]
  last x c hc := by simp [twoFragments_children] at hc
  bound x c hc := by simp [twoFragments_children] at hc
  parentTree x p hp := by cases hp
  ranked := ⟨id, fun x c hc => by simp [twoFragments_children] at hc, fun x hx => hx⟩

theorem twoFragments_refines : twoFragments.Consistent
    ∧ Along (orStay perform) Refines twoFragments [.appendTextFragment 0 1, .appendString 0 [0x62],
      .replaceCharactersInRange 0 0 2 [0x63], .setCustomAttributes 0 (fun _ => none) 0 1,
      .splitAtIndex 0 0] := by
  refine textTree_refines twoFragments_inv ⟨⟨by decide, by decide, ⟨[], rfl⟩, fun q => ?_, ?_,
    .inl (atEnd_of_unlisted fun q => ?_)⟩, ⟨by decide, one_pos⟩,
    ⟨by decide, by decide, Nat.two_pos, rfl, rfl⟩, ⟨by decide, rfl, rfl, fun _ _ _ _ => nofun⟩,
    ⟨by decide, by decide, rfl, one_pos, rfl⟩, trivial⟩
  · simp [twoFragments_children]
  · intro hw
    rcases Relation.ReflTransGen.cases_head hw with heq | ⟨c, hc, -⟩
    · cases heq
    · simp [twoFragments_children] at hc
  · simp [twoFragments_children]

/-- The first of two characters cannot be read. -/
theorem twoFragments_not_read :
    ((orStay perform twoFragments (.appendTextFragment 0 1)).perform
        (.appendTextFragment 0 2)).map (fun h => ((h.styled 0).map Prod.fst,
          h.characterAtIndex h.next 0 0, h.characterAtIndex h.next 0 1))
        = some ([0x61, 0x62], none, some 0x62)
      ∧ ¬ Along (orStay perform) Refines twoFragments
        [.appendTextFragment 0 1, .appendTextFragment 0 2] := by
  refine ⟨by decide, ?_⟩
  rintro ⟨-, ⟨h, heq, hcons, -⟩, -⟩
  have hread : ((orStay perform twoFragments (.appendTextFragment 0 1)).perform
      (.appendTextFragment 0 2)).map (fun h => (h.next, h.length 0,
        h.characterAtIndex h.next 0 0, (h.styled 0)[0]?.map Prod.fst))
      = some (3, 2, none, some 0x61) := by decide
  rw [heq, map_some] at hread
  simp only [some.injEq, Prod.mk.injEq] at hread
  obtain ⟨hnext, hlen, hnone, hsome⟩ := hread
  have hchar := hcons.characters 0 (by omega) 0 (by omega)
  rw [hnone, hsome] at hchar
  cases hchar

end TextHeap

end Etoile.EtoileText
