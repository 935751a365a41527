import Etoile.EtoileText.TextTrees

/-!
# Edits of text trees

A change at one object is followed by the lengths of the trees that contain it.
-/

namespace Etoile.EtoileText.TextHeap

open Function List Option

variable {κ ν : Type} {h h' : TextHeap κ ν} {x y : ℕ} {stale : Option ℕ}

theorem content_setContent (x : ℕ) (c : TextContent) (h : TextHeap κ ν) :
    (h.setContent x c).content x = c := by
  simp [content, setContent, update]

variable {x y : ℕ}

theorem content_setContent_ne (hne : y ≠ x) (c : TextContent) (h : TextHeap κ ν) :
    (h.setContent x c).content y = h.content y := by
  simp [content, setContent, update, update_of_ne hne]

theorem parent_setContent (x y : ℕ) (c : TextContent) (h : TextHeap κ ν) :
    (h.setContent x c).parent y = h.parent y := by
  by_cases hy : y = x
  · subst hy
    simp [parent, setContent, update]
  · simp [parent, setContent, update, update_of_ne hy]

theorem attributes_setContent (x y : ℕ) (c : TextContent) (h : TextHeap κ ν) :
    (h.setContent x c).attributes y = h.attributes y := by
  by_cases hy : y = x
  · subst hy
    simp [attributes, setContent, update]
  · simp [attributes, setContent, update, update_of_ne hy]

theorem length_setContent_ne (hne : y ≠ x) (c : TextContent) (h : TextHeap κ ν) :
    (h.setContent x c).length y = h.length y := by
  unfold length
  rw [content_setContent_ne hne]

theorem children_setContent_ne (hne : y ≠ x) (c : TextContent) (h : TextHeap κ ν) :
    (h.setContent x c).children y = h.children y := by
  unfold children
  rw [content_setContent_ne hne]

theorem sameAt_setContent_ne (hne : y ≠ x) (c : TextContent) (h : TextHeap κ ν) :
    h.SameAt (h.setContent x c) y where
  attributes := attributes_setContent ..
  fragment text hy := by rwa [content_setContent_ne hne]
  tree l cs hy := ⟨l, by rwa [content_setContent_ne hne]⟩

structure SameTexts (h h' : TextHeap κ ν) : Prop where
  same : ∀ x, h.SameAt h' x
  parent : ∀ x, h'.parent x = h.parent x
  next : h'.next = h.next

theorem SameTexts.refl (h : TextHeap κ ν) : h.SameTexts h := ⟨.refl h, fun _ => rfl, rfl⟩

theorem SameTexts.trans {h'' : TextHeap κ ν} (hs : h.SameTexts h') (hs' : h'.SameTexts h'') :
    h.SameTexts h'' :=
  ⟨fun x => (hs.same x).trans (hs'.same x), fun x => (hs'.parent x).trans (hs.parent x),
    hs'.next.trans hs.next⟩

theorem SameTexts.within (hs : h.SameTexts h') : h'.Within x y ↔ h.Within x y := by
  unfold Within
  simp only [(hs.same _).children]

theorem SameTexts.atEnd (hs : h.SameTexts h') : h'.AtEnd x ↔ h.AtEnd x := by
  unfold AtEnd
  simp only [hs.within, (hs.same _).children]

variable {rank : ℕ → ℕ}

theorem SameTexts.ranked (hs : h.SameTexts h') : h'.Ranked rank ↔ h.Ranked rank := by
  unfold Ranked
  simp only [(hs.same _).children, hs.next]

variable {l : ℕ} {cs : List ℕ}

theorem setLength_sameTexts (hx : h.content x = .tree l cs) (l' : ℕ) :
    h.SameTexts (h.setContent x (.tree l' cs)) where
  same y := by
    by_cases hy : y = x
    · subst hy
      refine ⟨attributes_setContent .., fun text hy => ?_, fun l₁ cs₁ hy => ⟨l', ?_⟩⟩
      · rw [hx] at hy
        cases hy
      · rw [hx] at hy
        cases hy
        exact content_setContent ..
    · exact sameAt_setContent_ne hy _ h
  parent y := parent_setContent ..
  next := rfl

theorem InvBut.of_children {stale' : Option ℕ} (hi : h.InvBut stale)
    (hc : ∀ x, h'.children x = h.children x) (hp : ∀ x, h'.parent x = h.parent x)
    (hn : h'.next = h.next)
    (htree : ∀ p l cs, h.content p = .tree l cs → ∃ l' cs', h'.content p = .tree l' cs')
    (hlengths : ∀ x l cs, h'.content x = .tree l cs → stale' ≠ some x →
      l = (cs.map h'.length).sum)
    (hlast : ∀ x, ∀ c ∈ (h.children x).dropLast, h'.length c = 0) : h'.InvBut stale' where
  lengths := hlengths
  parents x c hmem := by
    rw [hc] at hmem
    rw [hp, hi.parents x c hmem]
  nodup x := by
    rw [hc]
    exact hi.nodup x
  last x c hmem := by
    rw [hc] at hmem
    exact hlast x c hmem
  bound x c hmem := by
    rw [hc] at hmem
    rw [hn]
    exact hi.bound x c hmem
  parentTree x p hxp := by
    rw [hp] at hxp
    obtain ⟨hlt, l, cs, hpc⟩ := hi.parentTree x p hxp
    rw [hn]
    exact ⟨hlt, htree p l cs hpc⟩
  ranked := by
    obtain ⟨rank, hr, hbound⟩ := hi.ranked
    refine ⟨rank, fun x c hmem => ?_, by rwa [hn]⟩
    rw [hc] at hmem
    rw [hn]
    exact hr x c hmem

theorem AtEnd.not_mem_dropLast (hi : h.InvBut stale) (hend : h.AtEnd x) (y : ℕ) :
    x ∉ (h.children y).dropLast := fun hmem =>
  getLast_not_mem_dropLast (hi.nodup y) (hend x .refl y (mem_of_mem_dropLast hmem)) hmem

theorem InvBut.setLength (hi : h.InvBut (some x))
    (hx : h.content x = .tree l cs) (hend : h.AtEnd x ∨ (cs.map h.length).sum = l)
    (hstale : ∀ q, x ∈ h.children q → stale = some q ∨ (cs.map h.length).sum = l) :
    (h.setContent x (.tree (cs.map h.length).sum cs)).InvBut stale := by
  have hs := setLength_sameTexts hx (cs.map h.length).sum
  obtain ⟨rank, hr, -⟩ := hi.ranked
  have hself : x ∉ cs := fun hmem => by
    have := (hr x x (by rwa [children_of_tree hx])).1
    omega
  have hlen : ∀ y, y ≠ x ∨ (cs.map h.length).sum = l →
      (h.setContent x (.tree (cs.map h.length).sum cs)).length y = h.length y := by
    intro y hy
    by_cases hyx : y = x
    · subst hyx
      rw [length_of_tree (content_setContent ..), length_of_tree hx]
      exact hy.resolve_left (· rfl)
    · exact length_setContent_ne hyx _ h
  have hsum : ∀ ds : List ℕ, x ∉ ds ∨ (cs.map h.length).sum = l →
      ds.map (h.setContent x (.tree (cs.map h.length).sum cs)).length = ds.map h.length :=
    fun ds hds => map_congr_left fun d hd => hlen d (hds.imp (fun hn => by
      rintro rfl
      exact hn hd) id)
  refine hi.of_children (fun y => (hs.same y).children) hs.parent hs.next
    (fun p l₁ ds hp => ?_) (fun y l₁ ds hy hne => ?_) fun y c hc => ?_
  · obtain ⟨l₂, hp'⟩ := (hs.same p).tree l₁ ds hp
    exact ⟨l₂, ds, hp'⟩
  · by_cases hyx : y = x
    · subst hyx
      rw [content_setContent] at hy
      cases hy
      rw [hsum _ (.inl hself)]
    · rw [content_setContent_ne hyx] at hy
      rw [hi.lengths y l₁ ds hy (fun heq => hyx (some.inj heq).symm), hsum]
      by_cases hmem : x ∈ ds
      · exact .inr ((hstale y (by rwa [children_of_tree hy])).resolve_left hne)
      · exact .inl hmem
  · rw [hlen c, hi.last y c hc]
    refine hend.imp_left fun hend => ?_
    rintro rfl
    exact hend.not_mem_dropLast hi y hc

theorem InvBut.inv (hi : h.InvBut stale)
    (hsum : ∀ x l cs, stale = some x → h.content x = .tree l cs → l = (cs.map h.length).sum) :
    h.Inv :=
  { hi with
    lengths := fun x l cs hx _ => by
      by_cases hs : stale = some x
      · exact hsum x l cs hs hx
      · exact hi.lengths x l cs hx hs }

theorem Inv.childDidChange (hi : h.Inv) (n : ℕ) (x : ℕ) :
    h.childDidChange (n + 1) (h.parent x) = some h := by
  cases hp : h.parent x with
  | none => rfl
  | some p =>
    obtain ⟨-, l, cs, hpc⟩ := hi.parentTree x p hp
    unfold TextHeap.childDidChange
    rw [hpc]
    exact if_neg (not_not.2 (hi.lengths p l cs hpc nofun).symm)

theorem AtEnd.lister (hend : h.AtEnd x) (hx : x ∈ h.children y) : h.AtEnd y :=
  fun z hz => hend z (hz.tail hx)

theorem InvBut.repair (hbound : ∀ x < h.next, rank x < h.next) : ∀ (n : ℕ)
    {h' : TextHeap κ ν} {x l : ℕ} {cs : List ℕ}, h'.next = h.next → h'.Ranked rank →
      h'.InvBut (some x) → h'.content x = .tree l cs →
      h'.AtEnd x ∨ (cs.map h'.length).sum = l → x < h.next → h.next - rank x ≤ n →
      ∃ h'', (h'.setContent x (.tree (cs.map h'.length).sum cs)).childDidChange n (h'.parent x)
        = some h'' ∧ h''.Inv ∧ h'.SameTexts h''
  | n, h', x, l, cs, hnext, hr, hi, hx, hend, hlt, hn => by
    have hs := setLength_sameTexts hx (cs.map h'.length).sum
    have hlister : ∀ q, x ∈ h'.children q → h'.parent x = some q := fun q => hi.parents q x
    cases hp : h'.parent x with
    | none =>
      have hinv : (h'.setContent x (.tree (cs.map h'.length).sum cs)).Inv := by
        refine hi.setLength hx hend fun q hq => ?_
        rw [hp] at hlister
        exact absurd (hlister q hq) nofun
      exact ⟨_, by cases n <;> rfl, hinv, hs⟩
    | some t =>
      have hrx := hbound x hlt
      obtain ⟨n, rfl⟩ : ∃ m, n = m + 1 := ⟨n - 1, by omega⟩
      obtain ⟨htlt, lt, ct, ht⟩ := hi.parentTree x t hp
      obtain ⟨lt', ht'⟩ := (hs.same t).tree lt ct ht
      by_cases hsteady : x ∉ ct ∨ (cs.map h'.length).sum = l
      · -- no tree becomes wrong
        have hinv : (h'.setContent x (.tree (cs.map h'.length).sum cs)).Inv := by
          refine hi.setLength hx hend fun q hq => ?_
          refine .inr (hsteady.resolve_left (not_not.2 ?_))
          obtain rfl := some.inj (hp.symm.trans (hlister q hq))
          rwa [children_of_tree ht] at hq
        have hdone := Inv.childDidChange hinv n x
        rw [hs.parent, hp] at hdone
        exact ⟨_, hdone, hinv, hs⟩
      · obtain ⟨hmem, hne⟩ := not_or.1 hsteady
        have hxt : x ∈ h'.children t := by
          rw [children_of_tree ht]
          exact not_not.1 hmem
        have hendx := hend.resolve_right hne
        have hinv : (h'.setContent x (.tree (cs.map h'.length).sum cs)).InvBut (some t) :=
          hi.setLength hx hend fun q hq => .inl (hp.symm.trans (hlister q hq))
        unfold TextHeap.childDidChange
        rw [ht']
        dsimp only
        split_ifs with hsum
        · have hrt := hr t x hxt
          obtain ⟨h'', heq, hinv', hs'⟩ := InvBut.repair hbound n (hs.next.trans hnext)
            (hs.ranked.2 hr) hinv ht' (.inl (hs.atEnd.2 (hendx.lister hxt)))
            (hnext ▸ htlt) (by omega)
          exact ⟨h'', heq, hinv', hs.trans hs'⟩
        · refine ⟨_, rfl, hinv.inv fun q l₁ ds hq hqc => ?_, hs⟩
          obtain rfl := some.inj hq
          rw [ht'] at hqc
          cases hqc
          exact (not_not.1 hsum).symm

theorem InvBut.recalculateLength (hi : h.InvBut (some x))
    (hx : h.content x = .tree l cs) (hlt : x < h.next)
    (hend : h.AtEnd x ∨ (cs.map h.length).sum = l) :
    ∃ h', h.recalculateLength x = some h' ∧ h'.Inv ∧ h.SameTexts h' := by
  obtain ⟨rank, hr, hbound⟩ := hi.ranked
  unfold TextHeap.recalculateLength TextHeap.childDidChange
  rw [hx]
  dsimp only
  split_ifs with hsum
  · exact hi.repair hbound h.next rfl hr hx hend hlt (Nat.sub_le _ _)
  · refine ⟨h, rfl, hi.inv fun q l₁ ds hq hqc => ?_, .refl h⟩
    obtain rfl := some.inj hq
    rw [hx] at hqc
    cases hqc
    exact (not_not.1 hsum).symm

variable {u v : List UInt16}

theorem length_setText (hx : h.content x = .fragment u) (y : ℕ)
    (hy : y ≠ x ∨ v.length = u.length) : (h.setContent x (.fragment v)).length y = h.length y := by
  by_cases hyx : y = x
  · subst hyx
    rw [length_of_fragment (content_setContent ..), length_of_fragment hx]
    exact hy.resolve_left (· rfl)
  · exact length_setContent_ne hyx _ h

theorem children_setText (hx : h.content x = .fragment u) (y : ℕ) :
    (h.setContent x (.fragment v)).children y = h.children y := by
  by_cases hyx : y = x
  · subst hyx
    rw [children_of_fragment (content_setContent ..), children_of_fragment hx]
  · exact children_setContent_ne hyx _ h

theorem tree_setText (hx : h.content x = .fragment u) (p l : ℕ) (cs : List ℕ) :
    (h.setContent x (.fragment v)).content p = .tree l cs ↔ h.content p = .tree l cs := by
  by_cases hpx : p = x
  · subst hpx
    rw [content_setContent, hx]
    exact ⟨nofun, nofun⟩
  · rw [content_setContent_ne hpx]

theorem Inv.sum_setText (hi : h.Inv) (hx : h.content x = .fragment u)
    {p l : ℕ} (hp : h.content p = .tree l cs) (hmem : x ∉ cs ∨ v.length = u.length) :
    l = (cs.map (h.setContent x (.fragment v)).length).sum := by
  rw [hi.lengths p l cs hp nofun]
  congr 1
  refine (map_congr_left fun d hd => length_setText hx d (hmem.imp (fun hn => ?_) id)).symm
  rintro rfl
  exact hn hd

theorem Inv.setFragment (hi : h.Inv) (hx : h.content x = .fragment u)
    (hend : h.AtEnd x ∨ v.length = u.length) (hstale : ∀ q, x ∈ h.children q → stale = some q) :
    (h.setContent x (.fragment v)).InvBut stale := by
  refine hi.of_children (children_setText hx) (parent_setContent x · _ h) rfl
    (fun p l cs hp => ⟨l, cs, (tree_setText hx p l cs).2 hp⟩) (fun y l cs hy hne => ?_)
    fun y c hmem => ?_
  · have hy' := (tree_setText hx y l cs).1 hy
    exact hi.sum_setText hx hy' (.inl fun hmem => hne (hstale y (by rwa [children_of_tree hy'])))
  · rw [length_setText hx c, hi.last y c hmem]
    refine hend.imp_left fun hend => ?_
    rintro rfl
    exact hend.not_mem_dropLast hi y hmem

theorem Inv.setText (hi : h.Inv) (hx : h.content x = .fragment u)
    (hend : h.AtEnd x ∨ v.length = u.length) :
    ∃ h', tellParent x (h.setContent x (.fragment v)) = some h' ∧ h'.Inv
      ∧ (h.setContent x (.fragment v)).SameTexts h' := by
  have hinv : (h.setContent x (.fragment v)).InvBut (h.parent x) :=
    hi.setFragment hx hend fun q => hi.parents q x
  unfold tellParent
  rw [parent_setContent]
  cases hp : h.parent x with
  | none =>
    rw [hp] at hinv
    exact ⟨_, rfl, hinv, .refl _⟩
  | some t =>
    obtain ⟨htlt, l, cs, ht⟩ := hi.parentTree x t hp
    rw [hp] at hinv
    refine hinv.recalculateLength ((tree_setText hx t l cs).2 ht) htlt ?_
    by_cases hsteady : x ∉ cs ∨ v.length = u.length
    · exact .inr (hi.sum_setText hx ht hsteady).symm
    · obtain ⟨hmem, hne⟩ := not_or.1 hsteady
      refine .inl ?_
      have hxt : x ∈ h.children t := by
        rw [children_of_tree ht]
        exact not_not.1 hmem
      have hendt := (hend.resolve_right hne).lister hxt
      intro z hz q hq
      rw [children_setText hx] at hq ⊢
      refine hendt z ?_ q hq
      unfold Within at hz ⊢
      simpa only [children_setText hx] using hz

theorem atEnd_of_unlisted (hx : ∀ q, x ∉ h.children q) : h.AtEnd x := by
  intro z hz q hq
  rcases Relation.ReflTransGen.cases_tail hz with rfl | ⟨p, -, hpx⟩
  · exact absurd hq (hx q)
  · exact absurd hpx (hx p)

theorem exists_rank (next : ℕ) (rank : ℕ → ℕ) (r : ℕ → ℕ → Prop)
    (hr : ∀ x c, r x c → rank c < rank x ∧ c < next ∧ x < next) :
    ∃ rank' : ℕ → ℕ, (∀ x c, r x c → rank' c < rank' x) ∧ ∀ x < next, rank' x < next := by
  refine ⟨fun x => ((Finset.range next).filter fun z => rank z < rank x).card,
    fun x c hxc => ?_, fun x hx => ?_⟩
  · obtain ⟨hlt, hc, -⟩ := hr x c hxc
    refine Finset.card_lt_card ⟨fun z hz => ?_, fun hsub => ?_⟩
    · rw [Finset.mem_filter] at hz ⊢
      exact ⟨hz.1, hz.2.trans hlt⟩
    · have := (Finset.mem_filter.1 (hsub (Finset.mem_filter.2 ⟨Finset.mem_range.2 hc, hlt⟩))).2
      exact absurd this (lt_irrefl _)
  · refine lt_of_lt_of_eq (Finset.card_lt_card ⟨Finset.filter_subset _ _, fun hsub => ?_⟩)
      (Finset.card_range next)
    have := (Finset.mem_filter.1 (hsub (Finset.mem_range.2 hx))).2
    exact absurd this (lt_irrefl _)

theorem children_setContent (x l : ℕ) (cs : List ℕ) (h : TextHeap κ ν) :
    (h.setContent x (.tree l cs)).children x = cs := children_of_tree (content_setContent ..)

/-- New children that do not contain the tree can be ordered below it, as the old ones are. -/
theorem Inv.ranked_setChildren (hi : h.Inv)
    (hx : h.content x = .tree l cs) (cs' : List ℕ) (hlt : x < h.next)
    (hbound : ∀ c ∈ cs', c < h.next) (hnew : ∀ c ∈ cs', c ∈ cs ∨ ¬ h.Within c x) :
    ∃ rank, h.Ranked rank ∧ (h.setContent x (.tree l cs')).Ranked rank
      ∧ ∀ y < h.next, rank y < h.next := by
  classical
  obtain ⟨rank, hr, hb⟩ := hi.ranked
  -- what contains the tree is raised above all others
  have hold : ∀ y c, c ∈ h.children y →
      rank c + (if h.Within c x then h.next else 0)
        < rank y + if h.Within y x then h.next else 0 := by
    intro y c hc
    have hlt' := (hr y c hc).1
    by_cases hcx : h.Within c x
    · rw [if_pos hcx, if_pos (show h.Within y x from .head hc hcx)]
      omega
    · rw [if_neg hcx]
      omega
  obtain ⟨rank', hr', hb'⟩ := exists_rank h.next
    (fun z => rank z + if h.Within z x then h.next else 0)
    (fun y c => c ∈ h.children y ∨ y = x ∧ c ∈ cs') fun y c hc => by
      rcases hc with hc | ⟨rfl, hc⟩
      · exact ⟨hold y c hc, (hi.bound y c hc).2, (hi.bound y c hc).1⟩
      · refine ⟨?_, hbound c hc, hlt⟩
        rcases hnew c hc with hc' | hout
        · exact hold y c (by rwa [children_of_tree hx])
        · have := hb c (hbound c hc)
          rw [if_neg hout, if_pos (show h.Within y y from .refl)]
          omega
  refine ⟨rank', fun y c hc => ⟨hr' y c (.inl hc), hb' y (hi.bound y c hc).1⟩,
    fun y c hc => ?_, hb'⟩
  by_cases hyx : y = x
  · subst hyx
    rw [children_setContent] at hc
    exact ⟨hr' y c (.inr ⟨rfl, hc⟩), hb' y hlt⟩
  · rw [children_setContent_ne hyx] at hc
    exact ⟨hr' y c (.inl hc), hb' y (hi.bound y c hc).1⟩

theorem length_setChildren (hx : h.content x = .tree l cs) (cs' : List ℕ) (y : ℕ) :
    (h.setContent x (.tree l cs')).length y = h.length y := by
  by_cases hyx : y = x
  · subst hyx
    rw [length_of_tree (content_setContent ..), length_of_tree hx]
  · exact length_setContent_ne hyx _ h

theorem Inv.setChildren (hi : h.Inv) {cs cs' : List ℕ} (hx : h.content x = .tree l cs)
    (hlt : x < h.next) (hparents : ∀ c ∈ cs', h.parent c = some x) (hnodup : cs'.Nodup)
    (hlast : ∀ c ∈ cs'.dropLast, h.length c = 0) (hbound : ∀ c ∈ cs', c < h.next)
    (hnew : ∀ c ∈ cs', c ∈ cs ∨ ¬ h.Within c x) :
    (h.setContent x (.tree l cs')).InvBut (some x) := by
  have hlen := length_setChildren hx cs'
  -- a statement about the children of all trees follows from one about the new children
  have hall : ∀ {p : ℕ → List ℕ → Prop}, (∀ y, p y (h.children y)) → p x cs' →
      ∀ y, p y ((h.setContent x (.tree l cs')).children y) := by
    intro p hp hpx y
    by_cases hyx : y = x
    · subst hyx
      rwa [children_setContent]
    · rw [children_setContent_ne hyx]
      exact hp y
  exact {
    lengths := by
      intro y l₁ ds hy hne
      have hyx : y ≠ x := fun heq => hne (congrArg some heq.symm)
      rw [content_setContent_ne hyx] at hy
      rw [hi.lengths y l₁ ds hy nofun, funext hlen]
    parents := by
      refine hall (p := fun y ds => ∀ c ∈ ds, (h.setContent x (.tree l cs')).parent c = some y)
        (fun y c hc => ?_) fun c hc => ?_
      · rw [parent_setContent, hi.parents y c hc]
      · rw [parent_setContent, hparents c hc]
    nodup := hall (p := fun _ ds => ds.Nodup) hi.nodup hnodup
    last := by
      refine hall (p := fun _ ds => ∀ c ∈ ds.dropLast, (h.setContent x (.tree l cs')).length c = 0)
        (fun y c hc => ?_) fun c hc => ?_
      · rw [hlen, hi.last y c hc]
      · rw [hlen, hlast c hc]
    bound := hall (p := fun y ds => ∀ c ∈ ds, y < h.next ∧ c < h.next) hi.bound
      fun c hc => ⟨hlt, hbound c hc⟩
    parentTree := by
      intro y p hp
      rw [parent_setContent] at hp
      obtain ⟨hplt, l₁, ds, hpc⟩ := hi.parentTree y p hp
      refine ⟨hplt, ?_⟩
      by_cases hpx : p = x
      · subst hpx
        exact ⟨l, cs', content_setContent ..⟩
      · exact ⟨l₁, ds, by rwa [content_setContent_ne hpx]⟩
    ranked := by
      obtain ⟨rank, -, hr, hb⟩ := hi.ranked_setChildren hx cs' hlt hbound hnew
      exact ⟨rank, hr, hb⟩ }

theorem AtEnd.setContent (hend : h.AtEnd x) {c : TextContent}
    (hr : (h.setContent x c).Ranked rank) : (h.setContent x c).AtEnd x := by
  intro z hz q hq
  have hold : h.Within z x := by
    refine Relation.ReflTransGen.head_induction_on hz .refl fun {a b} hab _ ih => ?_
    by_cases hax : a = x
    · subst hax
      exact .refl
    · rw [children_setContent_ne hax] at hab
      exact .head hab ih
  by_cases hqx : q = x
  · subst hqx
    exact absurd hz (hr.not_within hq)
  · rw [children_setContent_ne hqx] at hq ⊢
    exact hend z hold q hq

theorem content_setParent (x y : ℕ) (p : Option ℕ) (h : TextHeap κ ν) :
    (h.setParent x p).content y = h.content y := by
  by_cases hy : y = x
  · subst hy
    simp [content, setParent, update]
  · simp [content, setParent, update, update_of_ne hy]

theorem attributes_setParent (x y : ℕ) (p : Option ℕ) (h : TextHeap κ ν) :
    (h.setParent x p).attributes y = h.attributes y := by
  by_cases hy : y = x
  · subst hy
    simp [attributes, setParent, update]
  · simp [attributes, setParent, update, update_of_ne hy]

theorem parent_setParent (x : ℕ) (p : Option ℕ) (h : TextHeap κ ν) :
    (h.setParent x p).parent x = p := by
  simp [parent, setParent, update]

theorem parent_setParent_ne (hne : y ≠ x) (p : Option ℕ) (h : TextHeap κ ν) :
    (h.setParent x p).parent y = h.parent y := by
  simp [parent, setParent, update, update_of_ne hne]

theorem children_setParent (x y : ℕ) (p : Option ℕ) (h : TextHeap κ ν) :
    (h.setParent x p).children y = h.children y := by
  unfold children
  rw [content_setParent]

theorem length_setParent (x y : ℕ) (p : Option ℕ) (h : TextHeap κ ν) :
    (h.setParent x p).length y = h.length y := by
  unfold length
  rw [content_setParent]

theorem setContent_setParent (hne : y ≠ x) (c : TextContent) (p : Option ℕ) (h : TextHeap κ ν) :
    (h.setParent y p).setContent x c = (h.setContent x c).setParent y p := by
  simp only [setContent, setParent, update, TextHeap.mk.injEq, and_true,
    update_of_ne hne, update_of_ne hne.symm]
  exact update_comm hne _ _ _

theorem setContent_setContent (x : ℕ) (c c' : TextContent) (h : TextHeap κ ν) :
    (h.setContent x c).setContent x c' = h.setContent x c' := by
  simp [setContent, update]

theorem Inv.setParent (hi : h.Inv) (hx : h.content x = .tree l cs)
    (hlt : x < h.next) (hy : ∀ q, y ∉ h.children q) : (h.setParent y (some x)).Inv where
  lengths z l₁ ds hz hne := by
    rw [content_setParent] at hz
    rw [hi.lengths z l₁ ds hz hne, funext fun d => length_setParent y d (some x) h]
  parents z c hc := by
    rw [children_setParent] at hc
    rw [parent_setParent_ne, hi.parents z c hc]
    rintro rfl
    exact hy z hc
  nodup z := by
    rw [children_setParent]
    exact hi.nodup z
  last z c hc := by
    rw [children_setParent] at hc
    rw [length_setParent, hi.last z c hc]
  bound z c hc := by
    rw [children_setParent] at hc
    exact hi.bound z c hc
  parentTree z p hp := by
    rw [content_setParent]
    by_cases hzy : z = y
    · subst hzy
      rw [parent_setParent] at hp
      obtain rfl := some.inj hp
      exact ⟨hlt, l, cs, hx⟩
    · rw [parent_setParent_ne hzy] at hp
      exact hi.parentTree z p hp
  ranked := by
    obtain ⟨rank, hr, hb⟩ := hi.ranked
    refine ⟨rank, fun z c hc => ?_, hb⟩
    rw [children_setParent] at hc
    exact hr z c hc

structure ChangedAt (h h' : TextHeap κ ν) (x : ℕ) : Prop where
  same : ∀ z, z ≠ x → h.SameAt h' z
  attributes : h'.attributes x = h.attributes x
  next : h'.next = h.next

theorem ChangedAt.setContent (x : ℕ) (c : TextContent) (hs : (h.setContent x c).SameTexts h') :
    h.ChangedAt h' x where
  same z hz := (sameAt_setContent_ne hz c h).trans (hs.same z)
  attributes := (hs.same x).attributes.trans (attributes_setContent ..)
  next := hs.next

theorem Inv.appendTextFragment (hi : h.Inv) (hx : h.content x = .tree 0 cs)
    (hlt : x < h.next) (hy : y < h.next) (hfree : ∀ q, y ∉ h.children q) (hout : ¬ h.Within y x)
    (hend : h.AtEnd x ∨ h.length y = 0) :
    ∃ h', h.appendTextFragment x y = some h' ∧ h'.Inv ∧ h.ChangedAt h' x
      ∧ ∃ l, h'.content x = .tree l (cs ++ [y]) := by
  have hne : y ≠ x := by
    rintro rfl
    exact hout .refl
  have hzero : ∀ c ∈ cs, h.length c = 0 := fun c hc => by
    have hsum := hi.lengths x 0 cs hx nofun
    have hle := single_le_sum (fun _ _ => Nat.zero_le _) _
      (mem_map_of_mem (f := h.length) hc)
    omega
  have hsum : ((cs ++ [y]).map (h.setParent y (some x)).length).sum = 0 + h.length y := by
    rw [funext fun d => length_setParent y d (some x) h, map_append, sum_append,
      ← hi.lengths x 0 cs hx nofun]
    simp
  have hi₀ := hi.setParent hx hlt hfree
  have hx₀ : (h.setParent y (some x)).content x = .tree 0 cs := by rwa [content_setParent]
  have hw : ∀ a b, (h.setParent y (some x)).Within a b ↔ h.Within a b := fun a b => by
    unfold Within
    simp only [children_setParent]
  have hinv : ((h.setParent y (some x)).setContent x (.tree 0 (cs ++ [y]))).InvBut (some x) := by
    refine hi₀.setChildren hx₀ hlt (fun c hc => ?_) ?_ (fun c hc => ?_) (fun c hc => ?_)
      fun c hc => ?_
    · rcases mem_append.1 hc with hc | hc
      · exact hi₀.parents x c (by rwa [children_of_tree hx₀])
      · obtain rfl := mem_singleton.1 hc
        exact parent_setParent ..
    · have hnodup := hi.nodup x
      rw [children_of_tree hx] at hnodup
      refine nodup_append.2 ⟨hnodup, nodup_singleton _, ?_⟩
      rintro a ha b hb rfl
      obtain rfl := mem_singleton.1 hb
      exact hfree x (by rwa [children_of_tree hx])
    · rw [dropLast_concat] at hc
      rw [length_setParent, hzero c hc]
    · rcases mem_append.1 hc with hc | hc
      · exact (hi.bound x c (by rwa [children_of_tree hx])).2
      · obtain rfl := mem_singleton.1 hc
        exact hy
    · rcases mem_append.1 hc with hc | hc
      · exact .inl hc
      · obtain rfl := mem_singleton.1 hc
        exact .inr (fun hcx => hout ((hw _ _).1 hcx))
  obtain ⟨rank, hr, hb⟩ := hinv.ranked
  have hend' : ((h.setParent y (some x)).setContent x (.tree 0 (cs ++ [y]))).AtEnd x
      ∨ ((cs ++ [y]).map (h.setParent y (some x)).length).sum = 0 := by
    rw [hsum, Nat.zero_add]
    refine hend.imp_left fun hend => AtEnd.setContent (fun z hz q hq => ?_) hr
    rw [children_setParent] at hq ⊢
    exact hend z ((hw _ _).1 hz) q hq
  have hlen := funext (length_setChildren hx₀ (cs ++ [y]))
  rw [← hlen] at hsum hend'
  obtain ⟨h', heq, hinv', hs⟩ := InvBut.repair (h := h) hb (h.next + 1)
    (show ((h.setParent y (some x)).setContent x (.tree 0 (cs ++ [y]))).next = h.next from rfl)
    hr hinv (content_setContent ..) hend' hlt (by omega)
  rw [hsum, setContent_setContent, parent_setContent, parent_setParent_ne hne.symm,
    setContent_setParent hne] at heq
  rw [setContent_setParent hne] at hs
  refine ⟨h', ?_, hinv', ?_, ?_⟩
  · unfold TextHeap.appendTextFragment
    rw [hx]
    unfold tellParent
    rw [← heq]
    dsimp only
    rw [parent_setParent_ne hne.symm, parent_setContent]
    rfl
  · refine ⟨fun z hz => ?_, ?_, hs.next⟩
    · have hz' := hs.same z
      refine ⟨hz'.attributes.trans ?_, fun text htext => hz'.fragment text ?_,
        fun l ds htree => hz'.tree l ds ?_⟩
      · rw [attributes_setParent, attributes_setContent]
      · rwa [content_setParent, content_setContent_ne hz]
      · rwa [content_setParent, content_setContent_ne hz]
    · rw [(hs.same x).attributes, attributes_setParent, attributes_setContent]
  · obtain ⟨l, hl⟩ := (hs.same x).tree 0 (cs ++ [y]) (by
      rw [content_setParent, content_setContent])
    exact ⟨l, hl⟩

end Etoile.EtoileText.TextHeap
