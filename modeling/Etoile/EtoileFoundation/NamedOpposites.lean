import Etoile.EtoileFoundation.Opposites
import Etoile.EtoileFoundation.ResolvedReferences

/-!
# Opposites given by name

Two property descriptions become opposites when the name that one of them has for the other is
resolved.  What the other has for the first is resolved with it.
-/

namespace Etoile.EtoileFoundation

open Finset Function Option

namespace Properties

variable {P E : Type} [DecidableEq P] {s : Properties P E} {p q : P} {x : Ref P}

theorem setOpposite_same (fuel : ℕ) (hq : s.opposite q = x) (hx : x.isString = false) :
    setOpposite (fuel + 1) s (.object q) x = some s := by
  rw [setOpposite]
  dsimp only
  rw [withoutString_eq (by rw [hq]; exact hx), hx, if_neg (by simp), if_pos (.inr (.inl hq.symm))]

theorem setOpposite_own (fuel : ℕ) (hp : (s.opposite p).isString = true) :
    setOpposite (fuel + 1) s (.object p) (.object p) = some (s.putOpposite p .null) := by
  rw [setOpposite]
  dsimp only
  rw [if_neg (by simp [Ref.isString]), if_pos (.inr (.inr rfl))]
  unfold withoutString
  rw [if_pos hp]

theorem setOpposite_named (fuel : ℕ) (hp : (s.opposite p).isString = true)
    (hidle : s.isSettingOpposite p = false) (hne : p ≠ q) :
    setOpposite (fuel + 2) s (.object p) (.object q)
      = let t := ((s.putOpposite p (.object q)).setType p (s.owner q)).putSetting p true
        (setOpposite (fuel + 1) t (.object q) (.object p)).map fun s => s.putSetting p false := by
  have hwithout : s.withoutString p = s.putOpposite p .null := by
    unfold withoutString
    rw [if_pos hp]
  have hnull : (s.putOpposite p .null).opposite p = .null := update_self ..
  rw [setOpposite_eq (fuel + 1) hidle rfl (by rw [hwithout, hnull]; simp)
    (by simpa using hne.symm), hwithout, hnull]
  dsimp only
  rw [setOpposite_null, bind_some]
  have hput : ((s.putOpposite p .null).putSetting p true).putOpposite p (.object q)
      = (s.putOpposite p (.object q)).putSetting p true := by
    unfold putOpposite putSetting
    rw [update_idem]
  rw [hput]
  show (setOpposite (fuel + 1) _ (update s.opposite p (.object q) p) (.object p)).map _ = _
  rw [update_self]
  rfl

theorem setOpposite_taken (fuel : ℕ) (hp : s.opposite p = .object q)
    (hidle : s.isSettingOpposite q = false) (hne : p ≠ q) (hq : ∀ r, s.opposite q ≠ .object r) :
    setOpposite (fuel + 2) s (.object q) (.object p)
      = some ((s.putOpposite q (.object p)).setType q (s.owner p)) := by
  have hnull : (s.withoutString q).opposite q = .null := by
    rcases opposite_withoutString (s := s) (p := q) with ⟨hnull, -⟩ | ⟨r, hr, -⟩
    · exact hnull
    · exact absurd hr (hq r)
  have hput : ((s.withoutString q).putSetting q true).putOpposite q (.object p)
      = (s.putOpposite q (.object p)).putSetting q true := by
    unfold withoutString putOpposite putSetting
    split_ifs
    · dsimp only
      rw [update_idem]
    · rfl
  rw [setOpposite_eq (fuel + 1) hidle rfl (by rw [hnull]; simp) (by simpa using hne), hnull, hput]
  dsimp only
  rw [setOpposite_null, bind_some]
  show (setOpposite (fuel + 1) _ (update s.opposite q (.object p) q) (.object q)).map _ = _
  rw [update_self, setOpposite_same fuel ((update_of_ne hne ..).trans hp) rfl,
    map_some]
  refine congrArg some ?_
  show Properties.mk _ (update (update s.isSettingOpposite q true) q false) _ _
    = _
  rw [update_update_setting hidle]
  rfl

theorem setOpposite_string (fuel : ℕ) (hp : (s.opposite p).isString = true)
    (hidle : ∀ x, s.isSettingOpposite x = false) (hne : p ≠ q)
    (hq : s.opposite q = .object p ∨ ∀ r, s.opposite q ≠ .object r) :
    setOpposite (fuel + 4) s (.object p) (.object q) = some { s with
      opposite := update (update s.opposite p (.object q)) q (.object p)
      type := if s.opposite q = .object p then update s.type p (s.owner q)
        else update (update s.type p (s.owner q)) q (s.owner p) } := by
  rw [setOpposite_named (fuel + 2) hp (hidle p) hne]
  dsimp only
  let t := ((s.putOpposite p (.object q)).setType p (s.owner q)).putSetting p true
  have htp : t.opposite p = .object q := update_self ..
  have htq : t.opposite q = s.opposite q := update_of_ne hne.symm ..
  show (setOpposite (fuel + 3) t (.object q) (.object p)).map _ = _
  have hdown := update_update_setting (hidle p)
  rcases hq with hq | hq
  · rw [setOpposite_same (fuel + 2) (htq.trans hq) rfl, if_pos hq, map_some]
    refine congrArg some ?_
    show Properties.mk (update s.opposite p (.object q))
      (update (update s.isSettingOpposite p true) p false) _ _ = _
    have hself : update (update s.opposite p (.object q)) q (.object p)
        = update s.opposite p (.object q) := by
      rw [← hq, ← htq]
      exact update_eq_self q _
    rw [hdown, hself]
    rfl
  · have hidle' : t.isSettingOpposite q = false :=
      (update_of_ne hne.symm ..).trans (hidle q)
    rw [setOpposite_taken (fuel + 1) htp hidle' hne fun r => htq ▸ hq r, if_neg (hq p),
      map_some]
    refine congrArg some ?_
    show Properties.mk _
      (update (update s.isSettingOpposite p true) p false) _ _ = _
    rw [hdown]
    rfl

end Properties

namespace Elements

variable {D : Type} [DecidableEq D] {m : Elements D} {s t : NamedGraph D} {g : ModelGraph D}
  {fuel : ℕ} {p q x y : D} {entered parented typed linked : Finset D}

theorem Linked.symm (h : m.Linked s linked x y) : m.Linked s linked y x :=
  ⟨h.1.symm, h.2.symm⟩

theorem linked_insert (h : m.Linked s (insert p linked) x y) :
    m.Linked s linked x y ∨ x = p ∧ m.ByName s p y ∨ y = p ∧ m.ByName s p x := by
  obtain ⟨hne, ⟨hx, hname⟩ | ⟨hy, hname⟩⟩ := h
  · rcases mem_insert.1 hx with rfl | hx
    · exact .inr (.inl ⟨rfl, hname⟩)
    · exact .inl ⟨hne, .inl ⟨hx, hname⟩⟩
  · rcases mem_insert.1 hy with rfl | hy
    · exact .inr (.inr ⟨rfl, hname⟩)
    · exact .inl ⟨hne, .inr ⟨hy, hname⟩⟩

theorem Linked.mono (h : m.Linked s linked x y) : m.Linked s (insert p linked) x y := by
  obtain ⟨hne, ⟨hx, hname⟩ | ⟨hy, hname⟩⟩ := h
  · exact ⟨hne, .inl ⟨mem_insert_of_mem hx, hname⟩⟩
  · exact ⟨hne, .inr ⟨mem_insert_of_mem hy, hname⟩⟩

theorem ByName.opposed (h : m.ByName s x y) (hx : x ∈ m.properties) : m.Opposed s x y := by
  obtain ⟨n, hn, hmeant⟩ := h
  exact .inr ⟨hx, n, hn, hmeant.2⟩

theorem Progress.skip (h : m.Progress s entered parented typed linked g)
    (hlink : ∀ y, p ≠ y → m.ByName s p y → m.Linked s linked p y) (hself : ¬ m.ByName s p p) :
    m.Progress s entered parented typed (insert p linked) g := by
  have hiff : ∀ x y, m.Linked s (insert p linked) x y ↔ m.Linked s linked x y := by
    intro x y
    refine ⟨fun hxy => ?_, Linked.mono⟩
    rcases linked_insert hxy with hxy' | ⟨rfl, hname⟩ | ⟨rfl, hname⟩
    · exact hxy'
    · exact hlink y hxy.1 hname
    · exact (hlink x hxy.1.symm hname).symm
  refine { h with
    link := fun x y hxy => h.link x y ((hiff x y).1 hxy)
    self := fun x hx hname => ?_
    opposite := fun x hnot hx => ?_
    linkedType := fun x y hxy => h.linkedType x y ((hiff x y).1 hxy)
    type := fun x hall => h.type x fun y hxy => hall y hxy.mono }
  · rcases mem_insert.1 hx with rfl | hx
    · exact absurd hname hself
    · exact h.self x hx hname
  · exact h.opposite x (fun y hxy => hnot y hxy.mono) fun hin => hx (mem_insert_of_mem hin)

theorem Progress.own_step (h : m.Progress s entered parented typed linked g)
    (hname : m.ByName s p p) (hnot : ∀ y, ¬ m.Linked s linked p y) :
    m.Progress s entered parented typed (insert p linked)
      { g with opposite := update g.opposite p .null } := by
  have hiff : ∀ x y, m.Linked s (insert p linked) x y ↔ m.Linked s linked x y := by
    intro x y
    refine ⟨fun hxy => ?_, Linked.mono⟩
    rcases linked_insert hxy with hxy' | ⟨rfl, hname'⟩ | ⟨rfl, hname'⟩
    · exact hxy'
    · exact absurd (hname.unique hname') hxy.1
    · exact absurd (hname.unique hname') hxy.1.symm
  refine { h with
    link := fun x y hxy => ?_
    self := fun x hx hname' => ?_
    opposite := fun x hnot' hx => ?_
    linkedType := fun x y hxy => h.linkedType x y ((hiff x y).1 hxy)
    type := fun x hall => h.type x fun y hxy => hall y hxy.mono }
  · have hxy' := (hiff x y).1 hxy
    refine (update_of_ne ?_ ..).trans (h.link x y hxy')
    rintro rfl
    exact hnot y hxy'
  · show update g.opposite p .null x = .null
    rw [update_apply]
    split_ifs with hxp
    · rfl
    · exact h.self x ((mem_insert.1 hx).resolve_left hxp) hname'
  · refine (update_of_ne ?_ ..).trans
      (h.opposite x (fun y hxy => hnot' y hxy.mono) fun hin => hx (mem_insert_of_mem hin))
    rintro rfl
    exact hx (mem_insert_self ..) hname

/-- `p` has `q` as its opposite by name, and neither of them is linked yet. -/
theorem Progress.link_step (h : m.Progress s entered parented typed linked g)
    (hname : m.ByName s p q) (hne : p ≠ q) (hp : ∀ y, ¬ m.Linked s linked p y)
    (hq : ∀ y, ¬ m.Linked s linked q y) (hself : q ∈ linked → ¬ m.ByName s q q) :
    m.Progress s entered parented typed (insert p linked) { g with
      opposite := update (update g.opposite p (.object q)) q (.object p)
      type := if s.opposite q = .object p then update g.type p (g.owner q)
        else update (update g.type p (g.owner q)) q (g.owner p) } := by
  have hpq : m.Linked s (insert p linked) p q :=
    ⟨hne, .inl ⟨mem_insert_self .., hname⟩⟩
  have hcases : ∀ x y, m.Linked s (insert p linked) x y →
      m.Linked s linked x y ∧ x ≠ p ∧ x ≠ q ∨ x = p ∧ y = q ∨ x = q ∧ y = p := by
    intro x y hxy
    rcases linked_insert hxy with hxy' | ⟨rfl, hname'⟩ | ⟨rfl, hname'⟩
    · refine .inl ⟨hxy', ?_, ?_⟩
      · rintro rfl
        exact hp y hxy'
      · rintro rfl
        exact hq y hxy'
    · exact .inr (.inl ⟨rfl, hname'.unique hname⟩)
    · exact .inr (.inr ⟨hname'.unique hname, rfl⟩)
  have hopposite : ∀ x, x ≠ p → x ≠ q →
      update (update g.opposite p (.object q)) q (.object p) x
        = g.opposite x := by
    intro x hxp hxq
    rw [update_of_ne hxq, update_of_ne hxp]
  have htype : ∀ x, x ≠ p → x ≠ q ∨ s.opposite q = .object p →
      (if s.opposite q = .object p then update g.type p (g.owner q)
        else update (update g.type p (g.owner q)) q (g.owner p)) x
        = g.type x := by
    intro x hxp hxq
    split_ifs with hobject
    · exact update_of_ne hxp ..
    · rw [update_of_ne (hxq.resolve_right hobject), update_of_ne hxp]
  have htypep : (if s.opposite q = .object p then update g.type p (g.owner q)
        else update (update g.type p (g.owner q)) q (g.owner p)) p
      = g.owner q := by
    split_ifs
    · exact update_self ..
    · rw [update_of_ne hne, update_self]
  refine { h with
    link := fun x y hxy => ?_
    self := fun x hx hname' => ?_
    opposite := fun x hnot hx => ?_
    linkedType := fun x y hxy hobject => ?_
    type := fun x hall => ?_ }
  · rcases hcases x y hxy with ⟨hxy', hxp, hxq⟩ | ⟨rfl, rfl⟩ | ⟨rfl, rfl⟩
    · exact (hopposite x hxp hxq).trans (h.link x y hxy')
    · exact (update_of_ne hne ..).trans (update_self ..)
    · exact update_self ..
  · have hxp : x ≠ p := by
      rintro rfl
      exact hne (hname'.unique hname)
    have hx := (mem_insert.1 hx).resolve_left hxp
    have hxq : x ≠ q := by
      rintro rfl
      exact hself hx hname'
    exact (hopposite x hxp hxq).trans (h.self x hx hname')
  · have hxp : x ≠ p := by
      rintro rfl
      exact hnot q hpq
    have hxq : x ≠ q := by
      rintro rfl
      exact hnot p hpq.symm
    exact (hopposite x hxp hxq).trans
      (h.opposite x (fun y hxy => hnot y hxy.mono) fun hin => hx (mem_insert_of_mem hin))
  · rcases hcases x y hxy with ⟨hxy', hxp, hxq⟩ | ⟨rfl, rfl⟩ | ⟨rfl, rfl⟩
    · exact (htype x hxp (.inl hxq)).trans (h.linkedType x y hxy' hobject)
    · exact htypep
    · exact (congrFun (if_neg hobject) x).trans (update_self ..)
  · have hxp : x ≠ p := by
      rintro rfl
      have hstring := hall q hpq
      obtain ⟨n, hn, -⟩ := hname
      rw [hn] at hstring
      cases hstring
    have hxq : x ≠ q ∨ s.opposite q = .object p := by
      by_cases hxq : x = q
      · subst hxq
        exact .inr (hall p hpq.symm)
      · exact .inl hxq
    have hold := h.type x fun y hxy => hall y hxy.mono
    rw [← htype x hxp hxq] at hold
    exact hold

/-- A property description that is not resolved yet is linked with its opposite at most. -/
theorem OppositesAgree.linked_eq (hagree : m.OppositesAgree s) (hlinked : linked ⊆ m.properties)
    (hp : p ∈ m.properties) (hnot : p ∉ linked) (hname : m.ByName s p q)
    (h : m.Linked s linked p y) : y = q := by
  obtain ⟨-, ⟨hin, -⟩ | ⟨hy, hyname⟩⟩ := h
  · exact absurd hin hnot
  · exact ((hagree y p (hyname.opposed (hlinked hy))).2 q (hname.opposed hp)).symm

theorem OppositesAgree.linked_of_opposite (hagree : m.OppositesAgree s)
    (hlinked : linked ⊆ m.properties) (hp : p ∈ m.properties) (hname : m.ByName s p q)
    (h : m.Linked s linked q y) : y = p := by
  obtain ⟨-, ⟨hq, hqname⟩ | ⟨hy, hyname⟩⟩ := h
  · exact (hagree p q (hname.opposed hp)).2 y (hqname.opposed (hlinked hq))
  · exact (hagree p q (hname.opposed hp)).1 y (hyname.opposed (hlinked hy))

theorem resolve_opposite (hnamed : m.WellNamed s) (hkinded : m.WellKinded s)
    (hagree : m.OppositesAgree s) (hp : p ∈ m.properties) (hlinked : linked ⊆ m.properties)
    (hnot : p ∉ linked) (h : m.Progress s entered parented typed linked t.toModelGraph)
    (hdir : m.Directory s m.added t.descriptionsByName) :
    ∃ t', m.resolveProperty t (fuel + 4) .opposite p false = some t'
      ∧ m.Progress s entered parented typed (insert p linked) t'.toModelGraph
      ∧ t'.descriptionsByName = t.descriptionsByName := by
  by_cases hlink : ∃ y, m.Linked s linked p y
  · -- the opposite has been resolved, and has set this one's
    obtain ⟨y, hpy⟩ := hlink
    have hvalue : t.valueForKey .opposite p = .object y := h.link p y hpy
    refine ⟨t, resolveProperty_of_settled (by rw [hvalue]; rfl), h.skip (fun q hne hname => ?_)
      fun hname => ?_, rfl⟩
    · rw [← hagree.linked_eq hlinked hp hnot hname hpy]
      exact hpy
    · exact hpy.1 (hagree.linked_eq hlinked hp hnot hname hpy).symm
  · have hfree : ∀ y, ¬ m.Linked s linked p y := fun y hpy => hlink ⟨y, hpy⟩
    have hvalue : t.valueForKey .opposite p = s.opposite p :=
      h.opposite p hfree fun hin => absurd hin hnot
    cases hs : s.opposite p with
    | null | object o =>
      have hnone : ∀ q, ¬ m.ByName s p q := by
        rintro q ⟨n, hn, -⟩
        rw [hs] at hn
        cases hn
      exact ⟨t, resolveProperty_of_settled (by rw [hvalue, hs]; rfl),
        h.skip (fun q _ hname => absurd hname (hnone q)) (hnone p), rfl⟩
    | string n =>
      obtain ⟨q, hmeant⟩ := hnamed.meant .opposite p hp n hs
      have hname : m.ByName s p q := ⟨n, hs, hmeant⟩
      have hstring : (t.opposite p).isString = true := by
        show (t.valueForKey .opposite p).isString = true
        rw [hvalue, hs]
        rfl
      have hcall : m.resolveProperty t (fuel + 4) .opposite p false
          = (t.toProperties.setOpposite (fuel + 4) (.object p) (.object q)).map
            fun properties => { t with toProperties := properties } := by
        unfold resolveProperty
        rw [hvalue, hs]
        dsimp only
        rw [hdir.found hmeant.2 id]
        dsimp only
        unfold setValue
        dsimp only
        rw [if_pos hmeant.1]
      by_cases hpq : p = q
      · subst hpq
        rw [hcall, Properties.setOpposite_own (fuel + 3) hstring, map_some]
        exact ⟨_, rfl, h.own_step hname hfree, rfl⟩
      · have hqfree : ∀ y, ¬ m.Linked s linked q y := by
          intro y hqy
          obtain rfl := hagree.linked_of_opposite hlinked hp hname hqy
          exact hfree q hqy.symm
        have hqself : q ∈ linked → ¬ m.ByName s q q := fun hq hqname => hpq
          ((hagree p q (hname.opposed hp)).2 q (hqname.opposed (hlinked hq))).symm
        have hq : t.opposite q = s.opposite q := h.opposite q hqfree hqself
        have hqobject : t.opposite q = .object p ∨ ∀ r, t.opposite q ≠ .object r := by
          rw [hq]
          by_contra hno
          rw [not_or] at hno
          refine hno.2 fun r hr => hno.1 ?_
          rw [hr, (hagree p q (hname.opposed hp)).2 r (.inl hr)]
        have hidle : ∀ x, t.isSettingOpposite x = false := by
          intro x
          rw [h.idle]
          exact hkinded.idle x
        rw [hcall, Properties.setOpposite_string fuel hstring hidle hpq hqobject, map_some]
        refine ⟨_, rfl, ?_, rfl⟩
        have hnext := h.link_step hname hpq hfree hqfree hqself
        rw [← hq] at hnext
        exact hnext

end Elements

end Etoile.EtoileFoundation
