import Etoile.EtoileFoundation.ETPropertyDescription
import Etoile.Lib.Fuel

/-!
# Opposites

Two property descriptions that are opposites refer to each other, as long as none that has an
opposite is given a name in its place.
-/

namespace Etoile.EtoileFoundation.Properties

open Function

variable {P E : Type} {s : Properties P E} {p q x y : P} {opposite : Ref P}

/-- Opposites refer to each other, and no property is the opposite of two. -/
structure Matching (s : Properties P E) : Prop where
  symm : ∀ p q, s.opposite p = .object q → s.opposite q = .object p
  unique : ∀ p q r, s.opposite p = .object r → s.opposite q = .object r → p = q

structure Inv (s : Properties P E) : Prop where
  symm : ∀ p q, s.opposite p = .object q → s.opposite q = .object p
  irrefl : ∀ p, s.opposite p ≠ .object p
  idle : ∀ p, s.isSettingOpposite p = false

theorem Inv.matching (h : Inv s) : Matching s := by
  refine ⟨h.symm, fun p q r hp hq => ?_⟩
  have hr := (h.symm p r hp).symm.trans (h.symm q r hq)
  exact Ref.object.inj hr

theorem inv_init (owner type : P → Ref E) : Inv ({ owner, type } : Properties P E) :=
  ⟨fun _ _ h => (by cases h), fun _ h => (by cases h), fun _ => rfl⟩

variable [DecidableEq P]

@[simp] theorem opposite_putOpposite (s : Properties P E) (p : P) (opposite : Ref P) :
    (s.putOpposite p opposite).opposite = update s.opposite p opposite := rfl

@[simp] theorem isSetting_putOpposite (s : Properties P E) (p : P) (opposite : Ref P) :
    (s.putOpposite p opposite).isSettingOpposite = s.isSettingOpposite := rfl

@[simp] theorem opposite_putSetting (s : Properties P E) (p : P) (b : Bool) :
    (s.putSetting p b).opposite = s.opposite := rfl

@[simp] theorem isSetting_putSetting (s : Properties P E) (p : P) (b : Bool) :
    (s.putSetting p b).isSettingOpposite = update s.isSettingOpposite p b := rfl

@[simp] theorem opposite_setType (s : Properties P E) (p : P) (e : Ref E) :
    (s.setType p e).opposite = s.opposite := rfl

@[simp] theorem isSetting_setType (s : Properties P E) (p : P) (e : Ref E) :
    (s.setType p e).isSettingOpposite = s.isSettingOpposite := rfl

theorem withoutString_eq (h : (s.opposite p).isString = false) : s.withoutString p = s := by
  unfold withoutString
  rw [h]
  rfl

theorem isSetting_withoutString : (s.withoutString p).isSettingOpposite = s.isSettingOpposite := by
  unfold withoutString
  split_ifs
  · rfl
  · rfl

theorem opposite_withoutString_of_ne (h : x ≠ p) :
    (s.withoutString p).opposite x = s.opposite x := by
  unfold withoutString
  split_ifs
  · exact update_of_ne h ..
  · rfl

theorem opposite_withoutString :
    ((s.withoutString p).opposite p = .null ∧ ∀ q, s.opposite p ≠ .object q)
      ∨ ∃ q, s.opposite p = .object q ∧ s.withoutString p = s := by
  unfold withoutString
  cases hp : s.opposite p with
  | null => exact .inl ⟨hp, fun q hq => (by cases hq)⟩
  | string n => exact .inl ⟨update_self .., fun q hq => (by cases hq)⟩
  | object q => exact .inr ⟨q, rfl, rfl⟩

/-- What has been set while a flag was up is as it was when the flag is down again. -/
theorem update_update_setting (h : s.isSettingOpposite p = false) :
    update (update s.isSettingOpposite p true) p false
      = s.isSettingOpposite := by
  rw [update_idem, ← h, update_eq_self]

theorem setOpposite_null (fuel : ℕ) (s : Properties P E) (opposite : Ref P) :
    setOpposite (fuel + 1) s .null opposite = some s := rfl

theorem setOpposite_setting (fuel : ℕ) (hset : s.isSettingOpposite p = true)
    (hp : (s.opposite p).isString = false) (hopposite : opposite.isString = false) :
    setOpposite (fuel + 1) s (.object p) opposite = some s := by
  rw [setOpposite]
  dsimp only
  rw [withoutString_eq hp, hopposite, if_neg (by simp), if_pos (.inl hset)]

theorem setOpposite_eq (fuel : ℕ) (hset : s.isSettingOpposite p = false)
    (hopposite : opposite.isString = false) (hne : opposite ≠ (s.withoutString p).opposite p)
    (hself : opposite ≠ .object p) : setOpposite (fuel + 1) s (.object p) opposite
      = let t := ((s.withoutString p).putSetting p true).putOpposite p opposite
        let t := t.setType p (t.ownerOf opposite)
        (setOpposite fuel t ((s.withoutString p).opposite p) .null).bind fun s =>
          (setOpposite fuel s (s.opposite p) (.object p)).map fun s => s.putSetting p false := by
  have hcond : ¬ ((s.withoutString p).isSettingOpposite p = true
      ∨ opposite = (s.withoutString p).opposite p ∨ opposite = .object p) := by
    rw [isSetting_withoutString, hset]
    simp [hne, hself]
  rw [setOpposite]
  dsimp only
  rw [hopposite, if_neg (by simp), if_neg hcond]
  simp only [opposite_putOpposite, update_self]

theorem setOpposite_detach (hy : s.opposite y = .object x) (hset : s.isSettingOpposite x = true)
    (hidle : s.isSettingOpposite y = false) (hx : (s.opposite x).isString = false) (hne : x ≠ y) :
    ∃ s', (∀ fuel, setOpposite (fuel + 2) s (.object y) .null = some s')
      ∧ s'.opposite = update s.opposite y .null
      ∧ s'.isSettingOpposite = s.isSettingOpposite := by
  have hwithout : s.withoutString y = s := withoutString_eq (by rw [hy]; rfl)
  refine ⟨(((s.putSetting y true).putOpposite y .null).setType y .null).putSetting y false,
    fun fuel => ?_, rfl, update_update_setting hidle⟩
  rw [setOpposite_eq (fuel + 1) hidle rfl (by rw [hwithout, hy]; simp) (by simp), hwithout, hy]
  dsimp only
  rw [setOpposite_setting fuel (by simp [hne, hset]) (by simp [hne, hx]) rfl, Option.bind_some]
  simp only [opposite_setType, opposite_putOpposite, update_self]
  rfl

/-- The new opposite of a property that is being set leaves its own and takes the property. -/
theorem setOpposite_attach (hp : s.opposite p = .object q) (hset : s.isSettingOpposite p = true)
    (hidle : ∀ x, x ≠ p → s.isSettingOpposite x = false) (hpq : p ≠ q)
    (hq : s.opposite q ≠ .object p) (hqq : s.opposite q ≠ .object q)
    (hsymm : ∀ x, s.opposite q = .object x → s.opposite x = .object q) :
    ∃ s', (∀ fuel, setOpposite (fuel + 3) s (.object q) (.object p) = some s')
      ∧ s'.isSettingOpposite = s.isSettingOpposite
      ∧ ∀ x, s'.opposite x = if x = q then .object p
        else if s.opposite q = .object x then .null else s.opposite x := by
  have hqidle := hidle q hpq.symm
  have hne : Ref.object p ≠ (s.withoutString q).opposite q := by
    rcases opposite_withoutString (s := s) (p := q) with ⟨hnull, -⟩ | ⟨-, -, hwithout⟩
    · rw [hnull]
      simp
    · rw [hwithout]
      exact Ne.symm hq
  -- the state in which the old opposite and `p` are told
  let t := ((s.withoutString q).putSetting q true).putOpposite q (.object p)
  let u := t.setType q (t.ownerOf (.object p))
  have hu : u.opposite = update (s.withoutString q).opposite q (.object p) := rfl
  have huset : u.isSettingOpposite = update s.isSettingOpposite q true := by
    show update (s.withoutString q).isSettingOpposite q true = _
    rw [isSetting_withoutString]
  have hset' : ∀ {v : Properties P E}, v.isSettingOpposite = u.isSettingOpposite →
      (v.putSetting q false).isSettingOpposite = s.isSettingOpposite := by
    intro v hv
    rw [isSetting_putSetting, hv, huset, update_update_setting hqidle]
  have hcall : ∀ fuel, setOpposite (fuel + 3) s (.object q) (.object p)
      = (setOpposite (fuel + 2) u ((s.withoutString q).opposite q) .null).bind fun s =>
        (setOpposite (fuel + 2) s (s.opposite q) (.object q)).map fun s => s.putSetting q false :=
    fun fuel => setOpposite_eq (fuel + 2) hqidle rfl hne (by simpa using hpq)
  -- `p` is being set, and so does nothing
  have htold : ∀ {v : Properties P E} (fuel : ℕ), v.isSettingOpposite = u.isSettingOpposite →
      v.opposite q = .object p → v.opposite p = .object q →
      setOpposite (fuel + 2) v (v.opposite q) (.object q) = some v := by
    intro v fuel hv hvq hvp
    rw [hvq]
    refine setOpposite_setting (fuel + 1) ?_ (by rw [hvp]; rfl) rfl
    rw [hv, huset, update_of_ne hpq]
    exact hset
  rcases opposite_withoutString (s := s) (p := q) with ⟨hnull, hnone⟩ | ⟨r, hr, hwithout⟩
  · refine ⟨u.putSetting q false, fun fuel => ?_, hset' rfl, fun x => ?_⟩
    · rw [hcall, hnull, setOpposite_null, Option.bind_some, htold fuel rfl]
      · rfl
      · rw [hu, update_self]
      · rw [hu, update_of_ne hpq, opposite_withoutString_of_ne hpq, hp]
    · rw [opposite_putSetting, hu, update_apply]
      split_ifs with hx hnot
      · rfl
      · exact absurd hnot (hnone x)
      · exact opposite_withoutString_of_ne hx
  · have hrq : r ≠ q := by
      rintro rfl
      exact hqq hr
    have hrp : r ≠ p := by
      rintro rfl
      exact hq hr
    have hur : u.opposite r = .object q := by
      rw [hu, hwithout, update_of_ne hrq]
      exact hsymm r hr
    obtain ⟨v, hdetach, hv, hvset⟩ := setOpposite_detach hur (by rw [huset, update_self])
      (by rw [huset, update_of_ne hrq]; exact hidle r hrp)
      (by rw [hu, update_self]; rfl) hrq.symm
    have hvq : v.opposite q = .object p := by
      rw [hv, update_of_ne hrq.symm, hu, update_self]
    have hvp : v.opposite p = .object q := by
      rw [hv, update_of_ne hrp.symm, hu, update_of_ne hpq, hwithout, hp]
    refine ⟨v.putSetting q false, fun fuel => ?_, hset' hvset, fun x => ?_⟩
    · rw [hcall, hwithout, hr, hdetach, Option.bind_some, htold fuel hvset hvq hvp]
      rfl
    · rw [opposite_putSetting, hv, update_apply, hu, update_apply, hwithout, hr]
      by_cases hxr : x = r
      · rw [if_pos hxr, hxr, if_neg hrq, if_pos rfl]
      · rw [if_neg hxr, if_neg (c := Ref.object r = Ref.object x)
          fun h => hxr (Ref.object.inj h).symm]

/-- What a call makes of the opposites: the old partners of the two that become opposites have
none. -/
def assigned (s : Properties P E) (p : P) (opposite : Ref P) (x : P) : Ref P :=
  if x = p then opposite
  else if opposite = .object x then .object p
  else if s.opposite x = .object p ∨ s.opposite x = opposite then .null
  else s.opposite x

theorem Inv.release (h : Inv s) {t : Properties P E}
    (hset : t.isSettingOpposite = update s.isSettingOpposite p true)
    (ht : t.opposite = update (s.withoutString p).opposite p opposite)
    (hopposite : opposite.isString = false) : ∃ v,
    (∀ fuel, setOpposite (fuel + 2) t ((s.withoutString p).opposite p) .null = some v)
      ∧ v.isSettingOpposite = t.isSettingOpposite
      ∧ ∀ x, v.opposite x = if x = p then opposite
        else if s.opposite p = .object x then .null else s.opposite x := by
  have hx : ∀ x, t.opposite x = if x = p then opposite else s.opposite x := by
    intro x
    rw [ht, update_apply]
    split_ifs with hxp
    · rfl
    · exact opposite_withoutString_of_ne hxp
  rcases opposite_withoutString (s := s) (p := p) with ⟨hnull, hnone⟩ | ⟨o, ho, hwithout⟩
  · rw [hnull]
    refine ⟨t, fun fuel => rfl, rfl, fun x => ?_⟩
    rw [hx, if_neg (hnone x)]
  · have hop : o ≠ p := by
      rintro rfl
      exact h.irrefl o ho
    have hto : t.opposite o = .object p := by
      rw [hx, if_neg hop]
      exact h.symm p o ho
    obtain ⟨v, hdetach, hv, hvset⟩ := setOpposite_detach hto (by rw [hset, update_self])
      (by rw [hset, update_of_ne hop]; exact h.idle o)
      (by rw [hx, if_pos rfl]; exact hopposite) hop.symm
    rw [hwithout, ho]
    refine ⟨v, hdetach, hvset, fun x => ?_⟩
    rw [hv, update_apply, hx]
    by_cases hxo : x = o
    · rw [if_pos hxo, hxo, if_neg hop, if_pos rfl]
    · rw [if_neg hxo, if_neg (c := Ref.object o = Ref.object x)
        fun h => hxo (Ref.object.inj h).symm]

theorem Inv.assigned_same (h : Inv s) :
    assigned s p ((s.withoutString p).opposite p) = (s.withoutString p).opposite := by
  funext x
  unfold assigned
  by_cases hxp : x = p
  · rw [if_pos hxp, hxp]
  · rw [if_neg hxp, opposite_withoutString_of_ne hxp]
    rcases opposite_withoutString (s := s) (p := p) with ⟨hnull, hnone⟩ | ⟨o, ho, hwithout⟩
    · rw [hnull, if_neg (by simp)]
      split_ifs with hx
      · rcases hx with hx | hx
        · exact absurd (h.symm x p hx) (hnone x)
        · exact hx.symm
      · rfl
    · rw [hwithout, ho]
      split_ifs with hx hx'
      · obtain rfl := Ref.object.inj hx
        exact (h.symm p o ho).symm
      · rcases hx' with hx' | hx'
        · exact absurd ((h.symm x p hx').symm.trans ho).symm hx
        · exact absurd (Ref.object.inj ((h.symm x o hx').symm.trans (h.symm p o ho))) hxp
      · rfl

theorem assigned_self : assigned s p opposite p = opposite := if_pos rfl

theorem Inv.assigned_other (h : Inv s) (hxp : x ≠ p) (hx : opposite ≠ .object x) :
    assigned s p opposite x = if s.opposite p = .object x then .null
      else if s.opposite x = opposite then .null else s.opposite x := by
  unfold assigned
  rw [if_neg hxp, if_neg hx]
  by_cases hp : s.opposite x = .object p
  · rw [if_pos (.inl hp), if_pos (h.symm x p hp)]
  · rw [if_neg (c := s.opposite p = .object x) fun hx => hp (h.symm p x hx)]
    simp only [hp, false_or]

theorem Inv.setOpposite_object (h : Inv s) (hopposite : opposite.isString = false)
    (hself : opposite ≠ .object p) : ∃ s',
    (∀ fuel, setOpposite (fuel + 4) s (.object p) opposite = some s')
      ∧ s'.isSettingOpposite = s.isSettingOpposite ∧ s'.opposite = assigned s p opposite := by
  by_cases hsame : opposite = (s.withoutString p).opposite p
  · refine ⟨s.withoutString p, fun fuel => ?_, isSetting_withoutString, ?_⟩
    · rw [setOpposite]
      dsimp only
      rw [hopposite, if_neg (by simp), if_pos (.inr (.inl hsame))]
    · rw [hsame, h.assigned_same]
  · let t := ((s.withoutString p).putSetting p true).putOpposite p opposite
    let u := t.setType p (t.ownerOf opposite)
    have huset : u.isSettingOpposite = update s.isSettingOpposite p true := by
      show update (s.withoutString p).isSettingOpposite p true = _
      rw [isSetting_withoutString]
    obtain ⟨v, hrelease, hvset, hv⟩ := h.release huset rfl hopposite
    have hset' : ∀ {w : Properties P E}, w.isSettingOpposite = v.isSettingOpposite →
        (w.putSetting p false).isSettingOpposite = s.isSettingOpposite := by
      intro w hw
      rw [isSetting_putSetting, hw, hvset, huset, update_update_setting (h.idle p)]
    have hvp : v.opposite p = opposite := by rw [hv, if_pos rfl]
    have hcall : ∀ fuel, setOpposite (fuel + 4) s (.object p) opposite
        = (setOpposite (fuel + 3) v opposite (.object p)).map fun s => s.putSetting p false := by
      intro fuel
      rw [setOpposite_eq (fuel + 3) (h.idle p) hopposite hsame hself]
      show Option.bind (setOpposite (fuel + 3) u _ .null) _ = _
      rw [hrelease (fuel + 1), Option.bind_some, hvp]
    cases opposite with
    | string n => cases hopposite
    | null =>
      refine ⟨v.putSetting p false, fun fuel => ?_, hset' rfl, ?_⟩
      · rw [hcall, setOpposite_null]
        rfl
      · funext x
        rw [opposite_putSetting]
        by_cases hxp : x = p
        · rw [hxp, hvp, assigned_self]
        · rw [hv, if_neg hxp, h.assigned_other hxp (by simp)]
          split_ifs with hpx hx
          · rfl
          · exact hx
          · rfl
    | object q =>
      have hpq : p ≠ q := fun hpq => hself (by rw [hpq])
      have hsq : s.opposite p ≠ .object q := by
        intro hq
        rcases opposite_withoutString (s := s) (p := p) with ⟨-, hnone⟩ | ⟨-, -, hwithout⟩
        · exact hnone q hq
        · rw [hwithout] at hsame
          exact hsame hq.symm
      have hvq : v.opposite q = s.opposite q := by rw [hv, if_neg hpq.symm, if_neg hsq]
      have hvidle : ∀ x, x ≠ p → v.isSettingOpposite x = false := by
        intro x hx
        rw [hvset, huset, update_of_ne hx]
        exact h.idle x
      have hvsymm : ∀ x, v.opposite q = .object x → v.opposite x = .object q := by
        intro x hx
        rw [hvq] at hx
        have hxq := h.symm q x hx
        rw [hv]
        split_ifs with hxp hpx
        · rfl
        · exact absurd (Ref.object.inj (hxq.symm.trans (h.symm p x hpx))) hpq.symm
        · exact hxq
      obtain ⟨w, hattach, hwset, hw⟩ := setOpposite_attach hvp
        (by rw [hvset, huset, update_self]) hvidle hpq
        (by rw [hvq]; exact fun hq => hsq (h.symm q p hq)) (by rw [hvq]; exact h.irrefl q) hvsymm
      refine ⟨w.putSetting p false, fun fuel => ?_, hset' hwset, ?_⟩
      · rw [hcall, hattach]
        rfl
      · funext x
        rw [opposite_putSetting, hw, hvq]
        by_cases hxp : x = p
        · rw [hxp, if_neg hpq, if_neg fun hq => hsq (h.symm q p hq), hvp, assigned_self]
        · by_cases hxq : x = q
          · unfold assigned
            rw [if_pos hxq, if_neg hxp, hxq, if_pos rfl]
          · rw [if_neg hxq, hv, if_neg hxp,
              h.assigned_other hxp fun hq => hxq (Ref.object.inj hq).symm]
            by_cases hx : s.opposite x = .object q
            · rw [if_pos (h.symm x q hx), if_pos hx]
              split_ifs
              · rfl
              · rfl
            · rw [if_neg (c := s.opposite q = .object x) fun hq => hx (h.symm q x hq), if_neg hx]

theorem Inv.assigned (h : Inv s) {s' : Properties P E} (hself : opposite ≠ .object p)
    (hset : s'.isSettingOpposite = s.isSettingOpposite)
    (hs' : s'.opposite = Properties.assigned s p opposite) : Inv s' := by
  refine ⟨fun a b hab => ?_, fun a ha => ?_, fun a => by rw [hset]; exact h.idle a⟩
  · rw [hs'] at hab ⊢
    unfold Properties.assigned at hab ⊢
    split_ifs at hab with hap hao hother
    · have hbp : b ≠ p := by
        rintro rfl
        exact hself hab
      rw [if_neg hbp, if_pos hab, hap]
    · rw [← Ref.object.inj hab, if_pos rfl]
      exact hao
    · rw [not_or] at hother
      have hba := h.symm a b hab
      have hbp : b ≠ p := by
        rintro rfl
        exact hother.1 hab
      rw [if_neg hbp, if_neg fun hb => hother.2 (hab.trans hb.symm), if_neg, hba]
      rw [hba]
      rintro (ha | ha)
      · exact hap (Ref.object.inj ha)
      · exact hao ha.symm
  · rw [hs'] at ha
    unfold Properties.assigned at ha
    split_ifs at ha with hap hao
    · exact hself (by rw [ha, hap])
    · exact hap (Ref.object.inj ha).symm
    · exact h.irrefl a ha

theorem Inv.putOpposite (h : Inv s) (hp : ∀ q, s.opposite p ≠ .object q)
    (hopposite : ∀ q, opposite ≠ .object q) : Inv (s.putOpposite p opposite) := by
  refine ⟨fun a b hab => ?_, fun a ha => ?_, h.idle⟩
  · rw [opposite_putOpposite, update_apply] at hab
    split_ifs at hab with hap
    · exact absurd hab (hopposite b)
    · have hba := h.symm a b hab
      have hbp : b ≠ p := by
        rintro rfl
        exact hp a hba
      rw [opposite_putOpposite, update_of_ne hbp, hba]
  · rw [opposite_putOpposite, update_apply] at ha
    split_ifs at ha
    · exact hopposite a ha
    · exact h.irrefl a ha

/-- The condition on a call: a property that has an opposite is not given a string. -/
def Proper (s : Properties P E) (p : P) (opposite : Ref P) : Prop :=
  opposite.isString = true → ∀ q, s.opposite p ≠ .object q

theorem Inv.setOpposite (h : Inv s) (p : P) (opposite : Ref P) : ∃ s',
    Settles (fun fuel => setOpposite fuel s (.object p) opposite) s'
      ∧ (Matching s' → Proper s p opposite) ∧ (Proper s p opposite → Inv s') := by
  have hsettles : ∀ {s' : Properties P E}, (∀ fuel,
      Properties.setOpposite (fuel + 4) s (.object p) opposite = some s') →
      Settles (fun fuel => Properties.setOpposite fuel s (.object p) opposite) s' :=
    fun hs' => settles_of_succ (settles_of_succ (settles_of_succ (settles_of_succ
      (Filter.Eventually.of_forall hs'))))
  by_cases hstring : opposite.isString = true
  · obtain ⟨n, rfl⟩ : ∃ n, opposite = .string n := by
      cases opposite with
      | string n => exact ⟨n, rfl⟩
      | null => cases hstring
      | object q => cases hstring
    refine ⟨(s.withoutString p).putOpposite p (.string n), hsettles fun fuel => rfl, ?_, ?_⟩
    · rintro hmatching - q hq
      have hqp : q ≠ p := by
        rintro rfl
        exact h.irrefl q hq
      have hback := hmatching.symm q p (by
        rw [opposite_putOpposite, update_of_ne hqp, opposite_withoutString_of_ne hqp]
        exact h.symm p q hq)
      rw [opposite_putOpposite, update_self] at hback
      cases hback
    · intro hproper
      have hput : (s.withoutString p).putOpposite p (.string n) = s.putOpposite p (.string n) := by
        unfold withoutString
        split_ifs
        · unfold Properties.putOpposite
          rw [update_idem]
        · rfl
      rw [hput]
      exact h.putOpposite (hproper hstring) fun q hq => (by cases hq)
  · have hproper : Proper s p opposite := fun hs => absurd hs hstring
    rw [Bool.not_eq_true] at hstring
    by_cases hself : opposite = .object p
    · refine ⟨s.withoutString p, hsettles fun fuel => ?_, fun _ => hproper, fun _ => ?_⟩
      · rw [Properties.setOpposite]
        dsimp only
        rw [hstring, if_neg (by simp), if_pos (.inr (.inr hself))]
      · rcases opposite_withoutString (s := s) (p := p) with ⟨-, hnone⟩ | ⟨-, -, hwithout⟩
        · unfold withoutString
          split_ifs
          · exact h.putOpposite hnone fun q hq => (by cases hq)
          · exact h
        · rw [hwithout]
          exact h
    · obtain ⟨s', hs', hset, hassigned⟩ := h.setOpposite_object hstring hself
      exact ⟨s', hsettles hs', fun _ => hproper, fun _ => h.assigned hself hset hassigned⟩

def Keeps : Properties P E → List (P × Ref P) → Prop
  | _, [] => True
  | s, (p, opposite) :: calls => ∃ s',
    Settles (fun fuel => setOpposite fuel s (.object p) opposite) s' ∧ Matching s' ∧ Keeps s' calls

def ProperCalls : Properties P E → List (P × Ref P) → Prop
  | _, [] => True
  | s, (p, opposite) :: calls => Proper s p opposite ∧
    ∀ s', Settles (fun fuel => setOpposite fuel s (.object p) opposite) s' → ProperCalls s' calls

theorem Inv.keeps_iff : ∀ {calls : List (P × Ref P)} {s : Properties P E}, Inv s →
    (Keeps s calls ↔ ProperCalls s calls)
  | [], _, _ => Iff.rfl
  | (p, opposite) :: calls, s, h => by
    obtain ⟨s', hs', hproper, hinv⟩ := h.setOpposite p opposite
    constructor
    · rintro ⟨s₁, hs₁, hmatching, hrest⟩
      obtain rfl := hs₁.unique hs'
      have hp := hproper hmatching
      refine ⟨hp, fun s₂ hs₂ => ?_⟩
      obtain rfl := hs₂.unique hs'
      exact (hinv hp).keeps_iff.1 hrest
    · rintro ⟨hp, hrest⟩
      exact ⟨s', hs', (hinv hp).matching, (hinv hp).keeps_iff.2 (hrest s' hs')⟩

/-- Opposites stay matched exactly as long as no property that has an opposite is given the name of
one. -/
theorem keeps_iff_proper (owner type : P → Ref E) (calls : List (P × Ref P)) :
    Keeps { owner, type } calls ↔ ProperCalls { owner, type } calls :=
  (inv_init owner type).keeps_iff

/-- A property with an opposite is given a name. -/
theorem name_not_kept : ¬ ∀ calls : List (ℕ × Ref ℕ), Keeps ({} : Properties ℕ Unit) calls := by
  intro h
  have hkeeps := (inv_init (fun _ => .null) fun _ => .null).keeps_iff.1 (h [(0, .object 1), (0, .string "opposite")])
  obtain ⟨s', hs', hassigned⟩ : ∃ s' : Properties ℕ Unit,
      Settles (fun fuel => setOpposite fuel {} (.object 0) (.object 1)) s'
        ∧ s'.opposite 0 = .object 1 := by
    refine ⟨_, settles_of_succ (settles_of_succ (settles_of_succ (settles_of_succ
      (Filter.Eventually.of_forall fun fuel => rfl)))), rfl⟩
  exact (hkeeps.2 s' hs').1 rfl 1 hassigned

end Etoile.EtoileFoundation.Properties
