import Etoile.Lib.Runs
import Etoile.EtoileFoundation.Metamodel

/-!
# Owners in the metamodel

The owner of a description and the table that has it are kept apart, and agree as long as no
property description is added under a name that is taken or removed from an entity description
that does not have it, and no entity description gets its package from the repository.
-/

namespace Etoile.EtoileFoundation.Metamodel

open AList Function List

variable {P E G : Type} {s t : Metamodel P E G} {p q : P} {e : E} {g : G}

/-- A property description is in the table of its owner, under its name, and in no other. -/
def TablesAgree (s : Metamodel P E G) : Prop :=
  ∀ p e, s.owner p = .object e ↔ (s.propertyDescriptions e).lookup (s.name p) = some p

def PackagesAgree (s : Metamodel P E G) : Prop :=
  ∀ e g, s.entityOwner e = .object (.package g) ↔ e ∈ s.entityDescriptions g

def Consistent (s : Metamodel P E G) : Prop := s.TablesAgree ∧ s.PackagesAgree

def NamesAgree (s : Metamodel P E G) : Prop :=
  ∀ e n p, (s.propertyDescriptions e).lookup n = some p → s.name p = n

structure Inv (s : Metamodel P E G) : Prop where
  tables : s.TablesAgree
  names : s.NamesAgree
  packages : s.PackagesAgree

def FitsIn (s : Metamodel P E G) (e : E) (p : P) : Prop :=
  ∀ q, (s.propertyDescriptions e).lookup (s.name p) = some q → q = p

theorem fitsIn_of_owner (h : s.TablesAgree) (hp : s.owner p = .object e) : s.FitsIn e p :=
  fun _ hq => Option.some.inj (hq.symm.trans ((h p e).1 hp))

theorem lookup_of_fitsIn (h : s.TablesAgree) (hp : s.owner p ≠ .object e) (hfits : s.FitsIn e p) :
    (s.propertyDescriptions e).lookup (s.name p) = none := by
  cases hl : (s.propertyDescriptions e).lookup (s.name p) with
  | none => rfl
  | some q =>
    rw [hfits q hl, ← h] at hl
    exact absurd hl hp

/-- The property description has no owner, which raises, or is removed from the table that has it,
or from one that has nothing under its name while its owner is a string. -/
def ProperRemoval (s : Metamodel P E G) (e : E) (p : P) : Prop :=
  s.owner p = .null ∨ (∀ e', s.owner p = .object e' → e' = e) ∧ s.FitsIn e p

variable [DecidableEq P]

theorem owner_putOwner (s : Metamodel P E G) (p : P) (owner : Ref E) :
    (s.putOwner p owner).owner = update s.owner p owner := by
  unfold putOwner Properties.putOwner
  dsimp only
  split
  · rfl
  · rfl
  · rfl

variable [DecidableEq E]

/-- What `-removePropertyDescription:` does when it does not raise. -/
def detach (s : Metamodel P E G) (e : E) (p : P) : Metamodel P E G :=
  (s.putOwner p .null).putTable e ((s.propertyDescriptions e).erase (s.name p))

/-- What `-addPropertyDescription:` does to a property description without an owner. -/
def attach (s : Metamodel P E G) (e : E) (p : P) : Metamodel P E G :=
  (s.putOwner p (.object e)).putTable e ((s.propertyDescriptions e).insert (s.name p) p)

theorem owner_detach : (s.detach e p).owner = update s.owner p .null :=
  owner_putOwner ..

theorem owner_attach : (s.attach e p).owner = update s.owner p (.object e) :=
  owner_putOwner ..

theorem removePropertyDescription_of_null (h : s.owner p = .null) :
    s.removePropertyDescription e p = (s, false) := by
  unfold removePropertyDescription setOwner
  rw [if_neg (by simp [h])]
  rfl

theorem removePropertyDescription_eq (h : s.owner p ≠ .null) :
    s.removePropertyDescription e p = (s.detach e p, true) := by
  unfold removePropertyDescription setOwner
  rw [if_pos (.inl ⟨h, rfl⟩)]
  rfl

theorem addPropertyDescription_of_string (h : (s.owner p).isString = true) :
    s.addPropertyDescription e p = (s, false) := by
  unfold addPropertyDescription
  cases hp : s.owner p with
  | string n => rfl
  | null =>
    rw [hp] at h
    cases h
  | object e' =>
    rw [hp] at h
    cases h

theorem setOwner_of_null (h : s.owner p = .null) :
    s.setOwner p (.object e) = (s.putOwner p (.object e), true) :=
  if_pos (.inr ⟨h, by simp⟩)

theorem addPropertyDescription_of_null (h : s.owner p = .null) :
    s.addPropertyDescription e p = (s.attach e p, true) := by
  unfold addPropertyDescription
  rw [h]
  show andThen (s.setOwner p (.object e)) _ = _
  rw [setOwner_of_null h]
  rfl

theorem addPropertyDescription_of_object {e' : E} (h : s.owner p = .object e') :
    s.addPropertyDescription e p = ((s.detach e' p).attach e p, true) := by
  have hnull : (s.detach e' p).owner p = .null := by
    rw [owner_detach, update_self]
  have hadd := addPropertyDescription_of_null (e := e) hnull
  unfold addPropertyDescription at hadd ⊢
  rw [hnull] at hadd
  rw [h]
  dsimp only
  rw [removePropertyDescription_eq (by rw [h]; simp)]
  exact hadd

/-- A table without the one that is removed agrees with the owners if it was there, or if it had no
owner that is an entity description and no other is there under its name. -/
theorem tablesAgree_detach (h : s.TablesAgree) (hn : s.NamesAgree) :
    (s.detach e p).TablesAgree ↔ (∀ e', s.owner p = .object e' → e' = e) ∧ s.FitsIn e p := by
  have hself : (s.detach e p).owner p = .null := by
    rw [owner_detach, update_self]
  have hother : ∀ q, q ≠ p → (s.detach e p).owner q = s.owner q := fun q hq => by
    rw [owner_detach, update_of_ne hq]
  have htable : (s.detach e p).propertyDescriptions e
      = (s.propertyDescriptions e).erase (s.name p) := update_self ..
  have htables : ∀ e', e' ≠ e → (s.detach e p).propertyDescriptions e'
      = s.propertyDescriptions e' := fun e' he => update_of_ne he ..
  constructor
  · intro h'
    refine ⟨fun e' he' => ?_, fun q hq => ?_⟩
    · by_contra hne
      have := (h' p e').2 (by rw [htables e' hne]; exact (h p e').1 he')
      rw [hself] at this
      cases this
    · by_contra hne
      have hname := hn e _ q hq
      have howner := (h q e).2 (by rw [hname]; exact hq)
      rw [← hother q hne, h', htable] at howner
      change AList.lookup (s.name q) _ = _ at howner
      rw [hname, lookup_erase] at howner
      cases howner
  · rintro ⟨howner, hlookup⟩ q e'
    by_cases hq : q = p
    · rw [hq, hself]
      refine iff_of_false (by simp) fun hl => ?_
      by_cases he : e' = e
      · rw [he, htable] at hl
        change AList.lookup (s.name p) _ = _ at hl
        rw [lookup_erase] at hl
        cases hl
      · rw [htables e' he] at hl
        exact he (howner e' ((h p e').2 hl))
    · rw [hother q hq, h]
      show _ ↔ AList.lookup (s.name q) _ = _
      by_cases he : e' = e
      · rw [he, htable]
        by_cases hname : s.name q = s.name p
        · rw [hname, lookup_erase]
          exact iff_of_false (fun hl => hq (hlookup q hl)) (by simp)
        · rw [lookup_erase_ne hname]
      · rw [htables e' he]

theorem namesAgree_detach (hn : s.NamesAgree) : (s.detach e p).NamesAgree := by
  intro e' n q hq
  refine hn e' n q ?_
  change AList.lookup n (update s.propertyDescriptions e _ e') = _ at hq
  rw [update_apply] at hq
  split_ifs at hq with he
  · by_cases hname : n = s.name p
    · rw [hname, lookup_erase] at hq
      cases hq
    · rw [lookup_erase_ne hname] at hq
      rw [he]
      exact hq
  · exact hq

/-- One that had no owner agrees with the table it is put into if it fits in. -/
theorem tablesAgree_attach (h : s.TablesAgree) (hn : s.NamesAgree) (hp : s.owner p = .null) :
    (s.attach e p).TablesAgree ↔ s.FitsIn e p := by
  have hself : (s.attach e p).owner p = .object e := by
    rw [owner_attach, update_self]
  have hother : ∀ q, q ≠ p → (s.attach e p).owner q = s.owner q := fun q hq => by
    rw [owner_attach, update_of_ne hq]
  have htable : (s.attach e p).propertyDescriptions e
      = (s.propertyDescriptions e).insert (s.name p) p := update_self ..
  have htables : ∀ e', e' ≠ e → (s.attach e p).propertyDescriptions e'
      = s.propertyDescriptions e' := fun e' he => update_of_ne he ..
  constructor
  · intro h' q hl
    by_contra hq
    have hname := hn e _ q hl
    have howner := (h q e).2 (by rw [hname]; exact hl)
    rw [← hother q hq, h', htable] at howner
    change AList.lookup (s.name q) _ = _ at howner
    rw [hname, lookup_insert] at howner
    exact hq (Option.some.inj howner).symm
  · intro hfits q e'
    have hfree := lookup_of_fitsIn h (by rw [hp]; simp) hfits
    show _ ↔ AList.lookup (s.name q) _ = _
    by_cases hq : q = p
    · rw [hq, hself, Ref.object.injEq]
      by_cases he : e' = e
      · rw [he, htable, lookup_insert]
        exact iff_of_true rfl rfl
      · rw [htables e' he, ← h, hp]
        exact iff_of_false (Ne.symm he) (by simp)
    · rw [hother q hq]
      by_cases he : e' = e
      · rw [he, htable]
        by_cases hname : s.name q = s.name p
        · rw [hname, lookup_insert, h, hname, hfree]
          exact iff_of_false (by simp) fun hpq => hq (Option.some.inj hpq).symm
        · rw [lookup_insert_ne hname, h]
      · rw [htables e' he, h]

theorem namesAgree_attach (hn : s.NamesAgree) : (s.attach e p).NamesAgree := by
  intro e' n q hq
  change AList.lookup n (update s.propertyDescriptions e _ e') = _ at hq
  rw [update_apply] at hq
  split_ifs at hq with he
  · by_cases hname : n = s.name p
    · rw [hname, lookup_insert] at hq
      obtain rfl := Option.some.inj hq
      exact hname.symm
    · rw [lookup_insert_ne hname] at hq
      exact hn e n q hq
  · exact hn e' n q hq

theorem Inv.detach_iff (h : Inv s) : Inv (s.detach e p)
    ↔ (∀ e', s.owner p = .object e' → e' = e) ∧ s.FitsIn e p :=
  (Iff.intro Inv.tables fun ht => ⟨ht, namesAgree_detach h.names, h.packages⟩).trans
    (tablesAgree_detach h.tables h.names)

theorem Inv.attach_iff (h : Inv s) (hp : s.owner p = .null) : Inv (s.attach e p) ↔ s.FitsIn e p :=
  (Iff.intro Inv.tables fun ht => ⟨ht, namesAgree_attach h.names, h.packages⟩).trans
    (tablesAgree_attach h.tables h.names hp)

theorem Inv.detach_owner (h : Inv s) {e' : E} (hp : s.owner p = .object e') : Inv (s.detach e' p) :=
  h.detach_iff.2 ⟨fun _ hpe => Ref.object.inj (hpe.symm.trans hp), fitsIn_of_owner h.tables hp⟩

theorem fitsIn_detach (h : s.TablesAgree) {e' : E} (hp : s.owner p = .object e') :
    (s.detach e' p).FitsIn e p ↔ s.FitsIn e p := by
  by_cases he : e = e'
  · rw [he]
    refine iff_of_true (fun q hq => ?_) (fitsIn_of_owner h hp)
    change AList.lookup (s.name p) (update s.propertyDescriptions e' _ e') = _ at hq
    rw [update_self, lookup_erase] at hq
    cases hq
  · have : (s.detach e' p).propertyDescriptions e = s.propertyDescriptions e :=
      update_of_ne he ..
    unfold FitsIn
    rw [this]
    rfl

theorem Inv.removePropertyDescription_iff (h : Inv s) :
    Inv (s.removePropertyDescription e p).1 ↔ s.ProperRemoval e p := by
  unfold ProperRemoval
  by_cases hp : s.owner p = .null
  · rw [removePropertyDescription_of_null hp]
    exact iff_of_true h (.inl hp)
  · rw [removePropertyDescription_eq hp, h.detach_iff]
    exact (or_iff_right hp).symm

theorem Inv.addPropertyDescription_iff (h : Inv s) :
    Inv (s.addPropertyDescription e p).1 ↔ (s.owner p).isString = true ∨ s.FitsIn e p := by
  cases hp : s.owner p with
  | string n =>
    rw [addPropertyDescription_of_string (by rw [hp]; rfl)]
    exact iff_of_true h (.inl rfl)
  | null =>
    rw [addPropertyDescription_of_null hp, h.attach_iff hp]
    exact (or_iff_right (by simp [Ref.isString])).symm
  | object e' =>
    have hnull : (s.detach e' p).owner p = .null := by
      rw [owner_detach, update_self]
    rw [addPropertyDescription_of_object hp, (h.detach_owner hp).attach_iff hnull,
      fitsIn_detach h.tables hp]
    exact (or_iff_right (by simp [Ref.isString])).symm

section SetPropertyDescriptions

/-- The property descriptions in the table of `e`. -/
def allValues (s : Metamodel P E G) (e : E) : List P :=
  (s.propertyDescriptions e).entries.map Sigma.snd

theorem each_setOwner_null : ∀ {ps : List P} {s : Metamodel P E G}, ps.Nodup →
    (∀ p ∈ ps, s.owner p ≠ .null) → ∃ t : Metamodel P E G,
      each (fun s p => s.setOwner p .null) s ps = (t, true)
      ∧ t = { s with toProperties := t.toProperties }
      ∧ ∀ x, t.owner x = if x ∈ ps then .null else s.owner x
  | [], s, _, _ => ⟨s, rfl, rfl, fun _ => (if_neg not_mem_nil).symm⟩
  | p :: ps, s, hnodup, hnull => by
    obtain ⟨hp, hnodup⟩ := nodup_cons.1 hnodup
    have howner : ∀ q, q ≠ p → (s.putOwner p .null).owner q = s.owner q := fun q hq => by
      rw [owner_putOwner, update_of_ne hq]
    obtain ⟨t, heach, ht, htowner⟩ := each_setOwner_null (s := s.putOwner p .null) hnodup
      fun q hq => by
        rw [howner q (fun hqp => hp (hqp ▸ hq))]
        exact hnull q (mem_cons_of_mem p hq)
    refine ⟨t, ?_, ?_, fun x => ?_⟩
    · unfold each setOwner
      rw [if_pos (.inl ⟨hnull p mem_cons_self, rfl⟩)]
      exact heach
    · rw [ht]
      rfl
    · rw [htowner]
      by_cases hx : x = p
      · rw [hx, if_neg hp, if_pos mem_cons_self, owner_putOwner, update_self]
      · rw [howner x hx]
        simp only [mem_cons, hx, false_or]

omit [DecidableEq P] [DecidableEq E] in
theorem mem_allValues (h : Inv s) : p ∈ s.allValues e ↔ s.owner p = .object e := by
  unfold allValues
  rw [h.tables, mem_map]
  constructor
  · rintro ⟨⟨n, q⟩, hmem, rfl⟩
    have hlookup : (s.propertyDescriptions e).lookup n = some q := mem_lookup_iff.2 hmem
    rw [h.names e n q hlookup]
    exact hlookup
  · intro hlookup
    exact ⟨⟨s.name p, p⟩, mem_lookup_iff.1 hlookup, rfl⟩

omit [DecidableEq P] [DecidableEq E] in
theorem nodup_allValues (h : Inv s) : (s.allValues e).Nodup := by
  refine Nodup.map_on ?_ (s.propertyDescriptions e).nodupKeys.nodup
  rintro ⟨n, p⟩ hp ⟨m, q⟩ hq (rfl : p = q)
  have hn := h.names e n p (mem_lookup_iff.2 hp)
  have hm := h.names e m p (mem_lookup_iff.2 hq)
  rw [← hn, ← hm]

theorem Inv.clear (h : Inv s) (e : E) : ∃ t : Metamodel P E G,
    (∀ ps, s.setPropertyDescriptions e ps = each (fun s p => s.addPropertyDescription e p) t ps)
      ∧ Inv t ∧ (∀ x, (t.owner x).isString = (s.owner x).isString) ∧ t.name = s.name
      ∧ t.propertyDescriptions e = ∅ := by
  obtain ⟨t, heach, ht, howner⟩ := each_setOwner_null (nodup_allValues (e := e) h) fun p hp => by
    rw [(mem_allValues h).1 hp]
    simp
  have htables : t.propertyDescriptions = s.propertyDescriptions := by rw [ht]
  have hname : t.name = s.name := by rw [ht]
  have hlookup : ∀ e' n, ((t.putTable e ∅).propertyDescriptions e').lookup n
      = if e' = e then none else (s.propertyDescriptions e').lookup n := by
    intro e' n
    show AList.lookup n (update t.propertyDescriptions e ∅ e') = _
    rw [update_apply, htables]
    split_ifs
    · rfl
    · rfl
  simp only [mem_allValues h] at howner
  refine ⟨t.putTable e ∅, fun ps => ?_, ⟨fun p e' => ?_, fun e' n p hp => ?_, ?_⟩, fun x => ?_,
    hname, update_self ..⟩
  · unfold setPropertyDescriptions
    rw [show (s.propertyDescriptions e).entries.map Sigma.snd = s.allValues e from rfl, heach]
    rfl
  · rw [hlookup]
    show t.owner p = _ ↔ (if e' = e then none else AList.lookup (t.name p) _) = _
    rw [howner, hname]
    by_cases hpe : s.owner p = .object e
    · rw [if_pos hpe]
      refine iff_of_false (by simp) ?_
      split_ifs with he
      · simp
      · rw [← h.tables, hpe]
        exact fun hobj => he (Ref.object.inj hobj).symm
    · rw [if_neg hpe]
      split_ifs with he
      · rw [he]
        exact iff_of_false hpe (by simp)
      · exact h.tables p e'
  · rw [hlookup] at hp
    split_ifs at hp
    show t.name p = n
    rw [hname]
    exact h.names e' n p hp
  · intro e' g
    show t.entityOwner e' = _ ↔ _ ∈ t.entityDescriptions g
    rw [ht]
    exact h.packages e' g
  · show (t.owner x).isString = _
    rw [howner]
    split_ifs with hx
    · rw [hx]
      rfl
    · rfl

def added (s : Metamodel P E G) (ps : List P) : List P :=
  ps.takeWhile fun p => !(s.owner p).isString

theorem addPropertyDescription_eq (h : (s.owner p).isString = false) : ∃ t : Metamodel P E G,
    s.addPropertyDescription e p = (t, true) ∧ t.owner = update s.owner p (.object e)
      ∧ t.name = s.name := by
  cases hp : s.owner p with
  | string n =>
    rw [hp] at h
    cases h
  | null => exact ⟨_, addPropertyDescription_of_null hp, owner_attach, rfl⟩
  | object e' =>
    refine ⟨_, addPropertyDescription_of_object hp, ?_, rfl⟩
    rw [owner_attach, owner_detach, update_idem]

omit [DecidableEq E] in
theorem added_cons (h : (s.owner p).isString = false) {ps : List P}
    (ht : t.owner = update s.owner p (.object e)) :
    s.added (p :: ps) = p :: t.added ps := by
  unfold added
  rw [takeWhile_cons_of_pos (by rw [h]; rfl), ht]
  congr 2
  funext x
  rw [update_apply]
  split_ifs with hx
  · rw [hx, h]
    rfl
  · rfl

theorem owner_each_add : ∀ {ps : List P} {s : Metamodel P E G},
    (∀ q, (each (fun s p => s.addPropertyDescription e p) s ps).1.owner q
        = if q ∈ s.added ps then .object e else s.owner q)
      ∧ (each (fun s p => s.addPropertyDescription e p) s ps).1.name = s.name
  | [], s => ⟨fun q => (if_neg not_mem_nil).symm, rfl⟩
  | p :: ps, s => by
    unfold each
    cases hp : (s.owner p).isString with
    | true =>
      rw [addPropertyDescription_of_string hp]
      refine ⟨fun q => ?_, rfl⟩
      unfold added
      rw [takeWhile_cons_of_neg (by rw [hp]; simp), if_neg not_mem_nil]
      rfl
    | false =>
      obtain ⟨t, hadd, ht, hname⟩ := addPropertyDescription_eq (e := e) hp
      obtain ⟨howner, hrest⟩ := @owner_each_add ps t
      rw [hadd]
      refine ⟨fun q => ?_, hrest.trans hname⟩
      show (each _ t ps).1.owner q = _
      rw [howner, added_cons hp ht, ht, update_apply]
      simp only [mem_cons]
      by_cases hq : q = p
      · simp only [hq, true_or, if_true, ite_self]
      · simp only [hq, false_or, if_false]

/-- Property descriptions with names of their own are added to a table in which they fit. -/
theorem Inv.each_add : ∀ {ps : List P} {s : Metamodel P E G}, Inv s →
    (∀ q ∈ s.added ps, s.FitsIn e q) →
    (∀ p ∈ s.added ps, ∀ q ∈ s.added ps, s.name p = s.name q → p = q) →
    Inv (each (fun s p => s.addPropertyDescription e p) s ps).1
  | [], _, h, _, _ => h
  | p :: ps, s, h, hfits, hnames => by
    unfold each
    cases hp : (s.owner p).isString with
    | true =>
      rw [addPropertyDescription_of_string hp]
      exact h
    | false =>
      obtain ⟨t, hadd, ht, hname⟩ := addPropertyDescription_eq (e := e) hp
      rw [added_cons hp ht] at hfits hnames
      have hinv := (h.addPropertyDescription_iff (e := e)).2 (.inr (hfits p mem_cons_self))
      rw [hadd] at hinv ⊢
      refine @Inv.each_add ps t hinv (fun q hq r hr => ?_) fun q hq r hr hqr => ?_
      · have hrname := hinv.names e _ r hr
        have hrowner := (hinv.tables r e).2 (by rw [hrname]; exact hr)
        rw [ht, update_apply] at hrowner
        rw [hname] at hrname
        split_ifs at hrowner with hrp
        · rw [hrp]
          refine hnames p mem_cons_self q (mem_cons_of_mem p hq) ?_
          rw [← hrname, hrp]
        · refine hfits q (mem_cons_of_mem p hq) r ?_
          rw [← hrname]
          exact (h.tables r e).1 hrowner
      · rw [hname] at hqr
        exact hnames q (mem_cons_of_mem p hq) r (mem_cons_of_mem p hr) hqr

theorem Inv.setPropertyDescriptions_iff (h : Inv s) {ps : List P} :
    Inv (s.setPropertyDescriptions e ps).1
      ↔ ∀ p ∈ s.added ps, ∀ q ∈ s.added ps, s.name p = s.name q → p = q := by
  obtain ⟨t, hset, hinv, hstring, hname, hempty⟩ := h.clear e
  have hadded : t.added ps = s.added ps := by
    unfold added
    simp only [hstring]
  rw [hset]
  constructor
  · intro hfinal p hp q hq hpq
    obtain ⟨howner, hnames⟩ := @owner_each_add P E G e _ _ ps t
    have hlookup : ∀ r ∈ s.added ps, _ := fun r hr =>
      (hfinal.tables r e).1 (by rw [howner, hadded, if_pos hr])
    have hpl := hlookup p hp
    have hql := hlookup q hq
    rw [hnames, hname] at hpl hql
    rw [hpq] at hpl
    exact Option.some.inj (hpl.symm.trans hql)
  · intro hnames
    refine hinv.each_add (fun q _ r hr => ?_) fun p hp q hq hpq => ?_
    · rw [hempty, lookup_empty] at hr
      cases hr
    · rw [hadded] at hp hq
      rw [hname] at hpq
      exact hnames p hp q hq hpq

end SetPropertyDescriptions

section Packages

variable [DecidableEq G]

omit [DecidableEq P] in
/-- An entity description that its package lets go, or that has none, is listed nowhere. -/
theorem packagesAgree_remove (h : s.PackagesAgree) :
    (s.removeEntityDescription g e).PackagesAgree
      ↔ ∀ g', s.entityOwner e = .object (.package g') → g' = g := by
  have howner : ∀ e', (s.removeEntityDescription g e).entityOwner e'
      = if e' = e then .null else s.entityOwner e' := fun e' => update_apply ..
  have hlist : ∀ g', (s.removeEntityDescription g e).entityDescriptions g'
      = if g' = g then (s.entityDescriptions g).erase e else s.entityDescriptions g' :=
    fun g' => update_apply ..
  constructor
  · intro h' g' hg'
    by_contra hne
    have := (h' e g').2 (by rw [hlist, if_neg hne]; exact (h e g').1 hg')
    rw [howner, if_pos rfl] at this
    cases this
  · intro honly e' g'
    rw [howner, hlist]
    by_cases he : e' = e
    · rw [if_pos he, he]
      refine iff_of_false (by simp) ?_
      split_ifs with hg
      · exact Finset.notMem_erase e _
      · exact fun hmem => hg (honly g' ((h e g').2 hmem))
    · rw [if_neg he, h]
      split_ifs with hg
      · rw [hg, Finset.mem_erase]
        exact (and_iff_right he).symm
      · exact Iff.rfl

omit [DecidableEq P] in
theorem Inv.removeEntityDescription_iff (h : Inv s) : Inv (s.removeEntityDescription g e)
    ↔ ∀ g', s.entityOwner e = .object (.package g') → g' = g := by
  rw [← packagesAgree_remove h.packages]
  exact ⟨Inv.packages, fun hp => ⟨h.tables, h.names, hp⟩⟩

/-- What `-addEntityDescription:` does to an entity description that is listed nowhere. -/
def enlist (s : Metamodel P E G) (g : G) (e : E) : Metamodel P E G :=
  let s := s.putEntityOwner e (.object (.package g))
  let s := s.putEntities g (insert e (s.entityDescriptions g))
  s.putExtensions g ((s.extensions g).filter fun p => s.owner p ≠ .object e)

omit [DecidableEq P] in
theorem Inv.enlist (h : Inv s) (he : s.entityOwner e = .null) : Inv (s.enlist g e) := by
  have hnone : ∀ g', e ∉ s.entityDescriptions g' := fun g' hmem => by
    rw [← h.packages, he] at hmem
    cases hmem
  refine ⟨h.tables, h.names, fun e' g' => ?_⟩
  show update s.entityOwner e _ e' = _
    ↔ e' ∈ update s.entityDescriptions g (insert e (s.entityDescriptions g)) g'
  rw [update_apply, update_apply]
  by_cases he' : e' = e
  · rw [if_pos he', he']
    split_ifs with hg
    · rw [hg]
      exact iff_of_true rfl (Finset.mem_insert_self e _)
    · exact iff_of_false (fun hobj => hg (by cases hobj; rfl)) (hnone g')
  · rw [if_neg he', h.packages]
    split_ifs with hg
    · rw [hg, Finset.mem_insert]
      exact (or_iff_right he').symm
    · exact Iff.rfl

omit [DecidableEq P] in
theorem Inv.addEntityDescription (h : Inv s) : Inv (s.addEntityDescription g e).1 := by
  unfold Metamodel.addEntityDescription
  cases he : s.entityOwner e with
  | null => exact h.enlist he
  | string n => exact h
  | object d =>
    cases d with
    | property p => exact h
    | entity e' => exact h
    | package g' =>
      have hremove : Inv (s.removeEntityDescription g' e) := by
        refine h.removeEntityDescription_iff.2 fun g'' hg'' => ?_
        rw [he] at hg''
        cases hg''
        rfl
      exact hremove.enlist (update_self ..)

theorem Inv.addExtension_iff (h : Inv s) : Inv (s.addExtension g p).1
    ↔ (∃ e ∈ s.entityDescriptions g, s.owner p = .object e)
      ∨ ∀ e, s.package p = .object (.entity e) → Inv (s.removePropertyDescription e p).1 := by
  unfold addExtension
  split_ifs with howned
  · exact iff_of_true h (.inl howned)
  · rw [or_iff_right howned]
    cases hp : s.package p with
    | null => exact iff_of_true ⟨h.tables, h.names, h.packages⟩ fun e he => (by cases he)
    | string n => exact iff_of_true h fun e he => (by cases he)
    | object d =>
      cases d with
      | property q => exact iff_of_true h fun e he => (by cases he)
      | package g' =>
        exact iff_of_true ⟨h.tables, h.names, h.packages⟩ fun e he => (by cases he)
      | entity e =>
        have hsame : Inv (andThen (s.removePropertyDescription e p) fun s =>
            ((s.setPackage p (.object (.package g))).putExtensions g (insert p (s.extensions g)),
              true)).1 ↔ Inv (s.removePropertyDescription e p).1 := by
          rcases s.removePropertyDescription e p with ⟨t, returns⟩
          cases returns with
          | false => exact Iff.rfl
          | true => exact ⟨fun h => ⟨h.tables, h.names, h.packages⟩,
              fun h => ⟨h.tables, h.names, h.packages⟩⟩
        refine hsame.trans ⟨fun h e' he' => ?_, fun h => h e rfl⟩
        cases he'
        exact h

omit [DecidableEq P] [DecidableEq G] in
theorem Inv.putEntityOwner_iff (h : Inv s) {n : String} (he : s.entityOwner e = .string n)
    (d : Description P E G) : Inv (s.putEntityOwner e (.object d)) ↔ ∀ g, d ≠ .package g := by
  have hnone : ∀ g, e ∉ s.entityDescriptions g := fun g hmem => by
    rw [← h.packages, he] at hmem
    cases hmem
  have howner : ∀ e', (s.putEntityOwner e (.object d)).entityOwner e'
      = if e' = e then .object d else s.entityOwner e' := fun e' => update_apply ..
  constructor
  · rintro h' g rfl
    refine hnone g ((h'.packages e g).1 ?_)
    rw [howner, if_pos rfl]
  · intro hd
    refine ⟨h.tables, h.names, fun e' g => ?_⟩
    rw [howner]
    split_ifs with he'
    · rw [he']
      exact iff_of_false (fun hobj => hd g (Ref.object.inj hobj)) (hnone g)
    · exact h.packages e' g

omit [DecidableEq P] in
theorem resolveEntityDescription_eq (repository : Repository P E G) :
    s.resolveEntityDescription repository e = match s.entityOwner e with
      | .null => s.addEntityDescription repository.anonymousPackage e
      | .object _ => (s, true)
      | .string n => match repository.descriptionForName n with
        | some d => (s.putEntityOwner e (.object d), true)
        | none => (s, false) := by
  unfold resolveEntityDescription
  cases he : s.entityOwner e with
  | null =>
    dsimp only
    rw [he]
  | object d =>
    dsimp only
    rw [he]
  | string n =>
    dsimp only
    cases repository.descriptionForName n with
    | none =>
      dsimp only
      rw [he]
    | some d =>
      dsimp only
      rw [show (s.putEntityOwner e (.object d)).entityOwner e = .object d from
        update_self ..]

variable {repository : Repository P E G}

omit [DecidableEq P] in
theorem Inv.resolveEntityDescription_iff (h : Inv s) :
    Inv (s.resolveEntityDescription repository e).1 ↔ ∀ n, s.entityOwner e = .string n →
      ∀ g, repository.descriptionForName n ≠ some (.package g) := by
  rw [resolveEntityDescription_eq]
  cases he : s.entityOwner e with
  | null => exact iff_of_true h.addEntityDescription fun n hn => (by cases hn)
  | object d => exact iff_of_true h fun n hn => (by cases hn)
  | string n =>
    dsimp only
    cases hd : repository.descriptionForName n with
    | none =>
      refine iff_of_true h fun m hm g => ?_
      obtain rfl := Ref.string.inj hm
      rw [hd]
      simp
    | some d =>
      refine (h.putEntityOwner_iff he d).trans ⟨fun hne m hm g hg => ?_, fun hne g hg => ?_⟩
      · obtain rfl := Ref.string.inj hm
        rw [hd] at hg
        exact hne g (Option.some.inj hg)
      · exact hne n rfl g (by rw [hd, hg])

omit [DecidableEq E] [DecidableEq G] in
theorem Inv.resolvePackage (h : Inv s) : Inv (s.resolvePackage repository p) := by
  unfold Metamodel.resolvePackage
  split
  · split
    · exact ⟨h.tables, h.names, h.packages⟩
    · exact h
  · exact h
  · exact h

omit [DecidableEq G] in
/-- A property description keeps the owner it has, since the assertion fails for a string. -/
theorem Inv.resolvePropertyDescription (h : Inv s) :
    Inv (s.resolvePropertyDescription repository p).1 := by
  unfold Metamodel.resolvePropertyDescription
  cases hp : s.owner p with
  | null => exact h.resolvePackage
  | object e => exact h.resolvePackage
  | string n =>
    dsimp only
    split
    · unfold setOwner
      rw [if_neg (by simp [hp])]
      exact h
    · exact h
    · exact h
    · exact h.resolvePackage

end Packages

section Runs

variable [DecidableEq G]

/-- A call after which the owners and the tables agree, as a condition on what is there before. -/
def Proper (s : Metamodel P E G) : Call P E G → Prop
  | .addPropertyDescription e p => (s.owner p).isString = true ∨ s.FitsIn e p
  | .removePropertyDescription e p => s.ProperRemoval e p
  | .setPropertyDescriptions _ ps =>
    ∀ p ∈ s.added ps, ∀ q ∈ s.added ps, s.name p = s.name q → p = q
  | .addEntityDescription _ _ => True
  | .removeEntityDescription g e => ∀ g', s.entityOwner e = .object (.package g') → g' = g
  | .addExtension g p => (∃ e ∈ s.entityDescriptions g, s.owner p = .object e)
    ∨ ∀ e, s.package p = .object (.entity e) → s.ProperRemoval e p
  | .resolveEntityDescription repository e => ∀ n, s.entityOwner e = .string n →
    ∀ g, repository.descriptionForName n ≠ some (.package g)
  | .resolvePropertyDescription _ _ => True

theorem Inv.perform_iff (h : Inv s) (c : Call P E G) : Inv (s.perform c).1 ↔ s.Proper c := by
  cases c with
  | addPropertyDescription e p => exact h.addPropertyDescription_iff
  | removePropertyDescription e p => exact h.removePropertyDescription_iff
  | setPropertyDescriptions e ps => exact h.setPropertyDescriptions_iff
  | addEntityDescription g e => exact iff_of_true h.addEntityDescription trivial
  | removeEntityDescription g e => exact h.removeEntityDescription_iff
  | addExtension g p =>
    refine h.addExtension_iff.trans (or_congr_right ?_)
    exact forall_congr' fun e => forall_congr' fun _ => h.removePropertyDescription_iff
  | resolveEntityDescription repository e => exact h.resolveEntityDescription_iff
  | resolvePropertyDescription repository p =>
    exact iff_of_true h.resolvePropertyDescription trivial

omit [DecidableEq P] [DecidableEq E] [DecidableEq G] in
theorem each_invariant {α : Type} {I : Metamodel P E G → Prop}
    {f : Metamodel P E G → α → Metamodel P E G × Bool} (hf : ∀ s a, I s → I (f s a).1) :
    ∀ {as : List α} {s : Metamodel P E G}, I s → I (each f s as).1
  | [], _, hs => hs
  | a :: as, s, hs => by
    have hfirst := hf s a hs
    unfold each andThen
    split
    · next t ht =>
      rw [ht] at hfirst
      exact each_invariant hf hfirst
    · next t ht =>
      rw [ht] at hfirst
      exact hfirst

omit [DecidableEq G] in
theorem NamesAgree.removePropertyDescription (hn : s.NamesAgree) :
    (s.removePropertyDescription e p).1.NamesAgree := by
  by_cases hp : s.owner p = .null
  · rw [removePropertyDescription_of_null hp]
    exact hn
  · rw [removePropertyDescription_eq hp]
    exact namesAgree_detach hn

omit [DecidableEq G] in
theorem NamesAgree.addPropertyDescription (hn : s.NamesAgree) :
    (s.addPropertyDescription e p).1.NamesAgree := by
  cases hp : s.owner p with
  | string n =>
    rw [addPropertyDescription_of_string (by rw [hp]; rfl)]
    exact hn
  | null =>
    rw [addPropertyDescription_of_null hp]
    exact namesAgree_attach hn
  | object e' =>
    rw [addPropertyDescription_of_object hp]
    exact namesAgree_attach (namesAgree_detach hn)

theorem Inv.namesAgree_perform (h : Inv s) (c : Call P E G) : (s.perform c).1.NamesAgree := by
  cases c with
  | addPropertyDescription e p => exact h.names.addPropertyDescription
  | removePropertyDescription e p => exact h.names.removePropertyDescription
  | setPropertyDescriptions e ps =>
    obtain ⟨t, hset, hinv, -⟩ := h.clear e
    show (s.setPropertyDescriptions e ps).1.NamesAgree
    rw [hset]
    exact each_invariant (fun _ _ hn => hn.addPropertyDescription) hinv.names
  | addEntityDescription g e => exact h.addEntityDescription.names
  | removeEntityDescription g e => exact h.names
  | addExtension g p =>
    show (s.addExtension g p).1.NamesAgree
    unfold addExtension
    split_ifs
    · exact h.names
    · cases s.package p with
      | null => exact h.names
      | string n => exact h.names
      | object d =>
        cases d with
        | property q => exact h.names
        | package g' => exact h.names
        | entity e =>
          have hn := h.names.removePropertyDescription (e := e) (p := p)
          unfold andThen
          dsimp only
          split
          · next t ht =>
            rw [ht] at hn
            exact hn
          · next t ht =>
            rw [ht] at hn
            exact hn
  | resolveEntityDescription repository e =>
    show (s.resolveEntityDescription repository e).1.NamesAgree
    rw [resolveEntityDescription_eq]
    split
    · exact h.addEntityDescription.names
    · exact h.names
    · split
      · exact h.names
      · exact h.names
  | resolvePropertyDescription repository p => exact h.resolvePropertyDescription.names

theorem Inv.consistent_perform_iff (h : Inv s) (c : Call P E G) :
    Consistent (s.perform c).1 ↔ s.Proper c := by
  rw [← h.perform_iff]
  exact ⟨fun hc => ⟨hc.1, h.namesAgree_perform c, hc.2⟩, fun hi => ⟨hi.tables, hi.packages⟩⟩

/-- Descriptions that have been made and not been added to anything; an owner may have been given
by its name. -/
structure Fresh (s : Metamodel P E G) : Prop where
  owner : ∀ p e, s.owner p ≠ .object e
  entityOwner : ∀ e d, s.entityOwner e ≠ .object d
  propertyDescriptions : ∀ e, s.propertyDescriptions e = ∅
  entityDescriptions : ∀ g, s.entityDescriptions g = ∅

omit [DecidableEq P] [DecidableEq E] [DecidableEq G] in
theorem Fresh.inv (h : Fresh s) : Inv s := by
  refine ⟨fun p e => iff_of_false (h.owner p e) ?_, fun e n p hp => ?_, fun e g => ?_⟩
  · rw [h.propertyDescriptions, lookup_empty]
    simp
  · rw [h.propertyDescriptions, lookup_empty] at hp
    cases hp
  · rw [h.entityDescriptions]
    exact iff_of_false (h.entityOwner e _) (Finset.notMem_empty e)

def step (s : Metamodel P E G) (c : Call P E G) : Metamodel P E G := (s.perform c).1

/-- Owners and tables agree after every call in just the runs whose calls are all proper. -/
theorem consistent_iff_proper (s : Metamodel P E G) (h : Fresh s) (calls : List (Call P E G)) :
    Along step (fun s c => Consistent (step s c)) s calls ↔ Along step Proper s calls :=
  along_iff (fun _ c h => h.consistent_perform_iff c) (fun _ c h hc => (h.perform_iff c).2 hc)
    h.inv

/-- Two property descriptions of one name are added to an entity description. -/
def twins : Metamodel Bool Unit Unit := { name := fun _ => "label" }

theorem twins_fresh : Fresh twins :=
  ⟨fun _ _ h => (by cases h), fun _ _ h => (by cases h), fun _ => rfl, fun _ => rfl⟩

theorem consistent_one_added :
    Along step (fun s c => Consistent (step s c)) twins [.addPropertyDescription () false] :=
  (consistent_iff_proper twins twins_fresh _).2
    ⟨.inr fun q hq => (by cases hq), trivial⟩

/-- The first still has the owner that the second has taken its place in. -/
theorem same_name_not_consistent : Fresh twins
    ∧ ¬ Along step (fun s c => Consistent (step s c)) twins
      [.addPropertyDescription () false, .addPropertyDescription () true] := by
  refine ⟨twins_fresh, ?_⟩
  rintro ⟨-, ⟨htables, -⟩, -⟩
  have := (htables false ()).1 (by decide)
  exact absurd this (by decide)

end Runs

end Etoile.EtoileFoundation.Metamodel
