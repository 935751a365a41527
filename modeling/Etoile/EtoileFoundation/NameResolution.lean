import Etoile.EtoileFoundation.NamedOpposites

/-!
# Names are resolved in any order

A property description whose owner is a name cannot be resolved, for an owner that is there is not
replaced.  Without such, all names are resolved, and the order does not matter.
-/

namespace Etoile.EtoileFoundation.Elements

open Option

variable {D : Type} [DecidableEq D] {m : Elements D} {s t t' : NamedGraph D} {g g' : ModelGraph D}
  {fuel : ℕ} {n : String} {d e p q x y package : D} {key : Key} {r r' : Ref D} {f f' : D → Ref D}
  {done entered parented typed linked : Finset D}

section Runs

structure Finished (m : Elements D) (s t : NamedGraph D) : Prop where
  progress : m.Progress s (m.unresolved .entity) (m.unresolved .entity) m.properties m.properties
    t.toModelGraph
  directory : m.Directory s m.added t.descriptionsByName

variable (fuel) (o : Enumeration D)

theorem packages_added : ∃ t, o.forEach (fun s desc => m.addDescription s (fuel + 1) desc)
      (m.unresolved .package) s = some t
    ∧ t.toModelGraph = s.toModelGraph
    ∧ m.Directory s (m.unresolved .package) t.descriptionsByName := by
  refine o.forEach_spec
    (Q := fun done (t : NamedGraph D) =>
      t.toModelGraph = s.toModelGraph ∧ m.Directory s done t.descriptionsByName)
    (fun done d t hd _ ⟨hgraph, hdir⟩ => ?_) ⟨rfl, directory_init⟩
  obtain ⟨t', ht', hgraph', hdir'⟩ := add_package (kind_of_mem hd)
    (mem_added.2 (.inl (.inl hd))) hdir
  exact ⟨t', ht', hgraph'.trans hgraph, hdir'⟩

theorem entities_resolved (hnamed : m.WellNamed s) (hkinded : m.WellKinded s)
    (hgraph : t.toModelGraph = s.toModelGraph)
    (hdir : m.Directory s (m.unresolved .package) t.descriptionsByName) :
    ∃ t', m.resolveAndAddEntityDescriptions t (fuel + 2) o (m.unresolved .entity) = some t'
      ∧ m.Progress s (m.unresolved .entity) (m.unresolved .entity) ∅ ∅ t'.toModelGraph
      ∧ m.Directory s (m.unresolved .package ∪ m.unresolved .entity) t'.descriptionsByName := by
  unfold resolveAndAddEntityDescriptions
  obtain ⟨u, hu, -, hprogress, hdir'⟩ := o.forEach_spec (s := m.unresolved .entity) (x := t)
    (f := fun s desc => (m.resolveProperty s (fuel + 2) .owner desc true).bind
      fun s => m.addDescription s (fuel + 2) desc)
    (Q := fun done t => done ⊆ m.unresolved .entity ∧ m.Progress s done ∅ ∅ ∅ t.toModelGraph
      ∧ m.Directory s (m.unresolved .package ∪ done) t.descriptionsByName)
    (fun done e t he hnot ⟨hdone, hprogress, hdir⟩ => by
      obtain ⟨t', ht', hrest⟩ := add_entity hnamed hkinded hdone he hnot hprogress hdir
      exact ⟨t', ht', Finset.insert_subset he hdone, hrest⟩)
    ⟨Finset.empty_subset _, by rw [hgraph]; exact progress_init, by rwa [Finset.union_empty]⟩
  obtain ⟨t', ht', hprogress', hnames⟩ := o.forEach_spec (s := m.unresolved .entity) (x := u)
    (f := fun s desc => m.resolveProperty s (fuel + 2) .parent desc false)
    (Q := fun done t => m.Progress s (m.unresolved .entity) done ∅ ∅ t.toModelGraph
      ∧ t.descriptionsByName = u.descriptionsByName)
    (fun done e t he hnot ⟨hprogress, hnames⟩ => by
      obtain ⟨t', ht', hprogress', hnames'⟩ := resolve_parent hnamed hkinded he hnot hprogress
        (by rw [hnames]; exact hdir')
      exact ⟨t', ht', hprogress', hnames'.trans hnames⟩)
    ⟨hprogress, rfl⟩
  refine ⟨t', ?_, hprogress', by rw [hnames]; exact hdir'⟩
  show (o.forEach _ _ t).bind _ = _
  exact (congrArg (Option.bind · _) hu).trans ht'

theorem properties_resolved (hnamed : m.WellNamed s) (hkinded : m.WellKinded s)
    (hagree : m.OppositesAgree s) (hstrings : ∀ p ∈ m.properties, (s.owner p).isString = false)
    (hprogress : m.Progress s (m.unresolved .entity) (m.unresolved .entity) ∅ ∅ t.toModelGraph)
    (hdir : m.Directory s (m.unresolved .package ∪ m.unresolved .entity) t.descriptionsByName) :
    ∃ t', m.resolveAndAddPropertyDescriptions t (fuel + 4) o m.properties = some t'
      ∧ m.Finished s t' := by
  unfold resolveAndAddPropertyDescriptions
  obtain ⟨u, hu, hprogress', hdir'⟩ := o.forEach_spec (s := m.properties) (x := t)
    (f := fun s desc => (m.resolveProperty s (fuel + 4) .type desc false).bind fun s =>
      (m.resolveProperty s (fuel + 4) .owner desc false).bind fun s =>
        (m.resolveProperty s (fuel + 4) .package desc true).bind fun s =>
          m.addDescription s (fuel + 4) desc)
    (Q := fun done t => m.Progress s (m.unresolved .entity) (m.unresolved .entity) done ∅
        t.toModelGraph
      ∧ m.Directory s (m.unresolved .package ∪ m.unresolved .entity ∪ done) t.descriptionsByName)
    (fun done p t hp hnot ⟨hprogress, hdir⟩ =>
      add_property hnamed hkinded hp hnot (hstrings p hp) hprogress hdir)
    ⟨hprogress, by rwa [Finset.union_empty]⟩
  obtain ⟨t', ht', -, hprogress'', hnames⟩ := o.forEach_spec (s := m.properties) (x := u)
    (f := fun s desc => m.resolveProperty s (fuel + 4) .opposite desc false)
    (Q := fun done t => done ⊆ m.properties
      ∧ m.Progress s (m.unresolved .entity) (m.unresolved .entity) m.properties done t.toModelGraph
      ∧ t.descriptionsByName = u.descriptionsByName)
    (fun done p t hp hnot ⟨hdone, hprogress, hnames⟩ => by
      obtain ⟨t', ht', hprogress', hnames'⟩ := resolve_opposite hnamed hkinded hagree hp hdone hnot
        hprogress (by rw [hnames]; exact hdir')
      exact ⟨t', ht', Finset.insert_subset hp hdone, hprogress', hnames'.trans hnames⟩)
    ⟨Finset.empty_subset _, hprogress', rfl⟩
  refine ⟨t', ?_, hprogress'', by rw [hnames]; exact hdir'⟩
  show (o.forEach _ _ t).bind _ = _
  exact (congrArg (Option.bind · _) hu).trans ht'

theorem resolve_finishes (hnamed : m.WellNamed s) (hkinded : m.WellKinded s)
    (hagree : m.OppositesAgree s) (hstrings : ∀ p ∈ m.properties, (s.owner p).isString = false) :
    ∃ t, m.resolveNamedObjectReferences s (fuel + 4) o = some t ∧ m.Finished s t := by
  obtain ⟨t, ht, hgraph, hdir⟩ := packages_added (m := m) (s := s) (fuel + 3) o
  obtain ⟨u, hu, hprogress, hdir'⟩ := entities_resolved (fuel + 2) o hnamed hkinded hgraph
    hdir
  obtain ⟨t', ht', hfinished⟩ := properties_resolved fuel o hnamed hkinded hagree hstrings
    hprogress hdir'
  refine ⟨t', ?_, hfinished⟩
  show (o.forEach _ _ s).bind _ = _
  rw [ht, bind_some]
  show (m.resolveAndAddEntityDescriptions t (fuel + 4) o _).bind _ = _
  rw [hu]
  exact ht'

end Runs

theorem Finished.owner_not_string (hnamed : m.WellNamed s) (h : m.Finished s t)
    (hstrings : ∀ p ∈ m.properties, (s.owner p).isString = false) (d : D) :
    (t.owner d).isString = false := by
  by_cases hd : d ∈ m.unresolved .entity
  · obtain ⟨package, -, howner⟩ := h.progress.home d hd
    rw [howner]
    rfl
  · rw [h.progress.owner d hd]
    by_cases hp : d ∈ m.properties
    · exact hstrings d hp
    · refine hnamed.settled .owner d ?_
      unfold resolved
      rw [Finset.mem_union, not_or]
      exact ⟨hd, hp⟩

theorem Done.not_string (hnamed : m.WellNamed s) (key : Key) (h : m.Done s key (m.resolved key) f)
    (d : D) : (f d).isString = false := by
  by_cases hd : d ∈ m.resolved key
  · exact ((h d).1 hd).not_string
  · rw [(h d).2 hd]
    exact hnamed.settled key d hd

theorem Finished.not_string (hnamed : m.WellNamed s) (h : m.Finished s t)
    (hstrings : ∀ p ∈ m.properties, (s.owner p).isString = false) (key : Key) (d : D) :
    (t.valueForKey key d).isString = false := by
  have howner := h.owner_not_string hnamed hstrings
  cases key with
  | owner => exact howner d
  | parent => exact Done.not_string hnamed .parent h.progress.parent d
  | package => exact Done.not_string hnamed .package h.progress.package d
  | type =>
    show (t.type d).isString = false
    by_cases hlink : ∃ y, m.Linked s m.properties d y ∧ s.opposite d ≠ .object y
    · obtain ⟨y, hdy, hne⟩ := hlink
      rw [h.progress.linkedType d y hdy hne]
      exact howner y
    · have hold := h.progress.type d fun y hdy => of_not_not fun hne => hlink ⟨y, hdy, hne⟩
      by_cases hd : d ∈ m.properties
      · exact (hold.1 hd).not_string
      · rw [hold.2 hd]
        exact hnamed.settled .type d hd
  | opposite =>
    show (t.opposite d).isString = false
    by_cases hlink : ∃ y, m.Linked s m.properties d y
    · obtain ⟨y, hdy⟩ := hlink
      rw [h.progress.link d y hdy]
      rfl
    · by_cases hself : d ∈ m.properties ∧ m.ByName s d d
      · rw [h.progress.self d hself.1 hself.2]
        rfl
      · rw [h.progress.opposite d (fun y hdy => hlink ⟨y, hdy⟩) fun hd hname => hself ⟨hd, hname⟩]
        by_cases hd : d ∈ m.properties
        · cases hs : s.opposite d with
          | null | object o => rfl
          | string n =>
            obtain ⟨q, hmeant⟩ := hnamed.meant .opposite d hd n hs
            have hname : m.ByName s d q := ⟨n, hs, hmeant⟩
            by_cases hdq : d = q
            · exact absurd ⟨hd, hdq ▸ hname⟩ hself
            · exact absurd ⟨q, hdq, .inl ⟨hd, hname⟩⟩ hlink
        · exact hnamed.settled .opposite d hd

theorem Finished.alike {t' : NamedGraph D} (hnamed : m.WellNamed s) (hkinded : m.WellKinded s)
    (h : m.Finished s t) (h' : m.Finished s t') : m.Alike s t t' :=
  ⟨h.progress.unique hnamed hkinded (Finset.Subset.refl _) h'.progress, fun _ hn =>
    h.directory.alike h'.directory hn⟩

theorem Finished.fullName (hnamed : m.WellNamed s) (hkinded : m.WellKinded s) (h : m.Finished s t)
    (hstrings : ∀ p ∈ m.properties, (s.owner p).isString = false) (hd : d ∈ m.added) :
    ∃ n, (∀ fuel, m.fullName t.toModelGraph (fuel + 3) d = some n)
      ∧ ∀ n', m.FullNamed s d n' ↔ n' = n := by
  rcases mem_added.1 hd with (hd | hd) | hd
  · have hkind := kind_of_mem hd
    exact ⟨m.name d, fun fuel => fullName_of_package hkind, fun n' => fullNamed_of_package hkind⟩
  · have hkind := kind_of_mem hd
    obtain ⟨n, hn, hunique⟩ := h.progress.entity_fullName hnamed hkinded (Finset.Subset.refl _)
      hkind (.inl hd)
    exact ⟨n, fun fuel => hn (fuel + 1), fun n' => (fullNamed_of_entity hkind).trans (hunique n')⟩
  · have hkind := hkinded.kind_of_property hd
    obtain ⟨n, hn, hunique⟩ := h.progress.property_fullName hnamed hkinded hd hd (hstrings d hd)
    exact ⟨n, hn, fun n' => (fullNamed_of_property hkind).trans (hunique n')⟩

theorem Finished.add_again (hnamed : m.WellNamed s) (hkinded : m.WellKinded s) {u : NamedGraph D}
    (h : m.Finished s t) (hstrings : ∀ p ∈ m.properties, (s.owner p).isString = false)
    (hd : d ∈ m.added) (hgraph : u.toModelGraph = t.toModelGraph)
    (hdir : m.Directory s m.added u.descriptionsByName) :
    ∃ u', m.addDescription u (fuel + 3) d = some u' ∧ u'.toModelGraph = t.toModelGraph
      ∧ m.Directory s m.added u'.descriptionsByName := by
  obtain ⟨n, hn, hunique⟩ := h.fullName hnamed hkinded hstrings hd
  refine ⟨{ u with descriptionsByName := Function.update u.descriptionsByName n (some d) },
    addDescription_eq (fun hkind hnull => ?_) (by rw [hgraph]; exact hn fuel), hgraph, ?_⟩
  · have he : d ∈ m.unresolved .entity := by
      rcases mem_added.1 hd with (hd | hd) | hd
      · rw [kind_of_mem hd] at hkind
        cases hkind
      · exact hd
      · rw [hkinded.kind_of_property hd] at hkind
        cases hkind
    obtain ⟨package, -, howner⟩ := h.progress.home d he
    rw [show u.owner d = t.owner d by rw [hgraph], howner] at hnull
    cases hnull
  · have hput := hdir.put hd hunique
    rwa [Finset.insert_eq_of_mem hd] at hput

theorem Finished.resolve_again (hnamed : m.WellNamed s) (hkinded : m.WellKinded s)
    (h : m.Finished s t) (hstrings : ∀ p ∈ m.properties, (s.owner p).isString = false)
    (fuel : ℕ) (o : Enumeration D) :
    ∃ t', m.resolveNamedObjectReferences t (fuel + 4) o = some t' ∧ m.Finished s t' := by
  let Q : NamedGraph D → Prop := fun u =>
    u.toModelGraph = t.toModelGraph ∧ m.Directory s m.added u.descriptionsByName
  have hsettled : ∀ {u : NamedGraph D} key d isPackageRef, u.toModelGraph = t.toModelGraph →
      m.resolveProperty u (fuel + 4) key d isPackageRef = some u := by
    intro u key d isPackageRef hgraph
    refine resolveProperty_of_settled ?_
    rw [hgraph]
    exact h.not_string hnamed hstrings key d
  have hadd : ∀ d u, d ∈ m.added → Q u →
      ∃ u', m.addDescription u (fuel + 4) d = some u' ∧ Q u' :=
    fun d u hd ⟨hgraph, hdir⟩ => h.add_again hnamed hkinded hstrings hd hgraph hdir
  obtain ⟨u₀, hu₀, h₀⟩ := o.forEach_succeeds (s := m.unresolved .package) (x := t) (Q := Q)
    (f := fun s desc => m.addDescription s (fuel + 4) desc)
    (fun d u hd hu => hadd d u (mem_added.2 (.inl (.inl hd))) hu) ⟨rfl, h.directory⟩
  obtain ⟨u₁, hu₁, h₁⟩ := o.forEach_succeeds (s := m.unresolved .entity) (x := u₀) (Q := Q)
    (f := fun s desc => (m.resolveProperty s (fuel + 4) .owner desc true).bind
      fun s => m.addDescription s (fuel + 4) desc)
    (fun d u hd hu => by
      rw [hsettled .owner d true hu.1, bind_some]
      exact hadd d u (mem_added.2 (.inl (.inr hd))) hu) h₀
  obtain ⟨u₂, hu₂, h₂⟩ := o.forEach_succeeds (s := m.unresolved .entity) (x := u₁) (Q := Q)
    (f := fun s desc => m.resolveProperty s (fuel + 4) .parent desc false)
    (fun d u _ hu => ⟨u, hsettled .parent d false hu.1, hu⟩) h₁
  obtain ⟨u₃, hu₃, h₃⟩ := o.forEach_succeeds (s := m.properties) (x := u₂) (Q := Q)
    (f := fun s desc => (m.resolveProperty s (fuel + 4) .type desc false).bind fun s =>
      (m.resolveProperty s (fuel + 4) .owner desc false).bind fun s =>
        (m.resolveProperty s (fuel + 4) .package desc true).bind fun s =>
          m.addDescription s (fuel + 4) desc)
    (fun d u hd hu => by
      rw [hsettled .type d false hu.1, bind_some, hsettled .owner d false hu.1,
        bind_some, hsettled .package d true hu.1, bind_some]
      exact hadd d u (mem_added.2 (.inr hd)) hu) h₂
  obtain ⟨u₄, hu₄, h₄⟩ := o.forEach_succeeds (s := m.properties) (x := u₃) (Q := Q)
    (f := fun s desc => m.resolveProperty s (fuel + 4) .opposite desc false)
    (fun d u _ hu => ⟨u, hsettled .opposite d false hu.1, hu⟩) h₃
  refine ⟨u₄, ?_, by rw [h₄.1]; exact h.progress, h₄.2⟩
  show (o.forEach _ _ t).bind _ = _
  refine (congrArg (Option.bind · _) hu₀).trans ?_
  show ((o.forEach _ _ u₀).bind _).bind _ = _
  refine (congrArg (fun u => (Option.bind u _).bind _) hu₁).trans ?_
  show (o.forEach _ _ u₁).bind _ = _
  refine (congrArg (Option.bind · _) hu₂).trans ?_
  show (o.forEach _ _ u₂).bind _ = _
  exact (congrArg (Option.bind · _) hu₃).trans hu₄

section Failures

variable {isPackageRef : Bool}

theorem owner_addDescription (hp : t.owner p = .string n)
    (h : m.addDescription t fuel d = some t') : t'.owner p = .string n := by
  unfold addDescription at h
  obtain ⟨u, hu, h⟩ := bind_eq_some_iff.1 h
  obtain ⟨fullName, -, h⟩ := bind_eq_some_iff.1 h
  obtain rfl := some.inj h
  show u.owner p = .string n
  unfold addToAnonymousPackage at hu
  split_ifs at hu with hnull
  · have hne : p ≠ d := by
      rintro rfl
      rw [hp] at hnull
      cases hnull.2
    split at hu
    · obtain rfl := some.inj hu
      exact hp
    · split_ifs at hu
      obtain rfl := some.inj hu
      exact (Function.update_of_ne hne ..).trans hp
  · obtain rfl := some.inj hu
    exact hp

theorem owner_resolveProperty (hp : t.owner p = .string n) (hkind : m.kind p = .property)
    (hkey : key ≠ .opposite)
    (h : m.resolveProperty t fuel key d isPackageRef = some t') : t'.owner p = .string n := by
  unfold resolveProperty at h
  split at h
  · rename_i value hvalue
    split at h
    · rename_i realValue _
      cases key with
      | opposite => exact absurd rfl hkey
      | parent | type | package =>
        obtain rfl := some.inj h
        exact hp
      | owner =>
        have hvalue : t.owner d = .string value := hvalue
        unfold setValue at h
        dsimp only at h
        split_ifs at h with hd hnull
        · rw [hvalue] at hnull
          cases hnull
        · obtain rfl := some.inj h
          refine (Function.update_of_ne ?_ ..).trans hp
          rintro rfl
          exact hd hkind
    · obtain rfl := some.inj h
      exact hp
  · obtain rfl := some.inj h
    exact hp
  · obtain rfl := some.inj h
    exact hp

theorem addDescription_named_owner (hp : t.owner p = .string n) (hkind : m.kind p = .property) :
    m.addDescription t fuel p = none := by
  have hplaced : m.addToAnonymousPackage t p = some t := by
    refine if_neg fun h => ?_
    rw [hkind] at h
    cases h.1
  have hname : m.fullName t.toModelGraph fuel p = none := by
    cases fuel with
    | zero => rfl
    | succ fuel => rw [fullName, hp, hkind]
  unfold addDescription
  rw [hplaced]
  show (m.fullName t.toModelGraph fuel p).bind _ = _
  rw [hname]
  rfl

/-- A property description with a name as its owner cannot be added: the name is not replaced. -/
theorem add_named_owner (hp : t.owner p = .string n) (hkind : m.kind p = .property) :
    ((m.resolveProperty t fuel .type p false).bind fun s =>
      (m.resolveProperty s fuel .owner p false).bind fun s =>
        (m.resolveProperty s fuel .package p true).bind fun s =>
          m.addDescription s fuel p) = none := by
  rw [bind_eq_none_iff]
  intro u hu
  rw [bind_eq_none_iff]
  intro v hv
  rw [bind_eq_none_iff]
  intro w hw
  have hup := owner_resolveProperty hp hkind (by simp) hu
  have hvp := owner_resolveProperty hup hkind (by simp) hv
  exact addDescription_named_owner (owner_resolveProperty hvp hkind (by simp) hw) hkind

/-- With such a property description the call does not go through, in any order. -/
theorem resolve_fails (hkinded : m.WellKinded s) (hin : p ∈ m.properties)
    (hp : s.owner p = .string n) (fuel : ℕ) (o : Enumeration D) :
    m.resolveNamedObjectReferences s fuel o = none := by
  have hkind := hkinded.kind_of_property hin
  let Q : NamedGraph D → Prop := fun t => t.owner p = .string n
  refine bind_eq_none_iff.2 fun t₀ ht₀ => ?_
  have h₀ : Q t₀ := Enumeration.forEach_preserves
    (fun d t t' _ ht h => owner_addDescription ht h) hp ht₀
  refine bind_eq_none_iff.2 fun t₂ ht₂ => ?_
  obtain ⟨t₁, ht₁, ht₂⟩ := bind_eq_some_iff.1 ht₂
  have h₁ : Q t₁ := Enumeration.forEach_preserves (fun d t t' _ ht h => by
    obtain ⟨u, hu, h⟩ := bind_eq_some_iff.1 h
    exact owner_addDescription (owner_resolveProperty ht hkind (by simp) hu) h) h₀ ht₁
  have h₂ : Q t₂ := Enumeration.forEach_preserves
    (fun d t t' _ ht h => owner_resolveProperty ht hkind (by simp) h) h₁ ht₂
  refine bind_eq_none_iff.2 fun t₃ ht₃ => ?_
  have hfails := Enumeration.forEach_fails (o := o) (s := m.properties) (Q := Q) (a := p)
    (f := fun s desc => (m.resolveProperty s fuel .type desc false).bind fun s =>
      (m.resolveProperty s fuel .owner desc false).bind fun s =>
        (m.resolveProperty s fuel .package desc true).bind fun s =>
          m.addDescription s fuel desc)
    (fun d t t' _ ht h => by
      obtain ⟨u, hu, h⟩ := bind_eq_some_iff.1 h
      obtain ⟨v, hv, h⟩ := bind_eq_some_iff.1 h
      obtain ⟨w, hw, h⟩ := bind_eq_some_iff.1 h
      have hup := owner_resolveProperty ht hkind (by simp) hu
      have hvp := owner_resolveProperty hup hkind (by simp) hv
      exact owner_addDescription (owner_resolveProperty hvp hkind (by simp) hw) h)
    (fun t ht => add_named_owner ht hkind) hin h₂
  exact absurd (hfails.symm.trans ht₃) (by simp)

/-- The names are resolved exactly if no property description has a name as its owner. -/
theorem resolves_iff (m : Elements D) (s : NamedGraph D) (hnamed : m.WellNamed s)
    (hkinded : m.WellKinded s) (hagree : m.OppositesAgree s) :
    m.Resolves s ↔ ∀ p ∈ m.properties, (s.owner p).isString = false := by
  constructor
  · rintro ⟨least, h⟩ p hp
    cases howner : s.owner p with
    | null | object e => rfl
    | string n =>
      obtain ⟨t, -, ht, -⟩ := h least (Nat.le_refl _) .ofToList .ofToList
      rw [resolve_fails hkinded hp howner] at ht
      cases ht
  · intro hstrings
    refine ⟨4, fun fuel hfuel o o' => ?_⟩
    obtain ⟨fuel, rfl⟩ := Nat.exists_eq_add_of_le' hfuel
    obtain ⟨t, ht, hfinished⟩ := resolve_finishes fuel o hnamed hkinded hagree hstrings
    obtain ⟨t', ht', hfinished'⟩ := resolve_finishes fuel o' hnamed hkinded hagree hstrings
    obtain ⟨t'', ht'', hfinished''⟩ := hfinished.resolve_again hnamed hkinded hstrings fuel o'
    exact ⟨t, t', ht, ht', hfinished.alike hnamed hkinded hfinished',
      hfinished.not_string hnamed hstrings, t'', ht'',
      hfinished.alike hnamed hkinded hfinished''⟩

end Failures

section People

/-- The entity description `Person`, with the property description `age`. -/
inductive People
  | anonymous
  | person
  | age
  deriving DecidableEq

open People

def people : Elements People where
  kind
    | anonymous => .package
    | person => .entity
    | age => .property
  name
    | anonymous => "Anonymous"
    | person => "Person"
    | age => "age"
  unresolvedDescriptions := {person, age}

/-- The type of `age` is a name, and the owner may be one. -/
def peopleGraph (owner : Ref People) : NamedGraph People where
  owner
    | age => owner
    | anonymous | person => .null
  type
    | age => .string "Person"
    | anonymous | person => .null
  descriptionsByName n := if n = "Anonymous" then some anonymous else none

variable {owner : Ref People} {n : String} {d : People}

theorem person_named (h : people.EntityNamed (peopleGraph owner) person n) :
    n = "Anonymous.Person" := by
  rcases h with ⟨package, ⟨-, hkind, -⟩, rfl⟩ | ⟨hnot, -⟩
  · cases package with
    | anonymous => rfl
    | person | age => cases hkind
  · exact absurd (by decide) hnot

theorem named_person : people.EntityNamed (peopleGraph owner) person "Anonymous.Person" :=
  .inl ⟨anonymous, ⟨by decide, rfl, .inl rfl⟩, rfl⟩

theorem people_present (howner : owner = .object person ∨ owner = .string "Person")
    (h : people.Present (peopleGraph owner) n d) : n = "Anonymous" ∧ d = anonymous
      ∨ n = "Anonymous.Person" ∧ d = person ∨ n = "Anonymous.Person.age" ∧ d = age := by
  rcases h with h | ⟨hin, h⟩
  · change (if n = "Anonymous" then some anonymous else none) = some d at h
    split_ifs at h with hn
    exact .inl ⟨hn, (some.inj h).symm⟩
  · cases d with
    | anonymous => exact absurd hin (by decide)
    | person => exact .inr (.inl ⟨person_named h, rfl⟩)
    | age =>
      refine .inr (.inr ⟨?_, rfl⟩)
      rcases howner with rfl | rfl
      · obtain ⟨fullName, hname, rfl⟩ := h
        rw [person_named hname]
        rfl
      · obtain ⟨e, fullName, ⟨hkind, -⟩, hname, rfl⟩ := h
        cases e with
        | person =>
          rw [person_named hname]
          rfl
        | anonymous | age => cases hkind

theorem people_refers (howner : owner = .object person ∨ owner = .string "Person") :
    people.Refers (peopleGraph owner) "Person" person := by
  refine .inr ⟨fun d h => ?_, .inr ⟨by decide, named_person⟩, fun d h => ?_⟩
  · rcases people_present howner h with ⟨hn, -⟩ | ⟨hn, -⟩ | ⟨hn, -⟩ <;>
      exact absurd hn (by decide)
  · rcases people_present howner h with ⟨hn, -⟩ | ⟨-, hd⟩ | ⟨hn, -⟩
    · exact absurd hn (by decide)
    · exact hd
    · exact absurd hn (by decide)

theorem people_wellNamed (howner : owner = .object person ∨ owner = .string "Person") :
    people.WellNamed (peopleGraph owner) where
  anonymous := by
    refine ⟨.anonymous, rfl, .inl rfl, fun d h => ?_⟩
    rcases people_present howner h with ⟨-, hd⟩ | ⟨hn, -⟩ | ⟨hn, -⟩
    · exact hd
    · exact absurd hn (by decide)
    · exact absurd hn (by decide)
  meant := by
    intro key d _ n hn
    have hrefers := people_refers howner
    cases key with
    | owner =>
      cases d with
      | anonymous | person => cases hn
      | age =>
        obtain rfl : owner = .string n := hn
        rcases howner with howner | howner
        · cases howner
        · obtain rfl := Ref.string.inj howner
          exact ⟨person, rfl, hrefers⟩
    | type =>
      cases d with
      | anonymous | person => cases hn
      | age =>
        obtain rfl := Ref.string.inj hn
        exact ⟨person, by decide, hrefers⟩
    | parent | package | opposite => cases hn
  settled := by
    intro key d hd
    cases key with
    | owner | type =>
      cases d with
      | anonymous | person => rfl
      | age => exact absurd (by decide) hd
    | parent | package | opposite => rfl

theorem people_wellKinded (howner : owner = .object person ∨ owner = .string "Person") :
    people.WellKinded (peopleGraph owner) where
  propertyDescriptions _ _ h := by cases h
  ownerOfProperty := by
    intro p e hkind he
    cases p with
    | anonymous | person => cases hkind
    | age =>
      obtain rfl : owner = .object e := he
      rcases howner with howner | howner
      · obtain rfl := Ref.object.inj howner
        rfl
      · cases howner
  ownerOfEntity := by
    intro e g hkind hg
    cases e with
    | anonymous | age => cases hkind
    | person => cases hg
  package _ _ h := by cases h
  extensions _ _ h := by cases h
  idle _ := rfl

theorem people_oppositesAgree : people.OppositesAgree (peopleGraph owner) := by
  rintro p q (h | ⟨-, n, hn, -⟩)
  · cases h
  · cases hn

theorem people_resolves_iff : people.Resolves (peopleGraph (.object person))
    ↔ ∀ p ∈ people.properties, ((peopleGraph (.object person)).owner p).isString = false :=
  resolves_iff people (peopleGraph (.object person)) (people_wellNamed (.inl rfl))
    (people_wellKinded (.inl rfl)) people_oppositesAgree

theorem named_owner_not_resolves : ¬ ∀ s : NamedGraph People, people.WellNamed s →
    people.WellKinded s → people.OppositesAgree s → people.Resolves s := by
  intro h
  obtain ⟨least, h⟩ := h (peopleGraph (.string "Person")) (people_wellNamed (.inr rfl))
    (people_wellKinded (.inr rfl)) people_oppositesAgree
  obtain ⟨t, -, ht, -⟩ := h least (Nat.le_refl _) .ofToList .ofToList
  rw [resolve_fails (people_wellKinded (.inr rfl)) (show age ∈ people.properties by decide) rfl]
    at ht
  cases ht

end People

end Etoile.EtoileFoundation.Elements
