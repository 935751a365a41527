import Etoile.EtoileFoundation.DenotedNames

/-!
# Names become references

Whatever the order, what has been resolved is what the names denote, and what has not been resolved
is as it was.
-/

namespace Etoile.EtoileFoundation.Elements

open Finset Function Option

variable {D : Type} [DecidableEq D] {m : Elements D} {s t : NamedGraph D} {g g' : ModelGraph D}
  {fuel : ℕ} {n : String} {d e p q x y package : D} {key : Key} {r r' : Ref D} {f f' : D → Ref D}
  {done entered parented typed linked : Finset D}

section Progress

def Settles (m : Elements D) (s : NamedGraph D) (key : Key) (desc : D) (r : Ref D) : Prop :=
  match s.valueForKey key desc with
  | .string n => ∃ value, m.Meant s key desc n value ∧ r = .object value
  | .null | .object _ => r = s.valueForKey key desc

theorem Settles.unique (h : m.Settles s key d r) (h' : m.Settles s key d r') : r = r' := by
  unfold Settles at h h'
  cases hvalue : s.valueForKey key d with
  | string n =>
    rw [hvalue] at h h'
    obtain ⟨value, hmeant, rfl⟩ := h
    obtain ⟨value', hmeant', rfl⟩ := h'
    rw [hmeant.unique hmeant']
  | null | object o =>
    rw [hvalue] at h h'
    rw [h, h']

theorem Settles.not_string (h : m.Settles s key d r) : r.isString = false := by
  unfold Settles at h
  cases hvalue : s.valueForKey key d with
  | string n =>
    rw [hvalue] at h
    obtain ⟨value, -, rfl⟩ := h
    rfl
  | null | object o =>
    rw [hvalue] at h
    rw [h]
    rfl

/-- The references of `done` are settled, and the others as they were. -/
def Done (m : Elements D) (s : NamedGraph D) (key : Key) (done : Finset D) (f : D → Ref D) : Prop :=
  ∀ d, (d ∈ done → m.Settles s key d (f d)) ∧ (d ∉ done → f d = s.valueForKey key d)

theorem done_init : m.Done s key ∅ (s.valueForKey key) :=
  fun d => ⟨fun h => (by cases h), fun _ => rfl⟩

theorem Done.step (h : m.Done s key done f) (hr : m.Settles s key d r) :
    m.Done s key (insert d done) (update f d r) := by
  intro x
  rw [mem_insert, update_apply]
  by_cases hx : x = d
  · subst hx
    rw [if_pos rfl]
    exact ⟨fun _ => hr, fun hnot => absurd (.inl rfl) hnot⟩
  · rw [if_neg hx]
    exact ⟨fun hin => (h x).1 (hin.resolve_left hx), fun hnot => (h x).2 fun hin => hnot (.inr hin)⟩

theorem Done.unique (h : m.Done s key done f) (h' : m.Done s key done f') : f = f' := by
  funext d
  by_cases hd : d ∈ done
  · exact ((h d).1 hd).unique ((h' d).1 hd)
  · rw [(h d).2 hd, (h' d).2 hd]

def ByName (m : Elements D) (s : NamedGraph D) (x y : D) : Prop :=
  ∃ n, s.opposite x = .string n ∧ m.Meant s .opposite x n y

/-- One of the two has the other as its opposite by name, which is resolved. -/
def Linked (m : Elements D) (s : NamedGraph D) (linked : Finset D) (x y : D) : Prop :=
  x ≠ y ∧ (x ∈ linked ∧ m.ByName s x y ∨ y ∈ linked ∧ m.ByName s y x)

theorem ByName.unique (h : m.ByName s d x) (h' : m.ByName s d y) : x = y := by
  obtain ⟨n, hn, hmeant⟩ := h
  obtain ⟨n', hn', hmeant'⟩ := h'
  obtain rfl := Ref.string.inj (hn.symm.trans hn')
  exact hmeant.unique hmeant'

/-- What is established of the references when the owners of `entered`, the parents of `parented`,
the types and packages of `typed` and the opposites of `linked` are resolved. -/
structure Progress (m : Elements D) (s : NamedGraph D) (entered parented typed linked : Finset D)
    (g : ModelGraph D) : Prop where
  home : ∀ e ∈ entered, ∃ package, m.Home s e package ∧ g.owner e = .object package
  owner : ∀ d ∉ entered, g.owner d = s.owner d
  entityDescriptions : ∀ package e, e ∈ g.entityDescriptions package
    ↔ e ∈ s.entityDescriptions package
      ∨ e ∈ entered ∧ s.owner e = .null ∧ m.PackageNamed s "Anonymous" package
  extensions : ∀ package p, p ∈ g.extensions package ↔ p ∈ s.extensions package
    ∧ ¬ (m.PackageNamed s "Anonymous" package
      ∧ ∃ e ∈ entered, s.owner e = .null ∧ s.owner p = .object e)
  parent : m.Done s .parent parented g.parent
  package : m.Done s .package typed g.package
  link : ∀ x y, m.Linked s linked x y → g.opposite x = .object y
  self : ∀ x ∈ linked, m.ByName s x x → g.opposite x = .null
  opposite : ∀ x, (∀ y, ¬ m.Linked s linked x y) → (x ∈ linked → ¬ m.ByName s x x) →
    g.opposite x = s.opposite x
  linkedType : ∀ x y, m.Linked s linked x y → s.opposite x ≠ .object y → g.type x = g.owner y
  type : ∀ x, (∀ y, m.Linked s linked x y → s.opposite x = .object y) →
    (x ∈ typed → m.Settles s .type x (g.type x)) ∧ (x ∉ typed → g.type x = s.type x)
  idle : g.isSettingOpposite = s.isSettingOpposite

theorem progress_init : m.Progress s ∅ ∅ ∅ ∅ s.toModelGraph := by
  have hnot : ∀ x y, ¬ m.Linked s ∅ x y := by
    rintro x y ⟨-, ⟨h, -⟩ | ⟨h, -⟩⟩ <;> cases h
  refine ⟨fun e he => (by cases he), fun _ _ => rfl, fun package e => ?_, fun package p => ?_,
    done_init, done_init, fun x y h => absurd h (hnot x y), fun x hx => (by cases hx),
    fun _ _ _ => rfl, fun x y h => absurd h (hnot x y),
    fun x _ => ⟨fun h => (by cases h), fun _ => rfl⟩, rfl⟩
  · simp
  · simp

omit [DecidableEq D] in
theorem graph_ext (hopposite : g.opposite = g'.opposite)
    (hidle : g.isSettingOpposite = g'.isSettingOpposite) (howner : g.owner = g'.owner)
    (htype : g.type = g'.type) (hparent : g.parent = g'.parent) (hpackage : g.package = g'.package)
    (hentities : g.entityDescriptions = g'.entityDescriptions)
    (hextensions : g.extensions = g'.extensions) : g = g' := by
  obtain ⟨⟨_, _, _, _⟩, _, _, _, _⟩ := g
  obtain ⟨⟨_, _, _, _⟩, _, _, _, _⟩ := g'
  cases hopposite
  cases hidle
  cases howner
  cases htype
  cases hparent
  cases hpackage
  cases hentities
  cases hextensions
  rfl

theorem Progress.unique (hnamed : m.WellNamed s) (hkinded : m.WellKinded s)
    (hentered : entered ⊆ m.unresolved .entity) (h : m.Progress s entered parented typed linked g)
    (h' : m.Progress s entered parented typed linked g') : g = g' := by
  have howner : g.owner = g'.owner := by
    funext d
    by_cases hd : d ∈ entered
    · obtain ⟨package, hhome, hg⟩ := h.home d hd
      obtain ⟨package', hhome', hg'⟩ := h'.home d hd
      obtain ⟨home, -, hunique⟩ := exists_home hnamed hkinded (hentered hd)
      rw [hg, hg', (hunique package).1 hhome, (hunique package').1 hhome']
    · rw [h.owner d hd, h'.owner d hd]
  refine graph_ext ?_ (h.idle.trans h'.idle.symm) howner ?_ (h.parent.unique h'.parent)
    (h.package.unique h'.package) ?_ ?_
  · funext x
    by_cases hlink : ∃ y, m.Linked s linked x y
    · obtain ⟨y, hxy⟩ := hlink
      rw [h.link x y hxy, h'.link x y hxy]
    · have hnot : ∀ y, ¬ m.Linked s linked x y := fun y hxy => hlink ⟨y, hxy⟩
      by_cases hself : x ∈ linked ∧ m.ByName s x x
      · rw [h.self x hself.1 hself.2, h'.self x hself.1 hself.2]
      · have hself : x ∈ linked → ¬ m.ByName s x x := fun hx hname => hself ⟨hx, hname⟩
        rw [h.opposite x hnot hself, h'.opposite x hnot hself]
  · funext x
    by_cases hlink : ∃ y, m.Linked s linked x y ∧ s.opposite x ≠ .object y
    · obtain ⟨y, hxy, hne⟩ := hlink
      rw [h.linkedType x y hxy hne, h'.linkedType x y hxy hne, howner]
    · have hnot : ∀ y, m.Linked s linked x y → s.opposite x = .object y := fun y hxy =>
        of_not_not fun hne => hlink ⟨y, hxy, hne⟩
      by_cases hx : x ∈ typed
      · exact ((h.type x hnot).1 hx).unique ((h'.type x hnot).1 hx)
      · rw [(h.type x hnot).2 hx, (h'.type x hnot).2 hx]
  · funext package
    ext e
    rw [h.entityDescriptions, h'.entityDescriptions]
  · funext package
    ext p
    rw [h.extensions, h'.extensions]

end Progress

theorem not_linked : ¬ m.Linked s ∅ x y := by
  rintro ⟨-, ⟨h, -⟩ | ⟨h, -⟩⟩ <;> cases h

theorem anonymous_iff (hnamed : m.WellNamed s) (hkinded : m.WellKinded s)
    (howner : s.owner e = .null) (hhome : m.Home s e package) :
    m.PackageNamed s "Anonymous" d ↔ d = package := by
  unfold Home at hhome
  rw [howner] at hhome
  obtain ⟨anonymous, hkind, hdenotes⟩ := hnamed.anonymous
  have hiff := fun d => hdenotes.packageNamed (d := d) hkinded hkind
  rw [hiff d, (hiff package).1 hhome.2]

theorem Progress.home_step (h : m.Progress s entered parented typed linked g)
    (hhome : m.Home s e package) :
    (∀ x ∈ insert e entered, ∃ package', m.Home s x package'
        ∧ update g.owner e (.object package) x = .object package')
      ∧ ∀ x ∉ insert e entered, update g.owner e (.object package) x = s.owner x := by
  constructor
  · intro x hx
    rw [update_apply]
    by_cases hxe : x = e
    · subst hxe
      rw [if_pos rfl]
      exact ⟨package, hhome, rfl⟩
    · rw [if_neg hxe]
      exact h.home x ((mem_insert.1 hx).resolve_left hxe)
  · intro x hx
    rw [mem_insert, not_or] at hx
    exact (update_of_ne hx.1 ..).trans (h.owner x hx.2)

theorem Progress.enter (h : m.Progress s entered ∅ ∅ ∅ g) (hhome : m.Home s e package)
    (howner : s.owner e ≠ .null) :
    m.Progress s (insert e entered) ∅ ∅ ∅
      { g with owner := update g.owner e (.object package) } := by
  refine ⟨(h.home_step hhome).1, (h.home_step hhome).2, fun package x => ?_,
    fun package p => ?_, h.parent, h.package, fun x y hlink => absurd hlink not_linked, h.self, h.opposite,
    fun x y hlink => absurd hlink not_linked, h.type, h.idle⟩
  · show x ∈ g.entityDescriptions package ↔ _
    rw [h.entityDescriptions, mem_insert]
    constructor
    · rintro (hx | ⟨hx, hnull⟩)
      · exact .inl hx
      · exact .inr ⟨.inr hx, hnull⟩
    · rintro (hx | ⟨rfl | hx, hnull⟩)
      · exact .inl hx
      · exact absurd hnull.1 howner
      · exact .inr ⟨hx, hnull⟩
  · show p ∈ g.extensions package ↔ _
    rw [h.extensions]
    refine and_congr_right fun _ => not_congr (and_congr_right fun _ => ?_)
    constructor
    · rintro ⟨x, hx, hnull⟩
      exact ⟨x, mem_insert_of_mem hx, hnull⟩
    · rintro ⟨x, hx, hnull⟩
      rcases mem_insert.1 hx with rfl | hx
      · exact absurd hnull.1 howner
      · exact ⟨x, hx, hnull⟩

theorem Progress.enter_anonymous (hnamed : m.WellNamed s) (hkinded : m.WellKinded s)
    (hentered : entered ⊆ m.unresolved .entity) (he : e ∈ m.unresolved .entity)
    (h : m.Progress s entered ∅ ∅ ∅ t.toModelGraph) (hhome : m.Home s e package)
    (howner : s.owner e = .null) :
    m.Progress s (insert e entered) ∅ ∅ ∅ (addEntityDescription t package e).toModelGraph := by
  have hanonymous := fun d => anonymous_iff (d := d) hnamed hkinded howner hhome
  refine ⟨(h.home_step hhome).1, (h.home_step hhome).2, fun package' x => ?_,
    fun package' p => ?_, h.parent, h.package, fun x y hlink => absurd hlink not_linked, h.self, h.opposite,
    fun x y hlink => absurd hlink not_linked, h.type, h.idle⟩
  · show x ∈ update t.entityDescriptions package _ package' ↔ _
    rw [hanonymous, mem_insert]
    have hold := h.entityDescriptions package' x
    rw [hanonymous] at hold
    by_cases hpackage : package' = package
    · subst hpackage
      rw [update_self, mem_insert, hold]
      constructor
      · rintro (rfl | hx | ⟨hx, hnull⟩)
        · exact .inr ⟨.inl rfl, howner, rfl⟩
        · exact .inl hx
        · exact .inr ⟨.inr hx, hnull⟩
      · rintro (hx | ⟨rfl | hx, hnull⟩)
        · exact .inr (.inl hx)
        · exact .inl rfl
        · exact .inr (.inr ⟨hx, hnull⟩)
    · rw [update_of_ne hpackage, hold]
      simp only [hpackage, and_false]
  · show p ∈ update t.extensions package _ package' ↔ _
    rw [hanonymous]
    have hold := h.extensions package' p
    rw [hanonymous] at hold
    by_cases hpackage : package' = package
    · subst hpackage
      rw [update_self, mem_filter, hold, and_assoc]
      refine and_congr_right fun hp => ?_
      -- the owner of an extension is not among those that are resolved here
      have hkind := hkinded.extensions _ p hp
      have hpe : p ∉ m.unresolved .entity := fun hp' => by
        rw [kind_of_mem hp'] at hkind
        cases hkind
      have hpowner : update t.owner e (.object package') p = s.owner p := by
        rw [update_of_ne (by rintro rfl; exact hpe he)]
        exact h.owner p fun hp' => hpe (hentered hp')
      rw [hpowner]
      simp only [true_and]
      constructor
      · rintro ⟨hnot, hne⟩ ⟨x, hx, hnull, hpx⟩
        rcases mem_insert.1 hx with rfl | hx
        · exact hne hpx
        · exact hnot ⟨x, hx, hnull, hpx⟩
      · intro hnot
        exact ⟨fun ⟨x, hx, hnull⟩ => hnot ⟨x, mem_insert_of_mem hx, hnull⟩,
          fun hpe => hnot ⟨e, mem_insert_self .., howner, hpe⟩⟩
    · rw [update_of_ne hpackage, hold]
      simp only [hpackage, false_and, not_false_iff, and_true]

section FullNames

omit [DecidableEq D] in
theorem fullName_of_package (hkind : m.kind package = .package) :
    m.fullName g (fuel + 1) package = some (m.name package) := by
  unfold fullName
  rw [hkind]

omit [DecidableEq D] in
theorem fullName_of_object (hkind : m.kind d ≠ .package) (howner : g.owner d = .object e) :
    m.fullName g (fuel + 1) d
      = (m.fullName g fuel e).map fun fullName => fullName ++ "." ++ m.name d := by
  rw [fullName, howner]
  cases hd : m.kind d with
  | package => exact absurd hd hkind
  | entity | property => rfl

omit [DecidableEq D] in
theorem fullName_in_package (hd : m.kind d ≠ .package) (howner : g.owner d = .object package)
    (hkind : m.kind package = .package) :
    m.fullName g (fuel + 2) d = some (m.name package ++ "." ++ m.name d) := by
  rw [fullName_of_object hd howner, fullName_of_package hkind]
  rfl

theorem Progress.entity_fullName (hnamed : m.WellNamed s) (hkinded : m.WellKinded s)
    (hentered : entered ⊆ m.unresolved .entity)
    (h : m.Progress s entered parented typed linked g) (hkind : m.kind e = .entity)
    (he : e ∈ entered ∨ e ∉ m.unresolved .entity) :
    ∃ n, (∀ fuel, m.fullName g (fuel + 2) e = some n) ∧ ∀ n', m.EntityNamed s e n' ↔ n' = n := by
  have hne : m.kind e ≠ .package := by
    rw [hkind]
    simp
  have hgiven : ∀ package, m.kind package = .package → g.owner e = .object package →
      (∀ d, m.Home s e d ↔ d = package) → (e ∉ m.unresolved .entity → s.owner e ≠ .null) →
      ∃ n, (∀ fuel, m.fullName g (fuel + 2) e = some n) ∧ ∀ n', m.EntityNamed s e n' ↔ n' = n := by
    intro package hpackage howner hhome hnull
    refine ⟨_, fun fuel => fullName_in_package hne howner hpackage, fun n' => ?_⟩
    constructor
    · rintro (⟨d, hd, rfl⟩ | ⟨hnot, howner', -⟩)
      · rw [(hhome d).1 hd]
      · exact absurd howner' (hnull hnot)
    · rintro rfl
      exact .inl ⟨package, (hhome package).2 rfl, rfl⟩
  rcases he with he | he
  · obtain ⟨package, hpackage, hunique⟩ := exists_home hnamed hkinded (hentered he)
    obtain ⟨home, hhome, howner⟩ := h.home e he
    rw [(hunique home).1 hhome] at howner
    exact hgiven package hpackage howner hunique fun hnot => absurd (hentered he) hnot
  · have hg := h.owner e fun hin => he (hentered hin)
    have hsettled := settled_owner hnamed hkind hkinded he
    cases howner : s.owner e with
    | string n =>
      rw [howner] at hsettled
      cases hsettled
    | object o =>
      refine hgiven o (hkinded.ownerOfEntity e o hkind howner) (hg.trans howner) (fun d => ?_)
        fun _ hnull => ?_
      · unfold Home
        rw [howner]
      · rw [howner] at hnull
        cases hnull
    | null =>
      refine ⟨m.name e, fun fuel => ?_, fun n' => ?_⟩
      · rw [fullName, hg, howner, hkind]
      · constructor
        · rintro (⟨d, hd, -⟩ | ⟨-, -, hn⟩)
          · unfold Home at hd
            rw [howner] at hd
            exact absurd hd.1 he
          · exact hn
        · rintro rfl
          exact .inr ⟨he, howner, rfl⟩

theorem Progress.property_fullName (hnamed : m.WellNamed s) (hkinded : m.WellKinded s)
    (h : m.Progress s (m.unresolved .entity) parented typed linked g) (hp : p ∈ m.properties)
    (htyped : p ∈ typed) (hstring : (s.owner p).isString = false) :
    ∃ n, (∀ fuel, m.fullName g (fuel + 3) p = some n) ∧ ∀ n', m.PropertyNamed s p n' ↔ n' = n := by
  have hkind := hkinded.kind_of_property hp
  have hne : m.kind p ≠ .package := by
    rw [hkind]
    simp
  have hg := h.owner p (hkinded.not_entity hp)
  unfold PropertyNamed
  cases howner : s.owner p with
  | string n =>
    rw [howner] at hstring
    cases hstring
  | object e =>
    have he := hkinded.ownerOfProperty p e hkind howner
    obtain ⟨n, hn, hnames⟩ := h.entity_fullName hnamed hkinded (Subset.refl _) he
      (Classical.em _)
    refine ⟨n ++ "." ++ m.name p, fun fuel => ?_, fun n' => ?_⟩
    · rw [fullName_of_object hne (hg.trans howner), hn]
      rfl
    · constructor
      · rintro ⟨k, hk, rfl⟩
        rw [(hnames k).1 hk]
      · rintro rfl
        exact ⟨n, (hnames n).2 rfl, rfl⟩
  | null =>
    have hpackage := (h.package p).1 htyped
    unfold Settles at hpackage
    have hfull : ∀ package, m.kind package = .package → g.package p = .object package →
        ∀ fuel, m.fullName g (fuel + 3) p = some (m.name package ++ "." ++ m.name p) := by
      intro package hkind' hgp fuel
      rw [fullName, hg, howner, hkind]
      dsimp only
      rw [hgp]
      dsimp only
      rw [fullName_of_package hkind']
      rfl
    have hvalue : s.valueForKey .package p = s.package p := rfl
    rw [hvalue] at hpackage
    cases hs : s.package p with
    | null =>
      rw [hs] at hpackage
      refine ⟨m.name p, fun fuel => ?_, fun n' => Iff.rfl⟩
      rw [fullName, hg, howner, hkind]
      dsimp only
      rw [hpackage]
    | object package =>
      rw [hs] at hpackage
      exact ⟨_, hfull package (hkinded.package p package hs) hpackage, fun n' => Iff.rfl⟩
    | string k =>
      rw [hs] at hpackage
      obtain ⟨package, ⟨hpkind, hdenotes⟩, hgp⟩ := hpackage
      refine ⟨_, hfull package hpkind hgp, fun n' => ?_⟩
      constructor
      · rintro ⟨d, hd, rfl⟩
        rw [(hdenotes.packageNamed hkinded hpkind).1 hd]
      · rintro rfl
        exact ⟨package, (hdenotes.packageNamed hkinded hpkind).2 rfl, rfl⟩

end FullNames

section Steps

variable {isPackageRef : Bool}

theorem resolveProperty_of_settled (h : (t.valueForKey key d).isString = false) :
    m.resolveProperty t fuel key d isPackageRef = some t := by
  unfold resolveProperty
  cases hvalue : t.valueForKey key d with
  | string n =>
    rw [hvalue] at h
    cases h
  | null | object o => rfl

/-- A reference that is only stored, by `put`, is settled. -/
theorem resolveProperty_settles (key : Key) (isPackageRef : Bool) (put : Ref D → NamedGraph D)
    (hvalue : t.valueForKey key d = s.valueForKey key d) (hsame : put (t.valueForKey key d) = t)
    (hset : ∀ value, m.setValue t fuel key d value = some (put (.object value)))
    (hfound : ∀ n, s.valueForKey key d = .string n →
      ∃ value, m.Meant s key d n value ∧ found t n isPackageRef = some value) :
    ∃ r, m.Settles s key d r ∧ m.resolveProperty t fuel key d isPackageRef = some (put r) := by
  unfold Settles
  cases hs : s.valueForKey key d with
  | string n =>
    obtain ⟨value, hmeant, hvalue'⟩ := hfound n hs
    refine ⟨.object value, ⟨value, hmeant, rfl⟩, ?_⟩
    unfold resolveProperty
    rw [hvalue, hs]
    dsimp only
    rw [hvalue']
    exact hset value
  | null | object o =>
    refine ⟨_, rfl, ?_⟩
    rw [resolveProperty_of_settled (by rw [hvalue, hs]; rfl), ← hs, ← hvalue, hsame]

theorem mem_done (hkinded : m.WellKinded s)
    (hdone : m.unresolved .package ∪ m.unresolved .entity ⊆ done) (hkind : m.kind d ≠ .property)
    (hd : d ∈ m.added) : d ∈ done := by
  rcases mem_added.1 hd with (hd | hd) | hd
  · exact hdone (mem_union_left _ hd)
  · exact hdone (mem_union_right _ hd)
  · exact absurd (hkinded.kind_of_property hd) hkind

theorem Directory.found_meant (hkinded : m.WellKinded s)
    (h : m.Directory s done t.descriptionsByName)
    (hdone : m.unresolved .package ∪ m.unresolved .entity ⊆ done)
    (hkey : key = .parent ∨ key = .type) (hmeant : m.Meant s key d n e) :
    Elements.found t n false = some e := by
  have hmeant : m.kind e ≠ .property ∧ m.Refers s n e := by
    rcases hkey with rfl | rfl
    · exact hmeant
    · exact hmeant
  exact h.found hmeant.2 (mem_done hkinded hdone hmeant.1)

theorem Directory.found_package (hkinded : m.WellKinded s)
    (h : m.Directory s done t.descriptionsByName) (hdone : m.unresolved .package ⊆ done)
    (hkind : m.kind package = .package) (hdenotes : m.Denotes s n package) :
    Elements.found t n true = some package := by
  have hfound := h.found_of_denotes hdenotes fun hadded => by
    rcases mem_added.1 hadded with (hd | hd) | hd
    · exact hdone hd
    · rw [kind_of_mem hd] at hkind
      cases hkind
    · rw [hkinded.kind_of_property hd] at hkind
      cases hkind
  unfold Elements.found
  rw [hfound]

theorem addDescription_eq (howner : m.kind d = .entity → t.owner d ≠ .null)
    (hn : m.fullName t.toModelGraph fuel d = some n) :
    m.addDescription t fuel d = some { t with
      descriptionsByName := update t.descriptionsByName n (some d) } := by
  have hplaced : m.addToAnonymousPackage t d = some t := if_neg fun h => howner h.1 h.2
  unfold addDescription
  rw [hplaced]
  show (m.fullName t.toModelGraph fuel d).bind _ = _
  rw [hn]
  rfl

theorem addDescription_anonymous (hkind : m.kind d = .entity) (howner : t.owner d = .null)
    (hfound : t.descriptionsByName "Anonymous" = some package)
    (hpackage : m.kind package = .package)
    (hn : m.fullName (addEntityDescription t package d).toModelGraph fuel d = some n) :
    m.addDescription t fuel d = some { addEntityDescription t package d with
      descriptionsByName := update t.descriptionsByName n (some d) } := by
  have hplaced : m.addToAnonymousPackage t d = some (addEntityDescription t package d) := by
    unfold addToAnonymousPackage
    rw [if_pos ⟨hkind, howner⟩, hfound]
    exact if_pos hpackage
  unfold addDescription
  rw [hplaced]
  show (m.fullName (addEntityDescription t package d).toModelGraph fuel d).bind _ = _
  rw [hn]
  rfl

theorem add_package (hkind : m.kind package = .package) (hadded : package ∈ m.added)
    (hdir : m.Directory s done t.descriptionsByName) :
    ∃ t', m.addDescription t (fuel + 1) package = some t' ∧ t'.toModelGraph = t.toModelGraph
      ∧ m.Directory s (insert package done) t'.descriptionsByName := by
  refine ⟨_, addDescription_eq (fun h => ?_) (fullName_of_package hkind), rfl,
    hdir.put hadded fun n' => fullNamed_of_package hkind⟩
  rw [hkind] at h
  cases h

theorem Directory.found_anonymous (hnamed : m.WellNamed s) (hkinded : m.WellKinded s)
    (h : m.Directory s done t.descriptionsByName) (hdone : m.unresolved .package ⊆ done)
    (howner : s.owner e = .null) (hhome : m.Home s e package) :
    t.descriptionsByName "Anonymous" = some package := by
  obtain ⟨anonymous, hkind, hdenotes⟩ := hnamed.anonymous
  obtain rfl : anonymous = package := (anonymous_iff hnamed hkinded howner hhome).1
    ((hdenotes.packageNamed hkinded hkind).2 rfl)
  have hfound := h.found_package hkinded hdone hkind hdenotes
  unfold Elements.found at hfound
  cases hin : t.descriptionsByName "Anonymous" with
  | none =>
    rw [hin] at hfound
    cases hfound
  | some d =>
    rw [hin] at hfound
    exact hfound

theorem Progress.put_entity (hnamed : m.WellNamed s) (hkinded : m.WellKinded s)
    (hentered : insert e entered ⊆ m.unresolved .entity)
    (h : m.Progress s (insert e entered) ∅ ∅ ∅ t.toModelGraph)
    (hdir : m.Directory s done t.descriptionsByName) :
    ∃ n, m.fullName t.toModelGraph (fuel + 2) e = some n
      ∧ m.Directory s (insert e done) (update t.descriptionsByName n (some e)) := by
  have he := hentered (mem_insert_self ..)
  have hkind := kind_of_mem he
  obtain ⟨n, hn, hunique⟩ := h.entity_fullName hnamed hkinded hentered hkind
    (.inl (mem_insert_self ..))
  exact ⟨n, hn fuel, hdir.put (mem_added.2 (.inl (.inr he))) fun n' =>
    (fullNamed_of_entity hkind).trans (hunique n')⟩

theorem add_entity (hnamed : m.WellNamed s) (hkinded : m.WellKinded s)
    (hentered : entered ⊆ m.unresolved .entity) (he : e ∈ m.unresolved .entity) (hnot : e ∉ entered)
    (h : m.Progress s entered ∅ ∅ ∅ t.toModelGraph)
    (hdir : m.Directory s (m.unresolved .package ∪ entered) t.descriptionsByName) :
    ∃ t', (m.resolveProperty t (fuel + 2) .owner e true).bind
        (fun s => m.addDescription s (fuel + 2) e) = some t'
      ∧ m.Progress s (insert e entered) ∅ ∅ ∅ t'.toModelGraph
      ∧ m.Directory s (m.unresolved .package ∪ insert e entered) t'.descriptionsByName := by
  have hkind := kind_of_mem he
  have hsubset : insert e entered ⊆ m.unresolved .entity := insert_subset he hentered
  obtain ⟨package, hpackage, hunique⟩ := exists_home hnamed hkinded he
  have hhome := (hunique package).2 rfl
  have hg : t.owner e = s.owner e := h.owner e hnot
  rw [union_insert]
  cases howner : s.owner e with
  | object owner =>
    have hnext := h.enter hhome (by rw [howner]; simp)
    have hsame : package = owner := by
      unfold Home at hhome
      rw [howner] at hhome
      exact hhome
    have hself : update t.owner e (.object package) = t.owner := by
      rw [hsame, ← howner, ← hg, update_eq_self]
    rw [hself] at hnext
    obtain ⟨n, hn, hdir'⟩ := hnext.put_entity (t := t) hnamed hkinded hsubset hdir
    refine ⟨{ t with descriptionsByName := update t.descriptionsByName n (some e) },
      ?_, hnext, hdir'⟩
    rw [resolveProperty_of_settled (by show (t.owner e).isString = false; rw [hg, howner]; rfl)]
    exact addDescription_eq (fun _ => by rw [hg, howner]; simp) hn
  | string k =>
    have hnext := h.enter hhome (by rw [howner]; simp)
    obtain ⟨value, hmeant⟩ := hnamed.meant .owner e (mem_union_left _ he) k howner
    unfold Meant at hmeant
    rw [hkind, if_neg (by simp)] at hmeant
    have hsame : value = package := by
      refine (hunique value).1 ?_
      unfold Home
      rw [howner]
      exact (hmeant.2.packageNamed hkinded hmeant.1).2 rfl
    let u : NamedGraph D := { t with owner := update t.owner e (.object package) }
    have huowner : u.owner e = .object package := update_self ..
    obtain ⟨n, hn, hdir'⟩ := hnext.put_entity (t := u) hnamed hkinded hsubset hdir
    refine ⟨{ u with descriptionsByName := update t.descriptionsByName n (some e) },
      ?_, hnext, hdir'⟩
    have hvalue : t.valueForKey .owner e = .string k := hg.trans howner
    unfold resolveProperty
    rw [hvalue]
    dsimp only
    rw [hdir.found_package hkinded subset_union_left hmeant.1 hmeant.2, hsame]
    unfold setValue
    dsimp only
    rw [hkind, if_neg (by simp), bind_some]
    exact addDescription_eq (fun _ => by rw [huowner]; simp) hn
  | null =>
    have hnext := h.enter_anonymous hnamed hkinded hentered he hhome howner
    obtain ⟨n, hn, hdir'⟩ := hnext.put_entity hnamed hkinded hsubset hdir
    refine ⟨{ addEntityDescription t package e with
      descriptionsByName := update t.descriptionsByName n (some e) }, ?_, hnext, hdir'⟩
    rw [resolveProperty_of_settled (by show (t.owner e).isString = false; rw [hg, howner]; rfl)]
    exact addDescription_anonymous hkind (hg.trans howner)
      (hdir.found_anonymous hnamed hkinded subset_union_left howner hhome) hpackage hn

end Steps

theorem Progress.parent_step (h : m.Progress s entered parented typed linked g)
    (hr : m.Settles s .parent e r) : m.Progress s entered (insert e parented) typed linked
      { g with parent := update g.parent e r } :=
  { h with parent := h.parent.step hr }

theorem Progress.typed_step (h : m.Progress s entered parented typed ∅ g)
    (hr : m.Settles s .type p r) (hr' : m.Settles s .package p r') :
    m.Progress s entered parented (insert p typed) ∅ { g with
      type := update g.type p r
      package := update g.package p r' } := by
  have hdone : m.Done s .type typed g.type := fun x =>
    h.type x fun y hlink => absurd hlink not_linked
  exact { h with
    package := h.package.step hr'
    linkedType := fun x y hlink => absurd hlink not_linked
    type := fun x _ => hdone.step hr x }

theorem resolve_parent (hnamed : m.WellNamed s) (hkinded : m.WellKinded s)
    (he : e ∈ m.unresolved .entity) (hnot : e ∉ parented)
    (h : m.Progress s entered parented typed linked t.toModelGraph)
    (hdir : m.Directory s (m.unresolved .package ∪ m.unresolved .entity) t.descriptionsByName) :
    ∃ t', m.resolveProperty t fuel .parent e false = some t'
      ∧ m.Progress s entered (insert e parented) typed linked t'.toModelGraph
      ∧ t'.descriptionsByName = t.descriptionsByName := by
  have hself : { t with parent := update t.parent e (t.parent e) } = t := by
    rw [update_eq_self]
  obtain ⟨r, hr, ht⟩ := resolveProperty_settles (s := s) (t := t) (d := e) .parent false
    (fun r => { t with parent := update t.parent e r })
    ((h.parent e).2 hnot) hself (fun value => rfl) fun n hn => by
      obtain ⟨value, hmeant⟩ := hnamed.meant .parent e he n hn
      exact ⟨value, hmeant, hdir.found_meant hkinded (Subset.refl _) (.inl rfl) hmeant⟩
  exact ⟨_, ht, h.parent_step hr, rfl⟩

theorem add_property (hnamed : m.WellNamed s) (hkinded : m.WellKinded s) (hp : p ∈ m.properties)
    (hnot : p ∉ typed) (hstring : (s.owner p).isString = false)
    (h : m.Progress s (m.unresolved .entity) parented typed ∅ t.toModelGraph)
    (hdir : m.Directory s (m.unresolved .package ∪ m.unresolved .entity ∪ typed)
      t.descriptionsByName) :
    ∃ t', ((m.resolveProperty t (fuel + 3) .type p false).bind fun s =>
        (m.resolveProperty s (fuel + 3) .owner p false).bind fun s =>
          (m.resolveProperty s (fuel + 3) .package p true).bind fun s =>
            m.addDescription s (fuel + 3) p) = some t'
      ∧ m.Progress s (m.unresolved .entity) parented (insert p typed) ∅ t'.toModelGraph
      ∧ m.Directory s (m.unresolved .package ∪ m.unresolved .entity ∪ insert p typed)
        t'.descriptionsByName := by
  have hkind := hkinded.kind_of_property hp
  have hself : { t with type := update t.type p (t.type p) } = t := by
    rw [update_eq_self]
  obtain ⟨r, hr, ht⟩ := resolveProperty_settles (s := s) (t := t) (d := p) .type false
    (fun r => { t with type := update t.type p r })
    ((h.type p fun y hlink => absurd hlink not_linked).2 hnot) hself
    (fun value => rfl) fun n hn => by
      obtain ⟨value, hmeant⟩ := hnamed.meant .type p hp n hn
      exact ⟨value, hmeant, hdir.found_meant hkinded subset_union_left (.inr rfl) hmeant⟩
  let u : NamedGraph D := { t with type := update t.type p r }
  have hself' : { u with package := update u.package p (u.package p) } = u := by
    rw [update_eq_self]
  obtain ⟨r', hr', hu⟩ := resolveProperty_settles (s := s) (t := u) (d := p) .package true
    (fun r' => { u with package := update u.package p r' })
    ((h.package p).2 hnot) hself' (fun value => rfl) fun n hn => by
      obtain ⟨value, hmeant⟩ := hnamed.meant .package p hp n hn
      exact ⟨value, hmeant, hdir.found_package hkinded
        (subset_union_left.trans subset_union_left) hmeant.1 hmeant.2⟩
  have hnext := h.typed_step hr hr'
  obtain ⟨n, hn, hunique⟩ := hnext.property_fullName hnamed hkinded hp
    (mem_insert_self ..) hstring
  refine ⟨{ u with
    package := update u.package p r'
    descriptionsByName := update t.descriptionsByName n (some p) }, ?_, hnext, ?_⟩
  · have howner : (u.valueForKey .owner p).isString = false := by
      show (t.owner p).isString = false
      rw [h.owner p (hkinded.not_entity hp)]
      exact hstring
    rw [ht, bind_some, resolveProperty_of_settled howner, bind_some, hu,
      bind_some]
    refine addDescription_eq (fun hentity => ?_) (hn fuel)
    rw [hkind] at hentity
    cases hentity
  · rw [union_insert]
    exact hdir.put (mem_added.2 (.inr hp)) fun n' =>
      (fullNamed_of_property hkind).trans (hunique n')

end Etoile.EtoileFoundation.Elements
