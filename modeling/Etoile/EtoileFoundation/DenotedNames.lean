import Etoile.EtoileFoundation.ETModelDescriptionRepository

/-!
# What names denote

Names are full names, and the full name of a description may depend on a package that is itself
given by name.  A description is present under a name if it is registered under it already, or is
added and has it as its full name.
-/

namespace Etoile.EtoileFoundation.Elements

open Function Option

variable {D : Type} [DecidableEq D]

section Definitions

variable (m : Elements D) (s : NamedGraph D)

section Names

def PackageNamed (n : String) (package : D) : Prop :=
  m.kind package = .package
    ∧ (s.descriptionsByName n = some package
      ∨ package ∈ m.unresolved .package ∧ m.name package = n)

def Home (e package : D) : Prop :=
  match s.owner e with
  | .object owner => package = owner
  | .string n => m.PackageNamed s n package
  | .null => e ∈ m.unresolved .entity ∧ m.PackageNamed s "Anonymous" package

def EntityNamed (e : D) (n : String) : Prop :=
  (∃ package, m.Home s e package ∧ n = m.name package ++ "." ++ m.name e)
    ∨ e ∉ m.unresolved .entity ∧ s.owner e = .null ∧ n = m.name e

/-- An entity description under a name, or under that name in the anonymous package. -/
def EntityFound (n : String) (e : D) : Prop :=
  m.kind e = .entity
    ∧ (s.descriptionsByName n = some e ∨ s.descriptionsByName ("Anonymous." ++ n) = some e
      ∨ e ∈ m.unresolved .entity ∧ (m.EntityNamed s e n ∨ m.EntityNamed s e ("Anonymous." ++ n)))

def PropertyNamed (p : D) (n : String) : Prop :=
  match s.owner p, s.package p with
  | .object e, _ => ∃ fullName, m.EntityNamed s e fullName ∧ n = fullName ++ "." ++ m.name p
  | .string k, _ => ∃ e fullName, m.EntityFound s k e ∧ m.EntityNamed s e fullName
    ∧ n = fullName ++ "." ++ m.name p
  | .null, .object package => n = m.name package ++ "." ++ m.name p
  | .null, .string k => ∃ package, m.PackageNamed s k package
    ∧ n = m.name package ++ "." ++ m.name p
  | .null, .null => n = m.name p

def FullNamed (d : D) (n : String) : Prop :=
  match m.kind d with
  | .package => n = m.name d
  | .entity => m.EntityNamed s d n
  | .property => m.PropertyNamed s d n

def added : Finset D := m.unresolved .package ∪ m.unresolved .entity ∪ m.properties

def Present (n : String) (d : D) : Prop :=
  s.descriptionsByName n = some d ∨ d ∈ m.added ∧ m.FullNamed s d n

def Denotes (n : String) (d : D) : Prop :=
  m.Present s n d ∧ ∀ d', m.Present s n d' → d' = d

def Refers (n : String) (d : D) : Prop :=
  m.Denotes s n d ∨ (∀ d', ¬ m.Present s n d') ∧ m.Denotes s ("Anonymous." ++ n) d

end Names

section Repositories

def resolved : Key → Finset D
  | .owner => m.unresolved .entity ∪ m.properties
  | .parent => m.unresolved .entity
  | .type | .package | .opposite => m.properties

def Meant (key : Key) (desc : D) (n : String) (value : D) : Prop :=
  match key with
  | .owner =>
    if m.kind desc = .property then m.kind value = .entity ∧ m.Refers s n value
    else m.kind value = .package ∧ m.Denotes s n value
  | .parent | .type => m.kind value ≠ .property ∧ m.Refers s n value
  | .package => m.kind value = .package ∧ m.Denotes s n value
  | .opposite => m.kind value = .property ∧ m.Refers s n value

/-- All names denote something, those of the descriptions that are added and that of the anonymous
package, and no other description has a name in the place of a reference. -/
structure WellNamed : Prop where
  anonymous : ∃ package, m.kind package = .package ∧ m.Denotes s "Anonymous" package
  meant : ∀ key, ∀ desc ∈ m.resolved key, ∀ n, s.valueForKey key desc = .string n →
    ∃ value, m.Meant s key desc n value
  settled : ∀ key, ∀ desc ∉ m.resolved key, (s.valueForKey key desc).isString = false

/-- References are to descriptions of the kind that is declared, and no opposite is being set. -/
structure WellKinded : Prop where
  propertyDescriptions : ∀ e, ∀ p ∈ m.propertyDescriptions e, m.kind p = .property
  ownerOfProperty : ∀ p e, m.kind p = .property → s.owner p = .object e → m.kind e = .entity
  ownerOfEntity : ∀ e g, m.kind e = .entity → s.owner e = .object g → m.kind g = .package
  package : ∀ p g, s.package p = .object g → m.kind g = .package
  extensions : ∀ g, ∀ p ∈ s.extensions g, m.kind p = .property
  idle : ∀ p, s.isSettingOpposite p = false

/-- A property description and the one it has as its opposite, or gets by name. -/
def Opposed (p q : D) : Prop :=
  s.opposite p = .object q
    ∨ p ∈ m.properties ∧ ∃ n, s.opposite p = .string n ∧ m.Refers s n q

/-- No property description is the opposite of two, or of one that it does not have itself. -/
def OppositesAgree : Prop :=
  ∀ p q, m.Opposed s p q →
    (∀ p', m.Opposed s p' q → p' = p) ∧ ∀ q', m.Opposed s q q' → q' = p

end Repositories

section Results

/-- Two outcomes are alike, but for what is under a name that several descriptions have. -/
def Alike (t t' : NamedGraph D) : Prop :=
  t.toModelGraph = t'.toModelGraph
    ∧ ∀ n, (∀ d d', m.Present s n d → m.Present s n d' → d = d') →
      t.descriptionsByName n = t'.descriptionsByName n

/-- The names are resolved: in whichever order, the outcome is the same, has no string as a
reference, and is kept by another call. -/
def Resolves : Prop :=
  ∃ least, ∀ fuel, least ≤ fuel → ∀ o o', ∃ t t',
    m.resolveNamedObjectReferences s fuel o = some t
      ∧ m.resolveNamedObjectReferences s fuel o' = some t' ∧ m.Alike s t t'
      ∧ (∀ key desc, (t.valueForKey key desc).isString = false)
      ∧ ∃ t'', m.resolveNamedObjectReferences t fuel o' = some t'' ∧ m.Alike s t t''

end Results

end Definitions

variable {m : Elements D} {s t : NamedGraph D} {fuel : ℕ}
  {n : String} {d d' e p q g : D} {key : Key} {done : Finset D}

section Denotations

omit [DecidableEq D] in
theorem mem_unresolved {kind : ElementKind} :
    d ∈ m.unresolved kind ↔ d ∈ m.unresolvedDescriptions ∧ m.kind d = kind := Finset.mem_filter

omit [DecidableEq D] in
theorem kind_of_mem {kind : ElementKind} (h : d ∈ m.unresolved kind) : m.kind d = kind :=
  (mem_unresolved.1 h).2

theorem WellKinded.kind_of_property (h : m.WellKinded s) (hp : p ∈ m.properties) :
    m.kind p = .property := by
  rcases Finset.mem_union.1 hp with hp | hp
  · exact kind_of_mem hp
  · obtain ⟨e, -, hpe⟩ := Finset.mem_biUnion.1 hp
    exact h.propertyDescriptions e p hpe

theorem WellKinded.not_entity (h : m.WellKinded s) (hp : p ∈ m.properties) :
    p ∉ m.unresolved .entity := fun he => by
  have hkind := (kind_of_mem he).symm.trans (h.kind_of_property hp)
  cases hkind

theorem Denotes.unique (h : m.Denotes s n d) (h' : m.Denotes s n d') : d = d' := h'.2 d h.1

theorem Refers.unique (h : m.Refers s n d) (h' : m.Refers s n d') : d = d' := by
  rcases h with h | ⟨hnot, h⟩ <;> rcases h' with h' | ⟨hnot', h'⟩
  · exact h.unique h'
  · exact absurd h.1 (hnot' d)
  · exact absurd h'.1 (hnot d')
  · exact h.unique h'

theorem Meant.unique (h : m.Meant s key e n d) (h' : m.Meant s key e n d') : d = d' := by
  cases key with
  | owner =>
    unfold Meant at h h'
    split_ifs at h h' with hkind
    · exact h.2.unique h'.2
    · exact h.2.unique h'.2
  | parent | type | opposite => exact Refers.unique h.2 h'.2
  | package => exact Denotes.unique h.2 h'.2

omit [DecidableEq D] in
theorem fullNamed_of_package (h : m.kind g = .package) : m.FullNamed s g n ↔ n = m.name g := by
  unfold FullNamed
  rw [h]

omit [DecidableEq D] in
theorem fullNamed_of_entity (h : m.kind e = .entity) : m.FullNamed s e n ↔ m.EntityNamed s e n := by
  unfold FullNamed
  rw [h]

omit [DecidableEq D] in
theorem fullNamed_of_property (h : m.kind p = .property) :
    m.FullNamed s p n ↔ m.PropertyNamed s p n := by
  unfold FullNamed
  rw [h]

theorem mem_added : d ∈ m.added
    ↔ (d ∈ m.unresolved .package ∨ d ∈ m.unresolved .entity) ∨ d ∈ m.properties := by
  unfold added
  rw [Finset.mem_union, Finset.mem_union]

theorem present_package (hkinded : m.WellKinded s) (hkind : m.kind g = .package) :
    m.Present s n g ↔ m.PackageNamed s n g := by
  unfold Present PackageNamed
  rw [fullNamed_of_package hkind, mem_added]
  constructor
  · rintro (hg | ⟨(hg | hg) | hg, rfl⟩)
    · exact ⟨hkind, .inl hg⟩
    · exact ⟨hkind, .inr ⟨hg, rfl⟩⟩
    · rw [kind_of_mem hg] at hkind
      cases hkind
    · rw [hkinded.kind_of_property hg] at hkind
      cases hkind
  · rintro ⟨-, hg | ⟨hg, rfl⟩⟩
    · exact .inl hg
    · exact .inr ⟨.inl (.inl hg), rfl⟩

theorem Denotes.packageNamed (hkinded : m.WellKinded s) (h : m.Denotes s n g)
    (hkind : m.kind g = .package) : m.PackageNamed s n d ↔ d = g := by
  constructor
  · intro hd
    exact h.2 d ((present_package hkinded hd.1).2 hd)
  · rintro rfl
    exact (present_package hkinded hkind).1 h.1

theorem exists_home (hnamed : m.WellNamed s) (hkinded : m.WellKinded s)
    (he : e ∈ m.unresolved .entity) :
    ∃ package, m.kind package = .package ∧ ∀ d, m.Home s e d ↔ d = package := by
  have hkind := kind_of_mem he
  unfold Home
  cases howner : s.owner e with
  | null =>
    obtain ⟨package, hpackage, hdenotes⟩ := hnamed.anonymous
    exact ⟨package, hpackage, fun d => (and_iff_right he).trans
      (hdenotes.packageNamed hkinded hpackage)⟩
  | string n =>
    obtain ⟨package, hmeant⟩ := hnamed.meant .owner e (Finset.mem_union_left _ he) n howner
    unfold Meant at hmeant
    rw [hkind, if_neg (by simp)] at hmeant
    exact ⟨package, hmeant.1, fun d => hmeant.2.packageNamed hkinded hmeant.1⟩
  | object owner => exact ⟨owner, hkinded.ownerOfEntity e owner hkind howner, fun d => Iff.rfl⟩

theorem settled_owner (hnamed : m.WellNamed s) (hkind : m.kind e = .entity)
    (hkinded : m.WellKinded s) (he : e ∉ m.unresolved .entity) : (s.owner e).isString = false := by
  refine hnamed.settled .owner e ?_
  unfold resolved
  rw [Finset.mem_union, not_or]
  refine ⟨he, fun hp => ?_⟩
  rw [hkinded.kind_of_property hp] at hkind
  cases hkind

end Denotations

section Directories

/-- What is under the names once the descriptions of `done` are added. -/
structure Directory (m : Elements D) (s : NamedGraph D) (done : Finset D)
    (names : String → Option D) : Prop where
  sound : ∀ n d, names n = some d → m.Present s n d
  keeps : ∀ n, s.descriptionsByName n ≠ none → names n ≠ none
  covers : ∀ d ∈ done, ∀ n, m.FullNamed s d n → names n ≠ none

variable {names : String → Option D}

theorem directory_init : m.Directory s ∅ s.descriptionsByName :=
  ⟨fun _ _ h => .inl h, fun _ h => h, fun _ h => by cases h⟩

theorem Directory.put (h : m.Directory s done names) (hd : d ∈ m.added)
    (hn : ∀ n', m.FullNamed s d n' ↔ n' = n) :
    m.Directory s (insert d done) (update names n (some d)) := by
  have hkeep : ∀ n', names n' ≠ none → update names n (some d) n' ≠ none := by
    intro n' hn'
    rw [update_apply]
    split_ifs
    · exact some_ne_none d
    · exact hn'
  refine ⟨fun n' d' h' => ?_, fun n' hn' => hkeep n' (h.keeps n' hn'), fun d' hd' n' hn' => ?_⟩
  · rw [update_apply] at h'
    split_ifs at h' with heq
    · obtain rfl := some.inj h'
      exact .inr ⟨hd, (hn n').2 heq⟩
    · exact h.sound n' d' h'
  · rcases Finset.mem_insert.1 hd' with rfl | hd'
    · rw [(hn n').1 hn', update_self]
      exact some_ne_none d'
    · exact hkeep n' (h.covers d' hd' n' hn')

theorem Directory.ne_none (h : m.Directory s done names) (hpresent : m.Present s n d)
    (hd : d ∈ m.added → d ∈ done) : names n ≠ none := by
  rcases hpresent with hregistered | ⟨hadded, hfull⟩
  · exact h.keeps n (by rw [hregistered]; exact some_ne_none d)
  · exact h.covers d (hd hadded) n hfull

theorem Directory.found_of_denotes (h : m.Directory s done names) (hdenotes : m.Denotes s n d)
    (hd : d ∈ m.added → d ∈ done) : names n = some d := by
  cases hfound : names n with
  | none => exact absurd hfound (h.ne_none hdenotes.1 hd)
  | some d' => rw [hdenotes.2 d' (h.sound n d' hfound)]

theorem Directory.found (h : m.Directory s done t.descriptionsByName) (hrefers : m.Refers s n d)
    (hd : d ∈ m.added → d ∈ done) : found t n false = some d := by
  unfold Elements.found
  rcases hrefers with hdenotes | ⟨hnone, hdenotes⟩
  · rw [h.found_of_denotes hdenotes hd]
  · cases hfound : t.descriptionsByName n with
    | none => exact h.found_of_denotes hdenotes hd
    | some d' => exact absurd (h.sound n d' hfound) (hnone d')

/-- What is under a name that one description has at most does not depend on the order. -/
theorem Directory.alike {names' : String → Option D} (h : m.Directory s m.added names)
    (h' : m.Directory s m.added names')
    (hn : ∀ d d', m.Present s n d → m.Present s n d' → d = d') : names n = names' n := by
  cases hfound : names n with
  | none =>
    cases hfound' : names' n with
    | none => rfl
    | some d => exact absurd hfound (h.ne_none (h'.sound n d hfound') id)
  | some d =>
    have hpresent := h.sound n d hfound
    cases hfound' : names' n with
    | none => exact absurd hfound' (h'.ne_none hpresent id)
    | some d' => rw [hn d d' hpresent (h'.sound n d' hfound')]

end Directories

end Etoile.EtoileFoundation.Elements
