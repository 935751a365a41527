import Etoile.EtoileFoundation.Metamodel
import Etoile.Lib.Fold
import Mathlib.Data.Finset.Union

/-!
# The repository of descriptions

Packages, entity descriptions and property descriptions refer to each other, or have the full name
of what they refer to in its place.  The repository resolves the names of what was added to it
unresolved.  Property, entity and package descriptions are of one type here, as any of them may be
found under a name.
-/

namespace Etoile.EtoileFoundation

open Function

inductive ElementKind
  | property
  | entity
  | package
  deriving DecidableEq

structure Elements (D : Type) where
  kind : D → ElementKind
  name : D → String
  propertyDescriptions : D → Finset D := fun _ => ∅
  unresolvedDescriptions : Finset D

/-- What the descriptions refer to.  `entityDescriptions` and `extensions` are those of packages. -/
structure ModelGraph (D : Type) extends Properties D D where
  parent : D → Ref D := fun _ => .null
  package : D → Ref D := fun _ => .null
  entityDescriptions : D → Finset D := fun _ => ∅
  extensions : D → Finset D := fun _ => ∅

structure NamedGraph (D : Type) extends ModelGraph D where
  descriptionsByName : String → Option D

inductive Key
  | owner
  | parent
  | type
  | package
  | opposite

def ModelGraph.valueForKey {D : Type} (g : ModelGraph D) : Key → D → Ref D
  | .owner => g.owner
  | .parent => g.parent
  | .type => g.type
  | .package => g.package
  | .opposite => g.opposite

namespace Elements

variable {D : Type} (m : Elements D)

/-- An owner of another kind is asked for its own; there is no result if a string is asked for its
full name, or the owners are nested more deeply than the fuel. -/
def fullName (g : ModelGraph D) : ℕ → D → Option String
  | 0, _ => none
  | fuel + 1, d =>
    match m.kind d, g.owner d with
    | .package, _ | .entity, .null => some (m.name d)
    | .property, .null =>
      match g.package d with
      | .null => some (m.name d)
      | .string _ => none
      | .object package =>
        (fullName g fuel package).map fun fullName => fullName ++ "." ++ m.name d
    | .entity, .string _ | .property, .string _ => none
    | .entity, .object owner | .property, .object owner =>
      (fullName g fuel owner).map fun fullName => fullName ++ "." ++ m.name d

variable [DecidableEq D]

def unresolved (kind : ElementKind) : Finset D := m.unresolvedDescriptions.filter (m.kind · = kind)

variable (s : NamedGraph D) (fuel : ℕ)

/-- `-addEntityDescription:` of a package, for an entity description without an owner. -/
def addEntityDescription (package anEntityDescription : D) : NamedGraph D :=
  let owner := update s.owner anEntityDescription (.object package)
  { s with
    owner
    entityDescriptions := update s.entityDescriptions package
      (insert anEntityDescription (s.entityDescriptions package))
    extensions := update s.extensions package
      ((s.extensions package).filter (owner · ≠ .object anEntityDescription)) }

/-- What `-addDescription:` does to an entity description without an owner first. -/
def addToAnonymousPackage (aDescription : D) : Option (NamedGraph D) :=
  if m.kind aDescription = .entity ∧ s.owner aDescription = .null then
    match s.descriptionsByName "Anonymous" with
    | none => some s
    | some package =>
      if m.kind package = .package then some (addEntityDescription s package aDescription)
      else none
  else some s

def addDescription (aDescription : D) : Option (NamedGraph D) := do
  let s ← m.addToAnonymousPackage s aDescription
  let fullName ← m.fullName s.toModelGraph fuel aDescription
  return { s with
    descriptionsByName := update s.descriptionsByName fullName (some aDescription) }

/-- `-setValue:forKey:`.  The owner of a property description must not be there if it is set, and
only property descriptions understand `-setOpposite:`. -/
def setValue (key : Key) (desc value : D) : Option (NamedGraph D) :=
  match key with
  | .owner =>
    if m.kind desc = .property then
      if s.owner desc = .null then
        some { s with toProperties := s.toProperties.putOwner desc (.object value) }
      else none
    else some { s with owner := update s.owner desc (.object value) }
  | .parent => some { s with parent := update s.parent desc (.object value) }
  | .type => some { s with toProperties := s.toProperties.setType desc (.object value) }
  | .package => some { s with package := update s.package desc (.object value) }
  | .opposite =>
    if m.kind value = .property then
      (s.toProperties.setOpposite fuel (.object desc) (.object value)).map fun properties =>
        { s with toProperties := properties }
    else none

def found (value : String) (isPackageRef : Bool) : Option D :=
  match s.descriptionsByName value with
  | some realValue => some realValue
  | none => if isPackageRef then none else s.descriptionsByName ("Anonymous." ++ value)

def resolveProperty (key : Key) (desc : D) (isPackageRef : Bool) : Option (NamedGraph D) :=
  match s.valueForKey key desc with
  | .string value =>
    match found s value isPackageRef with
    | some realValue => m.setValue s fuel key desc realValue
    | none => some s
  | .null | .object _ => some s

variable (o : Enumeration D)

/-- The property descriptions that are added with the entity descriptions. -/
def collected (unresolvedEntityDescs : Finset D) : Finset D :=
  unresolvedEntityDescs.biUnion m.propertyDescriptions

def resolveAndAddEntityDescriptions (unresolvedEntityDescs : Finset D) :
    Option (NamedGraph D) := do
  let s ← o.forEach (fun s desc => do
    let s ← m.resolveProperty s fuel .owner desc true
    m.addDescription s fuel desc) unresolvedEntityDescs s
  o.forEach (fun s desc => m.resolveProperty s fuel .parent desc false) unresolvedEntityDescs s

def resolveAndAddPropertyDescriptions (unresolvedPropertyDescs : Finset D) :
    Option (NamedGraph D) := do
  let s ← o.forEach (fun s desc => do
    let s ← m.resolveProperty s fuel .type desc false
    let s ← m.resolveProperty s fuel .owner desc false
    let s ← m.resolveProperty s fuel .package desc true
    m.addDescription s fuel desc) unresolvedPropertyDescs s
  o.forEach (fun s desc => m.resolveProperty s fuel .opposite desc false) unresolvedPropertyDescs s

def properties : Finset D := m.unresolved .property ∪ m.collected (m.unresolved .entity)

/-- There is no result if an exception is raised, or the fuel does not last. -/
def resolveNamedObjectReferences : Option (NamedGraph D) := do
  let s ← o.forEach (fun s desc => m.addDescription s fuel desc) (m.unresolved .package) s
  let s ← m.resolveAndAddEntityDescriptions s fuel o (m.unresolved .entity)
  m.resolveAndAddPropertyDescriptions s fuel o m.properties

end Elements

end Etoile.EtoileFoundation
