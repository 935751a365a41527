import Mathlib.Data.Finset.Filter
import Mathlib.Data.Finset.Insert
import Mathlib.Data.Finset.Erase
import Mathlib.Data.List.AList
import Etoile.EtoileFoundation.ETPropertyDescription

/-!
# The metamodel

Packages `G` list entity descriptions `E`, whose tables have property descriptions `P` under their
names.  Each description has an owner as well, which may be a name until the repository resolves
it.  A call comes with whether it returns or raises; what it did before it raised stays.
-/

namespace Etoile.EtoileFoundation

open Function

def Properties.putOwner {P E : Type} [DecidableEq P] (s : Properties P E) (p : P)
    (owner : Ref E) : Properties P E :=
  let s := { s with owner := update s.owner p owner }
  match s.opposite p with
  | .object q => s.setType q owner
  | .null | .string _ => s

inductive Description (P E G : Type)
  | property (p : P)
  | entity (e : E)
  | package (g : G)
  deriving DecidableEq

structure Metamodel (P E G : Type) extends Properties P E where
  name : P → String
  package : P → Ref (Description P E G) := fun _ => .null
  propertyDescriptions : E → AList (fun _ : String => P) := fun _ => ∅
  entityOwner : E → Ref (Description P E G) := fun _ => .null
  entityDescriptions : G → Finset E := fun _ => ∅
  extensions : G → Finset P := fun _ => ∅

namespace Metamodel

variable {P E G : Type} [DecidableEq P] [DecidableEq E] [DecidableEq G]

def andThen (r : Metamodel P E G × Bool) (f : Metamodel P E G → Metamodel P E G × Bool) :
    Metamodel P E G × Bool :=
  match r with
  | (s, true) => f s
  | (s, false) => (s, false)

def each {α : Type} (f : Metamodel P E G → α → Metamodel P E G × Bool) :
    Metamodel P E G → List α → Metamodel P E G × Bool
  | s, [] => (s, true)
  | s, a :: as => andThen (f s a) fun s => each f s as

variable (s : Metamodel P E G)

def putTable (e : E) (table : AList fun _ : String => P) : Metamodel P E G :=
  { s with propertyDescriptions := update s.propertyDescriptions e table }

def putEntityOwner (e : E) (owner : Ref (Description P E G)) : Metamodel P E G :=
  { s with entityOwner := update s.entityOwner e owner }

def putEntities (g : G) (entities : Finset E) : Metamodel P E G :=
  { s with entityDescriptions := update s.entityDescriptions g entities }

def putExtensions (g : G) (properties : Finset P) : Metamodel P E G :=
  { s with extensions := update s.extensions g properties }

def setPackage (p : P) (aPackage : Ref (Description P E G)) : Metamodel P E G :=
  { s with package := update s.package p aPackage }

def putOwner (p : P) (owner : Ref E) : Metamodel P E G :=
  { s with toProperties := s.toProperties.putOwner p owner }

/-- `-setOwner:` of a property description, which asserts that there is an owner either before or
after. -/
def setOwner (p : P) (owner : Ref E) : Metamodel P E G × Bool :=
  if s.owner p ≠ .null ∧ owner = .null ∨ s.owner p = .null ∧ owner ≠ .null then
    (s.putOwner p owner, true)
  else (s, false)

def removePropertyDescription (e : E) (p : P) : Metamodel P E G × Bool :=
  andThen (s.setOwner p .null) fun s =>
    (s.putTable e ((s.propertyDescriptions e).erase (s.name p)), true)

/-- A string does not understand `-removePropertyDescription:`. -/
def addPropertyDescription (e : E) (p : P) : Metamodel P E G × Bool :=
  andThen
    (match s.owner p with
      | .null => (s, true)
      | .string _ => (s, false)
      | .object owner => s.removePropertyDescription owner p)
    fun s => andThen (s.setOwner p (.object e)) fun s =>
      (s.putTable e ((s.propertyDescriptions e).insert (s.name p) p), true)

def setPropertyDescriptions (e : E) (propertyDescriptions : List P) : Metamodel P E G × Bool :=
  andThen (each (fun s p => s.setOwner p .null) s
      ((s.propertyDescriptions e).entries.map Sigma.snd)) fun s =>
    each (fun s p => s.addPropertyDescription e p) (s.putTable e ∅) propertyDescriptions

def removeEntityDescription (g : G) (e : E) : Metamodel P E G :=
  let s := s.putEntityOwner e .null
  s.putEntities g ((s.entityDescriptions g).erase e)

/-- Only packages understand `-removeEntityDescription:`. -/
def addEntityDescription (g : G) (e : E) : Metamodel P E G × Bool :=
  andThen
    (match s.entityOwner e with
      | .null => (s, true)
      | .object (.package owner) => (s.removeEntityDescription owner e, true)
      | .string _ | .object (.entity _) | .object (.property _) => (s, false))
    fun s =>
      let s := s.putEntityOwner e (.object (.package g))
      let s := s.putEntities g (insert e (s.entityDescriptions g))
      (s.putExtensions g ((s.extensions g).filter fun p => s.owner p ≠ .object e), true)

/-- `-addPropertyDescription:` of a package.  The package of a property is told to remove it, and an
entity description in its place understands the same message. -/
def addExtension (g : G) (p : P) : Metamodel P E G × Bool :=
  if ∃ e ∈ s.entityDescriptions g, s.owner p = .object e then (s, false)
  else
    andThen
      (match s.package p with
        | .null => (s, true)
        | .object (.package package) =>
          ((s.setPackage p .null).putExtensions package ((s.extensions package).erase p), true)
        | .object (.entity e) => s.removePropertyDescription e p
        | .string _ | .object (.property _) => (s, false))
      fun s =>
        ((s.setPackage p (.object (.package g))).putExtensions g (insert p (s.extensions g)), true)

section Repository

/-- The repository's descriptions by name, and its anonymous package. -/
structure Repository (P E G : Type) where
  descriptionForName : String → Option (Description P E G)
  anonymousPackage : G

variable (repository : Repository P E G)

/-- `-resolveProperty:forDescription:isPackageRef:` for the owner of an entity description, and
`-addDescription:`, which asks the owner for its name. -/
def resolveEntityDescription (e : E) : Metamodel P E G × Bool :=
  let s :=
    match s.entityOwner e with
    | .string n =>
      match repository.descriptionForName n with
      | some realValue => s.putEntityOwner e (.object realValue)
      | none => s
    | .null | .object _ => s
  match s.entityOwner e with
  | .null => s.addEntityDescription repository.anonymousPackage e
  | .string _ => (s, false)
  | .object _ => (s, true)

/-- What is found under a name, or under that name in the anonymous package. -/
def lookUp (n : String) : Option (Description P E G) :=
  (repository.descriptionForName n).or (repository.descriptionForName ("Anonymous." ++ n))

def resolvePackage (p : P) : Metamodel P E G :=
  match s.package p with
  | .string n =>
    match repository.descriptionForName n with
    | some realValue => s.setPackage p (.object realValue)
    | none => s
  | .null | .object _ => s

/-- The owner and the package of a property description.  The assertion of `-setOwner:` fails where
the owner is a string that can be resolved, and `-addDescription:` asks the owner, or else the
package, for its name. -/
def resolvePropertyDescription (p : P) : Metamodel P E G × Bool :=
  match s.owner p with
  | .string n =>
    match lookUp repository n with
    | some (.entity e) => s.setOwner p (.object e)
    | some (.property _) | some (.package _) => (s, false)
    | none => (s.resolvePackage repository p, false)
  | .null =>
    let s := s.resolvePackage repository p
    (s, !(s.package p).isString)
  | .object _ => (s.resolvePackage repository p, true)

end Repository

inductive Call (P E G : Type)
  | addPropertyDescription (e : E) (p : P)
  | removePropertyDescription (e : E) (p : P)
  | setPropertyDescriptions (e : E) (propertyDescriptions : List P)
  | addEntityDescription (g : G) (e : E)
  | removeEntityDescription (g : G) (e : E)
  | addExtension (g : G) (p : P)
  | resolveEntityDescription (repository : Repository P E G) (e : E)
  | resolvePropertyDescription (repository : Repository P E G) (p : P)

def perform : Call P E G → Metamodel P E G × Bool
  | .addPropertyDescription e p => s.addPropertyDescription e p
  | .removePropertyDescription e p => s.removePropertyDescription e p
  | .setPropertyDescriptions e propertyDescriptions =>
    s.setPropertyDescriptions e propertyDescriptions
  | .addEntityDescription g e => s.addEntityDescription g e
  | .removeEntityDescription g e => (s.removeEntityDescription g e, true)
  | .addExtension g p => s.addExtension g p
  | .resolveEntityDescription repository e => s.resolveEntityDescription repository e
  | .resolvePropertyDescription repository p => s.resolvePropertyDescription repository p

end Metamodel

end Etoile.EtoileFoundation
