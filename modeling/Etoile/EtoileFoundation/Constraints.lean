import Etoile.EtoileFoundation.ETPropertyDescription

/-!
# Constraints of descriptions

A repository checks the entity descriptions of its packages and their property descriptions, and
collects warnings.  Any reference may still be a string, which does not understand the messages
that are sent to it.
-/

namespace Etoile.EtoileFoundation

/-- The fields that are checked of the property descriptions `P`, the entity descriptions `E` and
the packages `G`, with the collections in the order in which they are enumerated. -/
structure ModelDescriptions (P E G : Type) extends Properties P E where
  propertyName : P → String
  isContainer : P → Bool := fun _ => false
  isMultivalued : P → Bool := fun _ => false
  package : P → Ref G := fun _ => .null
  entityName : E → String
  parent : E → Ref E := fun _ => .null
  entityOwner : E → Ref G := fun _ => .null
  isCPrimitive : E → Bool := fun _ => false
  propertyDescriptions : E → List P := fun _ => []
  packageName : G → String
  entityDescriptions : G → List E := fun _ => []
  packageDescriptions : List G := []

/-- What a warning is about, the name in its text, and what it says. -/
structure Warning (P E : Type) where
  source : P ⊕ E
  fullName : String
  message : String

/-- A call may go on for ever; else it leaves warnings, and returns or raises. -/
abbrev Checking (P E : Type) := Option (List (Warning P E) × Bool)

namespace Checking

variable {P E α : Type}

def andThen (r : Checking P E) (f : List (Warning P E) → Checking P E) : Checking P E :=
  r.bind fun
    | (ws, true) => f ws
    | (ws, false) => some (ws, false)

def each (f : α → List (Warning P E) → Checking P E) : List α → List (Warning P E) → Checking P E
  | [], ws => some (ws, true)
  | a :: as, ws => (f a ws).andThen (each f as)

/-- Adds the warnings whose conditions hold.  To describe the source it is asked for its full
name, which may raise. -/
def warnAll (source : P ⊕ E) (fullName : Option String) :
    List (Bool × String) → List (Warning P E) → Checking P E
  | [], ws => some (ws, true)
  | (false, _) :: checks, ws => warnAll source fullName checks ws
  | (true, message) :: checks, ws =>
    match fullName with
    | none => some (ws, false)
    | some n => warnAll source fullName checks (ws ++ [⟨source, n, message⟩])

end Checking

namespace Ref

variable {α : Type}

def isNull : Ref α → Bool
  | null => true
  | string _ | object _ => false

def isObject : Ref α → Bool
  | object _ => true
  | null | string _ => false

end Ref

namespace ModelDescriptions

open Checking

variable {P E G : Type} [DecidableEq P] [DecidableEq E] (s : ModelDescriptions P E G)

def packageFullName (n : String) : Ref G → Option String
  | .null => some n
  | .string _ => none
  | .object g => some (s.packageName g ++ "." ++ n)

def entityFullName (e : E) : Option String := s.packageFullName (s.entityName e) (s.entityOwner e)

def propertyFullName (p : P) : Option String :=
  match s.owner p with
  | .null => s.packageFullName (s.propertyName p) (s.package p)
  | .string _ => none
  | .object e => (s.entityFullName e).map (· ++ "." ++ s.propertyName p)

/-- `-checkConstraints:` of a property description.  The opposite is asked for its own, and the
name for its first character. -/
def checkProperty (p : P) (ws : List (Warning P E)) : Checking P E :=
  let warn := warnAll (.inl p) (s.propertyFullName p)
  (warn
    [(s.isContainer p && s.isMultivalued p, "Container must refer to a single object"),
      ((s.opposite p).isString, "Failed to resolve opposite")] ws).andThen fun ws =>
  Checking.andThen
    (match s.opposite p with
      | .null => some (ws, true)
      | .string _ => some (ws, false)
      | .object q => warn [(s.opposite q ≠ .object p, "Opposites must refer to each other")] ws)
    fun ws =>
  match s.propertyName p |>.toList with
  | [] => some (ws, false)
  | c :: _ =>
    warn
      [(!c.isLower, "Name should be in lower case"),
        ((s.type p).isString, "Failed to resolve type"),
        ((s.type p).isNull, "Miss a type"),
        ((s.owner p).isString, "Failed to resolve owner"),
        ((s.owner p).isNull, "Miss an owner"),
        (!(s.owner p).isObject, "Owner must be an entity description"),
        ((s.package p).isString, "Failed to resolve package")] ws

/-- `-allPropertyDescriptions`, which raises if there is a string among the parents. -/
def allPropertyDescriptions : ℕ → E → Option (Option (List P))
  | 0, _ => none
  | fuel + 1, self =>
    match s.parent self with
    | .null => some (some (s.propertyDescriptions self))
    | .string _ => some none
    | .object parent => (allPropertyDescriptions fuel parent).map fun r =>
      r.map (· ++ s.propertyDescriptions self)

/-- The loop that follows the parents until there is none, or one for the second time. -/
def findsLoop : ℕ → List E → Ref E → Option (Option Bool)
  | _, _, .null => some (some false)
  | _, _, .string _ => some none
  | 0, _, .object _ => none
  | fuel + 1, entityDescSet, .object entityDesc =>
    if entityDesc ∈ entityDescSet then some (some true)
    else findsLoop fuel (entityDesc :: entityDescSet) (s.parent entityDesc)

def rootEntityDescriptionName : String := "NSObject"

def loopMessage : String := "Found a loop in the parent chain"

/-- The checks of an entity description that has a parent, or should. -/
def checkParent (e : E) (ws : List (Warning P E)) : Checking P E :=
  let warn := warnAll (.inr e) (s.entityFullName e)
  (warn
    [((s.parent e).isString, "Failed to resolve parent"),
      ((s.parent e).isNull && !s.isCPrimitive e, "Miss a parent")] ws).andThen fun ws =>
  match s.parent e with
  | .null => some (ws, true)
  | .string _ => some (ws, false)
  | .object parent =>
    warn [(s.isCPrimitive parent, "C Primitives are not allowed to be parent")] ws

/-- `-checkConstraints:` of an entity description. -/
def checkEntity (fuel : ℕ) (e : E) (ws : List (Warning P E)) : Checking P E :=
  let warn := warnAll (.inr e) (s.entityFullName e)
  (s.allPropertyDescriptions fuel e).bind fun
  | none => some (ws, false)
  | some all =>
    (warn
      [(decide (1 < all.countP s.isContainer),
          "Found more than one container/composite relationship"),
        ((s.entityOwner e).isString, "Failed to resolve owner (a package)"),
        ((s.entityOwner e).isNull, "Miss an owner (a package)")] ws).andThen fun ws =>
    Checking.andThen
      (if s.entityName e = rootEntityDescriptionName then some (ws, true) else s.checkParent e ws)
      fun ws =>
    (s.findsLoop fuel [e] (s.parent e)).bind fun
    | none => some (ws, false)
    | some found => (warn [(found, loopMessage)] ws).andThen fun ws =>
      each s.checkProperty (s.propertyDescriptions e) ws

/-- `-checkConstraints:` of the repository. -/
def checkConstraints (fuel : ℕ) (ws : List (Warning P E)) : Checking P E :=
  each (fun g => each (s.checkEntity fuel) (s.entityDescriptions g)) s.packageDescriptions ws

end ModelDescriptions

end Etoile.EtoileFoundation
