import Mathlib.Data.List.Dedup

/-!
# Uniform type identifiers

Types are registered under strings, with other types as their supertypes.  A string that names an
Objective-C class has a type as soon as it is asked for, whose supertypes include the type of the
superclass.
-/

namespace Etoile.EtoileFoundation

abbrev UTIString := List Char

/-- The classes of a program, by their names.  Each is found by its name, though what is found may
be a subclass that stands for it. -/
structure Runtime where
  classes : List UTIString
  classFromString : UTIString → Option UTIString
  superclasses : UTIString → List UTIString
  mem_classes : ∀ c, ∀ d ∈ superclasses c, d ∈ classes
  found : ∀ d ∈ classes, classFromString d ≠ none
  stands_for : ∀ d c, classFromString d = some c → d ∈ c :: superclasses c
  undotted : ∀ d ∈ classes, '.' ∉ d

/-- A type is one of those that have been allocated, or the one that is made for a class when it is
asked for. -/
inductive ETUTI
  | alloc (n : ℕ)
  | objcClass (string : UTIString)
  deriving DecidableEq

inductive NSException
  | invalidArgument
  | internalInconsistency

abbrev Query := ExceptT NSException Option

/-- `UTIInstances` and the fields of the types; `count` of them have been allocated. -/
structure UTIs where
  count : ℕ := 0
  strings : ℕ → UTIString := fun _ => []
  supertypes : ETUTI → List ETUTI := fun _ => []
  instances : List (UTIString × ETUTI) := []

namespace UTIs

def ETObjCClassUTIPrefix : UTIString := "org.etoile-project.objc.class.".toList

def ETUTILastComponent (aTypeString : UTIString) : UTIString :=
  if '.' ∈ aTypeString then (aTypeString.reverse.takeWhile (· != '.')).reverse else []

variable (rt : Runtime) (s : UTIs)

def stringValue : ETUTI → UTIString
  | .alloc n => s.strings n
  | .objcClass string => string

/-- `-setObject:forKey:` of `UTIInstances`. -/
def setInstance (aString : UTIString) (a : ETUTI) : UTIs :=
  { s with instances := (aString, a) :: s.instances.filter (·.1 ≠ aString) }

def setSupertypes (a : ETUTI) (supertypes : List ETUTI) : UTIs :=
  { s with supertypes := Function.update s.supertypes a supertypes }

def initWithString (aString : UTIString) : UTIs × ETUTI :=
  ({ s with count := s.count + 1, strings := Function.update s.strings s.count aString },
    .alloc s.count)

def isClassString (aString : UTIString) : Bool :=
  ETObjCClassUTIPrefix.isPrefixOf aString
    && (rt.classFromString (ETUTILastComponent aString)).isSome

def typeWithString (aString : UTIString) : UTIs × Option ETUTI :=
  match s.instances.lookup aString with
  | some cached => (s, some cached)
  | none =>
    if isClassString rt aString then
      ((s.setSupertypes (.objcClass aString) []).setInstance aString (.objcClass aString),
        some (.objcClass aString))
    else (s, none)

def typeWithClass (aClass : UTIString) : UTIs × Option ETUTI :=
  s.typeWithString rt (ETObjCClassUTIPrefix ++ aClass)

/-- The loop of `-setSupertypesFromStrings:`; whether it ends without an exception. -/
def addSupertypes (a : ETUTI) : UTIs → List UTIString → UTIs × Bool
  | s, [] => (s, true)
  | s, supertypeString :: supertypeStrings =>
    match s.typeWithString rt supertypeString with
    | (s, none) => (s, false)
    | (s, some supertype) =>
      addSupertypes a (s.setSupertypes a (s.supertypes a ++ [supertype])) supertypeStrings

def setSupertypesFromStrings (a : ETUTI) (supertypeStrings : List UTIString) : UTIs × Bool :=
  addSupertypes rt a (s.setSupertypes a []) supertypeStrings

def registerTypeWithString (aString : UTIString) (supertypeNames : List UTIString) : UTIs :=
  let (s, aType) := s.initWithString aString
  match s.setSupertypesFromStrings rt aType supertypeNames with
  | (s, true) => s.setInstance aString aType
  | (s, false) => s

/-- The first pass over the definitions, where an identifier that is in use is left alone. -/
def registerIdentifiers : UTIs → List (UTIString × List UTIString) → UTIs
  | s, [] => s
  | s, (typeIdentifier, _) :: definitions =>
    match s.instances.lookup typeIdentifier with
    | some _ => registerIdentifiers s definitions
    | none =>
      let (s, aType) := s.initWithString typeIdentifier
      registerIdentifiers (s.setInstance typeIdentifier aType) definitions

def registerConformances : UTIs → List (UTIString × List UTIString) → UTIs
  | s, [] => s
  | s, (typeIdentifier, conformsTo) :: definitions =>
    match s.instances.lookup typeIdentifier with
    | none => registerConformances s definitions
    | some aType =>
      match s.setSupertypesFromStrings rt aType conformsTo with
      | (s, true) => registerConformances s definitions
      | (s, false) => s

def registerUTIDefinitions (definitions : List (UTIString × List UTIString)) : UTIs :=
  registerConformances rt (s.registerIdentifiers definitions) definitions

inductive Registration
  | typeWithString (aString : UTIString)
  | registerTypeWithString (aString : UTIString) (supertypeNames : List UTIString)
  | registerUTIDefinitions (definitions : List (UTIString × List UTIString))

def register : Registration → UTIs
  | .typeWithString aString => (s.typeWithString rt aString).1
  | .registerTypeWithString aString supertypeNames =>
    s.registerTypeWithString rt aString supertypeNames
  | .registerUTIDefinitions definitions => s.registerUTIDefinitions rt definitions

/-- The superclasses of the class of that name among those listed; the loop goes on with `Nil` for
ever if there is none. -/
def superclassesFrom (selfClassName : UTIString) : List UTIString → Option (List UTIString)
  | [] => none
  | aClass :: superclasses =>
    if aClass = selfClassName then some superclasses
    else superclassesFrom selfClassName superclasses

def superclassOf (selfClassName : UTIString) : Option (Option UTIString) :=
  (superclassesFrom selfClassName (match rt.classFromString selfClassName with
    | none => []
    | some aClass => aClass :: rt.superclasses aClass)).map List.head?

/-- `-supertypes`. -/
def supertypesOf (self : ETUTI) : Query (UTIs × List ETUTI) :=
  if ETObjCClassUTIPrefix.isPrefixOf (s.stringValue self) then
    match superclassOf rt (ETUTILastComponent (s.stringValue self)) with
    | none => none
    | some none => pure (s, s.supertypes self)
    | some (some superclass) =>
      match s.typeWithClass rt superclass with
      | (s', some type) => pure (s', s.supertypes self ++ [type])
      | (_, none) => throw .invalidArgument
  else pure (s, s.supertypes self)

/-- The loop of `-allSupertypes`, over the supertypes that are left. -/
def collectSupertypes (allSupertypes : UTIs → ETUTI → Query (UTIs × List ETUTI)) :
    UTIs → List ETUTI → List ETUTI → Query (UTIs × List ETUTI)
  | s, [], resultSet => pure (s, resultSet)
  | s, supertype :: supertypes, resultSet =>
    allSupertypes s supertype >>= fun r =>
      collectSupertypes allSupertypes r.1 supertypes (resultSet ++ supertype :: r.2).dedup

/-- There is no result either if the recursion is deeper than the fuel. -/
def allSupertypes : ℕ → UTIs → ETUTI → Query (UTIs × List ETUTI)
  | 0, _, _ => none
  | fuel + 1, s, self => s.supertypesOf rt self >>= fun r =>
    collectSupertypes (allSupertypes fuel) r.1 r.2 []

/-- The loop of `-conformsToType:`. -/
def anyConforms (conformsToType : UTIs → ETUTI → Query (UTIs × Bool)) (self : ETUTI) :
    UTIs → List ETUTI → Query (UTIs × Bool)
  | s, [] => pure (s, false)
  | s, supertype :: supertypes =>
    if supertype = self then throw .internalInconsistency
    else conformsToType s supertype >>= fun r =>
      if r.2 then pure (r.1, true) else anyConforms conformsToType self r.1 supertypes

def conformsToType : ℕ → UTIs → ETUTI → ETUTI → Query (UTIs × Bool)
  | 0, _, _, _ => none
  | fuel + 1, s, self, aType =>
    if aType = self then pure (s, true)
    else s.supertypesOf rt self >>= fun r =>
      anyConforms (fun s supertype => conformsToType fuel s supertype aType) self r.1 r.2

/-- The loop of `-allSubtypes`. -/
def collectSubtypes (fuel : ℕ) (self : ETUTI) :
    UTIs → List ETUTI → List ETUTI → Query (UTIs × List ETUTI)
  | s, [], result => pure (s, result)
  | s, type :: types, result =>
    conformsToType rt fuel s type self >>= fun r =>
      collectSubtypes fuel self r.1 types
        (if r.2 ∧ type ≠ self then result ++ [type] else result)

def allSubtypes (fuel : ℕ) (self : ETUTI) : Query (UTIs × List ETUTI) :=
  collectSubtypes rt fuel self s (s.instances.map Prod.snd) []

end UTIs

end Etoile.EtoileFoundation
