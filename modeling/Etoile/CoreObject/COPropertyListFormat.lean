import Mathlib.Data.List.Dedup
import Etoile.CoreObject.COGroup
import Etoile.CoreObject.Properties

/-!
# The property list of a group

A group is written with all objects and groups below it, each under its UUID, and with the members
of each group.  A dictionary is a list of pairs whose first pair for a key counts.
-/

namespace Etoile.CoreObject

/-- What property lists are made of; an atom is a number, a date or data. -/
inductive PList (A : Type)
  | atom (a : A)
  | string (s : String)
  | array (values : List (PList A))
  | dictionary (entries : List (String × PList A))

def PList.objectForKey {A : Type} : PList A → String → Option (PList A)
  | dictionary entries, key => entries.lookup key
  | atom _, _ | string _, _ | array _, _ => none

def pPrimaryIdentifierKey := "PrimaryIdentifier"

def pMultiValueKey := "MultiValue"

def pCOVersion1Value := "COVersion1"

/-- The values are dictionaries that hold an identifier, a label and a value. -/
structure COMultiValue (A : Type) where
  values : List (PList A) := []
  primaryIdentifier : Option (PList A) := none

namespace COMultiValue

variable {A : Type}

def propertyList (mv : COMultiValue A) : PList A :=
  .dictionary ((pMultiValueKey, .array mv.values) ::
    match mv.primaryIdentifier with
    | none => []
    | some identifier => [(pPrimaryIdentifierKey, identifier)])

/-- `none` if the values are no array. -/
def initWithPropertyList (propertyList : PList A) : Option (COMultiValue A) :=
  let primaryIdentifier := propertyList.objectForKey pPrimaryIdentifierKey
  match propertyList.objectForKey pMultiValueKey with
  | none => some { primaryIdentifier }
  | some (.array values) => some { values, primaryIdentifier }
  | some _ => none

end COMultiValue

/-- A value in the `_properties` of an object. -/
inductive PropertyValue (A : Type)
  | plain (value : PList A)
  | multi (mv : COMultiValue A)

namespace PropertyValue

variable {A : Type}

def isMulti : PropertyValue A → Bool
  | plain _ => false
  | multi _ => true

def propertyList : PropertyValue A → PList A
  | plain value => value
  | multi mv => mv.propertyList

end PropertyValue

/-- A `COPropertyType`; the other types differ in their last bits. -/
abbrev COPropertyType := ℕ

def kCOErrorInProperty : COPropertyType := 0x0

def kCOMultiValueMask : COPropertyType := 0x100

abbrev PropertyTypes := ObjectClass → List (String × COPropertyType)

namespace PropertyTypes

def addPropertiesAndTypes (types : PropertyTypes) (cls : ObjectClass)
    (properties : List (String × COPropertyType)) : PropertyTypes :=
  Function.update types cls (properties ++ types cls)

def typeOfProperty (types : PropertyTypes) (cls : ObjectClass) (property : String) :
    COPropertyType :=
  ((types cls).lookup property).getD kCOErrorInProperty

def isMultiValue (types : PropertyTypes) (cls : ObjectClass) (property : String) : Bool :=
  types.typeOfProperty cls property &&& kCOMultiValueMask ≠ 0

end PropertyTypes

/-- The properties of an object but for its UUID, its parents and its members. -/
abbrev Entries (A : Type) := List (String × PropertyValue A)

/-- The class, the values and the format of an object, under `Class`, `Values` and `Version`. -/
structure ObjectList (U A : Type) where
  cls : ObjectClass
  uid : U
  values : List (String × PList A)
  version : Option String := none

/-- The property list of a group; `types` are the types of its class. -/
structure GroupList (U A : Type) where
  object : ObjectList U A
  types : List (String × COPropertyType)
  allObjects : List (U × ObjectList U A)
  allClasses : List (ObjectClass × List (String × COPropertyType))
  allGroups : List (U × List U)

/-- The groups and objects that are written, which are known by their UUIDs. -/
structure GroupGraph (U A : Type) where
  isa : U → ObjectClass
  properties : U → Entries A
  relations : ObjectGraph U

namespace GroupGraph

open MembersProperty

variable {U A : Type} [DecidableEq U] (g : GroupGraph U A)

def groups (u : U) : List U := g.relations.value kCOGroupSubgroupsProperty u

def members (u : U) : List U := g.relations.value kCOGroupChildrenProperty u ++ g.groups u

/-- What is found in a group and in its subgroups; a group that is its own subgroup is left out.
`none` if the recursion is deeper than that. -/
def collect (found : U → List U) : ℕ → U → Option (List U)
  | 0, _ => none
  | fuel + 1, self => (g.groups self).foldlM (fun set group =>
      if group = self then some set
      else (collect found fuel group).map fun a => (set ++ a).dedup) (found self).dedup

def allObjects : ℕ → U → Option (List U) := g.collect g.members

def allGroups : ℕ → U → Option (List U) := g.collect g.groups

/-- What `-_outputGroupVersion1` writes of a group below. -/
def outputSubgroup (u : U) : ObjectList U A where
  cls := g.isa u
  uid := u
  values := (g.properties u).map fun entry => (entry.1, entry.2.propertyList)

/-- `-_outputObjectVersion1`. -/
def outputObject (u : U) : ObjectList U A :=
  { g.outputSubgroup u with version := some pCOVersion1Value }

variable (types : PropertyTypes)

/-- `-_outputGroupVersion1`; the property list of a group below is taken too, and replaced. -/
def outputGroup : ℕ → U → Option (GroupList U A)
  | 0, _ => none
  | fuel + 1, self => do
    let objects ← g.allObjects fuel self
    let entries ← objects.mapM fun o =>
      if (g.isa o).kind.isKindOfCOGroup then
        (outputGroup fuel o).map fun propertyList => (o, propertyList.object)
      else some (o, g.outputObject o)
    let groups ← g.allGroups fuel self
    return {
      object := g.outputObject self
      types := types (g.isa self)
      allObjects := groups.map (fun u => (u, g.outputSubgroup u)) ++ entries
      allClasses := ((objects ++ groups).map g.isa).dedup.map fun cls => (cls, types cls)
      allGroups := (groups ++ [self]).map fun u => (u, g.members u ++ g.groups u) }

end GroupGraph

structure ReadObject (U A : Type) where
  cls : ObjectClass
  uid : U
  properties : Entries A

structure ReadGraph (U A : Type) where
  root : U
  objects : List (U × ReadObject U A)
  relations : ObjectGraph U

section Reading

variable {U A : Type} [DecidableEq U]

/-- `-allKeys`. -/
def allKeys {V : Type} (d : List (U × V)) : List U := (d.map Prod.fst).dedup

variable (types : PropertyTypes) (init : ObjectClass → Entries A)
  (intValue : PropertyValue A → ℤ)

/-- A value of a property, made a multivalue where its type says so; `none` if that is `nil`. -/
def readValue (cls : ObjectClass) (entry : String × PList A) : Option (String × PropertyValue A) :=
  if types.isMultiValue cls entry.1 then
    (COMultiValue.initWithPropertyList entry.2).map fun mv => (entry.1, .multi mv)
  else some (entry.1, .plain entry.2)

/-- `-initWithPropertyList:` of `COObject`: the values come before those that `-init` has set. -/
def readObject (propertyList : ObjectList U A) : Option (ReadObject U A) := do
  if propertyList.version ≠ some pCOVersion1Value then none
  let values ← propertyList.values.mapM (readValue types propertyList.cls)
  return {
    cls := propertyList.cls
    uid := propertyList.uid
    properties := values ++ init propertyList.cls }

/-- An object or a group below; `none` if its class is unknown.  For a group, the loop over the
properties has no body: what should be done for each is done for `nil`, which has no type. -/
def readEntry (propertyList : ObjectList U A) : Option (ReadObject U A) :=
  if propertyList.cls.kind.isKindOfCOGroup then
    some {
      cls := propertyList.cls
      uid := propertyList.uid
      properties := propertyList.values.map (fun entry => (entry.1, .plain entry.2))
        ++ init propertyList.cls }
  else if propertyList.cls.kind.isKindOfCOObject then readObject types init propertyList
  else none

/-- The class of an object that has been read; there are no others among the members. -/
def readClass (objects : List (U × ReadObject U A)) (u : U) : ObjectClass :=
  match objects.lookup u with
  | none => ⟨"", .otherObject⟩
  | some object => object.cls

def readMember (objects : List (U × ReadObject U A)) (uid : U) (group : ReadObject U A)
    (x : ObjectGraph U) (mid : U) : ObjectGraph U :=
  let ignored := isReadOnly intValue fun key => group.properties.lookup key
  match objects.lookup mid with
  | none => x
  | some object =>
    if object.cls.kind.isKindOfCOGroup then
      (x.addGroup (readClass objects) uid mid ignored).1
    else if object.cls.kind.isKindOfCOObject then
      (x.addMember (readClass objects) uid mid ignored).1
    else x

/-- The members of the group `uid`. -/
def readMembers (objects : List (U × ReadObject U A)) (groups : List (U × List U))
    (x : ObjectGraph U) (uid : U) : ObjectGraph U :=
  match groups.lookup uid, objects.lookup uid with
  | some members, some group => members.foldl (readMember intValue objects uid group) x
  | _, _ => x

/-- `-initWithPropertyList:` of `COGroup`; `none` if it raises. -/
def readGroup (propertyList : GroupList U A) : Option (ReadGraph U A) := do
  let types := types.addPropertiesAndTypes propertyList.object.cls propertyList.types
  let self ← readObject types init propertyList.object
  let types := propertyList.allClasses.foldl (fun types c => types.addPropertiesAndTypes c.1 c.2)
    types
  let objects ← (allKeys propertyList.allObjects).mapM fun key =>
    (propertyList.allObjects.lookup key).bind fun objectList =>
      (readEntry types init objectList).map fun object => (key, object)
  let objects := (self.uid, self) :: objects
  return {
    root := self.uid
    objects
    relations := (allKeys propertyList.allGroups).foldl
      (readMembers intValue objects propertyList.allGroups) (.empty (readClass objects)) }

end Reading

end Etoile.CoreObject
