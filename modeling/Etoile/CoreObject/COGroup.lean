import Mathlib.Data.List.InsertIdx

/-!
# The members of a group

A group keeps its members in two properties, its children and its subgroups, and an object keeps the
groups it is a member of in a third.  Objects are the same where `-isEqual:` says so, that is if
UUID and version are the same.
-/

namespace Etoile.CoreObject

open Function

/-- The classes that `COGroup` tells apart: `COObject` and `COGroup` with their subclasses, and what
only conforms to the protocol of one of them, as `COFile` and `CODirectory` do. -/
inductive Kind
  | coObject
  | coGroup
  | otherObject
  | otherGroup
  deriving DecidableEq

structure ObjectClass where
  name : String
  kind : Kind
  deriving DecidableEq

namespace Kind

def isKindOfCOObject : Kind → Bool
  | coObject | coGroup => true
  | otherObject | otherGroup => false

def isKindOfCOGroup : Kind → Bool
  | coGroup => true
  | coObject | otherObject | otherGroup => false

def conformsToCOGroup : Kind → Bool
  | coGroup | otherGroup => true
  | coObject | otherObject => false

end Kind

inductive MembersProperty
  | kCOGroupChildrenProperty
  | kCOGroupSubgroupsProperty
  deriving DecidableEq

inductive COMergeResult
  | COMergeResultNone
  | COMergeResultFailed
  | COMergeResultSucceeded
  deriving DecidableEq

structure ObjectGraph (O : Type) where
  value : MembersProperty → O → List O
  parents : O → Option (List O)

namespace ObjectGraph

open MembersProperty COMergeResult

variable {O : Type} [DecidableEq O] (isa : O → ObjectClass)

def empty : ObjectGraph O where
  value _ _ := []
  parents o := if (isa o).kind.isKindOfCOObject then some [] else none

/-- `kCOParentsProperty`. -/
def parentGroups (x : ObjectGraph O) (o : O) : List O := (x.parents o).getD []

def setValue (x : ObjectGraph O) (property : MembersProperty) (self : O) (a : List O) :
    ObjectGraph O :=
  { x with value := update x.value property (update (x.value property) self a) }

/-- `-[NSMutableArray removeObject:]`. -/
def removeObject (a : List O) (object : O) : List O := a.filter (· != object)

def addAsParent (x : ObjectGraph O) (self object : O) : ObjectGraph O :=
  if (isa object).kind.isKindOfCOObject then
    match x.parents object with
    | none => { x with parents := update x.parents object (some []) }
    | some a => { x with parents := update x.parents object (some (a ++ [self])) }
  else x

def removeAsParent (x : ObjectGraph O) (self object : O) : ObjectGraph O :=
  if (isa object).kind.isKindOfCOObject then
    match x.parents object with
    | none => x
    | some a => { x with parents := update x.parents object (some (removeObject a self)) }
  else x

/-- Adds to one of the two properties, unless changes to the receiver are ignored or it is read
only. -/
def add (x : ObjectGraph O) (property : MembersProperty) (self object : O) (ignored : Bool) :
    ObjectGraph O × Bool :=
  let a := x.value property self
  if object ∈ a then (x, false)
  else if ignored then (x, false)
  else ((x.addAsParent isa self object).setValue property self (a ++ [object]), true)

def remove (x : ObjectGraph O) (property : MembersProperty) (self object : O) (ignored : Bool) :
    ObjectGraph O × Bool :=
  let a := x.value property self
  if object ∈ a then
    if ignored then (x, false)
    else ((x.removeAsParent isa self object).setValue property self (removeObject a object), true)
  else (x, false)

def addGroup (x : ObjectGraph O) (self aGroup : O) (ignored : Bool) : ObjectGraph O × Bool :=
  x.add isa kCOGroupSubgroupsProperty self aGroup ignored

def addMember (x : ObjectGraph O) (self object : O) (ignored : Bool) : ObjectGraph O × Bool :=
  if (isa object).kind.conformsToCOGroup then x.addGroup isa self object ignored
  else x.add isa kCOGroupChildrenProperty self object ignored

def removeGroup (x : ObjectGraph O) (self aGroup : O) (ignored : Bool) : ObjectGraph O × Bool :=
  x.remove isa kCOGroupSubgroupsProperty self aGroup ignored

def removeMember (x : ObjectGraph O) (self object : O) (ignored : Bool) : ObjectGraph O × Bool :=
  if (isa object).kind.conformsToCOGroup then x.removeGroup isa self object ignored
  else x.remove isa kCOGroupChildrenProperty self object ignored

/-- `targetChildObjects`. -/
def targetProperty (otherObject : O) : MembersProperty :=
  if (isa otherObject).kind.isKindOfCOGroup then kCOGroupSubgroupsProperty
  else kCOGroupChildrenProperty

/-- `-replaceObject:byObject:isTemporalMerge:error:`; there is no result where
`-insertObject:atIndex:` raises, its index being `NSNotFound`. -/
def replaceObject (x : ObjectGraph O) (self anObject otherObject : O) (temporal : Bool) :
    ObjectGraph O × Option COMergeResult :=
  if temporal ∧ isa otherObject ≠ isa anObject then (x, some COMergeResultNone)
  else if anObject ∉ x.value kCOGroupChildrenProperty self ++ x.value kCOGroupSubgroupsProperty self
    then (x, some COMergeResultNone)
  else
    let property := targetProperty isa otherObject
    let a := x.value property self
    let indexOfReplacedObject := a.idxOf? anObject
    let x := (x.removeAsParent isa self anObject).setValue property self (removeObject a anObject)
    let x := x.addAsParent isa self otherObject
    match indexOfReplacedObject with
    | none => (x, none)
    | some index =>
      (x.setValue property self ((removeObject a anObject).insertIdx index otherObject),
        some COMergeResultSucceeded)

/-- A call on the group `self`; `-addGroup:` and `-removeGroup:` take groups only. -/
inductive Call
  | addMember (self object : O) (ignored : Bool)
  | removeMember (self object : O) (ignored : Bool)
  | addGroup (self : O) (aGroup : { o : O // (isa o).kind.conformsToCOGroup = true })
    (ignored : Bool)
  | removeGroup (self : O) (aGroup : { o : O // (isa o).kind.conformsToCOGroup = true })
    (ignored : Bool)
  | replaceObject (self anObject otherObject : O) (temporal : Bool)

variable {isa}

def perform (x : ObjectGraph O) : Call isa → ObjectGraph O
  | .addMember self object ignored => (x.addMember isa self object ignored).1
  | .removeMember self object ignored => (x.removeMember isa self object ignored).1
  | .addGroup self aGroup ignored => (x.addGroup isa self aGroup ignored).1
  | .removeGroup self aGroup ignored => (x.removeGroup isa self aGroup ignored).1
  | .replaceObject self anObject otherObject temporal =>
    (x.replaceObject isa self anObject otherObject temporal).1

end ObjectGraph

end Etoile.CoreObject
