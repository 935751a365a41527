import Etoile.CoreObject.ObjectStore

/-!
# Object contexts

An object context in memory over what it has persisted: the `History` table, the bundle and the
metadata version of each object, and the registered instances with the members their groups refer
to.  A group holds a member as an instance or, where none was cached when the group was read, as a
fault, the bare UUID.  Replacing an instance therefore touches every group that holds it.

`none` is an exception, or a proxied object that would have to be recreated: `COProxy` inserts
itself in the current context when it wraps the object read.
-/

namespace Etoile.CoreObject

/-- What is recorded of an object.  The parents of an object and the dates are not: the groups and
the clock set them again. -/
structure ObjectState (U P : Type) where
  properties : P
  children : List U
  subgroups : List U

def ObjectState.members {U P : Type} (s : ObjectState U P) : List U := s.children ++ s.subgroups

/-- What a group holds in place of a member: its UUID, the registered instance, or one that is no
longer registered. -/
inductive Reference
  | fault
  | registered
  | unregistered (objectVersion : ℤ)
  deriving Repr, DecidableEq

structure Instance (U P : Type) where
  objectVersion : ℤ
  state : ObjectState U P
  references : U → Reference

inductive ChildrenMergePolicy
  | oldChildren
  | existingChildren
  | childrenUnion
  | childrenIntersection
  deriving Repr, DecidableEq

structure Context (U P μ : Type) where
  uuid : U
  version : ℤ
  history : List (HistoryRow U)
  bundles : U → ObjectBundle (ObjectState U P) μ
  /-- `-objectVersionForUUID:` of the metadata server, `-1` for an unknown object. -/
  metadata : U → ℤ
  registered : U → Option (Instance U P)
  mergePolicy : ChildrenMergePolicy
  isRestoringContext : Bool
  firstUndoVersion : ℤ
  restoredVersionUndoCursor : ℤ
  isUndoing : Bool
  isRedoing : Bool

variable {U P μ : Type} [DecidableEq U]

namespace Instance

def resolve (cached : U → Option (Instance U P)) (i : Instance U P) : Instance U P :=
  { i with references := fun m =>
      if i.references m = .fault ∧ (cached m).isSome then .registered else i.references m }

/-- The instances in `p` are registered no more; the group still refers to them. -/
def detach (cached : U → Option (Instance U P)) (p : U → Bool) (i : Instance U P) :
    Instance U P :=
  { i with references := fun m =>
      match i.references m, cached m with
      | .registered, some anObject =>
        if p m then .unregistered anObject.objectVersion else .registered
      | r, _ => r }

/-- `-[COGroup replaceObject:byObject:isTemporalMerge:error:]`; `-isEqual:` compares the UUID and
the object version. -/
def replaceObject (o : U) (objectVersion : ℤ) (i : Instance U P) : Instance U P :=
  { i with references := fun m =>
      if m = o ∧ i.references m = .unregistered objectVersion then .registered
      else i.references m }

/-- `-mergeArray:intoArray:policy:`; a set lists its elements in the order they came in. -/
def mergeArray (existingChildren oldChildren : List U) : ChildrenMergePolicy → List U
  | .oldChildren => oldChildren
  | .existingChildren => existingChildren
  | .childrenUnion => oldChildren.dedup.union existingChildren.dedup
  | .childrenIntersection => oldChildren.dedup.inter existingChildren

/-- `-mergeObjectsWithObjectsOfGroup:policy:` -/
def mergeObjectsWithObjectsOfGroup (i aGroup : Instance U P) (aPolicy : ChildrenMergePolicy) :
    Instance U P :=
  { i with
    state.children := mergeArray aGroup.state.children i.state.children aPolicy
    state.subgroups := mergeArray aGroup.state.subgroups i.state.subgroups aPolicy
    references := fun m =>
      if aPolicy ≠ .existingChildren ∧ m ∈ i.state.members then i.references m
      else aGroup.references m }

end Instance

namespace Context

/-- `-initWithUUID:` for a new context. -/
def new (uuid : U) : Context U P μ where
  uuid := uuid
  version := 0
  history := []
  bundles := fun _ => ⟨∅, ∅⟩
  metadata := fun _ => -1
  registered := fun _ => none
  mergePolicy := .oldChildren
  isRestoringContext := false
  firstUndoVersion := -1
  restoredVersionUndoCursor := -1
  isUndoing := false
  isRedoing := false

/-- `SELECT contextVersion FROM History WHERE contextUUID = uuid ORDER BY contextVersion DESC
LIMIT 1` -/
def latestVersion (x : Context U P μ) : ℤ :=
  ((x.history.filter fun r => r.contextUUID = x.uuid).map (·.contextVersion)).foldl max 0

/-- `-initWithUUID:` in another process, with nothing loaded yet. -/
def newSession (x : Context U P μ) : Context U P μ :=
  { x with
    version := x.latestVersion
    registered := fun _ => none
    mergePolicy := .oldChildren
    isRestoringContext := false
    firstUndoVersion := -1
    restoredVersionUndoCursor := -1
    isUndoing := false
    isRedoing := false }

/-- `-logRecord:objectVersion:timestamp:shouldIncrementContextVersion:` -/
def logRecord (x : Context U P μ) (object : U) (aVersion : ℤ) (updateContextVersion : Bool) :
    Context U P μ :=
  let version := if updateContextVersion then x.version + 1 else x.version
  { x with
    version := version
    history := x.history ++ [⟨object, aVersion, x.uuid, version⟩]
    firstUndoVersion := if x.isUndoing ∨ x.isRedoing then x.firstUndoVersion else -1 }

def registerObject (x : Context U P μ) (o : U) (i : Instance U P) : Context U P μ :=
  { x with registered := Function.update x.registered o (some i) }

/-- `-unregisterObject:` for every registered object in `p`. -/
def unregisterObjects (x : Context U P μ) (p : U → Bool) : Context U P μ :=
  { x with registered := fun o =>
      if (p o) then none else (x.registered o).map (·.detach x.registered p) }

/-- The groups in `p` replace the faults for which an instance is cached. -/
def replaceFaults (x : Context U P μ) (p : U → Bool) : Context U P μ :=
  { x with registered := fun g =>
      if (p g) then (x.registered g).map (·.resolve x.registered) else x.registered g }

section Store

variable (C : ManagedClass (ObjectState U P) μ Unit) (isProxy : U → Bool)

def managedObject (x : Context U P μ) (o : U) (i : Instance U P) :
    ManagedObject (ObjectState U P) μ :=
  ⟨isProxy o, i.objectVersion, i.state, x.bundles o⟩

def store (x : Context U P μ) (o : U) (a : ManagedObject (ObjectState U P) μ) : Context U P μ :=
  { x with
    bundles := Function.update x.bundles o a.bundle
    metadata := Function.update x.metadata o a.objectVersion }

/-- `-snapshotObject:` of a registered object; `-save` and, once it is registered, the insertion of
an object. -/
def snapshotObject (x : Context U P μ) (o : U) (i : Instance U P) : Context U P μ :=
  let a := (x.managedObject isProxy o i).snapshotObject true
  ((x.store o a).registerObject o { i with objectVersion := a.objectVersion }).logRecord o
    a.objectVersion true

def save (x : Context U P μ) (o : U) : Context U P μ :=
  (x.registered o).elim x (x.snapshotObject isProxy o)

/-- The insertion of a new object.  The members it was given are those of the context. -/
def insertObject (x : Context U P μ) (o : U) (s : ObjectState U P) : Context U P μ :=
  let i : Instance U P := ⟨-1, s, fun m =>
    if m = o ∨ (x.registered m).isSome then .registered else .fault⟩
  (x.registerObject o i).snapshotObject isProxy o i

def callMutator (x : Context U P μ) (snapshotTimeInterval : ℤ) (inv : μ) (o : U) :
    Option (Context U P μ) := do
  let i ← x.registered o
  let a ← (x.managedObject isProxy o i).callMutator C snapshotTimeInterval () inv
  if a.objectVersion = i.objectVersion then some x
  else
    let references := fun m =>
      if m ∈ i.state.members then i.references m
      else if (x.registered m).isSome then .registered else .fault
    some (((x.store o a).registerObject o ⟨a.objectVersion, a.state, references⟩).logRecord o
      a.objectVersion true)

/-- An instance of version `aVersion`, read from the store.  Its members are looked up in the
cache. -/
def deserialize (x : Context U P μ) (o : U) (aVersion : ℤ) : Option (Instance U P) :=
  ((x.bundles o).restore C (fun _ => ()) aVersion).map fun s =>
    ⟨aVersion, s, fun m => if (x.registered m).isSome then .registered else .fault⟩

/-- `-objectForUUID:`, which leaves an unknown object aside. -/
def objectForUUID (x : Context U P μ) (o : U) : Option (Context U P μ) :=
  if (x.registered o).isSome ∨ x.metadata o < 0 then some x
  else if isProxy o then none
  else (x.deserialize C o (x.metadata o)).elim (some x) fun i => some (x.registerObject o i)

/-- `-resolveFaults` of a registered group. -/
def resolveFaults (x : Context U P μ) (o : U) : Option (Context U P μ) :=
  match x.registered o with
  | none => some x
  | some i => do
    let faults := i.state.members.filter fun m => i.references m = .fault
    let x ← faults.foldlM (objectForUUID C isProxy) x
    some (x.replaceFaults (· = o))

/-- `-commitMergeOfInstance:forObject:`; the version to continue from is that of the object
replaced, or the one the metadata server knows.  Returns the instance with its new version. -/
def commitMergeOfInstance (x : Context U P μ) (o : U) (temporalInstance : Instance U P)
    (objectVersion : ℤ) : Context U P μ × Instance U P :=
  let i := { temporalInstance with objectVersion := objectVersion }
  let a := (x.managedObject isProxy o i).snapshotObject true
  ((x.store o a).logRecord o a.objectVersion !x.isRestoringContext,
    { i with objectVersion := a.objectVersion })

/-- `-updateRelationshipsToObject:withInstance:` over the cached groups. -/
def updateRelationships (x : Context U P μ) (o : U) (objectVersion : ℤ) : Context U P μ :=
  { x with registered := fun g => (x.registered g).map (·.replaceObject o objectVersion) }

/-- `-replaceObject:byObject:collectAllErrors:` by a temporal instance. -/
def replaceObject (x : Context U P μ) (o : U) (temporalInstance : Instance U P) :
    Option (Context U P μ) := do
  let x ← x.resolveFaults C isProxy o
  let anObject ← x.registered o
  let temporalInstance := temporalInstance.detach x.registered (· = o)
  let x := (x.unregisterObjects (· = o)).registerObject o temporalInstance
  let x ← x.resolveFaults C isProxy o
  let x := x.updateRelationships o anObject.objectVersion
  let i ← x.registered o
  let i := i.mergeObjectsWithObjectsOfGroup anObject x.mergePolicy
  let (x, i) := x.commitMergeOfInstance isProxy o i anObject.objectVersion
  some (x.registerObject o i)

/-- `-objectByRestoringObject:toVersion:mergeImmediately:` with the merge.  A proxy is kept and
its object exchanged. -/
def objectByRestoringObject (x : Context U P μ) (o : U) (anObject : Instance U P)
    (aVersion : ℤ) : Option (Context U P μ) := do
  let s ← (x.managedObject isProxy o anObject).objectByRestoringObject C (fun _ => ()) aVersion
  if aVersion = anObject.objectVersion then some x
  else
    let i : Instance U P :=
      ⟨aVersion, s, fun m => if (x.registered m).isSome then .registered else .fault⟩
    if isProxy o then
      let (x, i) := x.commitMergeOfInstance isProxy o i (x.metadata o)
      some (x.registerObject o i)
    else x.replaceObject C isProxy o i

/-- `-objectForUUID:version:` -/
def objectForUUIDVersion (x : Context U P μ) (o : U) (objectVersion : ℤ) :
    Option (Context U P μ) :=
  if isProxy o then none
  else do
    let i ← x.deserialize C o objectVersion
    let (x, i) := x.commitMergeOfInstance isProxy o i (x.metadata o)
    some (x.registerObject o i)

end Store

section Restore

variable (C : ManagedClass (ObjectState U P) μ Unit) (isProxy : U → Bool)

def find (x : Context U P μ) (aVersion : ℤ) : Option (Dictionary U ℤ) :=
  findAllObjectVersionsMatchingContextVersion x.history x.uuid x.version aVersion

/-- One turn of the loop of `-restoreObjectsIfNeededForObjectVersions:`. -/
def restoreObjectIfNeeded (restored : Dictionary U ℤ) (x : Context U P μ) (o : U) :
    Option (Context U P μ) := do
  let restoredVersion ← restored.objectForKey o
  match x.registered o with
  | some currentObject =>
    if restoredVersion = currentObject.objectVersion then some x
    else x.objectByRestoringObject C isProxy o currentObject restoredVersion
  | none =>
    if restoredVersion = x.metadata o then some x
    else x.objectForUUIDVersion C isProxy o restoredVersion

/-- `-resolvePendingFaultsWithinCachedObjectGraph` -/
def resolvePendingFaults (x : Context U P μ) : Context U P μ := x.replaceFaults fun _ => true

def logRestoreContextVersion (x : Context U P μ) (aVersion : ℤ) : Context U P μ :=
  { x with history := x.history ++ [⟨x.uuid, aVersion, x.uuid, x.version⟩] }

/-- `-_restoreToVersion:`; `order` is the order in which `-allKeys` lists the objects found. -/
def restoreToVersion (x : Context U P μ) (aVersion : ℤ) (order : List U) :
    Option (Context U P μ) :=
  if aVersion ≥ x.version then some x
  else do
    let x := { x with isRestoringContext := true, version := x.version + 1 }
    let restored ← x.find aVersion
    let x := x.unregisterObjects (· ∉ restored)
    let x ← order.foldlM (restoreObjectIfNeeded C isProxy restored) x
    let x := x.resolvePendingFaults.logRestoreContextVersion aVersion
    some { x with isRestoringContext := false }

end Restore

section Undo

variable (C : ManagedClass (ObjectState U P) μ Unit) (isProxy : U → Bool)

def beginUndoSequence (x : Context U P μ) : Context U P μ :=
  { x with firstUndoVersion := x.version + 1, restoredVersionUndoCursor := x.version }

def endUndoSequence (x : Context U P μ) : Context U P μ := { x with firstUndoVersion := -1 }

def canRedo (x : Context U P μ) : Prop := x.firstUndoVersion ≠ -1

instance (x : Context U P μ) : Decidable x.canRedo :=
  inferInstanceAs (Decidable (x.firstUndoVersion ≠ -1))

def undo (x : Context U P μ) (order : List U) : Option (Context U P μ) := do
  let x := if x.firstUndoVersion = -1 then x.beginUndoSequence else x
  let aVersion := x.restoredVersionUndoCursor - 1
  let x := { x with isUndoing := true, restoredVersionUndoCursor := aVersion }
  let x ← x.restoreToVersion C isProxy aVersion order
  some { x with isUndoing := false }

def redo (x : Context U P μ) (order : List U) : Option (Context U P μ) :=
  if ¬ x.canRedo then some x
  else do
    let aVersion := x.restoredVersionUndoCursor + 1
    let x := { x with isRedoing := true, restoredVersionUndoCursor := aVersion }
    let x ← x.restoreToVersion C isProxy aVersion order
    let x := { x with isRedoing := false }
    some (if x.restoredVersionUndoCursor = x.firstUndoVersion - 1 then x.endUndoSequence else x)

end Undo

end Context

end Etoile.CoreObject
