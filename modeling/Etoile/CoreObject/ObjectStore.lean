import Etoile.CoreObject.History

/-!
# Snapshots and deltas of an object

A managed object is serialized in a bundle: `FullSave/root/N.save` holds a snapshot of version `N`
and `Delta/root/N.save` the invocation recorded as version `N`.  An object is restored to a version
by taking the last snapshot up to it and playing back the invocations after that snapshot.

A class of objects is known by its recorded mutators only: the guard that comes before `RECORD` and
the body between `RECORD` and `END_RECORD`, which may read the clock.
-/

namespace Etoile.CoreObject

/-- The mutators of a class: `σ` its states, `μ` the invocations, `δ` the clock. -/
structure ManagedClass (σ μ δ : Type) where
  accepts : μ → σ → Bool
  perform : δ → μ → σ → σ

def ManagedClass.invoke {σ μ δ : Type} (C : ManagedClass σ μ δ) (now : δ) (inv : μ) (s : σ) : σ :=
  if C.accepts inv s then C.perform now inv s else s

structure ObjectBundle (σ μ : Type) where
  fullSaves : Dictionary ℤ σ
  deltas : Dictionary ℤ μ

namespace ObjectBundle

variable {σ μ δ : Type}

def laterVersion (targetVersion aVersion saveVersion : ℤ) : ℤ :=
  if saveVersion > aVersion ∧ saveVersion ≤ targetVersion then saveVersion else aVersion

/-- `-lastSnapshotVersionOfObjectWithURL:forVersion:`; `-1` when there is none. -/
def lastSnapshotVersion (b : ObjectBundle σ μ) (targetVersion : ℤ) : ℤ :=
  b.fullSaves.keys.foldl (laterVersion targetVersion) (-1)

/-- `-playbackInvocationsWithObject:fromVersion:toVersion:` for the `n` versions after
`baseVersion`; `clock v` is the time at which version `v` is played back. -/
def playbackInvocations (C : ManagedClass σ μ δ) (clock : ℤ → δ) (b : ObjectBundle σ μ) :
    ℕ → ℤ → σ → Option σ
  | 0, _, s => some s
  | n + 1, baseVersion, s => do
    let inv ← b.deltas.objectForKey (baseVersion + 1)
    playbackInvocations C clock b n (baseVersion + 1) (C.invoke (clock (baseVersion + 1)) inv s)

/-- The last snapshot for `aVersion` with the later invocations played back on it, as in
`-lastSnapshotOfObject:forVersion:snapshotVersion:` followed by the playback and in
`-rawObjectWithURL:version:`. -/
def restore (C : ManagedClass σ μ δ) (clock : ℤ → δ) (b : ObjectBundle σ μ) (aVersion : ℤ) :
    Option σ := do
  let fullSaveVersion := b.lastSnapshotVersion aVersion
  let snapshotObject ← b.fullSaves.objectForKey fullSaveVersion
  playbackInvocations C clock b (aVersion - fullSaveVersion).toNat fullSaveVersion snapshotObject

end ObjectBundle

/-- An object in memory with its bundle; the version is `-1` until it is persistent. -/
structure ManagedObject (σ μ : Type) where
  isCoreObjectProxy : Bool
  objectVersion : ℤ
  state : σ
  bundle : ObjectBundle σ μ

namespace ManagedObject

variable {σ μ δ : Type}

def new (isCoreObjectProxy : Bool) (s : σ) : ManagedObject σ μ :=
  ⟨isCoreObjectProxy, -1, s, ⟨∅, ∅⟩⟩

/-- `-snapshotObject:shouldIncrementObjectVersion:`; the serializer starts from the object version
and writes the next one. -/
def snapshotObject (x : ManagedObject σ μ) (shouldIncrementObjectVersion : Bool) :
    ManagedObject σ μ :=
  { x with
    bundle.fullSaves := x.bundle.fullSaves.insert (x.objectVersion + 1) x.state
    objectVersion :=
      if shouldIncrementObjectVersion then x.objectVersion + 1 else x.objectVersion }

def serializeDelta (x : ManagedObject σ μ) (inv : μ) : ManagedObject σ μ :=
  { x with bundle.deltas := x.bundle.deltas.insert (x.objectVersion + 1) inv }

/-- `-forwardInvocationIfNeeded:` -/
def forwardInvocationIfNeeded (C : ManagedClass σ μ δ) (now : δ) (inv : μ)
    (x : ManagedObject σ μ) : ManagedObject σ μ :=
  if x.isCoreObjectProxy then { x with state := C.invoke now inv x.state } else x

/-- `-serializeInvocation:`, with the version it returns. -/
def serializeInvocation (C : ManagedClass σ μ δ) (snapshotTimeInterval : ℤ) (now : δ) (inv : μ)
    (x : ManagedObject σ μ) : ManagedObject σ μ × ℤ :=
  let x := if x.objectVersion = -1 then x.snapshotObject true else x
  let version := x.objectVersion + 1
  let x := (x.serializeDelta inv).forwardInvocationIfNeeded C now inv
  (if version % snapshotTimeInterval = 0 then x.snapshotObject false else x, version)

/-- A call of a recorded mutator.  A `COObject` refuses it or has it recorded and then runs the
body; a `COProxy` has it recorded, and forwarded from there.  `none` is the division by a
snapshot interval of zero. -/
def callMutator (C : ManagedClass σ μ δ) (snapshotTimeInterval : ℤ) (now : δ) (inv : μ)
    (x : ManagedObject σ μ) : Option (ManagedObject σ μ) :=
  if x.isCoreObjectProxy then
    if snapshotTimeInterval = 0 then none
    else
      let recorded := x.serializeInvocation C snapshotTimeInterval now inv
      some { recorded.1 with objectVersion := recorded.2 }
  else if C.accepts inv x.state then
    if snapshotTimeInterval = 0 then none
    else
      let recorded := x.serializeInvocation C snapshotTimeInterval now inv
      some { recorded.1 with
        objectVersion := recorded.2
        state := C.perform now inv recorded.1.state }
  else some x

/-- `-objectByRestoringObject:toVersion:mergeImmediately:` without the merge. -/
def objectByRestoringObject (C : ManagedClass σ μ δ) (clock : ℤ → δ) (x : ManagedObject σ μ)
    (aVersion : ℤ) : Option σ :=
  let deltaVersion := x.bundle.deltas.keys.foldl max (-1)
  let snapshotVersion := x.bundle.fullSaves.keys.foldl max (-1)
  if aVersion > max deltaVersion snapshotVersion then none
  else if aVersion = x.objectVersion then some x.state
  else x.bundle.restore C clock aVersion

end ManagedObject

end Etoile.CoreObject
