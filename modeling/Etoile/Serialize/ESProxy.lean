import Etoile.Lib.Runs
import Mathlib.Data.List.Range

/-!
# The recording proxy

`ESProxy` wraps an object, numbers the messages it forwards and saves them, to play them back on
an earlier copy of the object.  Of the serializer and deserializer only their versions are here:
what is restored from a version is what was serialized to it.
-/

namespace Etoile.Serialize

/-- A file of the store.  One that was started and not finished has its header at most, and to
read it reads past its end. -/
inductive VersionFile (α : Type)
  | started
  | finished (graph : α)

/-- `ETSerializer`, with the files of its store. -/
structure ETSerializer (α : Type) where
  objectVersion : ℤ := -1
  files : ℤ → Option (VersionFile α) := fun _ => none

namespace ETSerializer

variable {α : Type}

def setVersion (s : ETSerializer α) (aVersion : ℤ) : ETSerializer α :=
  { objectVersion := aVersion, files := Function.update s.files aVersion (some .started) }

def newVersion (s : ETSerializer α) : ETSerializer α := s.setVersion (s.objectVersion + 1)

/-- `-serializeObject:withName:`, which begins with a new version. -/
def serializeObject (s : ETSerializer α) (anObject : α) : ETSerializer α :=
  let s := s.newVersion
  { s with files := Function.update s.files s.objectVersion (some (.finished anObject)) }

end ETSerializer

/-- `ETDeserializer`, with the data its backend has loaded. -/
structure ETDeserializer (α : Type) where
  files : ℤ → Option (VersionFile α)
  data : Option α := none

namespace ETDeserializer

variable {α : Type}

/-- The version that is found, or `-1`; `none` where a read past the end leaves no behaviour. -/
def setVersion (d : ETDeserializer α) (aVersion : ℤ) : Option (ETDeserializer α × ℤ) :=
  match d.files aVersion with
  | none => some (d, -1)
  | some .started => none
  | some (.finished graph) => some ({ d with data := some graph }, aVersion)

def restoreObjectGraph (d : ETDeserializer α) : Option α := d.data

end ETDeserializer

/-- What the store of the deltas holds: the base version and the invocations. -/
inductive Delta (S M : Type)
  | baseVersion (anObject : S)
  | invocation (anInvocation : M)

/-- What messages do to an object, and which of them `NSObject` responds to. -/
structure Messages (S M : Type) where
  invoke : M → S → S
  nsObjectResponds : M → Bool

structure ESProxy (S M : Type) where
  object : S
  version : ℤ := 0
  serializer : ETSerializer (Delta S M)
  fullSave : ETSerializer S

namespace ESProxy

variable {S M : Type} (W : Messages S M)

def FULL_SAVE_INTERVAL : ℤ := 100

/-- `-initWithObject:serializer:forBundle:`. -/
def initWithObject (anObject : S) : ESProxy S M :=
  { object := anObject
    serializer := ({} : ETSerializer (Delta S M)).serializeObject (.baseVersion anObject)
    fullSave := (({} : ETSerializer S).setVersion 0).serializeObject anObject }

def forwardInvocation (s : ESProxy S M) (anInvocation : M) : ESProxy S M :=
  if W.nsObjectResponds anInvocation then { s with object := W.invoke anInvocation s.object }
  else
    let serializer := s.serializer.newVersion
    let s :=
      { s with
        version := serializer.objectVersion
        serializer := serializer.serializeObject (.invocation anInvocation)
        object := W.invoke anInvocation s.object }
    if s.version % FULL_SAVE_INTERVAL = 0 then
      { s with fullSave := (s.fullSave.setVersion s.version).serializeObject s.object }
    else s

/-- The loop of `-setVersion:` over the full saves, from `fullVersion` down. -/
def findFullSave (unFull : ETDeserializer S) :
    (fullVersion : ℕ) → Option (Option ℕ × ETDeserializer S)
  | 0 => do
    let (unFull, found) ← unFull.setVersion 0
    some (if found = 0 then some 0 else none, unFull)
  | fullVersion + 1 => do
    let (unFull, found) ← unFull.setVersion (fullVersion + 1 : ℕ)
    if found = (fullVersion + 1 : ℕ) then some (some (fullVersion + 1), unFull)
    else findFullSave unFull fullVersion

/-- One turn of the loop that plays back.  The answer to `setVersion:` is not looked at, and what
was loaded last is restored again; the base version does not respond to
`-invokeWithTarget:`. -/
def playBack (d : ETDeserializer (Delta S M) × S) (v : ℕ) :
    Option (ETDeserializer (Delta S M) × S) := do
  let (unDelta, _) ← d.1.setVersion v
  match unDelta.restoreObjectGraph with
  | none => some (unDelta, d.2)
  | some (.invocation anInvocation) => some (unDelta, W.invoke anInvocation d.2)
  | some (.baseVersion _) => none

def setVersion (s : ESProxy S M) (aVersion : ℤ) : Option (ESProxy S M × ℤ) :=
  if aVersion < 0 then some (s, -1)
  else do
    let (fullVersion, unFull) ← findFullSave { files := s.fullSave.files } aVersion.toNat
    match fullVersion with
    | none => some (s, -1)
    | some fullVersion =>
      let new ← unFull.restoreObjectGraph
      let (_, new) ← (List.range' (fullVersion + 1) (aVersion.toNat - fullVersion)).foldlM
        (playBack W) ({ files := s.serializer.files }, new)
      some ({ s with object := new }, s.version)

end ESProxy

end Etoile.Serialize

/-!
## The history of a proxy

Both the proxy and its serializer begin a new version for a message, so the invocation is saved
one version behind the number the proxy has, and that number has a file that is never finished.
The full saves are off in the same way: there is one, of the object as it was at first.
-/

namespace Etoile.Serialize.ESProxy

open Function List Option

variable {S M : Type} (W : Messages S M)

inductive Call (M : Type)
  | forwardInvocation (anInvocation : M)
  | version
  | setVersion (aVersion : ℤ)

/-- A proxy, unless it has read past the end of a file, and the versions it has reported, each
with the object as it was then. -/
structure Log (S M : Type) where
  proxy : Option (ESProxy S M)
  reports : List (ℤ × S) := []

namespace Log

def start (anObject : S) : Log S M := { proxy := some (initWithObject anObject) }

def step (h : Log S M) : Call M → Log S M
  | .forwardInvocation anInvocation =>
    { h with proxy := h.proxy.map (·.forwardInvocation W anInvocation) }
  | .version =>
    { h with reports := (h.proxy.map fun s => (s.version, s.object)).toList ++ h.reports }
  | .setVersion aVersion => { h with proxy := (h.proxy.bind (·.setVersion W aVersion)).map (·.1) }

/-- Setting a version that was reported brings back the object of then. -/
def Faithful (h : Log S M) : Call M → Prop
  | .setVersion aVersion => ∀ anObject, (aVersion, anObject) ∈ h.reports →
    ∃ s, (h.step W (.setVersion aVersion)).proxy = some s ∧ s.object = anObject
  | _ => True

/-- The version that is set was not reported, or it is the first, and the first message had not
changed the object. -/
def Proper (original : S) (h : Log S M) : Call M → Prop
  | .setVersion aVersion => ∀ anObject, (aVersion, anObject) ∈ h.reports →
    h.proxy.isSome ∧ aVersion = 1 ∧ anObject = original
  | _ => True

end Log

/-- After `k` messages that are recorded. -/
structure Inv (original : S) (k : ℕ) (s : ESProxy S M) : Prop where
  full : ∀ v : ℤ, 0 ≤ v → s.fullSave.files v =
    if v = 0 then some .started else if v = 1 then some (.finished original) else none
  objectVersion : s.serializer.objectVersion = 2 * k
  started : ∀ j : ℕ, j < k → s.serializer.files (2 * j + 1) = some .started
  version : s.version = if k = 0 then 0 else 2 * k - 1

section Invariant

variable {W} {original : S} {k : ℕ} {s : ESProxy S M}

theorem inv_initWithObject : Inv original 0 (initWithObject original : ESProxy S M) := by
  refine ⟨fun v hv => ?_, rfl, fun j hj => absurd hj (Nat.not_lt_zero j), rfl⟩
  show update (update (update (fun _ => none) 0 _) 1 _) 1 _ v = _
  rw [update_idem, update_apply, update_apply]
  split_ifs
  · omega
  · rfl
  · rfl
  · rfl

theorem Inv.forwardInvocation_eq (h : Inv original k s) {m : M}
    (hm : W.nsObjectResponds m = false) : s.forwardInvocation W m =
      { s with
        version := 2 * k + 1
        serializer := s.serializer.newVersion.serializeObject (.invocation m)
        object := W.invoke m s.object } := by
  have hversion : s.serializer.newVersion.objectVersion = 2 * k + 1 := by
    rw [← h.objectVersion]
    rfl
  unfold ESProxy.forwardInvocation
  rw [hm, if_neg (by simp)]
  dsimp only
  rw [hversion, if_neg]
  unfold FULL_SAVE_INTERVAL
  omega

/-- The file of the new version is left unfinished for the next, which has the invocation. -/
theorem Inv.files_serializeObject (h : Inv original k s) (x : Delta S M) :
    (s.serializer.newVersion.serializeObject x).files = update
      (update s.serializer.files (2 * k + 1) (some .started)) (2 * k + 2)
      (some (.finished x)) := by
  show update (update (update s.serializer.files
    (s.serializer.objectVersion + 1) _) (s.serializer.objectVersion + 1 + 1) _)
    (s.serializer.objectVersion + 1 + 1) _ = _
  rw [update_idem, h.objectVersion]
  rfl

theorem Inv.forwardInvocation (h : Inv original k s) (m : M) :
    ∃ k', k ≤ k' ∧ Inv original k' (s.forwardInvocation W m) := by
  cases hm : W.nsObjectResponds m with
  | true =>
    refine ⟨k, le_rfl, ?_⟩
    unfold ESProxy.forwardInvocation
    rw [if_pos hm]
    exact ⟨h.full, h.objectVersion, h.started, h.version⟩
  | false =>
    refine ⟨k + 1, Nat.le_succ k, ?_⟩
    rw [h.forwardInvocation_eq hm]
    refine ⟨h.full, ?_, fun j hj => ?_, ?_⟩
    · show s.serializer.objectVersion + 1 + 1 = _
      rw [h.objectVersion]
      omega
    · show (s.serializer.newVersion.serializeObject _).files _ = _
      rw [h.files_serializeObject, update_of_ne (by omega), update_apply]
      split_ifs with hjk
      · rfl
      · exact h.started j (by omega)
    · rw [if_neg (Nat.succ_ne_zero k)]
      show (2 * k + 1 : ℤ) = _
      omega

theorem Inv.withObject (h : Inv original k s) (new : S) :
    Inv original k { s with object := new } :=
  ⟨h.full, h.objectVersion, h.started, h.version⟩

end Invariant

section SetVersion

variable {W} {original : S} {k : ℕ} {s : ESProxy S M}

section Files

variable {α : Type} {d : ETDeserializer α} {v : ℤ}

theorem setVersion_started (h : d.files v = some .started) : d.setVersion v = none := by
  unfold ETDeserializer.setVersion
  rw [h]

theorem setVersion_missing (h : d.files v = none) : d.setVersion v = some (d, -1) := by
  unfold ETDeserializer.setVersion
  rw [h]

theorem setVersion_finished {graph : α} (h : d.files v = some (.finished graph)) :
    d.setVersion v = some ({ d with data := some graph }, v) := by
  unfold ETDeserializer.setVersion
  rw [h]

theorem files_setVersion {d' : ETDeserializer α} {found : ℤ}
    (h : d.setVersion v = some (d', found)) : d'.files = d.files := by
  unfold ETDeserializer.setVersion at h
  split at h
  · obtain ⟨rfl, -⟩ := h
    rfl
  · cases h
  · obtain ⟨rfl, -⟩ := h
    rfl

end Files

theorem findFullSave_zero (h : Inv original k s) :
    findFullSave { files := s.fullSave.files } 0 = none := by
  have hstarted := h.full 0 (by omega)
  rw [if_pos rfl] at hstarted
  unfold findFullSave
  rw [setVersion_started hstarted]
  rfl

theorem findFullSave_succ (h : Inv original k s) : ∀ n : ℕ,
    findFullSave { files := s.fullSave.files } (n + 1)
      = some (some 1, { files := s.fullSave.files, data := some original })
  | 0 => by
    have hfile := h.full 1 (by omega)
    rw [if_neg (by omega), if_pos rfl] at hfile
    have hfound := @setVersion_finished S { files := s.fullSave.files } 1 original hfile
    unfold findFullSave
    rw [show ((0 + 1 : ℕ) : ℤ) = 1 from rfl, hfound]
    rfl
  | n + 1 => by
    have hfile := h.full (n + 1 + 1 : ℕ) (by omega)
    rw [if_neg (by omega), if_neg (by omega)] at hfile
    have hmissing := @setVersion_missing S { files := s.fullSave.files } _ hfile
    unfold findFullSave
    rw [hmissing, ← findFullSave_succ h n]
    rw [bind_eq_bind, bind_some]
    exact if_neg (by omega)

theorem files_playBack {d d' : ETDeserializer (Delta S M) × S} {v : ℕ}
    (h : playBack W d v = some d') : d'.1.files = d.1.files := by
  obtain ⟨⟨unDelta, found⟩, hset, hrest⟩ := bind_eq_some_iff.1 h
  have hfiles := files_setVersion hset
  dsimp only at hrest
  split at hrest
  · obtain ⟨rfl⟩ := hrest
    exact hfiles
  · obtain ⟨rfl⟩ := hrest
    exact hfiles
  · cases hrest

theorem playBack_started {files : ℤ → Option (VersionFile (Delta S M))} {v : ℕ}
    (hv : files v = some .started) : ∀ {vs : List ℕ} {d : ETDeserializer (Delta S M) × S},
    d.1.files = files → v ∈ vs → vs.foldlM (playBack W) d = none
  | w :: vs, d, hd, hmem => by
    rw [foldlM_cons]
    cases hplay : playBack W d w with
    | none => rfl
    | some d' =>
      refine playBack_started hv ((files_playBack hplay).trans hd)
        ((mem_cons.1 hmem).resolve_left ?_)
      rintro rfl
      unfold playBack at hplay
      rw [setVersion_started (by rw [hd]; exact hv)] at hplay
      cases hplay

theorem Inv.setVersion_eq (h : Inv original k s) (n : ℕ) : s.setVersion W (n + 1 : ℕ)
    = ((range' 2 n).foldlM (playBack W) ({ files := s.serializer.files }, original)).map
      fun d => ({ s with object := d.2 }, s.version) := by
  unfold setVersion
  rw [if_neg (by omega), Int.toNat_natCast, findFullSave_succ h]
  show ((range' 2 n).foldlM (playBack W) _).bind _ = _
  rw [map_eq_bind]
  rfl

theorem Inv.setVersion_zero (h : Inv original k s) : s.setVersion W 0 = none := by
  unfold setVersion
  rw [if_neg (by omega), Int.toNat_zero, findFullSave_zero h]
  rfl

theorem setVersion_object {v : ℤ} {r : ESProxy S M × ℤ} (h : s.setVersion W v = some r) :
    ∃ new, r.1 = { s with object := new } := by
  unfold setVersion at h
  split_ifs at h
  · obtain rfl := some.inj h
    exact ⟨s.object, rfl⟩
  · obtain ⟨⟨fullVersion, unFull⟩, -, hfound⟩ := bind_eq_some_iff.1 h
    cases fullVersion with
    | none =>
      obtain rfl := some.inj hfound
      exact ⟨s.object, rfl⟩
    | some fullVersion =>
      obtain ⟨new, -, hplay⟩ := bind_eq_some_iff.1 hfound
      obtain ⟨d, -, hr⟩ := bind_eq_some_iff.1 hplay
      obtain rfl := some.inj hr
      exact ⟨d.2, rfl⟩

/-- The first version is the object as it was, and every later one that is reported cannot be
restored. -/
theorem Inv.setVersion_reported (h : Inv original k s) {v : ℤ}
    (hv : v = 0 ∨ ∃ j : ℕ, j < k ∧ v = 2 * j + 1) (new : S) :
    (∃ s', (s.setVersion W v).map (·.1) = some s' ∧ s'.object = new)
      ↔ v = 1 ∧ new = original := by
  rcases hv with rfl | ⟨j, hj, rfl⟩
  · rw [h.setVersion_zero]
    constructor
    · rintro ⟨s', hs', -⟩
      cases hs'
    · rintro ⟨hv, -⟩
      omega
  · rw [show (2 * j + 1 : ℤ) = ((2 * j + 1 : ℕ) : ℤ) by omega, h.setVersion_eq]
    cases j with
    | zero =>
      constructor
      · rintro ⟨s', hs', rfl⟩
        obtain rfl := some.inj hs'
        exact ⟨rfl, rfl⟩
      · rintro ⟨-, rfl⟩
        exact ⟨_, rfl, rfl⟩
    | succ j =>
      have hthird := h.started 1 (by omega)
      rw [playBack_started (v := 3) hthird rfl (mem_range'_1.2 (by omega))]
      constructor
      · rintro ⟨s', hs', -⟩
        cases hs'
      · rintro ⟨hv, -⟩
        omega

end SetVersion

namespace Log

/-- What has been reported is zero or a version that was never finished. -/
structure Inv (original : S) (h : Log S M) : Prop where
  proxy : ∀ s, h.proxy = some s → ∃ k, ESProxy.Inv original k s
    ∧ ∀ v new, (v, new) ∈ h.reports → v = 0 ∨ ∃ j : ℕ, j < k ∧ v = 2 * j + 1

variable {W} {original : S} {h : Log S M}

theorem Inv.faithful_iff (hinv : Inv original h) (c : Call M) :
    h.Faithful W c ↔ h.Proper original c := by
  cases c with
  | forwardInvocation m => exact Iff.rfl
  | version => exact Iff.rfl
  | setVersion v =>
    refine forall_congr' fun new => forall_congr' fun hmem => ?_
    show (∃ s, (h.proxy.bind (·.setVersion W v)).map (·.1) = some s ∧ _) ↔ _
    cases hproxy : h.proxy with
    | none =>
      constructor
      · rintro ⟨s, hs, -⟩
        cases hs
      · rintro ⟨hs, -⟩
        cases hs
    | some s =>
      obtain ⟨k, hk, hreports⟩ := hinv.proxy s hproxy
      rw [bind_some, hk.setVersion_reported (hreports v new hmem)]
      exact (and_iff_right rfl).symm

theorem Inv.step (hinv : Inv original h) (c : Call M) : Inv original (h.step W c) := by
  refine ⟨fun s hs => ?_⟩
  cases c with
  | forwardInvocation m =>
    obtain ⟨t, ht, rfl⟩ := map_eq_some_iff.1 hs
    obtain ⟨k, hk, hreports⟩ := hinv.proxy t ht
    obtain ⟨k', hle, hk'⟩ := hk.forwardInvocation m
    refine ⟨k', hk', fun v new hmem => ?_⟩
    rcases hreports v new hmem with hv | ⟨j, hj, hv⟩
    · exact .inl hv
    · exact .inr ⟨j, hj.trans_le hle, hv⟩
  | version =>
    obtain ⟨k, hk, hreports⟩ := hinv.proxy s hs
    refine ⟨k, hk, fun v new hmem => ?_⟩
    rcases mem_append.1 hmem with hmem | hmem
    · have hs' : h.proxy = some s := hs
      rw [hs', map_some, toList_some, mem_singleton] at hmem
      obtain ⟨rfl, -⟩ := Prod.mk.inj hmem
      rw [hk.version]
      split_ifs with hzero
      · exact .inl rfl
      · exact .inr ⟨k - 1, by omega, by omega⟩
    · exact hreports v new hmem
  | setVersion v =>
    obtain ⟨r, hr, rfl⟩ := map_eq_some_iff.1 hs
    obtain ⟨t, ht, hset⟩ := bind_eq_some_iff.1 hr
    obtain ⟨new, hnew⟩ := setVersion_object hset
    obtain ⟨k, hk, hreports⟩ := hinv.proxy t ht
    rw [hnew]
    exact ⟨k, hk.withObject new, hreports⟩

theorem inv_start : Inv original (start original : Log S M) := by
  refine ⟨fun s hs => ?_⟩
  obtain rfl := some.inj hs
  exact ⟨0, inv_initWithObject, fun v new hmem => (by cases hmem)⟩

/-- A proxy brings the reported versions back in just the runs that set no version but the first,
while it is the object as it was. -/
theorem faithful_iff_proper (W : Messages S M) (original : S) (calls : List (Call M)) :
    Along (step W) (Faithful W) (start original) calls
      ↔ Along (step W) (Proper original) (start original) calls :=
  along_iff (fun _ c hinv => hinv.faithful_iff c) (fun _ c hinv _ => hinv.step c) inv_start

/-- After one message, the version that is reported brings back the object before it. -/
theorem first_message_not_faithful :
    ¬ Along (step ⟨fun m s => s + m, fun _ => false⟩) (Faithful ⟨fun m s => s + m, fun _ => false⟩)
      (start 0 : Log ℕ ℕ) [.forwardInvocation 5, .version, .setVersion 1] := by
  rintro ⟨-, -, h, -⟩
  obtain ⟨s, hs, hobject⟩ := h 5 (mem_singleton.2 rfl)
  obtain rfl := some.inj hs
  exact absurd hobject (by decide)

end Log

end Etoile.Serialize.ESProxy
