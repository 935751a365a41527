import Etoile.CoreObject.ContextStore

/-!
# Restoring a context

The operations of a context are those of the log it keeps: each operation of the context that
records or restores is matched by the one of `ContextLog` on what its objects were stored in.
`Backed` is the relation between a context and its log, and `Step` are the changes between two
restores.
-/

namespace Etoile.CoreObject

open Function List Option

namespace Context

variable {U P μ : Type} [DecidableEq U] {C : ManagedClass (ObjectState U P) μ Unit}
  {isProxy : U → Bool} {x x' : Context U P μ} {L : ContextLog U (ObjectState U P)} {o : U}

section Simulation

theorem sameControl_swap (x : Context U P μ) (o : U) (t : Instance U P) :
    SameControl x ((x.unregisterObjects (· = o)).registerObject o t) := by
  refine .registered fun o' h => ?_
  by_cases ho : o' = o
  · subst ho
    simp
  · simpa [unregisterObjects, ho] using h

/-- A temporal instance replaces the one registered: the context logs the state it was read in,
or under another policy than the default one the state it was merged to. -/
theorem Represents.replaceObject (h : Represents C isProxy x L) {temporalInstance : Instance U P}
    (hx : x.replaceObject C isProxy o temporalInstance = some x') :
    ∃ s, Represents C isProxy x' (logState L o s !x.isRestoringContext) ∧
      (x.mergePolicy = .oldChildren → s = temporalInstance.state) ∧ SameControl x x' := by
  simp only [Context.replaceObject, bind_eq_bind, bind_eq_some_iff,
    some.injEq] at hx
  obtain ⟨x₁, hx₁, anObject, han, x₃, hx₃, i, hi, rfl⟩ := hx
  -- the faults of the replaced group are resolved
  have hr₁ := reloads_resolveFaults hx₁
  have h₁ := hr₁.represents h
  have hv := (h₁.upToDate o anObject han).1
  -- the instances are swapped, and the faults of the new one resolved
  have hr₃ := reloads_resolveFaults hx₃
  set t := temporalInstance.detach x₁.registered (· = o)
  set x₂ := (x₁.unregisterObjects (· = o)).registerObject o t
  have hp₂ : Persists C isProxy x₂ L := h₁.toPersists.registered _
  have hup₂ : ∀ o', o' ≠ o → ∀ j, x₂.registered o' = some j → UpToDate L o' j := by
    intro o' ho j hj
    simp only [x₂, registerObject, update_of_ne ho, unregisterObjects, ho,
      decide_false, Bool.false_eq_true, if_false, map_eq_some_iff] at hj
    obtain ⟨j', hj', rfl⟩ := hj
    exact h₁.upToDate o' j' hj'
  have hp₃ := hr₃.persists hp₂
  have hup₃ : ∀ o', o' ≠ o → ∀ j, x₃.registered o' = some j → UpToDate L o' j :=
    fun o' ho j hj => hr₃.upToDate hp₂ (hup₂ o' ho) hj
  obtain ⟨i₃, hi₃, -, hs₃, -⟩ := hr₃.kept o t (by simp [x₂, registerObject])
  -- the groups refer to the new instance
  set x₄ := x₃.updateRelationships o anObject.objectVersion
  have hp₄ : Persists C isProxy x₄ L := hp₃.registered _
  have hup₄ : ∀ o', o' ≠ o → ∀ j, x₄.registered o' = some j → UpToDate L o' j := by
    intro o' ho j hj
    obtain ⟨j', hj', rfl⟩ := map_eq_some_iff.1 hj
    exact hup₃ o' ho j' hj'
  have his : i.state = temporalInstance.state := by
    obtain ⟨j, hj, rfl⟩ := map_eq_some_iff.1 hi
    obtain rfl : i₃ = j := some.inj (hi₃.symm.trans hj)
    exact hs₃
  have hc : SameControl x x₄ := by
    refine ((hr₁.sameControl.trans (sameControl_swap x₁ o t)).trans hr₃.sameControl).trans ?_
    exact .registered fun o' h => by simpa using h
  refine ⟨_, hc.isRestoringContext ▸ hp₄.commitMerge hup₄ _ hv, fun hpol => ?_, ?_⟩
  · rw [hc.mergePolicy, hpol, ← his]
    rfl
  · exact hc.trans ((sameControl_store x₄ o _ _).trans (.registerObject _ o _))

theorem Represents.objectByRestoringObject (h : Represents C isProxy x L) {i : Instance U P}
    {n : ℤ} (hne : n ≠ i.objectVersion)
    (hx : x.objectByRestoringObject C isProxy o i n = some x') :
    ∃ s, Represents C isProxy x' (logState L o s !x.isRestoringContext) ∧
      (∀ s', L.stateAt o n = some s' → x.mergePolicy = .oldChildren → s = s') ∧
      SameControl x x' := by
  simp only [Context.objectByRestoringObject, bind_eq_bind, bind_eq_some_iff,
    if_neg hne] at hx
  obtain ⟨s, hs, hx⟩ := hx
  have hrestore : ∀ s', L.stateAt o n = some s' → s = s' := fun s' hs' => by
    have hs := ManagedObject.restore_of_objectByRestoringObject hne hs
    exact some.inj (hs.symm.trans (h.restore_eq hs'))
  split_ifs at hx with hp
  · obtain rfl := some.inj hx
    exact ⟨s, h.commitMerge (fun o' _ => h.upToDate o') _ (h.metadata o),
      fun s' hs' _ => hrestore s' hs', (sameControl_store x o _ _).trans (.registerObject _ o _)⟩
  · obtain ⟨s₁, hr, hpol, hc⟩ := h.replaceObject hx
    exact ⟨s₁, hr, fun s' hs' hp => (hpol hp).trans (hrestore s' hs'), hc⟩

theorem Represents.objectForUUIDVersion (h : Represents C isProxy x L) {n : ℤ}
    (hx : x.objectForUUIDVersion C isProxy o n = some x') :
    ∃ s, Represents C isProxy x' (logState L o s !x.isRestoringContext) ∧
      (∀ s', L.stateAt o n = some s' → s = s') ∧ SameControl x x' := by
  unfold Context.objectForUUIDVersion at hx
  split_ifs at hx with hp
  simp only [bind_eq_bind, bind_eq_some_iff, some.injEq, deserialize,
    map_eq_some_iff] at hx
  obtain ⟨i, ⟨s, hs, rfl⟩, rfl⟩ := hx
  exact ⟨s, h.commitMerge (fun o' _ => h.upToDate o') _ (h.metadata o),
    fun s' hs' => some.inj (hs.symm.trans (h.restore_eq hs')),
    (sameControl_store x o _ _).trans (.registerObject _ o _)⟩

variable {restored : Dictionary U ℤ}

/-- The versions found are those of recorded states, which satisfy `Q`. -/
def Restorable (Q : ObjectState U P → Prop) (restored : Dictionary U ℤ)
    (L : ContextLog U (ObjectState U P)) : Prop :=
  ∀ o n, restored.lookup o = some n → ∃ s, L.stateAt o n = some s ∧ Q s

theorem Restorable.logChange {Q : ObjectState U P → Prop} (h : Restorable Q restored L)
    (o : U) (s : ObjectState U P) : Restorable Q restored (L.logChange o s) := by
  intro o' n hn
  obtain ⟨s', hs', hQ⟩ := h o' n hn
  refine ⟨s', ?_, hQ⟩
  by_cases ho : o' = o
  · subst ho
    have happ : (L.logChange o' s).recorded o' = L.recorded o' ++ [s] := by
      simp [ContextLog.logChange]
    exact ContextLog.stateAt_of_append happ hs'
  · have hsame : (L.logChange o s).stateAt o' n = L.stateAt o' n := by
      simp [ContextLog.stateAt, ContextLog.logChange, ho]
    exact hsame.trans hs'

theorem Represents.restoreObjectIfNeeded {Q : ObjectState U P → Prop}
    (h : Represents C isProxy x L) (hpol : x.mergePolicy = .oldChildren)
    (hres : x.isRestoringContext = true) (hL : Restorable Q restored L)
    (hx : x.restoreObjectIfNeeded C isProxy restored o = some x') :
    ∃ L', L.restoreObjectIfNeeded restored o = some L' ∧ Represents C isProxy x' L' ∧
      Restorable Q restored L' ∧ SameControl x x' := by
  simp only [Context.restoreObjectIfNeeded, bind_eq_bind, bind_eq_some_iff] at hx
  obtain ⟨n, hn, hx⟩ := hx
  have hn : restored.lookup o = some n := hn
  obtain ⟨s, hs, -⟩ := hL o n hn
  have happ := hL.logChange o s
  have hdone : n = L.lastObjectVersion o → L.restoreObjectIfNeeded restored o = some L :=
    fun heq => by simp [ContextLog.restoreObjectIfNeeded, hn, heq]
  have htodo : n ≠ L.lastObjectVersion o →
      L.restoreObjectIfNeeded restored o = some (L.logChange o s) :=
    fun hne => by simp [ContextLog.restoreObjectIfNeeded, hn, hne, hs]
  rcases hi : x.registered o with _ | i
  · simp only [hi] at hx
    split_ifs at hx with hup
    · obtain rfl := some.inj hx
      exact ⟨L, hdone (hup.trans (h.metadata o)), h, hL, .refl x⟩
    · obtain ⟨s', hr, hs', hc⟩ := h.objectForUUIDVersion hx
      obtain rfl := hs' s hs
      rw [hres] at hr
      exact ⟨_, htodo (h.metadata o ▸ hup), hr, happ, hc⟩
  · simp only [hi] at hx
    have hv := (h.upToDate o i hi).1
    split_ifs at hx with hup
    · obtain rfl := some.inj hx
      exact ⟨L, hdone (hup.trans hv), h, hL, .refl x⟩
    · obtain ⟨s', hr, hs', hc⟩ := h.objectByRestoringObject hup hx
      obtain rfl := hs' s hs hpol
      rw [hres] at hr
      exact ⟨_, htodo (hv ▸ hup), hr, happ, hc⟩

theorem find_eq (h : Persists C isProxy x L) (w : ℤ) : x.find w = L.find w := by
  unfold Context.find ContextLog.find
  rw [h.history, h.uuid, h.version]

theorem find_of_lt {w : ℤ} (hw : w < L.version) :
    ({ L with version := L.version + 1 } : ContextLog U (ObjectState U P)).find w = L.find w := by
  unfold ContextLog.find findAllObjectVersionsMatchingContextVersion
  rw [if_neg (by simp only; omega), if_neg (by omega)]

theorem find_incremented {w : ℤ} (hw : w < x.version) :
    ({ x with isRestoringContext := true, version := x.version + 1 } : Context U P μ).find w =
      x.find w := by
  unfold Context.find findAllObjectVersionsMatchingContextVersion
  rw [if_neg (by simp only; omega), if_neg (by omega)]

/-- What `-_restoreToVersion:` does once it has found the objects. -/
theorem restoreToVersion_of_find (C : ManagedClass (ObjectState U P) μ Unit) (isProxy : U → Bool)
    {w : ℤ} (hw : w < x.version) (hd : x.find w = some restored)
    (order : List U) :
    x.restoreToVersion C isProxy w order =
      (order.foldlM (Context.restoreObjectIfNeeded C isProxy restored)
        ({ x with isRestoringContext := true, version := x.version + 1 }.unregisterObjects
          (· ∉ restored))).bind fun y =>
        some { y.resolvePendingFaults.logRestoreContextVersion w with
          isRestoringContext := false } := by
  unfold Context.restoreToVersion
  rw [if_neg (by omega)]
  simp only [bind_eq_bind]
  rw [find_incremented hw, hd, bind_some]

/-- What a restore of the context leaves of the rest.  Outside of undo and redo it ends the undo
sequence if it has restored an object, which logs a row besides that of the restore point. -/
structure Restores (x x' : Context U P μ) : Prop where
  isRestoringContext : x'.isRestoringContext = false
  mergePolicy : x'.mergePolicy = x.mergePolicy
  cursor : x'.restoredVersionUndoCursor = x.restoredVersionUndoCursor
  isUndoing : x'.isUndoing = x.isUndoing
  isRedoing : x'.isRedoing = x.isRedoing
  firstUndoVersion : x'.firstUndoVersion =
    if x.isUndoing ∨ x.isRedoing ∨ x'.history.length = x.history.length + 1 then x.firstUndoVersion
    else -1

omit [DecidableEq U] in
theorem Represents.beginRestore (h : Represents C isProxy x L) :
    Represents C isProxy { x with isRestoringContext := true, version := x.version + 1 }
      { L with version := L.version + 1 } :=
  ⟨⟨h.uuid, congrArg (· + 1) h.version, h.history, h.metadata, h.stored⟩, h.upToDate⟩

omit [DecidableEq U] in
theorem Represents.discard (h : Represents C isProxy x L) (p : U → Bool) :
    Represents C isProxy (x.unregisterObjects p) L := by
  refine ⟨h.toPersists.registered _, fun o i hi => ?_⟩
  simp only [unregisterObjects] at hi
  split_ifs at hi
  obtain ⟨j, hj, rfl⟩ := map_eq_some_iff.1 hi
  exact h.upToDate o j hj

theorem Represents.restoreToVersion (h : Represents C isProxy x L)
    (hpol : x.mergePolicy = .oldChildren) {w : ℤ} (hw : w < L.version)
    (hd : L.find w = some restored) (hL : Restorable (fun _ => True) restored L) {order : List U}
    (hx : x.restoreToVersion C isProxy w order = some x') :
    ∃ L', L.restoreToVersion w order = some L' ∧ Represents C isProxy x' L' ∧ Restores x x' := by
  set L₁ : ContextLog U (ObjectState U P) := { L with version := L.version + 1 }
  set x₁ : Context U P μ := { x with isRestoringContext := true, version := x.version + 1 }
  have h₁ : Represents C isProxy x₁ L₁ := h.beginRestore
  have hd₁ : L₁.find w = some restored := (find_of_lt hw).trans hd
  rw [restoreToVersion_of_find C isProxy (h.version ▸ hw) ((find_eq h.toPersists w).trans hd)] at hx
  simp only [bind_eq_some_iff, some.injEq] at hx
  obtain ⟨y, hy, rfl⟩ := hx
  -- the objects created later are discarded
  set x₂ := x₁.unregisterObjects (· ∉ restored)
  have h₂ : Represents C isProxy x₂ L₁ := h₁.discard _
  -- each object found is restored like that of the log
  obtain ⟨L₂, hL₂, hy₂, -, hc⟩ := foldlM_simulates
    (R := fun y M =>
      Represents C isProxy y M ∧ Restorable (fun _ => True) restored M ∧ SameControl x₂ y)
    (g := ContextLog.restoreObjectIfNeeded restored) order _ y L₁
    (fun o _ z z' M hR hz => by
      obtain ⟨hr, hres, hc⟩ := hR
      obtain ⟨M', hM', hr', hres', hc'⟩ := hr.restoreObjectIfNeeded
        (hc.mergePolicy.trans hpol) hc.isRestoringContext hres hz
      exact ⟨M', hM', hr', hres', hc.trans hc'⟩)
    ⟨h₂, hL, .refl x₂⟩ hy
  have h₃ : Represents C isProxy y.resolvePendingFaults L₂ :=
    (reloads_replaceFaults (F := fun _ => False) y _).represents hy₂
  refine ⟨L₂.logRestoreContextVersion w, ?_, ?_, rfl, hc.mergePolicy, hc.cursor, hc.isUndoing,
    hc.isRedoing, ?_⟩
  · unfold ContextLog.restoreToVersion
    rw [if_neg (by omega)]
    simp only [bind_eq_bind]
    rw [hd₁, bind_some, hL₂]
    rfl
  · refine ⟨⟨h₃.uuid, h₃.version, ?_, h₃.metadata, h₃.stored⟩, h₃.upToDate⟩
    show y.history ++ [_] = L₂.history ++ [_]
    rw [show y.history = L₂.history from h₃.history, show y.resolvePendingFaults.uuid = L₂.uuid
      from h₃.uuid, show y.resolvePendingFaults.version = L₂.version from h₃.version]
  · have hlen : (y.resolvePendingFaults.logRestoreContextVersion w).history.length =
        y.history.length + 1 := length_append
    have := hc.firstUndoVersion
    simp only [hlen, Nat.add_right_cancel_iff]
    exact this

end Simulation

section Runs

/-- What happens to a context between restores, with the graphs it goes through.  The periodic
snapshot of an object that has no proxy is left out. -/
inductive Step (C : ManagedClass (ObjectState U P) μ Unit) (isProxy : U → Bool) :
    Context U P μ → Timeline U (ObjectState U P) →
    Context U P μ → Timeline U (ObjectState U P) → Prop
  | insert {x T} (o : U) (s : ObjectState U P) : o ≠ x.uuid → x.metadata o < 0 →
      Step C isProxy x T (x.insertObject isProxy o s) (T.record o s)
  | save {x T o i} : x.registered o = some i →
      Step C isProxy x T (x.save isProxy o) (T.record o i.state)
  | call {x x' T o i i' n inv} : x.registered o = some i →
      x.callMutator C isProxy n inv o = some x' → x'.registered o = some i' →
      i'.objectVersion ≠ i.objectVersion → isProxy o ∨ ¬ n ∣ i'.objectVersion →
      Step C isProxy x T x' (T.record o i'.state)
  | restoreObject {x x' T o i i' n} : x.registered o = some i → n ≠ i.objectVersion →
      x.objectByRestoringObject C isProxy o i n = some x' → x'.registered o = some i' →
      Step C isProxy x T x' (T.record o i'.state)
  | load {x x' T o} : x.objectForUUID C isProxy o = some x' → Step C isProxy x T x' T
  | resolveFaults {x x' T o} : x.resolveFaults C isProxy o = some x' → Step C isProxy x T x' T
  | setMergePolicy {x T} (aPolicy : ChildrenMergePolicy) :
      Step C isProxy x T { x with mergePolicy := aPolicy } T

/-- The context has the log of a history that led to `T`, and has logged every object of the graph
in its state there. -/
structure Backed (C : ManagedClass (ObjectState U P) μ Unit) (isProxy : U → Bool) (ctx : U)
    (x : Context U P μ) (L : ContextLog U (ObjectState U P)) (T : Timeline U (ObjectState U P)) :
    Prop extends Represents C isProxy x L where
  run : ContextLog.Run ctx L T
  current : ∀ o s, T.current o = some s → (L.recorded o).getLast? = some s
  noContextObject : L.recorded ctx = []

structure Rests (C : ManagedClass (ObjectState U P) μ Unit) (isProxy : U → Bool) (ctx : U)
    (x : Context U P μ) (L : ContextLog U (ObjectState U P)) (T : Timeline U (ObjectState U P)) :
    Prop extends Backed C isProxy ctx x L T where
  notRestoring : x.isRestoringContext = false
  notUndoing : x.isUndoing = false
  notRedoing : x.isRedoing = false

theorem foldl_max_eq {m : ℤ} : ∀ (l : List ℤ) (a : ℤ), a ≤ m → (∀ v ∈ l, v ≤ m) →
    m = a ∨ m ∈ l → l.foldl max a = m
  | [], a, _, _, hm => (hm.resolve_right not_mem_nil).symm
  | v :: l, a, ha, hl, hm => by
    have hv := hl v mem_cons_self
    refine foldl_max_eq l (max a v) (max_le ha hv)
      (fun v' hv' => hl v' (mem_cons_of_mem _ hv')) ?_
    rcases hm with rfl | hm
    · exact .inl (max_eq_left hv).symm
    · rcases mem_cons.1 hm with rfl | hm
      · exact .inl (max_eq_right ha).symm
      · exact .inr hm

variable {uuid : U} {T T' : Timeline U (ObjectState U P)}

namespace Backed

theorem uuid_eq (h : Backed C isProxy uuid x L T) : x.uuid = uuid := by
  obtain ⟨V, hV⟩ := h.run.tracks
  rw [h.uuid, hV.uuid_eq]

theorem ne_uuid (h : Backed C isProxy uuid x L T) {i : Instance U P}
    (hi : x.registered o = some i) : o ≠ uuid := by
  rintro rfl
  have := (h.upToDate o i hi).2
  simp [h.noContextObject] at this

theorem version_eq (h : Backed C isProxy uuid x L T) : x.version = T.version :=
  h.version.trans h.run.version_eq

end Backed

namespace Rests

theorem new (uuid : U) : Rests C isProxy uuid (.new uuid) (.init uuid) .empty where
  uuid := rfl
  version := rfl
  history := rfl
  metadata := fun _ => rfl
  stored := fun _ => .empty
  upToDate := fun _ _ h => by simp [Context.new] at h
  run := .init
  current := fun _ _ h => by simp [Timeline.current] at h
  noContextObject := rfl
  notRestoring := rfl
  notUndoing := rfl
  notRedoing := rfl

theorem record (h : Rests C isProxy uuid x L T) {s : ObjectState U P} (ho : o ≠ uuid)
    (hr : Represents C isProxy x' (logState L o s true)) (hc : SameControl x x') :
    Rests C isProxy uuid x' (logState L o s true) (T.record o s) ∧
      x'.version = x.version + 1 ∧ x'.firstUndoVersion = -1 := by
  refine ⟨⟨⟨hr, h.run.change o s ho, fun o' s' hs' => ?_, ?_⟩, ?_, ?_, ?_⟩, ?_, ?_⟩
  · rw [Timeline.current_record] at hs'
    rw [recorded_logState]
    by_cases ho' : o' = o
    · subst ho'
      simpa using hs'
    · rw [update_of_ne ho'] at hs' ⊢
      exact h.current o' s' hs'
  · rw [recorded_logState, update_of_ne ho.symm]
    exact h.noContextObject
  · exact hc.isRestoringContext.trans h.notRestoring
  · exact hc.isUndoing.trans h.notUndoing
  · exact hc.isRedoing.trans h.notRedoing
  · rw [hr.version, h.version]
    rfl
  · have hlen : x'.history.length ≠ x.history.length := by
      rw [hr.history, h.history]
      simp [logState, ContextLog.recordChange, ContextLog.logChange]
    rw [hc.firstUndoVersion, h.notUndoing, h.notRedoing]
    simp [hlen]

theorem reload (h : Rests C isProxy uuid x L T) {F : U → Prop} (hr : Reloads C F x x') :
    Rests C isProxy uuid x' L T where
  toRepresents := hr.represents h.toRepresents
  run := h.run
  current := h.current
  noContextObject := h.noContextObject
  notRestoring := hr.sameControl.isRestoringContext.trans h.notRestoring
  notUndoing := hr.sameControl.isUndoing.trans h.notUndoing
  notRedoing := hr.sameControl.isRedoing.trans h.notRedoing

/-- The version a new session starts from is the one the last session ended with. -/
theorem latestVersion_eq (h : Rests C isProxy uuid x L T) : x.latestVersion = x.version := by
  obtain ⟨V, hV⟩ := h.run.tracks
  unfold latestVersion
  rw [h.uuid_eq, h.history, h.version, hV.version]
  refine foldl_max_eq _ 0 (Int.natCast_nonneg _) (fun v hv => ?_) ?_
  · obtain ⟨r, hr, rfl⟩ := mem_map.1 hv
    obtain ⟨hr, hc⟩ := mem_filter.1 hr
    exact (hV.logged.contextVersion_le r hr (of_decide_eq_true hc)).2
  · rcases hV.logged.exists_contextVersion with h0 | ⟨r, hr, hc, hv⟩
    · exact .inl (congrArg _ h0)
    · exact .inr (mem_map.2 ⟨r, mem_filter.2 ⟨hr, decide_eq_true hc⟩, hv⟩)

theorem newSession (h : Rests C isProxy uuid x L T) : Rests C isProxy uuid x.newSession L T where
  uuid := h.uuid
  version := h.latestVersion_eq.trans h.version
  history := h.history
  metadata := h.metadata
  stored := h.stored
  upToDate := fun _ _ hi => by simp [Context.newSession] at hi
  run := h.run
  current := h.current
  noContextObject := h.noContextObject
  notRestoring := rfl
  notUndoing := rfl
  notRedoing := rfl

theorem insert (h : Rests C isProxy uuid x L T) {s : ObjectState U P} (ho : o ≠ x.uuid)
    (hm : x.metadata o < 0) :
    Rests C isProxy uuid (x.insertObject isProxy o s) (logState L o s true) (T.record o s) ∧
      (x.insertObject isProxy o s).version = x.version + 1 ∧
      (x.insertObject isProxy o s).firstUndoVersion = -1 := by
  have hlast : L.lastObjectVersion o = -1 := by
    rw [h.metadata] at hm
    unfold ContextLog.lastObjectVersion at hm ⊢
    omega
  set i : Instance U P := ⟨-1, s, fun m =>
    if m = o ∨ (x.registered m).isSome then .registered else .fault⟩
  have hp : Persists C isProxy (x.registerObject o i) L := h.registered _
  have hr := hp.snapshotObject (o := o) (i := i) (fun o' ho' j hj => h.upToDate o' j (by
    simpa [registerObject, ho'] using hj)) hlast.symm
  exact h.record (h.uuid_eq ▸ ho) hr
    ((SameControl.registerObject x o i).trans (sameControl_snapshotObject isProxy _ o i))

theorem save (h : Rests C isProxy uuid x L T) {i : Instance U P} (hi : x.registered o = some i) :
    Rests C isProxy uuid (x.save isProxy o) (logState L o i.state true) (T.record o i.state) ∧
      (x.save isProxy o).version = x.version + 1 ∧ (x.save isProxy o).firstUndoVersion = -1 := by
  have hr := h.toPersists.snapshotObject (fun o' _ => h.upToDate o') (h.upToDate o i hi).1
  unfold Context.save
  rw [hi]
  exact h.record (h.ne_uuid hi) hr (sameControl_snapshotObject isProxy x o i)

theorem call (h : Rests C isProxy uuid x L T) {i i' : Instance U P} {n : ℤ} {inv : μ}
    (hi : x.registered o = some i) (hx : x.callMutator C isProxy n inv o = some x')
    (hi' : x'.registered o = some i') (hne : i'.objectVersion ≠ i.objectVersion)
    (hn : isProxy o ∨ ¬ n ∣ i'.objectVersion) :
    Rests C isProxy uuid x' (logState L o i'.state true) (T.record o i'.state) ∧
      x'.version = x.version + 1 ∧ x'.firstUndoVersion = -1 := by
  simp only [Context.callMutator, hi, bind_eq_bind, bind_some,
    bind_eq_some_iff] at hx
  obtain ⟨a, ha, hx⟩ := hx
  obtain ⟨hv, hlast⟩ := h.upToDate o i hi
  split_ifs at hx with hrefused
  · obtain rfl := some.inj hx
    exact absurd (congrArg _ (some.inj (hi'.symm.trans hi))) hne
  · obtain rfl := some.inj hx
    obtain rfl : _ = i' := by simpa [logRecord, registerObject] using hi'
    have ha' : (⟨isProxy o, (L.recorded o).length - 1, i.state, x.bundles o⟩ :
        ManagedObject (ObjectState U P) μ).callMutator C n () inv = some a := by
      rw [show ((L.recorded o).length : ℤ) - 1 = i.objectVersion from hv.symm]
      exact ha
    have hv' : a.objectVersion ≠ (L.recorded o).length - 1 :=
      fun heq => hrefused (heq.trans hv.symm)
    obtain ⟨hav, hs⟩ := (h.stored o).callMutator hlast hn ha' hv'
    have hup : ∀ o', o' ≠ o → ∀ j, x.registered o' = some j → UpToDate L o' j :=
      fun o' _ => h.upToDate o'
    have hlast' : a.objectVersion = L.lastObjectVersion o + 1 := by
      rw [hav, ContextLog.lastObjectVersion]
      omega
    refine h.record (h.ne_uuid hi) ?_ ((sameControl_store x o a true).trans (.registerObject _ o _))
    exact h.represents_store hup hlast' hs true (i := ⟨a.objectVersion, a.state, _⟩) rfl rfl

theorem restoreObject (h : Rests C isProxy uuid x L T) {i i' : Instance U P} {n : ℤ}
    (hi : x.registered o = some i) (hne : n ≠ i.objectVersion)
    (hx : x.objectByRestoringObject C isProxy o i n = some x') (hi' : x'.registered o = some i') :
    Rests C isProxy uuid x' (logState L o i'.state true) (T.record o i'.state) ∧
      x'.version = x.version + 1 ∧ x'.firstUndoVersion = -1 := by
  obtain ⟨s, hr, -, hc⟩ := h.objectByRestoringObject hne hx
  have hs := (hr.upToDate o i' hi').2
  simp only [recorded_logState, update_self, getLast?_concat,
    some.injEq] at hs
  subst hs
  rw [h.notRestoring] at hr
  exact h.record (h.ne_uuid hi) hr hc

/-- Between restores a new version ends the undo sequence, and nothing else does. -/
theorem step (h : Rests C isProxy uuid x L T) (hs : Step C isProxy x T x' T') :
    (∃ L', Rests C isProxy uuid x' L' T') ∧
      (x'.version = x.version + 1 ∧ x'.firstUndoVersion = -1 ∨
        T' = T ∧ x'.version = x.version ∧ x'.firstUndoVersion = x.firstUndoVersion ∧
          x'.restoredVersionUndoCursor = x.restoredVersionUndoCursor) := by
  have hreload : ∀ {F : U → Prop} {y : Context U P μ}, Reloads C F x y →
      y.version = x.version ∧ y.firstUndoVersion = x.firstUndoVersion ∧
        y.restoredVersionUndoCursor = x.restoredVersionUndoCursor := fun hr => by
    rw [hr.eq]
    exact ⟨rfl, rfl, rfl⟩
  cases hs with
  | insert o s ho hm => exact ⟨⟨_, (h.insert ho hm).1⟩, .inl (h.insert ho hm).2⟩
  | save hi => exact ⟨⟨_, (h.save hi).1⟩, .inl (h.save hi).2⟩
  | call hi hx hi' hne hn =>
    have := h.call hi hx hi' hne hn
    exact ⟨⟨_, this.1⟩, .inl this.2⟩
  | restoreObject hi hne hx hi' =>
    have := h.restoreObject hi hne hx hi'
    exact ⟨⟨_, this.1⟩, .inl this.2⟩
  | load hx =>
    have hr := reloads_objectForUUID hx
    exact ⟨⟨_, h.reload hr⟩, .inr ⟨rfl, hreload hr⟩⟩
  | resolveFaults hx =>
    have hr := reloads_resolveFaults hx
    exact ⟨⟨_, h.reload hr⟩, .inr ⟨rfl, hreload hr⟩⟩
  | setMergePolicy p => exact ⟨⟨_, { h with }⟩, .inr ⟨rfl, rfl, rfl, rfl⟩⟩

end Rests

theorem Backed.restore (h : Backed C isProxy uuid x L T) (hpol : x.mergePolicy = .oldChildren)
    {w : ℕ} (hw : w < x.version) {restored : Dictionary U ℤ} {order : List U}
    (hd : x.find w = some restored) (ho : order.Perm restored.keys)
    (hx : x.restoreToVersion C isProxy w order = some x') :
    ∃ L', Backed C isProxy uuid x' L' (T.restore w) ∧ Restores x x' ∧
      (x'.history.length = x.history.length + 1 →
        ∀ o n, restored.lookup o = some n → n = x.metadata o) := by
  rw [h.version] at hw
  rw [find_eq h.toPersists] at hd
  obtain ⟨L', hL', hr, hx'⟩ := h.restoreToVersion hpol hw hd
    (fun o n hn => by
      obtain ⟨s, hs, -⟩ := (h.run.found hw.le hd).2 o n hn
      exact ⟨s, hs, trivial⟩) hx
  obtain ⟨hlast, hnil, hrows⟩ := h.run.restore_last hw hd ho hL'
  refine ⟨L', ⟨hr, h.run.restore hw hd ho hL', fun o s hs => hlast o s ?_,
    hnil _ h.noContextObject⟩, hx', fun hlen o n hn => ?_⟩
  · rwa [Timeline.current_restore] at hs
  · rw [hr.history, h.history] at hlen
    rw [h.metadata]
    exact hrows hlen o n hn

end Runs

end Context

end Etoile.CoreObject
