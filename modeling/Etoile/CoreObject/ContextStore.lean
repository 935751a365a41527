import Etoile.CoreObject.Context
import Etoile.CoreObject.ContextLog
import Etoile.CoreObject.Playback
import Etoile.Lib.Fold

/-!
# What a context has stored

`Represents` ties a context to its log: the bundle of an object plays back every state the log has
for it, and a registered instance is in the last of them.  Each operation on the context is one of
the log, and loading objects is none (`Reloads`).
-/

namespace Etoile.CoreObject

open List

/-- The bundle of an object that went through the states `recorded`, none of them recorded without
a proxy in a periodic snapshot.  The object is in the last one, or in any when it has none yet. -/
def ObjectStored {σ μ : Type} (C : ManagedClass σ μ Unit) (isProxy : Bool)
    (b : ObjectBundle σ μ) (recorded : List σ) : Prop :=
  ∀ s, recorded.getLast?.getD s = s → ∃ vs : List (ObjectVersion σ μ Unit),
    History C isProxy ⟨isProxy, vs.length - 1, s, b⟩ vs ∧ recorded = vs.map (·.state) ∧
    (isProxy ∨ ∀ (i : ℕ) inv now n s, vs[i]? = some ⟨.recorded inv now n, s⟩ → ¬ n ∣ (i : ℤ))

namespace ObjectStored

variable {σ μ : Type} {C : ManagedClass σ μ Unit} {isProxy : Bool} {b : ObjectBundle σ μ}
  {recorded : List σ} {s : σ}

theorem empty : ObjectStored C isProxy (⟨∅, ∅⟩ : ObjectBundle σ μ) [] :=
  fun s _ => ⟨[], .new s, rfl, by simp⟩

theorem restore (h : ObjectStored C isProxy b recorded) {n : ℕ} (hn : recorded[n]? = some s) :
    b.restore C (fun _ => ()) n = some s := by
  obtain ⟨vs, hist, rfl, hperiodic⟩ := h (recorded.getLast?.getD s)
    (by cases recorded.getLast? <;> rfl)
  have hst := hist.stored
  obtain ⟨u, hu, rfl⟩ : ∃ u, vs[n]? = some u ∧ u.state = s := by simpa using hn
  cases isProxy with
  | true => exact restore_proxy hst hu
  | false =>
    obtain ⟨hlt, -⟩ := List.getElem?_eq_some_iff.1 hu
    obtain ⟨t, ht⟩ := exists_lastSnapshot hst.first n hlt
    refine (restore_iff hst ht hu).2 fun m now k p a ha _ => ?_
    obtain ⟨v, hv, htaken⟩ := ht.taken
    obtain rfl : v = ⟨.recorded m now k, p⟩ := Option.some.inj (hv.symm.trans ha)
    exact absurd htaken (hperiodic.resolve_left (by simp) t m now k p ha)

theorem le_foldl_max {v : ℤ} : ∀ (l : List ℤ) (a : ℤ), v ≤ a ∨ v ∈ l → v ≤ l.foldl max a
  | [], a, h => by simpa using h
  | w :: l, a, h => by
    refine le_foldl_max l (max a w) ?_
    rcases h with h | h
    · exact .inl (le_max_of_le_left h)
    · rcases mem_cons.1 h with rfl | h
      · exact .inl (le_max_right a v)
      · exact .inr h

theorem le_lastVersion (h : ObjectStored C isProxy b recorded) {n : ℕ}
    (hn : recorded[n]? = some s) :
    (n : ℤ) ≤ max (b.deltas.keys.foldl max (-1)) (b.fullSaves.keys.foldl max (-1)) := by
  obtain ⟨vs, hist, rfl, -⟩ := h (recorded.getLast?.getD s) (by cases recorded.getLast? <;> rfl)
  have hst := hist.stored
  obtain ⟨⟨c, t⟩, hu, -⟩ : ∃ u, vs[n]? = some u ∧ u.state = s := by simpa using hn
  cases c with
  | saved =>
    have hs := hst.save n
    simp only [savedState, hu] at hs
    have hmem := Dictionary.isSome_objectForKey.1 (Option.isSome_of_eq_some hs)
    exact le_max_of_le_right (le_foldl_max _ _ (.inr (AList.mem_keys.2 hmem)))
  | recorded inv now k =>
    have hmem := Dictionary.isSome_objectForKey.1
      (Option.isSome_of_eq_some (hst.delta n inv now k t hu))
    exact le_max_of_le_left (le_foldl_max _ _ (.inr (AList.mem_keys.2 hmem)))

theorem save (h : ObjectStored C isProxy b recorded) (s : σ) :
    ObjectStored C isProxy { b with fullSaves := b.fullSaves.insert recorded.length s }
      (recorded ++ [s]) := by
  intro s' hs'
  obtain rfl : s = s' := by simpa using hs'
  obtain ⟨vs, hist, rfl, hperiodic⟩ := h (recorded.getLast?.getD s)
    (by cases recorded.getLast? <;> rfl)
  have hsaved := hist.saved s
  refine ⟨vs ++ [⟨.saved, s⟩], ?_, by simp, hperiodic.imp_right fun hp => ?_⟩
  · simpa [ManagedObject.snapshotObject] using hsaved
  · intro i inv now n p hi
    rcases Nat.lt_or_ge i vs.length with hlt | hge
    · rw [getElem?_append_left hlt] at hi
      exact hp i inv now n p hi
    · rw [getElem?_append_right hge] at hi
      rcases hk : i - vs.length with _ | k <;> simp [hk] at hi

theorem callMutator (h : ObjectStored C isProxy b recorded) (hs : recorded.getLast? = some s)
    {n : ℤ} {inv : μ} {a : ManagedObject σ μ} (hn : isProxy ∨ ¬ n ∣ a.objectVersion)
    (ha : (⟨isProxy, recorded.length - 1, s, b⟩ : ManagedObject σ μ).callMutator C n () inv
      = some a) (hv : a.objectVersion ≠ recorded.length - 1) :
    a.objectVersion = recorded.length
      ∧ ObjectStored C isProxy a.bundle (recorded ++ [a.state]) := by
  obtain ⟨vs, hist, rfl, hperiodic⟩ := h s (by simp [hs])
  obtain ⟨u, hu, rfl⟩ : ∃ u, vs.getLast? = some u ∧ u.state = s := by simpa using hs
  have hne : vs ≠ [] := by
    rintro rfl
    simp at hu
  have hlen : 0 < vs.length := length_pos_iff.2 hne
  simp only [length_map] at ha hv ⊢
  have hacc : isProxy ∨ C.accepts inv u.state := by
    by_contra hno
    push Not at hno
    simp only [Bool.not_eq_true] at hno
    simp only [ManagedObject.callMutator, hno.1, hno.2, Bool.false_eq_true, if_false,
      Option.some.injEq] at ha
    exact hv (by rw [← ha])
  have hrec := hist.recorded inv () n hacc ha
  rw [if_neg hne] at hrec
  have hver := hrec.stored.version
  simp only [length_append, length_singleton] at hver
  have hav : a.objectVersion = vs.length := by omega
  rw [hav] at hn
  refine ⟨hav, fun s' hs' => ?_⟩
  obtain rfl : a.state = s' := by simpa using hs'
  refine ⟨vs ++ [⟨.recorded inv () n, a.state⟩], ?_, by simp, ?_⟩
  · have hp : a.isCoreObjectProxy = isProxy := hrec.stored.proxy
    cases a
    simp only at hp hav
    subst hp hav
    simpa using hrec
  · rcases hn with hn | hn
    · exact .inl hn
    · refine hperiodic.imp_right fun hp i inv' now' n' p hi => ?_
      rcases Nat.lt_trichotomy i vs.length with hlt | rfl | hgt
      · rw [getElem?_append_left hlt] at hi
        exact hp i inv' now' n' p hi
      · simp only [getElem?_concat_length, Option.some.injEq] at hi
        cases hi
        exact hn
      · rw [getElem?_eq_none (by simp; omega)] at hi
        cases hi

end ObjectStored

theorem ManagedObject.restore_of_objectByRestoringObject {σ μ δ : Type} {C : ManagedClass σ μ δ}
    {clock : ℤ → δ} {a : ManagedObject σ μ} {v : ℤ} {s : σ} (hne : v ≠ a.objectVersion)
    (h : a.objectByRestoringObject C clock v = some s) : a.bundle.restore C clock v = some s := by
  unfold objectByRestoringObject at h
  simp only [Option.ite_none_left_eq_some, if_neg hne] at h
  exact h.2

namespace Context

variable {U P μ : Type} {C : ManagedClass (ObjectState U P) μ Unit} {isProxy : U → Bool}
  {x x' : Context U P μ} {L : ContextLog U (ObjectState U P)} {o : U}

structure Persists (C : ManagedClass (ObjectState U P) μ Unit) (isProxy : U → Bool)
    (x : Context U P μ) (L : ContextLog U (ObjectState U P)) : Prop where
  uuid : x.uuid = L.uuid
  version : x.version = L.version
  history : x.history = L.history
  metadata : ∀ o, x.metadata o = L.lastObjectVersion o
  stored : ∀ o, ObjectStored C (isProxy o) (x.bundles o) (L.recorded o)

def UpToDate (L : ContextLog U (ObjectState U P)) (o : U) (i : Instance U P) : Prop :=
  i.objectVersion = L.lastObjectVersion o ∧ (L.recorded o).getLast? = some i.state

structure Represents (C : ManagedClass (ObjectState U P) μ Unit) (isProxy : U → Bool)
    (x : Context U P μ) (L : ContextLog U (ObjectState U P)) : Prop extends
    Persists C isProxy x L where
  upToDate : ∀ o i, x.registered o = some i → UpToDate L o i

theorem Persists.registered (h : Persists C isProxy x L) (r : U → Option (Instance U P)) :
    Persists C isProxy { x with registered := r } L := ⟨h.1, h.2, h.3, h.4, h.5⟩

theorem Persists.restore_eq (h : Persists C isProxy x L) {n : ℤ} {s : ObjectState U P}
    (hs : L.stateAt o n = some s) : (x.bundles o).restore C (fun _ => ()) n = some s := by
  obtain ⟨h0, hs⟩ := ContextLog.stateAt_eq_some.1 hs
  have := (h.stored o).restore hs
  rwa [Int.toNat_of_nonneg h0] at this

theorem Persists.objectByRestoringObject_eq (h : Persists C isProxy x L) {i : Instance U P} {n : ℤ}
    {s : ObjectState U P} (hs : L.stateAt o n = some s) (hne : n ≠ i.objectVersion) :
    (x.managedObject isProxy o i).objectByRestoringObject C (fun _ => ()) n = some s := by
  obtain ⟨h0, hs'⟩ := ContextLog.stateAt_eq_some.1 hs
  have hle := (h.stored o).le_lastVersion hs'
  rw [Int.toNat_of_nonneg h0] at hle
  exact (if_neg (not_lt.2 hle)).trans ((if_neg hne).trans (h.restore_eq hs))

theorem Persists.restore_last (h : Persists C isProxy x L) (h0 : 0 ≤ x.metadata o) :
    ∃ s, (L.recorded o).getLast? = some s ∧
      (x.bundles o).restore C (fun _ => ()) (x.metadata o) = some s := by
  rw [h.metadata] at h0 ⊢
  unfold ContextLog.lastObjectVersion at h0 ⊢
  obtain ⟨s, hs⟩ : ∃ s, (L.recorded o).getLast? = some s := by
    refine Option.isSome_iff_exists.1 (getLast?_isSome.2 fun hnil => ?_)
    simp [hnil] at h0
  refine ⟨s, hs, h.restore_eq (ContextLog.stateAt_eq_some.2 ⟨h0, ?_⟩)⟩
  rw [getLast?_eq_getElem?] at hs
  rwa [show (((L.recorded o).length : ℤ) - 1).toNat = (L.recorded o).length - 1 by omega]

section Control

/-- What an operation on objects leaves of the rest of the context.  Outside of undo and redo a row
that is logged ends the undo sequence. -/
structure SameControl (x x' : Context U P μ) : Prop where
  loaded : ∀ o, (x.registered o).isSome → (x'.registered o).isSome
  mergePolicy : x'.mergePolicy = x.mergePolicy
  isRestoringContext : x'.isRestoringContext = x.isRestoringContext
  cursor : x'.restoredVersionUndoCursor = x.restoredVersionUndoCursor
  isUndoing : x'.isUndoing = x.isUndoing
  isRedoing : x'.isRedoing = x.isRedoing
  rows : x.history.length ≤ x'.history.length
  firstUndoVersion : x'.firstUndoVersion =
    if x.isUndoing ∨ x.isRedoing ∨ x'.history.length = x.history.length then x.firstUndoVersion
    else -1

namespace SameControl

theorem registered {x : Context U P μ} {r : U → Option (Instance U P)}
    (hr : ∀ o, (x.registered o).isSome → (r o).isSome) :
    SameControl x { x with registered := r } :=
  ⟨hr, rfl, rfl, rfl, rfl, rfl, le_rfl, by simp⟩

theorem refl (x : Context U P μ) : SameControl x x := .registered fun _ h => h

theorem registerObject [DecidableEq U] (x : Context U P μ) (o : U) (i : Instance U P) :
    SameControl x (x.registerObject o i) := by
  refine .registered fun o' h => ?_
  by_cases ho : o' = o
  · subst ho
    simp
  · simpa [ho] using h

theorem trans {x'' : Context U P μ} (h : SameControl x x') (h' : SameControl x' x'') :
    SameControl x x'' where
  loaded := fun o ho => h'.loaded o (h.loaded o ho)
  mergePolicy := h'.mergePolicy.trans h.mergePolicy
  isRestoringContext := h'.isRestoringContext.trans h.isRestoringContext
  cursor := h'.cursor.trans h.cursor
  isUndoing := h'.isUndoing.trans h.isUndoing
  isRedoing := h'.isRedoing.trans h.isRedoing
  rows := h.rows.trans h'.rows
  firstUndoVersion := by
    have hle := h.rows
    have hle' := h'.rows
    rw [h'.firstUndoVersion, h.firstUndoVersion, h.isUndoing, h.isRedoing]
    simp only [← or_assoc]
    by_cases hu : x.isUndoing ∨ x.isRedoing
    · simp only [hu, true_or, if_true]
    · simp only [hu, false_or]
      split_ifs <;> omega

end SameControl

end Control

section Loading

/-- Only instances change between `x` and `x'`: the objects of `F` may have been loaded, each in
its last version, and faults may have been resolved. -/
structure Reloads (C : ManagedClass (ObjectState U P) μ Unit) (F : U → Prop)
    (x x' : Context U P μ) : Prop where
  eq : x' = { x with registered := x'.registered }
  kept : ∀ o i, x.registered o = some i → ∃ i', x'.registered o = some i' ∧
    i'.objectVersion = i.objectVersion ∧ i'.state = i.state ∧
    ∀ m, i'.references m = i.references m ∨
      i.references m = .fault ∧ i'.references m = .registered
  loaded : ∀ o i', x.registered o = none → x'.registered o = some i' →
    F o ∧ 0 ≤ x.metadata o ∧ i'.objectVersion = x.metadata o ∧
    (x.bundles o).restore C (fun _ => ()) (x.metadata o) = some i'.state ∧
    ∀ m v, i'.references m ≠ .unregistered v

variable {F : U → Prop}

namespace Reloads

theorem refl (x : Context U P μ) : Reloads C F x x where
  eq := rfl
  kept := fun _ i hi => ⟨i, hi, rfl, rfl, fun _ => .inl rfl⟩
  loaded := fun o i' h h' => by simp [h] at h'

theorem mono {F' : U → Prop} (h : Reloads C F x x') (hF : ∀ o, F o → F' o) : Reloads C F' x x' :=
  ⟨h.eq, h.kept, fun o i' hn hs => (h.loaded o i' hn hs).imp_left (hF o)⟩

theorem trans {x'' : Context U P μ} (h : Reloads C F x x') (h' : Reloads C F x' x'') :
    Reloads C F x x'' where
  eq := by
    rw [h'.eq, h.eq]
  kept := fun o i hi => by
    obtain ⟨i', hi', hv, hs, hr⟩ := h.kept o i hi
    obtain ⟨i'', hi'', hv', hs', hr'⟩ := h'.kept o i' hi'
    refine ⟨i'', hi'', hv'.trans hv, hs'.trans hs, fun m => ?_⟩
    rcases hr m with heq | ⟨hf, hreg⟩
    · rw [← heq]
      exact hr' m
    · rcases hr' m with heq | ⟨hf', -⟩
      · exact .inr ⟨hf, heq.trans hreg⟩
      · simp [hreg] at hf'
  loaded := fun o i'' hn hi'' => by
    rcases hi' : x'.registered o with _ | i'
    · have := h'.loaded o i'' hi' hi''
      rw [h.eq] at this
      exact this
    · obtain ⟨hF, h0, hv, hs, hr⟩ := h.loaded o i' hn hi'
      obtain ⟨j, hj, hv', hs', hr'⟩ := h'.kept o i' hi'
      obtain rfl : i'' = j := Option.some.inj (hi''.symm.trans hj)
      refine ⟨hF, h0, hv'.trans hv, hs'.symm ▸ hs, fun m v heq => ?_⟩
      rcases hr' m with hm | ⟨-, hm⟩
      · exact hr m v (hm.symm.trans heq)
      · simp [hm] at heq

theorem persists (h : Reloads C F x x') (hL : Persists C isProxy x L) :
    Persists C isProxy x' L := by
  rw [h.eq]
  exact hL.registered _

theorem upToDate (h : Reloads C F x x') (hL : Persists C isProxy x L) {i' : Instance U P}
    (hup : ∀ i, x.registered o = some i → UpToDate L o i) (hi' : x'.registered o = some i') :
    UpToDate L o i' := by
  rcases hi : x.registered o with _ | i
  · obtain ⟨-, h0, hv, hs, -⟩ := h.loaded o i' hi hi'
    obtain ⟨s, hlast, hs'⟩ := hL.restore_last h0
    obtain rfl : i'.state = s := Option.some.inj (hs.symm.trans hs')
    exact ⟨hv.trans (hL.metadata o), hlast⟩
  · obtain ⟨j, hj, hv, hs, -⟩ := h.kept o i hi
    obtain rfl : i' = j := Option.some.inj (hi'.symm.trans hj)
    exact ⟨hv.trans (hup i hi).1, hs ▸ (hup i hi).2⟩

theorem sameControl (h : Reloads C F x x') : SameControl x x' := by
  rw [h.eq]
  refine .registered fun o ho => ?_
  obtain ⟨i, hi⟩ := Option.isSome_iff_exists.1 ho
  obtain ⟨i', hi', -⟩ := h.kept o i hi
  exact Option.isSome_of_eq_some hi'

theorem represents (h : Reloads C F x x') (hL : Represents C isProxy x L) :
    Represents C isProxy x' L :=
  ⟨h.persists hL.toPersists, fun o _ => h.upToDate hL.toPersists (hL.upToDate o)⟩

end Reloads

theorem reloads_replaceFaults (x : Context U P μ) (p : U → Bool) :
    Reloads C F x (x.replaceFaults p) where
  eq := rfl
  kept := fun o i hi => by
    by_cases hp : p o
    · refine ⟨i.resolve x.registered, by simp [replaceFaults, hp, hi], rfl, rfl, fun m => ?_⟩
      simp only [Instance.resolve]
      split_ifs with hm
      · exact .inr ⟨hm.1, rfl⟩
      · exact .inl rfl
    · exact ⟨i, by simp [replaceFaults, hp, hi], rfl, rfl, fun _ => .inl rfl⟩
  loaded := fun o i' hn hi' => by simp [replaceFaults, hn] at hi'

variable [DecidableEq U]

theorem reloads_objectForUUID (h : x.objectForUUID C isProxy o = some x') :
    Reloads C (· = o) x x' := by
  unfold objectForUUID at h
  split_ifs at h with hc hp
  · obtain rfl : x = x' := Option.some.inj h
    exact .refl x
  · push Not at hc
    rcases hd : x.deserialize C o (x.metadata o) with _ | i
    · obtain rfl : x = x' := by simpa [hd] using h
      exact .refl x
    · obtain rfl : x.registerObject o i = x' := by simpa [hd] using h
      obtain ⟨s, hs, rfl⟩ := Option.map_eq_some_iff.1 hd
      have hnone : x.registered o = none := by simpa using hc.1
      refine ⟨rfl, fun o' i' hi' => ?_, fun o' i' hn hi' => ?_⟩
      · have hne : o' ≠ o := by
          rintro rfl
          simp [hnone] at hi'
        exact ⟨i', by simp [registerObject, hne, hi'], rfl, rfl, fun _ => .inl rfl⟩
      · by_cases hne : o' = o
        · subst hne
          simp only [registerObject, Function.update_self, Option.some.injEq] at hi'
          subst hi'
          refine ⟨rfl, hc.2, rfl, hs, fun m v => ?_⟩
          simp only
          split_ifs <;> simp
        · simp [registerObject, hne, hn] at hi'

theorem reloads_objectsForUUIDs (l : List U) (h : l.foldlM (objectForUUID C isProxy) x = some x') :
    Reloads C (· ∈ l) x x' := by
  refine foldlM_preserves (I := fun rest y => (∀ m ∈ rest, m ∈ l) ∧ Reloads C (· ∈ l) x y)
    (fun m rest y y' hI hy => ?_) l x x' ⟨fun _ hm => hm, .refl x⟩ h |>.2
  refine ⟨fun m hm => hI.1 m (mem_cons_of_mem _ hm), hI.2.trans ?_⟩
  exact (reloads_objectForUUID hy).mono fun _ heq => heq ▸ hI.1 m mem_cons_self

def faultsOf (x : Context U P μ) (o m : U) : Prop :=
  ∃ i, x.registered o = some i ∧ m ∈ i.state.members ∧ i.references m = .fault

theorem reloads_resolveFaults (h : x.resolveFaults C isProxy o = some x') :
    Reloads C (x.faultsOf o) x x' := by
  unfold resolveFaults at h
  rcases hi : x.registered o with _ | i
  · obtain rfl : x = x' := by simpa [hi] using h
    exact .refl x
  · simp only [hi, Option.bind_eq_bind, Option.bind_eq_some_iff, Option.some.injEq] at h
    obtain ⟨y, hy, rfl⟩ := h
    exact ((reloads_objectsForUUIDs _ hy).mono fun m hm => ⟨i, hi, by simpa using hm⟩).trans
      (reloads_replaceFaults y _)

end Loading

section Storing

variable [DecidableEq U] {s : ObjectState U P}

/-- A row for `o` with the state it was logged in. -/
def logState (L : ContextLog U (ObjectState U P)) (o : U) (s : ObjectState U P)
    (updateContextVersion : Bool) : ContextLog U (ObjectState U P) :=
  if updateContextVersion then L.recordChange o s else L.logChange o s

theorem recorded_logState (L : ContextLog U (ObjectState U P)) (o : U) (s : ObjectState U P)
    (b : Bool) :
    (logState L o s b).recorded = Function.update L.recorded o (L.recorded o ++ [s]) := by
  cases b <;> rfl

theorem lastObjectVersion_logState_self (L : ContextLog U (ObjectState U P)) (o : U)
    (s : ObjectState U P) (b : Bool) :
    (logState L o s b).lastObjectVersion o = L.lastObjectVersion o + 1 := by
  simp only [ContextLog.lastObjectVersion, recorded_logState, Function.update_self,
    length_append, length_singleton]
  omega

theorem lastObjectVersion_logState_of_ne {o' : U} (h : o' ≠ o)
    (L : ContextLog U (ObjectState U P)) (s : ObjectState U P) (b : Bool) :
    (logState L o s b).lastObjectVersion o' = L.lastObjectVersion o' := by
  simp [ContextLog.lastObjectVersion, recorded_logState, h]

theorem Persists.store (h : Persists C isProxy x L) {a : ManagedObject (ObjectState U P) μ}
    (hv : a.objectVersion = L.lastObjectVersion o + 1)
    (hs : ObjectStored C (isProxy o) a.bundle (L.recorded o ++ [s])) (b : Bool) :
    Persists C isProxy ((x.store o a).logRecord o a.objectVersion b) (logState L o s b) where
  uuid := by cases b <;> exact h.uuid
  version := by
    cases b with
    | false => exact h.version
    | true => exact congrArg (· + 1) h.version
  history := by
    have : (logState L o s b).history = L.history ++
        [⟨o, L.lastObjectVersion o + 1, L.uuid, if b then L.version + 1 else L.version⟩] := by
      cases b <;> rfl
    simp only [logRecord, Context.store, this, h.history, h.uuid, h.version, hv]
  metadata := fun o' => by
    by_cases ho : o' = o
    · subst ho
      rw [lastObjectVersion_logState_self, ← hv]
      simp [logRecord, Context.store]
    · rw [lastObjectVersion_logState_of_ne ho, ← h.metadata]
      simp [logRecord, Context.store, ho]
  stored := fun o' => by
    rw [recorded_logState]
    by_cases ho : o' = o
    · subst ho
      simpa [logRecord, Context.store] using hs
    · simpa [logRecord, Context.store, ho] using h.stored o'

variable {i : Instance U P}

theorem Persists.represents_store (h : Persists C isProxy x L)
    (hup : ∀ o', o' ≠ o → ∀ i, x.registered o' = some i → UpToDate L o' i)
    {a : ManagedObject (ObjectState U P) μ} (hv : a.objectVersion = L.lastObjectVersion o + 1)
    (hs : ObjectStored C (isProxy o) a.bundle (L.recorded o ++ [s])) (b : Bool) (hi : i.objectVersion = a.objectVersion) (his : i.state = s) :
    Represents C isProxy (((x.store o a).logRecord o a.objectVersion b).registerObject o i)
      (logState L o s b) where
  toPersists := (h.store hv hs b).registered _
  upToDate := fun o' j hj => by
    by_cases ho : o' = o
    · subst ho
      obtain rfl : i = j := by simpa [registerObject] using hj
      refine ⟨by rw [lastObjectVersion_logState_self, hi, hv], ?_⟩
      simp [recorded_logState, his]
    · have := hup o' ho j (by simpa [registerObject, logRecord, Context.store, ho] using hj)
      refine ⟨by rw [lastObjectVersion_logState_of_ne ho, this.1], ?_⟩
      simpa [recorded_logState, ho] using this.2

omit [DecidableEq U] in
theorem Persists.snapshot (h : Persists C isProxy x L)
    (hi : i.objectVersion = L.lastObjectVersion o) :
    ObjectStored C (isProxy o) ((x.managedObject isProxy o i).snapshotObject true).bundle
      (L.recorded o ++ [i.state]) := by
  have := (h.stored o).save i.state
  simpa [managedObject, ManagedObject.snapshotObject, hi, ContextLog.lastObjectVersion] using this

theorem Persists.commitMerge (h : Persists C isProxy x L)
    (hup : ∀ o', o' ≠ o → ∀ i, x.registered o' = some i → UpToDate L o' i) (i : Instance U P)
    {v : ℤ} (hv : v = L.lastObjectVersion o) :
    Represents C isProxy ((x.commitMergeOfInstance isProxy o i v).1.registerObject o
      (x.commitMergeOfInstance isProxy o i v).2) (logState L o i.state !x.isRestoringContext) := by
  subst hv
  exact h.represents_store hup rfl (h.snapshot rfl) _ rfl rfl

theorem Persists.snapshotObject (h : Persists C isProxy x L)
    (hup : ∀ o', o' ≠ o → ∀ i, x.registered o' = some i → UpToDate L o' i)
    (hi : i.objectVersion = L.lastObjectVersion o) :
    Represents C isProxy (x.snapshotObject isProxy o i) (logState L o i.state true) := by
  let i' : Instance U P := { i with objectVersion := i.objectVersion + 1 }
  have hi' : i'.objectVersion = i.objectVersion + 1 := rfl
  exact h.represents_store hup (congrArg (· + 1) hi) (h.snapshot hi) true hi' rfl

theorem sameControl_store (x : Context U P μ) (o : U) (a : ManagedObject (ObjectState U P) μ)
    (b : Bool) : SameControl x ((x.store o a).logRecord o a.objectVersion b) :=
  ⟨fun _ h => h, rfl, rfl, rfl, rfl, rfl, by simp [logRecord, Context.store], by
    simp only [logRecord, Context.store, length_append, length_singleton,
      Nat.add_eq_left, Nat.one_ne_zero, or_false]
    by_cases hu : x.isUndoing ∨ x.isRedoing <;> simp only [hu, if_true, if_false]⟩

theorem sameControl_snapshotObject (isProxy : U → Bool) (x : Context U P μ) (o : U)
    (i : Instance U P) : SameControl x (x.snapshotObject isProxy o i) :=
  (sameControl_store x o _ true).trans (.registerObject _ o _)

end Storing

end Context

end Etoile.CoreObject
