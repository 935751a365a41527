import Etoile.CoreObject.VersionLookup

/-!
# The log of an object context

`ContextLog` is a context reduced to what it persists: its version, the `History` table and the
states each object version was recorded with.  `Run` are its histories, recorded changes and
restores in any order, each beside the timeline of the object graphs the context went through, where
a restore to `w` brings back the graph of version `w` as it was.

The lookup of a version finds exactly the objects of that version's graph, each with an object
version recorded with the state it had there (`find_correct`).
-/

namespace Etoile.CoreObject

open Function List Option

variable {U S : Type} [DecidableEq U]

structure ContextLog (U S : Type) where
  uuid : U
  version : ℤ
  history : List (HistoryRow U)
  /-- The states of the versions `0, 1, …` of an object. -/
  recorded : U → List S

namespace ContextLog

def init (uuid : U) : ContextLog U S := ⟨uuid, 0, [], fun _ => []⟩

/-- `-1` for an object that has no version yet. -/
def lastObjectVersion (L : ContextLog U S) (o : U) : ℤ := (L.recorded o).length - 1

def stateAt (L : ContextLog U S) (o : U) (n : ℤ) : Option S :=
  if 0 ≤ n then (L.recorded o)[n.toNat]? else none

/-- A new version of `o` with its row, under the present context version. -/
def logChange (L : ContextLog U S) (o : U) (s : S) : ContextLog U S :=
  { L with
    history := L.history ++ [⟨o, L.lastObjectVersion o + 1, L.uuid, L.version⟩]
    recorded := update L.recorded o (L.recorded o ++ [s]) }

def recordChange (L : ContextLog U S) (o : U) (s : S) : ContextLog U S :=
  { L with version := L.version + 1 }.logChange o s

/-- A row of another context, with the versions this one added to an object. -/
def logElsewhere (L : ContextLog U S) (row : HistoryRow U) (o : U) (ss : List S) :
    ContextLog U S :=
  { L with
    history := L.history ++ [row]
    recorded := update L.recorded o (L.recorded o ++ ss) }

def find (L : ContextLog U S) (aVersion : ℤ) : Option (Dictionary U ℤ) :=
  findAllObjectVersionsMatchingContextVersion L.history L.uuid L.version aVersion

/-- One turn of the loop of `-restoreObjectsIfNeededForObjectVersions:`. -/
def restoreObjectIfNeeded (restored : Dictionary U ℤ) (L : ContextLog U S) (o : U) :
    Option (ContextLog U S) := do
  let restoredVersion ← restored.lookup o
  if restoredVersion = L.lastObjectVersion o then
    some L
  else
    let s ← L.stateAt o restoredVersion
    some (L.logChange o s)

def logRestoreContextVersion (L : ContextLog U S) (aVersion : ℤ) : ContextLog U S :=
  { L with history := L.history ++ [⟨L.uuid, aVersion, L.uuid, L.version⟩] }

/-- `-_restoreToVersion:`; `order` is the order in which `-allKeys` lists the objects found. -/
def restoreToVersion (L : ContextLog U S) (aVersion : ℤ) (order : List U) :
    Option (ContextLog U S) :=
  if aVersion ≥ L.version then some L
  else do
    let L := { L with version := L.version + 1 }
    let restored ← L.find aVersion
    let L ← order.foldlM (restoreObjectIfNeeded restored) L
    some (L.logRestoreContextVersion aVersion)

inductive Run (uuid : U) : ContextLog U S → Timeline U S → Prop
  | init : Run uuid (.init uuid) .empty
  | change {L T} (o : U) (s : S) : Run uuid L T → o ≠ uuid →
      Run uuid (L.recordChange o s) (T.record o s)
  | elsewhere {L T row} (o : U) (ss : List S) : Run uuid L T → row.contextUUID ≠ uuid →
      Run uuid (L.logElsewhere row o ss) T
  | restore {L L' T restored} {w : ℕ} {order : List U} : Run uuid L T → w < L.version →
      L.find w = some restored → order.Perm restored.keys →
      L.restoreToVersion w order = some L' → Run uuid L' (T.restore w)

omit [DecidableEq U] in
theorem stateAt_eq_some {L : ContextLog U S} {o : U} {n : ℤ} {s : S} :
    L.stateAt o n = some s ↔ 0 ≤ n ∧ (L.recorded o)[n.toNat]? = some s := by
  unfold stateAt
  split_ifs with h <;> simp [h]

omit [DecidableEq U] in
theorem stateAt_of_append {L L' : ContextLog U S} {o : U} {ss : List S}
    (h : L'.recorded o = L.recorded o ++ ss) {n : ℤ} {s : S} (hs : L.stateAt o n = some s) :
    L'.stateAt o n = some s := by
  rw [stateAt_eq_some] at hs ⊢
  obtain ⟨hlt, -⟩ := List.getElem?_eq_some_iff.1 hs.2
  exact ⟨hs.1, by rw [h, getElem?_append_left hlt]; exact hs.2⟩

omit [DecidableEq U] in
theorem stateAt_last {L L' : ContextLog U S} {o : U} {s : S}
    (h : L'.recorded o = L.recorded o ++ [s]) :
    L'.stateAt o (L.lastObjectVersion o + 1) = some s := by
  rw [stateAt_eq_some, lastObjectVersion]
  exact ⟨by omega, by simp [h]⟩

section Restore

variable {restored : Dictionary U ℤ}

/-- The state a restore brings back for an object, when the object's last version is another. -/
def outdated (restored : Dictionary U ℤ) (L : ContextLog U S) (o : U) : Option S :=
  (restored.lookup o).bind fun n => if n = L.lastObjectVersion o then none else L.stateAt o n

def newVersions (restored : Dictionary U ℤ) (L : ContextLog U S) (o : U) : Option ℤ :=
  (outdated restored L o).map fun _ => L.lastObjectVersion o + 1

theorem outdated_congr {L L' : ContextLog U S} {o : U} (h : L'.recorded o = L.recorded o) :
    outdated restored L' o = outdated restored L o := by
  have hl : L'.lastObjectVersion o = L.lastObjectVersion o := by simp [lastObjectVersion, h]
  have hs : L'.stateAt o = L.stateAt o := by
    funext n
    simp [stateAt, h]
  simp [outdated, hl, hs]

theorem outdated_eq_some {L : ContextLog U S} {o : U} {s : S} (h : outdated restored L o = some s) :
    ∃ n, restored.lookup o = some n ∧ L.stateAt o n = some s := by
  obtain ⟨n, hn, hs⟩ := bind_eq_some_iff.1 h
  split_ifs at hs
  exact ⟨n, hn, hs⟩

theorem restoreObjectIfNeeded_eq {L : ContextLog U S} {o : U} (ho : o ∈ restored)
    (hs : ∀ n, restored.lookup o = some n → (L.stateAt o n).isSome) :
    restoreObjectIfNeeded restored L o =
      some ((outdated restored L o).elim L (L.logChange o)) := by
  obtain ⟨n, hn⟩ := isSome_iff_exists.1 (AList.lookup_isSome.2 ho)
  obtain ⟨s, hs⟩ := isSome_iff_exists.1 (hs n hn)
  by_cases hl : n = L.lastObjectVersion o
  · simp [restoreObjectIfNeeded, outdated, hn, hl]
  · simp [restoreObjectIfNeeded, outdated, hn, hl, hs]

/-- What a restore has done after the objects of `order`. -/
structure RestoredObjects (restored : Dictionary U ℤ) (L : ContextLog U S) (order : List U)
    (L' : ContextLog U S) : Prop where
  uuid : L'.uuid = L.uuid
  version : L'.version = L.version
  recorded : ∀ o, L'.recorded o =
    L.recorded o ++ if o ∈ order then (outdated restored L o).toList else []
  rows : ∃ rows, L'.history = L.history ++ rows ∧
    (∀ r ∈ rows, r.contextUUID = L.uuid ∧ r.contextVersion = L.version) ∧
    Versions rows fun o => if o ∈ order then newVersions restored L o else none

theorem restoreObjects (restored : Dictionary U ℤ) :
    ∀ (order : List U) (L : ContextLog U S), order.Nodup →
      (∀ o ∈ order, o ∈ restored ∧ ∀ v, restored.lookup o = some v → (L.stateAt o v).isSome) →
      ∃ L', order.foldlM (restoreObjectIfNeeded restored) L = some L' ∧
        RestoredObjects restored L order L'
  | [], L, _, _ => ⟨L, rfl, rfl, rfl, fun o => by simp, [], by simp, by simp, by simp [Versions]⟩
  | o :: order, L, hnd, h => by
    obtain ⟨hmem, hnd⟩ := nodup_cons.1 hnd
    have ho := restoreObjectIfNeeded_eq (h o mem_cons_self).1 (h o mem_cons_self).2
    rcases hout : outdated restored L o with _ | s
    · -- up to date: the object keeps its last version
      obtain ⟨L', hf, hL'⟩ := restoreObjects restored order L hnd
        fun o' ho' => h o' (mem_cons_of_mem _ ho')
      refine ⟨L', by simp [ho, hout, hf], hL'.uuid, hL'.version, fun o' => ?_, ?_⟩
      · rw [hL'.recorded]
        by_cases ho' : o' = o
        · subst ho'
          simp [hmem, hout]
        · simp [ho']
      · obtain ⟨rows, hh, hr, hm⟩ := hL'.rows
        refine ⟨rows, hh, hr, ?_⟩
        have : newVersions restored L o = none := by simp [newVersions, hout]
        convert hm using 2 with o'
        by_cases ho' : o' = o
        · subst ho'
          simp [hmem, this]
        · simp [ho']
    · have hrec : ∀ o' ≠ o, (L.logChange o s).recorded o' = L.recorded o' := fun o' ho' => by
        simp [logChange, ho']
      have hne : ∀ o' ∈ order, o' ≠ o := fun o' ho' heq => hmem (heq ▸ ho')
      obtain ⟨L', hf, hL'⟩ := restoreObjects restored order (L.logChange o s) hnd fun o' ho' => by
        refine ⟨(h o' (mem_cons_of_mem _ ho')).1, fun v hv => ?_⟩
        have := (h o' (mem_cons_of_mem _ ho')).2 v hv
        simpa [stateAt, hrec o' (hne o' ho')] using this
      refine ⟨L', by simp [ho, hout, hf], hL'.uuid, hL'.version, fun o' => ?_, ?_⟩
      · rw [hL'.recorded]
        by_cases ho' : o' = o
        · subst ho'
          simp [hmem, hout, logChange]
        · simp [ho', hrec o' ho', outdated_congr (hrec o' ho')]
      · obtain ⟨rows, hh, hr, hm⟩ := hL'.rows
        refine ⟨⟨o, L.lastObjectVersion o + 1, L.uuid, L.version⟩ :: rows, ?_, ?_, ?_⟩
        · simp [hh, logChange]
        · exact forall_mem_cons.2 ⟨⟨rfl, rfl⟩, hr⟩
        · convert hm.cons ⟨o, L.lastObjectVersion o + 1, L.uuid, L.version⟩ (by simp [hmem]) using 2
            with o'
          by_cases ho' : o' = o
          · subst ho'
            simp [newVersions, hout]
          · have hn : newVersions restored (L.logChange o s) o' = newVersions restored L o' := by
              simp [newVersions, outdated_congr (hrec o' ho'), lastObjectVersion, hrec o' ho']
            simp [ho', hn]

end Restore

/-- What the log keeps of a history: the rows are those of a timeline of object versions, and the
states recorded for the versions of each context version make up its graph. -/
structure Tracks (uuid : U) (L : ContextLog U S) (T : Timeline U S) (V : Timeline U ℤ) : Prop where
  uuid_eq : L.uuid = uuid
  version : L.version = V.version
  same : T.version = V.version
  logged : Logged uuid L.history V
  states : ∀ v o, T.view v o = (V.view v o).bind (L.stateAt o)
  recorded : ∀ v o n, V.view v o = some n → (L.stateAt o n).isSome

variable {uuid : U} {L L' : ContextLog U S} {T : Timeline U S} {V : Timeline U ℤ}

namespace Tracks

theorem find_eq (h : Tracks uuid L T V) {v : ℕ} (hv : v ≤ V.version) :
    ∃ d, L.find v = some d ∧ ∀ o, d.lookup o = V.view v o := by
  obtain ⟨d, hd, hl⟩ := h.logged.scansTo v hv ∅
  have hle : ¬ (v : ℤ) > L.version := by
    have := h.version
    omega
  exact ⟨d, by simp [find, findAllObjectVersionsMatchingContextVersion, hle, h.uuid_eq, hd],
    fun o => by simp [hl]⟩

theorem bind_stateAt (h : Tracks uuid L T V)
    (happ : ∀ o, ∃ ss, L'.recorded o = L.recorded o ++ ss) (v : ℕ) (o : U) :
    (V.view v o).bind (L'.stateAt o) = T.view v o := by
  rw [h.states]
  rcases hn : V.view v o with _ | n
  · rfl
  · obtain ⟨s, hs⟩ := isSome_iff_exists.1 (h.recorded v o n hn)
    obtain ⟨ss, hss⟩ := happ o
    simp [hs, stateAt_of_append hss hs]

theorem isSome_stateAt (h : Tracks uuid L T V)
    (happ : ∀ o, ∃ ss, L'.recorded o = L.recorded o ++ ss) {v : ℕ} {o : U} {n : ℤ}
    (hn : V.view v o = some n) : (L'.stateAt o n).isSome := by
  obtain ⟨s, hs⟩ := isSome_iff_exists.1 (h.recorded v o n hn)
  obtain ⟨ss, hss⟩ := happ o
  exact isSome_iff_exists.2 ⟨s, stateAt_of_append hss hs⟩

theorem push (h : Tracks uuid L T V) {m : U → Option ℤ} {g : U → Option S}
    (happ : ∀ o, ∃ ss, L'.recorded o = L.recorded o ++ ss)
    (hu : L'.uuid = uuid) (hv : L'.version = L.version + 1)
    (hl : Logged uuid L'.history (V.push m))
    (hg : ∀ o, g o = (m o).bind (L'.stateAt o))
    (hm : ∀ o n, m o = some n → (L'.stateAt o n).isSome) :
    Tracks uuid L' (T.push g) (V.push m) where
  uuid_eq := hu
  version := by
    have := h.version
    simp only [Timeline.version_push]
    omega
  same := by simp [h.same]
  logged := hl
  states := fun v o => by
    by_cases hv : v = V.version + 1
    · subst hv
      rw [Timeline.view_push_self, ← h.same, Timeline.view_push_self, hg]
    · rw [Timeline.view_push_of_ne hv, Timeline.view_push_of_ne (h.same ▸ hv), h.bind_stateAt happ]
  recorded := fun v o n hn => by
    by_cases hv : v = V.version + 1
    · subst hv
      rw [Timeline.view_push_self] at hn
      exact hm o n hn
    · rw [Timeline.view_push_of_ne hv] at hn
      exact h.isSome_stateAt happ hn

theorem init : Tracks uuid (.init uuid : ContextLog U S) .empty .empty where
  uuid_eq := rfl
  version := rfl
  same := rfl
  logged := .nil
  states
    | 0, _ => rfl
    | _ + 1, _ => rfl
  recorded
    | 0, _, _, h => by simp at h
    | _ + 1, _, _, h => by simp [Timeline.view, Timeline.empty] at h

theorem change (h : Tracks uuid L T V) {o : U} (s : S) (ho : o ≠ uuid) :
    Tracks uuid (L.recordChange o s) (T.record o s)
      (V.record o (L.lastObjectVersion o + 1)) := by
  have hrec : (L.recordChange o s).recorded o = L.recorded o ++ [s] := by
    simp [recordChange, logChange]
  have happ : ∀ o', ∃ ss, (L.recordChange o s).recorded o' = L.recorded o' ++ ss := fun o' => by
    by_cases ho' : o' = o
    · exact ⟨[s], ho' ▸ hrec⟩
    · exact ⟨[], by simp [recordChange, logChange, ho']⟩
  refine h.push happ h.uuid_eq rfl ?_ (fun o' => ?_) (fun o' n hn => ?_)
  · show Logged uuid
      (L.history ++ [⟨o, L.lastObjectVersion o + 1, L.uuid, L.version + 1⟩]) _
    rw [h.uuid_eq, h.version]
    exact h.logged.message ho
  · by_cases ho' : o' = o
    · subst ho'
      simp [stateAt_last hrec]
    · rw [update_of_ne ho', update_of_ne ho', Timeline.current, h.same,
        Timeline.current, h.bind_stateAt happ]
  · by_cases ho' : o' = o
    · subst ho'
      simp only [update_self, some.injEq] at hn
      simp [← hn, stateAt_last hrec]
    · rw [update_of_ne ho'] at hn
      exact h.isSome_stateAt happ hn

theorem elsewhere (h : Tracks uuid L T V) {row : HistoryRow U} (o : U) (ss : List S)
    (hrow : row.contextUUID ≠ uuid) : Tracks uuid (L.logElsewhere row o ss) T V := by
  have happ : ∀ o', ∃ ss', (L.logElsewhere row o ss).recorded o' = L.recorded o' ++ ss' :=
    fun o' => by
      by_cases ho' : o' = o
      · subst ho'
        exact ⟨ss, by simp [logElsewhere]⟩
      · exact ⟨[], by simp [logElsewhere, ho']⟩
  exact ⟨h.uuid_eq, h.version, h.same, h.logged.other hrow,
    fun v o' => (h.bind_stateAt happ v o').symm, fun v o' n hn => h.isSome_stateAt happ hn⟩

theorem restore (h : Tracks uuid L T V) {w : ℕ} (hw : w < L.version) {restored : Dictionary U ℤ}
    {order : List U} (hd : L.find w = some restored) (ho : order.Perm restored.keys) :
    ∃ L' V', L.restoreToVersion w order = some L' ∧ Tracks uuid L' (T.restore w) V' ∧
      (∀ o, L'.recorded o = L.recorded o ++ (outdated restored L o).toList) ∧
      ∃ rows, L'.history.length = L.history.length + (rows.length + 1) ∧
        Versions rows (newVersions restored L) := by
  have hwV : w < V.version := by
    have := h.version
    omega
  obtain ⟨d, hd', hlook⟩ := h.find_eq hwV.le
  obtain rfl : d = restored := some.inj (hd'.symm.trans hd)
  -- the objects found are restored from states that are recorded
  obtain ⟨L₁, hf, hL₁⟩ := restoreObjects d order { L with version := L.version + 1 }
    (ho.nodup_iff.2 d.keys_nodup) fun o hmem =>
      ⟨ho.mem_iff.1 hmem, fun n hn => h.recorded w o n (hlook o ▸ hn)⟩
  have hall : ∀ o, (if o ∈ order then outdated d L o else none) = outdated d L o := fun o => by
    split_ifs with hmem
    · rfl
    · have : d.lookup o = none := AList.lookup_eq_none.2 fun h => hmem (ho.mem_iff.2 h)
      simp [outdated, this]
  have hrec : ∀ o, L₁.recorded o = L.recorded o ++ (outdated d L o).toList := fun o => by
    rw [hL₁.recorded, ← hall o]
    split_ifs <;> rfl
  have hnew : ∀ o s, outdated d L o = some s → L₁.stateAt o (L.lastObjectVersion o + 1) = some s :=
    fun o s hs => stateAt_last (by rw [hrec, hs]; rfl)
  have hrun : L.restoreToVersion w order = some (L₁.logRestoreContextVersion w) := by
    have hfind : ({ L with version := L.version + 1 } : ContextLog U S).find w = some d := by
      rw [← hd, find, find, findAllObjectVersionsMatchingContextVersion, if_neg (by dsimp; omega),
        findAllObjectVersionsMatchingContextVersion, if_neg (by omega)]
    rw [restoreToVersion, if_neg (by omega)]
    simp [hfind, hf]
  obtain ⟨rows, hh, hr, hm⟩ := hL₁.rows
  have hm' : Versions rows (newVersions d L) := by
    convert hm using 2 with o
    have := congrArg (Option.map fun _ => L.lastObjectVersion o + 1) (hall o)
    rw [newVersions, ← this]
    split_ifs <;> rfl
  have hstate : (L₁.logRestoreContextVersion w).stateAt = L₁.stateAt := rfl
  refine ⟨_, V.restoreWith w (newVersions d L), hrun, h.push (fun o => ⟨_, hrec o⟩)
    (hL₁.uuid.trans h.uuid_eq) hL₁.version ?_ (fun o => ?_) (fun o n hn => ?_), hrec, rows, ?_, hm'⟩
  · have hver : L.version + 1 = (V.version : ℤ) + 1 := by rw [h.version]
    show Logged uuid (L₁.history ++ [⟨L₁.uuid, w, L₁.uuid, L₁.version⟩]) _
    rw [hh, append_assoc, hL₁.uuid, hL₁.version, h.uuid_eq, hver]
    exact h.logged.restorePoint hwV.le (fun r hr' => h.uuid_eq ▸ hver ▸ hr r hr') hm'
  · rw [hstate, newVersions]
    rcases hs : outdated d L o with _ | s
    · have := h.bind_stateAt (fun o => ⟨_, hrec o⟩) w o
      simpa using this.symm
    · obtain ⟨n, hn, hs'⟩ := outdated_eq_some hs
      simp [h.states, ← hlook, hn, hs', hnew o s hs]
  · rw [hstate]
    rw [newVersions] at hn
    rcases hs : outdated d L o with _ | s
    · simp only [hs, map_none, none_or] at hn
      exact h.isSome_stateAt (fun o => ⟨_, hrec o⟩) hn
    · simp only [hs, map_some, some_or, some.injEq] at hn
      simp [← hn, hnew o s hs]
  · show (L₁.history ++ [_]).length = _
    rw [length_append, hh, length_append, length_singleton, Nat.add_assoc]

end Tracks

theorem Run.tracks (h : Run uuid L T) : ∃ V, Tracks uuid L T V := by
  induction h with
  | init => exact ⟨_, .init⟩
  | change o s _ ho ih =>
    obtain ⟨V, hV⟩ := ih
    exact ⟨_, hV.change s ho⟩
  | elsewhere o ss _ hrow ih =>
    obtain ⟨V, hV⟩ := ih
    exact ⟨_, hV.elsewhere o ss hrow⟩
  | restore _ hw hd ho hrun ih =>
    obtain ⟨V, hV⟩ := ih
    obtain ⟨L', V', hrun', hV', -⟩ := hV.restore hw hd ho
    obtain rfl : _ = L' := some.inj (hrun.symm.trans hrun')
    exact ⟨V', hV'⟩

theorem Run.version_eq (h : Run uuid L T) : L.version = T.version := by
  obtain ⟨V, hV⟩ := h.tracks
  rw [hV.version, hV.same]

theorem Run.exists_restore (h : Run uuid L T) (w : ℕ) (hw : w < L.version) :
    ∃ restored L', L.find w = some restored ∧
      L.restoreToVersion w restored.keys = some L' ∧ Run uuid L' (T.restore w) := by
  obtain ⟨V, hV⟩ := h.tracks
  have hwV : w ≤ V.version := by
    have := hV.version
    omega
  obtain ⟨d, hd, -⟩ := hV.find_eq hwV
  obtain ⟨L', V', hrun, -⟩ := hV.restore hw hd (Perm.refl _)
  exact ⟨d, L', hd, hrun, h.restore hw hd (Perm.refl _) hrun⟩

/-- After a restore every object of the graph is last recorded in its state there; only the objects
that are not were restored. -/
theorem Run.restore_last (h : Run uuid L T) {w : ℕ} (hw : w < L.version)
    {restored : Dictionary U ℤ} {order : List U} (hd : L.find w = some restored)
    (ho : order.Perm restored.keys) (hrun : L.restoreToVersion w order = some L') :
    (∀ o s, T.view w o = some s → (L'.recorded o).getLast? = some s) ∧
    (∀ o, L.recorded o = [] → L'.recorded o = []) ∧
    (L'.history.length = L.history.length + 1 →
      ∀ o n, restored.lookup o = some n → n = L.lastObjectVersion o) := by
  obtain ⟨V, hV⟩ := h.tracks
  have hwV : w ≤ V.version := by
    have := hV.version
    omega
  obtain ⟨d, hd', hlook⟩ := hV.find_eq hwV
  obtain rfl : d = restored := some.inj (hd'.symm.trans hd)
  obtain ⟨L₁, V', hrun', -, hrec, rows, hlen, hrows⟩ := hV.restore hw hd ho
  obtain rfl : L' = L₁ := some.inj (hrun.symm.trans hrun')
  refine ⟨fun o s hs => ?_, fun o hnil => ?_, fun hl o n hn => ?_⟩
  · rw [hV.states] at hs
    obtain ⟨n, hn, hs⟩ := bind_eq_some_iff.1 hs
    rw [hrec]
    by_cases hlast : n = L.lastObjectVersion o
    · have hout : outdated d L o = none := by simp [outdated, hlook, hn, hlast]
      obtain ⟨h0, hs⟩ := stateAt_eq_some.1 hs
      have hidx : n.toNat = (L.recorded o).length - 1 := by
        rw [hlast, lastObjectVersion]
        omega
      rw [hout, toList_none, append_nil, getLast?_eq_getElem?, ← hidx, hs]
    · have hout : outdated d L o = some s := by simp [outdated, hlook, hn, hlast, hs]
      rw [hout, toList_some, getLast?_concat]
  · rw [hrec, hnil, nil_append]
    rcases hout : outdated d L o with _ | s
    · rfl
    · obtain ⟨n, -, hs⟩ := outdated_eq_some hout
      simp [stateAt_eq_some, hnil] at hs
  · -- an object restored would have left a row
    obtain rfl : rows = [] := length_eq_zero_iff.1 (by omega)
    by_contra hne
    obtain ⟨s, hs⟩ := isSome_iff_exists.1 (hV.recorded w o n (hlook o ▸ hn))
    have hnew : newVersions d L o = some (L.lastObjectVersion o + 1) := by
      simp [newVersions, outdated, hn, hne, hs]
    obtain ⟨r, hr, -⟩ := (hrows o _).1 hnew
    simp at hr

theorem Run.found (h : Run uuid L T) {v : ℕ} (hv : v ≤ L.version) {found : Dictionary U ℤ}
    (hd : L.find v = some found) :
    (∀ o, o ∈ found ↔ (T.view v o).isSome) ∧
      ∀ o n, found.lookup o = some n → ∃ s, L.stateAt o n = some s ∧ T.view v o = some s := by
  obtain ⟨V, hV⟩ := h.tracks
  have hvV : v ≤ V.version := by
    have := hV.version
    omega
  obtain ⟨d, hd', hlook⟩ := hV.find_eq hvV
  obtain rfl : d = found := some.inj (hd'.symm.trans hd)
  refine ⟨fun o => ?_, fun o n hn => ?_⟩
  · rw [← AList.lookup_isSome, hlook, hV.states]
    rcases hn : V.view v o with _ | n
    · simp
    · simpa using hV.recorded v o n hn
  · obtain ⟨s, hs⟩ := isSome_iff_exists.1 (hV.recorded v o n (hlook o ▸ hn))
    exact ⟨s, hs, by rw [hV.states, ← hlook, hn, bind_some, hs]⟩

theorem Run.exists_found (h : Run uuid L T) {v : ℕ} (hv : v ≤ L.version) :
    ∃ found, L.find v = some found := by
  obtain ⟨V, hV⟩ := h.tracks
  have hvV : v ≤ V.version := by
    have := hV.version
    omega
  obtain ⟨d, hd, -⟩ := hV.find_eq hvV
  exact ⟨d, hd⟩

theorem find_correct (h : Run uuid L T) {v : ℕ} (hv : v ≤ L.version) :
    ∃ found, L.find v = some found ∧ (∀ o, o ∈ found ↔ (T.view v o).isSome) ∧
      ∀ o n, found.lookup o = some n → L.stateAt o n = T.view v o := by
  obtain ⟨found, hd⟩ := h.exists_found hv
  obtain ⟨hmem, hstate⟩ := h.found hv hd
  refine ⟨found, hd, hmem, fun o n hn => ?_⟩
  obtain ⟨s, hs, hview⟩ := hstate o n hn
  rw [hs, hview]

/-- Version 6 restores version 4, which restored version 1. -/
theorem find_correct_nested :
    ∃ (L : ContextLog ℕ ℕ) (T : Timeline ℕ ℕ), Run 0 L T ∧ L.version = 6 ∧
      T.view 6 1 = some 10 ∧ T.view 6 2 = none ∧
      ∃ found, L.find (6 : ℕ) = some found ∧ (∀ o, o ∈ found ↔ (T.view 6 o).isSome) ∧
        ∀ o n, found.lookup o = some n → L.stateAt o n = T.view 6 o := by
  have h₀ : Run 0 (.init 0 : ContextLog ℕ ℕ) .empty := .init
  have h₃ := ((h₀.change 1 10 (by decide)).change 2 20 (by decide)).change 1 11 (by decide)
  obtain ⟨_, L₄, -, -, h₄⟩ := h₃.exists_restore 1 (by rw [h₃.version_eq]; decide)
  have h₅ := h₄.change 1 12 (by decide)
  obtain ⟨_, L₆, -, -, h₆⟩ := h₅.exists_restore 4 (by rw [h₅.version_eq]; decide)
  exact ⟨L₆, _, h₆, h₆.version_eq, rfl, rfl, find_correct h₆ (by rw [h₆.version_eq]; decide)⟩

end ContextLog

end Etoile.CoreObject
