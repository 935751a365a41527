import Etoile.CoreObject.ContextGraph

/-!
# Histories of a context

`Run` are the histories of a context, beside the graphs it went through.  A restore gets to the
graph of the version it is asked for and keeps every version there was.
-/

namespace Etoile.CoreObject

open Option

namespace Context

variable {U P μ : Type} {C : ManagedClass (ObjectState U P) μ Unit} {isProxy : U → Bool}
  {x x' : Context U P μ} {L : ContextLog U (ObjectState U P)} {o : U}

section Runs

variable [DecidableEq U] {ctx : U} {strict : Prop}

/-- The version `-undo` restores. -/
def undoVersion (x : Context U P μ) : ℤ :=
  (if x.firstUndoVersion = -1 then x.version else x.restoredVersionUndoCursor) - 1

def graphAt (C : ManagedClass (ObjectState U P) μ Unit) (x : Context U P μ) (aVersion : ℤ) (o : U) :
    Option (ObjectState U P) :=
  ((x.find aVersion).bind (·.objectForKey o)).bind fun n =>
    (x.bundles o).restore C (fun _ => ()) n

/-- A restore of the whole context under the default merge policy, which where `strict` holds
resolves no stray fault; `order` lists the objects found. -/
structure Admissible (C : ManagedClass (ObjectState U P) μ Unit) (strict : Prop)
    (x : Context U P μ) (aVersion : ℤ) (order : List U) : Prop where
  mergePolicy : x.mergePolicy = .oldChildren
  order : ∀ found, x.find aVersion = some found → order.Perm found.keys
  noStrayFaults : strict → NoStrayFaults C x (x.graphAt C aVersion)

/-- The histories of a context, with the graphs it went through: objects change, the context is
restored to versions it has had, and restores are undone and redone. -/
inductive Run (C : ManagedClass (ObjectState U P) μ Unit) (isProxy : U → Bool) (ctx : U)
    (strict : Prop) : Context U P μ → Timeline U (ObjectState U P) → Prop
  | new : Run C isProxy ctx strict (.new ctx) .empty
  | step {x x' T T'} : Run C isProxy ctx strict x T → Step C isProxy x T x' T' →
      Run C isProxy ctx strict x' T'
  | newSession {x T} : Run C isProxy ctx strict x T → Run C isProxy ctx strict x.newSession T
  | restore {x x' T} {w : ℕ} {order : List U} : Run C isProxy ctx strict x T → w < x.version →
      Admissible C strict x w order → x.restoreToVersion C isProxy w order = some x' →
      Run C isProxy ctx strict x' (T.restore w)
  | undo {x x' T} {w : ℕ} {order : List U} : Run C isProxy ctx strict x T → w < x.version →
      Admissible C strict x w order → x.undoVersion = w → x.undo C isProxy order = some x' →
      Run C isProxy ctx strict x' (T.restore w)
  | redo {x x' T} {w : ℕ} {order : List U} : Run C isProxy ctx strict x T → w < x.version →
      Admissible C strict x w order → x.canRedo → x.restoredVersionUndoCursor + 1 = w →
      x.redo C isProxy order = some x' → Run C isProxy ctx strict x' (T.restore w)

/-- The context while `-undo` restores. -/
def undoing (x : Context U P μ) : Context U P μ :=
  { x with
    isUndoing := true
    firstUndoVersion := if x.firstUndoVersion = -1 then x.version + 1 else x.firstUndoVersion
    restoredVersionUndoCursor := x.undoVersion }

def redoing (x : Context U P μ) : Context U P μ :=
  { x with isRedoing := true, restoredVersionUndoCursor := x.restoredVersionUndoCursor + 1 }

variable {order : List U}

theorem undo_eq_some (h : x.undo C isProxy order = some x') :
    ∃ y, x.undoing.restoreToVersion C isProxy x.undoVersion order = some y ∧
      x' = { y with isUndoing := false } := by
  unfold undo at h
  simp only [bind_eq_bind, bind_eq_some_iff, some.injEq] at h
  obtain ⟨y, hy, rfl⟩ := h
  refine ⟨y, ?_, rfl⟩
  unfold undoing undoVersion
  split_ifs at hy ⊢ <;> exact hy

theorem redo_eq_some (hc : x.canRedo) (h : x.redo C isProxy order = some x') :
    ∃ y, x.redoing.restoreToVersion C isProxy (x.restoredVersionUndoCursor + 1) order = some y ∧
      x' = if y.restoredVersionUndoCursor = y.firstUndoVersion - 1 then
        { y with isRedoing := false, firstUndoVersion := -1 }
      else { y with isRedoing := false } := by
  unfold redo at h
  rw [if_neg (not_not.2 hc)] at h
  simp only [bind_eq_bind, bind_eq_some_iff, some.injEq] at h
  obtain ⟨y, hy, rfl⟩ := h
  refine ⟨y, hy, ?_⟩
  split_ifs <;> rfl

def lastState (C : ManagedClass (ObjectState U P) μ Unit) (x : Context U P μ) (o : U) :
    Option (ObjectState U P) :=
  (x.bundles o).restore C (fun _ => ()) (x.metadata o)

variable {T T' : Timeline U (ObjectState U P)}

namespace Backed

theorem graph (h : Backed C isProxy ctx x L T) {s : ObjectState U P} (hs : T.current o = some s) :
    x.lastState C o = some s ∧ ∀ i, x.registered o = some i → i.state = s := by
  have hlast := h.current o s hs
  refine ⟨?_, fun i hi => some.inj ((h.upToDate o i hi).2.symm.trans hlast)⟩
  have hne : L.recorded o ≠ [] := fun hnil => by simp [hnil] at hlast
  have h0 : 0 ≤ x.metadata o := by
    have := List.length_pos_iff.2 hne
    rw [h.metadata, ContextLog.lastObjectVersion]
    omega
  obtain ⟨s', hs', hres⟩ := h.restore_last h0
  rw [lastState, hres, ← hs', hlast]

theorem find (h : Backed C isProxy ctx x L T) {v : ℕ} (hv : v ≤ T.version) :
    ∃ found, x.find v = some found ∧ (∀ o, o ∈ found ↔ (T.view v o).isSome) ∧
      ∀ o n, found.lookup o = some n →
        (x.bundles o).restore C (fun _ => ()) n = T.view v o := by
  have hvL : v ≤ L.version := by
    rw [h.run.version_eq]
    omega
  obtain ⟨found, hd⟩ := h.run.exists_found hvL
  obtain ⟨hmem, hstate⟩ := h.run.found hvL hd
  refine ⟨found, (find_eq h.toPersists v).trans hd, hmem, fun o n hn => ?_⟩
  obtain ⟨s, hs, hview⟩ := hstate o n hn
  rw [h.restore_eq hs, hview]

theorem graphAt_eq (h : Backed C isProxy ctx x L T) {v : ℕ} (hv : v ≤ T.version) :
    x.graphAt C v = T.view v := by
  obtain ⟨found, hd, hmem, hstate⟩ := h.find hv
  funext o
  unfold graphAt
  rw [hd, bind_some]
  rcases hn : found.objectForKey o with _ | n
  · have hno : o ∉ found := AList.lookup_eq_none.1 hn
    rw [hmem, not_isSome_iff_eq_none] at hno
    rw [hno, bind_none]
  · exact hstate o n hn

theorem restores (h : Backed C isProxy ctx x L T) (hstale : strict → StaleFree x) {w : ℕ}
    (hw : w < x.version) {order : List U} (ha : Admissible C strict x w order)
    (hx : x.restoreToVersion C isProxy w order = some x') :
    ∃ L', Backed C isProxy ctx x' L' (T.restore w) ∧ Restores x x' ∧
      (strict → (∀ o, (x'.registered o).isSome → (T.view w o).isSome) ∧ StaleFree x') ∧
      (x'.history.length = x.history.length + 1 →
        ∀ found o n, x.find w = some found → found.lookup o = some n → n = x.metadata o) := by
  have hv : w ≤ T.version := by
    have := h.version_eq
    omega
  obtain ⟨found, hd, -⟩ := h.find hv
  have ho := ha.order found hd
  obtain ⟨L', hL', hr, hrows⟩ := h.restore ha.mergePolicy hw hd ho hx
  refine ⟨L', hL', hr, fun hstrict => ?_, fun hlen d o n hd' hn => ?_⟩
  · have hns := ha.noStrayFaults hstrict
    rw [h.graphAt_eq hv] at hns
    exact (h.restore_settled ha.mergePolicy hw hd ho (hstale hstrict) hns).1 x' hx
  · obtain rfl : found = d := some.inj (hd.symm.trans hd')
    exact hrows hlen o n hn

end Backed

theorem Rests.undo (h : Rests C isProxy ctx x L T) (hstale : strict → StaleFree x) {w : ℕ}
    (hw : w < x.version) (ha : Admissible C strict x w order)
    (hu : x.undoVersion = w) (hx : x.undo C isProxy order = some x') :
    (∃ L', Rests C isProxy ctx x' L' (T.restore w)) ∧
      (strict → (∀ o, (x'.registered o).isSome → (T.view w o).isSome) ∧ StaleFree x') ∧
      x'.firstUndoVersion = x.undoing.firstUndoVersion ∧ x'.restoredVersionUndoCursor = w := by
  obtain ⟨y, hy, rfl⟩ := undo_eq_some hx
  have hb : Backed C isProxy ctx x.undoing L T := { h.toBacked with }
  have ha' : Admissible C strict x.undoing w order :=
    ⟨ha.mergePolicy, ha.order, fun hs => { ha.noStrayFaults hs with }⟩
  obtain ⟨L', hL', hr, hgraph, -⟩ := hb.restores hstale hw ha' (hu ▸ hy)
  refine ⟨⟨L', { hL' with }, hr.isRestoringContext, rfl, hr.isRedoing.trans h.notRedoing⟩, hgraph,
    ?_, hr.cursor.trans hu⟩
  rw [show ({ y with isUndoing := false } : Context U P μ).firstUndoVersion = y.firstUndoVersion
    from rfl, hr.firstUndoVersion]
  exact if_pos (.inl rfl)

theorem Rests.redo (h : Rests C isProxy ctx x L T) (hstale : strict → StaleFree x) {w : ℕ}
    (hw : w < x.version) (ha : Admissible C strict x w order) (hc : x.canRedo)
    (hu : x.restoredVersionUndoCursor + 1 = w) (hx : x.redo C isProxy order = some x') :
    (∃ L', Rests C isProxy ctx x' L' (T.restore w)) ∧
      (strict → (∀ o, (x'.registered o).isSome → (T.view w o).isSome) ∧ StaleFree x') ∧
      x'.firstUndoVersion = (if (w : ℤ) = x.firstUndoVersion - 1 then -1 else x.firstUndoVersion) ∧
      x'.restoredVersionUndoCursor = w := by
  obtain ⟨y, hy, hx'⟩ := redo_eq_some hc hx
  have hb : Backed C isProxy ctx x.redoing L T := { h.toBacked with }
  have ha' : Admissible C strict x.redoing w order :=
    ⟨ha.mergePolicy, ha.order, fun hs => { ha.noStrayFaults hs with }⟩
  obtain ⟨L', hL', hr, hgraph, -⟩ := hb.restores hstale hw ha' (hu ▸ hy)
  have hcursor : y.restoredVersionUndoCursor = w := hr.cursor.trans hu
  have hfirst : y.firstUndoVersion = x.firstUndoVersion := by
    rw [hr.firstUndoVersion]
    exact if_pos (.inr (.inl rfl))
  rw [hcursor, hfirst] at hx'
  split_ifs at hx' ⊢ <;> subst hx'
  all_goals
    exact ⟨⟨L', { hL' with }, hr.isRestoringContext, hr.isUndoing.trans h.notUndoing, rfl⟩, hgraph,
      rfl, rfl⟩

theorem Run.rests (h : Run C isProxy ctx strict x T) :
    (∃ L, Rests C isProxy ctx x L T) ∧ (strict → StaleFree x) := by
  induction h with
  | new => exact ⟨⟨_, .new ctx⟩, fun _ o i hi => by simp [Context.new] at hi⟩
  | step _ hs ih =>
    obtain ⟨⟨L, hL⟩, hstale⟩ := ih
    exact ⟨(hL.step hs).1, fun hstrict => hs.staleFree (hstale hstrict)⟩
  | newSession _ ih =>
    obtain ⟨⟨L, hL⟩, -⟩ := ih
    exact ⟨⟨L, hL.newSession⟩, fun _ o i hi => by simp [Context.newSession] at hi⟩
  | restore _ hw ha hx ih =>
    obtain ⟨⟨L, hL⟩, hstale⟩ := ih
    obtain ⟨L', hL', hr, hgraph, -⟩ := hL.restores hstale hw ha hx
    exact ⟨⟨L', hL', hr.isRestoringContext, hr.isUndoing.trans hL.notUndoing,
      hr.isRedoing.trans hL.notRedoing⟩, fun hstrict => (hgraph hstrict).2⟩
  | undo _ hw ha hu hx ih =>
    obtain ⟨⟨L, hL⟩, hstale⟩ := ih
    obtain ⟨hL', hgraph, -⟩ := hL.undo hstale hw ha hu hx
    exact ⟨hL', fun hstrict => (hgraph hstrict).2⟩
  | redo _ hw ha hc hu hx ih =>
    obtain ⟨⟨L, hL⟩, hstale⟩ := ih
    obtain ⟨hL', hgraph, -⟩ := hL.redo hstale hw ha hc hu hx
    exact ⟨hL', fun hstrict => (hgraph hstrict).2⟩

/-- Groups of the object `2`. -/
def addMember : ManagedClass (ObjectState ℕ Unit) ℕ Unit where
  accepts := fun m s => m ∉ s.children
  perform := fun _ m s => { s with children := s.children ++ [m] }

def grouped : Context ℕ Unit ℕ :=
  (((((Context.new 0).insertObject (fun _ => false) 1 ⟨(), [], []⟩).insertObject (fun _ => false) 2
    ⟨(), [], []⟩).callMutator addMember (fun _ => false) 100 2 1).getD (Context.new 0))

theorem run_grouped : ∃ T : Timeline ℕ (ObjectState ℕ Unit),
    Run addMember (fun _ => false) 0 True grouped T ∧
      T.view 1 = Function.update (fun _ => none) 1 (some ⟨(), [], []⟩) ∧
      T.view 2 = Function.update (T.view 1) 2 (some ⟨(), [], []⟩) := by
  have h₁ : Run addMember (fun _ => false) 0 True _ _ :=
    .step .new (.insert 1 ⟨(), [], []⟩ (by decide) (by decide))
  have h₂ := h₁.step (.insert 2 ⟨(), [], []⟩ (by decide) (by decide))
  have hcall : (((Context.new 0).insertObject (fun _ => false) 1 ⟨(), [], []⟩).insertObject
      (fun _ => false) 2 ⟨(), [], []⟩).callMutator addMember (fun _ => false) 100 2 1 =
      some grouped := rfl
  exact ⟨_, h₂.step (.call rfl hcall rfl (by decide) (by decide)), rfl, rfl⟩

theorem find_grouped : grouped.find 1 = some ((∅ : Dictionary ℕ ℤ).insert 1 0) ∧
    grouped.find 2 = some (((∅ : Dictionary ℕ ℤ).insert 2 0).insert 1 0) := by
  have h₁ : queryHistory grouped.history 0 1 = [⟨1, 0, 0, 1⟩] := rfl
  have h₂ : queryHistory grouped.history 0 2 = [⟨2, 0, 0, 2⟩, ⟨1, 0, 0, 1⟩] := rfl
  have hv : grouped.uuid = 0 ∧ grouped.version = 3 := ⟨rfl, rfl⟩
  unfold find findAllObjectVersionsMatchingContextVersion
  rw [hv.1, hv.2, h₁, h₂]
  simp only [scanRows, collectObjectVersionsRestoredByContextVersion, collectObjectVersion]
  exact ⟨rfl, rfl⟩

def loadedGroup : Context ℕ Unit ℕ :=
  (grouped.newSession.objectForUUID addMember (fun _ => false) 1).getD grouped

def mergingGroup : Context ℕ Unit ℕ := { grouped with mergePolicy := .existingChildren }

end Runs

end Context

end Etoile.CoreObject
