import Etoile.CoreObject.ContextRuns

/-!
# Undo and redo

`UndoRun` are the histories of a context beside the undo sequence they are in: the version it
started from and the number of undos not redone.  Undo and redo are restores and add versions
themselves; the sequence keeps the versions before it, and the cursor of the context is that many
versions before the start (`UndoSequence`).

`-undo` does not check that there is a version left, and a restore ends the sequence only if it has
an object to restore.  The histories are those where neither comes up.
-/

namespace Etoile.CoreObject

open Function Option

namespace Context

variable {U P μ : Type} [DecidableEq U]

def RestoresObject (x : Context U P μ) (aVersion : ℤ) : Prop :=
  ∃ found o n, x.find aVersion = some found ∧ found.lookup o = some n ∧ n ≠ x.metadata o

/-- The undo sequence with `d` undos not redone. -/
def sequence (V d : ℕ) : Option (ℕ × ℕ) := if d = 0 then none else some (V, d)

inductive UndoRun (C : ManagedClass (ObjectState U P) μ Unit) (isProxy : U → Bool) (ctx : U)
    (strict : Prop) : Context U P μ → Timeline U (ObjectState U P) → Option (ℕ × ℕ) → Prop
  | new : UndoRun C isProxy ctx strict (.new ctx) .empty none
  | step {x x' : Context U P μ} {T T' seq} : UndoRun C isProxy ctx strict x T seq →
      Step C isProxy x T x' T' →
      UndoRun C isProxy ctx strict x' T' (if x'.version = x.version then seq else none)
  | newSession {x T seq} : UndoRun C isProxy ctx strict x T seq →
      UndoRun C isProxy ctx strict x.newSession T none
  | restore {x x' T seq} {w : ℕ} {order : List U} : UndoRun C isProxy ctx strict x T seq →
      w < x.version → Admissible C strict x w order → seq = none ∨ x.RestoresObject w →
      x.restoreToVersion C isProxy w order = some x' →
      UndoRun C isProxy ctx strict x' (T.restore w) none
  | undo {x x' T seq} {V d : ℕ} {order : List U} : UndoRun C isProxy ctx strict x T seq →
      seq.getD (T.version, 0) = (V, d) → d < V → Admissible C strict x x.undoVersion order →
      x.undo C isProxy order = some x' →
      UndoRun C isProxy ctx strict x' (T.restore (V - (d + 1))) (sequence V (d + 1))
  | redo {x x' T} {V d : ℕ} {order : List U} : UndoRun C isProxy ctx strict x T (some (V, d + 1)) →
      Admissible C strict x (x.restoredVersionUndoCursor + 1) order →
      x.redo C isProxy order = some x' →
      UndoRun C isProxy ctx strict x' (T.restore (V - d)) (sequence V d)

variable {C : ManagedClass (ObjectState U P) μ Unit} {isProxy : U → Bool} {x x' : Context U P μ}
  {L : ContextLog U (ObjectState U P)} {ctx : U} {strict : Prop}
  {T : Timeline U (ObjectState U P)} {seq : Option (ℕ × ℕ)}

def UndoSequence (x : Context U P μ) (T : Timeline U (ObjectState U P)) :
    Option (ℕ × ℕ) → Prop
  | none => x.firstUndoVersion = -1
  | some (V, d) => x.firstUndoVersion = V + 1 ∧ x.restoredVersionUndoCursor = V - d ∧
      0 < d ∧ d ≤ V ∧ V < T.version ∧ T.current = T.view (V - d)

namespace UndoSequence

variable {V d : ℕ}

omit [DecidableEq U] in
theorem position (h : UndoSequence x T seq) (hx : x.version = T.version)
    (hseq : seq.getD (T.version, 0) = (V, d)) :
    seq = sequence V d ∧ x.undoVersion = V - d - 1 ∧ d ≤ V ∧ V ≤ T.version ∧
      T.current = T.view (V - d) ∧ x.undoing.firstUndoVersion = V + 1 := by
  rcases seq with _ | ⟨W, e⟩
  · obtain ⟨rfl, rfl⟩ := Prod.mk.inj hseq
    have hfirst : x.firstUndoVersion = -1 := h
    refine ⟨rfl, ?_, Nat.zero_le _, le_rfl, rfl, ?_⟩
    · unfold undoVersion
      rw [if_pos hfirst, hx]
      simp
    · unfold undoing
      rw [if_pos hfirst, hx]
  · obtain ⟨rfl, rfl⟩ := Prod.mk.inj hseq
    obtain ⟨hfirst, hcursor, hpos, hle, hlt, hcur⟩ := h
    have hne : x.firstUndoVersion ≠ -1 := by omega
    refine ⟨(if_neg hpos.ne').symm, ?_, hle, hlt.le, hcur, ?_⟩
    · unfold undoVersion
      rw [if_neg hne, hcursor]
    · unfold undoing
      rw [if_neg hne, hfirst]

omit [DecidableEq U] in
theorem canRedo_iff (h : UndoSequence x T (sequence V d)) : x.canRedo ↔ d ≠ 0 := by
  unfold sequence at h
  unfold canRedo
  split_ifs at h with hd
  · have hfirst : x.firstUndoVersion = -1 := h
    simp [hfirst, hd]
  · have hfirst : x.firstUndoVersion = V + 1 := h.1
    simp only [ne_eq, hd, not_false_eq_true, iff_true, hfirst]
    omega

end UndoSequence

theorem Rests.undo_sequence (h : Rests C isProxy ctx x L T) (hstale : strict → StaleFree x)
    (hs : UndoSequence x T seq) {V d : ℕ} (hseq : seq.getD (T.version, 0) = (V, d)) (hd : d < V)
    {order : List U} (ha : Admissible C strict x x.undoVersion order)
    (hx : x.undo C isProxy order = some x') :
    (∃ L', Rests C isProxy ctx x' L' (T.restore (V - (d + 1)))) ∧
      (strict → (∀ o, (x'.registered o).isSome → (T.view (V - (d + 1)) o).isSome) ∧
        StaleFree x') ∧
      UndoSequence x' (T.restore (V - (d + 1))) (sequence V (d + 1)) := by
  have hver := h.version_eq
  obtain ⟨-, hu, -, hV, -, hfirst⟩ := hs.position hver hseq
  have hu' : x.undoVersion = ((V - (d + 1) : ℕ) : ℤ) := by omega
  rw [hu'] at ha
  obtain ⟨hL', hgraph, hf, hc⟩ := h.undo hstale (by omega) ha hu' hx
  refine ⟨hL', hgraph, ?_⟩
  rw [sequence, if_neg (by omega)]
  refine ⟨hf.trans hfirst, by rw [hc]; omega, by omega, by omega, ?_, ?_⟩
  · rw [Timeline.version_restore]
    omega
  · rw [Timeline.current_restore]
    exact (Timeline.view_push_of_le (by omega)).symm

theorem Rests.redo_sequence (h : Rests C isProxy ctx x L T) (hstale : strict → StaleFree x)
    {V d : ℕ} (hs : UndoSequence x T (some (V, d + 1))) {order : List U}
    (ha : Admissible C strict x (x.restoredVersionUndoCursor + 1) order)
    (hx : x.redo C isProxy order = some x') :
    (∃ L', Rests C isProxy ctx x' L' (T.restore (V - d))) ∧
      (strict → (∀ o, (x'.registered o).isSome → (T.view (V - d) o).isSome) ∧ StaleFree x') ∧
      UndoSequence x' (T.restore (V - d)) (sequence V d) := by
  have hver := h.version_eq
  obtain ⟨hfirst, hcursor, -, hle, hlt, -⟩ := hs
  have hu : x.restoredVersionUndoCursor + 1 = ((V - d : ℕ) : ℤ) := by omega
  have hc : x.canRedo := by
    unfold canRedo
    omega
  rw [hu] at ha
  obtain ⟨hL', hgraph, hf, hc'⟩ := h.redo hstale (by omega) ha hc hu hx
  refine ⟨hL', hgraph, ?_⟩
  unfold sequence
  split_ifs with hd
  · subst hd
    rw [if_pos (by omega)] at hf
    exact hf
  · rw [if_neg (by omega)] at hf
    refine ⟨hf.trans hfirst, by rw [hc']; omega, by omega, by omega, ?_, ?_⟩
    · rw [Timeline.version_restore]
      omega
    · rw [Timeline.current_restore]
      exact (Timeline.view_push_of_le (by omega)).symm

theorem UndoRun.rests (h : UndoRun C isProxy ctx strict x T seq) :
    (∃ L, Rests C isProxy ctx x L T) ∧ (strict → StaleFree x) ∧ UndoSequence x T seq := by
  induction h with
  | new => exact ⟨⟨_, .new ctx⟩, fun _ o i hi => by simp [Context.new] at hi, rfl⟩
  | @step x x' T T' seq _ hs ih =>
    obtain ⟨⟨L, hL⟩, hstale, hseq⟩ := ih
    obtain ⟨hL', hundo⟩ := hL.step hs
    refine ⟨hL', fun hstrict => hs.staleFree (hstale hstrict), ?_⟩
    rcases hundo with ⟨hv, hf⟩ | ⟨rfl, hv, hf, hc⟩
    · rw [if_neg (by omega)]
      exact hf
    · rw [if_pos hv]
      rcases seq with _ | ⟨V, d⟩
      · exact hf.trans hseq
      · exact ⟨hf.trans hseq.1, hc.trans hseq.2.1, hseq.2.2⟩
  | newSession _ ih =>
    obtain ⟨⟨L, hL⟩, -, -⟩ := ih
    exact ⟨⟨L, hL.newSession⟩, fun _ o i hi => by simp [Context.newSession] at hi, rfl⟩
  | @restore x x' T seq w order _ hw ha hends hx ih =>
    obtain ⟨⟨L, hL⟩, hstale, hseq⟩ := ih
    obtain ⟨L', hL', hr, hgraph, hrows⟩ := hL.restores hstale hw ha hx
    refine ⟨⟨L', hL', hr.isRestoringContext, hr.isUndoing.trans hL.notUndoing,
      hr.isRedoing.trans hL.notRedoing⟩, fun hstrict => (hgraph hstrict).2, ?_⟩
    show x'.firstUndoVersion = -1
    rw [hr.firstUndoVersion, hL.notUndoing, hL.notRedoing]
    rcases hends with rfl | ⟨found, o, n, hd, hn, hne⟩
    · have hfirst : x.firstUndoVersion = -1 := hseq
      simp [hfirst]
    · -- an object was restored, and its row ends the sequence
      have hlen : x'.history.length ≠ x.history.length + 1 :=
        fun hlen => hne (hrows hlen found o n hd hn)
      simp [hlen]
  | undo _ hseq hd ha hx ih =>
    obtain ⟨⟨L, hL⟩, hstale, hs⟩ := ih
    obtain ⟨hL', hgraph, hs'⟩ := hL.undo_sequence hstale hs hseq hd ha hx
    exact ⟨hL', fun hstrict => (hgraph hstrict).2, hs'⟩
  | redo _ ha hx ih =>
    obtain ⟨⟨L, hL⟩, hstale, hs⟩ := ih
    obtain ⟨hL', hgraph, hs'⟩ := hL.redo_sequence hstale hs ha hx
    exact ⟨hL', fun hstrict => (hgraph hstrict).2, hs'⟩

/-- `k` undos in a row. -/
inductive Undone (C : ManagedClass (ObjectState U P) μ Unit) (isProxy : U → Bool)
    (strict : Prop) : ℕ → Context U P μ → Context U P μ → Prop
  | zero {x : Context U P μ} : Undone C isProxy strict 0 x x
  | succ {k : ℕ} {x y z : Context U P μ} {order : List U} : Undone C isProxy strict k x y →
      Admissible C strict y y.undoVersion order → y.undo C isProxy order = some z →
      Undone C isProxy strict (k + 1) x z

/-- `k` redos in a row. -/
inductive Redone (C : ManagedClass (ObjectState U P) μ Unit) (isProxy : U → Bool)
    (strict : Prop) : ℕ → Context U P μ → Context U P μ → Prop
  | zero {x : Context U P μ} : Redone C isProxy strict 0 x x
  | succ {k : ℕ} {x y z : Context U P μ} {order : List U} : Redone C isProxy strict k x y →
      Admissible C strict y (y.restoredVersionUndoCursor + 1) order →
      y.redo C isProxy order = some z → Redone C isProxy strict (k + 1) x z

/-- The context is at the graph `g`: its objects are last stored in their states there and loaded
in no other, and where `tight` holds no other object is loaded. -/
def Shows (C : ManagedClass (ObjectState U P) μ Unit) (tight : Prop) (x : Context U P μ)
    (g : U → Option (ObjectState U P)) : Prop :=
  (∀ o s, g o = some s → x.lastState C o = some s ∧ ∀ i, x.registered o = some i → i.state = s) ∧
    (tight → ∀ o, (x.registered o).isSome → (g o).isSome)

/-- The run `T'` is in the sequence that started at version `V` of the run `T`, `n` undos back. -/
structure Continues (T T' : Timeline U (ObjectState U P)) (V n : ℕ) : Prop where
  start : n = 0 → V ≤ T'.version
  views : ∀ v ≤ V, T'.view v = T.view v
  current : T'.current = T.view (V - n)

variable {y z : Context U P μ} {V d k j : ℕ}

theorem UndoRun.undone (h : UndoRun C isProxy ctx strict x T seq)
    (hseq : seq.getD (T.version, 0) = (V, d)) (hu : Undone C isProxy strict k x y)
    (hk : d + k ≤ V) :
    ∃ T' seq', UndoRun C isProxy ctx strict y T' seq' ∧
      seq'.getD (T'.version, 0) = (V, d + k) ∧ Continues T T' V (d + k) ∧
      (strict → 0 < k → ∀ o, (y.registered o).isSome → (T.view (V - (d + k)) o).isSome) := by
  induction hu with
  | zero =>
    obtain ⟨⟨L, hL⟩, -, hs⟩ := h.rests
    obtain ⟨-, -, -, hV, hcur, -⟩ := hs.position hL.version_eq hseq
    exact ⟨T, seq, h, hseq, ⟨fun _ => hV, fun _ _ => rfl, hcur⟩, fun _ hk => absurd hk (by omega)⟩
  | @succ k x y z order hu ha hz ih =>
    obtain ⟨T', seq', h', hseq', hT', -⟩ := ih h (by omega)
    obtain ⟨⟨L, hL⟩, hstale, hs⟩ := h'.rests
    obtain ⟨-, -, -, hV, -, -⟩ := hs.position hL.version_eq hseq'
    have hlt : d + k < V := by omega
    obtain ⟨-, hgraph, -⟩ := hL.undo_sequence hstale hs hseq' hlt ha hz
    refine ⟨_, _, h'.undo hseq' hlt ha hz, ?_, ?_, fun hstrict _ => ?_⟩
    · rw [sequence, if_neg (by omega)]
      rfl
    · refine ⟨fun h0 => by omega, fun v hv => ?_, ?_⟩
      · rw [← hT'.views v hv]
        exact Timeline.view_push_of_le (by omega)
      · rw [Timeline.current_restore]
        exact hT'.views _ (by omega)
    · rw [← hT'.views _ (by omega)]
      exact (hgraph hstrict).1

theorem UndoRun.redone {n : ℕ} {T₀ : Timeline U (ObjectState U P)}
    (h : UndoRun C isProxy ctx strict x T seq) (hseq : seq = sequence V n)
    (hT : Continues T₀ T V n) (hr : Redone C isProxy strict j x y) (hj : j ≤ n) :
    ∃ T', UndoRun C isProxy ctx strict y T' (sequence V (n - j)) ∧ Continues T₀ T' V (n - j) ∧
      (strict → 0 < j → ∀ o, (y.registered o).isSome → (T₀.view (V - (n - j)) o).isSome) := by
  induction hr with
  | zero => exact ⟨T, hseq ▸ h, hT, fun _ hj => absurd hj (by omega)⟩
  | @succ j x y z order hr ha hz ih =>
    obtain ⟨T', h', hT', -⟩ := ih h (by omega)
    have hpos : n - j = (n - (j + 1)) + 1 := by omega
    rw [hpos, sequence, if_neg (by omega)] at h'
    obtain ⟨⟨L, hL⟩, hstale, hs⟩ := h'.rests
    have hV : V < T'.version := hs.2.2.2.2.1
    obtain ⟨-, hgraph, -⟩ := hL.redo_sequence hstale hs ha hz
    refine ⟨_, h'.redo ha hz, ?_, fun hstrict _ => ?_⟩
    · refine ⟨fun _ => ?_, fun v hv => ?_, ?_⟩
      · rw [Timeline.version_restore]
        omega
      · rw [← hT'.views v hv]
        exact Timeline.view_push_of_le (by omega)
      · rw [Timeline.current_restore]
        exact hT'.views _ (by omega)
    · rw [← hT'.views _ (by omega)]
      exact (hgraph hstrict).1

theorem UndoRun.shows (h : UndoRun C isProxy ctx strict x T seq) {tight : Prop}
    {g : U → Option (ObjectState U P)} (hcur : T.current = g)
    (hg : tight → ∀ o, (x.registered o).isSome → (g o).isSome) : Shows C tight x g := by
  obtain ⟨⟨L, hL⟩, -, -⟩ := h.rests
  exact ⟨fun o s hs => hL.graph (hcur ▸ hs), hg⟩

theorem Backed.exists_restore (h : Backed C isProxy ctx x L T) (strict : Prop)
    (hstale : StaleFree x) {w : ℕ} (hpol : x.mergePolicy = .oldChildren) (hw : w < x.version)
    (hns : NoStrayFaults C x (T.view w))
    (hp : ProxiesLoaded isProxy (fun o => (T.view w o).isSome) x) :
    ∃ order x', Admissible C strict x w order ∧
      x.restoreToVersion C isProxy w order = some x' := by
  have hle : w ≤ T.version := by
    have := h.version_eq
    omega
  obtain ⟨found, hf, -⟩ := h.find hle
  obtain ⟨x', hx'⟩ := (h.restore_settled hpol hw hf (List.Perm.refl _) hstale hns).2 hp
  refine ⟨found.keys, x', ⟨hpol, fun d hd => ?_, fun _ => ?_⟩, hx'⟩
  · rw [some.inj (hd.symm.trans hf)]
  · rw [h.graphAt_eq hle]
    exact hns

theorem UndoRun.exists_undo (h : UndoRun C isProxy ctx strict x T seq)
    (hseq : seq.getD (T.version, 0) = (V, d)) (hd : d < V) (hstrict : strict)
    (hpol : x.mergePolicy = .oldChildren) (hns : NoStrayFaults C x (T.view (V - (d + 1))))
    (hp : ProxiesLoaded isProxy (fun o => (T.view (V - (d + 1)) o).isSome) x) :
    ∃ order x', Admissible C strict x x.undoVersion order ∧
      x.undo C isProxy order = some x' := by
  obtain ⟨⟨L, hL⟩, hstale, hs⟩ := h.rests
  have hver := hL.version_eq
  obtain ⟨-, hu, -, hV, -, -⟩ := hs.position hver hseq
  have hu' : x.undoVersion = ((V - (d + 1) : ℕ) : ℤ) := by omega
  have hb : Backed C isProxy ctx x.undoing L T := { hL.toBacked with }
  obtain ⟨order, y, ha, hy⟩ := hb.exists_restore strict (hstale hstrict) hpol
    (show ((V - (d + 1) : ℕ) : ℤ) < x.version by omega) { hns with } hp
  rw [← hu'] at ha hy
  refine ⟨order, { y with isUndoing := false },
    ⟨ha.mergePolicy, ha.order, fun hs => { ha.noStrayFaults hs with }⟩, ?_⟩
  unfold undoing undoVersion at hy
  unfold Context.undo
  simp only [bind_eq_bind, bind_eq_some_iff, some.injEq]
  refine ⟨y, ?_, rfl⟩
  split_ifs at hy ⊢ <;> exact hy

theorem UndoRun.exists_redo (h : UndoRun C isProxy ctx strict x T (some (V, d + 1)))
    (hstrict : strict) (hpol : x.mergePolicy = .oldChildren)
    (hns : NoStrayFaults C x (T.view (V - d)))
    (hp : ProxiesLoaded isProxy (fun o => (T.view (V - d) o).isSome) x) :
    ∃ order x', Admissible C strict x (x.restoredVersionUndoCursor + 1) order ∧
      x.redo C isProxy order = some x' := by
  obtain ⟨⟨L, hL⟩, hstale, hs⟩ := h.rests
  have hver := hL.version_eq
  obtain ⟨hfirst, hcursor, -, hle, hlt, -⟩ := hs
  have hu : x.restoredVersionUndoCursor + 1 = ((V - d : ℕ) : ℤ) := by omega
  have hc : x.canRedo := by
    unfold canRedo
    omega
  have hb : Backed C isProxy ctx x.redoing L T := { hL.toBacked with }
  obtain ⟨order, y, ha, hy⟩ := hb.exists_restore strict (hstale hstrict) hpol
    (show ((V - d : ℕ) : ℤ) < x.version by omega) { hns with } hp
  rw [← hu] at ha hy
  have hy' : ∃ x', x.redo C isProxy order = some x' := by
    unfold Context.redo
    rw [if_neg (not_not.2 hc)]
    exact ⟨_, bind_eq_some_iff.2 ⟨y, hy, rfl⟩⟩
  obtain ⟨x', hx'⟩ := hy'
  exact ⟨order, x', ⟨ha.mergePolicy, ha.order, fun hs => { ha.noStrayFaults hs with }⟩, hx'⟩

theorem UndoRun.ended (h : UndoRun C isProxy ctx strict x T none) : ¬ x.canRedo := by
  obtain ⟨-, -, hs⟩ := h.rests
  exact not_not.2 hs

theorem undo_redo (h : UndoRun C isProxy ctx strict x T seq)
    (hseq : seq.getD (T.version, 0) = (V, d)) (hu : Undone C isProxy strict k x y)
    (hk : d + k ≤ V) :
    x.version = T.version ∧ y.undoVersion = V - (d + k) - 1 ∧
      Shows C (strict ∧ 0 < k) y (T.view (V - (d + k))) ∧
      (∀ j z, j ≤ d + k → Redone C isProxy strict j y z →
        (z.canRedo ↔ j < d + k) ∧ Shows C (strict ∧ 0 < k + j) z (T.view (V - (d + k) + j))) ∧
      (strict → y.mergePolicy = .oldChildren →
        (d + k < V → NoStrayFaults C y (T.view (V - (d + k + 1))) →
          ProxiesLoaded isProxy (fun o => (T.view (V - (d + k + 1)) o).isSome) y →
          ∃ order z, Admissible C strict y y.undoVersion order ∧
            y.undo C isProxy order = some z) ∧
        (0 < d + k → NoStrayFaults C y (T.view (V - (d + k) + 1)) →
          ProxiesLoaded isProxy (fun o => (T.view (V - (d + k) + 1) o).isSome) y →
          ∃ order z, Admissible C strict y (y.restoredVersionUndoCursor + 1) order ∧
            y.redo C isProxy order = some z)) ∧
      (∀ x' T', Step C isProxy x T x' T' → x'.version ≠ x.version → ¬ x'.canRedo) ∧
      ∀ (w : ℕ) order x', w < x.version → Admissible C strict x w order →
        seq = none ∨ x.RestoresObject w → x.restoreToVersion C isProxy w order = some x' →
        ¬ x'.canRedo := by
  obtain ⟨T', seq', h', hseq', hT', htight⟩ := h.undone hseq hu hk
  obtain ⟨⟨L, hL⟩, -, hs⟩ := h'.rests
  obtain ⟨hsequence, hv, -, -, -, -⟩ := hs.position hL.version_eq hseq'
  obtain ⟨⟨L₀, hL₀⟩, -, -⟩ := h.rests
  refine ⟨hL₀.version_eq, ?_, h'.shows hT'.current fun ht => htight ht.1 ht.2, fun j z hj hr => ?_,
    fun hstrict hpol => ⟨fun hlt hns hp => ?_, fun hpos hns hp => ?_⟩, fun x' T' hstep hne => ?_,
    fun w order x' hw ha hends hx => (h.restore hw ha hends hx).ended⟩
  · push_cast at hv
    exact hv
  · obtain ⟨T'', h'', hT'', htight'⟩ := h'.redone hsequence hT' hr hj
    obtain ⟨-, -, hs'⟩ := h''.rests
    have hview : V - (d + k) + j = V - (d + k - j) := by omega
    rw [hview]
    refine ⟨hs'.canRedo_iff.trans (by omega), h''.shows hT''.current fun ht => ?_⟩
    rcases Nat.eq_zero_or_pos j with rfl | hpos
    · cases hr
      exact htight ht.1 ht.2
    · exact htight' ht.1 hpos
  · rw [← hT'.views _ (by omega)] at hns hp
    exact h'.exists_undo hseq' hlt hstrict hpol hns hp
  · have hsucc : d + k = d + k - 1 + 1 := by omega
    rw [hsequence, hsucc, sequence, if_neg (by omega)] at h'
    have hview : V - (d + k) + 1 = V - (d + k - 1) := by omega
    rw [hview, ← hT'.views _ (by omega)] at hns hp
    exact h'.exists_redo hstrict hpol hns hp
  · have hx' := h.step hstep
    rw [if_neg hne] at hx'
    exact hx'.ended

theorem undoRun_grouped : ∃ T : Timeline ℕ (ObjectState ℕ Unit),
    UndoRun addMember (fun _ => false) 0 True grouped T none ∧ T.version = 3 ∧
      T.view 2 = update (update (fun _ => none) 1 (some ⟨(), [], []⟩)) 2
        (some ⟨(), [], []⟩) ∧
      T.view 3 = update (T.view 2) 1 (some ⟨(), [2], []⟩) := by
  have h₁ : UndoRun addMember (fun _ => false) 0 True _ _ none :=
    UndoRun.new.step (.insert 1 ⟨(), [], []⟩ (by decide) (by decide))
  have h₂ := h₁.step (.insert 2 ⟨(), [], []⟩ (by decide) (by decide))
  have hcall : (((Context.new 0).insertObject (fun _ => false) 1 ⟨(), [], []⟩).insertObject
      (fun _ => false) 2 ⟨(), [], []⟩).callMutator addMember (fun _ => false) 100 2 1 =
      some grouped := rfl
  exact ⟨_, h₂.step (.call rfl hcall rfl (by decide) (by decide)), rfl, rfl, rfl⟩

/-- The object is removed from the group by an undo. -/
theorem undo_redo_grouped :
    ∃ (T : Timeline ℕ (ObjectState ℕ Unit)) (y : Context ℕ Unit ℕ),
      UndoRun addMember (fun _ => false) 0 True grouped T none ∧
      Undone addMember (fun _ => false) True 1 grouped y ∧ y.canRedo ∧
      Shows addMember True y (T.view 2) := by
  obtain ⟨T, h, hT, hv, -⟩ := undoRun_grouped
  have hseq : (none : Option (ℕ × ℕ)).getD (T.version, 0) = (3, 0) := by
    rw [hT]
    rfl
  have hin : ∀ o, (T.view 2 o).isSome ↔ o = 1 ∨ o = 2 := fun o => by
    rw [hv]
    by_cases h₂ : o = 2 <;> by_cases h₁ : o = 1 <;> simp [update, h₁, h₂]
  have hns : NoStrayFaults addMember grouped (T.view (3 - (0 + 0 + 1))) := by
    refine ⟨fun o s hs m hm => ?_, fun o i ho hi m hm hf => ?_, fun o s ho hn => ?_⟩
    · rcases (hin o).1 (isSome_of_eq_some hs) with rfl | rfl
      all_goals
        obtain rfl : _ = s := by simpa [hv] using hs
        simp [ObjectState.members] at hm
    · rcases (hin o).1 ho with rfl | rfl
      · obtain rfl : _ = i := some.inj (hi.symm.trans rfl).symm
        obtain rfl : m = 2 := by simpa using (show m ∈ [2] from hm)
        cases hf
      · obtain rfl : _ = i := some.inj (hi.symm.trans rfl).symm
        cases (show m ∈ [] from hm)
    · rcases (hin o).1 ho with rfl | rfl <;> cases hn
  obtain ⟨-, -, -, -, htotal, -⟩ := undo_redo h hseq .zero (by decide)
  obtain ⟨order, y, ha, hy⟩ :=
    (htotal trivial rfl).1 (by decide) hns fun _ _ hp => by simp at hp
  have hu := Undone.zero.succ ha hy
  obtain ⟨-, -, hshows, hredone, -⟩ := undo_redo h hseq hu (by decide)
  exact ⟨T, y, h, hu, (hredone 0 y (by decide) .zero).1.2 (by decide),
    hshows.1, fun _ => hshows.2 ⟨trivial, by decide⟩⟩

def inserted : Context ℕ Unit ℕ := (Context.new 0).insertObject (fun _ => false) 1 ⟨(), [], []⟩

theorem find_empty {x : Context ℕ Unit ℕ} {aVersion : ℤ}
    (hrows : queryHistory x.history x.uuid aVersion = []) : x.find aVersion = some ∅ := by
  unfold find findAllObjectVersionsMatchingContextVersion
  rw [hrows]
  simp only [scanRows]
  split_ifs <;> rfl

/-- A restore that only discards objects does not end the undo sequence, and `-undo` is not refused
in the first version. -/
theorem undo_redo_ne :
    (∃ (T : Timeline ℕ (ObjectState ℕ Unit)) (x x' : Context ℕ Unit ℕ),
      UndoRun addMember (fun _ => false) 0 True inserted T none ∧
      inserted.undo addMember (fun _ => false) [] = some x ∧
      x.restoreToVersion addMember (fun _ => false) 0 [] = some x' ∧
      x'.version = x.version + 1 ∧ x'.canRedo) ∧
    ∃ x' : Context ℕ Unit ℕ,
      UndoRun addMember (fun _ => false) 0 True (Context.new 0 : Context ℕ Unit ℕ) .empty none ∧
      (Context.new 0).undo addMember (fun _ => false) [] = some x' ∧
      x'.history = [⟨0, -1, 0, 1⟩] := by
  refine ⟨?_, ?_⟩
  · have h : UndoRun addMember (fun _ => false) 0 True inserted _ none :=
      UndoRun.new.step (.insert 1 ⟨(), [], []⟩ (by decide) (by decide))
    have hx := (restoreToVersion_of_find addMember (fun _ => false) (x := inserted.undoing)
      (w := 0) (by decide) (find_empty rfl) []).trans rfl
    have hundo : inserted.undo addMember (fun _ => false) [] = _ :=
      bind_eq_some_iff.2 ⟨_, hx, rfl⟩
    exact ⟨_, _, _, h, hundo, (restoreToVersion_of_find addMember (fun _ => false) (by decide)
      (find_empty rfl) []).trans rfl, by decide, by decide⟩
  · have hx := (restoreToVersion_of_find addMember (fun _ => false)
      (x := (Context.new 0 : Context ℕ Unit ℕ).undoing) (w := -1) (by decide) (find_empty rfl)
      []).trans rfl
    exact ⟨_, .new, bind_eq_some_iff.2 ⟨_, hx, rfl⟩, rfl⟩

end Context

end Etoile.CoreObject
