import Etoile.CoreObject.History

/-!
# Version lookup

`Logged` says which rows a context has in the `History` table, beside those of other contexts, and
which object versions made up each of its versions.  The scan finds these versions for any depth of
restore points that lead to restore points (`Logged.scansTo`), since a restore point only ever jumps
to rows that the restored version ends with (`Logged.jump`).
-/

namespace Etoile.CoreObject

open List

variable {U : Type*} [DecidableEq U] {uuid : U} {history : List (HistoryRow U)}
  {T : Timeline U ℤ}

/-- The table holds the rows of the context `uuid` whose versions are those of `T`. -/
inductive Logged (uuid : U) : List (HistoryRow U) → Timeline U ℤ → Prop
  | nil : Logged uuid [] .empty
  | other {history T row} : Logged uuid history T → row.contextUUID ≠ uuid →
      Logged uuid (history ++ [row]) T
  | message {history T o n} : Logged uuid history T → o ≠ uuid →
      Logged uuid (history ++ [⟨o, n, uuid, T.version + 1⟩]) (T.record o n)
  | restorePoint {history T rows w mr} : Logged uuid history T → w ≤ T.version →
      (∀ r ∈ rows, r.contextUUID = uuid ∧ r.contextVersion = (T.version : ℤ) + 1) →
      Versions rows mr →
      Logged uuid (history ++ (rows ++ [⟨uuid, w, uuid, T.version + 1⟩])) (T.restoreWith w mr)

theorem queryHistory_append (h₁ h₂ : List (HistoryRow U)) (v : ℤ) :
    queryHistory (h₁ ++ h₂) uuid v = queryHistory h₂ uuid v ++ queryHistory h₁ uuid v := by
  simp [queryHistory]

theorem queryHistory_append_other {row : HistoryRow U} (h : row.contextUUID ≠ uuid) (v : ℤ) :
    queryHistory (history ++ [row]) uuid v = queryHistory history uuid v := by
  simp [queryHistory, h]

theorem queryHistory_of_lt {rows : List (HistoryRow U)} {v : ℤ}
    (h : ∀ r ∈ rows, r.contextUUID = uuid → v < r.contextVersion) :
    queryHistory rows uuid v = [] := by
  simp only [queryHistory, reverse_eq_nil_iff, filter_eq_nil_iff, decide_eq_true_eq]
  intro r hr hq
  have := h r hr hq.1
  omega

theorem queryHistory_of_le {rows : List (HistoryRow U)} {v : ℤ}
    (h : ∀ r ∈ rows, r.contextUUID = uuid ∧ r.contextVersion ≤ v) :
    queryHistory rows uuid v = rows.reverse := by
  simp only [queryHistory, reverse_inj, filter_eq_self, decide_eq_true_eq]
  intro r hr
  have := h r hr
  exact ⟨this.1, by omega⟩

theorem mem_queryHistory {r : HistoryRow U} {v : ℤ} (h : r ∈ queryHistory history uuid v) :
    r ∈ history ∧ r.contextUUID = uuid ∧ r.contextVersion ≤ v := by
  simp only [queryHistory, mem_reverse, mem_filter, decide_eq_true_eq] at h
  exact ⟨h.1, h.2.1, by omega⟩

namespace Logged

theorem contextVersion_le (h : Logged uuid history T) :
    ∀ r ∈ history, r.contextUUID = uuid →
      1 ≤ r.contextVersion ∧ r.contextVersion ≤ T.version := by
  induction h with
  | nil => simp
  | other _ hrow ih =>
    intro r hr hc
    rcases mem_append.1 hr with hr | hr
    · exact ih r hr hc
    · exact absurd (mem_singleton.1 hr ▸ hc) hrow
  | message _ _ ih =>
    intro r hr hc
    rcases mem_append.1 hr with hr | hr
    · have := ih r hr hc
      simp only [Timeline.version_record]
      omega
    · simp only [mem_singleton] at hr
      subst hr
      simp only [Timeline.version_record]
      omega
  | restorePoint _ _ hrows _ ih =>
    intro r hr hc
    simp only [Timeline.version_restoreWith]
    rcases mem_append.1 hr with hr | hr
    · have := ih r hr hc
      omega
    · rcases mem_append.1 hr with hr | hr
      · have := (hrows r hr).2
        omega
      · simp only [mem_singleton] at hr
        subst hr
        dsimp only
        omega

theorem exists_contextVersion (h : Logged uuid history T) :
    T.version = 0 ∨ ∃ r ∈ history, r.contextUUID = uuid ∧ r.contextVersion = T.version := by
  induction h with
  | nil => exact .inl rfl
  | other _ _ ih =>
    refine ih.imp_right fun ⟨r, hr, hc⟩ => ⟨r, mem_append_left _ hr, hc⟩
  | message _ _ _ => exact .inr ⟨_, mem_append_right _ mem_cons_self, rfl, by simp⟩
  | @restorePoint _ T _ w _ _ _ _ _ _ =>
    refine .inr ⟨⟨uuid, w, uuid, T.version + 1⟩, ?_, rfl, ?_⟩
    · exact mem_append_right _ (mem_append_right _ mem_cons_self)
    · simp

theorem query_of_le (h : Logged uuid history T) {v : ℤ} (hv : T.version ≤ v) :
    queryHistory history uuid v = queryHistory history uuid T.version := by
  simp only [queryHistory, reverse_inj]
  refine filter_congr fun r hr => ?_
  by_cases hc : r.contextUUID = uuid
  · have := h.contextVersion_le r hr hc
    simp only [hc, true_and, decide_eq_decide]
    omega
  · simp [hc]

variable {rows : List (HistoryRow U)}

theorem query_append_of_le {n v : ℕ} (hv : v ≤ n)
    (hrows : ∀ r ∈ rows, r.contextUUID = uuid ∧ r.contextVersion = n + 1) :
    queryHistory (history ++ rows) uuid v = queryHistory history uuid v := by
  rw [queryHistory_append, queryHistory_of_lt, nil_append]
  intro r hr _
  have := (hrows r hr).2
  omega

theorem query_append_self (h : Logged uuid history T)
    (hrows : ∀ r ∈ rows, r.contextUUID = uuid ∧ r.contextVersion = T.version + 1) :
    queryHistory (history ++ rows) uuid (T.version + 1 : ℕ) =
      rows.reverse ++ queryHistory history uuid T.version := by
  rw [queryHistory_append, h.query_of_le (by omega), queryHistory_of_le]
  intro r hr
  have := hrows r hr
  exact ⟨this.1, by omega⟩

omit [DecidableEq U] in
theorem restoreRows_version {n : ℕ} (w : ℤ)
    (h : ∀ r ∈ rows, r.contextUUID = uuid ∧ r.contextVersion = (n : ℤ) + 1) :
    ∀ r ∈ rows ++ [⟨uuid, w, uuid, n + 1⟩],
      r.contextUUID = uuid ∧ r.contextVersion = (n : ℤ) + 1 := by
  intro r hr
  rcases mem_append.1 hr with hr | hr
  · exact h r hr
  · simp only [mem_singleton] at hr
    simp [hr]

/-- From a restore point the scan comes down to the rows the restored version ends with. -/
theorem jump (h : Logged uuid history T) {w : ℕ} (hw : w ≤ T.version) {m : U → Option ℤ}
    (hm : ScansTo uuid false (-1) (queryHistory history uuid w) m) :
    ScansTo uuid true w (queryHistory history uuid T.version) m := by
  induction h with
  | nil =>
    intro d
    simpa [queryHistory, scanRows] using hm d
  | other _ hrow ih =>
    rw [queryHistory_append_other hrow] at hm ⊢
    exact ih hw hm
  | @message history T o n h ho ih =>
    have hrows : ∀ r ∈ [(⟨o, n, uuid, T.version + 1⟩ : HistoryRow U)],
        r.contextUUID = uuid ∧ r.contextVersion = (T.version : ℤ) + 1 := by simp
    rw [Timeline.version_record] at hw ⊢
    rcases Nat.lt_or_ge T.version w with hlt | hge
    · obtain rfl : w = T.version + 1 := by omega
      rw [h.query_append_self hrows] at hm ⊢
      exact scansTo_arrive hm (by simp)
    · rw [query_append_of_le hge hrows] at hm
      rw [h.query_append_self hrows]
      refine scansTo_skip (ih hge hm) _ fun r hr => ?_
      have := (hrows r (by simpa using hr)).2
      omega
  | @restorePoint history T rows w' mr h _ hr _ ih =>
    have hrows := restoreRows_version w' hr
    rw [Timeline.version_restoreWith] at hw ⊢
    rcases Nat.lt_or_ge T.version w with hlt | hge
    · obtain rfl : w = T.version + 1 := by omega
      rw [h.query_append_self hrows, reverse_append] at hm ⊢
      exact scansTo_arrive hm (by simp)
    · rw [query_append_of_le hge hrows] at hm
      rw [h.query_append_self hrows]
      refine scansTo_skip (ih hge hm) _ fun r hr => ?_
      have := (hrows r (mem_reverse.1 hr)).2
      omega

theorem scansTo (h : Logged uuid history T) :
    ∀ v ≤ T.version, ScansTo uuid false (-1) (queryHistory history uuid v) (T.view v) := by
  induction h with
  | nil =>
    intro v hv
    obtain rfl : v = 0 := Nat.le_zero.1 hv
    simpa [queryHistory] using scansTo_nil false (-1)
  | other _ hrow ih =>
    intro v hv
    rw [queryHistory_append_other hrow]
    exact ih v hv
  | @message history T o n h ho ih =>
    have hrows : ∀ r ∈ [(⟨o, n, uuid, T.version + 1⟩ : HistoryRow U)],
        r.contextUUID = uuid ∧ r.contextVersion = (T.version : ℤ) + 1 := by simp
    intro v hv
    rw [Timeline.version_record] at hv
    rcases Nat.lt_or_ge T.version v with hlt | hge
    · obtain rfl : v = T.version + 1 := by omega
      rw [h.query_append_self hrows, Timeline.record, Timeline.view_push_self]
      exact scansTo_message rfl ho (ih _ le_rfl)
    · rw [query_append_of_le hge hrows, Timeline.record, Timeline.view_push_of_le hge]
      exact ih v hge
  | @restorePoint history T rows w mr h hw hr hmr ih =>
    have hrows := restoreRows_version w hr
    intro v hv
    rw [Timeline.version_restoreWith] at hv
    rcases Nat.lt_or_ge T.version v with hlt | hge
    · obtain rfl : v = T.version + 1 := by omega
      rw [h.query_append_self hrows, Timeline.restoreWith, Timeline.view_push_self,
        reverse_append, reverse_singleton, append_assoc, singleton_append]
      refine scansTo_restorePoint rfl rfl (Int.natCast_nonneg w) (fun r hr' => ?_)
        (fun r hr' => ?_) (fun o v => ?_) (h.jump hw (ih w hw))
      · exact (hr r (mem_reverse.1 hr')).2
      · have := (mem_queryHistory (mem_of_mem_head? hr')).2.2
        dsimp only
        omega
      · simpa using hmr o v
    · rw [query_append_of_le hge hrows, Timeline.restoreWith, Timeline.view_push_of_le hge]
      exact ih v hge

end Logged

end Etoile.CoreObject
