import Mathlib.Data.List.AList
import Mathlib.Algebra.Order.Ring.Int
import Etoile.Lib.Timeline

/-!
# The history of an object context

The metadata server keeps one `History` table for all the contexts.  A recorded change logs one
row; a restore logs one row for each object it brings back and then the restore point itself, a row
whose object is the context and whose object version is the context version restored.

`findAllObjectVersionsMatchingContextVersion` reads the rows of a context backward and jumps from
a restore point to the version it restored.
-/

namespace Etoile.CoreObject

open Function List

/-- A row of the `History` table; the table lists its rows by `globalVersion`. -/
structure HistoryRow (U : Type*) where
  objectUUID : U
  objectVersion : ℤ
  contextUUID : U
  contextVersion : ℤ
  deriving Repr, DecidableEq

/-- An `NSDictionary`. -/
abbrev Dictionary (K V : Type*) := AList fun _ : K => V

namespace Dictionary

variable {K V : Type*} [DecidableEq K]

def objectForKey (d : Dictionary K V) (k : K) : Option V := d.lookup k

@[simp] theorem objectForKey_empty (k : K) : objectForKey (∅ : Dictionary K V) k = none := rfl

@[simp] theorem objectForKey_insert_self (d : Dictionary K V) (k : K) (v : V) :
    objectForKey (d.insert k v) k = some v := AList.lookup_insert d

theorem objectForKey_insert_of_ne (d : Dictionary K V) {k k' : K} (v : V) (h : k' ≠ k) :
    objectForKey (d.insert k v) k' = objectForKey d k' := AList.lookup_insert_ne h

theorem isSome_objectForKey {d : Dictionary K V} {k : K} :
    (objectForKey d k).isSome ↔ k ∈ d := AList.lookup_isSome

end Dictionary

variable {U : Type*} [DecidableEq U]

/-- `SELECT … WHERE contextUUID = uuid AND contextVersion < aVersion + 1 ORDER BY globalVersion
DESC` -/
def queryHistory (history : List (HistoryRow U)) (uuid : U) (aVersion : ℤ) :
    List (HistoryRow U) :=
  (history.filter fun r => r.contextUUID = uuid ∧ r.contextVersion < aVersion + 1).reverse

/-- Collects an object version unless a later one is already found. -/
def collectObjectVersion (d : Dictionary U ℤ) (row : HistoryRow U) : Dictionary U ℤ :=
  if row.objectUUID ∈ d then d else d.insert row.objectUUID row.objectVersion

/-- The loop of `-collectObjectVersionsRestoredByContextVersion:…`: the rows left after the
restore rows of version `aVersion`, and the versions these add. -/
def collectRestoreRows (aVersion : ℤ) :
    List (HistoryRow U) → Dictionary U ℤ → List (HistoryRow U) × Dictionary U ℤ
  | [], d => ([], d)
  | row :: rows, d =>
    if row.contextVersion = aVersion then
      collectRestoreRows aVersion rows (collectObjectVersion d row)
    else (row :: rows, d)

/-- Returns the restored version with what is left to scan, or `-1` with nothing changed when `row`
is no restore point. -/
def collectObjectVersionsRestoredByContextVersion (aVersion : ℤ) (row : HistoryRow U)
    (rows : List (HistoryRow U)) (d : Dictionary U ℤ) :
    ℤ × List (HistoryRow U) × Dictionary U ℤ :=
  if row.objectUUID = row.contextUUID ∧ aVersion = row.contextVersion then
    (row.objectVersion, collectRestoreRows aVersion rows d)
  else (-1, row :: rows, d)

theorem collectRestoreRows_length_le (aVersion : ℤ) :
    ∀ (rows : List (HistoryRow U)) (d : Dictionary U ℤ),
      (collectRestoreRows aVersion rows d).1.length ≤ rows.length
  | [], d => le_rfl
  | row :: rows, d => by
    simp only [collectRestoreRows]
    split
    · exact (collectRestoreRows_length_le aVersion rows _).trans (Nat.le_succ _)
    · exact le_rfl

theorem collectObjectVersionsRestored_length_le {aVersion : ℤ} {row : HistoryRow U}
    {rows : List (HistoryRow U)} {d : Dictionary U ℤ}
    (h : (collectObjectVersionsRestoredByContextVersion aVersion row rows d).1 ≠ -1) :
    (collectObjectVersionsRestoredByContextVersion aVersion row rows d).2.1.length
      ≤ rows.length := by
  unfold collectObjectVersionsRestoredByContextVersion at h ⊢
  split
  · exact collectRestoreRows_length_le _ _ _
  · rename_i hn
    exact absurd (if_neg hn ▸ rfl) h

/-- The scan of the query result; `none` is the assertion that a restore point was taken for a
logged message. -/
def scanRows (uuid : U) (isTraversingRestorePoint : Bool) (restoredCtxtVersion : ℤ) :
    List (HistoryRow U) → Dictionary U ℤ → Option (Dictionary U ℤ)
  | [], d => some d
  | row :: rows, d =>
    if isTraversingRestorePoint ∧ row.contextVersion ≠ restoredCtxtVersion then
      scanRows uuid true restoredCtxtVersion rows d
    else
      let collected := collectObjectVersionsRestoredByContextVersion row.contextVersion row rows d
      if h : collected.1 ≠ -1 then
        scanRows uuid true collected.1 collected.2.1 collected.2.2
      else if row.objectUUID = uuid then none
      else scanRows uuid false (-1) rows (collectObjectVersion d row)
  termination_by rows => rows.length
  decreasing_by
    · exact Nat.lt_succ_self _
    · exact Nat.lt_succ_of_le (collectObjectVersionsRestored_length_le h)
    · exact Nat.lt_succ_self _

def findAllObjectVersionsMatchingContextVersion (history : List (HistoryRow U)) (uuid : U)
    (version aVersion : ℤ) : Option (Dictionary U ℤ) :=
  if aVersion > version then some ∅
  else scanRows uuid false (-1) (queryHistory history uuid aVersion) ∅

section Scan

theorem lookup_collectObjectVersion (d : Dictionary U ℤ) (row : HistoryRow U) (o : U) :
    (collectObjectVersion d row).lookup o =
      (d.lookup o).or (if o = row.objectUUID then some row.objectVersion else none) := by
  unfold collectObjectVersion
  split_ifs with hd ho ho
  · subst ho
    obtain ⟨v, hv⟩ := Option.isSome_iff_exists.1 (AList.lookup_isSome.2 hd)
    simp [hv]
  · simp
  · subst ho
    simp [AList.lookup_eq_none.2 hd]
  · simp [AList.lookup_insert_ne ho]

variable {uuid : U}

/-- Scanning `rows` adds the object versions of `m` to those already found. -/
def ScansTo (uuid : U) (isTraversing : Bool) (restored : ℤ) (rows : List (HistoryRow U))
    (m : U → Option ℤ) : Prop :=
  ∀ d : Dictionary U ℤ, ∃ d', scanRows uuid isTraversing restored rows d = some d' ∧
    ∀ o, d'.lookup o = (d.lookup o).or (m o)

theorem scansTo_nil (b : Bool) (w : ℤ) : ScansTo uuid b w [] fun _ => none :=
  fun d => ⟨d, by simp [scanRows], fun o => by simp⟩

variable {m : U → Option ℤ}

theorem scansTo_skip {w : ℤ} {rest : List (HistoryRow U)} (h : ScansTo uuid true w rest m) :
    ∀ rows : List (HistoryRow U), (∀ r ∈ rows, r.contextVersion ≠ w) →
      ScansTo uuid true w (rows ++ rest) m
  | [], _ => h
  | row :: rows, hw => by
    intro d
    obtain ⟨d', hs, hd⟩ := scansTo_skip h rows (fun r hr => hw r (mem_cons_of_mem _ hr)) d
    have hrow := hw row mem_cons_self
    exact ⟨d', by rw [cons_append, scanRows, if_pos ⟨rfl, hrow⟩]; exact hs, hd⟩

variable {row : HistoryRow U}

theorem scansTo_arrive {w : ℤ} {rows : List (HistoryRow U)}
    (h : ScansTo uuid false (-1) (row :: rows) m) (hrow : row.contextVersion = w) :
    ScansTo uuid true w (row :: rows) m := by
  intro d
  obtain ⟨d', hs, hd⟩ := h d
  refine ⟨d', ?_, hd⟩
  rw [scanRows] at hs ⊢
  simpa [hrow] using hs

theorem scansTo_message {rows : List (HistoryRow U)}
    (hctx : row.contextUUID = uuid) (hne : row.objectUUID ≠ uuid)
    (h : ScansTo uuid false (-1) rows m) :
    ScansTo uuid false (-1) (row :: rows)
      (update m row.objectUUID (some row.objectVersion)) := by
  intro d
  obtain ⟨d', hs, hd⟩ := h (collectObjectVersion d row)
  have hnr : row.objectUUID ≠ row.contextUUID := fun hr => hne (hr.trans hctx)
  refine ⟨d', ?_, fun o => ?_⟩
  · rw [scanRows, if_neg (by simp)]
    simpa [collectObjectVersionsRestoredByContextVersion, hnr, hne] using hs
  · rw [hd, lookup_collectObjectVersion]
    by_cases ho : o = row.objectUUID
    · subst ho
      cases d.lookup row.objectUUID <;> simp
    · simp [ho]

/-- What a list of rows gives for each object when an object appears with one version only. -/
def Versions (rows : List (HistoryRow U)) (m : U → Option ℤ) : Prop :=
  ∀ o v, m o = some v ↔ ∃ r ∈ rows, r.objectUUID = o ∧ r.objectVersion = v

theorem Versions.cons {rows : List (HistoryRow U)} {m : U → Option ℤ} (h : Versions rows m)
    (row : HistoryRow U) (hrow : m row.objectUUID = none) :
    Versions (row :: rows) (update m row.objectUUID (some row.objectVersion)) := by
  intro o v
  by_cases ho : o = row.objectUUID
  · subst ho
    have hn : ∀ r ∈ rows, r.objectUUID ≠ row.objectUUID := fun r hr heq => by
      simp [(h _ _).2 ⟨r, hr, heq, rfl⟩] at hrow
    simp only [update_self, Option.some.injEq, exists_mem_cons_iff, true_and]
    refine ⟨Or.inl, fun hv => ?_⟩
    rcases hv with hv | ⟨r, hr, heq, -⟩
    · exact hv
    · exact absurd heq (hn r hr)
  · simp only [update_of_ne ho, exists_mem_cons_iff, h o v, Ne.symm ho, false_and,
      false_or]

theorem collectRestoreRows_eq {n : ℤ} {rest : List (HistoryRow U)}
    (hrest : ∀ r ∈ rest.head?, r.contextVersion ≠ n) :
    ∀ (rows : List (HistoryRow U)) (d : Dictionary U ℤ), (∀ r ∈ rows, r.contextVersion = n) →
      collectRestoreRows n (rows ++ rest) d = (rest, rows.foldl collectObjectVersion d)
  | [], d, _ => by
    cases rest with
    | nil => rfl
    | cons r rest => simp [collectRestoreRows, hrest r (by simp)]
  | row :: rows, d, h => by
    rw [cons_append, collectRestoreRows, if_pos (h row mem_cons_self)]
    exact collectRestoreRows_eq hrest rows _ fun r hr => h r (mem_cons_of_mem _ hr)

theorem lookup_foldl_collect {all : List (HistoryRow U)} (hm : Versions all m) :
    ∀ (rows : List (HistoryRow U)) (d : Dictionary U ℤ) (o : U), (∀ r ∈ rows, r ∈ all) →
      (rows.foldl collectObjectVersion d).lookup o =
        (d.lookup o).or (if ∃ r ∈ rows, r.objectUUID = o then m o else none)
  | [], d, o, _ => by simp
  | row :: rows, d, o, h => by
    rw [foldl_cons,
      lookup_foldl_collect hm rows _ o fun r hr => h r (mem_cons_of_mem _ hr),
      lookup_collectObjectVersion]
    have hrow : m row.objectUUID = some row.objectVersion :=
      (hm _ _).2 ⟨row, h row mem_cons_self, rfl, rfl⟩
    by_cases ho : o = row.objectUUID
    · subst ho
      cases d.lookup row.objectUUID <;> simp [hrow]
    · simp [ho, Ne.symm ho]

theorem scansTo_restorePoint {m mr : U → Option ℤ}
    {rows rest : List (HistoryRow U)} (hctx : row.contextUUID = uuid) (hobj : row.objectUUID = uuid)
    (hw : 0 ≤ row.objectVersion) (hrows : ∀ r ∈ rows, r.contextVersion = row.contextVersion)
    (hrest : ∀ r ∈ rest.head?, r.contextVersion ≠ row.contextVersion) (hmr : Versions rows mr)
    (h : ScansTo uuid true row.objectVersion rest m) :
    ScansTo uuid false (-1) (row :: (rows ++ rest)) fun o => (mr o).or (m o) := by
  intro d
  obtain ⟨d', hs, hd⟩ := h (rows.foldl collectObjectVersion d)
  refine ⟨d', ?_, fun o => ?_⟩
  · rw [scanRows, if_neg (by simp)]
    have hne : row.objectVersion ≠ -1 := by omega
    simpa [collectObjectVersionsRestoredByContextVersion, hobj, hctx, hne,
      collectRestoreRows_eq hrest rows d hrows] using hs
  · rw [hd, lookup_foldl_collect hmr rows d o fun _ hr => hr, Option.or_assoc]
    split_ifs with ho
    · rfl
    · have hn : mr o = none := by
        by_contra hsome
        obtain ⟨v, hv⟩ := Option.ne_none_iff_exists'.1 hsome
        obtain ⟨r, hr, hro, -⟩ := (hmr o v).1 hv
        exact ho ⟨r, hr, hro⟩
      simp [hn]

end Scan

end Etoile.CoreObject
