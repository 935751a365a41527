import Etoile.Serialize.ESCORefTable

/-!
# References are stable

Only the owner of the lock changes the map, so what it has found there is still true when it goes
on.  A new reference is greater than those in the map.  When the map is cleared nothing has been
answered since there was a user last, and what is answered later waits for the lock.
-/

namespace Etoile.Serialize.ESCORefTable

open Function List

variable {T P : Type} {s s' : ESCORefTable T P} {t u : T} {p : P} {x : TablePc P}

def Knows (s : ESCORefTable T P) (t : T) : TablePc P → Prop
  | .lock _ | .get _ => t ∈ s.windows
  | .next p => t ∈ s.windows ∧ s.pointerToCORefMap p = 0
  | .insert p theRef => t ∈ s.windows ∧ s.pointerToCORefMap p = 0 ∧
      theRef.toNat ≤ s.handedOut ∧ ∀ q, (s.pointerToCORefMap q).toNat < theRef.toNat
  | .unlock p theRef => t ∈ s.windows ∧ theRef ≠ 0 ∧ s.pointerToCORefMap p = theRef
  | .resetDone => s.period = []
  | .idle | .lockDone | .testDone | .unlockDone => True

theorem Knows.unlocked (hx : x.locked = false) (hw : u ∈ s.windows → u ∈ s'.windows)
    (h : s.Knows u x) : s'.Knows u x := by
  cases x with
  | idle | lockDone => trivial
  | lock => exact hw h
  | _ => cases hx

theorem Knows.keep (hw : u ∈ s.windows → u ∈ s'.windows)
    (hmap : s'.pointerToCORefMap = s.pointerToCORefMap) (hout : s'.handedOut = s.handedOut)
    (hperiod : s.period = [] → s'.period = []) (h : s.Knows u x) : s'.Knows u x := by
  cases x with
  | lock | get => exact hw h
  | next => exact ⟨hw h.1, hmap ▸ h.2⟩
  | insert => exact ⟨hw h.1, hmap ▸ h.2.1, hout ▸ h.2.2.1, hmap ▸ h.2.2.2⟩
  | unlock => exact ⟨hw h.1, h.2.1, hmap ▸ h.2.2⟩
  | resetDone => exact hperiod h
  | _ => trivial

/-- The map holds each reference once, and what has been answered is in it. -/
structure Inv (s : ESCORefTable T P) : Prop where
  count : s.refCount = s.windows.length
  mutex : Mutex TablePc.locked s.lock s.pc
  next : s.nextCORef.toNat = (s.handedOut + 1) % 2 ^ 32
  bound : ∀ p, (s.pointerToCORefMap p).toNat ≤ s.handedOut
  injective : ∀ p q, s.pointerToCORefMap p = s.pointerToCORefMap q →
    s.pointerToCORefMap p ≠ 0 → p = q
  knows : ∀ t, s.Knows t (s.pc t)
  period : ∀ a ∈ s.period, a.2 ≠ 0 ∧ s.pointerToCORefMap a.1 = a.2
  ended : s.windows = [] → s.period = []

theorem Inv.start : Inv ({} : ESCORefTable T P) where
  count := rfl
  mutex := fun _ => by simp [TablePc.locked]
  next := rfl
  bound := fun _ => Nat.zero_le _
  injective := fun _ _ _ hne => absurd rfl hne
  knows := fun _ => trivial
  period := by simp
  ended := fun _ => rfl

/-- Since there was a user last, pointers have been answered with the same reference if they are
the same, and never with 0. -/
def Stable (s : ESCORefTable T P) : Prop :=
  ∀ a ∈ s.period, a.2 ≠ 0 ∧ ∀ b ∈ s.period, a.1 = b.1 ↔ a.2 = b.2

theorem Inv.stable (h : Inv s) : Stable s := by
  intro a ha
  obtain ⟨hne, heq⟩ := h.period a ha
  refine ⟨hne, fun b hb => ?_⟩
  obtain ⟨-, heq'⟩ := h.period b hb
  constructor
  · intro hab
    rw [← heq, hab, heq']
  · intro hab
    rw [← heq, ← heq'] at hab
    exact h.injective _ _ hab (by rw [heq]; exact hne)

variable [DecidableEq T]

theorem knows_goto (hothers : ∀ u, u ≠ t → s.Knows u (s.pc u)) (hself : s.Knows t x) (u : T) :
    (s.goto t x).Knows u ((s.goto t x).pc u) := by
  show s.Knows u (update s.pc t x u)
  by_cases hu : u = t
  · subst hu
    rw [update_self]
    exact hself
  · rw [update_of_ne hu]
    exact hothers u hu

namespace Inv

variable (h : Inv s)

include h

theorem goes (hx : x.locked = (s.pc t).locked) (hknows : s.Knows t x) : Inv (s.goto t x) where
  __ := h
  mutex := h.mutex.stay hx
  knows := knows_goto (fun u _ => h.knows u) hknows

theorem takes (hfree : s.lock = none) (hx : x.locked = true) (hknows : s.Knows t x) :
    Inv ((s.lockedBy (some t)).goto t x) where
  __ := h
  mutex := (hfree ▸ h.mutex).take hx
  knows := knows_goto (fun u _ => h.knows u) hknows

theorem leaves (ht : (s.pc t).locked = true) : Inv ((s.lockedBy none).goto t .idle) where
  __ := h
  mutex := h.mutex.free ht rfl
  knows := knows_goto (fun u _ => h.knows u) trivial

omit [DecidableEq T] in
theorem others (ht : (s.pc t).locked = true) (hw : s'.windows = s.windows) (hpc : s'.pc = s.pc)
    (u : T) (hu : u ≠ t) : s'.Knows u (s'.pc u) := by
  rw [hpc]
  refine (h.knows u).unlocked ?_ fun hmem => hw ▸ hmem
  rw [← Bool.not_eq_true]
  exact fun hlocked => hu (h.mutex.eq_of_holds hlocked ht)

theorem makes (hpc : s.pc t = .next p) (hlt : s.handedOut + 1 < 2 ^ 32) :
    Inv (s.next.goto t (.insert p s.nextCORef)) := by
  obtain ⟨hmem, hzero⟩ : s.Knows t (.next p) := hpc ▸ h.knows t
  have hlocked : (s.pc t).locked = true := by rw [hpc]; rfl
  have href : s.nextCORef.toNat = s.handedOut + 1 := by
    rw [h.next, Nat.mod_eq_of_lt hlt]
  refine
    { h with
      mutex := h.mutex.stay (by rw [hlocked]; rfl)
      next := ?_
      bound := fun q => Nat.le_succ_of_le (h.bound q)
      knows := knows_goto (h.others hlocked rfl rfl) ⟨hmem, hzero, le_of_eq href, fun q => ?_⟩ }
  · show (s.nextCORef + 1).toNat = (s.handedOut + 1 + 1) % 2 ^ 32
    rw [BitVec.toNat_add, href]
    rfl
  · have := h.bound q
    show (s.pointerToCORefMap q).toNat < s.nextCORef.toNat
    omega

theorem inserts [DecidableEq P] {r : CORef} (hpc : s.pc t = .insert p r) :
    Inv ((s.insert p r).goto t (.unlock p r)) := by
  obtain ⟨hmem, hzero, hle, hgreater⟩ : s.Knows t (.insert p r) := hpc ▸ h.knows t
  have hlocked : (s.pc t).locked = true := by rw [hpc]; rfl
  have hne : ∀ q, s.pointerToCORefMap q ≠ r := fun q heq => by
    have := hgreater q
    rw [heq] at this
    omega
  have hnonzero : r ≠ 0 := fun hr => hne p (hzero.trans hr.symm)
  have hself : (s.insert p r).pointerToCORefMap p = r := update_self ..
  have hother : ∀ q, q ≠ p → (s.insert p r).pointerToCORefMap q = s.pointerToCORefMap q :=
    fun q hq => update_of_ne hq ..
  refine
    { h with
      mutex := h.mutex.stay (by rw [hlocked]; rfl)
      bound := fun q => ?_
      injective := fun q q' heq hq => ?_
      period := fun a ha => ?_
      knows := knows_goto (h.others hlocked rfl rfl) ⟨hmem, hnonzero, hself⟩ }
  · show ((s.insert p r).pointerToCORefMap q).toNat ≤ s.handedOut
    by_cases hq : q = p
    · rw [hq, hself]
      exact hle
    · rw [hother q hq]
      exact h.bound q
  · change (s.insert p r).pointerToCORefMap q = (s.insert p r).pointerToCORefMap q' at heq
    change (s.insert p r).pointerToCORefMap q ≠ 0 at hq
    by_cases hqp : q = p
    · by_cases hqp' : q' = p
      · rw [hqp, hqp']
      · rw [hqp, hself, hother q' hqp'] at heq
        exact absurd heq.symm (hne q')
    · by_cases hqp' : q' = p
      · rw [hqp', hself, hother q hqp] at heq
        exact absurd heq (hne q)
      · rw [hother q hqp] at heq hq
        rw [hother q' hqp'] at heq
        exact h.injective q q' heq hq
  · obtain ⟨ha, heq⟩ := h.period a ha
    refine ⟨ha, ?_⟩
    show (s.insert p r).pointerToCORefMap a.1 = a.2
    rw [hother a.1 fun hap => ha (by rw [← heq, hap, hzero])]
    exact heq

theorem answers {r : CORef} (hpc : s.pc t = .unlock p r) :
    Inv (((s.answer p r).lockedBy none).goto t .idle) := by
  obtain ⟨hmem, hne, heq⟩ : s.Knows t (.unlock p r) := hpc ▸ h.knows t
  have hlocked : (s.pc t).locked = true := by rw [hpc]; rfl
  refine
    { h with
      mutex := h.mutex.free hlocked rfl
      period := fun a ha => ?_
      ended := fun hnil => ?_
      knows := knows_goto (h.others hlocked rfl rfl) trivial }
  · rcases mem_cons.1 ha with rfl | ha
    · exact ⟨hne, heq⟩
    · exact h.period a ha
  · change s.windows = [] at hnil
    rw [hnil] at hmem
    cases hmem

/-- Nothing that was answered since there was a user last is forgotten. -/
theorem clears (hpc : s.pc t = .resetDone) : Inv (s.resetMapTable.goto t .unlockDone) := by
  have hnil : s.period = [] := by
    have := h.knows t
    rw [hpc] at this
    exact this
  have hlocked : (s.pc t).locked = true := by rw [hpc]; rfl
  exact
    { h with
      mutex := h.mutex.stay (by rw [hlocked]; rfl)
      bound := fun _ => Nat.zero_le _
      injective := fun _ _ _ hne => absurd rfl hne
      period := fun a ha => by
        change a ∈ s.period at ha
        rw [hnil] at ha
        cases ha
      knows := knows_goto (h.others hlocked rfl rfl) trivial }

omit [DecidableEq T] in
theorem uses : Inv (s.use t) where
  __ := h
  count := congrArg (· + 1) h.count
  knows := fun u => (h.knows u).keep (mem_cons_of_mem t) rfl rfl id
  ended := fun hnil => by cases hnil

theorem quits (hidle : s.pc t = .idle) (hmem : t ∈ s.windows) : Inv (s.leave t) := by
  have hcount : s.refCount - 1 = (s.windows.erase t).length := by
    rw [length_erase_of_mem hmem, h.count]
  have hperiod : ∀ a ∈ (s.leave t).period, a ∈ s.period := fun a ha => by
    change a ∈ (if s.refCount - 1 = 0 then [] else s.period) at ha
    split_ifs at ha
    · cases ha
    · exact ha
  refine
    { h with
      count := hcount
      knows := fun u => ?_
      period := fun a ha => h.period a (hperiod a ha)
      ended := fun hnil => if_pos (by rw [hcount]; exact congrArg length hnil) }
  by_cases hu : u = t
  · subst hu
    show (s.leave u).Knows u (s.pc u)
    rw [hidle]
    trivial
  · refine (h.knows u).keep (mem_erase_of_ne hu).2 rfl rfl fun hnil => ?_
    exact eq_nil_iff_forall_not_mem.2 fun a ha => by simpa [hnil] using hperiod a ha

end Inv

variable [DecidableEq P]

theorem Inv.go (h : Inv s) (t : T) (hlt : (s.go t).handedOut < 2 ^ 32) : Inv (s.go t) := by
  have hknows := h.knows t
  unfold ESCORefTable.go at hlt ⊢
  split at hlt <;> rename_i hpc <;> rw [hpc] at hknows
  · exact h
  · split_ifs with hfree
    · exact h.takes hfree rfl hknows
    · exact h
  · rename_i p
    split_ifs with hne
    · exact h.goes (by rw [hpc]; rfl) ⟨hknows, hne, rfl⟩
    · exact h.goes (by rw [hpc]; rfl) ⟨hknows, not_not.1 hne⟩
  · exact h.makes hpc hlt
  · exact h.inserts hpc
  · exact h.answers hpc
  · split_ifs with hfree
    · exact h.takes hfree rfl trivial
    · exact h
  · split_ifs with hzero
    · refine h.goes (by rw [hpc]; rfl) (h.ended ?_)
      exact eq_nil_of_length_eq_zero (h.count.symm.trans hzero)
    · exact h.goes (by rw [hpc]; rfl) trivial
  · exact h.clears hpc
  · exact h.leaves (by rw [hpc]; rfl)

theorem Inv.step (h : Inv s) :
    ∀ a : TableAction T P, (s.step a).handedOut < 2 ^ 32 → Inv (s.step a)
  | .use t, _ => by
    simp only [ESCORefTable.step]
    split_ifs
    · exact h.uses
    · exact h
  | .done t, _ => by
    simp only [ESCORefTable.step]
    split_ifs with ht hzero
    · refine (h.quits ht.1 ht.2).goes ?_ trivial
      show _ = (s.pc t).locked
      rw [ht.1]
      rfl
    · exact h.quits ht.1 ht.2
    · exact h
  | .CORefFromPointer t p, _ => by
    simp only [ESCORefTable.step]
    split_ifs with ht
    · exact h.goes (by rw [ht.1]; rfl) ht.2
    · exact h
  | .go t, hlt => h.go t hlt

theorem handedOut_le_step (s : ESCORefTable T P) :
    ∀ a : TableAction T P, s.handedOut ≤ (s.step a).handedOut
  | .use t | .done t | .CORefFromPointer t p => by
    simp only [ESCORefTable.step]
    split_ifs <;> exact le_rfl
  | .go t => by
    show s.handedOut ≤ (s.go t).handedOut
    unfold ESCORefTable.go
    split <;> try split_ifs
    case h_4 => exact Nat.le_succ _
    all_goals exact le_rfl

theorem handedOut_le_run : ∀ (actions : List (TableAction T P)) (s : ESCORefTable T P),
    s.handedOut ≤ (s.run actions).handedOut
  | [], _ => le_rfl
  | a :: actions, s => (handedOut_le_step s a).trans (handedOut_le_run actions (s.step a))

theorem Inv.run : ∀ (actions : List (TableAction T P)) {s : ESCORefTable T P}, Inv s →
    (s.run actions).handedOut < 2 ^ 32 → Inv (s.run actions)
  | [], _, h, _ => h
  | a :: actions, s, h, hlt =>
    Inv.run actions (h.step a ((handedOut_le_run actions (s.step a)).trans_lt hlt)) hlt

theorem references_stable (actions : List (TableAction T P))
    (hfew : (run {} actions : ESCORefTable T P).handedOut < 2 ^ 32 - 1) :
    Stable (run {} actions : ESCORefTable T P) :=
  (Inv.start.run actions (hfew.trans (by decide))).stable

/-- One is done and about to clear the table when another starts to use it. -/
def overlapping : List (TableAction Bool ℕ) :=
  [.use true, .CORefFromPointer true 7] ++ replicate 5 (.go true) ++
  [.done true, .go true, .go true, .use false, .CORefFromPointer false 9, .go false] ++
  replicate 2 (.go true) ++ replicate 5 (.go false) ++
  [.CORefFromPointer false 7] ++ replicate 5 (.go false) ++
  [.CORefFromPointer false 9] ++ replicate 5 (.go false)

theorem references_stable_overlapping :
    (run {} overlapping).period = [(9, 2), (7, 3), (9, 2)] ∧ Stable (run {} overlapping) :=
  ⟨by decide, references_stable overlapping (by decide)⟩

end Etoile.Serialize.ESCORefTable
