import Etoile.EtoileThread.OrderlyRuns

/-!
# Who wakes whom

A thread that waits has found the ring empty under the lock, and whoever sends something into an
empty ring takes the lock and signals.  A thread that is held up by a lock or waits is therefore
helped by the other one, once the pipe is disconnected and something is coming.
-/

namespace Etoile.EtoileThread.Disconnection

open ETObjectPipe Function Option

variable {Id : Type} {p t : ETObjectPipe Id} {d e : Direction} {pc : Pc Id}

def lockOf (d : Direction) : Pc Id → Option Direction
  | .insertSignal | .insertUnlock => some d
  | .isEmptyLocked | .wait | .removeUnlock => some d.opposite
  | _ => none

def Mutex (p : ETObjectPipe Id) : Prop := ∀ d e, p.owner e = some d ↔ lockOf d (p.pc d) = some e

section Locks

variable (h : Mutex p)

include h

theorem Mutex.goto (hlock : lockOf d pc = lockOf d (p.pc d)) : Mutex (p.goto d pc) := by
  intro a f
  rcases eq_or_opposite d a with rfl | rfl
  · rw [goto_pc_self, hlock]
    exact h a f
  · rw [goto_pc_of_ne (opposite_ne d)]
    exact h _ f

theorem Mutex.takes (hfree : p.owner e = none) (hold : lockOf d (p.pc d) = none)
    (hnew : lockOf d pc = some e) : Mutex ((p.setOwner e (some d)).goto d pc) := by
  intro a f
  show update p.owner e (some d) f = some a ↔ _
  by_cases hf : f = e
  · rw [hf, update_self]
    rcases eq_or_opposite d a with rfl | rfl
    · rw [goto_pc_self, hnew]
      simp
    · rw [goto_pc_of_ne (opposite_ne d)]
      refine (iff_of_false ?_ ?_)
      · exact fun heq => opposite_ne d (some.inj heq).symm
      · exact fun heq => by simp [(h _ e).2 heq] at hfree
  · rw [update_of_ne hf]
    rcases eq_or_opposite d a with rfl | rfl
    · rw [goto_pc_self, hnew, h, hold]
      exact iff_of_false (by simp) fun heq => hf (some.inj heq).symm
    · rw [goto_pc_of_ne (opposite_ne d)]
      exact h _ f

theorem Mutex.leaves (hold : lockOf d (p.pc d) = some e) (hnew : lockOf d pc = none) :
    Mutex ((p.setOwner e none).goto d pc) := by
  have howner := (h d e).2 hold
  intro a f
  show update p.owner e none f = some a ↔ _
  by_cases hf : f = e
  · rw [hf, update_self]
    refine iff_of_false (by simp) ?_
    rcases eq_or_opposite d a with rfl | rfl
    · rw [goto_pc_self, hnew]
      simp
    · rw [goto_pc_of_ne (opposite_ne d)]
      intro heq
      have := (h _ e).2 heq
      rw [howner] at this
      exact opposite_ne d (some.inj this).symm
  · rw [update_of_ne hf]
    rcases eq_or_opposite d a with rfl | rfl
    · rw [goto_pc_self, hnew, h, hold]
      exact iff_of_false (fun heq => hf (some.inj heq).symm) (by simp)
    · rw [goto_pc_of_ne (opposite_ne d)]
      exact h _ f

theorem Mutex.signal (e : Direction) : Mutex (p.signal e) := by
  unfold ETObjectPipe.signal
  split
  · rename_i hpc
    refine h.goto ?_
    rw [hpc]
    rfl
  · exact h

theorem Mutex.moves (hm : Moves p d t) : Mutex t := by
  cases hm with
  | stays _ => exact h
  | goes hpc hnext =>
    refine h.goto ?_
    rw [hpc]
    cases hnext <;> rfl
  | locks hpc htakes hfree =>
    refine h.takes hfree ?_ ?_
    · rw [hpc]
      cases htakes <;> rfl
    · cases htakes <;> rfl
  | unlocks hpc hleaves =>
    refine h.leaves ?_ ?_
    · rw [hpc]
      cases hleaves <;> rfl
    · cases hleaves <;> rfl
  | signals hpc =>
    refine (h.signal d).goto ?_
    rw [signal_pc, hpc]
    rfl
  | writes hpc | produces hpc | clears hpc | consumes hpc =>
    refine Mutex.goto (p := _) (by exact h) ?_
    show _ = lockOf d (p.pc d)
    rw [hpc]
    rfl

end Locks

def sleeps : Pc Id → Bool
  | .wait | .waiting => true
  | _ => false

def signalling : Pc Id → Bool
  | .wasEmpty | .insertLock | .insertSignal => true
  | _ => false

def Woken (p : ETObjectPipe Id) (d : Direction) : Prop :=
  (p.sent d).length = (p.delivered d).length
    ∨ (p.sent d).length = (p.delivered d).length + 1 ∧ signalling (p.pc d) = true

def Wake (p : ETObjectPipe Id) : Prop := ∀ d, sleeps (p.pc d) = true → Woken p d.opposite

theorem Woken.congr (h : Woken p d) (hs : t.sent d = p.sent d)
    (hd : t.delivered d = p.delivered d) (hpc : t.pc d = p.pc d) : Woken t d := by
  unfold Woken
  rw [hs, hd, hpc]
  exact h

theorem Woken.of_quiet (h : Woken p d) (hq : signalling (p.pc d) = false)
    (hs : t.sent d = p.sent d) (hd : t.delivered d = p.delivered d) : Woken t d := by
  rcases h with heq | ⟨-, hsig⟩
  · left
    rw [hs, hd, heq]
  · rw [hq] at hsig
    cases hsig

theorem sleeps_opposite (hm : Moves p d t) (hs : sleeps (t.pc d.opposite) = true) :
    sleeps (p.pc d.opposite) = true := by
  rcases hm.pc_opposite with hpc | ⟨-, hpc⟩ <;> rw [hpc] at hs
  · exact hs
  · cases hs

/-- A thread that signals holds the lock, so the other one waits already or does not sleep. -/
theorem awake_of_signal (hmutex : Mutex p) (hpc : p.pc d = .insertSignal) :
    sleeps (((p.signal d).goto d .insertUnlock).pc d.opposite) = false := by
  rw [goto_pc_of_ne (opposite_ne d)]
  unfold ETObjectPipe.signal
  split
  · rw [goto_pc_self]
    rfl
  · rename_i hne
    refine Bool.eq_false_iff.2 fun hs => ?_
    have howner : p.owner d = some d := (hmutex d d).2 (by rw [hpc]; rfl)
    cases ho : p.pc d.opposite with
    | waiting => exact hne ho
    | wait =>
      have hother := (hmutex d.opposite d).2 (by rw [ho, lockOf, opposite_opposite])
      rw [howner] at hother
      exact opposite_ne d (some.inj hother).symm
    | _ =>
      rw [ho] at hs
      cases hs

theorem Woken.moves (h : Woken p d) (hinv : Inv p) (hmutex : Mutex p) (hm : Moves p d t)
    (hs : sleeps (t.pc d.opposite) = true) : Woken t d := by
  cases hm with
  | stays _ => exact h
  | goes hpc hnext =>
    rcases h with heq | ⟨hone, hsig⟩
    · exact .inl heq
    · rw [hpc] at hsig
      cases hnext with
      | wasEmpty _ => exact .inr ⟨hone, by rw [goto_pc_self]; rfl⟩
      | wasNotEmpty hne => exact absurd ((hinv.one_iff d).2 hone) hne
      | _ => cases hsig
  | locks hpc htakes hfree =>
    rcases h with heq | ⟨hone, hsig⟩
    · exact .inl heq
    · rw [hpc] at hsig
      cases htakes with
      | insertLock => exact .inr ⟨hone, by rw [goto_pc_self]; rfl⟩
      | _ => cases hsig
  | unlocks hpc hleaves =>
    refine h.of_quiet ?_ rfl rfl
    rw [hpc]
    cases hleaves <;> rfl
  | signals hpc =>
    rw [awake_of_signal hmutex hpc] at hs
    cases hs
  | @produces x hpc =>
    rcases h with heq | ⟨-, hsig⟩
    · refine .inr ⟨?_, by rw [goto_pc_self]; rfl⟩
      show ((p.addProducer d x).sent d).length = (p.delivered d).length + 1
      rw [sent_addProducer, List.length_append, heq]
      rfl
    · rw [hpc] at hsig
      cases hsig
  | @consumes x hpc =>
    exact h.of_quiet (by rw [hpc]; rfl) rfl (delivered_addConsumer_of_ne (opposite_ne d).symm x)
  | writes hpc | clears hpc => exact h.of_quiet (by rw [hpc]; rfl) rfl rfl

theorem Wake.moves (h : Wake p) (hinv : Inv p) (hmutex : Mutex p) (hm : Moves p d t) : Wake t := by
  intro a hs
  rcases eq_or_opposite d a with rfl | rfl
  · -- the thread itself: it sleeps because it has found the ring empty
    cases hm with
    | stays _ => exact h _ hs
    | goes hpc hnext =>
      rw [goto_pc_self] at hs
      cases hnext with
      | stillEmpty hempty => exact .inl ((hinv.isEmpty_iff _).1 hempty)
      | _ => cases hs
    | locks hpc htakes hfree =>
      rw [goto_pc_self] at hs
      cases htakes <;> cases hs
    | unlocks hpc hleaves =>
      rw [goto_pc_self] at hs
      cases hleaves with
      | wait => exact (h _ (by rw [hpc]; rfl)).congr rfl rfl (goto_pc_of_ne (opposite_ne _) _)
      | _ => cases hs
    | signals hpc | writes hpc | produces hpc | clears hpc | consumes hpc =>
      rw [goto_pc_self] at hs
      cases hs
  · have hw := h _ (sleeps_opposite hm hs)
    rw [opposite_opposite] at hw ⊢
    exact hw.moves hinv hmutex hm hs

theorem Coming.congr (h : Coming p d) (hempty : t.isEmpty d = p.isEmpty d)
    (hpc : t.pc d = p.pc d) : Coming t d := by
  unfold Coming
  rw [hempty, hpc]
  exact h

theorem Coming.of_quiet (h : Coming p d) (hq : sends (p.pc d) = false)
    (hempty : t.isEmpty d = p.isEmpty d) : Coming t d := by
  rcases h with he | hs
  · exact .inl (hempty.trans he)
  · rw [hq] at hs
    cases hs

theorem Coming.moves (h : Coming p d) (hinv : Inv p) (hinv' : Inv t) (hm : Moves p d t) :
    Coming t d := by
  cases hm with
  | stays _ => exact h
  | goes hpc hnext =>
    rcases h with he | hs
    · exact .inl he
    · rw [hpc] at hs
      cases hnext with
      | isFull x => exact .inr (by rw [goto_pc_self]; rfl)
      | _ => cases hs
  | locks hpc htakes hfree =>
    refine h.of_quiet ?_ rfl
    rw [hpc]
    cases htakes <;> rfl
  | unlocks hpc hleaves =>
    refine h.of_quiet ?_ rfl
    rw [hpc]
    cases hleaves <;> rfl
  | signals hpc =>
    refine h.of_quiet (by rw [hpc]; rfl) ?_
    show (p.signal d).isEmpty d = _
    rcases signal_cases p d with hs | hs <;> rw [hs]
    rfl
  | writes hpc => exact .inr (by rw [goto_pc_self]; rfl)
  | @produces x hpc =>
    refine .inl (Bool.eq_false_iff.2 fun hempty => ?_)
    have heq := (hinv'.isEmpty_iff d).1 hempty
    have hle := hinv.taken_le d
    rw [show ((p.addProducer d x).goto d .wasEmpty).sent d = _ from sent_addProducer p d x,
      List.length_append] at heq
    exact absurd heq (Nat.ne_of_gt (Nat.lt_succ_of_le hle))
  | clears hpc => exact h.of_quiet (by rw [hpc]; rfl) rfl
  | @consumes x hpc =>
    refine h.of_quiet (by rw [hpc]; rfl) ?_
    show ISEMPTY (p.producer d) (update p.consumer d.opposite _ d) = _
    rw [update_of_ne (opposite_ne d).symm]
    rfl

/-- No thread goes to wait any more, and for those that do something is coming. -/
theorem mayDisconnect_moves (h : ∀ a, MayDisconnect p a) (hdis : p.disconnect = true)
    (hinv : Inv p) (hinv' : Inv t) (hm : Moves p d t) : ∀ a, MayDisconnect t a := by
  intro a hb
  rcases eq_or_opposite d a with rfl | rfl
  · cases hm with
    | stays _ => exact h _ hb
    | goes hpc hnext =>
      rw [goto_pc_self] at hb
      cases hnext with
      | stillEmpty hempty =>
        exact (h _ (by rw [hpc]; rfl)).congr rfl (goto_pc_of_ne (opposite_ne _) _)
      | connected hconnected => exact absurd hdis (by simp [hconnected])
      | _ => cases hb
    | locks hpc htakes hfree =>
      rw [goto_pc_self] at hb
      cases htakes with
      | removeLock => exact (h _ (by rw [hpc]; rfl)).congr rfl (goto_pc_of_ne (opposite_ne _) _)
      | _ => cases hb
    | unlocks hpc hleaves =>
      rw [goto_pc_self] at hb
      cases hleaves with
      | wait => exact (h _ (by rw [hpc]; rfl)).congr rfl (goto_pc_of_ne (opposite_ne _) _)
      | _ => cases hb
    | signals hpc | writes hpc | produces hpc | clears hpc | consumes hpc =>
      rw [goto_pc_self] at hb
      cases hb
  · have hb' : blocks (p.pc d.opposite) = true := by
      rcases hm.pc_opposite with hpc | ⟨-, hpc⟩ <;> rw [hpc] at hb
      · exact hb
      · cases hb
    have hc := h _ hb'
    rw [opposite_opposite] at hc ⊢
    exact hc.moves hinv hinv' hm

structure Helped (p : ETObjectPipe Id) : Prop where
  mutex : Mutex p
  wake : Wake p
  coming : p.disconnect = true → ∀ d, MayDisconnect p d

theorem Helped.moves (h : Helped p) (hinv : Inv p) (hinv' : Inv t) (hm : Moves p d t) :
    Helped t where
  mutex := h.mutex.moves hm
  wake := h.wake.moves hinv h.mutex hm
  coming hdis :=
    have hdis' := hm.disconnect_eq.symm.trans hdis
    mayDisconnect_moves (h.coming hdis') hdis' hinv hinv' hm

theorem signal_pc_cases (p : ETObjectPipe Id) (e d : Direction) :
    (p.signal e).pc d = p.pc d ∨ p.pc d = .waiting ∧ (p.signal e).pc d = .relock := by
  unfold ETObjectPipe.signal
  split
  · rename_i hw
    rcases eq_or_opposite e.opposite d with rfl | rfl
    · exact .inr ⟨hw, goto_pc_self ..⟩
    · exact .inl (goto_pc_of_ne (opposite_ne _) _)
  · exact .inl rfl

theorem Helped.signal (h : Helped p) (e : Direction) : Helped (p.signal e) where
  mutex := h.mutex.signal e
  wake a hs := by
    have hsent := congrFun (signal_sent p e) a.opposite
    have hdelivered := congrFun (signal_delivered p e) a.opposite
    have hw : Woken p a.opposite := by
      rcases signal_pc_cases p e a with hpc | ⟨-, hpc⟩ <;> rw [hpc] at hs
      · exact h.wake a hs
      · cases hs
    rcases signal_pc_cases p e a.opposite with hpc | ⟨hpc, -⟩
    · exact hw.congr hsent hdelivered hpc
    · exact hw.of_quiet (by rw [hpc]; rfl) hsent hdelivered
  coming hdis a hb := by
    have hempty : (p.signal e).isEmpty a.opposite = p.isEmpty a.opposite := by
      rcases signal_cases p e with hs | hs <;> rw [hs]
      rfl
    have hdis' : p.disconnect = true := by
      rcases signal_cases p e with hs | hs <;> rw [hs] at hdis <;> exact hdis
    have hc : Coming p a.opposite := by
      rcases signal_pc_cases p e a with hpc | ⟨-, hpc⟩ <;> rw [hpc] at hb
      · exact h.coming hdis' a hb
      · cases hb
    rcases signal_pc_cases p e a.opposite with hpc | ⟨hpc, -⟩
    · exact hc.congr hempty hpc
    · exact hc.of_quiet (by rw [hpc]; rfl) hempty

theorem Helped.enters (h : Helped p) (hidle : p.pc d = .idle) (henter : Enters p pc) :
    Helped (p.goto d pc) where
  mutex := h.mutex.goto (by
    rw [hidle]
    cases henter <;> rfl)
  wake a hs := by
    rcases eq_or_opposite d a with rfl | rfl
    · rw [goto_pc_self] at hs
      cases henter <;> cases hs
    · rw [goto_pc_of_ne (opposite_ne d)] at hs
      have hw := h.wake _ hs
      rw [opposite_opposite] at hw ⊢
      exact hw.of_quiet (by rw [hidle]; rfl) rfl rfl
  coming hdis a hb := by
    rcases eq_or_opposite d a with rfl | rfl
    · rw [goto_pc_self] at hb
      cases henter <;> cases hb
    · rw [goto_pc_of_ne (opposite_ne d)] at hb
      have hc := h.coming hdis _ hb
      rw [opposite_opposite] at hc ⊢
      exact hc.of_quiet (by rw [hidle]; rfl) rfl

variable {s : Disconnection Id}

theorem Helped.disconnect (h : Helped s.pipe) (hp : ProperDisconnect s.pipe s.disconnectPc) :
    Helped s.disconnect.pipe := by
  unfold Disconnection.disconnect
  cases hpc : s.disconnectPc with
  | before =>
    rw [hpc] at hp
    refine ⟨h.mutex, h.wake, fun _ d => ?_⟩
    cases d with
    | request => exact hp.1
    | reply => exact hp.2
  | broadcastRequest => exact h.signal _
  | broadcastReply => exact h.signal _
  | done => exact h

theorem Helped.step (h : Helped s.pipe) (hheld : Held s) : ∀ {a : Action Id}, s.Proper a →
    Helped (s.step a).pipe
  | .call d c, _ => by
    show Helped (s.pipe.step (.call d c.op))
    rcases call_cases s.pipe d c with hsame | ⟨pc, hidle, hgo, henter⟩
    · rw [hsame]
      exact h
    · rw [hgo]
      exact h.enters hidle henter
  | .run d, hp => by
    have hheld' := hheld.run hp.1 hp.2
    have hm := run_moves hheld.inv (hheld.calls d)
    rcases d with _ | _ <;> exact h.moves hheld.inv hheld'.inv hm
  | .disconnect, hp => h.disconnect hp

theorem Helped.init : Helped ({} : ETObjectPipe Id) where
  mutex d e := iff_of_false (by simp) (by simp [lockOf])
  wake d hs := by cases hs
  coming hdis := by cases hdis

end Etoile.EtoileThread.Disconnection
