import Etoile.EtoileThread.MessageRuns

/-!
# The wake-ups of a threaded object

The worker tests the queue again under the mutex before it waits, so a message that comes in
between is not missed.  The flag it tests before it takes the mutex only: a wake-up is lost when
the last signal of the deallocation is sent while the worker, which has found the flag not set, is
on its way to wait.
-/

namespace Etoile.EtoileThread.ETThreadedObject

variable {m : DataModel} {Id : Type} {s : ETThreadedObject m Id}

/-- The other threads, as they go on with what they are at, wake the worker. -/
inductive SignalComing : ETThreadedObject m Id → Prop
  | now {t} (h : t.workerPc ≠ .waiting) : SignalComing t
  | producer {t} (h : SignalComing t.stepProducer) : SignalComing t
  | dealloc {t} (h : SignalComing t.stepDealloc) : SignalComing t

def NoLostWakeUp (s : ETThreadedObject m Id) : Prop :=
  s.workerPc = .waiting → s.ISEMPTY = false ∨ s.terminate = true → SignalComing s

def aboutToWait : WorkerPc Id → Bool
  | .testIdle | .lock => true
  | _ => false

/-- The last signal of the deallocation is not sent while the worker is about to wait for it. -/
def ProperSignal (s : ETThreadedObject m Id) : Action Id → Prop
  | .dealloc => s.deallocPc = .signal → aboutToWait s.workerPc = true → s.ISEMPTY = false
  | _ => True

instance : ∀ a, Decidable (s.ProperSignal a)
  | .dealloc => inferInstanceAs (Decidable (_ → _ → _))
  | .forward _ | .producer | .worker _ => isTrue trivial

section Comes

variable (hw : s.workerPc = .waiting)

include hw

theorem signal_of_waiting : s.signal = s.workerAt .relock := by
  unfold signal
  rw [hw]

theorem SignalComing.of_signal (hp : s.producerPc = .signal) : SignalComing s := by
  refine .producer (.now ?_)
  unfold stepProducer
  rw [hp]
  dsimp only
  rw [signal_of_waiting hw]
  simp [producerAt, workerAt]

theorem SignalComing.of_lock (hp : s.producerPc = .lock) (ho : s.owner = none) :
    SignalComing s := by
  have hstep : s.stepProducer = (s.ownedBy (some .producer)).producerAt .signal := by
    unfold stepProducer
    rw [hp, ho]
  refine .producer ?_
  rw [hstep]
  exact .of_signal hw rfl

theorem SignalComing.of_deallocSignal (hd : s.deallocPc = .signal ∨ s.deallocPc = .spinSignal) :
    SignalComing s := by
  refine .dealloc (.now ?_)
  unfold stepDealloc
  rcases hd with hd | hd <;>
  · rw [hd]
    dsimp only
    rw [signal_of_waiting hw]
    simp [deallocAt, workerAt]

theorem SignalComing.of_testThread (ht : s.thread = true) (hd : s.deallocPc = .testThread) :
    SignalComing s := by
  have hstep : s.stepDealloc = s.deallocAt .signal := by
    unfold stepDealloc
    rw [hd]
    exact if_pos ht
  refine .dealloc ?_
  rw [hstep]
  exact .of_deallocSignal hw (.inl rfl)

theorem SignalComing.of_terminate (ht : s.thread = true) (hd : s.deallocPc = .terminate) :
    SignalComing s := by
  have hstep : s.stepDealloc = s.setTerminate.deallocAt .testThread := by
    unfold stepDealloc
    rw [hd]
  refine .dealloc ?_
  rw [hstep]
  exact .of_testThread hw ht rfl

theorem SignalComing.of_spinLock (ht : s.thread = true) (hd : s.deallocPc = .spinLock)
    (ho : s.owner = none) : SignalComing s := by
  have hstep : s.stepDealloc = (s.ownedBy (some .dealloc)).deallocAt .testThread := by
    unfold stepDealloc
    rw [hd, ho]
  refine .dealloc ?_
  rw [hstep]
  exact .of_testThread hw ht rfl

theorem SignalComing.of_spinUnlock (ht : s.thread = true) (hd : s.deallocPc = .spinUnlock) :
    SignalComing s := by
  have hstep : s.stepDealloc = (s.ownedBy none).deallocAt .spinLock := by
    unfold stepDealloc
    rw [hd]
  refine .dealloc ?_
  rw [hstep]
  exact .of_spinLock hw ht rfl rfl

end Comes

/-- Nobody wakes a worker that waits when no other thread has anything left to do. -/
theorem not_signalComing (hw : s.workerPc = .waiting) (hp : s.producerPc = .idle)
    (hd : s.deallocPc = .waitForTermination) : ¬ SignalComing s := by
  intro h
  induction h with
  | now h => exact h hw
  | producer h ih =>
    rename_i t
    have hstep : t.stepProducer = t := by
      unfold stepProducer
      rw [hp]
    rw [hstep] at ih
    exact ih hw hp hd
  | dealloc h ih =>
    rename_i t
    have hstep : t.stepDealloc = t := by
      unfold stepDealloc
      rw [hd, hw]
    rw [hstep] at ih
    exact ih hw hp hd

def producerLocked : ProducerPc Id → Bool
  | .signal | .unlock => true
  | _ => false

def deallocLocked : DeallocPc → Bool
  | .terminate | .testThread | .spinSignal | .spinUnlock | .signal | .unlock => true
  | _ => false

def workerLocked : WorkerPc Id → Bool
  | .isEmptyLocked | .wait | .unlock => true
  | _ => false

def locked (s : ETThreadedObject m Id) : Party → Bool
  | .producer => producerLocked s.producerPc
  | .dealloc => deallocLocked s.deallocPc
  | .worker => workerLocked s.workerPc

/-- The owner of the mutex is the one thread that is where it holds it. -/
def Mutex (s : ETThreadedObject m Id) : Prop := ∀ p, s.owner = some p ↔ s.locked p = true

/-- The thread that has filled the empty queue is on its way to signal it. -/
def wakes : ProducerPc Id → Prop
  | .wasEmpty | .lock | .signal => True
  | _ => False

def signalled : DeallocPc → Prop
  | .unlock | .waitForTermination | .finished => True
  | _ => False

/-- After the last signal the worker does not wait, and goes to where it would only to find that
a message has come. -/
def Alert (s : ETThreadedObject m Id) : WorkerPc Id → Prop
  | .testIdle | .lock | .isEmptyLocked => s.taken.length < s.forwarded.length
  | .wait | .waiting => False
  | _ => True

def Asleep (s : ETThreadedObject m Id) : WorkerPc Id → Prop
  | .wait | .waiting => s.forwarded.length = s.taken.length
      ∨ s.forwarded.length = s.taken.length + 1 ∧ wakes s.producerPc
  | _ => True

structure WakeInv (s : ETThreadedObject m Id) : Prop where
  mutex : s.Mutex
  thread : s.workerPc ≠ .setThread → s.thread = true
  flag : s.terminate = true ↔ ¬ unset s.deallocPc
  asleep : s.Asleep s.workerPc
  alert : signalled s.deallocPc → s.Alert s.workerPc

theorem asleep_of_awake (h : s.workerPc ≠ .waiting ∧ s.workerPc ≠ .wait) : s.Asleep s.workerPc := by
  rcases hs : s.workerPc with _ | _ | _ | _ | _ | _ | _ | _ | _ | _ | _ | _ | i | ⟨i, r⟩
    | ⟨i, r⟩ | _ <;> try trivial
  · exact absurd hs h.2
  · exact absurd hs h.1

variable {t : ETThreadedObject m Id}

theorem Asleep.mono (hf : t.forwarded = s.forwarded)
    (ht : t.taken = s.taken) (hw : wakes s.producerPc → wakes t.producerPc) :
    ∀ {pc : WorkerPc Id}, s.Asleep pc → t.Asleep pc
  | .wait, h | .waiting, h => by
    show t.forwarded.length = t.taken.length ∨ _
    rw [hf, ht]
    exact h.imp id fun h => ⟨h.1, hw h.2⟩
  | .setThread, _ | .isEmpty, _ | .testTerminate, _ | .testIdle, _ | .idling, _ | .lock, _
  | .isEmptyLocked, _ | .relock, _ | .unlock, _ | .readInvocation, _ | .readProxy _, _
  | .consume _ _, _ | .invoke _ _, _ | .terminated, _ => trivial

theorem Mutex.same (h : s.Mutex) (ho : t.owner = s.owner)
    (hl : ∀ p, t.locked p = s.locked p) : t.Mutex := by
  intro p
  rw [ho, hl]
  exact h p

theorem Mutex.take {p : Party} (h : s.Mutex) (hs : s.owner = none)
    (ho : t.owner = some p) (hp : t.locked p = true) (hl : ∀ q, q ≠ p → t.locked q = s.locked q) :
    t.Mutex := by
  intro q
  rw [ho, Option.some.injEq]
  by_cases hq : q = p
  · subst hq
    exact ⟨fun _ => hp, fun _ => rfl⟩
  · rw [hl q hq, ← h q, hs]
    simp [Ne.symm hq]

theorem Mutex.free {p : Party} (h : s.Mutex) (hs : s.locked p = true)
    (ho : t.owner = none) (hp : t.locked p = false) (hl : ∀ q, q ≠ p → t.locked q = s.locked q) :
    t.Mutex := by
  intro q
  rw [ho]
  by_cases hq : q = p
  · subst hq
    simp [hp]
  · rw [hl q hq, ← h q, (h p).2 hs]
    simp [Ne.symm hq]

theorem Mutex.exclusive {p q : Party} (h : s.Mutex) (hp : s.locked p = true) (hne : q ≠ p) :
    s.locked q = false := by
  rw [Bool.eq_false_iff]
  intro hq
  have := ((h q).2 hq).symm.trans ((h p).2 hp)
  exact hne (Option.some.inj this)

namespace WakeInv

variable (h : WakeInv s)

include h

theorem signal : WakeInv s.signal := by
  unfold ETThreadedObject.signal
  split
  · rename_i hw
    refine ⟨h.mutex.same rfl fun p => ?_, fun _ => h.thread (by rw [hw]; simp), h.flag, trivial,
      fun _ => trivial⟩
    rcases p with _ | _ | _
    · rfl
    · rfl
    · show false = workerLocked s.workerPc
      rw [hw]
      rfl
  · exact h

theorem signal_awake {p : Party} (hp : s.locked p = true) (hne : .worker ≠ p) :
    s.signal.workerPc ≠ .waiting ∧ s.signal.workerPc ≠ .wait := by
  have hl := h.mutex.exclusive hp hne
  unfold ETThreadedObject.signal
  split
  · simp [ETThreadedObject.workerAt]
  · rename_i hw
    refine ⟨hw, fun hwait => ?_⟩
    simp [locked, hwait, workerLocked] at hl

theorem producerAt {old pc : ProducerPc Id} (hs : s.producerPc = old)
    (hl : producerLocked pc = producerLocked old) (hw : wakes old → wakes pc) :
    WakeInv (s.producerAt pc) := by
  have hasleep : (s.producerAt pc).Asleep s.workerPc :=
    h.asleep.mono (s := s) (t := s.producerAt pc) rfl rfl fun hold => hw (hs ▸ hold)
  refine ⟨h.mutex.same rfl fun p => ?_, h.thread, h.flag, hasleep, h.alert⟩
  rcases p with _ | _ | _
  · show _ = producerLocked s.producerPc
    rw [hs]
    exact hl
  · rfl
  · rfl

theorem setSlot (i : ℕ) (x : Option Id) : WakeInv (s.setSlot i x) :=
  ⟨h.mutex, h.thread, h.flag, h.asleep, h.alert⟩

theorem addProducer {x : Message Id} (hs : s.producerPc = .produce x) :
    WakeInv ((s.addProducer x).producerAt .wasEmpty) := by
  have hlen : (s.forwarded ++ [x]).length = s.forwarded.length + 1 := List.length_append
  refine ⟨h.mutex.same rfl fun p => ?_, h.thread, h.flag, ?_, fun hsig => ?_⟩
  · rcases p with _ | _ | _
    · show _ = producerLocked s.producerPc
      rw [hs]
      rfl
    · rfl
    · rfl
  · have hasleep := h.asleep
    show ((s.addProducer x).producerAt .wasEmpty).Asleep s.workerPc
    rcases hw : s.workerPc with _ | _ | _ | _ | _ | _ | _ | _ | _ | _ | _ | _ | i | ⟨i, r⟩ | ⟨i, r⟩
      | _ <;> rw [hw] at hasleep <;> try trivial
    all_goals
      rcases hasleep with heq | ⟨-, hwakes⟩
      · refine .inr ⟨?_, trivial⟩
        show (s.forwarded ++ [x]).length = s.taken.length + 1
        rw [hlen, heq]
      · rw [hs] at hwakes
        exact hwakes.elim
  · have halert := h.alert hsig
    show ((s.addProducer x).producerAt .wasEmpty).Alert s.workerPc
    rcases hw : s.workerPc with _ | _ | _ | _ | _ | _ | _ | _ | _ | _ | _ | _ | i | ⟨i, r⟩ | ⟨i, r⟩
      | _ <;> rw [hw] at halert <;> try exact halert
    all_goals
      show s.taken.length < (s.forwarded ++ [x]).length
      rw [hlen]
      exact Nat.lt_succ_of_lt halert

/-- The thread that has filled the queue finds that it has, as long as the worker waits. -/
theorem not_wasEmpty (hm : MessageInv s) (hs : s.producerPc = .wasEmpty)
    (hne : ¬ s.producer - s.consumer = 2) : WakeInv (s.producerAt .idle) := by
  have hd := hm.distance
  have hlt := longBits_lt m
  have hone : s.forwarded.length ≠ s.taken.length + 1 := fun heq => hne <| by
    rw [← BitVec.toNat_inj, hd, heq]
    show 2 * (s.taken.length + 1 - s.taken.length) = 2 % 2 ^ m.longBits
    rw [Nat.mod_eq_of_lt (by omega)]
    omega
  refine ⟨h.mutex.same rfl fun p => ?_, h.thread, h.flag, ?_, h.alert⟩
  · rcases p with _ | _ | _
    · show _ = producerLocked s.producerPc
      rw [hs]
      rfl
    · rfl
    · rfl
  · have hasleep := h.asleep
    show (s.producerAt .idle).Asleep s.workerPc
    rcases hw : s.workerPc with _ | _ | _ | _ | _ | _ | _ | _ | _ | _ | _ | _ | i | ⟨i, r⟩ | ⟨i, r⟩
      | _ <;> rw [hw] at hasleep <;> try trivial
    all_goals exact hasleep.imp id fun ⟨heq, _⟩ => absurd heq hone

theorem takeProducer (ho : s.owner = none) :
    WakeInv ((s.ownedBy (some .producer)).producerAt .signal) := by
  have hasleep : ((s.ownedBy (some .producer)).producerAt .signal).Asleep s.workerPc :=
    h.asleep.mono (s := s) (t := (s.ownedBy (some .producer)).producerAt .signal) rfl rfl
      fun _ => trivial
  refine ⟨h.mutex.take ho rfl rfl fun q hq => ?_, h.thread, h.flag, hasleep, h.alert⟩
  rcases q with _ | _ | _
  · exact absurd rfl hq
  · rfl
  · rfl

theorem signalProducer (hs : s.producerPc = .signal) : WakeInv (s.signal.producerAt .unlock) := by
  have hlocked : s.locked .producer = true := by
    show producerLocked s.producerPc = true
    rw [hs]
    rfl
  have hsig := h.signal
  have hpc : s.signal.producerPc = .signal := by
    unfold ETThreadedObject.signal
    split <;> exact hs
  refine ⟨hsig.mutex.same rfl fun p => ?_, hsig.thread, hsig.flag, ?_, hsig.alert⟩
  · rcases p with _ | _ | _
    · show _ = producerLocked s.signal.producerPc
      rw [hpc]
      rfl
    · rfl
    · rfl
  · exact asleep_of_awake (s := s.signal.producerAt .unlock)
      (h.signal_awake hlocked (by simp))

theorem freeProducer (hs : s.producerPc = .unlock) :
    WakeInv ((s.ownedBy none).producerAt .idle) := by
  have hasleep : ((s.ownedBy none).producerAt .idle).Asleep s.workerPc :=
    h.asleep.mono (s := s) (t := (s.ownedBy none).producerAt .idle) rfl rfl fun hw => by
      rw [hs] at hw
      exact hw.elim
  refine ⟨h.mutex.free (p := .producer) ?_ rfl rfl fun q hq => ?_, h.thread, h.flag, hasleep,
    h.alert⟩
  · show producerLocked s.producerPc = true
    rw [hs]
    rfl
  · rcases q with _ | _ | _
    · exact absurd rfl hq
    · rfl
    · rfl

theorem stepProducer (hm : MessageInv s) : WakeInv s.stepProducer := by
  unfold ETThreadedObject.stepProducer
  rcases hs : s.producerPc with _ | x | x | x | x | _ | _ | _ | _ <;> dsimp only
  case idle => exact h
  case isFull =>
    split
    · exact h
    · exact h.producerAt hs rfl False.elim
  case writeInvocation => exact (h.setSlot _ _).producerAt hs rfl False.elim
  case writeProxy => exact (h.setSlot _ _).producerAt hs rfl False.elim
  case produce => exact h.addProducer hs
  case wasEmpty =>
    split
    · exact h.producerAt hs rfl fun _ => trivial
    · rename_i hne
      exact h.not_wasEmpty hm hs hne
  case lock =>
    split
    · rename_i ho
      exact h.takeProducer ho
    · exact h
  case signal => exact h.signalProducer hs
  case unlock => exact h.freeProducer hs

variable {old pc : DeallocPc}

theorem deallocAt (hs : s.deallocPc = old)
    (hl : deallocLocked pc = deallocLocked old) (hu : unset pc ↔ unset old)
    (hsig : signalled pc → s.Alert s.workerPc) : WakeInv (s.deallocAt pc) := by
  refine ⟨h.mutex.same rfl fun p => ?_, h.thread, ?_, h.asleep, hsig⟩
  · rcases p with _ | _ | _
    · rfl
    · show _ = deallocLocked s.deallocPc
      rw [hs]
      exact hl
    · rfl
  · show s.terminate = true ↔ ¬ unset pc
    rw [hu, ← hs]
    exact h.flag

theorem takeDealloc (hs : s.deallocPc = old) (ho : s.owner = none)
    (hl : deallocLocked pc = true) (hu : unset pc ↔ unset old) (hsig : ¬ signalled pc) :
    WakeInv ((s.ownedBy (some .dealloc)).deallocAt pc) := by
  refine ⟨h.mutex.take ho rfl hl fun q hq => ?_, h.thread, ?_, h.asleep, fun h' => (hsig h').elim⟩
  · rcases q with _ | _ | _
    · rfl
    · exact absurd rfl hq
    · rfl
  · show s.terminate = true ↔ ¬ unset pc
    rw [hu, ← hs]
    exact h.flag

theorem freeDealloc (hs : s.deallocPc = old) (hold : deallocLocked old = true)
    (hl : deallocLocked pc = false) (hu : unset pc ↔ unset old)
    (hsig : signalled pc → signalled old) : WakeInv ((s.ownedBy none).deallocAt pc) := by
  refine ⟨h.mutex.free (p := .dealloc) ?_ rfl hl fun q hq => ?_, h.thread, ?_, h.asleep,
    fun h' => h.alert (hs ▸ hsig h')⟩
  · show deallocLocked s.deallocPc = true
    rw [hs]
    exact hold
  · rcases q with _ | _ | _
    · rfl
    · exact absurd rfl hq
    · rfl
  · show s.terminate = true ↔ ¬ unset pc
    rw [hu, ← hs]
    exact h.flag

theorem setTerminate (hs : s.deallocPc = .terminate) :
    WakeInv (s.setTerminate.deallocAt .testThread) := by
  refine ⟨h.mutex.same rfl fun p => ?_, h.thread, ⟨fun _ => id, fun _ => rfl⟩, h.asleep,
    False.elim⟩
  rcases p with _ | _ | _
  · rfl
  · show _ = deallocLocked s.deallocPc
    rw [hs]
    rfl
  · rfl

theorem signalDealloc (hs : s.deallocPc = old)
    (hold : deallocLocked old = true) (hl : deallocLocked pc = true) (hu : unset pc ↔ unset old)
    (hsig : signalled pc → s.signal.Alert s.signal.workerPc) : WakeInv (s.signal.deallocAt pc) := by
  have hpc : s.signal.deallocPc = old := by
    unfold ETThreadedObject.signal
    split <;> exact hs
  exact h.signal.deallocAt hpc (hl.trans hold.symm) hu hsig

theorem alert_of_signal (hm : MessageInv s) (hs : s.deallocPc = .signal)
    (hp : aboutToWait s.workerPc = true → s.ISEMPTY = false) :
    s.signal.Alert s.signal.workerPc := by
  have hlocked : s.locked .dealloc = true := by
    show deallocLocked s.deallocPc = true
    rw [hs]
    rfl
  have hwl : workerLocked s.workerPc = false := h.mutex.exclusive hlocked (q := .worker) (by simp)
  unfold ETThreadedObject.signal
  split
  · trivial
  · rename_i hw
    have hcome : aboutToWait s.workerPc = true → s.taken.length < s.forwarded.length := fun ha => by
      refine Nat.lt_of_le_of_ne hm.taken_le fun heq => ?_
      rw [hm.isEmpty_iff.2 heq.symm] at hp
      exact Bool.noConfusion (hp ha)
    rcases hpc : s.workerPc with _ | _ | _ | _ | _ | _ | _ | _ | _ | _ | _ | _ | i | ⟨i, r⟩ | ⟨i, r⟩
      | _ <;> rw [hpc] at hwl hcome hw <;> try trivial
    case testIdle => exact hcome rfl
    case lock => exact hcome rfl

theorem stepDealloc (hm : MessageInv s) (hp : s.ProperSignal .dealloc) : WakeInv s.stepDealloc := by
  unfold ETThreadedObject.stepDealloc
  rcases hs : s.deallocPc with _ | _ | _ | _ | _ | _ | _ | _ | _ | _ | _ <;> dsimp only
  case notStarted => exact h.deallocAt hs rfl Iff.rfl False.elim
  case lock =>
    split
    · rename_i ho
      exact h.takeDealloc hs ho rfl Iff.rfl id
    · exact h
  case terminate => exact h.setTerminate hs
  case testThread =>
    split
    · exact h.deallocAt hs rfl Iff.rfl False.elim
    · exact h.deallocAt hs rfl Iff.rfl False.elim
  case spinSignal => exact h.signalDealloc hs rfl rfl Iff.rfl False.elim
  case spinUnlock => exact h.freeDealloc hs rfl rfl Iff.rfl False.elim
  case spinLock =>
    split
    · rename_i ho
      exact h.takeDealloc hs ho rfl Iff.rfl id
    · exact h
  case signal =>
    exact h.signalDealloc hs rfl rfl Iff.rfl fun _ => h.alert_of_signal hm hs (hp hs)
  case unlock => exact h.freeDealloc hs rfl rfl Iff.rfl fun _ => trivial
  case waitForTermination =>
    split
    · exact h.deallocAt hs rfl Iff.rfl fun _ => h.alert (by rw [hs]; trivial)
    · exact h
  case finished => exact h

variable {old pc : WorkerPc Id}

theorem workerAt (hs : s.workerPc = old) (hold : old ≠ .setThread)
    (hl : workerLocked pc = workerLocked old) (ha : s.Asleep pc)
    (hal : signalled s.deallocPc → s.Alert pc) : WakeInv (s.workerAt pc) := by
  refine ⟨h.mutex.same rfl fun p => ?_, fun _ => h.thread (hs ▸ hold), h.flag, ha, hal⟩
  rcases p with _ | _ | _
  · rfl
  · rfl
  · show _ = workerLocked s.workerPc
    rw [hs]
    exact hl

theorem takeWorker (hs : s.workerPc = old) (hold : old ≠ .setThread)
    (ho : s.owner = none) (hl : workerLocked pc = true) (ha : s.Asleep pc)
    (hal : signalled s.deallocPc → s.Alert pc) :
    WakeInv ((s.ownedBy (some .worker)).workerAt pc) := by
  refine ⟨h.mutex.take ho rfl hl fun q hq => ?_, fun _ => h.thread (hs ▸ hold), h.flag, ha, hal⟩
  rcases q with _ | _ | _
  · rfl
  · rfl
  · exact absurd rfl hq

theorem freeWorker (hs : s.workerPc = old) (hold : workerLocked old = true)
    (hl : workerLocked pc = false) (ha : s.Asleep pc) (hal : signalled s.deallocPc → s.Alert pc) :
    WakeInv ((s.ownedBy none).workerAt pc) := by
  have hne : s.workerPc ≠ .setThread := by
    intro hset
    rw [← hs, hset] at hold
    simp [workerLocked] at hold
  refine ⟨h.mutex.free (p := .worker) ?_ rfl hl fun q hq => ?_, fun _ => h.thread hne, h.flag, ha,
    hal⟩
  · show workerLocked s.workerPc = true
    rw [hs]
    exact hold
  · rcases q with _ | _ | _
    · rfl
    · rfl
    · exact absurd rfl hq

theorem setThread (hs : s.workerPc = .setThread) :
    WakeInv ({ s with thread := true }.workerAt .isEmpty) := by
  refine ⟨h.mutex.same rfl fun p => ?_, fun _ => rfl, h.flag, trivial, fun _ => trivial⟩
  rcases p with _ | _ | _
  · rfl
  · rfl
  · show _ = workerLocked s.workerPc
    rw [hs]
    rfl

theorem addConsumer {i r : Option Id} (hs : s.workerPc = .consume i r) :
    WakeInv ((s.addConsumer i r).workerAt (.invoke i r)) := by
  refine ⟨h.mutex.same rfl fun p => ?_, fun _ => h.thread (by rw [hs]; simp), h.flag, trivial,
    fun _ => trivial⟩
  rcases p with _ | _ | _
  · rfl
  · rfl
  · show _ = workerLocked s.workerPc
    rw [hs]
    rfl

theorem terminate_of_signalled (hsig : signalled s.deallocPc) : s.terminate = true := by
  rw [h.flag]
  rcases hd : s.deallocPc with _ | _ | _ | _ | _ | _ | _ | _ | _ | _ | _ <;> rw [hd] at hsig <;>
    first | exact hsig.elim | exact id

theorem stepWorker (hm : MessageInv s) (shouldIdle : Bool) : WakeInv (s.stepWorker shouldIdle) := by
  have halert := h.alert
  have hasleep := h.asleep
  unfold ETThreadedObject.stepWorker
  rcases hs : s.workerPc with _ | _ | _ | _ | _ | _ | _ | _ | _ | _ | _ | _ | i | ⟨i, r⟩
    | ⟨i, r⟩ | _ <;> rw [hs] at halert hasleep <;> dsimp only
  case setThread => exact h.setThread hs
  case isEmpty =>
    split
    · exact h.workerAt hs (by simp) rfl trivial fun _ => trivial
    · exact h.workerAt hs (by simp) rfl trivial fun _ => trivial
  case testTerminate =>
    split
    · exact h.workerAt hs (by simp) rfl trivial fun _ => trivial
    · rename_i hterm
      exact h.workerAt hs (by simp) rfl trivial fun hsig =>
        absurd (h.terminate_of_signalled hsig) hterm
  case testIdle =>
    split
    · exact h.workerAt hs (by simp) rfl trivial fun _ => trivial
    · exact h.workerAt hs (by simp) rfl trivial halert
  case idling => exact h.workerAt hs (by simp) rfl trivial fun _ => trivial
  case lock =>
    split
    · rename_i ho
      exact h.takeWorker hs (by simp) ho rfl trivial halert
    · exact h
  case isEmptyLocked =>
    split
    · rename_i hempty
      have heq := hm.isEmpty_iff.1 hempty
      exact h.workerAt hs (by simp) rfl (.inl heq) fun hsig => Nat.ne_of_gt (halert hsig) heq
    · exact h.workerAt hs (by simp) rfl trivial fun _ => trivial
  case wait => exact h.freeWorker hs rfl rfl hasleep halert
  case waiting => exact h
  case relock =>
    split
    · rename_i ho
      exact h.takeWorker hs (by simp) ho rfl trivial fun _ => trivial
    · exact h
  case unlock => exact h.freeWorker hs rfl rfl trivial fun _ => trivial
  case readInvocation => exact h.workerAt hs (by simp) rfl trivial fun _ => trivial
  case readProxy => exact h.workerAt hs (by simp) rfl trivial fun _ => trivial
  case consume => exact h.addConsumer hs
  case invoke =>
    have h' : WakeInv { s with executed := s.executed ++ [(i, r)] } :=
      ⟨h.mutex, h.thread, h.flag, h.asleep, h.alert⟩
    exact h'.workerAt hs (by simp) rfl trivial fun _ => trivial
  case terminated => exact h

theorem step (hm : MessageInv s) : ∀ {a : Action Id}, s.ProperSignal a → WakeInv (s.step a)
  | .forward x, _ => by
    show WakeInv (s.forwardInvocation x)
    unfold ETThreadedObject.forwardInvocation
    split
    · rename_i hs
      exact h.producerAt hs rfl False.elim
    · exact h
  | .producer, _ => h.stepProducer hm
  | .dealloc, hp => h.stepDealloc hm hp
  | .worker shouldIdle, _ => h.stepWorker hm shouldIdle

theorem thread_of_waiting (hw : s.workerPc = .waiting) : s.thread = true :=
  h.thread (by rw [hw]; simp)

theorem comes_of_dealloc (hw : s.workerPc = .waiting) (hl : deallocLocked s.deallocPc = true) :
    SignalComing s := by
  have ht := h.thread_of_waiting hw
  have halert := h.alert
  rw [hw] at halert
  rcases hd : s.deallocPc with _ | _ | _ | _ | _ | _ | _ | _ | _ | _ | _ <;> rw [hd] at hl halert
  case terminate => exact .of_terminate hw ht hd
  case testThread => exact .of_testThread hw ht hd
  case spinSignal => exact .of_deallocSignal hw (.inr hd)
  case spinUnlock => exact .of_spinUnlock hw ht hd
  case signal => exact .of_deallocSignal hw (.inl hd)
  case unlock => exact (halert trivial).elim
  all_goals simp [deallocLocked] at hl

theorem comes_of_lock (hw : s.workerPc = .waiting) (hp : s.producerPc = .lock) :
    SignalComing s := by
  rcases ho : s.owner with _ | _ | _ | _
  · exact .of_lock hw hp ho
  · have hl := (h.mutex _).1 ho
    simp [locked, hp, producerLocked] at hl
  · exact h.comes_of_dealloc hw ((h.mutex _).1 ho)
  · have hl := (h.mutex _).1 ho
    simp [locked, hw, workerLocked] at hl

theorem comes_of_message (hm : MessageInv s) (hw : s.workerPc = .waiting)
    (hne : s.ISEMPTY = false) : SignalComing s := by
  have hasleep := h.asleep
  rw [hw] at hasleep
  rcases hasleep with heq | ⟨hone, hwakes⟩
  · rw [hm.isEmpty_iff.2 heq] at hne
    simp at hne
  · rcases hp : s.producerPc with _ | x | x | x | x | _ | _ | _ | _ <;> rw [hp] at hwakes <;>
      try exact hwakes.elim
    case wasEmpty =>
      have hd : s.producer - s.consumer = 2 := by
        have hlt := longBits_lt m
        rw [← BitVec.toNat_inj, hm.distance, hone]
        show 2 * (s.taken.length + 1 - s.taken.length) = 2 % 2 ^ m.longBits
        rw [Nat.mod_eq_of_lt (by omega)]
        omega
      have hstep : s.stepProducer = s.producerAt .lock := by
        unfold ETThreadedObject.stepProducer
        rw [hp]
        exact if_pos hd
      have h' := h.stepProducer hm
      refine .producer ?_
      rw [hstep] at h' ⊢
      exact h'.comes_of_lock hw rfl
    case lock => exact h.comes_of_lock hw hp
    case signal => exact .of_signal hw hp

theorem comes_of_terminate (hw : s.workerPc = .waiting) (ht : s.terminate = true) :
    SignalComing s := by
  have halert := h.alert
  have hset := h.flag.1 ht
  rw [hw] at halert
  rcases hd : s.deallocPc with _ | _ | _ | _ | _ | _ | _ | _ | _ | _ | _ <;>
    rw [hd] at halert hset
  case notStarted => exact absurd trivial hset
  case lock => exact absurd trivial hset
  case terminate => exact absurd trivial hset
  case unlock => exact (halert trivial).elim
  case waitForTermination => exact (halert trivial).elim
  case finished => exact (halert trivial).elim
  case spinLock =>
    rcases ho : s.owner with _ | _ | _ | _
    · exact .of_spinLock hw (h.thread_of_waiting hw) hd ho
    · have hl : producerLocked s.producerPc = true := (h.mutex _).1 ho
      rcases hp : s.producerPc with _ | x | x | x | x | _ | _ | _ | _ <;> rw [hp] at hl <;>
        try exact Bool.noConfusion hl
      case signal => exact .of_signal hw hp
      case unlock =>
        have hstep : s.stepProducer = (s.ownedBy none).producerAt .idle := by
          unfold ETThreadedObject.stepProducer
          rw [hp]
        refine .producer ?_
        rw [hstep]
        exact .of_spinLock hw (h.thread_of_waiting hw) hd rfl
    · have hl := (h.mutex _).1 ho
      simp [locked, hd, deallocLocked] at hl
    · have hl := (h.mutex _).1 ho
      simp [locked, hw, workerLocked] at hl
  all_goals exact h.comes_of_dealloc hw (by rw [hd]; rfl)

theorem noLostWakeUp (hm : MessageInv s) : NoLostWakeUp s := by
  intro hw hneed
  rcases hneed with hne | ht
  · exact h.comes_of_message hm hw hne
  · exact h.comes_of_terminate hw ht

omit h in
theorem init (idle : Bool) : WakeInv ({ idle := idle } : ETThreadedObject m Id) where
  mutex p := by
    rcases p with _ | _ | _ <;> simp [locked, producerLocked, deallocLocked, workerLocked]
  thread hne := absurd rfl hne
  flag := ⟨fun h => Bool.noConfusion h, fun h => (h trivial).elim⟩
  asleep := trivial
  alert := False.elim

end WakeInv

def lastSignal : List (Action ℕ) :=
  List.replicate 4 (.worker false) ++ List.replicate 6 .dealloc ++ List.replicate 2 (.worker false)

end Etoile.EtoileThread.ETThreadedObject
