import Etoile.Lib.Runs
import Etoile.EtoileThread.ETThreadedObject

/-!
# The messages of a threaded object

Every message is in the ring or has been taken, once and in order, whichever way the threads take
turns.  The messages that were there when the object was told to terminate are executed, unless
the worker was about to look at the flag with the queue found empty before the last of them came.
-/

namespace Etoile.EtoileThread.ETThreadedObject

open List Nat

variable {m : DataModel} {Id : Type} {s : ETThreadedObject m Id}

def halves (x : Message Id) : Option Id × Option Id := (some x.invocation, x.proxy)

def inRing (s : ETThreadedObject m Id) : List (Option Id × Option Id) :=
  (range ((s.producer - s.consumer).toNat / 2)).map fun i =>
    (s.invocations (MASK (s.consumer + BitVec.ofNat _ (2 * i))),
      s.invocations (MASK (s.consumer + BitVec.ofNat _ (2 * i + 1))))

structure ExactlyOnce (s : ETThreadedObject m Id) : Prop where
  inOrder : s.taken ++ s.inRing = s.forwarded.map halves
  executed : s.executed <+: s.taken
  terminated : s.workerPc = .terminated → s.queued.map halves <+: s.executed

/-- The flag is not set between the two tests of the worker while messages have come. -/
def ProperTermination (s : ETThreadedObject m Id) : Action Id → Prop
  | .dealloc => s.deallocPc = .terminate → s.workerPc = .testTerminate → s.ISEMPTY = true
  | _ => True

instance [DecidableEq Id] : ∀ a, Decidable (s.ProperTermination a)
  | .dealloc => inferInstanceAs (Decidable (_ → _ → _))
  | .forward _ | .producer | .worker _ => isTrue trivial

def slots (l : List (Message Id)) : List (Option Id) :=
  l.flatMap fun x => [some x.invocation, x.proxy]

def Room (s : ETThreadedObject m Id) : Prop := s.forwarded.length < s.taken.length + 128

def ProducerHolds (s : ETThreadedObject m Id) : ProducerPc Id → Prop
  | .writeInvocation _ => s.Room
  | .writeProxy x => s.Room ∧ s.invocations (2 * s.forwarded.length % 256) = some x.invocation
  | .produce x => s.Room ∧ s.invocations (2 * s.forwarded.length % 256) = some x.invocation
      ∧ s.invocations ((2 * s.forwarded.length + 1) % 256) = x.proxy
  | _ => True

def WorkerHolds (s : ETThreadedObject m Id) : WorkerPc Id → Prop
  | .readInvocation => s.taken.length < s.forwarded.length
  | .readProxy i => ∃ x, s.forwarded[s.taken.length]? = some x ∧ i = some x.invocation
  | .consume i r => ∃ x, s.forwarded[s.taken.length]? = some x ∧ (i, r) = halves x
  | _ => True

def inHand : WorkerPc Id → List (Option Id × Option Id)
  | .invoke i r => [(i, r)]
  | _ => []

structure MessageInv (s : ETThreadedObject m Id) : Prop where
  producer : s.producer = counter _ (2 * s.forwarded.length)
  consumer : s.consumer = counter _ (2 * s.taken.length)
  full : s.forwarded.length ≤ s.taken.length + 128
  taken : s.taken <+: s.forwarded.map halves
  holds : RingHolds s.invocations 256 (2 * s.taken.length) (slots s.forwarded)
  executed : s.taken = s.executed ++ inHand s.workerPc
  producerPc : s.ProducerHolds s.producerPc
  workerPc : s.WorkerHolds s.workerPc

theorem longBits_lt : ∀ m : DataModel, 2 ^ 8 < 2 ^ m.longBits
  | .ilp32 => by simp [DataModel.longBits]
  | .lp64 => by simp [DataModel.longBits]

theorem mask_counter (n : ℕ) : MASK (counter m.longBits n) = n % 256 := by
  have hk : 8 ≤ m.longBits := (Nat.pow_lt_pow_iff_right (by omega)).1 (longBits_lt m) |>.le
  exact counter_mask (k := 8) hk n

@[simp] theorem slots_length (l : List (Message Id)) : (slots l).length = 2 * l.length := by
  induction l with
  | nil => rfl
  | cons x l ih =>
    show (slots l).length + 2 = _
    rw [ih, length_cons]
    omega

theorem slots_append (l : List (Message Id)) (x : Message Id) :
    slots (l ++ [x]) = slots l ++ [some x.invocation] ++ [x.proxy] := by
  simp [slots]

theorem slots_getElem? : ∀ {l : List (Message Id)} {n : ℕ} {x : Message Id}, l[n]? = some x →
    (slots l)[2 * n]? = some (some x.invocation) ∧ (slots l)[2 * n + 1]? = some x.proxy
  | y :: l, 0, x, h => by
    simp only [getElem?_cons_zero, Option.some.injEq] at h
    subst h
    exact ⟨rfl, rfl⟩
  | y :: l, n + 1, x, h => by
    rw [getElem?_cons_succ] at h
    exact slots_getElem? (l := l) (n := n) h

theorem WorkerHolds.addProducer (x : Message Id) : ∀ {pc : WorkerPc Id}, s.WorkerHolds pc →
    (s.addProducer x).WorkerHolds pc := by
  have hget : ∀ {n : ℕ} {y : Message Id}, s.forwarded[n]? = some y →
      (s.forwarded ++ [x])[n]? = some y := fun hy => by
    rw [List.getElem?_append_left (List.getElem?_eq_some_iff.1 hy).1]
    exact hy
  intro pc hpc
  rcases pc with _ | _ | _ | _ | _ | _ | _ | _ | _ | _ | _ | _ | i | ⟨i, r⟩ | ⟨i, r⟩ | _ <;>
    try exact hpc
  case readInvocation =>
    show s.taken.length < (s.forwarded ++ [x]).length
    rw [length_append]
    exact Nat.lt_add_right _ hpc
  case readProxy =>
    obtain ⟨y, hy, hi⟩ := hpc
    exact ⟨y, hget hy, hi⟩
  case consume =>
    obtain ⟨y, hy, hir⟩ := hpc
    exact ⟨y, hget hy, hir⟩

namespace MessageInv

variable (h : MessageInv s)

include h

theorem taken_le : s.taken.length ≤ s.forwarded.length := by
  have := h.taken.length_le
  rwa [length_map] at this

theorem distance : (s.producer - s.consumer).toNat = 2 * (s.forwarded.length - s.taken.length) := by
  have h1 := h.taken_le
  have h2 := h.full
  have h3 := longBits_lt m
  rw [h.producer, h.consumer, counter_sub_toNat (by omega) (by omega)]
  omega

theorem isEmpty_iff : s.ISEMPTY = true ↔ s.forwarded.length = s.taken.length := by
  have h1 := h.taken_le
  have h2 := h.distance
  unfold ISEMPTY
  rw [decide_eq_true_iff, ← BitVec.toNat_inj, h2, show BitVec.toNat 0 = 0 from BitVec.toNat_zero]
  omega

theorem room (hfull : s.ISFULL = false) : s.Room := by
  refine lt_of_le_of_ne h.full fun heq => ?_
  have hd : s.producer - s.consumer = QUEUE_SIZE := by
    have h1 := h.distance
    have h2 : (256 : BitVec m.longBits).toNat = 256 := mod_eq_of_lt (longBits_lt m)
    rw [← BitVec.toNat_inj, h1, heq]
    unfold QUEUE_SIZE
    rw [h2]
    omega
  unfold ISFULL SPACE at hfull
  rw [hd, BitVec.sub_self] at hfull
  simp at hfull

theorem inRing_eq : s.inRing = (s.forwarded.map halves).drop s.taken.length := by
  have hd := h.distance
  refine ext_getElem ?_ fun i hi hi' => ?_
  · unfold inRing
    rw [length_map, length_range, hd, length_drop, length_map]
    omega
  · rw [length_drop, length_map] at hi'
    obtain ⟨hinv, hproxy⟩ := slots_getElem?
      (getElem?_eq_getElem (l := s.forwarded) (i := s.taken.length + i) (by omega))
    simp only [inRing, getElem_map, getElem_range, getElem_drop]
    rw [h.consumer, counter_add, counter_add, mask_counter, mask_counter, ← mul_add,
      ← add_assoc, ← mul_add, h.holds _ _ (by omega) hinv, h.holds _ _ (by omega) hproxy]
    rfl

theorem producerAt {pc : ProducerPc Id} (hpc : s.ProducerHolds pc) : MessageInv (s.producerAt pc) :=
  ⟨h.producer, h.consumer, h.full, h.taken, h.holds, h.executed, hpc, h.workerPc⟩

theorem workerAt {old pc : WorkerPc Id} (hs : s.workerPc = old) (hpc : s.WorkerHolds pc)
    (hhand : inHand pc = inHand old) : MessageInv (s.workerAt pc) := by
  refine ⟨h.producer, h.consumer, h.full, h.taken, h.holds, ?_, h.producerPc, hpc⟩
  show s.taken = s.executed ++ inHand pc
  rw [hhand, ← hs]
  exact h.executed

theorem deallocAt (pc : DeallocPc) : MessageInv (s.deallocAt pc) :=
  ⟨h.producer, h.consumer, h.full, h.taken, h.holds, h.executed, h.producerPc, h.workerPc⟩

theorem ownedBy (o : Option Party) : MessageInv (s.ownedBy o) :=
  ⟨h.producer, h.consumer, h.full, h.taken, h.holds, h.executed, h.producerPc,
    h.workerPc⟩

theorem setThread : MessageInv { s with thread := true } :=
  ⟨h.producer, h.consumer, h.full, h.taken, h.holds, h.executed, h.producerPc,
    h.workerPc⟩

theorem signal : MessageInv s.signal := by
  unfold ETThreadedObject.signal
  split
  · rename_i hpc
    exact h.workerAt hpc trivial rfl
  · exact h

/-- A slot that is not in use may be written by the thread that is about to fill it. -/
theorem setSlot {p : ℕ} (hroom : s.Room) (hp : 2 * s.forwarded.length ≤ p)
    (hp' : p ≤ 2 * s.forwarded.length + 1) (x : Option Id) {pc : ProducerPc Id}
    (hpc : (s.setSlot (p % 256) x).ProducerHolds pc) :
    MessageInv ((s.setSlot (p % 256) x).producerAt pc) := by
  have h1 := h.taken_le
  unfold Room at hroom
  refine ⟨h.producer, h.consumer, h.full, h.taken, ?_, h.executed, hpc, h.workerPc⟩
  refine h.holds.update le_rfl ?_ (by omega) (by omega) (.inr ?_) x
  · rw [slots_length]
    omega
  · rw [slots_length]
    exact hp

theorem addProducer {x : Message Id} (hroom : s.Room)
    (hinv : s.invocations (2 * s.forwarded.length % 256) = some x.invocation)
    (hproxy : s.invocations ((2 * s.forwarded.length + 1) % 256) = x.proxy) :
    MessageInv ((s.addProducer x).producerAt .wasEmpty) := by
  refine ⟨?_, h.consumer, ?_, ?_, ?_, h.executed, trivial, h.workerPc.addProducer x⟩
  · show s.producer + 2 = counter _ (2 * (s.forwarded ++ [x]).length)
    rw [h.producer, length_append]
    exact counter_add _ _ 2
  · show (s.forwarded ++ [x]).length ≤ _
    rw [length_append]
    exact hroom
  · show s.taken <+: (s.forwarded ++ [x]).map halves
    rw [map_append]
    exact h.taken.trans (prefix_append _ _)
  · show RingHolds s.invocations 256 _ (slots (s.forwarded ++ [x]))
    rw [slots_append]
    refine (h.holds.push ?_).push ?_
    · rw [slots_length]
      exact hinv
    · rw [length_append, slots_length]
      exact hproxy

theorem setTerminate : MessageInv s.setTerminate :=
  ⟨h.producer, h.consumer, h.full, h.taken, h.holds, h.executed, h.producerPc, h.workerPc⟩

theorem addConsumer {i r : Option Id} {x : Message Id} (hs : s.workerPc = .consume i r)
    (hx : s.forwarded[s.taken.length]? = some x) (hir : (i, r) = halves x) :
    MessageInv ((s.addConsumer i r).workerAt (.invoke i r)) := by
  have hex := h.executed
  rw [hs] at hex
  have hlt : s.taken.length < s.forwarded.length := (List.getElem?_eq_some_iff.1 hx).1
  have hlen : (s.taken ++ [(i, r)]).length = s.taken.length + 1 := length_append
  have hroom : s.Room → (s.addConsumer i r).Room := fun hroom => by
    show _ < (s.taken ++ [(i, r)]).length + 128
    rw [hlen]
    exact lt_succ_of_lt hroom
  refine ⟨h.producer, ?_, ?_, ?_, h.holds.mono ?_, ?_, ?_, trivial⟩
  · show s.consumer + 2 = counter _ (2 * (s.taken ++ [(i, r)]).length)
    rw [h.consumer, hlen]
    exact counter_add _ _ 2
  · show _ ≤ (s.taken ++ [(i, r)]).length + 128
    rw [hlen]
    exact h.full.trans (by omega)
  · refine prefix_concat h.taken ?_
    show (s.forwarded.map halves)[s.taken.length]? = _
    rw [getElem?_map, hx, hir]
    rfl
  · show _ ≤ 2 * (s.taken ++ [(i, r)]).length
    rw [hlen]
    omega
  · show s.taken ++ [(i, r)] = s.executed ++ [(i, r)]
    rw [hex]
    simp [inHand]
  · have hpc := h.producerPc
    show (s.addConsumer i r).ProducerHolds s.producerPc
    rcases hp : s.producerPc with _ | x | x | x | x | _ | _ | _ | _ <;> rw [hp] at hpc <;>
      try exact hpc
    case writeInvocation => exact hroom hpc
    case writeProxy => exact ⟨hroom hpc.1, hpc.2⟩
    case produce => exact ⟨hroom hpc.1, hpc.2⟩

theorem execute {i r : Option Id} (hs : s.workerPc = .invoke i r) :
    MessageInv ({ s with executed := s.executed ++ [(i, r)] }.workerAt .isEmpty) := by
  have hex := h.executed
  rw [hs] at hex
  exact ⟨h.producer, h.consumer, h.full, h.taken, h.holds, hex.trans (append_nil _).symm,
    h.producerPc, trivial⟩

theorem stepProducer : MessageInv s.stepProducer := by
  have hpc := h.producerPc
  unfold ETThreadedObject.stepProducer
  rcases hs : s.producerPc with _ | x | x | x | x | _ | _ | _ | _ <;> rw [hs] at hpc <;> dsimp only
  case idle => exact h
  case isFull =>
    split
    · exact h
    · rename_i hfull
      exact h.producerAt (h.room (Bool.eq_false_of_not_eq_true hfull))
  case writeInvocation =>
    rw [h.producer, mask_counter]
    exact h.setSlot hpc le_rfl (le_succ _) _ ⟨hpc, Function.update_self ..⟩
  case writeProxy =>
    obtain ⟨hroom, hinv⟩ := hpc
    rw [h.producer, show counter m.longBits (2 * s.forwarded.length) + 1 = _ from
      counter_add _ _ 1, mask_counter]
    refine h.setSlot hroom (le_succ _) le_rfl _ ⟨hroom, ?_, Function.update_self ..⟩
    have hne : 2 * s.forwarded.length % 256 ≠ (2 * s.forwarded.length).succ % 256 :=
      slot_ne le_rfl (by omega) (le_succ _) (by omega) (succ_ne_self _).symm
    exact (Function.update_of_ne hne ..).trans hinv
  case produce =>
    obtain ⟨hroom, hinv, hproxy⟩ := hpc
    exact h.addProducer hroom hinv hproxy
  case wasEmpty =>
    split
    · exact h.producerAt trivial
    · exact h.producerAt trivial
  case lock =>
    split
    · exact (h.ownedBy _).producerAt trivial
    · exact h
  case signal => exact h.signal.producerAt trivial
  case unlock => exact (h.ownedBy _).producerAt trivial

theorem stepDealloc : MessageInv s.stepDealloc := by
  unfold ETThreadedObject.stepDealloc
  rcases hs : s.deallocPc with _ | _ | _ | _ | _ | _ | _ | _ | _ | _ | _ <;> dsimp only
  case notStarted => exact h.deallocAt _
  case lock =>
    split
    · exact (h.ownedBy _).deallocAt _
    · exact h
  case terminate => exact h.setTerminate.deallocAt _
  case testThread =>
    split
    · exact h.deallocAt _
    · exact h.deallocAt _
  case spinSignal => exact h.signal.deallocAt _
  case spinUnlock => exact (h.ownedBy _).deallocAt _
  case spinLock =>
    split
    · exact (h.ownedBy _).deallocAt _
    · exact h
  case signal => exact h.signal.deallocAt _
  case unlock => exact (h.ownedBy _).deallocAt _
  case waitForTermination =>
    split
    · exact h.deallocAt _
    · exact h
  case finished => exact h

theorem stepWorker (shouldIdle : Bool) : MessageInv (s.stepWorker shouldIdle) := by
  have hpc := h.workerPc
  unfold ETThreadedObject.stepWorker
  rcases hs : s.workerPc with _ | _ | _ | _ | _ | _ | _ | _ | _ | _ | _ | _ | i | ⟨i, r⟩
    | ⟨i, r⟩ | _ <;> rw [hs] at hpc <;> dsimp only
  case setThread => exact h.setThread.workerAt hs trivial rfl
  case isEmpty =>
    split
    · exact h.workerAt hs trivial rfl
    · rename_i hempty
      refine h.workerAt hs (lt_of_le_of_ne h.taken_le fun heq => hempty ?_) rfl
      exact h.isEmpty_iff.2 heq.symm
  case testTerminate =>
    split
    · exact h.workerAt hs trivial rfl
    · exact h.workerAt hs trivial rfl
  case testIdle =>
    split
    · exact h.workerAt hs trivial rfl
    · exact h.workerAt hs trivial rfl
  case idling => exact h.workerAt hs trivial rfl
  case lock =>
    split
    · exact (h.ownedBy _).workerAt hs trivial rfl
    · exact h
  case isEmptyLocked =>
    split
    · exact h.workerAt hs trivial rfl
    · exact h.workerAt hs trivial rfl
  case wait => exact (h.ownedBy _).workerAt hs trivial rfl
  case waiting => exact h
  case relock =>
    split
    · exact (h.ownedBy _).workerAt hs trivial rfl
    · exact h
  case unlock => exact (h.ownedBy _).workerAt hs trivial rfl
  case readInvocation =>
    have hx := getElem?_eq_getElem (l := s.forwarded) (i := s.taken.length) hpc
    refine h.workerAt hs ⟨_, hx, ?_⟩ rfl
    rw [h.consumer, mask_counter]
    exact h.holds _ _ le_rfl (slots_getElem? hx).1
  case readProxy =>
    obtain ⟨x, hx, rfl⟩ := hpc
    refine h.workerAt hs ⟨x, hx, Prod.ext rfl ?_⟩ rfl
    rw [h.consumer, show counter m.longBits (2 * s.taken.length) + 1 = _ from counter_add _ _ 1,
      mask_counter]
    exact h.holds _ _ (le_succ _) (slots_getElem? hx).2
  case consume =>
    obtain ⟨x, hx, hir⟩ := hpc
    exact h.addConsumer hs hx hir
  case invoke => exact h.execute hs
  case terminated => exact h

theorem step : ∀ a : Action Id, MessageInv (s.step a)
  | .forward x => by
    show MessageInv (s.forwardInvocation x)
    unfold ETThreadedObject.forwardInvocation
    split
    · exact h.producerAt trivial
    · exact h
  | .producer => h.stepProducer
  | .dealloc => h.stepDealloc
  | .worker shouldIdle => h.stepWorker shouldIdle

omit h in
theorem init (idle : Bool) : MessageInv ({ idle := idle } : ETThreadedObject m Id) :=
  ⟨rfl, rfl, zero_le _, prefix_rfl, .nil, rfl, trivial, trivial⟩

end MessageInv

def unset : DeallocPc → Prop
  | .notStarted | .lock | .terminate => True
  | _ => False

/-- Once the flag is set, what was queued has been taken where the worker reads it. -/
def QueueTaken (s : ETThreadedObject m Id) : WorkerPc Id → Prop
  | .testTerminate => s.terminate = true → s.queued.length ≤ s.taken.length
  | .terminated => s.terminate = true ∧ s.queued.length ≤ s.taken.length
  | _ => True

structure TerminationInv (s : ETThreadedObject m Id) : Prop where
  queued : s.queued <+: s.forwarded
  unset : unset s.deallocPc → s.terminate = false
  workerPc : s.QueueTaken s.workerPc

namespace TerminationInv

variable (h : TerminationInv s)

include h

theorem producerAt (pc : ProducerPc Id) : TerminationInv (s.producerAt pc) :=
  ⟨h.queued, h.unset, h.workerPc⟩

theorem workerAt {pc : WorkerPc Id} (hpc : s.QueueTaken pc) : TerminationInv (s.workerAt pc) :=
  ⟨h.queued, h.unset, hpc⟩

theorem deallocAt {pc : DeallocPc} (hpc : ETThreadedObject.unset pc → s.terminate = false) :
    TerminationInv (s.deallocAt pc) :=
  ⟨h.queued, hpc, h.workerPc⟩

theorem ownedBy (o : Option Party) : TerminationInv (s.ownedBy o) :=
  ⟨h.queued, h.unset, h.workerPc⟩

theorem setSlot (i : ℕ) (x : Option Id) : TerminationInv (s.setSlot i x) :=
  ⟨h.queued, h.unset, h.workerPc⟩

theorem addProducer (x : Message Id) : TerminationInv (s.addProducer x) :=
  ⟨h.queued.trans (prefix_append _ _), h.unset, h.workerPc⟩

theorem signal : TerminationInv s.signal := by
  unfold ETThreadedObject.signal
  split
  · exact h.workerAt trivial
  · exact h

theorem stepProducer : TerminationInv s.stepProducer := by
  unfold ETThreadedObject.stepProducer
  rcases s.producerPc with _ | x | x | x | x | _ | _ | _ | _ <;> dsimp only
  case idle => exact h
  case isFull =>
    split
    · exact h
    · exact h.producerAt _
  case writeInvocation => exact (h.setSlot _ _).producerAt _
  case writeProxy => exact (h.setSlot _ _).producerAt _
  case produce => exact (h.addProducer x).producerAt _
  case wasEmpty =>
    split
    · exact h.producerAt _
    · exact h.producerAt _
  case lock =>
    split
    · exact (h.ownedBy _).producerAt _
    · exact h
  case signal => exact h.signal.producerAt _
  case unlock => exact (h.ownedBy _).producerAt _

theorem setTerminate (hm : MessageInv s) (hunset : s.terminate = false)
    (hp : s.workerPc = .testTerminate → s.ISEMPTY = true) :
    TerminationInv (s.setTerminate.deallocAt .testThread) := by
  refine ⟨prefix_rfl, False.elim, ?_⟩
  have hpc := h.workerPc
  show s.setTerminate.QueueTaken s.workerPc
  rcases hs : s.workerPc with _ | _ | _ | _ | _ | _ | _ | _ | _ | _ | _ | _ | i | ⟨i, r⟩
    | ⟨i, r⟩ | _ <;> rw [hs] at hpc hp <;> try exact hpc
  case testTerminate => exact fun _ => (hm.isEmpty_iff.1 (hp rfl)).le
  case terminated =>
    rw [hpc.1] at hunset
    simp at hunset

theorem stepDealloc (hm : MessageInv s) (hp : s.ProperTermination .dealloc) :
    TerminationInv s.stepDealloc := by
  unfold ETThreadedObject.stepDealloc
  have hunset := h.unset
  rcases hs : s.deallocPc with _ | _ | _ | _ | _ | _ | _ | _ | _ | _ | _ <;> rw [hs] at hunset
    <;> dsimp only
  case notStarted => exact h.deallocAt hunset
  case lock =>
    split
    · exact (h.ownedBy _).deallocAt hunset
    · exact h
  case terminate => exact h.setTerminate hm (hunset trivial) (hp hs)
  case testThread =>
    split
    · exact h.deallocAt False.elim
    · exact h.deallocAt False.elim
  case spinSignal => exact h.signal.deallocAt False.elim
  case spinUnlock => exact (h.ownedBy _).deallocAt False.elim
  case spinLock =>
    split
    · exact (h.ownedBy _).deallocAt False.elim
    · exact h
  case signal => exact h.signal.deallocAt False.elim
  case unlock => exact (h.ownedBy _).deallocAt False.elim
  case waitForTermination =>
    split
    · exact h.deallocAt False.elim
    · exact h
  case finished => exact h

theorem stepWorker (hm : MessageInv s) (shouldIdle : Bool) :
    TerminationInv (s.stepWorker shouldIdle) := by
  have hpc := h.workerPc
  unfold ETThreadedObject.stepWorker
  rcases hs : s.workerPc with _ | _ | _ | _ | _ | _ | _ | _ | _ | _ | _ | _ | i | ⟨i, r⟩
    | ⟨i, r⟩ | _ <;> rw [hs] at hpc <;> dsimp only
  case setThread => exact ⟨h.queued, h.unset, trivial⟩
  case isEmpty =>
    split
    · rename_i hempty
      refine h.workerAt fun _ => ?_
      rw [← hm.isEmpty_iff.1 hempty]
      exact h.queued.length_le
    · exact h.workerAt trivial
  case testTerminate =>
    split
    · rename_i hterm
      exact h.workerAt ⟨hterm, hpc hterm⟩
    · exact h.workerAt trivial
  case testIdle =>
    split
    · exact h.workerAt trivial
    · exact h.workerAt trivial
  case idling => exact h.workerAt trivial
  case lock =>
    split
    · exact (h.ownedBy _).workerAt trivial
    · exact h
  case isEmptyLocked =>
    split
    · exact h.workerAt trivial
    · exact h.workerAt trivial
  case wait => exact (h.ownedBy _).workerAt trivial
  case waiting => exact h
  case relock =>
    split
    · exact (h.ownedBy _).workerAt trivial
    · exact h
  case unlock => exact (h.ownedBy _).workerAt trivial
  case readInvocation => exact h.workerAt trivial
  case readProxy => exact h.workerAt trivial
  case consume => exact ⟨h.queued, h.unset, trivial⟩
  case invoke => exact ⟨h.queued, h.unset, trivial⟩
  case terminated => exact h

theorem step (hm : MessageInv s) : ∀ {a : Action Id}, s.ProperTermination a →
    TerminationInv (s.step a)
  | .forward x, _ => by
    show TerminationInv (s.forwardInvocation x)
    unfold ETThreadedObject.forwardInvocation
    split
    · exact h.producerAt _
    · exact h
  | .producer, _ => h.stepProducer
  | .dealloc, hp => h.stepDealloc hm hp
  | .worker shouldIdle, _ => h.stepWorker hm shouldIdle

theorem exactlyOnce (hm : MessageInv s) : ExactlyOnce s where
  inOrder := by
    rw [hm.inRing_eq]
    obtain ⟨t, ht⟩ := hm.taken
    rw [← ht, drop_left]
  executed := by
    rw [hm.executed]
    exact prefix_append _ _
  terminated hpc := by
    have hex := hm.executed
    have hw := h.workerPc
    rw [hpc] at hex hw
    rw [show s.executed = s.taken by rw [hex]; exact (append_nil _).symm]
    exact prefix_of_prefix_length_le (h.queued.map halves) hm.taken
      (by rw [length_map]; exact hw.2)

end TerminationInv

/-- Whichever way the threads take turns, the messages are executed once and in order. -/
theorem exactlyOnce_of_proper (idle : Bool) (actions : List (Action Id))
    (h : Along step ProperTermination ({ idle := idle } : ETThreadedObject m Id) actions) :
    Along step (fun s a => ExactlyOnce (s.step a)) ({ idle := idle } : ETThreadedObject m Id)
      actions := by
  refine Along.of_invariant (I := fun s => MessageInv s ∧ TerminationInv s) ?_
    ⟨.init idle, prefix_rfl, fun _ => rfl, trivial⟩ h
  intro s a ⟨hm, ht⟩ hp
  exact ⟨(ht.step hm hp).exactlyOnce (hm.step a), hm.step a, ht.step hm hp⟩

/-- The worker finds the queue empty, a message comes, and the object is told to terminate. -/
def lastMessage : List (Action ℕ) :=
  replicate 2 (.worker false) ++ .forward ⟨1, none⟩ :: replicate 4 .producer
    ++ replicate 3 .dealloc

theorem lastMessage_not_executed :
    ¬ Along step (fun s a => ExactlyOnce (s.step a)) ({ idle := false } : ETThreadedObject .ilp32 ℕ)
      (lastMessage ++ [.worker false]) := by
  intro h
  have hle := (h.of_append.1.terminated (by decide)).length_le
  revert hle
  decide

def oneMessage : List (Action ℕ) :=
  .worker false :: .forward ⟨1, some 2⟩ :: replicate 8 .producer
    ++ replicate 5 (.worker false) ++ replicate 3 .dealloc
    ++ replicate 2 (.worker false)

theorem oneMessage_exactlyOnce :
    Along step (fun s a => ExactlyOnce (s.step a)) ({ idle := false } : ETThreadedObject .ilp32 ℕ)
      oneMessage :=
  exactlyOnce_of_proper false oneMessage (by decide)

end Etoile.EtoileThread.ETThreadedObject
