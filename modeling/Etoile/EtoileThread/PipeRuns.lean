import Etoile.Lib.Runs
import Etoile.EtoileThread.ETObjectPipe

/-!
# Runs of an object pipe

Replies follow requests around the ring: the slots from the oldest reply that is not taken to the
newest request lie less than one turn apart.  This is kept as long as a request is sent to a pipe
that is not full, a reply answers a request that has been taken, and a thread is woken only when
there is something for it to take.
-/

namespace Etoile.EtoileThread.ETObjectPipe

open Function List Nat

variable {Id : Type} {s : ETObjectPipe Id} {d e : Direction}

/-- The counters follow each other around the ring, and what is delivered is what was sent. -/
structure Sound (s : ETObjectPipe Id) : Prop where
  replies : s.producer .reply - s.consumer .reply ≤ s.consumer .request - s.consumer .reply
  requests : s.consumer .request - s.consumer .reply ≤ s.producer .request - s.consumer .reply
  full : s.producer .request - s.consumer .reply ≤ RING_BUFFER_SIZE
  delivered : ∀ d, s.delivered d <+: s.sent d

def WakesToWork (s : ETObjectPipe Id) (d : Direction) : Prop :=
  s.pc d.opposite = .waiting → s.isEmpty d = false

/-- A send that is not turned away: a request needs a pipe that is not full, a reply a request
that it answers. -/
def MaySend (s : ETObjectPipe Id) : Direction → Prop
  | .request => s.isPipeFull = false
  | .reply => s.producer .reply ≠ s.consumer .request

def ProperRun (s : ETObjectPipe Id) (d : Direction) : Pc Id → Prop
  | .poke _ | .insertSignal => s.WakesToWork d
  | .broadcastRequest => s.WakesToWork .request
  | .broadcastReply => s.WakesToWork .reply
  | _ => True

def Proper (s : ETObjectPipe Id) : Action Id → Prop
  | .call d (.send _) => s.pc d = .idle → s.disconnect = false → s.MaySend d
  | .call _ _ => True
  | .run d => s.ProperRun d (s.pc d)

section Decidable

variable [DecidableEq Id]

instance : Decidable (s.WakesToWork d) := inferInstanceAs (Decidable (_ → _))

instance : ∀ d, Decidable (s.MaySend d)
  | .request => inferInstanceAs (Decidable (_ = _))
  | .reply => inferInstanceAs (Decidable (¬ _))

instance : ∀ pc, Decidable (s.ProperRun d pc)
  | .poke _ | .insertSignal => inferInstanceAs (Decidable (s.WakesToWork d))
  | .broadcastRequest => inferInstanceAs (Decidable (s.WakesToWork .request))
  | .broadcastReply => inferInstanceAs (Decidable (s.WakesToWork .reply))
  | .idle | .isFull _ | .write _ | .produce _ | .wasEmpty | .insertLock | .insertUnlock | .isEmpty
  | .testDisconnect | .removeLock | .isEmptyLocked | .wait | .waiting | .relock | .removeUnlock
  | .read | .clear _ | .consume _ | .poll | .pollFull => isTrue trivial

instance : ∀ a, Decidable (s.Proper a)
  | .call _ (.send _) => inferInstanceAs (Decidable (_ → _ → _))
  | .call _ .next | .call _ .poll | .call _ .disconnect => isTrue trivial
  | .run d => inferInstanceAs (Decidable (s.ProperRun d (s.pc d)))

end Decidable

def Room (s : ETObjectPipe Id) : Direction → Prop
  | .request => (s.sent .request).length < (s.delivered .reply).length + 16
  | .reply => (s.sent .reply).length < (s.delivered .request).length

def Ready (s : ETObjectPipe Id) (d : Direction) : Prop :=
  (s.delivered d).length < (s.sent d).length

def PcHolds (s : ETObjectPipe Id) (d : Direction) : Pc Id → Prop
  | .isFull _ | .poke _ | .write _ => s.Room d
  | .produce x => s.Room d ∧ s.queue ((s.sent d).length % 16) = x
  | .relock | .removeUnlock | .read => s.Ready d.opposite
  | .clear x | .consume x => (s.sent d.opposite)[(s.delivered d.opposite).length]? = some x
  | _ => True

/-- The slot of an element that is being taken out has been cleared already. -/
def cleared : Pc Id → ℕ
  | .consume _ => 1
  | _ => 0

def front (s : ETObjectPipe Id) (d : Direction) : ℕ :=
  (s.delivered d).length + cleared (s.pc d.opposite)

structure Inv (s : ETObjectPipe Id) : Prop where
  producer : ∀ d, s.producer d = counter 32 (s.sent d).length
  consumer : ∀ d, s.consumer d = counter 32 (s.delivered d).length
  answers : (s.sent .reply).length ≤ (s.delivered .request).length
  full : (s.sent .request).length ≤ (s.delivered .reply).length + 16
  delivered : ∀ d, s.delivered d <+: s.sent d
  holds : ∀ d, RingHolds s.queue 16 (s.front d) (s.sent d)
  pcs : ∀ d, s.PcHolds d (s.pc d)

@[simp] theorem opposite_opposite : ∀ d : Direction, d.opposite.opposite = d
  | .request => rfl
  | .reply => rfl

theorem opposite_ne : ∀ d : Direction, d.opposite ≠ d
  | .request => by simp [Direction.opposite]
  | .reply => by simp [Direction.opposite]

theorem eq_or_opposite : ∀ d e : Direction, e = d ∨ e = d.opposite
  | .request, .request => .inl rfl
  | .request, .reply => .inr rfl
  | .reply, .request => .inr rfl
  | .reply, .reply => .inl rfl

theorem mask_counter (n : ℕ) : MASK (counter 32 n) = n % 16 :=
  counter_mask (k := 4) (by omega) n

theorem isFull_iff (p c : BitVec 32) : ISFULL p c = true ↔ p - c = 16 := by
  unfold ISFULL SPACE RING_BUFFER_SIZE
  rw [decide_eq_true_iff]
  constructor <;> intro h <;> bv_omega

section Windows

variable (h : Inv s)

include h

theorem Inv.taken_le (d : Direction) : (s.delivered d).length ≤ (s.sent d).length :=
  (h.delivered d).length_le

theorem Inv.ready (hd : s.isEmpty d = false) : s.Ready d := by
  refine lt_of_le_of_ne (h.taken_le d) fun heq => ?_
  simp [isEmpty, ISEMPTY, h.producer, h.consumer, heq] at hd

theorem Inv.room (hm : s.MaySend d) : s.Room d := by
  rcases d with _ | _
  · refine lt_of_le_of_ne h.full fun heq => ?_
    have hle : (s.delivered .reply).length ≤ (s.sent .request).length := by omega
    have := (counter_sub_eq (w := 32) (n := 16) hle (by omega) (by omega)).2 (by omega)
    rw [← h.producer, ← h.consumer] at this
    simp [MaySend, isPipeFull, (isFull_iff _ _).2 this] at hm
  · refine lt_of_le_of_ne h.answers fun heq => hm ?_
    rw [h.producer, h.consumer, heq]

theorem Inv.window (d : Direction) : (s.delivered .reply).length ≤ (s.delivered d).length
    ∧ (s.sent d).length ≤ (s.delivered .reply).length + 16 := by
  have h1 := h.taken_le .request
  have h2 := h.taken_le .reply
  have h3 := h.answers
  have h4 := h.full
  rcases d with _ | _ <;> omega

theorem Inv.distance {n : ℕ} (hle : (s.delivered .reply).length ≤ n)
    (hn : n ≤ (s.delivered .reply).length + 16) :
    (counter 32 n - s.consumer .reply).toNat = n - (s.delivered .reply).length := by
  rw [h.consumer]
  exact counter_sub_toNat hle (by omega)

theorem Inv.sound : Sound s := by
  have h1 := h.taken_le .request
  have h2 := h.taken_le .reply
  have h3 := h.answers
  have h4 := h.full
  have hreplies : (s.producer .reply - s.consumer .reply).toNat
      = (s.sent .reply).length - (s.delivered .reply).length := by
    rw [h.producer]
    exact h.distance h2 (by omega)
  have hanswered : (s.consumer .request - s.consumer .reply).toNat
      = (s.delivered .request).length - (s.delivered .reply).length := by
    rw [h.consumer .request]
    exact h.distance (by omega) (by omega)
  have hrequests : (s.producer .request - s.consumer .reply).toNat
      = (s.sent .request).length - (s.delivered .reply).length := by
    rw [h.producer]
    exact h.distance (by omega) (by omega)
  refine ⟨?_, ?_, ?_, h.delivered⟩
  · rw [BitVec.le_def, hreplies, hanswered]
    omega
  · rw [BitVec.le_def, hanswered, hrequests]
    omega
  · rw [BitVec.le_def, hrequests]
    show _ ≤ 16
    omega

end Windows

section Steps

@[simp] theorem goto_pc_self (s : ETObjectPipe Id) (d : Direction) (pc : Pc Id) :
    (s.goto d pc).pc d = pc := update_self ..

theorem goto_pc_of_ne (h : e ≠ d) (pc : Pc Id) : (s.goto d pc).pc e = s.pc e :=
  update_of_ne h ..

theorem front_goto (pc : Pc Id) (hpc : cleared (s.pc d) ≤ cleared pc) (e : Direction) :
    s.front e ≤ (s.goto d pc).front e := by
  refine Nat.add_le_add_left ?_ _
  by_cases he : e.opposite = d
  · rw [he, goto_pc_self]
    exact hpc
  · rw [goto_pc_of_ne he]

theorem Inv.goto (h : Inv s) {pc : Pc Id} (hpc : s.PcHolds d pc)
    (hc : cleared (s.pc d) ≤ cleared pc) : Inv (s.goto d pc) where
  producer := h.producer
  consumer := h.consumer
  answers := h.answers
  full := h.full
  delivered := h.delivered
  holds e := (h.holds e).mono (front_goto pc hc e)
  pcs e := by
    by_cases he : e = d
    · subst he
      rw [goto_pc_self]
      exact hpc
    · rw [goto_pc_of_ne he]
      exact h.pcs e

theorem Inv.setOwner (h : Inv s) (d : Direction) (o : Option Direction) : Inv (s.setOwner d o) :=
  ⟨h.producer, h.consumer, h.answers, h.full, h.delivered, h.holds, h.pcs⟩

theorem Inv.disconnect (h : Inv s) : Inv { s with disconnect := true } :=
  ⟨h.producer, h.consumer, h.answers, h.full, h.delivered, h.holds, h.pcs⟩

theorem Inv.lock (h : Inv s) {pc : Pc Id} (hpc : s.PcHolds d pc)
    (hc : cleared (s.pc d) ≤ cleared pc) : Inv (s.lock d e pc) := by
  unfold ETObjectPipe.lock
  split
  · exact (h.setOwner e (some d)).goto hpc hc
  · exact h

theorem Inv.unlock (h : Inv s) {pc : Pc Id} (hpc : s.PcHolds d pc)
    (hc : cleared (s.pc d) ≤ cleared pc) : Inv (s.unlock d e pc) :=
  (h.setOwner e none).goto hpc hc

theorem Inv.signal (h : Inv s) (hw : s.WakesToWork d) : Inv (s.signal d) := by
  unfold ETObjectPipe.signal
  split
  · rename_i hpc
    refine h.goto ?_ (by rw [hpc]; exact zero_le _)
    show s.Ready d.opposite.opposite
    rw [opposite_opposite]
    exact h.ready (hw hpc)
  · exact h

theorem signal_cases (s : ETObjectPipe Id) (d : Direction) :
    s.signal d = s ∨ s.signal d = s.goto d.opposite .relock := by
  unfold ETObjectPipe.signal
  split
  · exact .inr rfl
  · exact .inl rfl

theorem signal_pc (s : ETObjectPipe Id) (d : Direction) : (s.signal d).pc d = s.pc d := by
  rcases signal_cases s d with h | h <;> rw [h]
  exact goto_pc_of_ne (opposite_ne d).symm _

theorem pcHolds_signal (s : ETObjectPipe Id) (d e : Direction) (pc : Pc Id) :
    (s.signal d).PcHolds e pc ↔ s.PcHolds e pc := by
  rcases signal_cases s d with h | h <;> rw [h]
  rcases pc <;> rfl

/-- A slot of this turn is written that holds nothing that is still to be taken, and that no one
has filled. -/
theorem Inv.setQueue (h : Inv s) {p : ℕ} (hlo : (s.delivered .reply).length ≤ p)
    (hhi : p < (s.delivered .reply).length + 16)
    (hfree : ∀ e, p < s.front e ∨ (s.sent e).length ≤ p)
    (hfilled : ∀ e x, s.pc e = .produce x → (s.sent e).length ≠ p) (x : Option Id) :
    Inv (s.setQueue (p % 16) x) where
  producer := h.producer
  consumer := h.consumer
  answers := h.answers
  full := h.full
  delivered := h.delivered
  holds e := (h.holds e).update ((h.window e).1.trans (le_add_right _ _)) (h.window e).2
    hlo hhi (hfree e) x
  pcs e := by
    have hpc := h.pcs e
    show (s.setQueue (p % 16) x).PcHolds e (s.pc e)
    rcases hp : s.pc e with _ | _ | _ | _ | y | _ <;> rw [hp] at hpc <;> try exact hpc
    obtain ⟨hroom, hy⟩ := hpc
    refine ⟨hroom, ?_⟩
    have hlt : (s.sent e).length < (s.delivered .reply).length + 16 := by
      have h2 := h.taken_le .request
      have h4 := h.full
      rcases e with _ | _
      · exact hroom
      · exact Nat.lt_of_lt_of_le hroom (h2.trans h4)
    show update s.queue (p % 16) x ((s.sent e).length % 16) = y
    rw [update_of_ne (slot_ne ((h.window e).1.trans (h.taken_le e)) hlt hlo hhi
      (hfilled e y hp))]
    exact hy

theorem Inv.room_lt (h : Inv s) (hroom : s.Room d) :
    (s.sent d).length < (s.delivered .reply).length + 16 := by
  have h1 := h.taken_le .request
  have h2 := h.full
  rcases d with _ | _
  · exact hroom
  · exact Nat.lt_of_lt_of_le hroom (h1.trans h2)

/-- Nothing is kept in the slot that is written, and the other thread fills another one. -/
theorem Inv.room_free (h : Inv s) (hroom : s.Room d) (e : Direction) :
    (s.sent d).length < s.front e ∨ (s.sent e).length ≤ (s.sent d).length := by
  have h1 := h.taken_le .request
  have h2 := h.answers
  rcases d with _ | _ <;> rcases e with _ | _
  · exact .inr le_rfl
  · exact .inr (h2.trans h1)
  · exact .inl (Nat.lt_of_lt_of_le hroom (le_add_right _ _))
  · exact .inr le_rfl

theorem Inv.room_ne (h : Inv s) (hroom : s.Room d) (hopp : s.Room d.opposite) :
    (s.sent d.opposite).length ≠ (s.sent d).length := by
  have h1 := h.taken_le .request
  rcases d with _ | _
  · exact Nat.ne_of_lt (Nat.lt_of_lt_of_le hopp h1)
  · exact ne_of_gt (Nat.lt_of_lt_of_le hroom h1)

variable {x : Option Id}

theorem Inv.write (h : Inv s) (hpc : s.pc d = .write x) :
    Inv ((s.setQueue (MASK (s.producer d)) x).goto d (.produce x)) := by
  have hroom := h.pcs d
  rw [hpc] at hroom
  rw [h.producer, mask_counter]
  refine (h.setQueue ((h.window d).1.trans (h.taken_le d)) (h.room_lt hroom) (h.room_free hroom)
    (fun e y hy => ?_) x).goto ⟨hroom, update_self ..⟩
    (by show cleared (s.pc d) ≤ _; rw [hpc]; exact zero_le _)
  have hopp := h.pcs e
  rw [hy] at hopp
  rcases eq_or_opposite d e with rfl | rfl
  · rw [hpc] at hy
    simp at hy
  · exact h.room_ne hroom hopp.1

theorem sent_addProducer (s : ETObjectPipe Id) (d : Direction) (x : Option Id) :
    (s.addProducer d x).sent d = s.sent d ++ [x] := update_self ..

theorem sent_addProducer_of_ne (he : e ≠ d) (x : Option Id) :
    (s.addProducer d x).sent e = s.sent e := update_of_ne he ..

theorem delivered_addConsumer (s : ETObjectPipe Id) (d : Direction) (x : Option Id) :
    (s.addConsumer d x).delivered d = s.delivered d ++ [x] := update_self ..

theorem delivered_addConsumer_of_ne (he : e ≠ d) (x : Option Id) :
    (s.addConsumer d x).delivered e = s.delivered e := update_of_ne he ..

theorem room_addProducer (s : ETObjectPipe Id) (d : Direction) (x : Option Id) :
    (s.addProducer d x).Room d.opposite ↔ s.Room d.opposite := by
  rcases d with _ | _ <;> exact Iff.rfl

theorem room_addConsumer (s : ETObjectPipe Id) (d : Direction) (x : Option Id) :
    (s.addConsumer d x).Room d ↔ s.Room d := by
  rcases d with _ | _ <;> exact Iff.rfl

theorem PcHolds.addProducer (x : Option Id) : ∀ {pc : Pc Id}, s.PcHolds d.opposite pc →
    (s.addProducer d x).PcHolds d.opposite pc
  | .isFull _, h | .poke _, h | .write _, h => (room_addProducer s d x).2 h
  | .produce y, ⟨hroom, hy⟩ => by
    refine ⟨(room_addProducer s d x).2 hroom, ?_⟩
    rw [sent_addProducer_of_ne (opposite_ne d)]
    exact hy
  | .relock, h | .removeUnlock, h | .read, h => by
    show (s.delivered d.opposite.opposite).length < ((s.addProducer d x).sent _).length
    have hready : s.Ready d.opposite.opposite := h
    rw [opposite_opposite] at hready ⊢
    rw [sent_addProducer, length_append]
    exact Nat.lt_add_right _ hready
  | .clear y, h | .consume y, h => by
    show ((s.addProducer d x).sent d.opposite.opposite)[(s.delivered _).length]? = some y
    have hy : (s.sent d.opposite.opposite)[(s.delivered d.opposite.opposite).length]? = some y := h
    rw [opposite_opposite] at hy ⊢
    rw [sent_addProducer, List.getElem?_append_left (List.getElem?_eq_some_iff.1 hy).1]
    exact hy
  | .idle, _ | .wasEmpty, _ | .insertLock, _ | .insertSignal, _ | .insertUnlock, _ | .isEmpty, _
  | .testDisconnect, _ | .removeLock, _ | .isEmptyLocked, _ | .wait, _ | .waiting, _ | .poll, _
  | .pollFull, _ | .broadcastRequest, _ | .broadcastReply, _ => trivial

theorem PcHolds.addConsumer (x : Option Id) : ∀ {pc : Pc Id}, s.PcHolds d pc →
    (s.addConsumer d x).PcHolds d pc
  | .isFull _, h | .poke _, h | .write _, h => (room_addConsumer s d x).2 h
  | .produce y, ⟨hroom, hy⟩ => ⟨(room_addConsumer s d x).2 hroom, hy⟩
  | .relock, h | .removeUnlock, h | .read, h => by
    unfold PcHolds Ready at h ⊢
    rw [delivered_addConsumer_of_ne (opposite_ne d)]
    exact h
  | .clear y, h | .consume y, h => by
    unfold PcHolds at h ⊢
    rw [delivered_addConsumer_of_ne (opposite_ne d)]
    exact h
  | .idle, _ | .wasEmpty, _ | .insertLock, _ | .insertSignal, _ | .insertUnlock, _ | .isEmpty, _
  | .testDisconnect, _ | .removeLock, _ | .isEmptyLocked, _ | .wait, _ | .waiting, _ | .poll, _
  | .pollFull, _ | .broadcastRequest, _ | .broadcastReply, _ => trivial

theorem Inv.produce (h : Inv s) (hpc : s.pc d = .produce x) :
    Inv ((s.addProducer d x).goto d .wasEmpty) := by
  obtain ⟨hroom, hx⟩ : s.PcHolds d (.produce x) := hpc ▸ h.pcs d
  have hsent := sent_addProducer s d x
  have hsent' : (s.addProducer d x).sent d.opposite = s.sent d.opposite :=
    sent_addProducer_of_ne (opposite_ne d) x
  have hfront : ∀ e, s.front e ≤ ((s.addProducer d x).goto d .wasEmpty).front e := by
    refine front_goto (s := s.addProducer d x) .wasEmpty ?_
    show cleared (s.pc d) ≤ _
    rw [hpc]
    exact zero_le _
  constructor
  · intro e
    show update s.producer d _ e = counter 32 ((s.addProducer d x).sent e).length
    rcases eq_or_opposite d e with rfl | rfl
    · rw [hsent, update_self, h.producer, length_append]
      exact counter_add 32 _ 1
    · rw [hsent', update_of_ne (opposite_ne d), h.producer]
  · exact h.consumer
  · show ((s.addProducer d x).sent .reply).length ≤ (s.delivered .request).length
    rcases d with _ | _
    · exact h.answers
    · rw [hsent, length_append]
      exact hroom
  · show ((s.addProducer d x).sent .request).length ≤ (s.delivered .reply).length + 16
    rcases d with _ | _
    · rw [hsent, length_append]
      exact hroom
    · exact h.full
  · intro e
    show s.delivered e <+: (s.addProducer d x).sent e
    rcases eq_or_opposite d e with rfl | rfl
    · rw [hsent]
      exact (h.delivered e).trans (prefix_append _ _)
    · rw [hsent']
      exact h.delivered _
  · intro e
    refine RingHolds.mono ?_ (hfront e)
    show RingHolds s.queue 16 (s.front e) ((s.addProducer d x).sent e)
    rcases eq_or_opposite d e with rfl | rfl
    · rw [hsent]
      exact (h.holds e).push hx
    · rw [hsent']
      exact h.holds _
  · intro e
    rcases eq_or_opposite d e with rfl | rfl
    · rw [goto_pc_self]
      trivial
    · rw [goto_pc_of_ne (opposite_ne d)]
      exact (h.pcs d.opposite).addProducer x

theorem Inv.read (h : Inv s) (hpc : s.pc d = .read) :
    Inv (s.goto d (.clear (s.queue (MASK (s.consumer d.opposite))))) := by
  have hready : s.Ready d.opposite := by
    have := h.pcs d
    rwa [hpc] at this
  refine h.goto ?_ (by rw [hpc]; exact zero_le _)
  show (s.sent d.opposite)[(s.delivered d.opposite).length]? = some _
  have hfront : s.front d.opposite = (s.delivered d.opposite).length := by
    unfold front
    rw [opposite_opposite, hpc]
    rfl
  have hget := getElem?_eq_getElem hready
  rw [hget, h.consumer, mask_counter, h.holds _ _ _ hfront.le hget]

theorem Inv.clear (h : Inv s) (hpc : s.pc d = .clear x) :
    Inv ((s.setQueue (MASK (s.consumer d.opposite)) none).goto d (.consume x)) := by
  have hx : s.PcHolds d (.clear x) := hpc ▸ h.pcs d
  have hlt : (s.delivered d.opposite).length < (s.sent d.opposite).length :=
    (List.getElem?_eq_some_iff.1 hx).1
  have h' : Inv (s.goto d (.consume x)) := h.goto hx (by rw [hpc]; exact zero_le _)
  rw [h.consumer, mask_counter]
  refine h'.setQueue (h.window _).1 (hlt.trans_le (h.window _).2) (fun e => ?_) (fun e y hy => ?_)
    none
  · rcases eq_or_opposite d e with rfl | rfl
    · have h3 := h.answers
      rcases e with _ | _
      · exact .inl (hlt.trans_le (h3.trans (le_add_right _ _)))
      · exact .inr h3
    · left
      unfold front
      rw [opposite_opposite, goto_pc_self]
      exact lt_succ_self _
  · rcases eq_or_opposite d e with rfl | rfl
    · simp at hy
    · exact ne_of_gt hlt

theorem Inv.consume (h : Inv s) (hpc : s.pc d = .consume x) :
    Inv ((s.addConsumer d.opposite x).goto d .idle) := by
  have hx : s.PcHolds d (.consume x) := hpc ▸ h.pcs d
  have hlt : (s.delivered d.opposite).length < (s.sent d.opposite).length :=
    (List.getElem?_eq_some_iff.1 hx).1
  have hdel := delivered_addConsumer s d.opposite x
  have hdel' : (s.addConsumer d.opposite x).delivered d = s.delivered d :=
    delivered_addConsumer_of_ne (opposite_ne d).symm x
  constructor
  · exact h.producer
  · intro e
    show update s.consumer d.opposite _ e
      = counter 32 ((s.addConsumer d.opposite x).delivered e).length
    rcases eq_or_opposite d e with rfl | rfl
    · rw [hdel', update_of_ne (opposite_ne _).symm, h.consumer]
    · rw [hdel, update_self, h.consumer, length_append]
      exact counter_add 32 _ 1
  · show (s.sent .reply).length ≤ ((s.addConsumer d.opposite x).delivered .request).length
    have h3 := h.answers
    rcases d with _ | _
    · exact h3
    · show _ ≤ ((s.addConsumer .request x).delivered .request).length
      rw [delivered_addConsumer, length_append]
      exact h3.trans (le_add_right _ _)
  · show (s.sent .request).length ≤ ((s.addConsumer d.opposite x).delivered .reply).length + 16
    have h4 := h.full
    rcases d with _ | _
    · show _ ≤ ((s.addConsumer .reply x).delivered .reply).length + 16
      rw [delivered_addConsumer, length_append]
      exact h4.trans (by simp only [length_singleton]; omega)
    · exact h4
  · intro e
    show (s.addConsumer d.opposite x).delivered e <+: s.sent e
    rcases eq_or_opposite d e with rfl | rfl
    · rw [hdel']
      exact h.delivered _
    · rw [hdel]
      exact prefix_concat (h.delivered _) hx
  · intro e
    refine (h.holds e).mono ?_
    rcases eq_or_opposite d e with rfl | rfl
    · show _ ≤ ((s.addConsumer e.opposite x).delivered e).length + _
      rw [hdel', goto_pc_of_ne (opposite_ne e)]
      exact le_rfl
    · show _ ≤ ((s.addConsumer d.opposite x).delivered d.opposite).length + _
      unfold front
      rw [hdel, opposite_opposite, goto_pc_self, hpc, length_append]
      exact le_rfl
  · intro e
    rcases eq_or_opposite d e with rfl | rfl
    · rw [goto_pc_self]
      trivial
    · rw [goto_pc_of_ne (opposite_ne d)]
      exact (h.pcs d.opposite).addConsumer x

theorem Inv.goto_of (h : Inv s) {pc pc' : Pc Id} (hs : s.pc d = pc) (hc : cleared pc = 0)
    (hpc : s.PcHolds d pc') : Inv (s.goto d pc') :=
  h.goto hpc (by rw [hs, hc]; exact zero_le _)

theorem Inv.signal_goto (h : Inv s) {pc pc' : Pc Id} (hs : s.pc d = pc) (hc : cleared pc = 0)
    (hw : s.WakesToWork e) (hpc : s.PcHolds d pc') : Inv ((s.signal e).goto d pc') := by
  refine (h.signal hw).goto ((pcHolds_signal s e d pc').2 hpc) ?_
  rcases signal_cases s e with hsig | hsig <;> rw [hsig]
  · rw [hs, hc]
    exact zero_le _
  · rcases eq_or_opposite e d with rfl | rfl
    · rw [goto_pc_of_ne (opposite_ne d).symm, hs, hc]
      exact zero_le _
    · rw [goto_pc_self]
      exact zero_le _

theorem Inv.run (h : Inv s) (hp : s.ProperRun d (s.pc d)) : Inv (s.run d) := by
  have hd := h.pcs d
  unfold ETObjectPipe.run
  rcases hpc : s.pc d with _ | x | x | x | x | _ | _ | _ | _ | _ | _ | _ | _ | _ | _ | _ | _ | _
    | x | x | _ | _ | _ | _ <;> rw [hpc] at hd hp <;> dsimp only
  case idle => exact h
  case isFull =>
    split
    · exact h.goto_of hpc rfl hd
    · exact h.goto_of hpc rfl hd
  case poke => exact h.signal_goto hpc rfl hp hd
  case write => exact h.write hpc
  case produce => exact h.produce hpc
  case wasEmpty =>
    split
    · exact h.goto_of hpc rfl trivial
    · exact h.goto_of hpc rfl trivial
  case insertLock => exact h.lock trivial (by rw [hpc]; exact zero_le _)
  case insertSignal => exact h.signal_goto hpc rfl hp trivial
  case insertUnlock => exact h.unlock trivial (by rw [hpc]; exact zero_le _)
  case isEmpty =>
    split
    · exact h.goto_of hpc rfl trivial
    · rename_i hne
      exact h.goto_of hpc rfl (h.ready (Bool.eq_false_of_not_eq_true hne))
  case testDisconnect =>
    split
    · exact h.goto_of hpc rfl trivial
    · exact h.goto_of hpc rfl trivial
  case removeLock => exact h.lock trivial (by rw [hpc]; exact zero_le _)
  case isEmptyLocked =>
    split
    · exact h.goto_of hpc rfl trivial
    · rename_i hne
      exact h.goto_of hpc rfl (h.ready (Bool.eq_false_of_not_eq_true hne))
  case wait => exact h.unlock trivial (by rw [hpc]; exact zero_le _)
  case waiting => exact h
  case relock => exact h.lock hd (by rw [hpc]; exact zero_le _)
  case removeUnlock => exact h.unlock hd (by rw [hpc]; exact zero_le _)
  case read => exact h.read hpc
  case clear => exact h.clear hpc
  case consume => exact h.consume hpc
  case poll =>
    rcases d with _ | _ <;> dsimp only
    · split
      · rename_i hlt
        refine h.goto_of hpc rfl (h.ready (decide_eq_false fun heq => ?_))
        have heq : s.producer .reply - s.consumer .reply = 0 := heq
        bv_omega
      · exact h.goto_of hpc rfl trivial
    · split
      · exact h.goto_of hpc rfl trivial
      · rename_i hne
        exact h.goto_of hpc rfl (h.ready (Bool.eq_false_of_not_eq_true hne))
  case pollFull =>
    split
    · exact h.goto_of hpc rfl trivial
    · exact h.goto_of hpc rfl trivial
  case broadcastRequest => exact h.signal_goto hpc rfl hp trivial
  case broadcastReply => exact h.signal_goto hpc rfl hp trivial

theorem Inv.call (h : Inv s) (hpc : s.pc d = .idle) : ∀ {op : Op Id},
    s.Proper (.call d op) → Inv (s.call d op)
  | .send x, hp => by
    unfold ETObjectPipe.call
    split_ifs with hdis
    · exact h
    · exact h.goto_of hpc rfl (h.room (hp hpc (Bool.eq_false_of_not_eq_true hdis)))
  | .next, _ => by
    show Inv (s.goto d .isEmpty)
    exact h.goto_of hpc rfl trivial
  | .poll, _ => by
    show Inv (s.goto d .poll)
    exact h.goto_of hpc rfl trivial
  | .disconnect, _ => by
    have hs : ({ s with disconnect := true } : ETObjectPipe Id).pc d = .idle := hpc
    show Inv ({ s with disconnect := true }.goto d .broadcastRequest)
    exact h.disconnect.goto_of hs rfl trivial

theorem Inv.step (h : Inv s) : ∀ {a : Action Id}, s.Proper a → Inv (s.step a)
  | .run _, hp => h.run hp
  | .call d op, hp => by
    unfold ETObjectPipe.step
    dsimp only
    split
    · rename_i hpc
      exact h.call hpc hp
    · exact h

theorem Inv.init : Inv ({} : ETObjectPipe Id) where
  producer _ := rfl
  consumer _ := rfl
  answers := le_rfl
  full := zero_le _
  delivered _ := prefix_rfl
  holds _ := .nil
  pcs _ := trivial

end Steps

/-- In a run of proper steps nothing is lost, doubled or overwritten. -/
theorem sound_of_proper (actions : List (Action Id)) (h : Along step Proper {} actions) :
    Along step (fun s a => Sound (s.step a)) {} actions :=
  Along.of_invariant (I := Inv) (fun _ _ hs hp => ⟨(hs.step hp).sound, hs.step hp⟩) .init h

/-- The requester stops before it signals that the pipe is no longer empty; the replier takes the
request and waits for another. -/
def untilWaiting : List (Action ℕ) :=
  sendRequest (some 1) :: replicate 4 (.run .request)
    ++ nextRequest :: replicate 4 (.run .reply)
    ++ nextRequest :: replicate 5 (.run .reply)

/-- The signal comes late, and the replier takes what was never sent. -/
def lateSignal : List (Action ℕ) :=
  replicate 2 (.run .request) ++ .run .request :: replicate 4 (.run .reply)

theorem lateSignal_not_sound :
    ¬ Along step (fun s a => Sound (s.step a)) {}
      (untilWaiting ++ lateSignal ++ [.run .reply]) := by
  intro h
  have hle := (h.of_append.1.delivered .request).length_le
  revert hle
  decide

def roundTrip : List (Action ℕ) :=
  sendRequest (some 1) :: replicate 7 (.run .request)
    ++ nextRequest :: replicate 4 (.run .reply)
    ++ sendReply (some 2) :: replicate 7 (.run .reply)
    ++ pollForReply :: replicate 4 (.run .request)

theorem roundTrip_sound : Along step (fun s a => Sound (s.step a)) {} roundTrip :=
  sound_of_proper _ (by decide)

end Etoile.EtoileThread.ETObjectPipe
