import Etoile.Lib.Runs
import Etoile.EtoileThread.ETObjectPipe

/-!
# Counters of an object pipe that wrap

A pipe whose counters all start at `k`, with the ring turned as far, should be the pipe it was.
It is one wherever counters are subtracted from each other; `-pollForReply` compares them.
-/

namespace Etoile.EtoileThread.ETObjectPipe

open Function

variable {Id : Type}

/-- The ring turned by `k` slots. -/
def rotate (k : BitVec 32) (queue : ℕ → Option Id) (i : ℕ) : Option Id :=
  if i < 16 then queue (MASK (BitVec.ofNat 32 i - k)) else queue i

/-- The same pipe with its counters `k` further on. -/
def shift (k : BitVec 32) (s : ETObjectPipe Id) : ETObjectPipe Id :=
  { s with
    queue := rotate k s.queue
    producer := fun d => s.producer d + k
    consumer := fun d => s.consumer d + k }

def Commutes (k : BitVec 32) (s : ETObjectPipe Id) (a : Action Id) : Prop :=
  (s.shift k).step a = (s.step a).shift k ∧ (s.shift k).isPipeFull = s.isPipeFull

/-- The counter of the replies that are sent has overflowed and that of those received has not. -/
def Wrapped (s : ETObjectPipe Id) : Prop := s.producer .reply < s.consumer .reply

def SteadyRun (k : BitVec 32) (s : ETObjectPipe Id) : Direction → Pc Id → Prop
  | .request, .poll => s.isEmpty .reply = true ∨ ((s.shift k).Wrapped ↔ s.Wrapped)
  | _, _ => True

/-- Where the requester polls, no reply is waiting, or the shift moves neither counter of the
replies past zero without the other. -/
def Steady (k : BitVec 32) (s : ETObjectPipe Id) : Action Id → Prop
  | .run d => s.SteadyRun k d (s.pc d)
  | .call _ _ => True

section Shift

variable (k : BitVec 32) (s : ETObjectPipe Id) (d e : Direction)

theorem mask_eq (i : BitVec 32) : MASK i = i.toNat % 16 := by
  unfold MASK RING_BUFFER_MASK RING_BUFFER_SIZE
  rw [BitVec.toNat_and]
  exact Nat.and_two_pow_sub_one_eq_mod _ 4

theorem mask_lt (i : BitVec 32) : MASK i < 16 := by
  rw [mask_eq]
  omega

theorem mask_sub (i : BitVec 32) : MASK (BitVec.ofNat 32 (MASK (i + k)) - k) = MASK i := by
  simp only [mask_eq, BitVec.toNat_sub, BitVec.toNat_add, BitVec.toNat_ofNat]
  omega

theorem mask_sub_eq_iff {i : ℕ} (hi : i < 16) (j : BitVec 32) :
    MASK (BitVec.ofNat 32 i - k) = MASK j ↔ i = MASK (j + k) := by
  simp only [mask_eq, BitVec.toNat_sub, BitVec.toNat_add, BitVec.toNat_ofNat]
  omega

theorem rotate_mask (queue : ℕ → Option Id) (i : BitVec 32) :
    rotate k queue (MASK (i + k)) = queue (MASK i) := by
  unfold rotate
  rw [if_pos (mask_lt _), mask_sub]

theorem rotate_update (queue : ℕ → Option Id) (i : BitVec 32) (x : Option Id) :
    rotate k (update queue (MASK i) x)
      = update (rotate k queue) (MASK (i + k)) x := by
  funext j
  unfold rotate
  by_cases hj : j < 16
  · rw [if_pos hj]
    by_cases heq : j = MASK (i + k)
    · rw [(mask_sub_eq_iff k hj i).2 heq, heq, update_self, update_self]
    · rw [update_of_ne heq, if_pos hj,
        update_of_ne (fun h => heq ((mask_sub_eq_iff k hj i).1 h))]
  · have hi := mask_lt i
    have hik := mask_lt (i + k)
    rw [if_neg hj, update_of_ne (by omega), update_of_ne (by omega), if_neg hj]

theorem add_sub_add (p c : BitVec 32) : (p + k) - (c + k) = p - c := by bv_omega

@[simp] theorem isFull_shift (p c : BitVec 32) : ISFULL (p + k) (c + k) = ISFULL p c := by
  unfold ISFULL SPACE
  rw [add_sub_add]

@[simp] theorem isEmpty_shift : (s.shift k).isEmpty d = s.isEmpty d := by
  unfold isEmpty ISEMPTY shift
  rw [add_sub_add]

@[simp] theorem isPipeFull_shift : (s.shift k).isPipeFull = s.isPipeFull := isFull_shift k _ _

theorem setQueue_shift (i : BitVec 32) (x : Option Id) :
    (s.shift k).setQueue (MASK (i + k)) x = (s.setQueue (MASK i) x).shift k := by
  unfold setQueue shift
  dsimp only
  rw [rotate_update]

theorem update_shift (f : Direction → BitVec 32) :
    update (fun e => f e + k) d (f d + k + 1)
      = fun e => update f d (f d + 1) e + k := by
  funext e
  by_cases he : e = d
  · rw [he, update_self, update_self, BitVec.add_assoc, BitVec.add_assoc,
      BitVec.add_comm k]
  · rw [update_of_ne he, update_of_ne he]

theorem addProducer_shift (x : Option Id) :
    (s.shift k).addProducer d x = (s.addProducer d x).shift k := by
  unfold addProducer shift
  dsimp only
  rw [update_shift]

theorem addConsumer_shift (x : Option Id) :
    (s.shift k).addConsumer d x = (s.addConsumer d x).shift k := by
  unfold addConsumer shift
  dsimp only
  rw [update_shift]

theorem signal_shift : (s.shift k).signal d = (s.signal d).shift k := by
  unfold signal
  rw [show (s.shift k).pc = s.pc from rfl]
  cases s.pc d.opposite <;> rfl

theorem lock_shift (pc : Pc Id) : (s.shift k).lock d e pc = (s.lock d e pc).shift k := by
  unfold lock
  rw [show (s.shift k).owner = s.owner from rfl]
  cases s.owner e <;> rfl

theorem goto_shift_iff (pc pc' : Pc Id) :
    (s.shift k).goto d pc = (s.goto d pc').shift k ↔ pc = pc' := by
  constructor
  · intro h
    have hpc := congrArg (fun t => t.pc d) h
    simpa [goto, shift] using hpc
  · rintro rfl
    rfl

theorem ite_shift (b : Bool) (pc pc' : Pc Id) :
    (if b then (s.shift k).goto d pc else (s.shift k).goto d pc')
      = shift k (if b then s.goto d pc else s.goto d pc') := by
  split_ifs
  · rfl
  · rfl

theorem lt_shift_iff (c p : BitVec 32) :
    (c + k < p + k ↔ c < p) ↔ p - c = 0 ∨ (p + k < c + k ↔ p < c) := by
  by_cases h : p = c
  · simp [h]
  · have hsub : p - c ≠ 0 := by bv_omega
    have hlt : c < p ↔ ¬ p < c := by bv_omega
    have hlt' : c + k < p + k ↔ ¬ p + k < c + k := by bv_omega
    rw [hlt, hlt', not_iff_not]
    exact (or_iff_right hsub).symm

theorem poll_shift_iff (hpc : s.pc .request = .poll) :
    (s.shift k).run .request = (s.run .request).shift k ↔ s.SteadyRun k .request .poll := by
  have hrun : ∀ t : ETObjectPipe Id, t.pc .request = .poll → t.run .request
      = if t.consumer .reply < t.producer .reply then t.goto .request .read
        else t.goto .request .pollFull := by
    intro t ht
    unfold run
    rw [ht]
  have hsteady : s.SteadyRun k .request .poll ↔ ((s.shift k).consumer .reply
      < (s.shift k).producer .reply ↔ s.consumer .reply < s.producer .reply) := by
    show (decide _ = true ∨ _) ↔ _
    rw [decide_eq_true_iff]
    exact (lt_shift_iff k _ _).symm
  rw [hrun _ hpc, hrun (s.shift k) hpc, hsteady]
  split_ifs with hk hs hs
  · exact iff_of_true rfl ⟨fun _ => hs, fun _ => hk⟩
  · refine iff_of_false (fun h => ?_) (fun h => hs (h.1 hk))
    exact absurd ((goto_shift_iff k s _ _ _).1 h) (by simp)
  · refine iff_of_false (fun h => ?_) (fun h => hk (h.2 hs))
    exact absurd ((goto_shift_iff k s _ _ _).1 h) (by simp)
  · exact iff_of_true rfl ⟨fun h => absurd h hk, fun h => absurd h hs⟩

theorem run_shift (hpoll : ¬ (d = .request ∧ s.pc d = .poll)) :
    (s.shift k).run d = (s.run d).shift k := by
  have hpc' : (s.shift k).pc d = s.pc d := rfl
  unfold run
  rw [hpc']
  rcases hpc : s.pc d with _ | x | x | x | x | _ | _ | _ | _ | _ | _ | _ | _ | _ | _ | _ | _ | _
    | x | x | _ | _ | _ | _ <;> dsimp only
  case isFull =>
    rw [show ISFULL ((s.shift k).producer d) ((s.shift k).consumer d) = _ from isFull_shift k _ _]
    exact ite_shift k s d _ _ _
  case poke =>
    rw [signal_shift]
    rfl
  case write =>
    rw [show (s.shift k).producer d = s.producer d + k from rfl, setQueue_shift]
    rfl
  case produce =>
    rw [addProducer_shift]
    rfl
  case wasEmpty =>
    rw [show (s.shift k).producer d - (s.shift k).consumer d = _ from add_sub_add k _ _]
    split_ifs
    · rfl
    · rfl
  case insertLock => exact lock_shift k s d d _
  case insertSignal =>
    rw [signal_shift]
    rfl
  case insertUnlock => rfl
  case isEmpty =>
    rw [isEmpty_shift]
    exact ite_shift k s d _ _ _
  case testDisconnect => exact ite_shift k s d _ _ _
  case removeLock => exact lock_shift k s d _ _
  case isEmptyLocked =>
    rw [isEmpty_shift]
    exact ite_shift k s d _ _ _
  case wait => rfl
  case relock => exact lock_shift k s d _ _
  case removeUnlock => rfl
  case read =>
    rw [show (s.shift k).queue (MASK ((s.shift k).consumer d.opposite)) = _ from
      rotate_mask k s.queue _]
    rfl
  case clear =>
    rw [show (s.shift k).consumer d.opposite = s.consumer d.opposite + k from rfl, setQueue_shift]
    rfl
  case consume =>
    rw [addConsumer_shift]
    rfl
  case poll =>
    rcases d with _ | _
    · exact absurd ⟨rfl, hpc⟩ hpoll
    · dsimp only
      rw [isEmpty_shift]
      exact ite_shift k s .reply _ _ _
  case pollFull =>
    rw [isPipeFull_shift]
    exact ite_shift k s d _ _ _
  case broadcastRequest =>
    rw [signal_shift]
    rfl
  case broadcastReply =>
    rw [signal_shift]
    rfl

theorem run_shift_iff : (s.shift k).run d = (s.run d).shift k ↔ s.SteadyRun k d (s.pc d) := by
  by_cases hpoll : d = .request ∧ s.pc d = .poll
  · obtain ⟨rfl, hpc⟩ := hpoll
    rw [hpc]
    exact poll_shift_iff k s hpc
  · refine iff_of_true (run_shift k s d hpoll) ?_
    unfold SteadyRun
    split
    · rename_i hd
      exact absurd ⟨rfl, hd⟩ hpoll
    · trivial

theorem call_shift (op : Op Id) : (s.shift k).call d op = (s.call d op).shift k := by
  rcases op with x | _ | _ | _
  · show (if s.disconnect then _ else _) = shift k (if s.disconnect then _ else _)
    split_ifs
    · rfl
    · rfl
  · rfl
  · rfl
  · rfl

theorem step_shift_iff (a : Action Id) : Commutes k s a ↔ Steady k s a := by
  refine (and_iff_left (isPipeFull_shift k s)).trans ?_
  rcases a with ⟨d, op⟩ | d
  · refine iff_of_true ?_ trivial
    unfold step
    dsimp only
    rw [show (s.shift k).pc = s.pc from rfl]
    cases s.pc d with
    | idle => exact call_shift k s d op
    | _ => rfl
  · exact run_shift_iff k s d

end Shift

/-- The shifted pipe goes the same way exactly as long as no poll for a reply comes upon replies
of which the shift lets one counter wrap and not the other. -/
theorem commutes_iff_steady (k : BitVec 32) (s : ETObjectPipe Id) (actions : List (Action Id)) :
    Along step (Commutes k) s actions ↔ Along step (Steady k) s actions :=
  along_iff (I := fun _ => True) (fun s a _ => step_shift_iff k s a) (fun _ _ _ _ => trivial)
    trivial

/-- A request has been sent and answered, and the requester is about to look for the reply. -/
def untilPoll : List (Action ℕ) :=
  sendRequest (some 1) :: List.replicate 7 (.run .request)
    ++ nextRequest :: List.replicate 4 (.run .reply)
    ++ sendReply (some 2) :: List.replicate 3 (.run .reply)
    ++ [pollForReply]

/-- With one counter of the replies at the largest number and the other at zero, the reply is not
found. -/
theorem poll_not_commutes : ¬ ∀ (actions : List (Action ℕ)) (k : BitVec 32) (a : Action ℕ),
    Commutes k (actions.foldl step {}) a := by
  intro h
  have hpc := congrArg (fun s => s.pc .request) (h untilPoll (-1) (.run .request)).1
  revert hpc
  decide

end Etoile.EtoileThread.ETObjectPipe
