import Etoile.EtoileThread.PipeRuns

/-!
# What one step of a thread does

A step moves a thread of an object pipe on, takes or gives back a lock, wakes the other thread, or
changes the ring.  No thread is ever found to wait for room in the ring.
-/

namespace Etoile.EtoileThread.ETObjectPipe

variable {Id : Type} {s : ETObjectPipe Id} {d : Direction}

inductive Next (s : ETObjectPipe Id) (d : Direction) : Pc Id → Pc Id → Prop
  | isFull (x : Option Id) : Next s d (.isFull x) (.write x)
  | wasEmpty (h : s.producer d - s.consumer d = 1) : Next s d .wasEmpty .insertLock
  | wasNotEmpty (h : s.producer d - s.consumer d ≠ 1) : Next s d .wasEmpty .idle
  | isEmpty (h : s.isEmpty d.opposite = true) : Next s d .isEmpty .testDisconnect
  | isNotEmpty : Next s d .isEmpty .read
  | disconnected (h : s.disconnect = true) : Next s d .testDisconnect .idle
  | connected (h : s.disconnect = false) : Next s d .testDisconnect .removeLock
  | stillEmpty (h : s.isEmpty d.opposite = true) : Next s d .isEmptyLocked .wait
  | filled : Next s d .isEmptyLocked .removeUnlock
  | read (x : Option Id) : Next s d .read (.clear x)
  | pollNext : Next s d .poll .read
  | pollFull : Next s d .poll .pollFull
  | pollEmpty : Next s d .poll .idle
  | full : Next s d .pollFull .isEmpty
  | notFull : Next s d .pollFull .idle

/-- The steps of `d` that take the lock of `e`. -/
inductive Takes {Id : Type} (d : Direction) : Pc Id → Direction → Pc Id → Prop
  | insertLock : Takes d .insertLock d .insertSignal
  | removeLock : Takes d .removeLock d.opposite .isEmptyLocked
  | relock : Takes d .relock d.opposite .removeUnlock

inductive Leaves {Id : Type} (d : Direction) : Pc Id → Direction → Pc Id → Prop
  | insertUnlock : Leaves d .insertUnlock d .idle
  | wait : Leaves d .wait d.opposite .waiting
  | removeUnlock : Leaves d .removeUnlock d.opposite .read

def blocked (s : ETObjectPipe Id) (d : Direction) : Bool :=
  match s.pc d with
  | .waiting => true
  | .insertLock => (s.owner d).isSome
  | .removeLock | .relock => (s.owner d.opposite).isSome
  | _ => false

/-- The places of `INSERT` where it polls for room, and those of a thread that disconnects. -/
def elsewhere : Pc Id → Bool
  | .poke _ | .broadcastRequest | .broadcastReply => true
  | _ => false

/-- What a step of the thread `d` does. -/
inductive Moves (s : ETObjectPipe Id) (d : Direction) : ETObjectPipe Id → Prop
  | stays (h : s.pc d = .idle ∨ s.blocked d = true) : Moves s d s
  | goes {pc pc' : Pc Id} (hpc : s.pc d = pc) (h : Next s d pc pc') : Moves s d (s.goto d pc')
  | locks {e : Direction} {pc pc' : Pc Id} (hpc : s.pc d = pc) (h : Takes d pc e pc')
      (hfree : s.owner e = none) : Moves s d ((s.setOwner e (some d)).goto d pc')
  | unlocks {e : Direction} {pc pc' : Pc Id} (hpc : s.pc d = pc) (h : Leaves d pc e pc') :
      Moves s d ((s.setOwner e none).goto d pc')
  | signals (hpc : s.pc d = .insertSignal) : Moves s d ((s.signal d).goto d .insertUnlock)
  | writes {x : Option Id} (hpc : s.pc d = .write x) :
      Moves s d ((s.setQueue (MASK (s.producer d)) x).goto d (.produce x))
  | produces {x : Option Id} (hpc : s.pc d = .produce x) :
      Moves s d ((s.addProducer d x).goto d .wasEmpty)
  | clears {x : Option Id} (hpc : s.pc d = .clear x) :
      Moves s d ((s.setQueue (MASK (s.consumer d.opposite)) none).goto d (.consume x))
  | consumes {x : Option Id} (hpc : s.pc d = .consume x) :
      Moves s d ((s.addConsumer d.opposite x).goto d .idle)

theorem Inv.used (h : Inv s) (d : Direction) :
    (s.producer d - s.consumer d).toNat = (s.sent d).length - (s.delivered d).length := by
  have hwindow := h.window d
  rw [h.producer, h.consumer]
  exact counter_sub_toNat (h.taken_le d) (by omega)

theorem Inv.not_full (h : Inv s) (hroom : s.Room d) :
    ISFULL (s.producer d) (s.consumer d) = false := by
  refine Bool.eq_false_iff.2 fun hfull => ?_
  have hused := h.used d
  have hlt := h.room_lt hroom
  have hlo := (h.window d).1
  rw [(isFull_iff _ _).1 hfull] at hused
  have : (16 : BitVec 32).toNat = 16 := rfl
  omega

theorem Inv.isEmpty_iff (h : Inv s) (d : Direction) :
    s.isEmpty d = true ↔ (s.sent d).length = (s.delivered d).length := by
  have hle := h.taken_le d
  have hused := h.used d
  unfold isEmpty ISEMPTY
  rw [decide_eq_true_iff]
  constructor
  · intro hzero
    rw [hzero] at hused
    have : (0 : BitVec 32).toNat = 0 := rfl
    omega
  · intro heq
    exact BitVec.eq_of_toNat_eq (by rw [hused, heq, Nat.sub_self]; rfl)

theorem Inv.one_iff (h : Inv s) (d : Direction) :
    s.producer d - s.consumer d = 1 ↔ (s.sent d).length = (s.delivered d).length + 1 := by
  have hle := h.taken_le d
  have hused := h.used d
  have hone : (1 : BitVec 32).toNat = 1 := rfl
  constructor
  · intro heq
    rw [heq] at hused
    omega
  · intro heq
    exact BitVec.eq_of_toNat_eq (by omega)

theorem moves_lock {e : Direction} {pc pc' : Pc Id} (hpc : s.pc d = pc) (h : Takes d pc e pc')
    (hb : (s.owner e).isSome = true → s.blocked d = true) : Moves s d (s.lock d e pc') := by
  unfold lock
  cases ho : s.owner e with
  | none => exact .locks hpc h ho
  | some o => exact .stays (.inr (hb (by rw [ho]; rfl)))

theorem run_moves (h : Inv s) (he : elsewhere (s.pc d) = false) : Moves s d (s.run d) := by
  have hd := h.pcs d
  unfold ETObjectPipe.run
  rcases hpc : s.pc d with _ | x | x | x | x | _ | _ | _ | _ | _ | _ | _ | _ | _ | _ | _ | _ | _
    | x | x | _ | _ | _ | _ <;> rw [hpc] at hd he <;> dsimp only
  case idle => exact .stays (.inl hpc)
  case isFull =>
    rw [h.not_full hd]
    exact .goes hpc (.isFull x)
  case poke => cases he
  case write => exact .writes hpc
  case produce => exact .produces hpc
  case wasEmpty =>
    split_ifs with hone
    · exact .goes hpc (.wasEmpty hone)
    · exact .goes hpc (.wasNotEmpty hone)
  case insertLock =>
    refine moves_lock hpc .insertLock fun ho => ?_
    unfold blocked
    rw [hpc]
    exact ho
  case insertSignal => exact .signals hpc
  case insertUnlock => exact .unlocks hpc .insertUnlock
  case isEmpty =>
    split_ifs with hempty
    · exact .goes hpc (.isEmpty hempty)
    · exact .goes hpc .isNotEmpty
  case testDisconnect =>
    split_ifs with hdis
    · exact .goes hpc (.disconnected hdis)
    · exact .goes hpc (.connected (Bool.eq_false_of_not_eq_true hdis))
  case removeLock =>
    refine moves_lock hpc .removeLock fun ho => ?_
    unfold blocked
    rw [hpc]
    exact ho
  case isEmptyLocked =>
    split_ifs with hempty
    · exact .goes hpc (.stillEmpty hempty)
    · exact .goes hpc .filled
  case wait => exact .unlocks hpc .wait
  case waiting =>
    refine .stays (.inr ?_)
    unfold blocked
    rw [hpc]
  case relock =>
    refine moves_lock hpc .relock fun ho => ?_
    unfold blocked
    rw [hpc]
    exact ho
  case removeUnlock => exact .unlocks hpc .removeUnlock
  case read => exact .goes hpc (.read _)
  case clear => exact .clears hpc
  case consume => exact .consumes hpc
  case poll =>
    rcases d with _ | _ <;> dsimp only <;> split_ifs
    · exact .goes hpc .pollNext
    · exact .goes hpc .pollFull
    · exact .goes hpc .pollEmpty
    · exact .goes hpc .pollNext
  case pollFull =>
    split_ifs
    · exact .goes hpc .full
    · exact .goes hpc .notFull
  case broadcastRequest => cases he
  case broadcastReply => cases he

section Frames

theorem signal_sent (s : ETObjectPipe Id) (d : Direction) : (s.signal d).sent = s.sent := by
  rcases signal_cases s d with h | h <;> rw [h]
  rfl

theorem signal_delivered (s : ETObjectPipe Id) (d : Direction) :
    (s.signal d).delivered = s.delivered := by
  rcases signal_cases s d with h | h <;> rw [h]
  rfl

variable {t : ETObjectPipe Id} (h : Moves s d t)

include h

theorem Moves.disconnect_eq : t.disconnect = s.disconnect := by
  cases h with
  | signals hpc => rcases signal_cases s d with hs | hs <;> rw [hs] <;> rfl
  | _ => rfl

theorem Moves.sent_prefix (e : Direction) : s.sent e <+: t.sent e := by
  cases h with
  | signals hpc =>
    show s.sent e <+: (s.signal d).sent e
    exact (signal_sent s d).symm ▸ List.prefix_rfl
  | @produces x hpc =>
    show s.sent e <+: (s.addProducer d x).sent e
    rcases eq_or_opposite d e with rfl | rfl
    · rw [sent_addProducer]
      exact List.prefix_append _ _
    · exact (sent_addProducer_of_ne (opposite_ne d) x).symm ▸ List.prefix_rfl
  | _ => exact List.prefix_rfl

theorem Moves.pc_opposite : t.pc d.opposite = s.pc d.opposite
    ∨ s.pc d.opposite = .waiting ∧ t.pc d.opposite = .relock := by
  cases h with
  | stays h => exact .inl rfl
  | signals hpc =>
    rw [goto_pc_of_ne (opposite_ne d)]
    unfold signal
    split
    · rename_i hw
      exact .inr ⟨hw, goto_pc_self ..⟩
    · exact .inl rfl
  | _ => exact .inl (goto_pc_of_ne (opposite_ne d) _)

end Frames

end Etoile.EtoileThread.ETObjectPipe
