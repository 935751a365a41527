import Etoile.EtoileThread.PipeMoves
import Etoile.Lib.Fairness

/-!
# Disconnecting an object pipe

A requester and a replier use a pipe while someone disconnects it, once.  The three take their
steps in any order.
-/

namespace Etoile.EtoileThread

open ETObjectPipe

/-- How far `-disconnect` has come. -/
inductive DisconnectPc
  | before
  | broadcastRequest
  | broadcastReply
  | done
  deriving DecidableEq

/-- `before` is what had been sent when the flag was set; `ended` says whether the replier has
received `nil` for want of a request since. -/
structure Disconnection (Id : Type) where
  pipe : ETObjectPipe Id := {}
  disconnectPc : DisconnectPc := .before
  before : List (Option Id) := []
  ended : Bool := false

namespace Disconnection

variable {Id : Type} {s : Disconnection Id} {d : Direction}

inductive Call (Id : Type)
  | send (x : Option Id)
  | next
  | poll

def Call.op : Call Id → Op Id
  | send x => .send x
  | next => .next
  | poll => .poll

inductive Action (Id : Type)
  | call (d : Direction) (c : Call Id)
  | run (d : Direction)
  | disconnect

/-- The replier's next step returns `nil` because there is no request. -/
def returnsNil (s : ETObjectPipe Id) : Bool :=
  match s.pc .reply with
  | .testDisconnect => s.disconnect
  | .poll => s.disconnect && s.isEmpty .request
  | _ => false

def run (s : Disconnection Id) : Direction → Disconnection Id
  | .request => { s with pipe := s.pipe.run .request }
  | .reply => { s with pipe := s.pipe.run .reply, ended := s.ended || returnsNil s.pipe }

def setDisconnect (s : ETObjectPipe Id) : ETObjectPipe Id := { s with disconnect := true }

/-- One step of `-disconnect`. -/
def disconnect (s : Disconnection Id) : Disconnection Id :=
  match s.disconnectPc with
  | .before =>
    { s with
      pipe := setDisconnect s.pipe
      disconnectPc := .broadcastRequest
      before := s.pipe.sent .request }
  | .broadcastRequest =>
    { s with pipe := s.pipe.signal .request, disconnectPc := .broadcastReply }
  | .broadcastReply => { s with pipe := s.pipe.signal .reply, disconnectPc := .done }
  | .done => s

def step (s : Disconnection Id) : Action Id → Disconnection Id
  | .call d c => { s with pipe := s.pipe.step (.call d c.op) }
  | .run d => s.run d
  | .disconnect => s.disconnect

/-- The thread has called `-sendRequest:` or `-sendReply:` and is going to put something into the
ring. -/
def sends : Pc Id → Bool
  | .isFull _ | .poke _ | .write _ | .produce _ => true
  | _ => false

/-- The thread has found the pipe connected and is going to wait, or waits. -/
def blocks : Pc Id → Bool
  | .removeLock | .isEmptyLocked | .wait | .waiting => true
  | _ => false

/-- Something is sent in the direction `d`, or is going to be. -/
def Coming (s : ETObjectPipe Id) (d : Direction) : Prop :=
  s.isEmpty d = false ∨ sends (s.pc d) = true

def MayDisconnect (s : ETObjectPipe Id) (d : Direction) : Prop :=
  blocks (s.pc d) = true → Coming s d.opposite

def AllTaken (s : ETObjectPipe Id) : Prop :=
  s.isEmpty .request = true ∧ sends (s.pc .request) = false

def ProperDisconnect (s : ETObjectPipe Id) : DisconnectPc → Prop
  | .before => MayDisconnect s .request ∧ MayDisconnect s .reply
  | .broadcastRequest => s.WakesToWork .request
  | .broadcastReply => s.WakesToWork .reply
  | .done => True

def ProperNil (s : ETObjectPipe Id) : Direction → Prop
  | .request => True
  | .reply => returnsNil s = true → AllTaken s

def Proper (s : Disconnection Id) : Action Id → Prop
  | .call d c => s.pipe.Proper (.call d c.op)
  | .run d => s.pipe.Proper (.run d) ∧ ProperNil s.pipe d
  | .disconnect => ProperDisconnect s.pipe s.disconnectPc

/-- No counter passes another; the replier has received what was sent before the pipe was
disconnected by the time it receives `nil`, and nothing after that. -/
structure Orderly (s : Disconnection Id) (a : Action Id) : Prop where
  sound : Sound (s.step a).pipe
  first : (s.step a).ended = true → (s.step a).before <+: (s.step a).pipe.delivered .request
  afterwards : s.ended = true →
    (s.step a).pipe.delivered .request = s.pipe.delivered .request

section Decidable

variable [DecidableEq Id] {p : ETObjectPipe Id}

instance : Decidable (MayDisconnect p d) := inferInstanceAs (Decidable (_ → _ ∨ _))

instance : ∀ pc, Decidable (ProperDisconnect p pc)
  | .before => inferInstanceAs (Decidable (_ ∧ _))
  | .broadcastRequest => inferInstanceAs (Decidable (p.WakesToWork .request))
  | .broadcastReply => inferInstanceAs (Decidable (p.WakesToWork .reply))
  | .done => isTrue trivial

instance : ∀ d, Decidable (ProperNil p d)
  | .request => isTrue trivial
  | .reply => inferInstanceAs (Decidable (_ → _ ∧ _))

instance : ∀ a, Decidable (s.Proper a)
  | .call d c => inferInstanceAs (Decidable (s.pipe.Proper (.call d c.op)))
  | .run _ => inferInstanceAs (Decidable (_ ∧ _))
  | .disconnect => inferInstanceAs (Decidable (ProperDisconnect _ _))

end Decidable

end Disconnection

end Etoile.EtoileThread

/-!
## Runs in which a pipe is disconnected
-/

namespace Etoile.EtoileThread.Disconnection

open ETObjectPipe

variable {Id : Type} {p t : ETObjectPipe Id} {s : Disconnection Id} {d e : Direction}

structure Closed (p : ETObjectPipe Id) : Prop where
  disconnect : p.disconnect = true
  taken : p.sent .request = p.delivered .request
  quiet : sends (p.pc .request) = false

structure Held (s : Disconnection Id) : Prop where
  inv : Inv s.pipe
  calls : ∀ d, elsewhere (s.pipe.pc d) = false
  before : s.before <+: s.pipe.sent .request
  closed : s.ended = true → Closed s.pipe

theorem sends_next {pc pc' : Pc Id} (h : Next p d pc pc') (hs : sends pc = false) :
    sends pc' = false := by
  cases h <;> first | rfl | cases hs

theorem sends_moves (h : Moves p d t) (hs : sends (p.pc d) = false) : sends (t.pc d) = false := by
  cases h with
  | stays h => exact hs
  | goes hpc h =>
    rw [goto_pc_self]
    exact sends_next h (hpc ▸ hs)
  | locks hpc h hfree =>
    rw [goto_pc_self]
    cases h <;> rfl
  | unlocks hpc h =>
    rw [goto_pc_self]
    cases h <;> rfl
  | writes hpc =>
    rw [hpc] at hs
    cases hs
  | signals hpc | produces hpc | clears hpc | consumes hpc =>
    rw [goto_pc_self]
    rfl

theorem elsewhere_moves (h : Moves p d t) (hs : elsewhere (p.pc d) = false) :
    elsewhere (t.pc d) = false := by
  cases h with
  | stays h => exact hs
  | goes hpc h =>
    rw [goto_pc_self]
    cases h <;> rfl
  | locks hpc h hfree =>
    rw [goto_pc_self]
    cases h <;> rfl
  | unlocks hpc h =>
    rw [goto_pc_self]
    cases h <;> rfl
  | signals hpc | writes hpc | produces hpc | clears hpc | consumes hpc =>
    rw [goto_pc_self]
    rfl

theorem Closed.moves (h : Closed p) (hinv : Inv p) (hm : Moves p d t) :
    Closed t ∧ t.delivered .request = p.delivered .request := by
  have hring : t.sent .request = p.sent .request ∧ t.delivered .request = p.delivered .request := by
    cases hm with
    | signals hpc =>
      exact ⟨congrFun (signal_sent p d) _, congrFun (signal_delivered p d) _⟩
    | @produces x hpc =>
      rcases d with _ | _
      · have hq := h.quiet
        rw [hpc] at hq
        cases hq
      · exact ⟨rfl, rfl⟩
    | @consumes x hpc =>
      rcases d with _ | _
      · exact ⟨rfl, rfl⟩
      · -- what is taken out would be a request
        have hx : p.PcHolds .reply (.consume x) := hpc ▸ hinv.pcs .reply
        have hlt := (List.getElem?_eq_some_iff.1 hx).1
        rw [show p.sent Direction.reply.opposite = _ from h.taken] at hlt
        exact absurd hlt (Nat.lt_irrefl _)
    | _ => exact ⟨rfl, rfl⟩
  refine ⟨⟨hm.disconnect_eq.trans h.disconnect, ?_, ?_⟩, hring.2⟩
  · rw [hring.1, hring.2, h.taken]
  · rcases d with _ | _
    · exact sends_moves hm h.quiet
    · rcases hm.pc_opposite with hpc | ⟨-, hpc⟩
      · rw [show t.pc .request = _ from hpc]
        exact h.quiet
      · rw [show t.pc .request = _ from hpc]
        rfl

theorem taken_of_isEmpty (h : Inv p) (hempty : p.isEmpty d = true) : p.sent d = p.delivered d :=
  ((h.delivered d).eq_of_length ((h.isEmpty_iff d).1 hempty).symm).symm

/-- A nil that is received for want of a request is the last thing to be received. -/
theorem Closed.of_returnsNil (h : Inv p) (hnil : returnsNil p = true) (hall : AllTaken p) :
    Closed p := by
  refine ⟨?_, taken_of_isEmpty h hall.1, hall.2⟩
  unfold returnsNil at hnil
  split at hnil
  · exact hnil
  · exact (Bool.and_eq_true_iff.1 hnil).1
  · cases hnil

inductive Enters (p : ETObjectPipe Id) : Pc Id → Prop
  | send (x : Option Id) (h : p.disconnect = false) : Enters p (.isFull x)
  | next : Enters p .isEmpty
  | poll : Enters p .poll

theorem call_cases (p : ETObjectPipe Id) (d : Direction) (c : Call Id) :
    p.step (.call d c.op) = p
      ∨ ∃ pc, p.pc d = .idle ∧ p.step (.call d c.op) = p.goto d pc ∧ Enters p pc := by
  unfold ETObjectPipe.step
  dsimp only
  split
  · cases c with
    | send x =>
      cases hdis : p.disconnect with
      | true => exact .inl (if_pos hdis)
      | false => exact .inr ⟨_, ‹_›, if_neg (by simp [hdis]), .send x hdis⟩
    | next => exact .inr ⟨_, ‹_›, rfl, .next⟩
    | poll => exact .inr ⟨_, ‹_›, rfl, .poll⟩
  · exact .inl rfl

theorem Closed.signal (h : Closed p) (e : Direction) : Closed (p.signal e) := by
  unfold ETObjectPipe.signal
  split
  · refine ⟨h.disconnect, h.taken, ?_⟩
    rcases eq_or_opposite e.opposite .request with hd | hd
    · rw [hd, goto_pc_self]
      rfl
    · rw [goto_pc_of_ne (by rw [hd]; exact opposite_ne _)]
      exact h.quiet
  · exact h

theorem elsewhere_signal (h : ∀ d, elsewhere (p.pc d) = false) (e : Direction) :
    ∀ d, elsewhere ((p.signal e).pc d) = false := by
  unfold ETObjectPipe.signal
  split
  · intro d
    rcases eq_or_opposite e.opposite d with rfl | rfl
    · rw [goto_pc_self]
      rfl
    · rw [goto_pc_of_ne (opposite_ne _)]
      exact h _
  · exact h

theorem Held.signal (h : Held s) (hw : s.pipe.WakesToWork e) (pc : DisconnectPc) :
    Held { s with pipe := s.pipe.signal e, disconnectPc := pc } where
  inv := h.inv.signal hw
  calls := elsewhere_signal h.calls e
  before := by
    show s.before <+: (s.pipe.signal e).sent .request
    rw [signal_sent]
    exact h.before
  closed hended := (h.closed hended).signal e

theorem Held.disconnect (h : Held s) (hp : ProperDisconnect s.pipe s.disconnectPc) :
    Held s.disconnect := by
  unfold Disconnection.disconnect
  cases hpc : s.disconnectPc with
  | before =>
    refine ⟨h.inv.disconnect, h.calls, List.prefix_rfl, fun hended => ?_⟩
    have hc := h.closed hended
    exact ⟨rfl, hc.taken, hc.quiet⟩
  | broadcastRequest => exact h.signal (by rwa [hpc] at hp) _
  | broadcastReply => exact h.signal (by rwa [hpc] at hp) _
  | done => exact h

theorem Held.call (h : Held s) {c : Call Id} (hp : s.pipe.Proper (.call d c.op)) :
    Held (s.step (.call d c)) := by
  have hinv : Inv (s.pipe.step (.call d c.op)) := h.inv.step hp
  rcases call_cases s.pipe d c with hsame | ⟨pc, hidle, hgo, henter⟩
  · show Held { s with pipe := s.pipe.step (.call d c.op) }
    rw [hsame]
    exact h
  · show Held { s with pipe := s.pipe.step (.call d c.op) }
    rw [hgo] at hinv ⊢
    refine ⟨hinv, fun e => ?_, h.before, fun hended => ?_⟩
    · show elsewhere ((s.pipe.goto d pc).pc e) = false
      rcases eq_or_opposite d e with rfl | rfl
      · rw [goto_pc_self]
        cases henter <;> rfl
      · rw [goto_pc_of_ne (opposite_ne d)]
        exact h.calls _
    · have hc := h.closed hended
      refine ⟨hc.disconnect, hc.taken, ?_⟩
      show sends ((s.pipe.goto d pc).pc .request) = false
      rcases d with _ | _
      · rw [goto_pc_self]
        cases henter with
        | send x hdis => exact absurd hc.disconnect (by simp [hdis])
        | next => rfl
        | poll => rfl
      · exact hc.quiet

theorem Held.moves (h : Held s) (hinv : Inv t) (hm : Moves s.pipe d t) {ended : Bool}
    (hended : ended = true → Closed s.pipe) : Held { s with pipe := t, ended := ended } where
  inv := hinv
  calls e := by
    show elsewhere (t.pc e) = false
    rcases eq_or_opposite d e with rfl | rfl
    · exact elsewhere_moves hm (h.calls _)
    · rcases hm.pc_opposite with hpc | ⟨-, hpc⟩ <;> rw [hpc]
      · exact h.calls _
      · rfl
  before := h.before.trans (hm.sent_prefix .request)
  closed he := ((hended he).moves h.inv hm).1

theorem Held.run (h : Held s) (hp : s.pipe.Proper (.run d)) (hnil : ProperNil s.pipe d) :
    Held (s.run d) := by
  have hinv : Inv (s.pipe.run d) := h.inv.run hp
  have hm := run_moves h.inv (h.calls d)
  rcases d with _ | _
  · exact h.moves hinv hm h.closed
  · refine h.moves hinv hm fun hended => ?_
    rcases Bool.or_eq_true_iff.1 hended with hended | hreturns
    · exact h.closed hended
    · exact .of_returnsNil h.inv hreturns (hnil hreturns)

theorem Held.step (h : Held s) : ∀ {a : Action Id}, s.Proper a → Held (s.step a)
  | .call _ _, hp => h.call hp
  | .run _, hp => h.run hp.1 hp.2
  | .disconnect, hp => h.disconnect hp

theorem Held.init : Held ({} : Disconnection Id) where
  inv := .init
  calls _ := rfl
  before := List.prefix_rfl
  closed h := by cases h

theorem Held.orderly (h : Held s) {a : Action Id} (hp : s.Proper a) : Orderly s a := by
  have h' := h.step hp
  refine ⟨h'.inv.sound, fun hended => ?_, fun hended => ?_⟩
  · rw [← (h'.closed hended).taken]
    exact h'.before
  · have hc := h.closed hended
    cases a with
    | call d c =>
      show (s.pipe.step (.call d c.op)).delivered .request = _
      rcases call_cases s.pipe d c with hsame | ⟨pc, -, hgo, -⟩
      · rw [hsame]
      · rw [hgo]
        rfl
    | run d =>
      have hm := hc.moves h.inv (run_moves h.inv (h.calls d))
      rcases d with _ | _ <;> exact hm.2
    | disconnect =>
      show s.disconnect.pipe.delivered .request = _
      unfold Disconnection.disconnect
      cases s.disconnectPc with
      | before => rfl
      | broadcastRequest => exact congrFun (signal_delivered s.pipe .request) _
      | broadcastReply => exact congrFun (signal_delivered s.pipe .reply) _
      | done => rfl

end Etoile.EtoileThread.Disconnection
