import Etoile.Lib.Fairness
import Etoile.Lib.Mutex

/-!
# Futures

A threaded object answers a message with a proxy for what the message will return.  Any number of
threads ask the proxy for its value, or send messages to it, before and after the object's own
thread sets it.  They take turns in any order, one access to the shared state at a time.
-/

namespace Etoile.EtoileThread

/-- Where a thread is in `-value`, which a message only calls if `outerTest` finds no object, or in
`-setProxyObject:`. -/
inductive ProxyPc (Id : Type)
  | idle
  | outerTest
  | test
  | lock
  | testLocked
  | wait
  | waiting
  | relock
  | unlock
  | read
  | setLock (anObject : Id)
  | setObject (anObject : Id)
  | setSignal
  | setUnlock
  deriving DecidableEq

def ProxyPc.locked {Id : Type} : ProxyPc Id → Bool
  | testLocked | wait | unlock | setObject _ | setSignal | setUnlock => true
  | idle | outerTest | test | lock | waiting | relock | read | setLock _ => false

/-- There is no object as long as it is `INVALID_OBJECT`.  `conditionVariable` has the threads that
wait for it, `setter` is the thread that has called `-setProxyObject:`, and `returned` what the
other calls have returned or sent their messages to. -/
structure ETThreadProxyReturn (T Id : Type) where
  object : Option Id := none
  conditionVariable : List T := []
  mutex : Option T := none
  pc : T → ProxyPc Id := fun _ => .idle
  setter : Option T := none
  returned : List (T × Option Id) := []

/-- A thread makes a call, or goes on; which of the waiting threads a signal wakes is open, and a
thread may also wake up without one. -/
inductive ProxyAction (T Id : Type)
  | value (t : T)
  | forwardInvocation (t : T)
  | setProxyObject (t : T) (anObject : Id)
  | go (t : T) (woken : ℕ)
  | wakeUp (t : T)

def ProxyAction.thread {T Id : Type} : ProxyAction T Id → Option T
  | go t _ => some t
  | _ => none

namespace ETThreadProxyReturn

variable {T Id : Type} [DecidableEq T] (s : ETThreadProxyReturn T Id)

def goto (t : T) (pc : ProxyPc Id) : ETThreadProxyReturn T Id :=
  { s with pc := Function.update s.pc t pc }

def lockedBy (owner : Option T) : ETThreadProxyReturn T Id := { s with mutex := owner }

def setObject (anObject : Id) : ETThreadProxyReturn T Id := { s with object := some anObject }

def answer (t : T) : ETThreadProxyReturn T Id :=
  { s with returned := (t, s.object) :: s.returned }

def waits (t : T) : ETThreadProxyReturn T Id :=
  { s with conditionVariable := t :: s.conditionVariable }

def wake (t : T) : ETThreadProxyReturn T Id :=
  ({ s with conditionVariable := s.conditionVariable.filter (· ≠ t) } : ETThreadProxyReturn T Id).goto
    t .relock

def signal (woken : ℕ) : ETThreadProxyReturn T Id :=
  match s.conditionVariable[woken % s.conditionVariable.length]? with
  | none => s
  | some t => s.wake t

def takes (t : T) (pc : ProxyPc Id) : ETThreadProxyReturn T Id :=
  if s.mutex = none then (s.lockedBy (some t)).goto t pc else s

/-- The next access of a thread; one that waits or is held up by the lock has none. -/
def go (t : T) (woken : ℕ) : ETThreadProxyReturn T Id :=
  match s.pc t with
  | .idle => s
  | .outerTest => s.goto t (if s.object.isNone then .test else .read)
  | .test => s.goto t (if s.object.isNone then .lock else .read)
  | .lock => s.takes t .testLocked
  | .testLocked => s.goto t (if s.object.isNone then .wait else .unlock)
  | .wait => ((s.waits t).lockedBy none).goto t .waiting
  | .waiting => s
  | .relock => s.takes t .unlock
  | .unlock => (s.lockedBy none).goto t .read
  | .read => (s.answer t).goto t .idle
  | .setLock anObject => s.takes t (.setObject anObject)
  | .setObject anObject => (s.setObject anObject).goto t .setSignal
  | .setSignal => (s.signal woken).goto t .setUnlock
  | .setUnlock => (s.lockedBy none).goto t .idle

/-- What a thread calls when it is in another call is left out, and so is another
`-setProxyObject:`. -/
def step : ProxyAction T Id → ETThreadProxyReturn T Id
  | .value t => match s.pc t with
    | .idle => s.goto t .test
    | _ => s
  | .forwardInvocation t => match s.pc t with
    | .idle => s.goto t .outerTest
    | _ => s
  | .setProxyObject t anObject => match s.pc t, s.setter with
    | .idle, none =>
      ({ s with setter := some t } : ETThreadProxyReturn T Id).goto t (.setLock anObject)
    | _, _ => s
  | .go t woken => s.go t woken
  | .wakeUp t => match s.pc t with
    | .waiting => s.wake t
    | _ => s

def Fair (schedule : ℕ → ProxyAction T Id) : Prop :=
  ∀ t k, ∃ m, k ≤ m ∧ (schedule m).thread = some t

/-- What is returned is the object that has been set, and once it is set every call returns. -/
structure Delivers (schedule : ℕ → ProxyAction T Id) : Prop where
  valid : ∀ n, ∀ r ∈ (stateAt step {} schedule n).returned,
    ∃ v, (stateAt step {} schedule n).object = some v ∧ r.2 = some v
  returns : ∀ n t, (stateAt step {} schedule n).object ≠ none →
    ∃ m, n ≤ m ∧ (stateAt step {} schedule m).pc t = .idle

/-- A thread wakes up without a signal only when there is an object, and the signal finds no more
than one thread that waits. -/
def Proper : ProxyAction T Id → Prop
  | .wakeUp t => s.pc t = .waiting → s.object ≠ none
  | .go t _ => s.pc t = .setSignal → s.conditionVariable.length ≤ 1
  | _ => True

instance decidableProper [DecidableEq Id] : ∀ a : ProxyAction T Id, Decidable (s.Proper a)
  | .wakeUp _ | .go _ _ => inferInstanceAs (Decidable (_ → _))
  | .value _ | .forwardInvocation _ | .setProxyObject _ _ => .isTrue trivial

end ETThreadProxyReturn

end Etoile.EtoileThread
