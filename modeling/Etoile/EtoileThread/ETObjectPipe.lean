import Etoile.Lib.Ring

/-!
# Object pipes

A pipe carries requests from one end to the other and replies back, both in one ring of sixteen
slots.  Each end is held by one thread; the threads take turns in any order, one access to the
pipe at a time.
-/

namespace Etoile.EtoileThread

open Function

inductive Direction
  | request
  | reply
  deriving DecidableEq

def Direction.opposite : Direction → Direction
  | request => reply
  | reply => request

/-- Where a thread is in the method it executes.  A thread is named by the direction it sends in;
`isFull` to `insertUnlock` are the steps of `INSERT`, `isEmpty` to `consume` those of `REMOVE`. -/
inductive Pc (Id : Type)
  | idle
  | isFull (x : Option Id)
  | poke (x : Option Id)
  | write (x : Option Id)
  | produce (x : Option Id)
  | wasEmpty
  | insertLock
  | insertSignal
  | insertUnlock
  | isEmpty
  | testDisconnect
  | removeLock
  | isEmptyLocked
  | wait
  | waiting
  | relock
  | removeUnlock
  | read
  | clear (x : Option Id)
  | consume (x : Option Id)
  | poll
  | pollFull
  | broadcastRequest
  | broadcastReply
  deriving DecidableEq

/-- The counters, conditions and threads are those of each direction: `producer d` is counted up
by the thread `d`, which waits on the condition of the direction it receives in.  `sent` and
`delivered` record what has been put into the ring and what has been taken out. -/
structure ETObjectPipe (Id : Type) where
  queue : ℕ → Option Id := fun _ => none
  producer : Direction → BitVec 32 := fun _ => 0
  consumer : Direction → BitVec 32 := fun _ => 0
  disconnect : Bool := false
  owner : Direction → Option Direction := fun _ => none
  pc : Direction → Pc Id := fun _ => .idle
  sent : Direction → List (Option Id) := fun _ => []
  delivered : Direction → List (Option Id) := fun _ => []

namespace ETObjectPipe

variable {Id : Type}

def RING_BUFFER_SIZE : BitVec 32 := 16

def RING_BUFFER_MASK : BitVec 32 := RING_BUFFER_SIZE - 1

def SPACE (producer consumer : BitVec 32) : BitVec 32 := RING_BUFFER_SIZE - (producer - consumer)

def ISFULL (producer consumer : BitVec 32) : Bool := SPACE producer consumer = 0

def ISEMPTY (producer consumer : BitVec 32) : Bool := producer - consumer = 0

def MASK (index : BitVec 32) : ℕ := (index &&& RING_BUFFER_MASK).toNat

def isPipeFull (s : ETObjectPipe Id) : Bool := ISFULL (s.producer .request) (s.consumer .reply)

def isEmpty (s : ETObjectPipe Id) (d : Direction) : Bool := ISEMPTY (s.producer d) (s.consumer d)

def goto (s : ETObjectPipe Id) (d : Direction) (pc : Pc Id) : ETObjectPipe Id :=
  { s with pc := update s.pc d pc }

def setQueue (s : ETObjectPipe Id) (i : ℕ) (x : Option Id) : ETObjectPipe Id :=
  { s with queue := update s.queue i x }

def setOwner (s : ETObjectPipe Id) (d : Direction) (o : Option Direction) : ETObjectPipe Id :=
  { s with owner := update s.owner d o }

/-- `__sync_fetch_and_add(&producer, 1)`. -/
def addProducer (s : ETObjectPipe Id) (d : Direction) (x : Option Id) : ETObjectPipe Id :=
  { s with
    producer := update s.producer d (s.producer d + 1)
    sent := update s.sent d (s.sent d ++ [x]) }

/-- `__sync_fetch_and_add(&consumer, 1)`. -/
def addConsumer (s : ETObjectPipe Id) (d : Direction) (x : Option Id) : ETObjectPipe Id :=
  { s with
    consumer := update s.consumer d (s.consumer d + 1)
    delivered := update s.delivered d (s.delivered d ++ [x]) }

/-- The thread that waits on the condition of this direction, if it does, goes on to lock it
again.  There is one thread at most, so a broadcast is a signal. -/
def signal (s : ETObjectPipe Id) (d : Direction) : ETObjectPipe Id :=
  match s.pc d.opposite with
  | .waiting => s.goto d.opposite .relock
  | _ => s

/-- Takes the lock of the condition of `e` if it is free, else the thread is held up. -/
def lock (s : ETObjectPipe Id) (d e : Direction) (pc : Pc Id) : ETObjectPipe Id :=
  match s.owner e with
  | none => (s.setOwner e (some d)).goto d pc
  | some _ => s

def unlock (s : ETObjectPipe Id) (d e : Direction) (pc : Pc Id) : ETObjectPipe Id :=
  (s.setOwner e none).goto d pc

/-- What a thread asks of the pipe: `-sendRequest:` or `-sendReply:`, `-nextReply` or
`-nextRequest`, `-pollForReply` or `-pollForRequest`, and `-disconnect`. -/
inductive Op (Id : Type)
  | send (x : Option Id)
  | next
  | poll
  | disconnect

def call (s : ETObjectPipe Id) (d : Direction) : Op Id → ETObjectPipe Id
  | .send x => if s.disconnect then s else s.goto d (.isFull x)
  | .next => s.goto d .isEmpty
  | .poll => s.goto d .poll
  | .disconnect => { s with disconnect := true }.goto d .broadcastRequest

/-- One step of the thread that sends in the direction `d`. -/
def run (s : ETObjectPipe Id) (d : Direction) : ETObjectPipe Id :=
  let e := d.opposite
  match s.pc d with
  | .idle => s
  | .isFull x =>
    if ISFULL (s.producer d) (s.consumer d) then s.goto d (.poke x) else s.goto d (.write x)
  | .poke x => (s.signal d).goto d (.isFull x)
  | .write x => (s.setQueue (MASK (s.producer d)) x).goto d (.produce x)
  | .produce x => (s.addProducer d x).goto d .wasEmpty
  | .wasEmpty =>
    if s.producer d - s.consumer d = 1 then s.goto d .insertLock else s.goto d .idle
  | .insertLock => s.lock d d .insertSignal
  | .insertSignal => (s.signal d).goto d .insertUnlock
  | .insertUnlock => s.unlock d d .idle
  | .isEmpty => if s.isEmpty e then s.goto d .testDisconnect else s.goto d .read
  | .testDisconnect => if s.disconnect then s.goto d .idle else s.goto d .removeLock
  | .removeLock => s.lock d e .isEmptyLocked
  | .isEmptyLocked => if s.isEmpty e then s.goto d .wait else s.goto d .removeUnlock
  | .wait => s.unlock d e .waiting
  | .waiting => s
  | .relock => s.lock d e .removeUnlock
  | .removeUnlock => s.unlock d e .read
  | .read => s.goto d (.clear (s.queue (MASK (s.consumer e))))
  | .clear x => (s.setQueue (MASK (s.consumer e)) none).goto d (.consume x)
  | .consume x => (s.addConsumer e x).goto d .idle
  | .poll =>
    match d with
    | .request =>
      if s.consumer .reply < s.producer .reply then s.goto d .read else s.goto d .pollFull
    | .reply => if s.isEmpty .request then s.goto d .idle else s.goto d .read
  | .pollFull => if s.isPipeFull then s.goto d .isEmpty else s.goto d .idle
  | .broadcastRequest => (s.signal .request).goto d .broadcastReply
  | .broadcastReply => (s.signal .reply).goto d .idle

inductive Action (Id : Type)
  | call (d : Direction) (op : Op Id)
  | run (d : Direction)

def step (s : ETObjectPipe Id) : Action Id → ETObjectPipe Id
  | .call d op =>
    match s.pc d with
    | .idle => s.call d op
    | _ => s
  | .run d => s.run d

def sendRequest (x : Option Id) : Action Id := .call .request (.send x)

def sendReply (x : Option Id) : Action Id := .call .reply (.send x)

def nextRequest : Action Id := .call .reply .next

def nextReply : Action Id := .call .request .next

def pollForRequest : Action Id := .call .reply .poll

def pollForReply : Action Id := .call .request .poll

end ETObjectPipe

end Etoile.EtoileThread
