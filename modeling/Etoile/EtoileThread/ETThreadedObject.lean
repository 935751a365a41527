import Etoile.Lib.Ring

/-!
# Threaded objects

The messages to a threaded object are put into a ring by the thread that sends them, two slots
each, and taken out by a thread of the object's own.  Deallocation tells that thread to end and
waits for it.  The three threads take turns in any order, one access to the shared state at a time.
-/

namespace Etoile.EtoileThread

/-- The size of an `unsigned long` depends on the platform. -/
inductive DataModel
  | ilp32
  | lp64

def DataModel.longBits : DataModel → ℕ
  | ilp32 => 32
  | lp64 => 64

inductive Party
  | producer
  | dealloc
  | worker
  deriving DecidableEq

/-- A message: the invocation, and the proxy for what it returns, if it returns an object. -/
structure Message (Id : Type) where
  invocation : Id
  proxy : Option Id
  deriving DecidableEq

/-- Where the thread that forwards invocations is in `INSERT`. -/
inductive ProducerPc (Id : Type)
  | idle
  | isFull (x : Message Id)
  | writeInvocation (x : Message Id)
  | writeProxy (x : Message Id)
  | produce (x : Message Id)
  | wasEmpty
  | lock
  | signal
  | unlock
  deriving DecidableEq

/-- Where `-dealloc` is; `spinSignal`, `spinUnlock` and `spinLock` are the body of its loop. -/
inductive DeallocPc
  | notStarted
  | lock
  | terminate
  | testThread
  | spinSignal
  | spinUnlock
  | spinLock
  | signal
  | unlock
  | waitForTermination
  | finished
  deriving DecidableEq

/-- Where the run loop is; `isEmpty` to `consume` are the steps of `REMOVE`. -/
inductive WorkerPc (Id : Type)
  | setThread
  | isEmpty
  | testTerminate
  | testIdle
  | idling
  | lock
  | isEmptyLocked
  | wait
  | waiting
  | relock
  | unlock
  | readInvocation
  | readProxy (invocation : Option Id)
  | consume (invocation proxy : Option Id)
  | invoke (invocation proxy : Option Id)
  | terminated
  deriving DecidableEq

/-- `forwarded`, `taken` and `executed` record the messages, and `queued` those that were forwarded
when the object was told to terminate. -/
structure ETThreadedObject (m : DataModel) (Id : Type) where
  invocations : ℕ → Option Id := fun _ => none
  producer : BitVec m.longBits := 0
  consumer : BitVec m.longBits := 0
  terminate : Bool := false
  thread : Bool := false
  idle : Bool
  owner : Option Party := none
  producerPc : ProducerPc Id := .idle
  deallocPc : DeallocPc := .notStarted
  workerPc : WorkerPc Id := .setThread
  forwarded : List (Message Id) := []
  taken : List (Option Id × Option Id) := []
  executed : List (Option Id × Option Id) := []
  queued : List (Message Id) := []

namespace ETThreadedObject

variable {m : DataModel} {Id : Type}

def QUEUE_SIZE : BitVec m.longBits := 256

def QUEUE_MASK : BitVec m.longBits := 0xff

def SPACE (s : ETThreadedObject m Id) : BitVec m.longBits := QUEUE_SIZE - (s.producer - s.consumer)

def ISFULL (s : ETThreadedObject m Id) : Bool := s.SPACE = 0

def ISEMPTY (s : ETThreadedObject m Id) : Bool := s.producer - s.consumer = 0

def MASK (index : BitVec m.longBits) : ℕ := (index &&& QUEUE_MASK).toNat

def setSlot (s : ETThreadedObject m Id) (i : ℕ) (x : Option Id) : ETThreadedObject m Id :=
  { s with invocations := Function.update s.invocations i x }

def producerAt (s : ETThreadedObject m Id) (pc : ProducerPc Id) : ETThreadedObject m Id :=
  { s with producerPc := pc }

def deallocAt (s : ETThreadedObject m Id) (pc : DeallocPc) : ETThreadedObject m Id :=
  { s with deallocPc := pc }

def workerAt (s : ETThreadedObject m Id) (pc : WorkerPc Id) : ETThreadedObject m Id :=
  { s with workerPc := pc }

def ownedBy (s : ETThreadedObject m Id) (o : Option Party) : ETThreadedObject m Id :=
  { s with owner := o }

def signal (s : ETThreadedObject m Id) : ETThreadedObject m Id :=
  match s.workerPc with
  | .waiting => s.workerAt .relock
  | _ => s

/-- `__sync_fetch_and_add(&producer, 2)`. -/
def addProducer (s : ETThreadedObject m Id) (x : Message Id) : ETThreadedObject m Id :=
  { s with producer := s.producer + 2, forwarded := s.forwarded ++ [x] }

/-- `__sync_fetch_and_add(&consumer, 2)`. -/
def addConsumer (s : ETThreadedObject m Id) (x r : Option Id) : ETThreadedObject m Id :=
  { s with consumer := s.consumer + 2, taken := s.taken ++ [(x, r)] }

/-- `terminate = YES`. -/
def setTerminate (s : ETThreadedObject m Id) : ETThreadedObject m Id :=
  { s with terminate := true, queued := s.forwarded }

/-- One step of the thread that forwards invocations.  That it goes on to wait for a return value
which is not an object only holds up its next message. -/
def stepProducer (s : ETThreadedObject m Id) : ETThreadedObject m Id :=
  match s.producerPc with
  | .idle => s
  | .isFull x => if s.ISFULL then s else s.producerAt (.writeInvocation x)
  | .writeInvocation x =>
    (s.setSlot (MASK s.producer) (some x.invocation)).producerAt (.writeProxy x)
  | .writeProxy x => (s.setSlot (MASK (s.producer + 1)) x.proxy).producerAt (.produce x)
  | .produce x => (s.addProducer x).producerAt .wasEmpty
  | .wasEmpty => if s.producer - s.consumer = 2 then s.producerAt .lock else s.producerAt .idle
  | .lock =>
    match s.owner with
    | none => (s.ownedBy (some .producer)).producerAt .signal
    | some _ => s
  | .signal => s.signal.producerAt .unlock
  | .unlock => (s.ownedBy none).producerAt .idle

/-- `-forwardInvocation:` puts one message at a time into the queue. -/
def forwardInvocation (s : ETThreadedObject m Id) (x : Message Id) : ETThreadedObject m Id :=
  match s.producerPc with
  | .idle => s.producerAt (.isFull x)
  | _ => s

def stepDealloc (s : ETThreadedObject m Id) : ETThreadedObject m Id :=
  match s.deallocPc with
  | .notStarted => s.deallocAt .lock
  | .lock =>
    match s.owner with
    | none => (s.ownedBy (some .dealloc)).deallocAt .terminate
    | some _ => s
  | .terminate => s.setTerminate.deallocAt .testThread
  | .testThread => if s.thread then s.deallocAt .signal else s.deallocAt .spinSignal
  | .spinSignal => s.signal.deallocAt .spinUnlock
  | .spinUnlock => (s.ownedBy none).deallocAt .spinLock
  | .spinLock =>
    match s.owner with
    | none => (s.ownedBy (some .dealloc)).deallocAt .testThread
    | some _ => s
  | .signal => s.signal.deallocAt .unlock
  | .unlock => (s.ownedBy none).deallocAt .waitForTermination
  | .waitForTermination =>
    match s.workerPc with
    | .terminated => s.deallocAt .finished
    | _ => s
  | .finished => s

/-- One step of `-runloop:`, where the object is asked whether it should idle now. -/
def stepWorker (s : ETThreadedObject m Id) (shouldIdle : Bool) : ETThreadedObject m Id :=
  match s.workerPc with
  | .setThread => { s with thread := true }.workerAt .isEmpty
  | .isEmpty => if s.ISEMPTY then s.workerAt .testTerminate else s.workerAt .readInvocation
  | .testTerminate => if s.terminate then s.workerAt .terminated else s.workerAt .testIdle
  | .testIdle => if s.idle && shouldIdle then s.workerAt .idling else s.workerAt .lock
  | .idling => s.workerAt .isEmpty
  | .lock =>
    match s.owner with
    | none => (s.ownedBy (some .worker)).workerAt .isEmptyLocked
    | some _ => s
  | .isEmptyLocked => if s.ISEMPTY then s.workerAt .wait else s.workerAt .unlock
  | .wait => (s.ownedBy none).workerAt .waiting
  | .waiting => s
  | .relock =>
    match s.owner with
    | none => (s.ownedBy (some .worker)).workerAt .unlock
    | some _ => s
  | .unlock => (s.ownedBy none).workerAt .isEmpty
  | .readInvocation => s.workerAt (.readProxy (s.invocations (MASK s.consumer)))
  | .readProxy x => s.workerAt (.consume x (s.invocations (MASK (s.consumer + 1))))
  | .consume x r => (s.addConsumer x r).workerAt (.invoke x r)
  | .invoke x r => { s with executed := s.executed ++ [(x, r)] }.workerAt .isEmpty
  | .terminated => s

inductive Action (Id : Type)
  | forward (x : Message Id)
  | producer
  | dealloc
  | worker (shouldIdle : Bool)

def step (s : ETThreadedObject m Id) : Action Id → ETThreadedObject m Id
  | .forward x => s.forwardInvocation x
  | .producer => s.stepProducer
  | .dealloc => s.stepDealloc
  | .worker shouldIdle => s.stepWorker shouldIdle

end ETThreadedObject

end Etoile.EtoileThread
