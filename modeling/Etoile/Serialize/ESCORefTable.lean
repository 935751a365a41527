import Etoile.Lib.Mutex
import Etoile.Serialize.Events

/-!
# References to objects

The serializers of a program share one table of references to objects.  It is kept as long as one
of them is using it.  Threads take turns in any order, one access to the shared state at a time.
-/

namespace Etoile.Serialize

/-- Where a thread is in `-CORefFromPointer:` or in the rest of `-done`. -/
inductive TablePc (P : Type)
  | idle
  | lock (aPointer : P)
  | get (aPointer : P)
  | next (aPointer : P)
  | insert (aPointer : P) (theRef : CORef)
  | unlock (aPointer : P) (theRef : CORef)
  | lockDone
  | testDone
  | resetDone
  | unlockDone
  deriving DecidableEq

def TablePc.locked {P : Type} : TablePc P → Bool
  | get _ | next _ | insert _ _ | unlock _ _ | testDone | resetDone | unlockDone => true
  | idle | lock _ | lockDone => false

/-- A pointer that is not in the map has 0.  `windows` has a thread for each of its uses of the
table that are not done, `handedOut` is how many references have been made, and `period` what has
been answered since there was a user last. -/
structure ESCORefTable (T P : Type) where
  pointerToCORefMap : P → CORef := fun _ => 0
  nextCORef : CORef := 1
  refCount : ℕ := 0
  lock : Option T := none
  pc : T → TablePc P := fun _ => .idle
  windows : List T := []
  handedOut : ℕ := 0
  period : List (P × CORef) := []

/-- A thread uses the table, is done, asks for a reference, or goes on. -/
inductive TableAction (T P : Type)
  | use (t : T)
  | done (t : T)
  | CORefFromPointer (t : T) (aPointer : P)
  | go (t : T)

namespace ESCORefTable

variable {T P : Type} [DecidableEq T] [DecidableEq P] (s : ESCORefTable T P)

def goto (t : T) (pc : TablePc P) : ESCORefTable T P := { s with pc := Function.update s.pc t pc }

def lockedBy (owner : Option T) : ESCORefTable T P := { s with lock := owner }

def insert (aPointer : P) (theRef : CORef) : ESCORefTable T P :=
  { s with pointerToCORefMap := Function.update s.pointerToCORefMap aPointer theRef }

def resetMapTable : ESCORefTable T P := { s with pointerToCORefMap := fun _ => 0 }

/-- `_nextCORef++`. -/
def next : ESCORefTable T P :=
  { s with nextCORef := s.nextCORef + 1, handedOut := s.handedOut + 1 }

def answer (aPointer : P) (theRef : CORef) : ESCORefTable T P :=
  { s with period := (aPointer, theRef) :: s.period }

def go (t : T) : ESCORefTable T P :=
  match s.pc t with
  | .idle => s
  | .lock aPointer => if s.lock = none then (s.lockedBy (some t)).goto t (.get aPointer) else s
  | .get aPointer =>
    if s.pointerToCORefMap aPointer ≠ 0 then
      s.goto t (.unlock aPointer (s.pointerToCORefMap aPointer))
    else s.goto t (.next aPointer)
  | .next aPointer => s.next.goto t (.insert aPointer s.nextCORef)
  | .insert aPointer theRef => (s.insert aPointer theRef).goto t (.unlock aPointer theRef)
  | .unlock aPointer theRef => ((s.answer aPointer theRef).lockedBy none).goto t .idle
  | .lockDone => if s.lock = none then (s.lockedBy (some t)).goto t .testDone else s
  | .testDone => if s.refCount = 0 then s.goto t .resetDone else s.goto t .unlockDone
  | .resetDone => s.resetMapTable.goto t .unlockDone
  | .unlockDone => (s.lockedBy none).goto t .idle

def use (t : T) : ESCORefTable T P :=
  { s with refCount := s.refCount + 1, windows := t :: s.windows }

def leave (t : T) : ESCORefTable T P :=
  { s with
    refCount := s.refCount - 1
    windows := s.windows.erase t
    period := if s.refCount - 1 = 0 then [] else s.period }

/-- What a thread calls when it is in another call, or without using the table, is left out. -/
def step : TableAction T P → ESCORefTable T P
  | .use t => if s.pc t = .idle then s.use t else s
  | .done t =>
    if s.pc t = .idle ∧ t ∈ s.windows then
      if (s.leave t).refCount = 0 then (s.leave t).goto t .lockDone else s.leave t
    else s
  | .CORefFromPointer t aPointer =>
    if s.pc t = .idle ∧ t ∈ s.windows then s.goto t (.lock aPointer) else s
  | .go t => s.go t

def run (actions : List (TableAction T P)) : ESCORefTable T P := actions.foldl step s

end ESCORefTable

end Etoile.Serialize
