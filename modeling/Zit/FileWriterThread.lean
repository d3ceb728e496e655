import Zit.Lib.Locks
import Zit.Lib.Run

/-!
# The queue of the file writer

`FileWriter::add`, `run`, `write_next_piece` and `stop` at the granularity of single locks, unlocks,
notifications and uses of `m_queue` and `m_stop`: `n` threads call `add`, one thread is in `run`, and
one is in the destructor of `FileWriterThread`. `m_condition.wait(lock, pred)` looks at the predicate
with the lock, gives the lock back and sleeps in one step, and has to take the lock again when it is
woken, which may happen without a notification. What `write_next_piece` does with a piece, write it,
reset it for its hash or fail, is the model of the other modules; here it has been handled.
-/

set_option autoImplicit false

namespace Zit

open Lib

namespace FileWriterThread

/-- Where a thread is in `add`. -/
inductive AddAt (α : Type)
  | idle
  /-- Before the lock. -/
  | called (x : α)
  /-- Before `m_queue.emplace`. -/
  | entered (x : α)
  /-- Before `m_condition.notify_one`. -/
  | emplaced
  /-- Before it gives the lock back. -/
  | notified
  deriving DecidableEq, Repr

/-- Where the writer thread is in `run`. -/
inductive RunAt (α : Type)
  /-- Before `m_stop = false`. -/
  | starting
  /-- Before `while (!m_stop)`. -/
  | testing
  /-- In `write_next_piece`, before the lock. -/
  | called
  /-- Before the predicate of `wait`. -/
  | checking
  /-- The predicate was false; before it gives the lock back and sleeps. -/
  | waiting
  | asleep
  /-- Before it has the lock again. -/
  | woken
  /-- Before `if (m_stop)`. -/
  | passed
  /-- `m_stop` was set; before it gives the lock back. -/
  | returning
  /-- `m_stop` was not set; before `m_queue.front()`. -/
  | taking
  /-- A piece has been taken from the queue; before it gives the lock back. -/
  | popped (x : α)
  | writing (x : α)
  | done
  deriving DecidableEq, Repr

/-- Where `~FileWriterThread` is. -/
inductive StopAt
  | idle
  /-- Before `m_condition.notify_one`. -/
  | notifying
  | joining
  | joined
  deriving DecidableEq, Repr

inductive Thread (n : Nat)
  | add (i : Fin n)
  | run
  deriving DecidableEq, Repr

end FileWriterThread

open FileWriterThread in
/-- The queue and the threads that use it; `calls`, `added` and `handled` are what has happened. -/
structure FileWriterThread (α : Type) (n : Nat) where
  queue : List α := []
  stop : Bool := false
  locks : Locks Unit (Thread n) := .free
  add : Fin n → AddAt α := fun _ => .idle
  run : RunAt α := .starting
  stopper : StopAt := .idle
  /-- What each thread has called `add` with. -/
  calls : Fin n → List α := fun _ => []
  /-- What has been put into the queue, and by which thread. -/
  added : List (Fin n × α) := []
  /-- The pieces `write_next_piece` is through with, written or not. -/
  handled : List α := []

namespace FileWriterThread

variable {α : Type} {n : Nat}

namespace AddAt

/-- The piece that is not in the queue yet. -/
def pending : AddAt α → List α
  | .called x | .entered x => [x]
  | _ => []

def held : AddAt α → List Unit
  | .idle | .called _ => []
  | .entered _ | .emplaced | .notified => [()]

end AddAt

namespace RunAt

/-- The piece that has been taken from the queue. -/
def inFlight : RunAt α → List α
  | .popped x | .writing x => [x]
  | _ => []

def held : RunAt α → List Unit
  | .checking | .waiting | .passed | .returning | .taking | .popped _ => [()]
  | _ => []

/-- `m_condition.notify_one()`: only the writer thread ever waits. -/
def notifyOne : RunAt α → RunAt α
  | .asleep => .woken
  | r => r

end RunAt

variable (s : FileWriterThread α n)

/-- The lock, if the thread has it at this point. -/
def held : Thread n → List Unit
  | .add i => (s.add i).held
  | .run => s.run.held

/-- The call of `add` in a thread. -/
def callAdd (i : Fin n) (x : α) : Option (FileWriterThread α n) :=
  match s.add i with
  | .idle => some { s with
      add := Function.update s.add i (.called x)
      calls := Function.update s.calls i (s.calls i ++ [x]) }
  | _ => none

/-- The next step of a call of `add`. -/
def addStep (i : Fin n) : Option (FileWriterThread α n) :=
  match s.add i with
  | .idle => none
  | .called x => do
    let locks ← s.locks.lock () (.add i)
    return { s with locks, add := Function.update s.add i (.entered x) }
  | .entered x =>
    some { s with
      queue := s.queue ++ [x]
      add := Function.update s.add i .emplaced
      added := s.added ++ [(i, x)] }
  | .emplaced =>
    some { s with run := s.run.notifyOne, add := Function.update s.add i .notified }
  | .notified =>
    some { s with locks := s.locks.unlock (), add := Function.update s.add i .idle }

/-- The next step of the writer thread. -/
def runStep : Option (FileWriterThread α n) :=
  match s.run with
  | .starting => some { s with stop := false, run := .testing }
  | .testing => some { s with run := if s.stop then .done else .called }
  | .called | .woken => do
    let locks ← s.locks.lock () .run
    return { s with locks, run := .checking }
  | .checking =>
    -- "!m_queue.empty() || m_stop"
    some { s with run := if s.queue ≠ [] ∨ s.stop = true then .passed else .waiting }
  | .waiting => some { s with locks := s.locks.unlock (), run := .asleep }
  | .asleep | .done => none
  | .passed => some { s with run := if s.stop then .returning else .taking }
  | .taking =>
    -- `stop` takes no lock: `m_stop` may be set by now
    match s.queue with
    | [] => none
    | x :: queue => some { s with queue, run := .popped x }
  | .returning => some { s with locks := s.locks.unlock (), run := .testing }
  | .popped x => some { s with locks := s.locks.unlock (), run := .writing x }
  | .writing x => some { s with handled := s.handled ++ [x], run := .testing }

/-- The next step of `~FileWriterThread`: `stop`, then `join`. -/
def stopStep : Option (FileWriterThread α n) :=
  match s.stopper with
  | .idle => some { s with stop := true, stopper := .notifying }
  | .notifying => some { s with run := s.run.notifyOne, stopper := .joining }
  | .joining =>
    match s.run with
    | .done => some { s with stopper := .joined }
    | _ => none
  | .joined => none

/-- What happens next: a call of `add`, the step of a thread, or the end of a sleep without a
notification. -/
inductive Event (α : Type) (n : Nat)
  | call (i : Fin n) (x : α)
  | add (i : Fin n)
  | run
  | stop
  | wake
  deriving DecidableEq, Repr

def step : Event α n → Option (FileWriterThread α n)
  | .call i x => s.callAdd i x
  | .add i => s.addStep i
  | .run => s.runStep
  | .stop => s.stopStep
  | .wake =>
    match s.run with
    | .asleep => some { s with run := .woken }
    | _ => none

/-- `front` of an empty queue comes next, which is undefined. -/
def FrontOfEmpty : Prop := s.run = .taking ∧ s.queue = []

/-- A run of all threads from the start. -/
def Reached (es : List (Event α n)) : Prop :=
  Run (fun s e s' => step s e = some s') ({} : FileWriterThread α n) es s

end FileWriterThread

end Zit
