import Dpc.Concurrency.BoundedQueue
import Dpc.Lib.Monitor

namespace Dpc
open Monitor

/-- A call of `submit`, while it does not wait in `push`. -/
inductive Submit where
  | entering
  | pushing
  | returned (accepted : Bool)
  deriving DecidableEq, Repr

/-- A thread in `workerLoop`, while it does not wait in `pop`. -/
inductive Worker where
  | popping
  | running (task : Nat)
  | left
  deriving DecidableEq, Repr

/-- How far `shutdown` is. `stopped_` is set from the first step on; the notifications come after
the critical section. Whoever else calls `shutdown` returns at once. -/
inductive Closing where
  | serving
  | stopped
  | flagged
  | workersNotified
  | joining
  deriving DecidableEq, Repr

/-- A task is known by the number of the call that submits it: nobody looks into one. -/
structure ThreadPool where
  queue : BoundedQueue Nat
  calls : List (Seat Submit)
  workers : List (Seat Worker)
  closing : Closing

namespace ThreadPool

inductive Event where
  | accepted (call : Nat)
  | taken (worker task : Nat)
  deriving DecidableEq, Repr

def Event.accepted? : Event → Option Nat
  | .accepted call => some call
  | .taken _ _ => none

def Event.taken? : Event → Option (Nat × Nat)
  | .accepted _ => none
  | .taken worker task => some (worker, task)

/-- The calls in the order in which their pushes succeeded. -/
def acceptedIn (events : List Event) : List Nat := events.filterMap Event.accepted?

/-- The tasks in the order in which they were handed out, each with its worker. -/
def takenIn (events : List Event) : List (Nat × Nat) := events.filterMap Event.taken?

def create (workers capacity : Nat) : ThreadPool where
  queue := .create capacity
  calls := []
  workers := List.replicate (if workers = 0 then 1 else workers) (.busy .popping)
  closing := .serving

/-- One critical section, one atomic access or one notification. -/
inductive Step : ThreadPool → List Event → ThreadPool → Prop where
  | submit (s : ThreadPool) : Step s [] { s with calls := s.calls ++ [.busy .entering] }
  | refuse {s : ThreadPool} {i : Nat} (hi : s.calls[i]? = some (.busy .entering))
      (hs : s.closing ≠ .serving) :
      Step s [] { s with calls := s.calls.set i (.busy (.returned false)) }
  | enter {s : ThreadPool} {i : Nat} (hi : s.calls[i]? = some (.busy .entering))
      (hs : s.closing = .serving) : Step s [] { s with calls := s.calls.set i (.busy .pushing) }
  | push {s : ThreadPool} {i : Nat} {x : Seat Submit} {queue : BoundedQueue Nat}
      {workers : List (Seat Worker)} (hi : s.calls[i]? = some x) (hx : x = .busy .pushing ∨ x = .woken)
      (hq : s.queue.push i = some (true, queue)) (hn : NotifyOne s.workers workers) :
      Step s [.accepted i]
        { s with
          queue := queue
          calls := s.calls.set i (.busy (.returned true))
          workers := workers }
  | pushFails {s : ThreadPool} {i : Nat} {x : Seat Submit} {queue : BoundedQueue Nat}
      (hi : s.calls[i]? = some x) (hx : x = .busy .pushing ∨ x = .woken)
      (hq : s.queue.push i = some (false, queue)) :
      Step s [] { s with queue := queue, calls := s.calls.set i (.busy (.returned false)) }
  | pushWaits {s : ThreadPool} {i : Nat} {x : Seat Submit} (hi : s.calls[i]? = some x)
      (hx : x = .busy .pushing ∨ x = .woken) (hq : s.queue.push i = none) :
      Step s [] { s with calls := s.calls.set i .waiting }
  | pop {s : ThreadPool} {j task : Nat} {x : Seat Worker} {queue : BoundedQueue Nat}
      {calls : List (Seat Submit)} (hj : s.workers[j]? = some x) (hx : x = .busy .popping ∨ x = .woken)
      (hq : s.queue.pop = some (some task, queue)) (hn : NotifyOne s.calls calls) :
      Step s [.taken j task]
        { s with
          queue := queue
          calls := calls
          workers := s.workers.set j (.busy (.running task)) }
  | popEnds {s : ThreadPool} {j : Nat} {x : Seat Worker} {queue : BoundedQueue Nat}
      (hj : s.workers[j]? = some x) (hx : x = .busy .popping ∨ x = .woken)
      (hq : s.queue.pop = some (none, queue)) :
      Step s [] { s with queue := queue, workers := s.workers.set j (.busy .left) }
  | popWaits {s : ThreadPool} {j : Nat} {x : Seat Worker} (hj : s.workers[j]? = some x)
      (hx : x = .busy .popping ∨ x = .woken) (hq : s.queue.pop = none) :
      Step s [] { s with workers := s.workers.set j .waiting }
  | finish {s : ThreadPool} {j task : Nat} (hj : s.workers[j]? = some (.busy (.running task))) :
      Step s [] { s with workers := s.workers.set j (.busy .popping) }
  -- A wake-up that nobody notified.
  | wakeCall {s : ThreadPool} {i : Nat} (hi : s.calls[i]? = some .waiting) :
      Step s [] { s with calls := s.calls.set i .woken }
  | wakeWorker {s : ThreadPool} {j : Nat} (hj : s.workers[j]? = some .waiting) :
      Step s [] { s with workers := s.workers.set j .woken }
  | stop {s : ThreadPool} (hs : s.closing = .serving) : Step s [] { s with closing := .stopped }
  | flag {s : ThreadPool} (hs : s.closing = .stopped) :
      Step s [] { s with queue := s.queue.setShutdown, closing := .flagged }
  | notifyWorkers {s : ThreadPool} (hs : s.closing = .flagged) :
      Step s [] { s with workers := notifyAll s.workers, closing := .workersNotified }
  | notifyCalls {s : ThreadPool} (hs : s.closing = .workersNotified) :
      Step s [] { s with calls := notifyAll s.calls, closing := .joining }

/-- Any run of a new pool, and what was accepted and taken in it. -/
inductive Run (workers capacity : Nat) : List Event → ThreadPool → Prop where
  | start : Run workers capacity [] (.create workers capacity)
  | step {events new : List Event} {s t : ThreadPool} (h : Run workers capacity events s)
      (hs : Step s new t) : Run workers capacity (events ++ new) t

end ThreadPool

end Dpc
