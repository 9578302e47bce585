import CWebServer.Lib.Simulation
import CWebServer.SpmcSound

/-!
# The socket queue as a FIFO

Beside the threads runs a history: which items the producer has stored, and
how far the head was when a consumer loaded it. As long as no consumer is a
full turn of the ring late (`InTime`), every interleaving shows the calls of a
bounded FIFO that does each call at once.
-/

namespace CWebServer

open Runs (run Along)

section
variable {n : Nat}

/-- `stored` are the items that the producer has put into slots; `seen i` is how many items had been taken when
consumer `i` last loaded `head`. No access reads either. -/
structure SpmcHistory (n : Nat) where
  threads : SpmcThreads n
  stored : List Int
  seen : Fin n → Nat

def historyStart (n : Nat) (queue : SpmcQueueI32) : SpmcHistory n :=
  { threads := spmcStart n queue, stored := [], seen := fun _ => 0 }

def storedBy (h : SpmcHistory n) : SpmcAccess n → List Int
  | .produce =>
    match h.threads.producer with
    | .storeItem item _ => h.stored ++ [item]
    | _ => h.stored
  | _ => h.stored

def seenBy (h : SpmcHistory n) : SpmcAccess n → Fin n → Nat
  | .consume i =>
    match h.threads.consumers i with
    | .loadHead => Function.update h.seen i h.threads.dequeued
    | _ => h.seen
  | _ => h.seen

def historyStep (h : SpmcHistory n) (a : SpmcAccess n) : SpmcHistory n :=
  { threads := spmcStep h.threads a, stored := storedBy h a, seen := seenBy h a }

theorem threads_run (h : SpmcHistory n) (as : List (SpmcAccess n)) :
    (run historyStep h as).threads = run spmcStep h.threads as := by
  induction as generalizing h with
  | nil => rfl
  | cons a as ih => exact ih (historyStep h a)

/-- The producer is less than a full turn of the ring ahead of the head that the consumer has loaded. Only when the
consumer has reserved its slot may the turn be complete: the slot is then the next to be overwritten. -/
def InTime (h : SpmcHistory n) : SpmcAccess n → Prop
  | .consume i =>
    match h.threads.consumers i with
    | .loadHead => True
    | .loadTail _ | .swapHead _ => h.threads.enqueued < h.seen i + h.threads.queue.capacity
    | .loadItem _ _ => h.stored.length ≤ h.seen i + h.threads.queue.capacity
  | _ => True

/-! ## The FIFO -/

/-- What waits in the queue, what each consumer has taken and not yet returned, and what has been returned. -/
structure SocketFifo (n : Nat) where
  waiting : List Int
  hands : Fin n → Option Int
  returned : List Int

/-- The calls with their results: `enqueue` and `dequeue` where they take effect, `handOut` where a dequeue returns. -/
inductive FifoEvent (n : Nat)
  | enqueue (item : Int) (result : Bool)
  | dequeue (i : Fin n) (found : Bool)
  | handOut (i : Fin n) (item : Int)
  deriving DecidableEq, Repr

def fifoStart (n : Nat) : SocketFifo n := { waiting := [], hands := fun _ => none, returned := [] }

/-- `none` where a call of the FIFO with room for `bound` items would not have this result. -/
def fifoStep (bound : Nat) (f : SocketFifo n) : FifoEvent n → Option (SocketFifo n)
  | .enqueue item result =>
    if (Ring.push bound f.waiting item).1 = result then some { f with waiting := (Ring.push bound f.waiting item).2 }
    else none
  | .dequeue i found =>
    if f.hands i = none ∧ (Ring.pop f.waiting).1.isSome = found then
      some { f with
        waiting := (Ring.pop f.waiting).2
        hands := Function.update f.hands i (Ring.pop f.waiting).1 }
    else none
  | .handOut i item =>
    if f.hands i = some item then
      some { f with hands := Function.update f.hands i none, returned := f.returned ++ [item] }
    else none

/-- The access at which a call takes effect: `enqueue` at the store of `tail`, or where it finds the queue full;
`dequeue` at the compare-and-swap, or where it finds the queue empty. -/
def accessEvent (h : SpmcHistory n) : SpmcAccess n → Option (FifoEvent n)
  | .enqueue _ => none
  | .produce =>
    match h.threads.producer with
    | .loadHead item currentTail =>
      if h.threads.queue.next currentTail = h.threads.queue.head then some (.enqueue item false) else none
    | .storeTail _ => h.stored.getLast?.map fun item => .enqueue item true
    | _ => none
  | .consume i =>
    match h.threads.consumers i with
    | .loadHead => none
    | .loadTail currentHead => if currentHead = h.threads.queue.tail then some (.dequeue i false) else none
    | .swapHead currentHead => if h.threads.queue.head = currentHead then some (.dequeue i true) else none
    | .loadItem currentHead _ => some (.handOut i (h.threads.queue.items currentHead))

end

end CWebServer
