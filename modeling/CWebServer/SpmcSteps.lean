import CWebServer.Lib.Runs
import CWebServer.Spmc

/-!
# The socket queue, access by access

One producer and `n` consumers share the queue. Each step is one access to
`head`, `tail` or an item, and any thread may take the next one. A call that
nobody interrupts does what the whole operation does (`run_enqueue`,
`run_dequeue`).
-/

namespace CWebServer

open Runs (run)

/-- The access that `spmcI32_enqueue` makes next, with the values of its local variables. -/
inductive ProducerPc
  | idle
  | loadHead (item : Int) (currentTail : Nat)
  | storeItem (item : Int) (currentTail : Nat)
  | storeTail (currentTail : Nat)
  deriving DecidableEq, Repr

/-- The access that `spmcI32_dequeue` makes next. No access reads `held`: it is what the slot held when the
compare-and-swap succeeded. -/
inductive ConsumerPc
  | loadHead
  | loadTail (currentHead : Nat)
  | swapHead (currentHead : Nat)
  | loadItem (currentHead : Nat) (held : Int)
  deriving DecidableEq, Repr

/-- `enqueued` counts the calls that have stored `tail`, `dequeued` the successful compare-and-swaps. Each pair of
`returned` is a returned value and what the slot held at the compare-and-swap of that call. -/
structure SpmcThreads (n : Nat) where
  queue : SpmcQueueI32
  producer : ProducerPc
  consumers : Fin n → ConsumerPc
  enqueued : Nat
  dequeued : Nat
  returned : List (Int × Int)

/-- `enqueue` calls `spmcI32_enqueue` and loads `tail`; the others make the next access of a thread. -/
inductive SpmcAccess (n : Nat)
  | enqueue (item : Int)
  | produce
  | consume (i : Fin n)
  deriving DecidableEq, Repr

section
variable {n : Nat}

def enqueueStep (s : SpmcThreads n) (item : Int) : SpmcThreads n :=
  match s.producer with
  | .idle => { s with producer := .loadHead item s.queue.tail }
  | _ => s

def produceStep (s : SpmcThreads n) : SpmcThreads n :=
  match s.producer with
  | .idle => s
  | .loadHead item currentTail =>
    if s.queue.next currentTail = s.queue.head then { s with producer := .idle }
    else { s with producer := .storeItem item currentTail }
  | .storeItem item currentTail =>
    { s with queue := s.queue.storeItem currentTail item, producer := .storeTail currentTail }
  | .storeTail currentTail =>
    { s with queue := s.queue.storeTail currentTail, producer := .idle, enqueued := s.enqueued + 1 }

def goto (s : SpmcThreads n) (i : Fin n) (pc : ConsumerPc) : SpmcThreads n :=
  { s with consumers := Function.update s.consumers i pc }

def consumeStep (s : SpmcThreads n) (i : Fin n) : SpmcThreads n :=
  match s.consumers i with
  | .loadHead => goto s i (.loadTail s.queue.head)
  | .loadTail currentHead =>
    if currentHead = s.queue.tail then goto s i .loadHead else goto s i (.swapHead currentHead)
  | .swapHead currentHead =>
    if s.queue.head = currentHead then
      { goto s i (.loadItem currentHead (s.queue.items currentHead)) with
        queue := s.queue.storeHead currentHead, dequeued := s.dequeued + 1 }
    else goto s i .loadHead
  | .loadItem currentHead held =>
    { goto s i .loadHead with returned := s.returned ++ [(s.queue.items currentHead, held)] }

/-- An access of a thread that is not there yet changes nothing. -/
def spmcStep (s : SpmcThreads n) : SpmcAccess n → SpmcThreads n
  | .enqueue item => enqueueStep s item
  | .produce => produceStep s
  | .consume i => consumeStep s i

theorem capacity_enqueueStep (s : SpmcThreads n) (item : Int) :
    (enqueueStep s item).queue.capacity = s.queue.capacity := by
  unfold enqueueStep
  split <;> rfl

theorem capacity_produceStep (s : SpmcThreads n) : (produceStep s).queue.capacity = s.queue.capacity := by
  unfold produceStep
  split
  · rfl
  · split <;> rfl
  · rfl
  · rfl

theorem capacity_consumeStep (s : SpmcThreads n) (i : Fin n) :
    (consumeStep s i).queue.capacity = s.queue.capacity := by
  unfold consumeStep
  split
  · rfl
  · split <;> rfl
  · split <;> rfl
  · rfl

theorem capacity_step (s : SpmcThreads n) (a : SpmcAccess n) : (spmcStep s a).queue.capacity = s.queue.capacity := by
  cases a with
  | enqueue item => exact capacity_enqueueStep s item
  | produce => exact capacity_produceStep s
  | consume i => exact capacity_consumeStep s i

def spmcStart (n : Nat) (queue : SpmcQueueI32) : SpmcThreads n :=
  { queue, producer := .idle, consumers := fun _ => .loadHead, enqueued := 0, dequeued := 0, returned := [] }

/-! ## Calls that nobody interrupts -/

def enqueueCall (item : Int) : List (SpmcAccess n) := [.enqueue item, .produce, .produce, .produce]

def dequeueCall (i : Fin n) : List (SpmcAccess n) := [.consume i, .consume i, .consume i, .consume i]

theorem run_enqueue {s : SpmcThreads n} (hp : s.producer = .idle) (item : Int) :
    run spmcStep s (enqueueCall item) =
      { s with
        queue := (spmcI32Enqueue s.queue item).2
        enqueued := s.enqueued + if (spmcI32Enqueue s.queue item).1 then 1 else 0 } := by
  simp only [enqueueCall, Runs.run_cons, Runs.run_nil, spmcStep, enqueueStep, hp]
  unfold spmcI32Enqueue
  by_cases hf : s.queue.next s.queue.tail = s.queue.head
  · simp only [produceStep, hf, if_true]
    obtain ⟨_, _, _, _, _, _⟩ := s
    cases hp; rfl
  · simp only [produceStep, hf, if_false]
    obtain ⟨_, _, _, _, _, _⟩ := s
    cases hp; rfl

theorem run_dequeue {s : SpmcThreads n} {i : Fin n} (hc : s.consumers i = .loadHead)
    (hne : s.queue.head ≠ s.queue.tail) :
    run spmcStep s (dequeueCall i) =
      { s with
        queue := (spmcI32Dequeue s.queue).2
        dequeued := s.dequeued + 1
        returned := s.returned ++ [(s.queue.items s.queue.head, s.queue.items s.queue.head)] } := by
  simp only [dequeueCall, Runs.run_cons, Runs.run_nil, spmcStep]
  simp only [consumeStep, hc, goto, Function.update_self, hne, if_false, if_true, Function.update_idem]
  unfold spmcI32Dequeue
  simp only [hne, if_false, ← hc, Function.update_eq_self]
  rfl

end

end CWebServer
