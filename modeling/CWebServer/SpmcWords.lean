import CWebServer.Lib.Traces
import CWebServer.Spmc

/-!
# The socket queue in machine words

The queue as the source has it: `u32` indices, which wrap, and an array of
items, where an access beyond the end is a fault. Called one after the other
the operations are those of a FIFO list of at most `capacity - 1` items.
-/

namespace CWebServer

open Traces (trace outputs)

/-- `items` is the array that `queue->items` points to. -/
structure SpmcQueueWords where
  items : List Int
  capacity : UInt32
  head : UInt32
  tail : UInt32

inductive SpmcCall
  | enqueue (item : Int)
  | dequeue
  deriving DecidableEq, Repr

/-- What a call returns, with the value that `spmcI32_dequeue` delivers. -/
inductive SpmcResult
  | enqueued (ok : Bool)
  | dequeued (value : Option Int)
  deriving DecidableEq, Repr

namespace SpmcQueueWords

def init (capacity : UInt32) (items : List Int) : SpmcQueueWords := { items, capacity, head := 0, tail := 0 }

def storeItem (queue : SpmcQueueWords) (idx : UInt32) (item : Int) : Option SpmcQueueWords :=
  if idx.toNat < queue.items.length then some { queue with items := queue.items.set idx.toNat item } else none

def loadItem (queue : SpmcQueueWords) (idx : UInt32) : Option Int := queue.items[idx.toNat]?

def enqueue (queue : SpmcQueueWords) (item : Int) : Option (Bool × SpmcQueueWords) := do
  let currentTail := queue.tail
  if (currentTail + 1) % queue.capacity = queue.head then some (false, queue)
  else
    let queue ← queue.storeItem currentTail item
    some (true, { queue with tail := (currentTail + 1) % queue.capacity })

/-- The result, `*dst` and `*expected`. -/
def compareAndSwapFull (dst expected desired : UInt32) : Bool × UInt32 × UInt32 :=
  let old := dst
  let dst := if old = expected then desired else dst
  if old ≠ expected then (false, dst, old) else (true, dst, expected)

/-- At most `turns` turns of the loop; `none` where they do not suffice. -/
def dequeue : Nat → SpmcQueueWords → Option (Option Int × SpmcQueueWords)
  | 0, _ => none
  | turns + 1, queue =>
    let currentHead := queue.head
    if currentHead = queue.tail then some (none, queue)
    else
      let (swapped, head, currentHead) :=
        compareAndSwapFull queue.head currentHead ((currentHead + 1) % queue.capacity)
      let queue := { queue with head }
      if swapped then do
        let item ← queue.loadItem currentHead
        some (some item, queue)
      else dequeue turns queue

def call (turns : Nat) (queue : SpmcQueueWords) : SpmcCall → Option (SpmcResult × SpmcQueueWords)
  | .enqueue item => (queue.enqueue item).map fun r => (.enqueued r.1, r.2)
  | .dequeue => (queue.dequeue turns).map fun r => (.dequeued r.1, r.2)

end SpmcQueueWords

/-! ## The list -/

/-- A call on a list of at most `n` items. -/
def fifoCall (n : Nat) (items : List Int) : SpmcCall → SpmcResult × List Int
  | .enqueue item => ((.enqueued (Ring.push n items item).1), (Ring.push n items item).2)
  | .dequeue => (.dequeued (Ring.pop items).1, (Ring.pop items).2)

theorem fifoCall_length {n : Nat} {items : List Int} (call : SpmcCall) (h : items.length ≤ n) :
    (fifoCall n items call).2.length ≤ n := by
  cases call with
  | enqueue item =>
    simp only [fifoCall, Ring.push]
    split
    · simp
      omega
    · exact h
  | dequeue =>
    cases items with
    | nil => exact h
    | cons item items => exact Nat.le_of_succ_le h

/-! ## Words and numbers -/

/-- The queue in words holds what the queue in numbers holds. -/
structure InWords (words : SpmcQueueWords) (queue : SpmcQueueI32) : Prop where
  capacity : words.capacity.toNat = queue.capacity
  head : words.head.toNat = queue.head
  tail : words.tail.toNat = queue.tail
  length : words.items.length = queue.capacity
  items : ∀ i < queue.capacity, words.items[i]? = some (queue.items i)

section
variable {words : SpmcQueueWords} {queue : SpmcQueueI32}

/-- The sum does not wrap, as an index is below the capacity. -/
theorem InWords.next (h : InWords words queue) {index : UInt32} (hlt : index.toNat < queue.capacity) :
    ((index + 1) % words.capacity).toNat = queue.next index.toNat := by
  have hcap : queue.capacity < 2 ^ 32 := by
    rw [← h.capacity]
    exact words.capacity.toNat_lt
  have hsum : (index.toNat + 1) % 2 ^ 32 = index.toNat + 1 := Nat.mod_eq_of_lt (by omega)
  rw [UInt32.toNat_mod, UInt32.toNat_add, h.capacity, UInt32.toNat_one, hsum]
  rfl

theorem InWords.eq_head (h : InWords words queue) (index : UInt32) :
    index = words.head ↔ index.toNat = queue.head := by
  rw [← h.head, UInt32.toNat_inj]

theorem InWords.eq_tail (h : InWords words queue) (index : UInt32) :
    index = words.tail ↔ index.toNat = queue.tail := by
  rw [← h.tail, UInt32.toNat_inj]

theorem inWords_init {capacity : UInt32} (hc : 0 < capacity.toNat) {items : List Int}
    (hlen : items.length = capacity.toNat) :
    InWords (.init capacity items) (spmcI32Init capacity.toNat (fun i => items.getD i 0) hc) where
  capacity := rfl
  head := rfl
  tail := rfl
  length := hlen
  items i hi := by
    have hlt : i < items.length := by
      rw [hlen]
      exact hi
    show items[i]? = some (items.getD i 0)
    simp [hlt]

theorem enqueue_inWords (h : InWords words queue) (item : Int) :
    ∃ words', words.enqueue item = some ((spmcI32Enqueue queue item).1, words') ∧
      InWords words' (spmcI32Enqueue queue item).2 := by
  have htail : words.tail.toNat < queue.capacity := by
    rw [h.tail]
    exact queue.tail_lt
  have hnext := h.next htail
  rw [h.tail] at hnext
  have hfull : (words.tail + 1) % words.capacity = words.head ↔ queue.next queue.tail = queue.head := by
    rw [h.eq_head, hnext]
  unfold SpmcQueueWords.enqueue spmcI32Enqueue
  by_cases hf : queue.next queue.tail = queue.head
  · rw [if_pos (hfull.mpr hf), if_pos hf]
    exact ⟨words, rfl, h⟩
  · have hstore : words.tail.toNat < words.items.length := by
      rw [h.length]
      exact htail
    rw [if_neg (hfull.not.mpr hf), if_neg hf]
    simp only [SpmcQueueWords.storeItem, hstore, if_true, Option.bind_eq_bind, Option.bind_some]
    refine ⟨_, rfl, ⟨h.capacity, h.head, hnext, ?_, ?_⟩⟩
    · simp [SpmcQueueI32.storeItem, SpmcQueueI32.storeTail, h.length]
    · intro i hi
      show (words.items.set words.tail.toNat item)[i]? = some (Function.update queue.items queue.tail item i)
      rw [h.tail]
      by_cases hit : queue.tail = i
      · rw [← hit, Function.update_self, List.getElem?_set_self]
        rw [h.length]
        exact queue.tail_lt
      · rw [List.getElem?_set_ne hit, Function.update_of_ne (Ne.symm hit)]
        exact h.items i hi

/-- The first compare-and-swap succeeds. -/
theorem dequeue_inWords (h : InWords words queue) (turns : Nat) :
    ∃ words', words.dequeue (turns + 1) = some ((spmcI32Dequeue queue).1, words') ∧
      InWords words' (spmcI32Dequeue queue).2 := by
  have hhead : words.head.toNat < queue.capacity := by
    rw [h.head]
    exact queue.head_lt
  have hnext := h.next hhead
  rw [h.head] at hnext
  have hempty : words.head = words.tail ↔ queue.head = queue.tail := by
    rw [h.eq_tail, h.head]
  unfold SpmcQueueWords.dequeue spmcI32Dequeue
  by_cases he : queue.head = queue.tail
  · rw [if_pos he]
    simp only [hempty.mpr he, if_true]
    exact ⟨words, rfl, h⟩
  · have hload : words.items[words.head.toNat]? = some (queue.items queue.head) := by
      rw [h.head]
      exact h.items _ queue.head_lt
    rw [if_neg he]
    simp only [hempty.not.mpr he, if_false, SpmcQueueWords.compareAndSwapFull, ne_eq, not_true_eq_false, if_true,
      SpmcQueueWords.loadItem, hload, Option.bind_eq_bind, Option.bind_some]
    exact ⟨_, rfl, ⟨h.capacity, hnext, h.tail, h.length, h.items⟩⟩

end

/-! ## Call after call -/

theorem enqueue_capacity (queue : SpmcQueueI32) (item : Int) :
    (spmcI32Enqueue queue item).2.capacity = queue.capacity := by
  unfold spmcI32Enqueue
  dsimp only
  split <;> rfl

theorem dequeue_capacity (queue : SpmcQueueI32) : (spmcI32Dequeue queue).2.capacity = queue.capacity := by
  unfold spmcI32Dequeue
  dsimp only
  split <;> rfl

/-- The queue in words holds the items of the list, in their order. -/
def Holds (capacity : UInt32) (words : SpmcQueueWords) (items : List Int) : Prop :=
  ∃ queue, InWords words queue ∧ queue.capacity = capacity.toNat ∧ queue.contents = items

theorem holds_init {capacity : UInt32} (hc : 0 < capacity.toNat) {items : List Int}
    (hlen : items.length = capacity.toNat) : Holds capacity (.init capacity items) [] :=
  ⟨_, inWords_init hc hlen, rfl, contents_init _ _ hc⟩

theorem Holds.inBounds {capacity : UInt32} {words : SpmcQueueWords} {items : List Int}
    (h : Holds capacity words items) : words.head < capacity ∧ words.tail < capacity := by
  obtain ⟨queue, hwords, hcap, -⟩ := h
  rw [UInt32.lt_iff_toNat_lt, UInt32.lt_iff_toNat_lt, hwords.head, hwords.tail, ← hcap]
  exact ⟨queue.head_lt, queue.tail_lt⟩

theorem call_holds (turns : Nat) (capacity : UInt32) (words : SpmcQueueWords) (items : List Int) (call : SpmcCall)
    (h : Holds capacity words items) :
    ∃ words', words.call (turns + 1) call = some ((fifoCall (capacity.toNat - 1) items call).1, words') ∧
      Holds capacity words' (fifoCall (capacity.toNat - 1) items call).2 := by
  obtain ⟨queue, hwords, hcap, rfl⟩ := h
  cases call with
  | enqueue item =>
    obtain ⟨words', hcall, hwords'⟩ := enqueue_inWords hwords item
    have hrefines := enqueue_refines queue item
    rw [hcap] at hrefines
    refine ⟨words', ?_, ⟨_, hwords', (enqueue_capacity queue item).trans hcap, ?_⟩⟩
    · simp [SpmcQueueWords.call, hcall, fifoCall, ← hrefines]
    · simp [fifoCall, ← hrefines]
  | dequeue =>
    obtain ⟨words', hcall, hwords'⟩ := dequeue_inWords hwords turns
    have hrefines := dequeue_refines queue
    refine ⟨words', ?_, ⟨_, hwords', (dequeue_capacity queue).trans hcap, ?_⟩⟩
    · simp [SpmcQueueWords.call, hcall, fifoCall, ← hrefines]
    · simp [fifoCall, ← hrefines]

/-- No call faults, and the results are those of the list. -/
theorem queue_refines_fifo (capacity : UInt32) (hc : 0 < capacity.toNat) (items : List Int)
    (hlen : items.length = capacity.toNat) (turns : Nat) (calls : List SpmcCall) :
    ∃ words, trace (SpmcQueueWords.call (turns + 1)) (.init capacity items) calls =
        some ((outputs (fifoCall (capacity.toNat - 1)) [] calls).1, words) ∧
      words.head < capacity ∧ words.tail < capacity ∧
      (outputs (fifoCall (capacity.toNat - 1)) [] calls).2.length ≤ capacity.toNat - 1 := by
  obtain ⟨words, htrace, hholds⟩ :=
    Traces.trace_simulates (call_holds turns capacity) (holds_init hc hlen) calls
  have hempty : ([] : List Int).length ≤ capacity.toNat - 1 := Nat.zero_le _
  have hlength := Traces.outputs_invariant (I := fun items : List Int => items.length ≤ capacity.toNat - 1)
    (fun items call h => fifoCall_length call h) hempty calls
  exact ⟨words, htrace, hholds.inBounds.1, hholds.inBounds.2, hlength⟩

theorem queue_refines_fifo_two :
    ∃ words, trace (SpmcQueueWords.call 1) (.init 2 [0, 0]) [.enqueue 5, .enqueue 6, .dequeue, .dequeue] =
        some ((outputs (fifoCall 1) [] [.enqueue 5, .enqueue 6, .dequeue, .dequeue]).1, words) ∧
      words.head < 2 ∧ words.tail < 2 ∧
      (outputs (fifoCall 1) [] [.enqueue 5, .enqueue 6, .dequeue, .dequeue]).2.length ≤ 1 :=
  queue_refines_fifo 2 (by decide) [0, 0] rfl 0 _

end CWebServer
