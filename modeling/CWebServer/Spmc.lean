import CWebServer.Lib.Ring

/-!
# The socket queue

`SpmcQueueI32` with its operations run one after the other. They implement a
queue of at most `capacity - 1` items.
-/

namespace CWebServer

/-- `items` is only ever indexed below `capacity`. The indices are `u32` in the source; they stay below
`capacity`, so `index + 1` does not wrap. -/
structure SpmcQueueI32 where
  items : Nat → Int
  capacity : Nat
  head : Nat
  tail : Nat
  head_lt : head < capacity
  tail_lt : tail < capacity

def spmcI32Init (capacity : Nat) (items : Nat → Int) (hc : 0 < capacity) : SpmcQueueI32 :=
  { items, capacity, head := 0, tail := 0, head_lt := hc, tail_lt := hc }

namespace SpmcQueueI32

variable (queue : SpmcQueueI32)

theorem capacity_pos : 0 < queue.capacity := Nat.lt_of_le_of_lt (Nat.zero_le _) queue.head_lt

def storeItem (currentTail : Nat) (item : Int) : SpmcQueueI32 :=
  { queue with items := Function.update queue.items currentTail item }

def next (index : Nat) : Nat := (index + 1) % queue.capacity

def storeTail (currentTail : Nat) : SpmcQueueI32 :=
  { queue with tail := queue.next currentTail, tail_lt := Nat.mod_lt _ queue.capacity_pos }

def storeHead (currentHead : Nat) : SpmcQueueI32 :=
  { queue with head := queue.next currentHead, head_lt := Nat.mod_lt _ queue.capacity_pos }

end SpmcQueueI32

def spmcI32Enqueue (queue : SpmcQueueI32) (item : Int) : Bool × SpmcQueueI32 :=
  let currentTail := queue.tail
  if queue.next currentTail = queue.head then (false, queue)
  else (true, (queue.storeItem currentTail item).storeTail currentTail)

/-- `none` where the source returns false. Without other threads the first compare-and-swap succeeds. -/
def spmcI32Dequeue (queue : SpmcQueueI32) : Option Int × SpmcQueueI32 :=
  let currentHead := queue.head
  if currentHead = queue.tail then (none, queue)
  else (some (queue.items currentHead), queue.storeHead currentHead)

namespace SpmcQueueI32

variable (queue : SpmcQueueI32)

def occupancy : Nat := Ring.dist queue.capacity queue.head queue.tail

def contents : List Int := Ring.window queue.items queue.capacity queue.head queue.occupancy

@[simp] theorem contents_length : queue.contents.length = queue.occupancy := Ring.length_window ..

theorem occupancy_lt : queue.occupancy < queue.capacity := Ring.dist_lt _ queue.head_lt

theorem occupancy_eq_zero_iff : queue.occupancy = 0 ↔ queue.head = queue.tail :=
  Ring.dist_eq_zero_iff queue.head_lt queue.tail_lt

theorem tail_eq : queue.tail = (queue.head + queue.occupancy) % queue.capacity :=
  (Ring.add_dist queue.head_lt queue.tail_lt).symm

theorem head_eq : queue.head = queue.head % queue.capacity := (Nat.mod_eq_of_lt queue.head_lt).symm

theorem full_iff : queue.next queue.tail = queue.head ↔ queue.occupancy + 1 = queue.capacity := by
  have hlt := queue.occupancy_lt
  have := Ring.succ_mod_eq_iff (c := queue.capacity) (d := queue.head) (e := queue.head + queue.occupancy)
    (by omega) (by omega)
  rw [← queue.tail_eq, ← queue.head_eq] at this
  unfold next
  rw [this]
  omega

end SpmcQueueI32

theorem contents_init (capacity : Nat) (items : Nat → Int) (hc : 0 < capacity) :
    (spmcI32Init capacity items hc).contents = [] := by
  apply List.eq_nil_of_length_eq_zero
  rw [SpmcQueueI32.contents_length, SpmcQueueI32.occupancy_eq_zero_iff]; rfl

theorem enqueue_refines (queue : SpmcQueueI32) (item : Int) :
    ((spmcI32Enqueue queue item).1, (spmcI32Enqueue queue item).2.contents) =
      Ring.push (queue.capacity - 1) queue.contents item := by
  have hlt := queue.occupancy_lt
  unfold spmcI32Enqueue Ring.push
  rw [queue.contents_length]
  by_cases hf : queue.next queue.tail = queue.head
  · have := queue.full_iff.mp hf
    simp only [hf, if_true]
    rw [if_neg (by omega)]
  · have hroom : queue.occupancy + 1 ≠ queue.capacity := fun h => hf (queue.full_iff.mpr h)
    simp only [hf, if_false]
    rw [if_pos (by omega)]
    congr 1
    have hocc : Ring.dist queue.capacity queue.head (queue.next queue.tail) = queue.occupancy + 1 := by
      have := Ring.dist_mod (c := queue.capacity) (d := queue.head) (e := queue.head + queue.occupancy + 1)
        (by omega) (by omega)
      rw [← queue.head_eq, ← Nat.mod_add_mod, ← queue.tail_eq] at this
      rw [SpmcQueueI32.next, this]; omega
    have := Ring.window_update queue.items queue.head hlt item
    rw [← queue.tail_eq] at this
    show Ring.window _ _ _ (Ring.dist queue.capacity queue.head (queue.next queue.tail)) = _
    rw [hocc]
    exact this

theorem dequeue_refines (queue : SpmcQueueI32) :
    ((spmcI32Dequeue queue).1, (spmcI32Dequeue queue).2.contents) = Ring.pop queue.contents := by
  have hlt := queue.occupancy_lt
  have hzero := queue.occupancy_eq_zero_iff
  unfold spmcI32Dequeue
  by_cases he : queue.head = queue.tail
  · have hnil : queue.contents = [] := List.eq_nil_of_length_eq_zero (by rw [queue.contents_length]; exact hzero.mpr he)
    simp only [he, if_true, hnil, Ring.pop]
  · simp only [he, if_false]
    obtain ⟨len, hlen⟩ := Nat.exists_eq_succ_of_ne_zero fun h => he (hzero.mp h)
    have hocc : Ring.dist queue.capacity (queue.next queue.head) queue.tail = len := by
      have := Ring.dist_mod (c := queue.capacity) (d := queue.head + 1) (e := queue.head + queue.occupancy)
        (by omega) (by omega)
      rw [← queue.tail_eq] at this
      rw [SpmcQueueI32.next, this]; omega
    have hcons : queue.contents = queue.items queue.head ::
        Ring.window queue.items queue.capacity (queue.next queue.head) len := by
      have := Ring.window_succ queue.items queue.capacity queue.head len
      rw [← queue.head_eq] at this
      rw [SpmcQueueI32.contents, hlen]
      exact this
    rw [hcons]
    show (_, Ring.window _ _ _ (Ring.dist queue.capacity (queue.next queue.head) queue.tail)) = _
    rw [hocc]; rfl

end CWebServer
