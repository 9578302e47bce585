import CWebServer.SpmcFifo

/-!
# Interleavings that are in time

What `stored` and `seen` say about the ring in every interleaving that is in
time, and the FIFO that such an interleaving shows.
-/

namespace CWebServer

open Runs (run Along)

section
variable {n : Nat}

def ProducerKnown (h : SpmcHistory n) : ProducerPc → Prop
  | .idle => h.stored.length = h.threads.enqueued
  | .loadHead _ currentTail => currentTail = h.threads.queue.tail ∧ h.stored.length = h.threads.enqueued
  | .storeItem _ currentTail =>
    currentTail = h.threads.queue.tail ∧ h.threads.enqueued + 1 < h.threads.dequeued + h.threads.queue.capacity ∧
      h.stored.length = h.threads.enqueued
  | .storeTail currentTail =>
    currentTail = h.threads.queue.tail ∧ h.threads.enqueued + 1 < h.threads.dequeued + h.threads.queue.capacity ∧
      h.stored.length = h.threads.enqueued + 1

/-- What a consumer knows of the head that it loaded when `seen` items had been taken. -/
def ConsumerKnown (h : SpmcHistory n) (seen : Nat) : ConsumerPc → Prop
  | .loadHead => True
  | .loadTail currentHead => currentHead = seen % h.threads.queue.capacity ∧ seen ≤ h.threads.dequeued
  | .swapHead currentHead =>
    currentHead = seen % h.threads.queue.capacity ∧ seen ≤ h.threads.dequeued ∧ seen < h.threads.enqueued
  | .loadItem currentHead held =>
    currentHead = seen % h.threads.queue.capacity ∧ h.stored[seen]? = some held

/-- A slot holds the last item that was stored into it. -/
structure HistoryInv (h : SpmcHistory n) : Prop where
  head : h.threads.queue.head = h.threads.dequeued % h.threads.queue.capacity
  tail : h.threads.queue.tail = h.threads.enqueued % h.threads.queue.capacity
  le : h.threads.dequeued ≤ h.threads.enqueued
  lt : h.threads.enqueued < h.threads.dequeued + h.threads.queue.capacity
  producer : ProducerKnown h h.threads.producer
  slot : ∀ k item, h.stored[k]? = some item → h.stored.length ≤ k + h.threads.queue.capacity →
    h.threads.queue.items (k % h.threads.queue.capacity) = item
  consumer : ∀ i, ConsumerKnown h (h.seen i) (h.threads.consumers i)

def handOf : ConsumerPc → Option Int
  | .loadItem _ held => some held
  | _ => none

/-- The FIFO that the threads show. -/
structure Shows (h : SpmcHistory n) (f : SocketFifo n) : Prop where
  waiting : f.waiting = (h.stored.take h.threads.enqueued).drop h.threads.dequeued
  hands : ∀ i, f.hands i = handOf (h.threads.consumers i)
  returned : f.returned = h.threads.returned.map Prod.fst

theorem historyInv_start {queue : SpmcQueueI32} (hh : queue.head = 0) (ht : queue.tail = 0) :
    HistoryInv (historyStart n queue) where
  head := by simp [historyStart, spmcStart, hh]
  tail := by simp [historyStart, spmcStart, ht]
  le := Nat.le_refl _
  lt := by simpa [historyStart, spmcStart] using queue.capacity_pos
  producer := rfl
  slot k item hk := by simp [historyStart] at hk
  consumer _ := trivial

theorem shows_start (queue : SpmcQueueI32) : Shows (historyStart n queue) (fifoStart n) where
  waiting := rfl
  hands _ := rfl
  returned := rfl

/-! ## The ring behind the counters -/

section
variable {h : SpmcHistory n} (hi : HistoryInv h)
include hi

theorem HistoryInv.enqueued_le_stored : h.threads.enqueued ≤ h.stored.length := by
  have hp := hi.producer
  cases hpc : h.threads.producer with
  | idle => rw [hpc] at hp; exact Nat.le_of_eq hp.symm
  | loadHead _ _ => rw [hpc] at hp; exact Nat.le_of_eq hp.2.symm
  | storeItem _ _ => rw [hpc] at hp; exact Nat.le_of_eq hp.2.2.symm
  | storeTail _ => rw [hpc] at hp; rw [hp.2.2]; exact Nat.le_succ _

theorem HistoryInv.stored_lt : h.stored.length < h.threads.dequeued + h.threads.queue.capacity := by
  have hp := hi.producer
  have hlt := hi.lt
  cases hpc : h.threads.producer with
  | idle => rw [hpc] at hp; exact hp ▸ hlt
  | loadHead _ _ => rw [hpc] at hp; exact hp.2 ▸ hlt
  | storeItem _ _ => rw [hpc] at hp; exact hp.2.2 ▸ hlt
  | storeTail _ => rw [hpc] at hp; rw [hp.2.2]; exact hp.2.1

theorem HistoryInv.full_iff :
    h.threads.queue.next h.threads.queue.tail = h.threads.queue.head ↔
      h.threads.enqueued + 1 = h.threads.dequeued + h.threads.queue.capacity := by
  rw [← Ring.succ_mod_eq_iff hi.le hi.lt, ← hi.tail, ← hi.head]; rfl

theorem HistoryInv.occupancy : h.threads.queue.occupancy = h.threads.enqueued - h.threads.dequeued := by
  rw [SpmcQueueI32.occupancy, hi.head, hi.tail, Ring.dist_mod hi.le hi.lt]

theorem HistoryInv.waiting_length :
    ((h.stored.take h.threads.enqueued).drop h.threads.dequeued).length = h.threads.enqueued - h.threads.dequeued := by
  rw [List.length_drop, List.length_take, Nat.min_eq_left hi.enqueued_le_stored]

/-- The slots from `head` to `tail` hold the items that were stored last and not yet taken. -/
theorem HistoryInv.contents :
    h.threads.queue.contents = (h.stored.take h.threads.enqueued).drop h.threads.dequeued := by
  have hle := hi.enqueued_le_stored
  have hlt := hi.stored_lt
  apply List.ext_getElem
  · rw [SpmcQueueI32.contents_length, hi.occupancy, hi.waiting_length]
  · intro k hk hk'
    rw [SpmcQueueI32.contents_length, hi.occupancy] at hk
    have hk : h.threads.dequeued + k < h.stored.length := by omega
    have hslot := hi.slot _ _ (List.getElem?_eq_getElem hk) (by omega)
    simp only [SpmcQueueI32.contents, Ring.window, List.getElem_map, List.getElem_range, List.getElem_drop,
      List.getElem_take]
    rw [← hslot, hi.head, Nat.mod_add_mod]

end

/-! ## One access -/

/-- An access keeps the invariant, and the FIFO does what the access shows. -/
def Tracks (bound : Nat) (h : SpmcHistory n) (a : SpmcAccess n) (f : SocketFifo n) : Prop :=
  ∃ f', (accessEvent h a).toList.foldlM (fifoStep bound) f = some f' ∧
    HistoryInv (historyStep h a) ∧ Shows (historyStep h a) f'

theorem tracks_silent {bound : Nat} {h : SpmcHistory n} {f : SocketFifo n} {a : SpmcAccess n}
    (he : accessEvent h a = none) (hi : HistoryInv (historyStep h a)) (hs : Shows (historyStep h a) f) :
    Tracks bound h a f :=
  ⟨f, by rw [he]; rfl, hi, hs⟩

theorem tracks_event {bound : Nat} {h : SpmcHistory n} {f : SocketFifo n} {a : SpmcAccess n} {e : FifoEvent n}
    (f' : SocketFifo n) (he : accessEvent h a = some e) (hf : fifoStep bound f e = some f') (hi : HistoryInv (historyStep h a))
    (hs : Shows (historyStep h a) f') : Tracks bound h a f := by
  refine ⟨f', ?_, hi, hs⟩
  rw [he, Option.toList_some, List.foldlM_cons, hf]
  rfl

theorem getElem?_append_of_some {α : Type*} {l : List α} {k : Nat} {x : α} (hk : l[k]? = some x) (l' : List α) :
    (l ++ l')[k]? = some x := by
  obtain ⟨hlt, -⟩ := List.getElem?_eq_some_iff.mp hk
  rw [List.getElem?_append_left hlt, hk]

section
variable {h : SpmcHistory n} {f : SocketFifo n} (hi : HistoryInv h) (hs : Shows h f)
include hi hs

theorem tracks_enqueue (bound : Nat) (item : Int) : Tracks bound h (.enqueue item) f := by
  have hp := hi.producer
  by_cases hidle : h.threads.producer = .idle
  · rw [hidle] at hp
    have hstep : historyStep h (.enqueue item) =
        { h with threads := { h.threads with producer := .loadHead item h.threads.queue.tail } } := by
      simp only [historyStep, spmcStep, enqueueStep, storedBy, seenBy, hidle]
    refine tracks_silent rfl ?_ ?_
    · rw [hstep]
      exact { hi with producer := ⟨rfl, hp⟩ }
    · rw [hstep]
      exact { hs with }
  · have hstep : historyStep h (.enqueue item) = h := by
      simp only [historyStep, spmcStep, enqueueStep, storedBy, seenBy]
    exact tracks_silent rfl (hstep.symm ▸ hi) (hstep.symm ▸ hs)

/-- The producer finds the queue full. -/
theorem tracks_loadHead {item : Int} {currentTail : Nat} (hpc : h.threads.producer = .loadHead item currentTail) :
    Tracks (h.threads.queue.capacity - 1) h .produce f := by
  have hp := hi.producer
  rw [hpc] at hp
  obtain ⟨rfl, hlen⟩ := hp
  have hle := hi.le
  have hlt := hi.lt
  have hwaiting : f.waiting.length = h.threads.enqueued - h.threads.dequeued := by rw [hs.waiting, hi.waiting_length]
  by_cases hfull : h.threads.queue.next h.threads.queue.tail = h.threads.queue.head
  · have hstep : historyStep h .produce = { h with threads := { h.threads with producer := .idle } } := by
      simp only [historyStep, spmcStep, produceStep, storedBy, seenBy, hpc, hfull, if_true]
    have he : accessEvent h .produce = some (.enqueue item false) := by
      simp only [accessEvent, hpc, hfull, if_true]
    have hpush : Ring.push (h.threads.queue.capacity - 1) f.waiting item = (false, f.waiting) := by
      have := hi.full_iff.mp hfull
      rw [Ring.push, if_neg (by omega)]
    refine tracks_event f he ?_ ?_ ?_
    · rw [fifoStep, hpush, if_pos rfl]
    · rw [hstep]
      exact { hi with producer := hlen }
    · rw [hstep]
      exact { hs with }
  · have hstep : historyStep h .produce =
        { h with threads := { h.threads with producer := .storeItem item h.threads.queue.tail } } := by
      simp only [historyStep, spmcStep, produceStep, storedBy, seenBy, hpc, hfull, if_false]
    refine tracks_silent ?_ ?_ ?_
    · simp only [accessEvent, hpc, hfull, if_false]
    · have hroom : h.threads.enqueued + 1 ≠ h.threads.dequeued + h.threads.queue.capacity :=
        fun he => hfull (hi.full_iff.mpr he)
      rw [hstep]
      refine { hi with producer := ⟨rfl, ?_, hlen⟩ }
      show h.threads.enqueued + 1 < h.threads.dequeued + h.threads.queue.capacity
      omega
    · rw [hstep]
      exact { hs with }

theorem tracks_storeItem {item : Int} {currentTail : Nat} (hpc : h.threads.producer = .storeItem item currentTail)
    (bound : Nat) : Tracks bound h .produce f := by
  have hp := hi.producer
  rw [hpc] at hp
  obtain ⟨rfl, hroom, hlen⟩ := hp
  have hstep : historyStep h .produce =
      { h with
        threads := { h.threads with
          queue := h.threads.queue.storeItem h.threads.queue.tail item
          producer := .storeTail h.threads.queue.tail }
        stored := h.stored ++ [item] } := by
    simp only [historyStep, spmcStep, produceStep, storedBy, seenBy, hpc]
  refine tracks_silent (by simp only [accessEvent, hpc]) ?_ ?_
  · rw [hstep]
    refine { hi with producer := ⟨rfl, hroom, ?_⟩, slot := ?_, consumer := ?_ }
    · rw [List.length_append, hlen]; rfl
    · intro k x hk hturn
      have hturn : h.stored.length + 1 ≤ k + h.threads.queue.capacity := by
        rwa [List.length_append, List.length_singleton] at hturn
      show Function.update h.threads.queue.items h.threads.queue.tail item (k % h.threads.queue.capacity) = x
      obtain ⟨hk', -⟩ := List.getElem?_eq_some_iff.mp hk
      rw [List.length_append, List.length_singleton] at hk'
      by_cases hlast : k = h.stored.length
      · rw [hlast, List.getElem?_append_right (Nat.le_refl _), Nat.sub_self] at hk
        rw [hlast, hlen, ← hi.tail, Function.update_self]
        exact Option.some.inj hk
      · have hlt : k < h.stored.length := by omega
        rw [List.getElem?_append_left hlt] at hk
        -- the slot is not the one that is written: the turn is not complete
        have hne : k % h.threads.queue.capacity ≠ h.threads.queue.tail := by
          rw [hi.tail]
          intro heq
          have := Ring.mod_inj (by omega) (by omega) heq
          omega
        rw [Function.update_of_ne hne]
        exact hi.slot k x hk (by omega)
    · intro i
      have hc := hi.consumer i
      show ConsumerKnown _ (h.seen i) (h.threads.consumers i)
      cases hci : h.threads.consumers i with
      | loadItem currentHead held =>
        rw [hci] at hc
        exact ⟨hc.1, getElem?_append_of_some hc.2 _⟩
      | loadHead => trivial
      | loadTail currentHead => rw [hci] at hc; exact hc
      | swapHead currentHead => rw [hci] at hc; exact hc
  · rw [hstep]
    refine { hs with waiting := ?_ }
    show f.waiting = ((h.stored ++ [item]).take h.threads.enqueued).drop h.threads.dequeued
    rw [List.take_append_of_le_length (Nat.le_of_eq hlen.symm), hs.waiting]

theorem tracks_storeTail {currentTail : Nat} (hpc : h.threads.producer = .storeTail currentTail) :
    Tracks (h.threads.queue.capacity - 1) h .produce f := by
  have hp := hi.producer
  rw [hpc] at hp
  obtain ⟨rfl, hroom, hlen⟩ := hp
  have hle := hi.le
  obtain ⟨stored, item, hstored⟩ : ∃ stored item, h.stored = stored ++ [item] := by
    rcases List.eq_nil_or_concat' h.stored with hnil | hconcat
    · rw [hnil] at hlen; cases hlen
    · exact hconcat
  have hlen' : stored.length = h.threads.enqueued := by
    rw [hstored, List.length_append, List.length_singleton] at hlen
    omega
  have hstep : historyStep h .produce =
      { h with threads := { h.threads with
          queue := h.threads.queue.storeTail h.threads.queue.tail
          producer := .idle
          enqueued := h.threads.enqueued + 1 } } := by
    simp only [historyStep, spmcStep, produceStep, storedBy, seenBy, hpc]
  have he : accessEvent h .produce = some (.enqueue item true) := by
    simp only [accessEvent, hpc, hstored, List.getLast?_concat, Option.map_some]
  have hwaiting : f.waiting = stored.drop h.threads.dequeued := by
    rw [hs.waiting, hstored, List.take_append_of_le_length (Nat.le_of_eq hlen'.symm), ← hlen', List.take_length]
  have hpush : Ring.push (h.threads.queue.capacity - 1) f.waiting item = (true, f.waiting ++ [item]) := by
    rw [Ring.push, if_pos]
    rw [hwaiting, List.length_drop]
    omega
  refine tracks_event { f with waiting := f.waiting ++ [item] } he ?_ ?_ ?_
  · rw [fifoStep, hpush, if_pos rfl]
  · rw [hstep]
    refine { hi with
      tail := next_mod hi.tail
      le := Nat.le_succ_of_le hle
      lt := hroom
      producer := hlen
      consumer := fun i => ?_ }
    have hc := hi.consumer i
    show ConsumerKnown _ (h.seen i) (h.threads.consumers i)
    cases hci : h.threads.consumers i with
    | swapHead currentHead =>
      rw [hci] at hc
      exact ⟨hc.1, hc.2.1, Nat.lt_succ_of_lt hc.2.2⟩
    | loadHead => trivial
    | loadTail currentHead => rw [hci] at hc; exact hc
    | loadItem currentHead held => rw [hci] at hc; exact hc
  · rw [hstep]
    refine { hs with waiting := ?_ }
    show f.waiting ++ [item] = (h.stored.take (h.threads.enqueued + 1)).drop h.threads.dequeued
    rw [← hlen, List.take_length, hwaiting, hstored, List.drop_append_of_le_length (by omega)]

theorem tracks_produce : Tracks (h.threads.queue.capacity - 1) h .produce f := by
  cases hpc : h.threads.producer with
  | idle =>
    have hstep : historyStep h .produce = h := by
      simp only [historyStep, spmcStep, produceStep, storedBy, seenBy, hpc]
    exact tracks_silent (by simp only [accessEvent, hpc]) (hstep.symm ▸ hi) (hstep.symm ▸ hs)
  | loadHead item currentTail => exact tracks_loadHead hi hs hpc
  | storeItem item currentTail => exact tracks_storeItem hi hs hpc _
  | storeTail currentTail => exact tracks_storeTail hi hs hpc

end

/-! ### Consumers -/

theorem inv_goto {h : SpmcHistory n} (hi : HistoryInv h) (i : Fin n) {pc : ConsumerPc} {seen : Nat}
    (hpc : ConsumerKnown h seen pc) :
    HistoryInv { h with threads := goto h.threads i pc, seen := Function.update h.seen i seen } := by
  refine { hi with consumer := fun j => ?_ }
  show ConsumerKnown h (Function.update h.seen i seen j) (Function.update h.threads.consumers i pc j)
  by_cases hj : j = i
  · subst hj
    rw [Function.update_self, Function.update_self]
    exact hpc
  · rw [Function.update_of_ne hj, Function.update_of_ne hj]
    exact hi.consumer j

/-- The head moves on, and what it pointed to is in the hand of a consumer. -/
theorem inv_taken {h : SpmcHistory n} (hi : HistoryInv h) (i : Fin n) {item : Int}
    (hitem : h.stored[h.seen i]? = some item) (hlt : h.threads.dequeued < h.threads.enqueued) :
    HistoryInv { h with threads :=
      { goto h.threads i (.loadItem (h.seen i % h.threads.queue.capacity) item) with
        queue := h.threads.queue.storeHead h.threads.queue.head
        dequeued := h.threads.dequeued + 1 } } := by
  have hroom := hi.lt
  refine { hi with
    head := next_mod hi.head
    le := hlt
    lt := by show h.threads.enqueued < h.threads.dequeued + 1 + h.threads.queue.capacity; omega
    producer := ?_
    consumer := fun j => ?_ }
  · have hp := hi.producer
    show ProducerKnown _ h.threads.producer
    cases hpp : h.threads.producer with
    | idle => rw [hpp] at hp; exact hp
    | loadHead _ _ => rw [hpp] at hp; exact hp
    | storeItem _ _ =>
      rw [hpp] at hp
      refine ⟨hp.1, ?_, hp.2.2⟩
      have := hp.2.1
      show h.threads.enqueued + 1 < h.threads.dequeued + 1 + h.threads.queue.capacity
      omega
    | storeTail _ =>
      rw [hpp] at hp
      refine ⟨hp.1, ?_, hp.2.2⟩
      have := hp.2.1
      show h.threads.enqueued + 1 < h.threads.dequeued + 1 + h.threads.queue.capacity
      omega
  · show ConsumerKnown _ (h.seen j) (Function.update h.threads.consumers i _ j)
    by_cases hj : j = i
    · subst hj
      rw [Function.update_self]
      exact ⟨rfl, hitem⟩
    · rw [Function.update_of_ne hj]
      have hc := hi.consumer j
      cases hcj : h.threads.consumers j with
      | loadHead => trivial
      | loadTail _ => rw [hcj] at hc; exact ⟨hc.1, Nat.le_succ_of_le hc.2⟩
      | swapHead _ => rw [hcj] at hc; exact ⟨hc.1, Nat.le_succ_of_le hc.2.1, hc.2.2⟩
      | loadItem _ _ => rw [hcj] at hc; exact hc

theorem shows_goto {h : SpmcHistory n} {f : SocketFifo n} (hs : Shows h f) {i : Fin n} {pc : ConsumerPc}
    (hand : handOf pc = handOf (h.threads.consumers i)) (seen : Fin n → Nat) :
    Shows { h with threads := goto h.threads i pc, seen := seen } f := by
  refine { hs with hands := fun j => ?_ }
  rw [hs.hands]
  show _ = handOf (Function.update h.threads.consumers i pc j)
  by_cases hj : j = i
  · subst hj
    rw [Function.update_self, hand]
  · rw [Function.update_of_ne hj]

section
variable {h : SpmcHistory n} {f : SocketFifo n} (hi : HistoryInv h) (hs : Shows h f) (bound : Nat) {i : Fin n}
include hi hs

theorem tracks_goto (pc : ConsumerPc) (he : accessEvent h (.consume i) = none)
    (hstep : historyStep h (.consume i) = { h with threads := goto h.threads i pc })
    (hpc : ConsumerKnown h (h.seen i) pc) (hand : handOf pc = handOf (h.threads.consumers i)) :
    Tracks bound h (.consume i) f := by
  have hi' := inv_goto hi i hpc
  rw [Function.update_eq_self] at hi'
  exact tracks_silent he (hstep ▸ hi') (hstep ▸ shows_goto hs hand h.seen)

theorem tracks_consumeHead (hpc : h.threads.consumers i = .loadHead) : Tracks bound h (.consume i) f := by
  have hstep : historyStep h (.consume i) =
      { h with
        threads := goto h.threads i (.loadTail h.threads.queue.head)
        seen := Function.update h.seen i h.threads.dequeued } := by
    simp only [historyStep, spmcStep, consumeStep, storedBy, seenBy, hpc]
  refine tracks_silent (by simp only [accessEvent, hpc]) ?_ ?_
  · rw [hstep]
    exact inv_goto hi i ⟨hi.head, Nat.le_refl _⟩
  · rw [hstep]
    exact shows_goto hs (by rw [hpc]; rfl) _

/-- The consumer finds the queue empty: in time, the head that it has loaded is still the head. -/
theorem tracks_consumeTail {currentHead : Nat} (hpc : h.threads.consumers i = .loadTail currentHead)
    (ht : InTime h (.consume i)) : Tracks bound h (.consume i) f := by
  have hc := hi.consumer i
  rw [hpc] at hc
  obtain ⟨rfl, hle⟩ := hc
  simp only [InTime, hpc] at ht
  have hwaiting := hi.waiting_length
  have hhead := hi.le
  by_cases hempty : h.seen i % h.threads.queue.capacity = h.threads.queue.tail
  · have hseen : h.seen i = h.threads.enqueued := by
      rw [hi.tail] at hempty
      exact Ring.mod_inj (by omega) ht hempty
    have hnil : f.waiting = [] := by
      rw [hs.waiting]
      exact List.eq_nil_of_length_eq_zero (by omega)
    have hstep : historyStep h (.consume i) = { h with threads := goto h.threads i .loadHead } := by
      simp only [historyStep, spmcStep, consumeStep, storedBy, seenBy, hpc, hempty, if_true]
    have hhand : f.hands i = none := by rw [hs.hands, hpc]; rfl
    have hi' := inv_goto hi i (show ConsumerKnown h (h.seen i) .loadHead from trivial)
    rw [Function.update_eq_self] at hi'
    refine tracks_event (e := .dequeue i false) f ?_ ?_ (hstep ▸ hi') ?_
    · simp only [accessEvent, hpc, hempty, if_true]
    · simp only [fifoStep, hhand, hnil, Ring.pop, Option.isSome_none, and_self, if_true]
      rw [← hhand, Function.update_eq_self, ← hnil]
    · exact hstep ▸ shows_goto hs (by rw [hpc]; rfl) h.seen
  · have hlt : h.seen i < h.threads.enqueued := by
      refine Nat.lt_of_le_of_ne (by omega) fun he => hempty ?_
      rw [he, hi.tail]
    refine tracks_goto hi hs bound (.swapHead (h.seen i % h.threads.queue.capacity)) ?_ ?_ ⟨rfl, hle, hlt⟩ ?_
    · simp only [accessEvent, hpc, hempty, if_false]
    · simp only [historyStep, spmcStep, consumeStep, storedBy, seenBy, hpc, hempty, if_false]
    · rw [hpc]; rfl

/-- In time, the compare-and-swap succeeds only on the head that the consumer has loaded, and takes the first item. -/
theorem tracks_swapHead {currentHead : Nat} (hpc : h.threads.consumers i = .swapHead currentHead)
    (ht : InTime h (.consume i)) : Tracks bound h (.consume i) f := by
  have hc := hi.consumer i
  rw [hpc] at hc
  obtain ⟨rfl, hle, hlt⟩ := hc
  simp only [InTime, hpc] at ht
  have hhead := hi.le
  by_cases hswap : h.threads.queue.head = h.seen i % h.threads.queue.capacity
  · have hseen : h.seen i = h.threads.dequeued := by
      rw [hi.head] at hswap
      exact Ring.mod_inj hle (by omega) hswap.symm
    have hstored := hi.enqueued_le_stored
    have hlast := hi.stored_lt
    obtain ⟨item, hitem⟩ : ∃ item, h.stored[h.seen i]? = some item :=
      ⟨_, List.getElem?_eq_getElem (show h.seen i < h.stored.length by omega)⟩
    have hslot : h.threads.queue.items (h.seen i % h.threads.queue.capacity) = item :=
      hi.slot _ _ hitem (by omega)
    have hwaiting : f.waiting = item :: (h.stored.take h.threads.enqueued).drop (h.threads.dequeued + 1) := by
      have hget : (h.stored.take h.threads.enqueued)[h.threads.dequeued]? = some item := by
        rw [List.getElem?_take_of_lt (hseen ▸ hlt), ← hseen, hitem]
      obtain ⟨hget, hval⟩ := List.getElem?_eq_some_iff.mp hget
      rw [hs.waiting, List.drop_eq_getElem_cons hget, hval]
    have hstep : historyStep h (.consume i) =
        { h with threads := { goto h.threads i (.loadItem (h.seen i % h.threads.queue.capacity) item) with
            queue := h.threads.queue.storeHead h.threads.queue.head
            dequeued := h.threads.dequeued + 1 } } := by
      simp only [historyStep, spmcStep, consumeStep, storedBy, seenBy, hpc, hswap, if_true, hslot]
    have hhand : f.hands i = none := by rw [hs.hands, hpc]; rfl
    refine tracks_event (e := .dequeue i true) { f with
        waiting := (h.stored.take h.threads.enqueued).drop (h.threads.dequeued + 1)
        hands := Function.update f.hands i (some item) } ?_ ?_ ?_ ?_
    · simp only [accessEvent, hpc, hswap, if_true]
    · simp only [fifoStep, hhand, hwaiting, Ring.pop, Option.isSome_some, and_self, if_true]
    · rw [hstep]
      exact inv_taken hi i hitem (hseen ▸ hlt)
    · rw [hstep]
      refine { hs with waiting := rfl, hands := fun j => ?_ }
      show Function.update f.hands i (some item) j = handOf (Function.update h.threads.consumers i _ j)
      by_cases hj : j = i
      · subst hj
        rw [Function.update_self, Function.update_self]
        rfl
      · rw [Function.update_of_ne hj, Function.update_of_ne hj, hs.hands]
  · refine tracks_goto hi hs bound .loadHead ?_ ?_ trivial ?_
    · simp only [accessEvent, hpc, hswap, if_false]
    · simp only [historyStep, spmcStep, consumeStep, storedBy, seenBy, hpc, hswap, if_false]
    · rw [hpc]; rfl

/-- In time, the slot still holds what the compare-and-swap has taken. -/
theorem tracks_loadItem {currentHead : Nat} {held : Int} (hpc : h.threads.consumers i = .loadItem currentHead held)
    (ht : InTime h (.consume i)) : Tracks bound h (.consume i) f := by
  have hc := hi.consumer i
  rw [hpc] at hc
  obtain ⟨rfl, hitem⟩ := hc
  simp only [InTime, hpc] at ht
  have hslot := hi.slot _ _ hitem ht
  have hstep : historyStep h (.consume i) =
      { h with threads := { goto h.threads i .loadHead with returned := h.threads.returned ++ [(held, held)] } } := by
    simp only [historyStep, spmcStep, consumeStep, storedBy, seenBy, hpc, hslot]
  have hhand : f.hands i = some held := by rw [hs.hands, hpc]; rfl
  have hi' := inv_goto hi i (show ConsumerKnown h (h.seen i) .loadHead from trivial)
  rw [Function.update_eq_self] at hi'
  refine tracks_event (e := .handOut i held)
    { f with hands := Function.update f.hands i none, returned := f.returned ++ [held] } ?_ ?_ ?_ ?_
  · simp only [accessEvent, hpc, hslot]
  · simp only [fifoStep, hhand, if_true]
  · rw [hstep]
    exact { hi' with }
  · rw [hstep]
    refine { hs with hands := fun j => ?_, returned := ?_ }
    · show Function.update f.hands i none j = handOf (Function.update h.threads.consumers i .loadHead j)
      by_cases hj : j = i
      · subst hj
        rw [Function.update_self, Function.update_self]
        rfl
      · rw [Function.update_of_ne hj, Function.update_of_ne hj, hs.hands]
    · show f.returned ++ [held] = (h.threads.returned ++ [(held, held)]).map Prod.fst
      rw [hs.returned, List.map_append]
      rfl

theorem tracks_consume (ht : InTime h (.consume i)) : Tracks bound h (.consume i) f := by
  cases hpc : h.threads.consumers i with
  | loadHead => exact tracks_consumeHead hi hs bound hpc
  | loadTail currentHead => exact tracks_consumeTail hi hs bound hpc ht
  | swapHead currentHead => exact tracks_swapHead hi hs bound hpc ht
  | loadItem currentHead held => exact tracks_loadItem hi hs bound hpc ht

end

/-! ## Runs -/

theorem capacity_historyStep (h : SpmcHistory n) (a : SpmcAccess n) :
    (historyStep h a).threads.queue.capacity = h.threads.queue.capacity := capacity_step h.threads a

theorem tracks_step {h : SpmcHistory n} {f : SocketFifo n} (hi : HistoryInv h) (hs : Shows h f) {a : SpmcAccess n}
    (ht : InTime h a) : Tracks (h.threads.queue.capacity - 1) h a f := by
  cases a with
  | enqueue item => exact tracks_enqueue hi hs _ item
  | produce => exact tracks_produce hi hs
  | consume i => exact tracks_consume hi hs _ ht

theorem tracks_run {h : SpmcHistory n} {f : SocketFifo n} (hi : HistoryInv h) (hs : Shows h f)
    {as : List (SpmcAccess n)} (ht : Along historyStep InTime h as) :
    ∃ f', (Simulation.events historyStep accessEvent h as).foldlM (fifoStep (h.threads.queue.capacity - 1)) f = some f' ∧
      HistoryInv (run historyStep h as) ∧ Shows (run historyStep h as) f' := by
  have hstep : ∀ (h' : SpmcHistory n) (f' : SocketFifo n) (a : SpmcAccess n),
      h'.threads.queue.capacity = h.threads.queue.capacity ∧ HistoryInv h' ∧ Shows h' f' → InTime h' a →
      ∃ f'', (accessEvent h' a).toList.foldlM (fifoStep (h.threads.queue.capacity - 1)) f' = some f'' ∧
        (historyStep h' a).threads.queue.capacity = h.threads.queue.capacity ∧ HistoryInv (historyStep h' a) ∧
        Shows (historyStep h' a) f'' := by
    rintro h' f' a ⟨hcap, hi', hs'⟩ hw
    obtain ⟨f'', hf, hi'', hs''⟩ := tracks_step hi' hs' hw
    exact ⟨f'', hcap ▸ hf, (capacity_historyStep h' a).trans hcap, hi'', hs''⟩
  obtain ⟨f', hf, -, hi', hs'⟩ := Simulation.run_simulates hstep ⟨rfl, hi, hs⟩ ht
  exact ⟨f', hf, hi', hs'⟩

/-- The FIFO in whose state the threads are. -/
def fifoOf (s : SpmcThreads n) : SocketFifo n :=
  { waiting := s.queue.contents, hands := fun i => handOf (s.consumers i), returned := s.returned.map Prod.fst }

theorem Shows.eq_fifoOf {h : SpmcHistory n} {f : SocketFifo n} (hs : Shows h f) (hi : HistoryInv h) :
    f = fifoOf h.threads := by
  obtain ⟨waiting, hands, returned⟩ := f
  obtain ⟨hwaiting, hhands, hreturned⟩ := hs
  simp only [fifoOf, SocketFifo.mk.injEq]
  exact ⟨hwaiting.trans hi.contents.symm, funext hhands, hreturned⟩

/-- The calls of an interleaving from the empty queue, with their results. -/
def spmcCalls (n : Nat) (queue : SpmcQueueI32) (as : List (SpmcAccess n)) : List (FifoEvent n) :=
  Simulation.events historyStep accessEvent (historyStart n queue) as

theorem fifo_run {n capacity : Nat} (hc : 0 < capacity) (queueSocketMem : Nat → Int) {as : List (SpmcAccess n)}
    (ht : Along historyStep InTime (historyStart n (spmcI32Init capacity queueSocketMem hc)) as) :
    (spmcCalls n (spmcI32Init capacity queueSocketMem hc) as).foldlM (fifoStep (capacity - 1)) (fifoStart n) =
      some (fifoOf (run spmcStep (spmcStart n (spmcI32Init capacity queueSocketMem hc)) as)) := by
  obtain ⟨f, hf, hi, hs⟩ := tracks_run (historyInv_start rfl rfl) (shows_start _) ht
  rw [hs.eq_fifoOf hi, threads_run] at hf
  exact hf

/-- Every interleaving that is in time shows the calls of a FIFO for `capacity - 1` items, with the results that the
FIFO gives, and ends in the state of the FIFO. -/
theorem spmc_refines_fifo {n capacity : Nat} (hc : 0 < capacity) (queueSocketMem : Nat → Int)
    (as : List (SpmcAccess n))
    (ht : Along historyStep InTime (historyStart n (spmcI32Init capacity queueSocketMem hc)) as) :
    (spmcCalls n (spmcI32Init capacity queueSocketMem hc) as).foldlM (fifoStep (capacity - 1)) (fifoStart n) =
      some (fifoOf (run spmcStep (spmcStart n (spmcI32Init capacity queueSocketMem hc)) as)) :=
  fifo_run hc queueSocketMem ht

/-- The second consumer's compare-and-swap fails: the first one's was faster. -/
theorem spmc_refines_fifo_two :
    (spmcCalls 2 (spmcI32Init 2 (fun _ => 0) (by decide))
        [.enqueue 7, .produce, .produce, .produce, .consume 0, .consume 1, .consume 0, .consume 1, .consume 0, .consume 1,
          .consume 0]).foldlM (fifoStep 1) (fifoStart 2) =
      some (fifoOf (run spmcStep (spmcStart 2 (spmcI32Init 2 (fun _ => 0) (by decide)))
        [.enqueue 7, .produce, .produce, .produce, .consume 0, .consume 1, .consume 0, .consume 1, .consume 0, .consume 1,
          .consume 0])) := by
  apply @spmc_refines_fifo 2 2 (by decide)
  repeat' constructor

end

end CWebServer
