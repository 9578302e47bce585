import CWebServer.Server
import CWebServer.SpmcFifoSound

/-!
# What the socket queue delivers

What the FIFO accounts for, the interleavings of any number of consumers
account for as long as they are in time. A single consumer always is.
-/

namespace CWebServer

open Runs (run Along)

section
variable {n : Nat}

/-- The item of an `enqueue` that returned true. -/
def FifoEvent.accepted : FifoEvent n → List Int
  | .enqueue item true => [item]
  | _ => []

def acceptedItems (calls : List (FifoEvent n)) : List Int := calls.flatMap FifoEvent.accepted

/-! ## Any number of consumers -/

/-- Everything that the FIFO has accepted. -/
def fifoItems (f : SocketFifo n) : Multiset Int :=
  (f.waiting : Multiset Int) + ∑ i, held (f.hands i) + (f.returned : Multiset Int)

theorem sum_hands_some {hands : Fin n → Option Int} {i : Fin n} (h : hands i = none) (item : Int) :
    ∑ j, held (Function.update hands i (some item) j) = ∑ j, held (hands j) + {item} := by
  have := sum_update_held hands i (some item)
  rwa [h, held_none, held_some, add_zero] at this

theorem sum_hands_none {hands : Fin n → Option Int} {i : Fin n} {item : Int} (h : hands i = some item) :
    ∑ j, held (Function.update hands i none j) + {item} = ∑ j, held (hands j) := by
  have := sum_update_held hands i none
  rwa [h, held_none, held_some, add_zero] at this

theorem fifoItems_step {bound : Nat} {f f' : SocketFifo n} {e : FifoEvent n} (h : fifoStep bound f e = some f') :
    fifoItems f' = fifoItems f + e.accepted := by
  cases e with
  | enqueue item result =>
    simp only [fifoStep, Ring.push] at h
    split at h <;> cases result <;> simp at h <;> subst h
    · simp only [fifoItems, FifoEvent.accepted, ← Multiset.coe_add]
      abel
    · simp [FifoEvent.accepted]
  | dequeue i found =>
    simp only [fifoStep] at h
    split at h
    · rename_i hcond
      cases h
      cases hw : f.waiting with
      | nil =>
        simp [fifoItems, FifoEvent.accepted, hw, Ring.pop, ← hcond.1]
      | cons item waiting =>
        simp only [fifoItems, FifoEvent.accepted, hw, Ring.pop, sum_hands_some hcond.1, Multiset.coe_nil, add_zero,
          ← Multiset.cons_coe, ← Multiset.singleton_add]
        abel
    · cases h
  | handOut i item =>
    simp only [fifoStep] at h
    split at h
    · rename_i hhand
      cases h
      simp only [fifoItems, FifoEvent.accepted, ← Multiset.coe_add, Multiset.coe_nil, add_zero, Multiset.coe_singleton,
        ← sum_hands_none hhand]
      abel
    · cases h

theorem fifoItems_run {bound : Nat} {f f' : SocketFifo n} {calls : List (FifoEvent n)}
    (h : calls.foldlM (fifoStep bound) f = some f') : fifoItems f' = fifoItems f + acceptedItems calls := by
  induction calls generalizing f with
  | nil =>
    cases h
    simp [acceptedItems]
  | cons e calls ih =>
    rw [List.foldlM_cons] at h
    obtain ⟨f₁, he, hrest⟩ := Option.bind_eq_some_iff.mp h
    rw [ih hrest, fifoItems_step he, acceptedItems, acceptedItems, List.flatMap_cons, ← Multiset.coe_add, add_assoc]

end

theorem fifoItems_start {n bound : Nat} {f : SocketFifo n} {calls : List (FifoEvent n)}
    (h : calls.foldlM (fifoStep bound) (fifoStart n) = some f) : (acceptedItems calls : Multiset Int) = fifoItems f := by
  have hstart : fifoItems (fifoStart n) = 0 := by simp [fifoItems, fifoStart]
  rw [fifoItems_run h, hstart, zero_add]

/-- In time, every item that was accepted is in the queue, reserved by one consumer or returned once. -/
theorem spmc_delivers_once {n capacity : Nat} (hc : 0 < capacity) (queueSocketMem : Nat → Int)
    (as : List (SpmcAccess n))
    (ht : Along historyStep InTime (historyStart n (spmcI32Init capacity queueSocketMem hc)) as) :
    let s := run spmcStep (spmcStart n (spmcI32Init capacity queueSocketMem hc)) as
    (acceptedItems (spmcCalls n (spmcI32Init capacity queueSocketMem hc) as) : Multiset Int) =
      s.queue.contents + ∑ i, held (handOf (s.consumers i)) + (s.returned.map Prod.fst : List Int) := by
  exact fifoItems_start (fifo_run hc queueSocketMem ht)

theorem spmc_delivers_once_two :
    let s := run spmcStep (spmcStart 2 (spmcI32Init 2 (fun _ => 0) (by decide)))
      [.enqueue 7, .produce, .produce, .produce, .consume 0, .consume 0, .consume 0]
    (acceptedItems (spmcCalls 2 (spmcI32Init 2 (fun _ => 0) (by decide))
        [.enqueue 7, .produce, .produce, .produce, .consume 0, .consume 0, .consume 0]) : Multiset Int) =
      s.queue.contents + ∑ i, held (handOf (s.consumers i)) + (s.returned.map Prod.fst : List Int) := by
  apply @spmc_delivers_once 2 2 (by decide)
  repeat' constructor

/-! ## Less than one turn -/

def SpmcAccess.isEnqueue {n : Nat} : SpmcAccess n → Bool
  | .enqueue _ => true
  | _ => false

/-- The item that the producer has been called with and has not stored. -/
def ProducerPc.pending : ProducerPc → Nat
  | .loadHead _ _ | .storeItem _ _ => 1
  | _ => 0

section
variable {n : Nat} {h : SpmcHistory n}

theorem stored_step_le (h : SpmcHistory n) (a : SpmcAccess n) :
    (historyStep h a).stored.length + (historyStep h a).threads.producer.pending ≤
      h.stored.length + h.threads.producer.pending + if a.isEnqueue then 1 else 0 := by
  cases a with
  | enqueue item =>
    cases hpc : h.threads.producer <;>
      simp [historyStep, spmcStep, enqueueStep, storedBy, hpc, ProducerPc.pending, SpmcAccess.isEnqueue]
  | produce =>
    cases hpc : h.threads.producer <;>
      simp only [historyStep, spmcStep, produceStep, storedBy, hpc, ProducerPc.pending, SpmcAccess.isEnqueue]
    · simp
    · split <;> simp
    · simp
    · simp
  | consume i =>
    have hp : (consumeStep h.threads i).producer = h.threads.producer := by
      unfold consumeStep
      split
      · rfl
      · split <;> rfl
      · split <;> rfl
      · rfl
    simp [historyStep, spmcStep, storedBy, hp, SpmcAccess.isEnqueue]

theorem HistoryInv.inTime_of_stored (hi : HistoryInv h) (hfew : h.stored.length < h.threads.queue.capacity)
    (a : SpmcAccess n) : InTime h a := by
  cases a with
  | enqueue item => trivial
  | produce => trivial
  | consume i =>
    have hle := hi.enqueued_le_stored
    cases hpc : h.threads.consumers i <;> simp only [InTime, hpc] <;> omega

theorem inTime_of_few {as : List (SpmcAccess n)} (hi : HistoryInv h)
    (hfew : h.stored.length + h.threads.producer.pending + as.countP SpmcAccess.isEnqueue < h.threads.queue.capacity) :
    Along historyStep InTime h as := by
  induction as generalizing h with
  | nil => trivial
  | cons a as ih =>
    rw [List.countP_cons] at hfew
    have ht := hi.inTime_of_stored (by omega) a
    obtain ⟨-, -, hi', -⟩ := tracks_step hi (f := fifoOf h.threads) ⟨hi.contents, fun _ => rfl, rfl⟩ ht
    have hle := stored_step_le h a
    refine ⟨ht, ih hi' ?_⟩
    rw [capacity_historyStep]
    omega

end

/-- As long as fewer items than slots are enqueued, every interleaving of any number of consumers delivers once. -/
theorem spmc_delivers_once_of_few {n capacity : Nat} (hc : 0 < capacity) (queueSocketMem : Nat → Int)
    (as : List (SpmcAccess n)) (hfew : as.countP SpmcAccess.isEnqueue < capacity) :
    let s := run spmcStep (spmcStart n (spmcI32Init capacity queueSocketMem hc)) as
    let calls := spmcCalls n (spmcI32Init capacity queueSocketMem hc) as
    calls.foldlM (fifoStep (capacity - 1)) (fifoStart n) = some (fifoOf s) ∧
      (acceptedItems calls : Multiset Int) =
        s.queue.contents + ∑ i, held (handOf (s.consumers i)) + (s.returned.map Prod.fst : List Int) := by
  have ht : Along historyStep InTime (historyStart n (spmcI32Init capacity queueSocketMem hc)) as := by
    apply inTime_of_few (historyInv_start rfl rfl)
    simpa [historyStart, spmcStart, spmcI32Init, ProducerPc.pending] using hfew
  have hrun := fifo_run hc queueSocketMem ht
  exact ⟨hrun, fifoItems_start hrun⟩

theorem spmc_delivers_once_of_few_two :
    let as : List (SpmcAccess 2) :=
      [.consume 1, .enqueue 7, .produce, .produce, .produce, .consume 0, .consume 1, .consume 0, .consume 0]
    let s := run spmcStep (spmcStart 2 (spmcI32Init 2 (fun _ => 0) (by decide))) as
    let calls := spmcCalls 2 (spmcI32Init 2 (fun _ => 0) (by decide)) as
    calls.foldlM (fifoStep 1) (fifoStart 2) = some (fifoOf s) ∧
      (acceptedItems calls : Multiset Int) =
        s.queue.contents + ∑ i, held (handOf (s.consumers i)) + (s.returned.map Prod.fst : List Int) :=
  @spmc_delivers_once_of_few 2 2 (by decide) _ _ (by decide)

/-! ## One consumer -/

/-- The head that the consumer has loaded is the head, or the one before if it has taken the item. -/
def SeenOk (dequeued seen : Nat) : ConsumerPc → Prop
  | .loadHead => True
  | .loadTail _ | .swapHead _ => seen = dequeued
  | .loadItem _ _ => seen + 1 = dequeued

structure AloneInv {n : Nat} (h : SpmcHistory n) : Prop extends HistoryInv h where
  seen : ∀ i, SeenOk h.threads.dequeued (h.seen i) (h.threads.consumers i)

section
variable {n : Nat} {h : SpmcHistory n}

theorem AloneInv.inTime (hi : AloneInv h) (a : SpmcAccess n) : InTime h a := by
  cases a with
  | enqueue item => trivial
  | produce => trivial
  | consume i =>
    have hseen := hi.seen i
    have hlt := hi.lt
    have hstored := hi.stored_lt
    cases hpc : h.threads.consumers i with
    | loadHead => simp only [InTime, hpc]
    | loadTail _ =>
      rw [hpc] at hseen
      simp only [InTime, hpc, hseen.symm ▸ hlt]
    | swapHead _ =>
      rw [hpc] at hseen
      simp only [InTime, hpc, hseen.symm ▸ hlt]
    | loadItem _ _ =>
      rw [hpc] at hseen
      have hseen : h.seen i + 1 = h.threads.dequeued := hseen
      simp only [InTime, hpc]
      omega

theorem seen_goto (h1 : n ≤ 1) {i : Fin n} {pc : ConsumerPc} {dequeued : Nat} {seen : Fin n → Nat}
    (hpc : SeenOk dequeued (seen i) pc) (s : SpmcThreads n) :
    ∀ j, SeenOk dequeued (seen j) ((goto s i pc).consumers j) := by
  intro j
  obtain rfl : j = i := Fin.ext (by omega)
  show SeenOk dequeued (seen j) (Function.update s.consumers j pc j)
  rw [Function.update_self]
  exact hpc

theorem AloneInv.step (h1 : n ≤ 1) (hi : AloneInv h) (a : SpmcAccess n) : AloneInv (historyStep h a) := by
  obtain ⟨-, -, hi', -⟩ := tracks_step hi.toHistoryInv (f := fifoOf h.threads)
    ⟨hi.contents, fun _ => rfl, rfl⟩ (hi.inTime a)
  refine { hi' with seen := ?_ }
  cases a with
  | enqueue item =>
    simp only [historyStep, spmcStep, enqueueStep, seenBy]
    split <;> exact hi.seen
  | produce =>
    simp only [historyStep, spmcStep, produceStep, seenBy]
    split
    · exact hi.seen
    · split <;> exact hi.seen
    · exact hi.seen
    · exact hi.seen
  | consume i =>
    have hseen := hi.seen i
    cases hpc : h.threads.consumers i with
    | loadHead =>
      simp only [historyStep, spmcStep, consumeStep, seenBy, hpc]
      exact seen_goto h1 (by rw [Function.update_self]; rfl) _
    | loadTail currentHead =>
      rw [hpc] at hseen
      simp only [historyStep, spmcStep, consumeStep, seenBy, hpc]
      split
      · exact seen_goto h1 (show SeenOk _ _ .loadHead from trivial) _
      · exact seen_goto h1 (show SeenOk _ _ (.swapHead currentHead) from hseen) _
    | swapHead currentHead =>
      rw [hpc] at hseen
      simp only [historyStep, spmcStep, consumeStep, seenBy, hpc]
      split
      · exact seen_goto h1 (show SeenOk _ _ (.loadItem currentHead _) from congrArg (· + 1) hseen) _
      · exact seen_goto h1 (show SeenOk _ _ .loadHead from trivial) _
    | loadItem currentHead held =>
      simp only [historyStep, spmcStep, consumeStep, seenBy, hpc]
      exact seen_goto h1 (show SeenOk _ _ .loadHead from trivial) _

theorem aloneInv_start {queue : SpmcQueueI32} (hh : queue.head = 0) (ht : queue.tail = 0) :
    AloneInv (historyStart n queue) :=
  { historyInv_start hh ht with seen := fun _ => trivial }

theorem AloneInv.along (h1 : n ≤ 1) (hi : AloneInv h) (as : List (SpmcAccess n)) : Along historyStep InTime h as :=
  Along.of_invariant (fun _ a hi _ => hi.step h1 a) (fun _ a hi _ => hi.inTime a) hi (Runs.along_true h as)

end

/-- What has been returned, is in the consumer's hand and waits, in the order of the queue. -/
def fifoLine (f : SocketFifo 1) : List Int := f.returned ++ ((f.hands 0).toList ++ f.waiting)

theorem fifoLine_step {bound : Nat} {f f' : SocketFifo 1} {e : FifoEvent 1} (h : fifoStep bound f e = some f') :
    fifoLine f' = fifoLine f ++ e.accepted := by
  cases e with
  | enqueue item result =>
    simp only [fifoStep, Ring.push] at h
    split at h <;> cases result <;> simp at h <;> subst h
    · simp [fifoLine, FifoEvent.accepted]
    · simp [FifoEvent.accepted]
  | dequeue i found =>
    obtain rfl : i = 0 := Subsingleton.elim _ _
    simp only [fifoStep] at h
    split at h
    · rename_i hcond
      cases h
      cases hw : f.waiting <;> simp [fifoLine, FifoEvent.accepted, hw, Ring.pop, hcond.1]
    · cases h
  | handOut i item =>
    obtain rfl : i = 0 := Subsingleton.elim _ _
    simp only [fifoStep] at h
    split at h
    · rename_i hhand
      cases h
      simp [fifoLine, FifoEvent.accepted, hhand]
    · cases h

theorem fifoLine_run {bound : Nat} {f f' : SocketFifo 1} {calls : List (FifoEvent 1)}
    (h : calls.foldlM (fifoStep bound) f = some f') : fifoLine f' = fifoLine f ++ acceptedItems calls := by
  induction calls generalizing f with
  | nil =>
    cases h
    rw [acceptedItems, List.flatMap_nil, List.append_nil]
  | cons e calls ih =>
    rw [List.foldlM_cons] at h
    obtain ⟨f₁, he, hrest⟩ := Option.bind_eq_some_iff.mp h
    rw [ih hrest, fifoLine_step he, acceptedItems, acceptedItems, List.flatMap_cons, List.append_assoc]

/-- With a single consumer every interleaving shows the calls of the FIFO, and the items come out in the order in
which they were accepted. -/
theorem spmc_single_consumer {capacity : Nat} (hc : 0 < capacity) (queueSocketMem : Nat → Int)
    (as : List (SpmcAccess 1)) :
    let s := run spmcStep (spmcStart 1 (spmcI32Init capacity queueSocketMem hc)) as
    let calls := spmcCalls 1 (spmcI32Init capacity queueSocketMem hc) as
    calls.foldlM (fifoStep (capacity - 1)) (fifoStart 1) = some (fifoOf s) ∧
      acceptedItems calls = s.returned.map Prod.fst ++ ((handOf (s.consumers 0)).toList ++ s.queue.contents) := by
  have hi : AloneInv (historyStart 1 (spmcI32Init capacity queueSocketMem hc)) := aloneInv_start rfl rfl
  have hrun := fifo_run hc queueSocketMem (hi.along (Nat.le_refl 1) as)
  exact ⟨hrun, (fifoLine_run hrun).symm⟩

theorem spmc_single_consumer_item :
    let as : List (SpmcAccess 1) := [.enqueue 7, .produce, .produce, .produce, .consume 0, .consume 0, .consume 0]
    let s := run spmcStep (spmcStart 1 (spmcI32Init 2 (fun _ => 0) (by decide))) as
    let calls := spmcCalls 1 (spmcI32Init 2 (fun _ => 0) (by decide)) as
    calls.foldlM (fifoStep 1) (fifoStart 1) = some (fifoOf s) ∧
      acceptedItems calls = s.returned.map Prod.fst ++ ((handOf (s.consumers 0)).toList ++ s.queue.contents) :=
  @spmc_single_consumer 2 (by decide) _ _

end CWebServer
