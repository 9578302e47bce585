import CWebServer.Process
import CWebServer.SpmcDelivery

/-!
# Who holds which socket

The open sockets are shared out among the queue and the threads that are at it,
the handlers and what has been given up, and so are the SSL objects. As long as
no worker is a full turn of the queue late, no thread uses a descriptor that it
or another one has closed, in any interleaving of calls and single accesses.
-/

namespace CWebServer

open Runs (run Along)

def socketsOf (t : Option Handler) : Multiset Int := (t.bind Handler.socket).toList

def clientsOf (t : Option Handler) : Multiset Nat := (t.bind fun h => h.pc.client).toList

/-! ## One call of a handler -/

section
variable (h : Handler) (o : CallResult)

def Handler.after : Option Handler := (h.pc.next o).map fun pc => { h with pc }

theorem handler_sockets {opened : Finset Int} {rest : Multiset Int} (hopen : opened.val = socketsOf (some h) + rest) :
    (h.opened opened).val = socketsOf (h.after o) + ((h.left o).1 + rest) := by
  obtain ⟨clientSock, pc⟩ := h
  cases pc with
  | closeRefused =>
    have := Ownership.erase_shared (hopen : opened.val = {clientSock} + rest)
    simpa [Handler.opened, Handler.after, Handler.left, HandlerPc.next, socketsOf] using this
  | close client =>
    have := Ownership.erase_shared (hopen : opened.val = {clientSock} + rest)
    simpa [Handler.opened, Handler.after, Handler.left, HandlerPc.next, socketsOf, Handler.socket] using this
  | sslNew =>
    cases hc : o.client <;>
      simpa [Handler.opened, Handler.after, Handler.left, HandlerPc.next, socketsOf, Handler.socket, hc] using hopen
  | sslAccept client =>
    by_cases hr : o.result = 0 <;>
      simpa [Handler.opened, Handler.after, Handler.left, HandlerPc.next, socketsOf, Handler.socket, hr] using hopen
  | setReuseAddr | recv | setRcvTimeo | sslRead client =>
    simp only [Handler.opened, Handler.after, Handler.left, HandlerPc.next, Option.map_some, zero_add]
    split <;> exact hopen
  | sendErrorResponse | sendForbidden client | writeHeader client | writeContent client | sslShutdown client
  | shutdown client | sslFree client =>
    simpa [Handler.opened, Handler.after, Handler.left, HandlerPc.next, socketsOf, Handler.socket] using hopen

theorem handler_clients {live : Finset Nat} {rest : Multiset Nat} (hlive : live.val = clientsOf (some h) + rest)
    (hfresh : ∀ client ∈ o.client, client ∉ live) :
    (h.live o live).val = clientsOf (h.after o) + ((h.left o).2 + rest) := by
  obtain ⟨clientSock, pc⟩ := h
  cases pc with
  | sslNew =>
    cases hc : o.client with
    | none => simpa [Handler.live, Handler.after, Handler.left, HandlerPc.next, clientsOf, HandlerPc.client, hc] using hlive
    | some client =>
      have hlive : live.val = rest := by simpa [clientsOf, HandlerPc.client] using hlive
      have := Ownership.insert_shared hlive (hfresh client hc)
      simpa [Handler.live, Handler.after, Handler.left, HandlerPc.next, clientsOf, HandlerPc.client, hc] using this
  | sslAccept client =>
    by_cases hr : o.result = 0 <;>
      simpa [Handler.live, Handler.after, Handler.left, HandlerPc.next, clientsOf, HandlerPc.client, hr] using hlive
  | sslFree client =>
    have := Ownership.erase_shared (hlive : live.val = {client} + rest)
    simpa [Handler.live, Handler.after, Handler.left, HandlerPc.next, clientsOf] using this
  | setReuseAddr | recv | setRcvTimeo | sslRead client =>
    simp only [Handler.live, Handler.after, Handler.left, HandlerPc.next, Option.map_some, zero_add]
    split <;> exact hlive
  | sendErrorResponse | closeRefused | sendForbidden client | writeHeader client | writeContent client
  | sslShutdown client | shutdown client | close client =>
    simpa [Handler.live, Handler.after, Handler.left, HandlerPc.next, clientsOf, HandlerPc.client] using hlive

end

/-! ## The queue -/

/-- The item that the producer has in hand. -/
def ProducerPc.hand (stored : List Int) : ProducerPc → Option Int
  | .idle => none
  | .loadHead item _ | .storeItem item _ => some item
  | .storeTail _ => stored.getLast?

/-- What waits in the queue or is in the hands of a thread that is at it. -/
def queued {n : Nat} (h : SpmcHistory n) : Multiset Int :=
  (h.threads.queue.contents : Multiset Int) + ∑ i, held (handOf (h.threads.consumers i)) +
    held (h.threads.producer.hand h.stored)

section
variable {n : Nat} {h : SpmcHistory n}

theorem historyInv_step (hi : HistoryInv h) {a : SpmcAccess n} (ht : InTime h a) : HistoryInv (historyStep h a) := by
  obtain ⟨-, -, hi', -⟩ := tracks_step hi (f := fifoOf h.threads) ⟨hi.contents, fun _ => rfl, rfl⟩ ht
  exact hi'

/-- What an access does to the items in the queue is what the call does that it shows. -/
theorem fifoItems_access (hi : HistoryInv h) {a : SpmcAccess n} (ht : InTime h a) :
    fifoItems (fifoOf (historyStep h a).threads) =
      fifoItems (fifoOf h.threads) + acceptedItems (accessEvent h a).toList := by
  obtain ⟨f, hf, hi', hs'⟩ := tracks_step hi (f := fifoOf h.threads) ⟨hi.contents, fun _ => rfl, rfl⟩ ht
  rw [hs'.eq_fifoOf hi'] at hf
  exact fifoItems_run hf

theorem queued_enqueue (hidle : h.threads.producer = .idle) (item : Int) :
    queued (historyStep h (.enqueue item)) = {item} + queued h := by
  simp only [queued, historyStep, spmcStep, enqueueStep, storedBy, hidle, ProducerPc.hand, held_some, held_none, add_zero]
  rw [add_comm]

theorem queued_produce (hi : HistoryInv h) :
    queued (historyStep h .produce) + held (refusedItem h) = queued h := by
  have hitems := fifoItems_access hi (a := .produce) trivial
  cases hpc : h.threads.producer with
  | idle =>
    have hstep : historyStep h .produce = h := by
      simp only [historyStep, spmcStep, produceStep, storedBy, seenBy, hpc]
    simp only [hstep, refusedItem, hpc, held_none, add_zero]
  | loadHead item currentTail =>
    by_cases hfull : h.threads.queue.next currentTail = h.threads.queue.head
    · simp only [queued, historyStep, spmcStep, produceStep, storedBy, refusedItem, hpc, hfull, if_true, ProducerPc.hand,
        held_some, held_none, add_zero]
    · simp only [queued, historyStep, spmcStep, produceStep, storedBy, refusedItem, hpc, hfull, if_false, ProducerPc.hand,
        held_some, held_none, add_zero]
  | storeItem item currentTail =>
    simp only [fifoItems, fifoOf, accessEvent, historyStep, spmcStep, produceStep, hpc, Option.toList_none, acceptedItems,
      List.flatMap_nil, Multiset.coe_nil, add_zero, add_left_inj] at hitems
    simp only [queued, historyStep, spmcStep, produceStep, storedBy, refusedItem, hpc, ProducerPc.hand, held_some, held_none,
      add_zero, List.getLast?_append, List.getLast?_singleton, Option.some_or, hitems]
  | storeTail currentTail =>
    have haccepted : (acceptedItems ((h.stored.getLast?.map fun item => FifoEvent.enqueue (n := n) item true).toList) :
        Multiset Int) = held h.stored.getLast? := by
      cases h.stored.getLast? <;> simp [acceptedItems, FifoEvent.accepted]
    simp only [fifoItems, fifoOf, accessEvent, historyStep, spmcStep, produceStep, hpc, haccepted] at hitems
    simp only [queued, historyStep, spmcStep, produceStep, storedBy, refusedItem, hpc, ProducerPc.hand, held_none, add_zero]
    rw [add_right_comm _ _ (held h.stored.getLast?), add_left_inj] at hitems
    exact hitems

/-- Only the producer makes the queue accept an item. -/
theorem accepted_consume (i : Fin n) : acceptedItems (accessEvent h (.consume i)).toList = [] := by
  cases hpc : h.threads.consumers i with
  | loadHead =>
    simp only [accessEvent, hpc]
    rfl
  | loadTail currentHead =>
    simp only [accessEvent, hpc]
    split <;> rfl
  | swapHead currentHead =>
    simp only [accessEvent, hpc]
    split <;> rfl
  | loadItem currentHead held =>
    simp only [accessEvent, hpc]
    rfl

theorem returned_consume (i : Fin n) :
    (historyStep h (.consume i)).threads.returned.map Prod.fst =
      h.threads.returned.map Prod.fst ++ (returnedItem h i).toList := by
  cases hpc : h.threads.consumers i with
  | loadHead => simp [historyStep, spmcStep, consumeStep, returnedItem, hpc, goto]
  | loadTail currentHead =>
    simp only [historyStep, spmcStep, consumeStep, returnedItem, hpc]
    split <;> simp [goto]
  | swapHead currentHead =>
    simp only [historyStep, spmcStep, consumeStep, returnedItem, hpc]
    split <;> simp [goto]
  | loadItem currentHead held => simp [historyStep, spmcStep, consumeStep, returnedItem, hpc, goto]

theorem hand_consume (i : Fin n) :
    (historyStep h (.consume i)).threads.producer.hand (historyStep h (.consume i)).stored =
      h.threads.producer.hand h.stored := by
  cases hpc : h.threads.consumers i with
  | loadHead => simp [historyStep, spmcStep, consumeStep, storedBy, hpc, goto]
  | loadTail currentHead =>
    simp only [historyStep, spmcStep, consumeStep, storedBy, hpc]
    split <;> simp [goto]
  | swapHead currentHead =>
    simp only [historyStep, spmcStep, consumeStep, storedBy, hpc]
    split <;> simp [goto]
  | loadItem currentHead held => simp [historyStep, spmcStep, consumeStep, storedBy, hpc, goto]

theorem queued_consume (hi : HistoryInv h) {i : Fin n} (ht : InTime h (.consume i)) :
    queued (historyStep h (.consume i)) + held (returnedItem h i) = queued h := by
  have hitems := fifoItems_access hi ht
  rw [accepted_consume, Multiset.coe_nil, add_zero] at hitems
  unfold fifoItems fifoOf at hitems
  dsimp only at hitems
  rw [returned_consume, ← Multiset.coe_add, add_comm (h.threads.returned.map Prod.fst : Multiset Int), ← add_assoc,
    add_left_inj] at hitems
  have hlist : ((returnedItem h i).toList : Multiset Int) = held (returnedItem h i) := rfl
  rw [queued, hand_consume, add_right_comm, ← hlist, hitems, queued]

end

/-! ## The process -/

/-- Each open socket and each SSL object has one place. -/
structure Shared {n : Nat} (s : WsProcess n) : Prop where
  sockets : s.opened.val = ∑ t, socketsOf (s.threads t) + (queued s.socketQueue + (s.dropped + s.leftSockets))
  clients : s.live.val = ∑ t, clientsOf (s.threads t) + s.leftClients
  history : HistoryInv s.socketQueue

section
variable {n : Nat} {s : WsProcess n}

theorem socketsOf_none : socketsOf none = 0 := rfl

theorem sums_start {t : Option (Fin n)} (hidle : s.threads t = none) (clientSock : Int) :
    ∑ j, socketsOf (Function.update s.threads t (some ⟨clientSock, .setReuseAddr⟩) j) =
        {clientSock} + ∑ j, socketsOf (s.threads j) ∧
      ∑ j, clientsOf (Function.update s.threads t (some ⟨clientSock, .setReuseAddr⟩) j) = ∑ j, clientsOf (s.threads j) := by
  have hs := Ownership.sum_holders socketsOf s.threads t
  have hc := Ownership.sum_holders clientsOf s.threads t
  rw [hidle] at hs hc
  rw [socketsOf_none, zero_add] at hs
  rw [Ownership.sum_update, Ownership.sum_update, hs, hc]
  exact ⟨rfl, rfl⟩

theorem shared_accept (h : Shared s) (hidle : s.threads none = none) (hproducer : s.socketQueue.threads.producer = .idle)
    {clientSock : Int} (hfresh : clientSock ∉ s.opened) : Shared (processAccept s clientSock) := by
  unfold processAccept
  split
  · exact h
  have hopen := Ownership.insert_shared h.sockets hfresh
  by_cases hn : 0 < n
  · simp only [hn, if_true]
    refine { h with sockets := ?_, history := historyInv_step h.history trivial }
    show (insert clientSock s.opened).val = _ + (queued (historyStep s.socketQueue (.enqueue clientSock)) + _)
    rw [hopen, queued_enqueue hproducer]
    abel
  · simp only [hn, if_false]
    obtain ⟨hs, hc⟩ := sums_start hidle clientSock
    refine ⟨?_, ?_, h.history⟩
    · show (insert clientSock s.opened).val = _
      rw [hopen, hs]
      abel
    · exact h.clients.trans (congrArg (· + _) hc.symm)

theorem shared_enqueue (h : Shared s) : Shared (processEnqueue s) := by
  refine { h with sockets := ?_, history := historyInv_step h.history trivial }
  show s.opened.val = ∑ t, socketsOf (s.threads t) + (queued (historyStep s.socketQueue .produce) +
    (s.dropped + held (refusedItem s.socketQueue) + s.leftSockets))
  rw [h.sockets, ← queued_produce h.history]
  abel

theorem shared_poll (h : Shared s) {i : Fin n} (hidle : s.threads (some i) = none)
    (ht : InTime s.socketQueue (.consume i)) : Shared (processPoll s i) := by
  have hqueued := queued_consume h.history ht
  have hsockets := h.sockets
  have hhistory := historyInv_step h.history ht
  unfold processPoll
  cases hitem : returnedItem s.socketQueue i with
  | none =>
    rw [hitem, held_none, add_zero] at hqueued
    refine { h with sockets := ?_, history := hhistory }
    show s.opened.val = _ + (queued (historyStep s.socketQueue (.consume i)) + _)
    rw [hqueued, hsockets]
  | some socketHandle =>
    rw [hitem, held_some] at hqueued
    obtain ⟨hs, hc⟩ := sums_start hidle socketHandle
    refine ⟨?_, h.clients.trans (congrArg (· + _) hc.symm), hhistory⟩
    show s.opened.val = ∑ j, socketsOf (Function.update s.threads (some i) _ j) +
      (queued (historyStep s.socketQueue (.consume i)) + _)
    rw [hsockets, hs, ← hqueued]
    abel

theorem shared_call (h : Shared s) {t : Option (Fin n)} {handler : Handler} (ht : s.threads t = some handler)
    {o : CallResult} (hfresh : ∀ client ∈ o.client, client ∉ s.live) :
    Shared (processCall s t handler o) := by
  have hs := h.sockets
  have hc := h.clients
  rw [Ownership.sum_holders socketsOf s.threads t, ht, add_assoc] at hs
  rw [Ownership.sum_holders clientsOf s.threads t, ht, add_assoc] at hc
  refine ⟨?_, ?_, h.history⟩
  · show (handler.opened s.opened).val = ∑ j, socketsOf (Function.update s.threads t (handler.after o) j) + _
    rw [handler_sockets handler o hs, Ownership.sum_update]
    show _ = _ + (queued s.socketQueue + (s.dropped + (s.leftSockets + (handler.left o).1)))
    abel
  · show (handler.live o s.live).val = ∑ j, clientsOf (Function.update s.threads t (handler.after o) j) + _
    rw [handler_clients handler o hc hfresh, Ownership.sum_update]
    show _ = _ + (s.leftClients + (handler.left o).2)
    abel

theorem shared_step (a : ProcessStep n) (h : Shared s) (ha : Fresh s a ∧ OnTime s a) : Shared (processStep s a) := by
  obtain ⟨hfresh, htime⟩ := ha
  cases a with
  | accept clientSock =>
    simp only [processStep]
    split
    · rename_i hidle
      exact shared_accept h hidle.1 hidle.2 hfresh
    · exact h
  | enqueue => exact shared_enqueue h
  | poll i =>
    simp only [processStep]
    split
    · rename_i hidle
      exact shared_poll h hidle htime
    · exact h
  | call t o =>
    simp only [processStep]
    split
    · exact h
    · rename_i handler ht
      exact shared_call h ht hfresh

theorem shared_start {capacity : Nat} (hc : 0 < capacity) (queueSocketMem : Nat → Int) :
    Shared (processStart n (spmcI32Init capacity queueSocketMem hc)) := by
  have hcontents := contents_init capacity queueSocketMem hc
  refine ⟨?_, ?_, historyInv_start rfl rfl⟩ <;>
    simp [processStart, historyStart, spmcStart, queued, hcontents, handOf, ProducerPc.hand, socketsOf, clientsOf]

theorem shared_run {capacity : Nat} {hc : 0 < capacity} {queueSocketMem : Nat → Int} {steps : List (ProcessStep n)}
    (hfresh : Along processStep Fresh (processStart n (spmcI32Init capacity queueSocketMem hc)) steps)
    (htime : Along processStep OnTime (processStart n (spmcI32Init capacity queueSocketMem hc)) steps) :
    Shared (run processStep (processStart n (spmcI32Init capacity queueSocketMem hc)) steps) :=
  Runs.run_invariant_along (fun _ a h hf => shared_step a h hf) (shared_start hc queueSocketMem) (hfresh.and htime)

end

/-- What handler `h` of thread `t` will still use is open, and nobody else has it. -/
structure Owns {n : Nat} (s : WsProcess n) (t : Option (Fin n)) (h : Handler) : Prop where
  socket : ∀ r, h.socket = some r →
    r ∈ s.opened ∧ r ∉ queued s.socketQueue ∧ ∀ t' h', t' ≠ t → s.threads t' = some h' → h'.socket ≠ some r
  client : ∀ c, h.pc.client = some c →
    c ∈ s.live ∧ ∀ t' h', t' ≠ t → s.threads t' = some h' → h'.pc.client ≠ some c

theorem Shared.owns {n : Nat} {s : WsProcess n} (hs : Shared s) {t : Option (Fin n)} {h : Handler}
    (ht : s.threads t = some h) : Owns s t h := by
  refine ⟨fun r hr => ?_, fun c hc => ?_⟩
  · have hmem : r ∈ socketsOf (s.threads t) := by rw [ht]; simp [socketsOf, hr]
    obtain ⟨hopen, hrest, hothers⟩ := Ownership.owned hs.sockets hmem
    rw [Multiset.mem_add, not_or] at hrest
    refine ⟨hopen, hrest.1, fun t' h' hne ht' hr' => hothers t' hne ?_⟩
    rw [ht']
    simp [socketsOf, hr']
  · have hmem : c ∈ clientsOf (s.threads t) := by rw [ht]; simp [clientsOf, hc]
    obtain ⟨hlive, -, hothers⟩ := Ownership.owned hs.clients hmem
    refine ⟨hlive, fun t' h' hne ht' hc' => hothers t' hne ?_⟩
    rw [ht']
    simp [clientsOf, hc']

/-- In every interleaving in which no worker is a full turn of the queue late, whatever descriptor or SSL object a
handler uses next is its own and still open, although closed descriptors and freed addresses come back with later
connections. -/
theorem handlers_own {capacity : Nat} (hc : 0 < capacity) (queueSocketMem : Nat → Int) (n : Nat)
    (steps : List (ProcessStep n))
    (hfresh : Along processStep Fresh (processStart n (spmcI32Init capacity queueSocketMem hc)) steps)
    (htime : Along processStep OnTime (processStart n (spmcI32Init capacity queueSocketMem hc)) steps) :
    let s := run processStep (processStart n (spmcI32Init capacity queueSocketMem hc)) steps
    ∀ t h, s.threads t = some h → Owns s t h :=
  fun _ _ ht => (shared_run hfresh htime).owns ht

/-- The handler of the first socket has closed it; the second one gets the same number. -/
def reusedSteps : List (ProcessStep 1) :=
  [.accept 5, .enqueue, .enqueue, .poll (Fin.last 0), .enqueue, .poll (Fin.last 0), .poll (Fin.last 0),
    .poll (Fin.last 0), .call (some (Fin.last 0)) ⟨-1, 0, 0, 0, none⟩, .call (some (Fin.last 0)) ⟨0, 0, 0, 0, none⟩,
    .accept 5]

theorem fresh_reused :
    Along processStep Fresh (processStart 1 (spmcI32Init 2 (fun _ => 0) (by decide))) reusedSteps := by
  simp only [reusedSteps, Runs.Along]
  decide

theorem onTime_reused :
    Along processStep OnTime (processStart 1 (spmcI32Init 2 (fun _ => 0) (by decide))) reusedSteps := by
  repeat' constructor

theorem handlers_own_reused :
    let s := run processStep (processStart 1 (spmcI32Init 2 (fun _ => 0) (by decide))) reusedSteps
    ∀ t h, s.threads t = some h → Owns s t h :=
  @handlers_own 2 (by decide) (fun _ => 0) 1 reusedSteps fresh_reused onTime_reused

/-! ## What stays open -/

section
variable {n : Nat}

/-- The step gives up no socket and no object: an enqueue finds room, and a handler that gets to `SSL_new` gets an
object and a handshake. -/
def LeavesNone (s : WsProcess n) : ProcessStep n → Prop
  | .enqueue => refusedItem s.socketQueue = none
  | .call t o => ∀ h, s.threads t = some h → h.left o = (0, 0)
  | _ => True

/-- How much has been given up. -/
def leftovers (s : WsProcess n) : Nat :=
  Multiset.card s.dropped + Multiset.card s.leftSockets + Multiset.card s.leftClients

theorem leftovers_accept (s : WsProcess n) (clientSock : Int) :
    leftovers (processAccept s clientSock) = leftovers s := by
  unfold processAccept
  split
  · rfl
  · dsimp only
    split <;> rfl

theorem leftovers_enqueue (s : WsProcess n) :
    leftovers (processEnqueue s) = leftovers s + (refusedItem s.socketQueue).toList.length := by
  simp only [leftovers, processEnqueue, Multiset.card_add, Multiset.coe_card]
  omega

theorem leftovers_call (s : WsProcess n) (t : Option (Fin n)) (h : Handler) (o : CallResult) :
    leftovers (processCall s t h o) =
      leftovers s + (Multiset.card (h.left o).1 + Multiset.card (h.left o).2) := by
  simp only [leftovers, processCall, Multiset.card_add]
  omega

theorem leftovers_poll (s : WsProcess n) (i : Fin n) : leftovers (processPoll s i) = leftovers s := by
  unfold processPoll
  split <;> rfl

theorem leftovers_step (s : WsProcess n) (a : ProcessStep n) :
    leftovers s ≤ leftovers (processStep s a) ∧ (leftovers (processStep s a) = leftovers s ↔ LeavesNone s a) := by
  cases a with
  | accept clientSock =>
    simp only [processStep, LeavesNone, iff_true]
    split
    · rw [leftovers_accept]
      exact ⟨Nat.le_refl _, rfl⟩
    · exact ⟨Nat.le_refl _, rfl⟩
  | enqueue =>
    simp only [processStep, LeavesNone]
    rw [leftovers_enqueue]
    refine ⟨Nat.le_add_right _ _, ?_⟩
    cases refusedItem s.socketQueue <;> simp
  | poll i =>
    simp only [processStep, LeavesNone, iff_true]
    split
    · rw [leftovers_poll]
      exact ⟨Nat.le_refl _, rfl⟩
    · exact ⟨Nat.le_refl _, rfl⟩
  | call t o =>
    simp only [processStep, LeavesNone]
    split
    · rename_i ht
      refine ⟨Nat.le_refl _, ⟨fun _ h hh => ?_, fun _ => rfl⟩⟩
      rw [ht] at hh
      cases hh
    · rename_i h ht
      rw [leftovers_call]
      refine ⟨Nat.le_add_right _ _, ⟨fun heq h' hh => ?_, fun hkeep => ?_⟩⟩
      · rw [ht] at hh
        cases hh
        have hzero : Multiset.card (h.left o).1 = 0 ∧ Multiset.card (h.left o).2 = 0 := by omega
        exact Prod.ext (Multiset.card_eq_zero.mp hzero.1) (Multiset.card_eq_zero.mp hzero.2)
      · rw [hkeep h ht]
        rfl

theorem leftovers_run (s : WsProcess n) (steps : List (ProcessStep n)) :
    leftovers s ≤ leftovers (run processStep s steps) ∧
      (leftovers (run processStep s steps) = leftovers s ↔ Along processStep LeavesNone s steps) := by
  induction steps generalizing s with
  | nil => exact ⟨Nat.le_refl _, ⟨fun _ => trivial, fun _ => rfl⟩⟩
  | cons a steps ih =>
    obtain ⟨hle, hiff⟩ := leftovers_step s a
    obtain ⟨hle', hiff'⟩ := ih (processStep s a)
    rw [Runs.run_cons]
    refine ⟨Nat.le_trans hle hle', ⟨fun heq => ?_, fun hkeeps => ?_⟩⟩
    · exact ⟨hiff.mp (by omega), hiff'.mp (by omega)⟩
    · rw [hiff'.mpr hkeeps.2, hiff.mpr hkeeps.1]

end

/-- No handler runs, the queue is empty, and no thread has a socket in hand. -/
structure Idle {n : Nat} (s : WsProcess n) : Prop where
  threads : ∀ t, s.threads t = none
  queue : s.socketQueue.threads.queue.contents = []
  producer : s.socketQueue.threads.producer = .idle
  consumers : ∀ i, handOf (s.socketQueue.threads.consumers i) = none

theorem Idle.queued {n : Nat} {s : WsProcess n} (h : Idle s) : queued s.socketQueue = 0 := by
  have hhands : ∑ i, held (handOf (s.socketQueue.threads.consumers i)) = 0 :=
    Finset.sum_eq_zero fun i _ => by rw [h.consumers i, held_none]
  rw [CWebServer.queued, h.queue, h.producer, hhands]
  rfl

/-- When all handlers have returned and no socket is at the queue, exactly what has been given up is still open, and that
is nothing if and only if no step of the run gave anything up. -/
theorem idle_open {capacity : Nat} (hc : 0 < capacity) (queueSocketMem : Nat → Int) (n : Nat)
    (steps : List (ProcessStep n))
    (hfresh : Along processStep Fresh (processStart n (spmcI32Init capacity queueSocketMem hc)) steps)
    (htime : Along processStep OnTime (processStart n (spmcI32Init capacity queueSocketMem hc)) steps)
    (hidle : Idle (run processStep (processStart n (spmcI32Init capacity queueSocketMem hc)) steps)) :
    let s := run processStep (processStart n (spmcI32Init capacity queueSocketMem hc)) steps
    s.opened.val = s.dropped + s.leftSockets ∧ s.live.val = s.leftClients ∧
      (s.opened = ∅ ∧ s.live = ∅ ↔
        Along processStep LeavesNone (processStart n (spmcI32Init capacity queueSocketMem hc)) steps) := by
  intro s
  have hs : Shared s := shared_run hfresh htime
  have hopen : s.opened.val = s.dropped + s.leftSockets := by
    rw [hs.sockets, Finset.sum_eq_zero fun t _ => by rw [hidle.threads t]; rfl, hidle.queued, zero_add, zero_add]
  have hlive : s.live.val = s.leftClients := by
    rw [hs.clients, Finset.sum_eq_zero fun t _ => by rw [hidle.threads t]; rfl, zero_add]
  refine ⟨hopen, hlive, ?_⟩
  rw [← (leftovers_run _ steps).2, ← Finset.val_eq_zero, ← Finset.val_eq_zero, hopen, hlive]
  show _ ↔ leftovers s = 0
  simp only [leftovers, ← Multiset.card_eq_zero, Multiset.card_add]
  omega

theorem idle_open_reused :
    let s := run processStep (processStart 1 (spmcI32Init 2 (fun _ => 0) (by decide))) (reusedSteps.take 10)
    s.opened.val = s.dropped + s.leftSockets ∧ s.live.val = s.leftClients ∧
      (s.opened = ∅ ∧ s.live = ∅ ↔
        Along processStep LeavesNone (processStart 1 (spmcI32Init 2 (fun _ => 0) (by decide))) (reusedSteps.take 10)) := by
  apply @idle_open 2 (by decide) (fun _ => 0) 1 (reusedSteps.take 10)
  · simp only [reusedSteps, List.take, Runs.Along]
    decide
  · repeat' constructor
  · exact ⟨by decide, by decide, by decide, by decide⟩

end CWebServer
