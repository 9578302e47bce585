import CWebServer.Lib.Ownership
import CWebServer.Connection
import CWebServer.SpmcFifo

/-!
# The server process, system call by system call

The main thread accepts and enqueues, the workers dequeue, each access of the
queue being a step, and each `handleSocket` call is a thread at its next call
of the system or of the TLS library. Any thread may go next. The system may
give out a descriptor or an address again as soon as it is closed or freed.
`activeConnections`, which the workers increment without synchronisation, is
left out.
-/

namespace CWebServer

/-- The call that a handler makes next. `client` is the SSL object from `SSL_new` on; `SSL_set_fd`, which only stores the
descriptor in it, is part of that call. -/
inductive HandlerPc
  | setReuseAddr | recv | sendErrorResponse | closeRefused | setRcvTimeo | sslNew
  | sslAccept (client : Nat)
  | sslRead (client : Nat)
  | sendForbidden (client : Nat)
  | writeHeader (client : Nat)
  | writeContent (client : Nat)
  | sslShutdown (client : Nat)
  | shutdown (client : Nat)
  | close (client : Nat)
  | sslFree (client : Nat)
  deriving DecidableEq, Repr

structure Handler where
  clientSock : Int
  pc : HandlerPc
  deriving DecidableEq, Repr

/-- What a call returns: its result, the chars that `recv` peeks, the object of `SSL_new`. -/
structure CallResult where
  result : Int
  buffer0 : Int := 0
  buffer1 : Int := 0
  buffer2 : Int := 0
  client : Option Nat := none
  deriving DecidableEq, Repr

def CallResult.refused (o : CallResult) : Bool :=
  3 ≤ o.result ∧ ¬ (o.buffer0 = 0x16 ∧ 0x03 ≤ o.buffer1 ∧ o.buffer2 ≤ 0x03)

/-- Where the handler goes, or `none` where `handleSocket` returns. -/
def HandlerPc.next (o : CallResult) : HandlerPc → Option HandlerPc
  | setReuseAddr => some (if o.result < 0 then closeRefused else recv)
  | recv => some (if o.refused then sendErrorResponse else setRcvTimeo)
  | sendErrorResponse => some closeRefused
  | closeRefused => none
  | setRcvTimeo => some (if o.result < 0 then closeRefused else sslNew)
  | sslNew => o.client.map sslAccept
  | sslAccept client => if o.result = 0 then none else some (sslRead client)
  | sslRead client => some (if o.result ≤ 0 then sendForbidden client else writeHeader client)
  | sendForbidden client => some (sslShutdown client)
  | writeHeader client => some (writeContent client)
  | writeContent client => some (sslShutdown client)
  | sslShutdown client => some (shutdown client)
  | shutdown client => some (close client)
  | close client => some (sslFree client)
  | sslFree _ => none

/-- The socket that the handler has to close. Every call before `SSL_free` uses it. -/
def Handler.socket (h : Handler) : Option Int :=
  match h.pc with
  | .sslFree _ => none
  | _ => some h.clientSock

/-- The SSL object that the handler has to free. -/
def HandlerPc.client : HandlerPc → Option Nat
  | sslAccept client | sslRead client | sendForbidden client | writeHeader client | writeContent client
  | sslShutdown client | shutdown client | close client | sslFree client => some client
  | _ => none

/-- `opened` are the client sockets that are open, `live` the SSL objects that are not freed. `threads none` is the
`handleSocket` call of the main thread. What has been given up stays open: `dropped` are sockets accepted for a full
queue, `leftSockets` and `leftClients` what handlers have not given back. The history beside the queue is read by no
step. -/
structure WsProcess (n : Nat) where
  opened : Finset Int
  live : Finset Nat
  socketQueue : SpmcHistory n
  threads : Option (Fin n) → Option Handler
  dropped : Multiset Int
  leftSockets : Multiset Int
  leftClients : Multiset Nat

/-- `enqueue` and `poll` are the next access of the main thread's `spmcI32_enqueue` and of a worker's
`spmcI32_dequeue`. -/
inductive ProcessStep (n : Nat)
  | accept (clientSock : Int)
  | enqueue
  | poll (i : Fin n)
  | call (t : Option (Fin n)) (o : CallResult)
  deriving DecidableEq, Repr

section
variable {n : Nat}

/-- A handler that returns before `SSL_shutdown` gives back neither its socket nor its object. -/
def Handler.left (h : Handler) (o : CallResult) : Multiset Int × Multiset Nat :=
  match h.pc with
  | .sslNew => if o.client = none then ({h.clientSock}, 0) else (0, 0)
  | .sslAccept client => if o.result = 0 then ({h.clientSock}, {client}) else (0, 0)
  | _ => (0, 0)

def Handler.opened (h : Handler) (opened : Finset Int) : Finset Int :=
  match h.pc with
  | .closeRefused | .close _ => opened.erase h.clientSock
  | _ => opened

def Handler.live (h : Handler) (o : CallResult) (live : Finset Nat) : Finset Nat :=
  match h.pc with
  | .sslNew =>
    match o.client with
    | some client => insert client live
    | none => live
  | .sslFree client => live.erase client
  | _ => live

/-- The item that the next access of `spmcI32_enqueue` finds no room for. -/
def refusedItem (h : SpmcHistory n) : Option Int :=
  match h.threads.producer with
  | .loadHead item currentTail => if h.threads.queue.next currentTail = h.threads.queue.head then some item else none
  | _ => none

/-- The item that the next access of `spmcI32_dequeue` returns. -/
def returnedItem (h : SpmcHistory n) (i : Fin n) : Option Int :=
  match h.threads.consumers i with
  | .loadItem currentHead _ => some (h.threads.queue.items currentHead)
  | _ => none

/-- `ws_run` accepts, and calls `spmcI32_enqueue` if there are workers. -/
def processAccept (s : WsProcess n) (clientSock : Int) : WsProcess n :=
  if clientSock < 0 then s
  else
    let s := { s with opened := insert clientSock s.opened }
    if 0 < n then { s with socketQueue := historyStep s.socketQueue (.enqueue clientSock) }
    else { s with threads := Function.update s.threads none (some ⟨clientSock, .setReuseAddr⟩) }

/-- `ws_run` does not look at the result of `spmcI32_enqueue`. -/
def processEnqueue (s : WsProcess n) : WsProcess n :=
  { s with
    socketQueue := historyStep s.socketQueue .produce
    dropped := s.dropped + ((refusedItem s.socketQueue).toList : Multiset Int) }

def processPoll (s : WsProcess n) (i : Fin n) : WsProcess n :=
  let polled := { s with socketQueue := historyStep s.socketQueue (.consume i) }
  match returnedItem s.socketQueue i with
  | none => polled
  | some socketHandle =>
    { polled with threads := Function.update s.threads (some i) (some ⟨socketHandle, .setReuseAddr⟩) }

def processCall (s : WsProcess n) (t : Option (Fin n)) (h : Handler) (o : CallResult) : WsProcess n :=
  { s with
    opened := h.opened s.opened
    live := h.live o s.live
    threads := Function.update s.threads t ((h.pc.next o).map fun pc => { h with pc })
    leftSockets := s.leftSockets + (h.left o).1
    leftClients := s.leftClients + (h.left o).2 }

/-- A thread within a `handleSocket` call neither accepts nor dequeues, and `ws_run` accepts between two enqueues. -/
def processStep (s : WsProcess n) : ProcessStep n → WsProcess n
  | .accept clientSock =>
    if s.threads none = none ∧ s.socketQueue.threads.producer = .idle then processAccept s clientSock else s
  | .enqueue => processEnqueue s
  | .poll i => if s.threads (some i) = none then processPoll s i else s
  | .call t o =>
    match s.threads t with
    | none => s
    | some h => processCall s t h o

/-- The system gives out a descriptor that is not open, and the heap an address that is not in use. -/
def Fresh (s : WsProcess n) : ProcessStep n → Prop
  | .accept clientSock => clientSock ∉ s.opened
  | .call _ o => ∀ client ∈ o.client, client ∉ s.live
  | _ => True

/-- No worker is a full turn of the ring late when it acts on the head that it has loaded. -/
def OnTime (s : WsProcess n) : ProcessStep n → Prop
  | .poll i => InTime s.socketQueue (.consume i)
  | _ => True

instance (s : WsProcess n) : (a : ProcessStep n) → Decidable (Fresh s a)
  | .accept clientSock => inferInstanceAs (Decidable (clientSock ∉ s.opened))
  | .call _ o => inferInstanceAs (Decidable (∀ client ∈ o.client, client ∉ s.live))
  | .enqueue => inferInstanceAs (Decidable True)
  | .poll _ => inferInstanceAs (Decidable True)

def processStart (n : Nat) (socketQueue : SpmcQueueI32) : WsProcess n :=
  { opened := ∅
    live := ∅
    socketQueue := historyStart n socketQueue
    threads := fun _ => none
    dropped := 0
    leftSockets := 0
    leftClients := 0 }

end

end CWebServer
