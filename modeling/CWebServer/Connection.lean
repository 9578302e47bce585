import Mathlib.Algebra.Group.Nat.Defs
import Mathlib.Data.List.Induction
import Mathlib.Data.List.Perm.Basic
import CWebServer.Lib.Runs
import CWebServer.Str

/-!
# Connections and what they hold

`gHandleSocket` on one connection after the other, over everything that the
socket and TLS calls may return. A connection that fails in `SSL_new` or
`SSL_accept` keeps its socket open, and nothing ever decrements
`activeConnections`.
-/

namespace CWebServer

/-- What the calls for one connection return: both `setsockopt`, `recv` and the chars it peeks (signed or not, by
platform), whether `SSL_new` returns an object, `SSL_accept` and `SSL_read`. -/
structure ConnectionCalls where
  setReuseAddr : Int
  bytes : Int
  buffer0 : Int
  buffer1 : Int
  buffer2 : Int
  setRcvTimeo : Int
  sslNew : Bool
  sslAccept : Int
  sslRead : Int
  deriving DecidableEq, Repr

/-- `closed`, `freed` and `sent` are the calls of `close`, `SSL_free` and `send`, in order; `created` counts the SSL
objects, the k-th of which is `k`. `reportedOk` and `clientClosed` count the connections that `ws_nextConnection`
reported ok and the calls of `ws_closeClientConnection`. -/
structure WsContext where
  activeConnections : Nat
  closed : List Int
  created : Nat
  freed : List Nat
  sent : List (Int × List UInt8)
  reportedOk : Nat
  clientClosed : Nat
  deriving DecidableEq, Repr

structure WsClientConnection where
  clientSock : Int
  client : Nat
  deriving DecidableEq, Repr

def handshakeFailed : Int := 1

def errorResponse : List UInt8 := s8 "HTTP/1.1 400 Bad Request\r\n\r\nUse HTTPS\r\n"

def html403Error : List UInt8 :=
  s8 "HTTP/1.1 403 Forbidden\r\nContent-Type: text/plain\r\nConnection: close\r\n\r\n" ++
    s8 "403 Forbidden: This server only accepts secure connections (HTTPS).\n"

namespace WsContext

def close (context : WsContext) (sock : Int) : WsContext := { context with closed := context.closed ++ [sock] }

def send (context : WsContext) (sock : Int) (text : List UInt8) : WsContext :=
  { context with sent := context.sent ++ [(sock, text)] }

def sslNew (context : WsContext) : WsContext := { context with created := context.created + 1 }

/-- `activeConnections` is a `u32`. -/
def connected (context : WsContext) : WsContext :=
  { context with
    activeConnections := (context.activeConnections + 1) % 2 ^ 32
    reportedOk := context.reportedOk + 1 }

end WsContext

def notHttps (o : ConnectionCalls) : Prop :=
  3 ≤ o.bytes ∧ ¬ (o.buffer0 = 0x16 ∧ 0x03 ≤ o.buffer1 ∧ o.buffer2 ≤ 0x03)

instance (o : ConnectionCalls) : Decidable (notHttps o) := inferInstanceAs (Decidable (_ ∧ _))

/-- The connection, where the source returns `ws_clientConnectionError_ok`, or the other code that it returns. -/
def wsNextConnection (context : WsContext) (clientSock : Int) (o : ConnectionCalls) :
    Except Int WsClientConnection × WsContext :=
  if o.setReuseAddr < 0 then (.error handshakeFailed, context.close clientSock)
  else if notHttps o then (.error handshakeFailed, (context.send clientSock errorResponse).close clientSock)
  else if o.setRcvTimeo < 0 then (.error handshakeFailed, context.close clientSock)
  else if ¬ o.sslNew then (.error (-4), context)
  else if o.sslAccept = 0 then (.error handshakeFailed, context.sslNew)
  else (.ok ⟨clientSock, context.created⟩, context.sslNew.connected)

def wsCloseClientConnection (context : WsContext) (connection : WsClientConnection) : WsContext :=
  { context.close connection.clientSock with
    freed := context.freed ++ [connection.client]
    clientClosed := context.clientClosed + 1 }

/-- Between the read and the close the source only parses the request and writes the response; it does not look at the
results of the writes. -/
def gHandleSocket (context : WsContext) (c : Int × ConnectionCalls) : WsContext :=
  match wsNextConnection context c.1 c.2 with
  | (.error _, context) => context
  | (.ok connection, context) =>
    if c.2.sslRead ≤ 0 then wsCloseClientConnection (context.send connection.clientSock html403Error) connection
    else wsCloseClientConnection context connection

def wsContextStart : WsContext :=
  { activeConnections := 0, closed := [], created := 0, freed := [], sent := [], reportedOk := 0, clientClosed := 0 }

/-! ## Accounting -/

/-- Each socket is closed once, each SSL object is freed once, and `activeConnections` is the number of connections
reported ok and not closed. -/
def Accounted (conns : List (Int × ConnectionCalls)) (context : WsContext) : Prop :=
  context.closed.Perm (conns.map Prod.fst) ∧ context.freed.Perm (List.range context.created) ∧
    context.activeConnections + context.clientClosed = context.reportedOk

/-- No check before `SSL_new` turns the connection away. -/
def ReachesSsl (o : ConnectionCalls) : Prop := 0 ≤ o.setReuseAddr ∧ ¬ notHttps o ∧ 0 ≤ o.setRcvTimeo

instance (o : ConnectionCalls) : Decidable (ReachesSsl o) := inferInstanceAs (Decidable (_ ∧ _ ∧ _))

/-- The connection gets to `SSL_new`, and this or `SSL_accept` fails. -/
def SslFails (o : ConnectionCalls) : Prop := ReachesSsl o ∧ (o.sslNew = false ∨ o.sslAccept = 0)

instance (o : ConnectionCalls) : Decidable (SslFails o) := inferInstanceAs (Decidable (_ ∧ _))

def Established (o : ConnectionCalls) : Prop := ReachesSsl o ∧ o.sslNew = true ∧ o.sslAccept ≠ 0

instance (o : ConnectionCalls) : Decidable (Established o) := inferInstanceAs (Decidable (_ ∧ _ ∧ _))

def established (conns : List (Int × ConnectionCalls)) : Nat := conns.countP fun c => Established c.2

theorem handled_cases (o : ConnectionCalls) : ¬ ReachesSsl o ∨ SslFails o ∨ Established o := by
  unfold SslFails Established
  by_cases hr : ReachesSsl o
  · by_cases hn : o.sslNew = true
    · by_cases ha : o.sslAccept = 0
      · exact Or.inr (Or.inl ⟨hr, Or.inr ha⟩)
      · exact Or.inr (Or.inr ⟨hr, hn, ha⟩)
    · exact Or.inr (Or.inl ⟨hr, Or.inl (by simpa using hn)⟩)
  · exact Or.inl hr

theorem not_sslFails_of_established {o : ConnectionCalls} (he : Established o) : ¬ SslFails o := by
  intro hf
  rcases hf.2 with hn | ha
  · rw [he.2.1] at hn; cases hn
  · exact he.2.2 ha

structure Adds (context context' : WsContext) (closed : List Int) (created : Nat) (freed : List Nat) (ok : Nat) :
    Prop where
  closed : context'.closed = context.closed ++ closed
  created : context'.created = context.created + created
  freed : context'.freed = context.freed ++ freed
  active : context.activeConnections = context.reportedOk % 2 ^ 32 →
    context'.activeConnections = context'.reportedOk % 2 ^ 32
  reportedOk : context'.reportedOk = context.reportedOk + ok
  clientClosed : context'.clientClosed = context.clientClosed + ok

theorem adds_refused (context : WsContext) {c : Int × ConnectionCalls} (h : ¬ ReachesSsl c.2) :
    Adds context (gHandleSocket context c) [c.1] 0 [] 0 := by
  unfold gHandleSocket wsNextConnection
  by_cases h1 : c.2.setReuseAddr < 0
  · simp only [h1, if_true]
    exact ⟨rfl, rfl, (List.append_nil _).symm, id, rfl, rfl⟩
  by_cases h2 : notHttps c.2
  · simp only [h1, h2, if_true, if_false]
    exact ⟨rfl, rfl, (List.append_nil _).symm, id, rfl, rfl⟩
  by_cases h3 : c.2.setRcvTimeo < 0
  · simp only [h1, h2, h3, if_true, if_false]
    exact ⟨rfl, rfl, (List.append_nil _).symm, id, rfl, rfl⟩
  exact absurd ⟨by omega, h2, by omega⟩ h

theorem nextConnection_of_reaches (context : WsContext) (sock : Int) {o : ConnectionCalls} (h : ReachesSsl o) :
    wsNextConnection context sock o =
      if ¬ o.sslNew then (.error (-4), context)
      else if o.sslAccept = 0 then (.error handshakeFailed, context.sslNew)
      else (.ok ⟨sock, context.created⟩, context.sslNew.connected) := by
  unfold wsNextConnection
  rw [if_neg (Int.not_lt.mpr h.1), if_neg h.2.1, if_neg (Int.not_lt.mpr h.2.2)]

theorem adds_failed (context : WsContext) {c : Int × ConnectionCalls} (h : SslFails c.2) :
    ∃ created, Adds context (gHandleSocket context c) [] created [] 0 := by
  unfold gHandleSocket
  rw [nextConnection_of_reaches context c.1 h.1]
  by_cases hn : c.2.sslNew = true
  · have ha : c.2.sslAccept = 0 := by simpa [hn] using h.2
    simp only [hn, ha, not_true_eq_false, if_true, if_false]
    exact ⟨1, (List.append_nil _).symm, rfl, (List.append_nil _).symm, id, rfl, rfl⟩
  · rw [if_pos hn]
    exact ⟨0, (List.append_nil _).symm, rfl, (List.append_nil _).symm, id, rfl, rfl⟩

theorem adds_established (context : WsContext) {c : Int × ConnectionCalls} (h : Established c.2) :
    Adds context (gHandleSocket context c) [c.1] 1 [context.created] 1 := by
  unfold gHandleSocket
  rw [nextConnection_of_reaches context c.1 h.1]
  simp only [h.2.1, h.2.2, not_true_eq_false, if_false]
  have hactive : context.activeConnections = context.reportedOk % 2 ^ 32 →
      (context.activeConnections + 1) % 2 ^ 32 = (context.reportedOk + 1) % 2 ^ 32 := by
    intro ha
    rw [ha, Nat.mod_add_mod]
  split
  · exact ⟨rfl, rfl, rfl, hactive, rfl, rfl⟩
  · exact ⟨rfl, rfl, rfl, hactive, rfl, rfl⟩

structure Books (conns : List (Int × ConnectionCalls)) (context : WsContext) : Prop where
  closed : context.closed = (conns.filter fun c => ¬ SslFails c.2).map Prod.fst
  freed : (∀ c ∈ conns, ¬ SslFails c.2) → context.freed = List.range context.created
  active : context.activeConnections = context.reportedOk % 2 ^ 32
  reportedOk : context.reportedOk = established conns
  clientClosed : context.clientClosed = established conns

theorem Books.add {conns : List (Int × ConnectionCalls)} {c : Int × ConnectionCalls} {context context' : WsContext}
    {closed : List Int} {created : Nat} {freed : List Nat} {ok : Nat} (h : Books conns context)
    (ha : Adds context context' closed created freed ok) (hclosed : closed = if SslFails c.2 then [] else [c.1])
    (hfreed : ¬ SslFails c.2 → List.range (context.created + created) = List.range context.created ++ freed)
    (hok : ok = if Established c.2 then 1 else 0) : Books (conns ++ [c]) context' := by
  have hcount : established (conns ++ [c]) = established conns + ok := by
    unfold established
    rw [List.countP_append, hok]
    simp [List.countP_cons]
  refine ⟨?_, fun hall => ?_, ha.active h.active, ?_, ?_⟩
  · rw [ha.closed, h.closed, List.filter_append, List.map_append, hclosed]
    by_cases hf : SslFails c.2 <;> simp [hf]
  · rw [ha.freed, ha.created, hfreed (hall c (by simp)), h.freed fun c hc => hall c (by simp [hc])]
  · rw [ha.reportedOk, h.reportedOk, hcount]
  · rw [ha.clientClosed, h.clientClosed, hcount]

theorem Books.handle {conns : List (Int × ConnectionCalls)} {context : WsContext} (h : Books conns context)
    (c : Int × ConnectionCalls) : Books (conns ++ [c]) (gHandleSocket context c) := by
  rcases handled_cases c.2 with hr | hf | he
  · have hf : ¬ SslFails c.2 := fun hf => hr hf.1
    have he : ¬ Established c.2 := fun he => hr he.1
    exact h.add (adds_refused context hr) (by rw [if_neg hf]) (fun _ => (List.append_nil _).symm) (by rw [if_neg he])
  · obtain ⟨created, ha⟩ := adds_failed context hf
    have he : ¬ Established c.2 := fun he => not_sslFails_of_established he hf
    exact h.add ha (by rw [if_pos hf]) (fun hn => absurd hf hn) (by rw [if_neg he])
  · have hf : ¬ SslFails c.2 := not_sslFails_of_established he
    exact h.add (adds_established context he) (by rw [if_neg hf]) (fun _ => List.range_succ) (by rw [if_pos he])

theorem books_run (conns : List (Int × ConnectionCalls)) :
    Books conns (Runs.run gHandleSocket wsContextStart conns) := by
  induction conns using List.reverseRecOn with
  | nil => exact ⟨rfl, fun _ => rfl, rfl, rfl, rfl⟩
  | append_singleton conns c ih =>
    rw [Runs.run_append]
    exact ih.handle c

/-- The books balance exactly if no handshake fails and the established connections are a multiple of `2 ^ 32`. -/
theorem accounted_iff (conns : List (Int × ConnectionCalls)) :
    Accounted conns (Runs.run gHandleSocket wsContextStart conns) ↔
      (∀ c ∈ conns, ¬ SslFails c.2) ∧ 2 ^ 32 ∣ established conns := by
  have h := books_run conns
  have hactive : (Runs.run gHandleSocket wsContextStart conns).activeConnections +
      (Runs.run gHandleSocket wsContextStart conns).clientClosed =
        (Runs.run gHandleSocket wsContextStart conns).reportedOk ↔ 2 ^ 32 ∣ established conns := by
    rw [h.active, h.clientClosed, h.reportedOk, Nat.dvd_iff_mod_eq_zero]
    omega
  rw [Accounted, hactive, ← and_assoc, and_congr_left_iff]
  intro _
  refine ⟨fun hb => ?_, fun hall => ⟨?_, ?_⟩⟩
  · have hlen := hb.1.length_eq
    rw [h.closed, List.length_map, List.length_map, List.length_filter_eq_length_iff] at hlen
    exact fun c hc => by simpa using hlen c hc
  · rw [h.closed, List.filter_eq_self.mpr fun c hc => by simpa using hall c hc]
  · rw [h.freed hall]

def servedCalls : ConnectionCalls where
  setReuseAddr := 0
  bytes := 3
  buffer0 := 0x16
  buffer1 := 0x03
  buffer2 := 0x01
  setRcvTimeo := 0
  sslNew := true
  sslAccept := 1
  sslRead := 18

/-- After a served connection `activeConnections` stays one. -/
theorem served_not_accounted : ¬ Accounted [(5, servedCalls)] (Runs.run gHandleSocket wsContextStart [(5, servedCalls)]) := by
  intro h
  exact absurd h.2.2 (by decide)

end CWebServer
