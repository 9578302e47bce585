import CWebServer.TlsRecords

/-!
# TLS over a socket

The calls that the server makes on an SSL object, over everything that `recv`
and `send` may do. What a call finds in `recv` is a list of turns; where the
list ends, the call waits. `ssl_data->send` and `ssl_data->recv` are not set:
nothing calls `SSL_set_io`.
-/

namespace CWebServer

def tlsGenericError : Int := -1

def tlsUnexpectedMessage : Int := -6

def tlsMaxtlsAppSize : Nat := 0x4000

/-- What `send` does with the bytes that it is offered: it takes up to `n + 1` of them, returns 0, fails with `EAGAIN` or
`EINTR`, or fails. -/
inductive SendReply
  | takes (n : Nat)
  | zero
  | again
  | fails
  deriving DecidableEq, Repr

/-- The time that `tls_get_write_buffer` reads, and the replies of `send`. Where they end, `send` takes all. -/
structure SendReplies where
  now : Nat := 0
  sends : List SendReply := []
  deriving DecidableEq, Repr

/-- What `recv` returns (nothing where the peer has closed the connection), and the replies to what is sent then. -/
structure SocketTurn where
  read : Option (List UInt8)
  replies : SendReplies := {}
  deriving DecidableEq, Repr

/-- `fd` is the descriptor in `ssl_data`, which `SSL_set_fd` creates. `wire` is what `send` has taken. `dropped` has been
freed without being sent, `delivered` has been given out by `tls_read`. -/
structure TlsSocket (σ : Type) extends TlsContext σ where
  fd : Option Int
  wire : List UInt8
  dropped : List UInt8
  delivered : List UInt8

section
variable {σ : Type} (E : TlsEngine σ)

/-! ## The write buffer -/

def privateTlsWritePacket (k : TlsSocket σ) : Option (List UInt8) → Int × TlsSocket σ
  | none => (-1, k)
  | some buf => (buf.length, { k with tlsBuffer := k.tlsBuffer ++ buf, written := k.written ++ buf })

def tlsGetWriteBuffer (now : Nat) (k : TlsSocket σ) : List UInt8 × TlsSocket σ :=
  if k.sleepUntil ≠ 0 then
    if k.sleepUntil < now then ([], k) else (k.tlsBuffer, { k with sleepUntil := 0 })
  else (k.tlsBuffer, k)

/-- `index` bytes have been sent; `kept` says that the rest is moved to the front of the buffer. -/
structure SendEnd where
  result : Int
  index : Nat
  kept : Bool
  deriving DecidableEq, Repr

def sendLoop : List SendReply → (outBufferLen outBufferIndex : Nat) → (sendRes : Int) → SendEnd
  | [], len, index, sendRes => ⟨sendRes + len, index + len, false⟩
  | reply :: sends, len, index, sendRes =>
    if len = 0 then ⟨sendRes, index, false⟩
    else
      match reply with
      | .takes n => sendLoop sends (len - min (n + 1) len) (index + min (n + 1) len) (sendRes + (min (n + 1) len : Nat))
      | .zero => ⟨0, index, false⟩
      | .again => ⟨-1, index, true⟩
      | .fails => ⟨-1, index, false⟩

/-- What is not kept is freed by `tls_buffer_clear`, also where `tls_get_write_buffer` has given out nothing. -/
def tlsSslPrivateSendPending (r : SendReplies) (k : TlsSocket σ) : Int × TlsSocket σ :=
  match tlsGetWriteBuffer r.now k with
  | (outBuffer, k) =>
    let e := sendLoop r.sends outBuffer.length 0 0
    let k := { k with wire := k.wire ++ outBuffer.take e.index }
    if e.kept then (e.result, { k with tlsBuffer := outBuffer.drop e.index })
    else (e.result, { k with tlsBuffer := [], dropped := k.dropped ++ k.tlsBuffer.drop e.index })

/-! ## Calls on the SSL object -/

/-- The `user_data` of the context is missing, or it holds no descriptor. -/
def TlsSocket.noFd (k : TlsSocket σ) : Bool :=
  match k.fd with
  | none => true
  | some fd => fd < 0

def tlsEstablished (k : TlsSocket σ) : Int :=
  if k.criticalError then -1 else if k.connectionStatus = 0xFF then 1 else 0

def tlsConsume (k : TlsSocket σ) (buf : List UInt8) : Int × TlsSocket σ :=
  match tlsConsumeStream E k.toTlsContext buf with
  | (res, context) => (res, { k with toTlsContext := context })

/-- No result where the call waits in `recv`. -/
def sslAcceptLoop : List SocketTurn → TlsSocket σ → Option Int × TlsSocket σ
  | [], k => (none, k)
  | turn :: turns, k =>
    match turn.read with
    | none | some [] => (some tlsBrokenConnection, k)
    | some clientMessage =>
      match tlsConsume E k clientMessage with
      | (consumed, k) =>
        if 0 ≤ consumed then
          match tlsSslPrivateSendPending turn.replies k with
          | (res, k) =>
            if res < 0 then (some res, k)
            else if tlsEstablished k ≠ 0 then (some 1, k)
            else sslAcceptLoop turns k
        else if tlsEstablished k ≠ 0 then (some 1, k)
        else sslAcceptLoop turns k

/-- The source asks whether `tls_established` is true, which -1 is as well. -/
def sslAccept (turns : List SocketTurn) (k : TlsSocket σ) : Option Int × TlsSocket σ :=
  if k.noFd then (some tlsGenericError, k)
  else if tlsEstablished k ≠ 0 then (some 1, k)
  else sslAcceptLoop E turns k

def tlsWrite (data : List UInt8) (k : TlsSocket σ) : Int × TlsSocket σ :=
  if k.connectionStatus ≠ 0xFF then (tlsUnexpectedMessage, k)
  else
    let data := data.take tlsMaxtlsAppSize
    match E.buildMessage k.engine data with
    | (packet, engine) =>
      match privateTlsWritePacket { k with engine } packet with
      | (actuallyWritten, k) => if actuallyWritten ≤ 0 then (actuallyWritten, k) else (data.length, k)

def sslWrite (buf : List UInt8) (r : SendReplies) (k : TlsSocket σ) : Int × TlsSocket σ :=
  if k.noFd then (tlsGenericError, k)
  else
    match tlsWrite E buf k with
    | (writtenSize, k) =>
      if 0 < writtenSize then
        match tlsSslPrivateSendPending r k with
        | (res, k) => if res ≤ 0 then (res, k) else (writtenSize, k)
      else (writtenSize, k)

def tlsRead (size : Nat) (k : TlsSocket σ) : Int × List UInt8 × TlsSocket σ :=
  let buf := k.applicationBuffer.take size
  (buf.length, buf,
    { k with applicationBuffer := k.applicationBuffer.drop size, delivered := k.delivered ++ buf })

def sslReadLoop (len : Nat) : List SocketTurn → TlsSocket σ → Option Int × List UInt8 × TlsSocket σ
  | [], k => (none, [], k)
  | turn :: turns, k =>
    match turn.read with
    | none => (some (-1), [], k)
    | some [] => (some 0, [], k)
    | some clientMessage =>
      match tlsConsume E k clientMessage with
      | (consumed, k) =>
        let k := if 0 < consumed then (tlsSslPrivateSendPending turn.replies k).2 else k
        if k.applicationBuffer = [] then
          if k.criticalError then (some tlsGenericError, [], k) else sslReadLoop len turns k
        else
          match tlsRead len k with
          | (size, buf, k) => (some size, buf, k)

def sslRead (len : Nat) (turns : List SocketTurn) (k : TlsSocket σ) : Option Int × List UInt8 × TlsSocket σ :=
  if k.applicationBuffer ≠ [] then
    match tlsRead len k with
    | (size, buf, k) => (some size, buf, k)
  else if k.noFd ∨ k.criticalError then (some tlsGenericError, [], k)
  else if tlsEstablished k ≠ 1 then (some tlsGenericError, [], k)
  else sslReadLoop E len turns k

def tlsCloseNotify (k : TlsSocket σ) : TlsSocket σ :=
  if k.criticalError then k
  else
    match E.buildCloseNotify k.engine with
    | (packet, engine) => (privateTlsWritePacket { k with engine, criticalError := true } packet).2

def sslShutdown (k : TlsSocket σ) : TlsSocket σ := if k.noFd then k else tlsCloseNotify E k

/-! ## The calls of the server -/

/-- The source returns whether the size differs. -/
def wsWriteData (clientMessage : List UInt8) (r : SendReplies) (k : TlsSocket σ) : Bool × TlsSocket σ :=
  match sslWrite E clientMessage r k with
  | (size, k) => (size ≠ clientMessage.length, k)

/-- A call on an SSL object, with what the network does meanwhile. -/
inductive SslCall
  | accept (turns : List SocketTurn)
  | read (len : Nat) (turns : List SocketTurn)
  | write (buf : List UInt8) (r : SendReplies)
  | shutdown
  deriving DecidableEq, Repr

def sslStep (k : TlsSocket σ) : SslCall → TlsSocket σ
  | .accept turns => (sslAccept E turns k).2
  | .read len turns => (sslRead E len turns k).2.2
  | .write buf r => (sslWrite E buf r k).2
  | .shutdown => sslShutdown E k

/-- The object of `SSL_new`, before it has a descriptor. -/
def TlsSocket.sslNew (engine : σ) : TlsSocket σ :=
  { engine
    connectionStatus := 0
    criticalError := false
    tlsBuffer := []
    applicationBuffer := []
    sleepUntil := 0
    written := []
    decrypted := []
    messageBuffer := []
    fd := none
    wire := []
    dropped := []
    delivered := [] }

def sslSetFd (k : TlsSocket σ) (socket : Int) : TlsSocket σ := { k with fd := some socket }

def sslStart (engine : σ) (clientSock : Int) : TlsSocket σ := sslSetFd (TlsSocket.sslNew engine) clientSock

end

end CWebServer
