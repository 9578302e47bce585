import CWebServer.Connection
import CWebServer.Respond
import CWebServer.TlsStream

/-!
# A connection over TLS

`g_handleSocket` from `SSL_new` on, over the calls of the TLS library. As
`SSL_accept` never returns 0, a handshake that fails is reported ok, and the
client is sent a text that is not encrypted.
-/

namespace CWebServer

/-- What the network does for one connection. -/
structure HandlerTurns where
  accept : List SocketTurn
  read : List SocketTurn
  forbidden : SendReply
  header : SendReplies
  content : SendReplies

/-- How a handler ends, with the results of its two calls of `ws_writeData`. -/
inductive HandlerEnd
  | waits
  | handshakeFailed
  | forbidden
  | responded (headerFailed contentFailed : Bool)
  deriving DecidableEq, Repr

section
variable {σ : Type} (E : TlsEngine σ)

/-- The call of `send` that goes around the TLS library. -/
def plainSend (text : List UInt8) (reply : SendReply) (k : TlsSocket σ) : TlsSocket σ :=
  match reply with
  | .takes n => { k with wire := k.wire ++ text.take (n + 1) }
  | _ => k

/-- `ws_closeClientConnection` up to `SSL_shutdown`; what is in the buffer then goes with `SSL_free`. -/
def gHandleSocketTls (ndebug : Bool) (stack stack' : Nat → UInt8) (t : HandlerTurns) (k : TlsSocket σ) :
    Option (HandlerEnd × TlsSocket σ) :=
  match sslAccept E t.accept k with
  | (none, k) => some (.waits, k)
  | (some accepted, k) =>
    if accepted = 0 then some (.handshakeFailed, k)
    else
      match sslRead E 0xFFFF t.read k with
      | (none, _, k) => some (.waits, k)
      | (some size, clientMessage, k) =>
        if size ≤ 0 then some (.forbidden, sslShutdown E (plainSend html403Error t.forbidden k))
        else
          match gResponse ndebug stack stack' clientMessage with
          | some [headerText, resposeText] =>
            match wsWriteData E headerText t.header k with
            | (headerFailed, k) =>
              match wsWriteData E resposeText t.content k with
              | (contentFailed, k) => some (.responded headerFailed contentFailed, sslShutdown E k)
          | _ => none

/-! ## The parts of a handler -/

/-- The alert is written into the buffer and not sent. -/
theorem sslShutdown_cases (k : TlsSocket σ) :
    (sslShutdown E k).wire = k.wire ∧ (sslShutdown E k).delivered = k.delivered ∧
      (sslShutdown E k = k ∨ ∃ alert, (E.buildCloseNotify k.engine).1.getD [] = alert ∧
        (sslShutdown E k).tlsBuffer = k.tlsBuffer ++ alert ∧ (sslShutdown E k).written = k.written ++ alert) := by
  unfold sslShutdown tlsCloseNotify
  split
  · exact ⟨rfl, rfl, Or.inl rfl⟩
  · split
    · exact ⟨rfl, rfl, Or.inl rfl⟩
    · rcases hbuild : E.buildCloseNotify k.engine with ⟨packet, engine⟩
      cases packet with
      | none => exact ⟨rfl, rfl, Or.inr ⟨[], rfl, by simp [privateTlsWritePacket], by simp [privateTlsWritePacket]⟩⟩
      | some alert => exact ⟨rfl, rfl, Or.inr ⟨alert, rfl, rfl, rfl⟩⟩

/-- Nothing has been read from the object. -/
structure Unread (k : TlsSocket σ) : Prop extends Ledger k where
  delivered : k.delivered = []

theorem Unread.consume {k : TlsSocket σ} (h : Unread k) (buf : List UInt8) : Unread (tlsConsume E k buf).2 :=
  ⟨h.toLedger.consume E buf, h.delivered⟩

theorem Unread.send {k : TlsSocket σ} (h : Unread k) (r : SendReplies) : Unread (tlsSslPrivateSendPending r k).2 := by
  refine ⟨h.toLedger.send r, ?_⟩
  obtain ⟨index, -, sleepUntil, tlsBuffer, dropped, heq, -, -⟩ := sendPending_eq r k
  rw [heq]
  exact h.delivered

/-- The text that `SSL_read` gives out is all that has been delivered. -/
theorem Unread.sslRead {k : TlsSocket σ} (h : Unread k) (len : Nat) (turns : List SocketTurn) :
    let r := CWebServer.sslRead E len turns k
    Ledger r.2.2 ∧ r.2.2.delivered = r.2.1 ∧ ∀ size ∈ r.1, size ≤ 0 ↔ r.2.1 = [] := by
  obtain ⟨k', hk', heq | ⟨res, hres, heq⟩⟩ :=
    sslRead_cases E (fun _ buf h => h.consume E buf) (fun _ r h => h.send r) h len turns
  · simp only [heq]
    refine ⟨hk'.toLedger.tlsRead len, ?_, ?_⟩
    · show k'.delivered ++ k'.applicationBuffer.take len = k'.applicationBuffer.take len
      rw [hk'.delivered, List.nil_append]
    · intro size hsize
      cases hsize
      show ((k'.applicationBuffer.take len).length : Int) ≤ 0 ↔ k'.applicationBuffer.take len = []
      rw [← List.length_eq_zero_iff]
      omega
  · simp only [heq]
    exact ⟨hk'.toLedger, hk'.delivered, fun size hsize => by simpa using hres size hsize⟩

/-- After two successes the two records are the last of what is on the wire, and nothing waits. -/
theorem writes_succeed {head text : List UInt8} {r r' : SendReplies} {k : TlsSocket σ} (hhead : head ≠ []) (htext : text ≠ [])
    (h : (wsWriteData E head r k).1 = false) (h' : (wsWriteData E text r' (wsWriteData E head r k).2).1 = false) :
    ∃ engine record engine' record' engine'', E.buildMessage engine head = (some record, engine') ∧
      E.buildMessage engine' text = (some record', engine'') ∧
      (wsWriteData E text r' (wsWriteData E head r k).2).2.wire = (k.wire ++ k.tlsBuffer) ++ (record ++ record') ∧
      (wsWriteData E text r' (wsWriteData E head r k).2).2.tlsBuffer = [] ∧
      (wsWriteData E text r' (wsWriteData E head r k).2).2.engine = engine'' := by
  obtain ⟨-, -, -, record, engine', sleepUntil, hbuild, -, heq⟩ := wsWriteData_success E hhead h
  obtain ⟨-, -, -, record', engine'', sleepUntil', hbuild', -, heq'⟩ := wsWriteData_success E htext h'
  rw [heq] at hbuild' heq' ⊢
  exact ⟨k.engine, record, engine', record', engine'', hbuild, hbuild', by rw [heq']; simp, by rw [heq'], by rw [heq']⟩

theorem sslWrite_delivered (buf : List UInt8) (r : SendReplies) (k : TlsSocket σ) :
    (sslWrite E buf r k).2.delivered = k.delivered := by
  have hwrite : (tlsWrite E buf k).2.delivered = k.delivered := by
    have hpacket (packet : Option (List UInt8)) (k : TlsSocket σ) :
        (privateTlsWritePacket k packet).2.delivered = k.delivered := by
      cases packet <;> rfl
    simp only [tlsWrite]
    split
    · rfl
    · split <;> exact hpacket _ _
  simp only [sslWrite]
  split
  · rfl
  · split
    · obtain ⟨index, -, sleepUntil, tlsBuffer, dropped, heq, -, -⟩ := sendPending_eq r (tlsWrite E buf k).2
      split <;> simp only [heq, hwrite]
    · exact hwrite

theorem plainSend_wire (text : List UInt8) (reply : SendReply) (k : TlsSocket σ) :
    ∃ n, plainSend text reply k = { k with wire := k.wire ++ text.take n } := by
  cases reply with
  | takes n => exact ⟨n + 1, rfl⟩
  | _ => exact ⟨0, by simp [plainSend]⟩

theorem forbidden_end {k : TlsSocket σ} (h : Ledger k) (text : List UInt8) (reply : SendReply) :
    ∃ sent n, sent.Sublist (sslShutdown E (plainSend text reply k)).written ∧
      (sslShutdown E (plainSend text reply k)).wire = sent ++ text.take n := by
  obtain ⟨n, hsend⟩ := plainSend_wire text reply k
  have hwire : k.wire.Sublist k.written := (List.sublist_append_left _ _).trans h.sent
  obtain ⟨heq, -, hcases⟩ := sslShutdown_cases E (plainSend text reply k)
  refine ⟨k.wire, n, ?_, by rw [heq, hsend]⟩
  rcases hcases with hk | ⟨alert, -, -, hwritten⟩
  · rw [hk, hsend]
    exact hwire
  · rw [hwritten, hsend]
    exact hwire.trans (List.sublist_append_left _ _)

theorem ledger_writeData {k : TlsSocket σ} (h : Ledger k) (buf : List UInt8) (r : SendReplies) :
    Ledger (wsWriteData E buf r k).2 :=
  h.step E (.write buf r)

theorem okHead_ne_nil (n : Nat) : okHead n ≠ [] := by
  rw [okHead, headStart]
  exact List.append_ne_nil_of_left_ne_nil (by decide) _

theorem bodyText_ne_nil (stack : Nat → UInt8) (path : List UInt8) : bodyText stack path ≠ [] := by
  unfold bodyText
  split
  · decide
  · exact List.append_ne_nil_of_right_ne_nil _ (List.cons_ne_nil _ _)

/-- The alert waits behind nothing, or the connection was broken. -/
theorem shutdown_buffer {k : TlsSocket σ} (h : k.tlsBuffer = []) :
    (sslShutdown E k).tlsBuffer = [] ∨ (E.buildCloseNotify k.engine).1 = some (sslShutdown E k).tlsBuffer := by
  obtain ⟨-, -, hcases⟩ := sslShutdown_cases E k
  rcases hcases with hk | ⟨alert, hbuild, hbuffer, -⟩
  · exact Or.inl (hk.symm ▸ h)
  · rw [hbuffer, h, List.nil_append]
    cases hclose : (E.buildCloseNotify k.engine).1 with
    | none => exact Or.inl (by rw [← hbuild, hclose]; rfl)
    | some packet => exact Or.inr (by rw [← hbuild, hclose]; rfl)

theorem responded_end {k : TlsSocket σ} (h : Ledger k) {head text : List UInt8} (hhead : head ≠ []) (htext : text ≠ [])
    (r r' : SendReplies) :
    let k₁ := (wsWriteData E head r k).2
    let k₂ := sslShutdown E (wsWriteData E text r' k₁).2
    k₂.delivered = k.delivered ∧ (k₂.wire ++ k₂.tlsBuffer).Sublist k₂.written ∧
      ((wsWriteData E head r k).1 = false → (wsWriteData E text r' k₁).1 = false →
        ∃ engine₁ record₁ engine₂ record₂ engine₃ before, E.buildMessage engine₁ head = (some record₁, engine₂) ∧
          E.buildMessage engine₂ text = (some record₂, engine₃) ∧ k₂.wire = before ++ (record₁ ++ record₂) ∧
          (k₂.tlsBuffer = [] ∨ (E.buildCloseNotify engine₃).1 = some k₂.tlsBuffer)) := by
  intro k₁ k₂
  obtain ⟨hwire, hdelivered, -⟩ := sslShutdown_cases E (wsWriteData E text r' k₁).2
  have hclosed := (ledger_writeData E (ledger_writeData E h head r) text r').step E .shutdown
  refine ⟨hdelivered.trans ((sslWrite_delivered E text r' k₁).trans (sslWrite_delivered E head r k)), hclosed.sent, ?_⟩
  intro hheader hcontent
  obtain ⟨engine₁, record₁, engine₂, record₂, engine₃, hbuild₁, hbuild₂, hsent, hbuffer, hengine⟩ :=
    writes_succeed E hhead htext hheader hcontent
  refine ⟨engine₁, record₁, engine₂, record₂, engine₃, _, hbuild₁, hbuild₂, hwire.trans hsent, ?_⟩
  rw [← hengine]
  exact shutdown_buffer E hbuffer

end

/-- How a connection ends that gets a TLS object, whatever the network does. A handshake that fails is never reported. A
client that is refused is sent a part of the plain text, behind some of what the engine has written. Where both writes of
a response succeed, their records are the last bytes on the wire. The alert of `SSL_shutdown` is never sent. -/
theorem handler_ends {σ : Type} (E : TlsEngine σ) (engine : σ) (clientSock : Int) (ndebug : Bool)
    (stack stack' : Nat → UInt8) (t : HandlerTurns) :
    ∃ e k, gHandleSocketTls E ndebug stack stack' t (sslStart engine clientSock) = some (e, k) ∧
      match e with
      | .waits => True
      | .handshakeFailed => False
      | .forbidden => k.delivered = [] ∧ ∃ sent n, sent.Sublist k.written ∧ k.wire = sent ++ html403Error.take n
      | .responded headerFailed contentFailed =>
        let body := bodyText stack ((httpHeaderInit k.delivered).path.bytes k.delivered)
        k.delivered ≠ [] ∧ (k.wire ++ k.tlsBuffer).Sublist k.written ∧
          (headerFailed = false → contentFailed = false →
            ∃ engine₁ record₁ engine₂ record₂ engine₃ before,
              E.buildMessage engine₁ (okHead body.length) = (some record₁, engine₂) ∧
              E.buildMessage engine₂ body = (some record₂, engine₃) ∧ k.wire = before ++ (record₁ ++ record₂) ∧
              (k.tlsBuffer = [] ∨ (E.buildCloseNotify engine₃).1 = some k.tlsBuffer)) := by
  have hstart : Unread (sslStart engine clientSock) := ⟨Ledger.start engine clientSock, rfl⟩
  obtain ⟨haccept, hne⟩ :=
    sslAccept_cases E (fun _ buf h => h.consume E buf) (fun _ r h => h.send r) hstart t.accept
  unfold gHandleSocketTls
  generalize sslAccept E t.accept (sslStart engine clientSock) = a at haccept hne ⊢
  rcases a with ⟨_ | accepted, k⟩
  · exact ⟨_, _, rfl, trivial⟩
  · have haccepted : accepted ≠ 0 := fun h => hne (congrArg some h)
    obtain ⟨hledger, hdelivered, hsize⟩ := haccept.sslRead E 0xFFFF t.read
    dsimp only
    rw [if_neg haccepted]
    generalize sslRead E 0xFFFF t.read k = r at hledger hdelivered hsize ⊢
    rcases r with ⟨_ | size, clientMessage, k⟩
    · exact ⟨_, _, rfl, trivial⟩
    · dsimp only at hledger hdelivered hsize ⊢
      have hsize := hsize size rfl
      split
      · rename_i hle
        refine ⟨_, _, rfl, ?_, forbidden_end E hledger html403Error t.forbidden⟩
        obtain ⟨n, hsend⟩ := plainSend_wire html403Error t.forbidden k
        rw [(sslShutdown_cases E _).2.1, hsend, ← hsize.mp hle]
        exact hdelivered
      · rename_i hlt
        rw [gResponse_eq ndebug stack stack' clientMessage]
        refine ⟨_, _, rfl, ?_⟩
        obtain ⟨hmessage, hsent, hsucceed⟩ :=
          responded_end E hledger (okHead_ne_nil _) (bodyText_ne_nil stack _) t.header t.content
        rw [hmessage, hdelivered]
        exact ⟨fun h => hlt (hsize.mpr h), hsent, hsucceed⟩

end CWebServer
