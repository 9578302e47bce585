import CWebServer.Lib.Runs
import CWebServer.TlsSocket

/-!
# What goes over the socket

Over all calls on an SSL object, what has been sent and what is waiting are
what has been written, up to what has been freed unsent. What has been read
and what is waiting are what has been decrypted.
-/

namespace CWebServer

open Runs (run)

section
variable {σ : Type} (E : TlsEngine σ)

/-! ## Records -/

/-- `s'` is `s` with more in both buffers. -/
def Grows (s s' : TlsSession σ) : Prop :=
  ∃ packets appData, s'.tlsBuffer = s.tlsBuffer ++ packets ∧ s'.written = s.written ++ packets ∧
    s'.applicationBuffer = s.applicationBuffer ++ appData ∧ s'.decrypted = s.decrypted ++ appData

theorem Grows.refl (s : TlsSession σ) : Grows s s := ⟨[], [], by simp⟩

theorem Grows.trans {s₁ s₂ s₃ : TlsSession σ} (h : Grows s₁ s₂) (h' : Grows s₂ s₃) : Grows s₁ s₃ := by
  obtain ⟨p, a, h₁, h₂, h₃, h₄⟩ := h
  obtain ⟨p', a', h₁', h₂', h₃', h₄'⟩ := h'
  exact ⟨p ++ p', a ++ a', by simp [h₁', h₁], by simp [h₂', h₂], by simp [h₃', h₃], by simp [h₄', h₄]⟩

theorem grows_parsed (s : TlsSession σ) (p : Parsed σ) : Grows s (s.parsed p) := ⟨p.packets, p.appData, rfl, rfl, rfl, rfl⟩

theorem grows_consumeLoop (messageBuffer : List UInt8) (index len : Nat) (s : TlsSession σ) :
    Grows s (consumeLoop E messageBuffer index len s).2.2 := by
  fun_induction consumeLoop E messageBuffer index len s with
  | case1 index len s _ length _ => exact Grows.refl s
  | case2 index len s _ length _ p _ => exact grows_parsed s p
  | case3 index len s _ length _ p _ _ => exact grows_parsed s p
  | case4 index len s _ length _ p _ _ ih => exact (grows_parsed s p).trans ih
  | case5 index len s _ => exact Grows.refl s

theorem grows_consume (k : TlsSocket σ) (buf : List UInt8) :
    Grows k.toTlsSession (tlsConsume E k buf).2.toTlsSession := by
  simp only [tlsConsume, tlsConsumeStream]
  split
  · exact Grows.refl _
  · split
    · exact Grows.refl _
    · have h := grows_consumeLoop E (k.messageBuffer ++ buf) 0 (k.messageBuffer ++ buf).length k.toTlsSession
      revert h
      cases consumeLoop E (k.messageBuffer ++ buf) 0 (k.messageBuffer ++ buf).length k.toTlsSession with
      | mk index r =>
        intro h
        dsimp only
        split <;> exact h

/-! ## Sends -/

/-- Either all is sent, or the loop stops in front of the end with no success. -/
theorem sendLoop_cases (sends : List SendReply) (len index : Nat) {sendRes : Int} (h : 0 ≤ sendRes) :
    sendLoop sends len index sendRes = ⟨sendRes + len, index + len, false⟩ ∨
      (sendLoop sends len index sendRes).index < index + len ∧ (sendLoop sends len index sendRes).result ≤ 0 := by
  induction sends generalizing len index sendRes with
  | nil => exact Or.inl rfl
  | cons reply sends ih =>
    unfold sendLoop
    by_cases hlen : len = 0
    · exact Or.inl (by simp [hlen])
    · rw [if_neg hlen]
      have hbehind : index < index + len := Nat.lt_add_of_pos_right (Nat.pos_of_ne_zero hlen)
      cases reply with
      | takes n =>
        obtain ⟨taken, hle, htaken⟩ : ∃ taken ≤ len, min (n + 1) len = taken := ⟨_, Nat.min_le_right _ _, rfl⟩
        simp only [htaken]
        have hres : 0 ≤ sendRes + (taken : Int) := by omega
        rcases ih (len - taken) (index + taken) hres with heq | hlt
        · left
          rw [heq, SendEnd.mk.injEq]
          exact ⟨by omega, by omega, rfl⟩
        · right
          exact ⟨by omega, hlt.2⟩
      | zero => exact Or.inr ⟨hbehind, Int.le_refl _⟩
      | again => exact Or.inr ⟨hbehind, Int.le_of_lt (Int.negSucc_lt_zero 0)⟩
      | fails => exact Or.inr ⟨hbehind, Int.le_of_lt (Int.negSucc_lt_zero 0)⟩

theorem tlsGetWriteBuffer_cases (now : Nat) (k : TlsSocket σ) :
    tlsGetWriteBuffer now k = ([], k) ∨
      ∃ sleepUntil, tlsGetWriteBuffer now k = (k.tlsBuffer, { k with sleepUntil }) := by
  unfold tlsGetWriteBuffer
  split
  · split
    · exact Or.inl rfl
    · exact Or.inr ⟨0, rfl⟩
  · exact Or.inr ⟨k.sleepUntil, rfl⟩

/-- A part of the write buffer is sent, and the rest is kept or dropped. -/
theorem sendPending_eq (r : SendReplies) (k : TlsSocket σ) :
    ∃ index ≤ k.tlsBuffer.length, ∃ sleepUntil tlsBuffer dropped,
      (tlsSslPrivateSendPending r k).2 =
        { k with sleepUntil, tlsBuffer, dropped, wire := k.wire ++ k.tlsBuffer.take index } ∧
      (tlsBuffer = k.tlsBuffer.drop index ∧ dropped = k.dropped ∨
        tlsBuffer = [] ∧ dropped = k.dropped ++ k.tlsBuffer.drop index) ∧
      (0 < (tlsSslPrivateSendPending r k).1 ↔ k.tlsBuffer ≠ [] ∧ index = k.tlsBuffer.length) := by
  rw [tlsSslPrivateSendPending]
  rcases tlsGetWriteBuffer_cases r.now k with hasleep | ⟨sleepUntil, hawake⟩
  · have hend : sendLoop r.sends 0 0 0 = ⟨0, 0, false⟩ := by
      rcases sendLoop_cases r.sends 0 0 (Int.le_refl 0) with h | h
      · exact h
      · exact absurd h.1 (Nat.not_lt_zero _)
    simp only [hasleep, List.length_nil, hend, List.take_nil, List.drop_zero, Bool.false_eq_true, if_false]
    refine ⟨0, Nat.zero_le _, k.sleepUntil, [], _, rfl, Or.inr ⟨rfl, rfl⟩, ?_⟩
    simp only [Int.lt_irrefl, false_iff]
    rintro ⟨hne, hlen⟩
    exact hne (List.length_eq_zero_iff.mp hlen.symm)
  · simp only [hawake]
    have hcases := sendLoop_cases r.sends k.tlsBuffer.length 0 (Int.le_refl 0)
    refine ⟨(sendLoop r.sends k.tlsBuffer.length 0 0).index, by
      rcases hcases with h | h
      · rw [h]
        exact Nat.le_of_eq (Nat.zero_add _)
      · omega, sleepUntil, ?_⟩
    have hpos : 0 < (sendLoop r.sends k.tlsBuffer.length 0 0).result ↔
        k.tlsBuffer ≠ [] ∧ (sendLoop r.sends k.tlsBuffer.length 0 0).index = k.tlsBuffer.length := by
      rw [← List.length_pos_iff]
      rcases hcases with h | h
      · rw [h]
        simp
      · constructor <;> intro _ <;> omega
    split
    · exact ⟨_, _, rfl, Or.inl ⟨rfl, rfl⟩, hpos⟩
    · exact ⟨_, _, rfl, Or.inr ⟨rfl, rfl⟩, hpos⟩

/-! ## Calls -/

section
variable {P : TlsSocket σ → Prop} (hconsume : ∀ k buf, P k → P (tlsConsume E k buf).2)
  (hsend : ∀ k r, P k → P (tlsSslPrivateSendPending r k).2)
include hconsume hsend

theorem sslAcceptLoop_cases {k : TlsSocket σ} (h : P k) (turns : List SocketTurn) :
    P (sslAcceptLoop E turns k).2 ∧ (sslAcceptLoop E turns k).1 ≠ some 0 := by
  induction turns generalizing k with
  | nil => exact ⟨h, by simp [sslAcceptLoop]⟩
  | cons turn turns ih =>
    rw [sslAcceptLoop]
    split
    · exact ⟨h, by simp [tlsBrokenConnection]⟩
    · exact ⟨h, by simp [tlsBrokenConnection]⟩
    · rename_i clientMessage _ _
      have hk := hconsume k clientMessage h
      have hk' := hsend _ turn.replies hk
      dsimp only
      split
      · split
        · rename_i hres
          exact ⟨hk', by simp; omega⟩
        · split
          · exact ⟨hk', by simp⟩
          · exact ih hk'
      · split
        · exact ⟨hk, by simp⟩
        · exact ih hk

/-- `SSL_accept` never returns 0. -/
theorem sslAccept_cases {k : TlsSocket σ} (h : P k) (turns : List SocketTurn) :
    P (sslAccept E turns k).2 ∧ (sslAccept E turns k).1 ≠ some 0 := by
  unfold sslAccept
  split
  · exact ⟨h, by simp [tlsGenericError]⟩
  · split
    · exact ⟨h, by simp⟩
    · exact sslAcceptLoop_cases E hconsume hsend h turns

/-- The call gives out what has been decrypted, or it has no success. -/
def ReadEnds (P : TlsSocket σ → Prop) (len : Nat) (r : Option Int × List UInt8 × TlsSocket σ) : Prop :=
  ∃ k, P k ∧ (r = (some (tlsRead len k).1, (tlsRead len k).2) ∨ ∃ res, (∀ n ∈ res, n ≤ 0) ∧ r = (res, [], k))

theorem sslReadLoop_cases {k : TlsSocket σ} (h : P k) (len : Nat) (turns : List SocketTurn) :
    ReadEnds P len (sslReadLoop E len turns k) := by
  induction turns generalizing k with
  | nil => exact ⟨k, h, Or.inr ⟨none, by simp, rfl⟩⟩
  | cons turn turns ih =>
    rw [sslReadLoop]
    split
    · exact ⟨k, h, Or.inr ⟨some (-1), by simp, rfl⟩⟩
    · exact ⟨k, h, Or.inr ⟨some 0, by simp, rfl⟩⟩
    · rename_i clientMessage _ _
      have hk := hconsume k clientMessage h
      dsimp only
      generalize hk₁ : (if 0 < (tlsConsume E k clientMessage).1 then
        (tlsSslPrivateSendPending turn.replies (tlsConsume E k clientMessage).2).2
        else (tlsConsume E k clientMessage).2) = k₁
      have hp : P k₁ := by
        rw [← hk₁]
        split
        · exact hsend _ _ hk
        · exact hk
      split
      · split
        · exact ⟨k₁, hp, Or.inr ⟨some tlsGenericError, by simp [tlsGenericError], rfl⟩⟩
        · exact ih hp
      · exact ⟨k₁, hp, Or.inl rfl⟩

theorem sslRead_cases {k : TlsSocket σ} (h : P k) (len : Nat) (turns : List SocketTurn) :
    ReadEnds P len (sslRead E len turns k) := by
  unfold sslRead
  split
  · exact ⟨k, h, Or.inl rfl⟩
  · split
    · exact ⟨k, h, Or.inr ⟨some tlsGenericError, by simp [tlsGenericError], rfl⟩⟩
    · split
      · exact ⟨k, h, Or.inr ⟨some tlsGenericError, by simp [tlsGenericError], rfl⟩⟩
      · exact sslReadLoop_cases E hconsume hsend h len turns

end

/-! ## The ledger -/

structure Ledger (k : TlsSocket σ) : Prop where
  sent : (k.wire ++ k.tlsBuffer).Sublist k.written
  count : k.wire.length + k.tlsBuffer.length + k.dropped.length = k.written.length
  read : k.delivered ++ k.applicationBuffer = k.decrypted

theorem Ledger.start (engine : σ) (clientSock : Int) : Ledger (sslStart engine clientSock) := ⟨List.Sublist.refl _, rfl, rfl⟩

/-- Only a dropped byte is missing between what is sent and what waits. -/
theorem Ledger.dropped_iff {k : TlsSocket σ} (h : Ledger k) : k.dropped = [] ↔ k.wire ++ k.tlsBuffer = k.written := by
  have hcount := h.count
  refine ⟨fun hd => h.sent.eq_of_length ?_, fun heq => List.length_eq_zero_iff.mp ?_⟩
  · rw [hd, List.length_nil] at hcount
    rw [List.length_append]
    omega
  · have := congrArg List.length heq
    rw [List.length_append] at this
    omega

theorem Ledger.grow {k k' : TlsSocket σ} (h : Ledger k) (hadds : Grows k.toTlsSession k'.toTlsSession)
    (hwire : k'.wire = k.wire) (hdropped : k'.dropped = k.dropped) (hdelivered : k'.delivered = k.delivered) :
    Ledger k' := by
  obtain ⟨packets, appData, hbuf, hwritten, happ, hdec⟩ := hadds
  constructor
  · rw [hwire, hbuf, hwritten, ← List.append_assoc]
    exact h.sent.append (List.Sublist.refl packets)
  · have := h.count
    rw [hwire, hbuf, hwritten, hdropped, List.length_append, List.length_append]
    omega
  · rw [hdelivered, happ, hdec, ← List.append_assoc, h.read]

theorem Ledger.consume {k : TlsSocket σ} (h : Ledger k) (buf : List UInt8) : Ledger (tlsConsume E k buf).2 :=
  h.grow (grows_consume E k buf) rfl rfl rfl

theorem Ledger.send {k : TlsSocket σ} (h : Ledger k) (r : SendReplies) : Ledger (tlsSslPrivateSendPending r k).2 := by
  obtain ⟨index, hle, sleepUntil, tlsBuffer, dropped, heq, hrest, -⟩ := sendPending_eq r k
  have hsent := h.sent
  have hcount := h.count
  have hparts : k.tlsBuffer.take index ++ k.tlsBuffer.drop index = k.tlsBuffer := List.take_append_drop _ _
  have hlength := congrArg List.length hparts
  rw [List.length_append] at hlength
  rw [heq]
  rcases hrest with ⟨rfl, rfl⟩ | ⟨rfl, rfl⟩
  · refine ⟨?_, ?_, h.read⟩
    · show ((k.wire ++ k.tlsBuffer.take index) ++ k.tlsBuffer.drop index).Sublist k.written
      rwa [List.append_assoc, hparts]
    · show (k.wire ++ k.tlsBuffer.take index).length + (k.tlsBuffer.drop index).length + k.dropped.length =
        k.written.length
      rw [List.length_append]
      omega
  · refine ⟨?_, ?_, h.read⟩
    · show ((k.wire ++ k.tlsBuffer.take index) ++ []).Sublist k.written
      rw [List.append_nil]
      exact ((List.Sublist.refl k.wire).append (List.take_sublist _ _)).trans hsent
    · show (k.wire ++ k.tlsBuffer.take index).length + 0 + (k.dropped ++ k.tlsBuffer.drop index).length = k.written.length
      rw [List.length_append, List.length_append]
      omega

theorem grows_writePacket (k : TlsSocket σ) (packet : Option (List UInt8)) :
    Grows k.toTlsSession (privateTlsWritePacket k packet).2.toTlsSession := by
  cases packet with
  | none => exact Grows.refl _
  | some buf => exact ⟨buf, [], rfl, rfl, by simp [privateTlsWritePacket], by simp [privateTlsWritePacket]⟩

theorem Ledger.writePacket {k : TlsSocket σ} (h : Ledger k) (packet : Option (List UInt8)) :
    Ledger (privateTlsWritePacket k packet).2 := by
  cases packet <;> exact h.grow (grows_writePacket k _) rfl rfl rfl

theorem Ledger.tlsRead {k : TlsSocket σ} (h : Ledger k) (size : Nat) : Ledger (CWebServer.tlsRead size k).2.2 := by
  refine ⟨h.sent, h.count, ?_⟩
  show (k.delivered ++ k.applicationBuffer.take size) ++ k.applicationBuffer.drop size = k.decrypted
  rw [List.append_assoc, List.take_append_drop, h.read]

theorem Ledger.tlsWrite {k : TlsSocket σ} (h : Ledger k) (data : List UInt8) : Ledger (CWebServer.tlsWrite E data k).2 := by
  unfold CWebServer.tlsWrite
  split
  · exact h
  · have hbuilt : Ledger { k with engine := (E.buildMessage k.engine (data.take tlsMaxtlsAppSize)).2 } :=
      ⟨h.sent, h.count, h.read⟩
    have := hbuilt.writePacket (E.buildMessage k.engine (data.take tlsMaxtlsAppSize)).1
    dsimp only
    split <;> exact this

theorem Ledger.step {k : TlsSocket σ} (h : Ledger k) (call : SslCall) : Ledger (sslStep E k call) := by
  cases call with
  | accept turns => exact (sslAccept_cases E (fun _ buf h => h.consume E buf) (fun _ r h => h.send r) h turns).1
  | read len turns =>
    obtain ⟨k', hk', heq | ⟨res, -, heq⟩⟩ :=
      sslRead_cases E (fun _ buf h => h.consume E buf) (fun _ r h => h.send r) h len turns
    · rw [sslStep, heq]
      exact hk'.tlsRead len
    · rw [sslStep, heq]
      exact hk'
  | write buf r =>
    simp only [sslStep, sslWrite]
    have hwrite := h.tlsWrite E buf
    split
    · exact h
    · split
      · have := hwrite.send r
        split <;> exact this
      · exact hwrite
  | shutdown =>
    simp only [sslStep, sslShutdown, tlsCloseNotify]
    split
    · exact h
    · split
      · exact h
      · have hbuilt : Ledger { k with engine := (E.buildCloseNotify k.engine).2, criticalError := true } :=
          ⟨h.sent, h.count, h.read⟩
        exact hbuilt.writePacket _

end

/-- Whatever the engine writes goes over the wire in its order, waits in the buffer or is freed unsent, by a send that
failed or in the sleep of a broken connection, and `SSL_read` gives out what the engine decrypts, in its order. -/
theorem tls_stream {σ : Type} (E : TlsEngine σ) (engine : σ) (clientSock : Int) (calls : List SslCall) :
    let k := run (sslStep E) (sslStart engine clientSock) calls
    (k.wire ++ k.tlsBuffer).Sublist k.written ∧ (k.dropped = [] ↔ k.wire ++ k.tlsBuffer = k.written) ∧
      k.delivered ++ k.applicationBuffer = k.decrypted := by
  have h : Ledger (run (sslStep E) (sslStart engine clientSock) calls) :=
    Runs.run_invariant (fun _ call h => h.step E call) (Ledger.start engine clientSock) calls
  exact ⟨h.sent, h.dropped_iff, h.read⟩

/-! ## Writes -/

section
variable {σ : Type} (E : TlsEngine σ)

/-- The record of the data is put behind what is waiting. -/
def TlsSocket.withRecord (k : TlsSocket σ) (engine : σ) (packet : List UInt8) : TlsSocket σ :=
  { k with engine, tlsBuffer := k.tlsBuffer ++ packet, written := k.written ++ packet }

theorem tlsWrite_record {data packet : List UInt8} {k : TlsSocket σ} {engine : σ} (hstatus : k.connectionStatus = 0xFF)
    (hbuild : E.buildMessage k.engine (data.take tlsMaxtlsAppSize) = (some packet, engine)) (hp : packet ≠ []) :
    tlsWrite E data k = (((data.take tlsMaxtlsAppSize).length : Int), k.withRecord engine packet) := by
  have hlength : ¬ (packet.length : Int) ≤ 0 := by
    have := List.length_pos_iff.mpr hp
    omega
  simp only [tlsWrite, hstatus, ne_eq, not_true_eq_false, if_false, hbuild, privateTlsWritePacket, if_neg hlength,
    TlsSocket.withRecord]

theorem tlsWrite_cases (data : List UInt8) (k : TlsSocket σ) :
    (tlsWrite E data k).1 ≤ 0 ∨ k.connectionStatus = 0xFF ∧
      ∃ packet engine, E.buildMessage k.engine (data.take tlsMaxtlsAppSize) = (some packet, engine) ∧ packet ≠ [] := by
  by_cases hstatus : k.connectionStatus = 0xFF
  · rcases hbuild : E.buildMessage k.engine (data.take tlsMaxtlsAppSize) with ⟨packet, engine⟩
    cases packet with
    | none =>
      left
      simp [tlsWrite, hstatus, hbuild, privateTlsWritePacket]
    | some packet =>
      by_cases hp : packet = []
      · left
        simp [tlsWrite, hstatus, hbuild, privateTlsWritePacket, hp]
      · exact Or.inr ⟨hstatus, packet, engine, rfl, hp⟩
  · left
    simp [tlsWrite, hstatus, tlsUnexpectedMessage]

/-- A positive result: one record has been written, and it is sent with all that was waiting. -/
theorem sslWrite_pos {buf : List UInt8} {r : SendReplies} {k : TlsSocket σ} (h : 0 < (sslWrite E buf r k).1) :
    k.noFd = false ∧ k.connectionStatus = 0xFF ∧
      ∃ packet engine sleepUntil, E.buildMessage k.engine (buf.take tlsMaxtlsAppSize) = (some packet, engine) ∧ packet ≠ [] ∧
        sslWrite E buf r k = (((buf.take tlsMaxtlsAppSize).length : Int),
          { k with
            engine
            sleepUntil
            tlsBuffer := []
            wire := k.wire ++ (k.tlsBuffer ++ packet)
            written := k.written ++ packet }) := by
  unfold sslWrite at h ⊢
  split at h
  · cases h
  · rename_i hfd
    rw [if_neg hfd]
    refine ⟨Bool.eq_false_iff.mpr hfd, ?_⟩
    rcases tlsWrite_cases E buf k with hle | ⟨hstatus, packet, engine, hbuild, hp⟩
    · dsimp only at h
      rw [if_neg (Int.not_lt.mpr hle)] at h
      exact absurd h (Int.not_lt.mpr hle)
    · refine ⟨hstatus, packet, engine, ?_⟩
      rw [tlsWrite_record E hstatus hbuild hp] at h ⊢
      dsimp only at h ⊢
      split at h
      · rename_i hlength
        rw [if_pos hlength]
        obtain ⟨index, -, sleepUntil, tlsBuffer, dropped, hsend, hrest, hpos⟩ :=
          sendPending_eq r (k.withRecord engine packet)
        split at h
        · rename_i hres
          exact absurd h (Int.not_lt.mpr hres)
        · rename_i hres
          rw [if_neg hres]
          obtain ⟨-, rfl⟩ := hpos.mp (Int.not_le.mp hres)
          have hdrop : tlsBuffer = [] ∧ dropped = k.dropped := by
            rcases hrest with ⟨rfl, rfl⟩ | ⟨rfl, rfl⟩ <;> simp [TlsSocket.withRecord]
          refine ⟨sleepUntil, hbuild, hp, ?_⟩
          rw [hsend, hdrop.1, hdrop.2, List.take_length]
          rfl
      · rename_i hlength
        exact absurd h hlength

theorem wsWriteData_success {buf : List UInt8} (hbuf : buf ≠ []) {r : SendReplies} {k : TlsSocket σ}
    (h : (wsWriteData E buf r k).1 = false) :
    k.noFd = false ∧ k.connectionStatus = 0xFF ∧ buf.length ≤ tlsMaxtlsAppSize ∧
      ∃ packet engine sleepUntil, E.buildMessage k.engine buf = (some packet, engine) ∧ packet ≠ [] ∧
        (wsWriteData E buf r k).2 =
          { k with
            engine
            sleepUntil
            tlsBuffer := []
            wire := k.wire ++ (k.tlsBuffer ++ packet)
            written := k.written ++ packet } := by
  have hlength : 0 < buf.length := List.length_pos_iff.mpr hbuf
  simp only [wsWriteData, decide_eq_false_iff_not, ne_eq, Decidable.not_not] at h
  obtain ⟨hfd, hstatus, packet, engine, sleepUntil, hbuild, hp, heq⟩ := sslWrite_pos E (h ▸ Int.natCast_pos.mpr hlength)
  rw [heq, Int.natCast_inj, List.length_take] at h
  have hle : buf.length ≤ tlsMaxtlsAppSize := by omega
  rw [List.take_of_length_le hle] at hbuild
  exact ⟨hfd, hstatus, hle, packet, engine, sleepUntil, hbuild, hp, by rw [wsWriteData, heq]⟩

end

/-- `ws_writeData` reports success for a text exactly where the text fits into one record, the connection is established,
and the record is sent with everything that was waiting. -/
theorem wsWriteData_succeeds_iff {σ : Type} (E : TlsEngine σ) {buf : List UInt8} (hbuf : buf ≠ []) (r : SendReplies)
    (k : TlsSocket σ) :
    (wsWriteData E buf r k).1 = false ↔
      k.noFd = false ∧ k.connectionStatus = 0xFF ∧ buf.length ≤ tlsMaxtlsAppSize ∧
        ∃ packet, (E.buildMessage k.engine buf).1 = some packet ∧ packet ≠ [] ∧
          (wsWriteData E buf r k).2.wire = k.wire ++ (k.tlsBuffer ++ packet) := by
  constructor
  · intro h
    obtain ⟨hfd, hstatus, hle, packet, engine, sleepUntil, hbuild, hp, heq⟩ := wsWriteData_success E hbuf h
    exact ⟨hfd, hstatus, hle, packet, by rw [hbuild], hp, by rw [heq]⟩
  · rintro ⟨hfd, hstatus, hle, packet, hbuild, hp, hwire⟩
    have hlength : 0 < buf.length := List.length_pos_iff.mpr hbuf
    have hwrite : tlsWrite E buf k = ((buf.length : Int), k.withRecord (E.buildMessage k.engine buf).2 packet) := by
      have htake := List.take_of_length_le hle
      rw [tlsWrite_record E hstatus (by rw [htake, ← hbuild]) hp, htake]
    obtain ⟨index, hindex, sleepUntil, tlsBuffer, dropped, hsend, -, hpos⟩ :=
      sendPending_eq r (k.withRecord (E.buildMessage k.engine buf).2 packet)
    have hsent : (sslWrite E buf r k).2.wire = k.wire ++ (k.tlsBuffer ++ packet).take index := by
      simp only [sslWrite, hfd, Bool.false_eq_true, if_false, hwrite, if_pos (Int.natCast_pos.mpr hlength)]
      split <;> rw [hsend] <;> rfl
    have hall : index = (k.tlsBuffer ++ packet).length := by
      have hlist := congrArg List.length (List.append_cancel_left (hsent.symm.trans hwire))
      rw [List.length_take] at hlist
      have hindex : index ≤ (k.tlsBuffer ++ packet).length := hindex
      omega
    have hres := hpos.mpr ⟨List.append_ne_nil_of_right_ne_nil _ hp, hall⟩
    simp [wsWriteData, sslWrite, hfd, hwrite, hlength, Int.not_le.mpr hres]

theorem wsWriteData_succeeds_iff_short :
    let k : TlsSocket (List (List UInt8)) := { sslStart [] 4 with connectionStatus := 0xFF, tlsBuffer := [1, 2] }
    let r : SendReplies := ⟨0, [.takes 2, .takes 0]⟩
    (wsWriteData recordLog [71, 69] r k).1 = false ↔
      k.noFd = false ∧ k.connectionStatus = 0xFF ∧ [71, 69].length ≤ tlsMaxtlsAppSize ∧
        ∃ packet, (recordLog.buildMessage k.engine [71, 69]).1 = some packet ∧ packet ≠ [] ∧
          (wsWriteData recordLog [71, 69] r k).2.wire = k.wire ++ (k.tlsBuffer ++ packet) :=
  wsWriteData_succeeds_iff recordLog (List.cons_ne_nil _ _) _ _

end CWebServer
