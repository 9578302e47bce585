import CWebServer.Lib.Framing
import Mathlib.Algebra.Group.Nat.Defs

/-!
# The TLS records of a connection

`tls_consume_stream` puts what `recv` returned behind what is left of the last
call and hands every whole record to `tls_parse_message`. The cryptography and
the handshake are a parameter of the model (`TlsEngine`). The datagram mode and
an exhausted heap are left out.
-/

namespace CWebServer

/-- What `tls_parse_message` does with a record: its result, the state of the engine and of the connection behind it,
whether it sets `critical_error`, what it writes with `_private_tls_write_packet` and `_private_tls_write_app_data`, and
the `sleep_until` that it sets. -/
structure Parsed (σ : Type) where
  consumed : Int
  engine : σ
  connectionStatus : UInt8
  criticalError : Bool := false
  packets : List UInt8 := []
  appData : List UInt8 := []
  sleepUntil : Option Nat := none

/-- `tls_parse_message`, `tls_build_message` and `tls_build_alert(context, 0, close_notify)`. The builders return no
packet where the source's return `NULL`. -/
structure TlsEngine (σ : Type) where
  parseMessage : σ → UInt8 → List UInt8 → Parsed σ
  buildMessage : σ → List UInt8 → Option (List UInt8) × σ
  buildCloseNotify : σ → Option (List UInt8) × σ

/-- `tlsBuffer` and `applicationBuffer` are what is waiting to be sent and to be read, `written` and `decrypted` all
that has been put into them so far. -/
structure TlsSession (σ : Type) where
  engine : σ
  connectionStatus : UInt8
  criticalError : Bool
  tlsBuffer : List UInt8
  applicationBuffer : List UInt8
  sleepUntil : Nat
  written : List UInt8
  decrypted : List UInt8

structure TlsContext (σ : Type) extends TlsSession σ where
  messageBuffer : List UInt8

def tlsBrokenConnection : Int := -13

section
variable {σ : Type} (E : TlsEngine σ)

def TlsSession.parsed (s : TlsSession σ) (p : Parsed σ) : TlsSession σ :=
  { engine := p.engine
    connectionStatus := p.connectionStatus
    criticalError := s.criticalError || p.criticalError
    tlsBuffer := s.tlsBuffer ++ p.packets
    applicationBuffer := s.applicationBuffer ++ p.appData
    sleepUntil := p.sleepUntil.getD s.sleepUntil
    written := s.written ++ p.packets
    decrypted := s.decrypted ++ p.appData }

def TlsSession.broken (s : TlsSession σ) : TlsSession σ := { s with criticalError := true }

def ntohs (high low : UInt8) : Nat := high.toNat * 256 + low.toNat

/-- The loop of `tls_consume_stream`: the index behind the last record, `err_flag`, and the session. -/
def consumeLoop (messageBuffer : List UInt8) (index tlsBufferLen : Nat) (s : TlsSession σ) : Nat × Int × TlsSession σ :=
  if 5 ≤ tlsBufferLen then
    let length := ntohs (messageBuffer.getD (index + 3) 0) (messageBuffer.getD (index + 4) 0) + 5
    if tlsBufferLen < length then (index, 0, s)
    else
      let p := E.parseMessage s.engine s.connectionStatus ((messageBuffer.drop index).take length)
      if p.consumed < 0 then (index, p.consumed, (s.parsed p).broken)
      else if (s.parsed p).criticalError then (index + length, tlsBrokenConnection, s.parsed p)
      else consumeLoop messageBuffer (index + length) (tlsBufferLen - length) (s.parsed p)
  else (index, 0, s)
termination_by tlsBufferLen
decreasing_by omega

def tlsConsumeStream (context : TlsContext σ) (buf : List UInt8) : Int × TlsContext σ :=
  if context.criticalError then (tlsBrokenConnection, context)
  else if buf = [] then (0, context)
  else
    let messageBuffer := context.messageBuffer ++ buf
    match consumeLoop E messageBuffer 0 messageBuffer.length context.toTlsSession with
    | (index, errFlag, s) =>
      if errFlag ≠ 0 then (errFlag, { s with messageBuffer := [] })
      else (index, { s with messageBuffer := messageBuffer.drop index })

/-! ## Records -/

/-- The header of a record: the last two of its five bytes are the length of what follows. -/
def tlsHeader : Framing.Header UInt8 where
  length := 5
  length_pos := by decide
  body xs := ntohs (xs.getD 3 0) (xs.getD 4 0)

/-- The session behind one record, an error where the connection breaks with it. -/
def handleRecord (s : TlsSession σ) (record : List UInt8) : Except (TlsSession σ) (TlsSession σ) :=
  let p := E.parseMessage s.engine s.connectionStatus record
  if p.consumed < 0 then .error (s.parsed p).broken
  else if (s.parsed p).criticalError then .error (s.parsed p)
  else .ok (s.parsed p)

theorem ntohs_lt (high low : UInt8) : ntohs high low < 2 ^ 16 := by
  have := high.toNat_lt
  have := low.toNat_lt
  unfold ntohs
  omega

theorem getD_drop {xs : List UInt8} (index k : Nat) : (xs.drop index).getD k 0 = xs.getD (index + k) 0 := by
  simp [List.getD_eq_getElem?_getD]

theorem getD_take {xs : List UInt8} {n k : Nat} (h : k < n) : (xs.take n).getD k 0 = xs.getD k 0 := by
  simp [List.getD_eq_getElem?_getD, h]

theorem size_record {xs : List UInt8} (h : 5 ≤ xs.length) :
    tlsHeader.size xs = some (ntohs (xs.getD 3 0) (xs.getD 4 0) + 5) := by
  rw [Framing.Header.size, if_pos (show tlsHeader.length ≤ xs.length from h)]
  show some (5 + ntohs ((xs.take 5).getD 3 0) ((xs.take 5).getD 4 0)) = _
  rw [getD_take (by decide), getD_take (by decide), Nat.add_comm]

/-- Where a record is whole, the loop takes it. -/
theorem next_record {messageBuffer record rest : List UInt8} {index : Nat}
    (h : tlsHeader.next (messageBuffer.drop index) = some (record, rest)) :
    5 ≤ messageBuffer.length - index ∧
      ntohs (messageBuffer.getD (index + 3) 0) (messageBuffer.getD (index + 4) 0) + 5 = record.length ∧
      record.length ≤ messageBuffer.length - index ∧
      (messageBuffer.drop index).take record.length = record ∧ messageBuffer.drop (index + record.length) = rest := by
  obtain ⟨hxs, hframe⟩ := Framing.next_some h
  have hlength : messageBuffer.length - index = record.length + rest.length := by
    rw [← List.length_drop, hxs, List.length_append]
  have hfive : 5 ≤ record.length := (Framing.size_some hframe).1
  have hsize := Framing.size_append hframe rest
  rw [← hxs, size_record (by rw [List.length_drop]; omega), getD_drop, getD_drop] at hsize
  refine ⟨by omega, Option.some_inj.mp hsize, by omega, by rw [hxs, List.take_left], ?_⟩
  rw [← List.drop_drop, hxs, List.drop_left]

theorem next_none {messageBuffer : List UInt8} {index : Nat} (h : tlsHeader.next (messageBuffer.drop index) = none)
    (hfive : 5 ≤ messageBuffer.length - index) :
    messageBuffer.length - index < ntohs (messageBuffer.getD (index + 3) 0) (messageBuffer.getD (index + 4) 0) + 5 := by
  rw [Framing.Header.next, size_record (by rwa [List.length_drop]), getD_drop, getD_drop] at h
  simp only [List.length_drop] at h
  split at h
  · cases h
  · omega

/-- The loop hands over the whole records that begin at `index`, up to the first with an error. -/
theorem consumeLoop_eq (messageBuffer : List UInt8) (index : Nat) (s : TlsSession σ) (h : index ≤ messageBuffer.length) :
    match (tlsHeader.split (messageBuffer.drop index)).1.foldlM (handleRecord E) s with
    | .ok s' => ∃ i, consumeLoop E messageBuffer index (messageBuffer.length - index) s = (i, 0, s') ∧
        messageBuffer.drop i = (tlsHeader.split (messageBuffer.drop index)).2
    | .error s' => s'.criticalError = true ∧ ∃ i errFlag,
        consumeLoop E messageBuffer index (messageBuffer.length - index) s = (i, errFlag, s') ∧ errFlag ≠ 0 := by
  induction hxs : messageBuffer.drop index using Framing.split_induction (H := tlsHeader) generalizing index s with
  | none xs hnext =>
    subst hxs
    rw [Framing.split_none hnext]
    refine ⟨index, ?_, rfl⟩
    rw [consumeLoop]
    by_cases hfive : 5 ≤ messageBuffer.length - index
    · rw [if_pos hfive, if_pos (next_none hnext hfive)]
    · rw [if_neg hfive]
  | some xs record rest hnext ih =>
    subst hxs
    obtain ⟨hfive, hlength, hle, htake, hdrop⟩ := next_record hnext
    rw [Framing.split_some hnext, List.foldlM_cons, consumeLoop, if_pos hfive]
    simp only [hlength, if_neg (Nat.not_lt.mpr hle), htake, handleRecord]
    by_cases hneg : (E.parseMessage s.engine s.connectionStatus record).consumed < 0
    · simp only [if_pos hneg]
      exact ⟨rfl, _, _, rfl, by omega⟩
    · simp only [if_neg hneg]
      by_cases hcrit : (s.parsed (E.parseMessage s.engine s.connectionStatus record)).criticalError = true
      · simp only [if_pos hcrit]
        exact ⟨hcrit, _, _, rfl, by decide⟩
      · simp only [if_neg hcrit]
        rw [Nat.sub_sub]
        exact ih (index + record.length) _ (by omega) hdrop

/-! ## Chunks -/

/-- `tls_consume_stream` for what `recv` returns, call after call. -/
def consumeChunks (context : TlsContext σ) (chunks : List (List UInt8)) : TlsContext σ :=
  chunks.foldl (fun context buf => (tlsConsumeStream E context buf).2) context

/-- The connection is as `tls_consume_stream` leaves it: broken, with nothing kept, or in front of an unfinished record. -/
def TlsContext.of : Except (TlsSession σ) (TlsSession σ × List UInt8) → TlsContext σ
  | .ok (s, rest) => { s with messageBuffer := rest }
  | .error s => { s with messageBuffer := [] }

theorem consume_broken {context : TlsContext σ} (h : context.criticalError = true) (chunks : List (List UInt8)) :
    consumeChunks E context chunks = context := by
  induction chunks with
  | nil => rfl
  | cons buf chunks ih =>
    rw [consumeChunks, List.foldl_cons, tlsConsumeStream, if_pos h]
    exact ih

theorem tlsConsumeStream_eq {context : TlsContext σ} (h : context.criticalError = false)
    (hnext : tlsHeader.next context.messageBuffer = none) (buf : List UInt8) :
    (tlsConsumeStream E context buf).2 =
      .of (Framing.absorb (handleRecord E) tlsHeader (context.toTlsSession, context.messageBuffer) buf) := by
  rw [tlsConsumeStream, h, if_neg Bool.false_ne_true]
  by_cases hbuf : buf = []
  · rw [if_pos hbuf, hbuf, Framing.absorb_nil _ hnext]
    rfl
  · rw [if_neg hbuf]
    have hloop := consumeLoop_eq E (context.messageBuffer ++ buf) 0 context.toTlsSession (Nat.zero_le _)
    rw [List.drop_zero, Nat.sub_zero] at hloop
    rw [Framing.absorb]
    cases hrun : (tlsHeader.split (context.messageBuffer ++ buf)).1.foldlM (handleRecord E) context.toTlsSession with
    | ok s' =>
      rw [hrun] at hloop
      obtain ⟨i, heq, hdrop⟩ := hloop
      simp only [heq, ne_eq, not_true_eq_false, if_false, Except.map, TlsContext.of, hdrop]
    | error s' =>
      rw [hrun] at hloop
      obtain ⟨-, i, errFlag, heq, hne⟩ := hloop
      simp only [heq, ne_eq, hne, not_false_eq_true, if_true, Except.map, TlsContext.of]

theorem handleRecord_ok {s s' : TlsSession σ} {record : List UInt8} (h : handleRecord E s record = .ok s') :
    s'.criticalError = false := by
  simp only [handleRecord] at h
  split at h
  · cases h
  · split at h
    · cases h
    · rename_i hcrit
      cases h
      exact Bool.eq_false_iff.mpr hcrit

theorem handleRecord_error {s s' : TlsSession σ} {record : List UInt8} (h : handleRecord E s record = .error s') :
    s'.criticalError = true := by
  simp only [handleRecord] at h
  split at h
  · cases h
    rfl
  · split at h
    · rename_i hcrit
      cases h
      exact hcrit
    · cases h

/-- The session is broken behind an error and nowhere else. -/
theorem handleRecords_broken {s : TlsSession σ} (h : s.criticalError = false) (records : List (List UInt8)) :
    match records.foldlM (handleRecord E) s with
    | .ok s' => s'.criticalError = false
    | .error s' => s'.criticalError = true := by
  induction records generalizing s with
  | nil => exact h
  | cons record records ih =>
    rw [List.foldlM_cons]
    cases hrecord : handleRecord E s record with
    | ok s' => exact ih (handleRecord_ok E hrecord)
    | error s' => exact handleRecord_error E hrecord

theorem absorb_broken {s : TlsSession σ} (h : s.criticalError = false) (rest buf : List UInt8) :
    match Framing.absorb (handleRecord E) tlsHeader (s, rest) buf with
    | .ok s' => s'.1.criticalError = false
    | .error s' => s'.criticalError = true := by
  have hbroken := handleRecords_broken E h (tlsHeader.split (rest ++ buf)).1
  rw [Framing.absorb]
  cases hrun : (tlsHeader.split (rest ++ buf)).1.foldlM (handleRecord E) s with
  | ok s' => rwa [hrun] at hbroken
  | error s' => rwa [hrun] at hbroken

theorem consumeChunks_eq {context : TlsContext σ} (h : context.criticalError = false)
    (hnext : tlsHeader.next context.messageBuffer = none) (chunks : List (List UInt8)) :
    consumeChunks E context chunks = .of
      (chunks.foldlM (Framing.absorb (handleRecord E) tlsHeader) (context.toTlsSession, context.messageBuffer)) := by
  induction chunks generalizing context with
  | nil => rfl
  | cons buf chunks ih =>
    rw [consumeChunks, List.foldl_cons, tlsConsumeStream_eq E h hnext, List.foldlM_cons]
    have hbroken := absorb_broken E h context.messageBuffer buf
    cases hbuf : Framing.absorb (handleRecord E) tlsHeader (context.toTlsSession, context.messageBuffer) buf with
    | ok s' =>
      rw [hbuf] at hbroken
      exact ih hbroken (Framing.next_absorb _ hbuf)
    | error s' =>
      rw [hbuf] at hbroken
      exact consume_broken E hbroken chunks

end

/-- However the records of the peer arrive in chunks, each of them is handled once and in order, up to the first that
breaks the connection, and no more than a part of one is kept. -/
theorem records_of_chunks {σ : Type} (E : TlsEngine σ) {s : TlsSession σ} (h : s.criticalError = false)
    {records : List (List UInt8)} (hrecords : ∀ r ∈ records, tlsHeader.IsFrame r) {rest : List UInt8}
    (hrest : tlsHeader.next rest = none) {chunks : List (List UInt8)} (hchunks : chunks.flatten = records.flatten ++ rest) :
    consumeChunks E { s with messageBuffer := [] } chunks =
        (match records.foldlM (handleRecord E) s with
          | .ok s' => { s' with messageBuffer := rest }
          | .error s' => { s' with messageBuffer := [] }) ∧
      (consumeChunks E { s with messageBuffer := [] } chunks).messageBuffer.length < 5 + 2 ^ 16 := by
  have heq := @consumeChunks_eq σ E { s with messageBuffer := [] } h rfl chunks
  rw [Framing.absorb_chunks _ rfl, Framing.absorb, List.nil_append, hchunks,
    Framing.split_flatten hrecords hrest] at heq
  have hlt := Framing.lt_of_next_none hrest fun ys => ntohs_lt (ys.getD 3 0) (ys.getD 4 0)
  rw [heq]
  cases records.foldlM (handleRecord E) s with
  | ok s' => exact ⟨rfl, hlt⟩
  | error s' => exact ⟨rfl, Nat.zero_lt_succ _⟩

/-- An engine that keeps the records, for a run on given input. -/
def recordLog : TlsEngine (List (List UInt8)) where
  parseMessage log status record := ⟨record.length, log ++ [record], status, false, [], record.drop 5, none⟩
  buildMessage log data := (some ([23, 3, 3, 0, data.length.toUInt8] ++ data), log)
  buildCloseNotify log := (some [21, 3, 3, 0, 2, 1, 0], log)

theorem records_of_chunks_two :
    let s : TlsSession (List (List UInt8)) := ⟨[], 0xFF, false, [], [], 0, [], []⟩
    let records : List (List UInt8) := [[23, 3, 3, 0, 1, 71], [23, 3, 3, 0, 0]]
    let chunks : List (List UInt8) := [[23, 3, 3], [0, 1, 71, 23, 3, 3, 0], [0, 23]]
    consumeChunks recordLog { s with messageBuffer := [] } chunks =
        (match records.foldlM (handleRecord recordLog) s with
          | .ok s' => { s' with messageBuffer := [23] }
          | .error s' => { s' with messageBuffer := [] }) ∧
      (consumeChunks recordLog { s with messageBuffer := [] } chunks).messageBuffer.length < 5 + 2 ^ 16 :=
  @records_of_chunks _ recordLog _ rfl [[23, 3, 3, 0, 1, 71], [23, 3, 3, 0, 0]]
    (by unfold Framing.Header.IsFrame; decide) _ rfl _ rfl

end CWebServer
