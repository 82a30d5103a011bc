import RenaProxy.Http.Headers
import RenaProxy.Lib.Failure

/-!
# Reading and writing

`http_pull` reads from a socket into the buffer, byte by byte through the lookup tree;
`http_evaluate` looks at the result of every read and lets held bytes go when they
complete the announced payload; `http_push` sends the buffer of the peer.
-/
namespace RenaProxy
open Failure

/-- `TT_READ` and `TT_WRITE` of `task_type_e`. -/
def ttRead : ℤ := 1
def ttWrite : ℤ := 2

/-- The part of `struct client_info` that reading and writing use. -/
structure ClientInfo where
  fd : ℤ
  ssl : Bool
  wantSsl : ℕ
  protocol : Option Http
  deriving DecidableEq, Repr

namespace ClientInfo

/-- `clients_set_want` -/
def setWant (c : ClientInfo) (myWant sslWant : ℕ) : ClientInfo :=
  { c with wantSsl := 4 * myWant + 2 * sslWant + 1 }

/-- `clients_clear_want` -/
def clearWant (c : ClientInfo) : ClientInfo := { c with wantSsl := 0 }

end ClientInfo

/-! ## Pulling -/

namespace HttpMessage

/-- The body of the byte loop of `http_pull`. -/
def pullByte (rena : Rena) (type : ClientType) (peer : Option HttpMessage) (h : HttpMessage)
    (b : UInt8) : Except Fault HttpMessage := do
  let (d, r) ← databaseStep h.lookupTree b
  let h := { h with lookupTree := d }
  match r with
  | .keep => pure (h.checkDelimiterHeader 0).1
  | .put holding transformed =>
      let h := if 0 < holding.length then h.forceOntoBuffer holding else h
      let h := match transformed with
        | some o => h.forceOntoBuffer o
        | none => h
      let (h, complete) := h.checkDelimiterHeader b
      if complete then h.evaluateHeaders rena type peer else pure h

/-- The byte loop of `http_pull`. -/
def pullBytes (rena : Rena) (type : ClientType) (peer : Option HttpMessage) (h : HttpMessage)
    (bytes : List UInt8) : Except Fault HttpMessage :=
  bytes.foldlM (pullByte rena type peer) h

/-- `flush_pending_data_to_buffer` -/
def flushPendingDataToBuffer (h : HttpMessage) : HttpMessage :=
  let (d, holding) := h.lookupTree.getHolding true
  { h with lookupTree := d }.forceOntoBuffer holding

end HttpMessage

/-- How the calls of `server_read_client` in one `http_pull` end: with nothing more to
read for now, with the connection closed or broken, or with a want of the TLS layer. -/
inductive ReadEnd
  | retry
  | closed
  | want (reading : Bool)
  deriving DecidableEq, Repr

/-- What one event lets `http_pull` read: the bytes of each successful call of
`server_read_client`, and how the last one ends. -/
structure ReadEvent where
  chunks : List (List UInt8)
  stop : ReadEnd
  deriving DecidableEq, Repr

namespace Http

/-- One round of the outer loop of `http_pull`. -/
def pullChunk (rena : Rena) (type : ClientType) (peer : Option HttpMessage) (h : Http)
    (chunk : List UInt8) : Except Fault Http := do
  let m ← h.toHttpMessage.pullBytes rena type peer chunk
  pure { h with toHttpMessage := m, bufferRecv := h.bufferRecv + chunk.length }

/-- The outer loop of `http_pull`, up to the last call of `server_read_client`. -/
def pullChunks (rena : Rena) (type : ClientType) (peer : Option HttpMessage)
    (cprot : Option Http) (chunks : List (List UInt8)) : Except Fault (Option Http) :=
  chunks.foldlM (fun cprot chunk => do
    let h ← (cprot.getD (.create rena type)).pullChunk rena type peer chunk
    pure (some h)) cprot

def flushPendingDataToBuffer (h : Http) : Http :=
  { h with toHttpMessage := h.toHttpMessage.flushPendingDataToBuffer }

/-- `check_payload_length`: whether bytes of the payload are missing, and the flag. -/
def checkPayloadLength (h : Http) : Bool × Bool :=
  if h.expectedPayload < 0 then (false, false)
  else
    let expected := toInt32 h.bufferRecv
    if expected < h.expectedPayload then
      let hs : ℤ := h.lookupTree.getHoldingSize
      (expected + hs < h.expectedPayload, 0 < hs)
    else (false, false)

end Http

/-- `http_pull`. -/
def httpPull (rena : Rena) (type : ClientType) (peer : Option HttpMessage) (client : ClientInfo)
    (fd : ℤ) (ev : ReadEvent) : Except Fault (ClientInfo × ℤ) := do
  if client.fd ≠ fd then pure (client, -1)
  else
    let protocol ← Http.pullChunks rena type peer client.protocol ev.chunks
    let client := { client with protocol := protocol }
    match ev.stop with
    | .closed =>
        pure ({ client with protocol := protocol.map Http.flushPendingDataToBuffer, fd := -1 },
          if protocol.isSome then 0 else -1)
    | .want reading =>
        if ev.chunks = [] then
          pure (client.setWant 1 (if reading then 1 else 0), if reading then ttRead else ttWrite)
        else pure (client.clearWant, 0)
    | .retry => pure (client.clearWant, 0)

/-! ## Evaluating -/

/-- What `http_evaluate` comes to: a value to return, or the dispatch of a complete
request, with the value to return after it. The dispatch is given the pointer to the
protocol from before the flush, to a block that is `freed` if the flush moved it. -/
inductive Evaluation
  | done (ret : ℤ)
  | dispatch (evalRet : ℤ) (freed : Bool)
  deriving DecidableEq, Repr

/-- `http_evaluate` up to `dispatch_new_connection`. -/
def httpEvaluate (type : ClientType) (client : ClientInfo) :
    Except Fault (ClientInfo × Evaluation) :=
  match client.protocol with
  | none => .error .nullProtocol
  | some cprot =>
      if cprot.payload.isNone then .ok (client, .done ttRead)
      else
        let (pret, flushHolding) := cprot.checkPayloadLength
        let flushed := if ¬ pret ∧ flushHolding then cprot.flushPendingDataToBuffer else cprot
        let client := { client with protocol := some flushed }
        let evalRet := if client.fd < 0 then -1 else ttRead
        match type with
        | .requester => .ok (client, if pret then .done ttRead
            else .dispatch evalRet (flushed.totalBlock ≠ cprot.totalBlock))
        | .victim => .ok (client, .done evalRet)

/-! ## Inside the block -/

namespace HttpMessage

/-- What a reaction of the matcher appends. -/
def appendReaction (h : HttpMessage) : Reaction → HttpMessage
  | .keep => h
  | .put holding transformed =>
      let h := if 0 < holding.length then h.forceOntoBuffer holding else h
      match transformed with
      | some o => h.forceOntoBuffer o
      | none => h

/-- The byte that the delimiter check gets to see: none while bytes are held. -/
def seenByte (b : UInt8) : Reaction → UInt8
  | .keep => 0
  | .put .. => b

/-- The message that `http_evaluate_headers` is called with for a byte, if it is. -/
def handed (m : HttpMessage) (b : UInt8) : Option HttpMessage :=
  match databaseStep m.lookupTree b with
  | .error _ => none
  | .ok (d, r) =>
      let c := ({ m with lookupTree := d }.appendReaction r).checkDelimiterHeader (seenByte b r)
      if c.2 ∧ r ≠ .keep then some c.1 else none

/-- The text that a reaction puts out finds room. -/
def ReactionFits (h : HttpMessage) : Reaction → Prop
  | .keep => True
  | .put holding transformed =>
      (0 < holding.length → Room h holding) ∧
        ∀ o ∈ transformed, Room (if 0 < holding.length then h.forceOntoBuffer holding else h) o

/-- `copy_suffix`, and whether all that was put in so far is in the block. -/
def copySuffixWithin (suffix : List UInt8) (h : HttpMessage) (first last : ℕ) (within : Bool) :
    Except Fault (HttpMessage × Bool) := do
  let (h, _) ← copySuffix suffix h first last ()
  pure (h, within && decide (h.buffer.length ≤ h.capacity))

/-- `adjust_domain_property` puts no value in behind the block. -/
def DomainsFit (suffix : List UInt8) (h : HttpMessage) : Prop :=
  OnOk (fun r => OnOk (fun x => x.2 = true)
      ((if 0 < r.2 then h.reallocationProtocol r.2 else h).applyOnDomain
        (copySuffixWithin suffix) true))
    (h.applyOnDomain (sizeNeedForSuffix suffix) 0)

/-- Nor does header processing. -/
def HeadersFit (suffix : List UInt8) (h : HttpMessage) : Prop :=
  ∀ payload ∈ h.processHeadersAndGetPayload.2.payload, DomainsFit suffix
    { h.processHeadersAndGetPayload.1 with
      headersUsed := h.processHeadersAndGetPayload.2.headers.length
      payload := some payload }

/-- What a byte makes of the buffer stays in the block. -/
def ByteFits (suffix : List UInt8) (h : HttpMessage) (b : UInt8) : Prop :=
  OnOk (fun x => ReactionFits { h with lookupTree := x.1 } x.2) (databaseStep h.lookupTree b) ∧
    ∀ m ∈ h.handed b, HeadersFit suffix m

/-- So does what all bytes make of it, one after the other. -/
def BytesFit (rena : Rena) (type : ClientType) (peer : Option HttpMessage) :
    HttpMessage → List UInt8 → Prop
  | _, [] => True
  | h, b :: bytes => h.ByteFits rena.suffix b ∧
      OnOk (fun h' => BytesFit rena type peer h' bytes) (h.pullByte rena type peer b)

/-- A flush finds room for what is held. -/
def HeldFits (h : HttpMessage) : Prop := Room h h.lookupTree.input

section
variable {rena : Rena} {type : ClientType} {peer : Option HttpMessage} {h : HttpMessage}
  {suffix : List UInt8}

instance : (r : Reaction) → Decidable (ReactionFits h r)
  | .keep => inferInstanceAs (Decidable True)
  | .put holding transformed => inferInstanceAs (Decidable ((0 < holding.length → Room h holding) ∧
      ∀ o ∈ transformed, Room (if 0 < holding.length then h.forceOntoBuffer holding else h) o))

instance : Decidable (DomainsFit suffix h) := inferInstanceAs (Decidable (OnOk _ _))

instance : Decidable (HeadersFit suffix h) :=
  inferInstanceAs (Decidable (∀ payload ∈ h.processHeadersAndGetPayload.2.payload, DomainsFit _ _))

instance (b : UInt8) : Decidable (h.ByteFits suffix b) := inferInstanceAs (Decidable (_ ∧ _))

instance decidableBytesFit : (bytes : List UInt8) → (h : HttpMessage) →
    Decidable (BytesFit rena type peer h bytes)
  | [], _ => isTrue trivial
  | b :: bytes, h =>
      have := decidableBytesFit bytes
      inferInstanceAs (Decidable (h.ByteFits rena.suffix b ∧
        OnOk (fun h' => BytesFit rena type peer h' bytes) (h.pullByte rena type peer b)))

instance : Decidable h.HeldFits := inferInstanceAs (Decidable (Room _ _))

end

end HttpMessage

/-- `http_evaluate` forces the held bytes out. -/
def Http.forcesFlush (h : Http) : Bool :=
  h.payload.isSome && !h.checkPayloadLength.1 && h.checkPayloadLength.2

/-- The message of a client, a fresh one if it has none yet. -/
def ClientInfo.message (rena : Rena) (type : ClientType) (c : ClientInfo) : HttpMessage :=
  (c.protocol.getD (.create rena type)).toHttpMessage

/-- All that a read writes stays in the block of the buffer: what its bytes make of it, and
the held bytes where the connection is closed or `http_evaluate` forces them out. -/
def ReadFits (rena : Rena) (type : ClientType) (peer : Option HttpMessage) (client : ClientInfo)
    (fd : ℤ) (ev : ReadEvent) : Prop :=
  client.fd = fd →
    HttpMessage.BytesFit rena type peer (client.message rena type) ev.chunks.flatten ∧
    (ev.stop = .closed → OnOk (fun p : Option Http => ∀ h ∈ p, h.HeldFits)
      (Http.pullChunks rena type peer client.protocol ev.chunks)) ∧
    OnOk (fun x : ClientInfo × ℤ => x.2 = 0 → ∀ h ∈ x.1.protocol, h.forcesFlush → h.HeldFits)
      (httpPull rena type peer client fd ev)

instance (rena : Rena) (type : ClientType) (peer : Option HttpMessage) (client : ClientInfo)
    (fd : ℤ) (ev : ReadEvent) : Decidable (ReadFits rena type peer client fd ev) :=
  inferInstanceAs (Decidable (client.fd = fd → HttpMessage.BytesFit rena type peer _ _ ∧
    (ev.stop = .closed → OnOk (fun p : Option Http => ∀ h ∈ p, h.HeldFits) _) ∧
    OnOk (fun x : ClientInfo × ℤ => x.2 = 0 → ∀ h ∈ x.1.protocol, h.forcesFlush → h.HeldFits) _))

/-- `client_do_read` up to `dispatch_new_connection`. A read that writes behind the block is
an overrun. -/
def clientDoRead (rena : Rena) (type : ClientType) (peer : Option HttpMessage)
    (client : ClientInfo) (fd : ℤ) (ev : ReadEvent) : Except Fault (ClientInfo × Evaluation) := do
  if ¬ ReadFits rena type peer client fd ev then .error .overrun
  else
    let (client, ret) ← httpPull rena type peer client fd ev
    if ret < 0 then pure (client, .done (-1))
    else if 0 < ret then pure (client, .done ret)
    else httpEvaluate type client

/-! ## Pushing -/

/-- What `server_write_client` does with the bytes offered: it takes some of them, none
for now, none although the call went through, or it fails. -/
inductive WriteResult
  | wrote (n : ℕ)
  | retry
  | failed
  | want (reading : Bool)
  deriving DecidableEq, Repr

/-- `http_push2`, with the bytes that go to the socket. `pfd` is the descriptor of the
peer whose protocol `pp` is sent. -/
def httpPush2 (pp : Http) (client : ClientInfo) (pfd : ℤ) (res : WriteResult) :
    Except Fault (Http × ClientInfo × List UInt8 × ℤ) :=
  if client.wantSsl = 0 ∧ pp.buffer.length = pp.bufferSent then .ok (pp, client, [], ttRead)
  else if pp.buffer.length < pp.bufferSent then .error .overrun
  else
    let left (pp : Http) : ℤ := if pp.bufferSent < pp.buffer.length then ttWrite else ttRead
    match res with
    | .wrote 0 => .ok (pp, client, [], if pfd < 0 then 0 else ttRead)
    | .failed => .ok (pp, { client with fd := -1 }, [], -1)
    | .want reading =>
        .ok (pp, client.setWant 0 (if reading then 1 else 0), [],
          if reading then ttRead else ttWrite)
    | .retry => .ok (pp, client.clearWant, [], left pp)
    | .wrote n =>
        let sent := (pp.buffer.drop pp.bufferSent).take n
        let pp := { pp with bufferSent := pp.bufferSent + sent.length }
        .ok (pp, client.clearWant, sent,
          if pfd < 0 ∧ pp.buffer.length ≤ pp.bufferSent then 0 else left pp)

/-- `http_push`: the protocols of the two sides afterwards, and the client. The peer's
protocol is what is sent. -/
def httpPush (rena : Rena) (type : ClientType) (client : ClientInfo) (peer : Option ClientInfo)
    (fd : ℤ) (res : WriteResult) :
    Except Fault (ClientInfo × Option ClientInfo × List UInt8 × ℤ) := do
  if client.fd ≠ fd then pure (client, peer, [], -1)
  else
    let client := { client with protocol := some (client.protocol.getD (.create rena type)) }
    match peer with
    | none => pure (client, none, [], -1)
    | some p =>
        match p.protocol with
        | none => pure (client, some p, [], -1)
        | some pp =>
            let (pp, client, sent, ret) ← httpPush2 pp client p.fd res
            pure (client, some { p with protocol := some pp }, sent, ret)

end RenaProxy
