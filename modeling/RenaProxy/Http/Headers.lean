import RenaProxy.Http.Message

/-!
# Header processing

What `http_evaluate_headers` does when the end of the header block has been read: it
finds the headers and the payload in the buffer, downgrades the protocol version,
puts the suffix into cookie domains, reads the content length, removes headers and
chooses the context parser for the payload.
-/
namespace RenaProxy

/-! ## Strings -/

/-- An integer cast to `int`. -/
def toInt32 (z : ℤ) : ℤ := z.bmod (2 ^ 32)

/-- `atoi`, and whether it sets `errno`: the number is read as a `long`, which is cut off
at its bounds, and cast to `int`. -/
def atoi (s : List UInt8) : ℤ × Bool :=
  let s := s.dropWhile isspace
  let negative := s.head? = some 45
  let s := if s.head? = some 45 ∨ s.head? = some 43 then s.tail else s
  let digits := s.takeWhile fun c => 48 ≤ c ∧ c ≤ 57
  let n : ℤ := digits.foldl (fun n c => 10 * n + (c.toNat - 48 : ℕ)) 0
  let z := if negative then -n else n
  if 2 ^ 63 ≤ z then (toInt32 (2 ^ 63 - 1), true)
  else if z < -2 ^ 63 then (toInt32 (-2 ^ 63), true)
  else (toInt32 z, false)

def colon : UInt8 := 58

def headerContentLength : List UInt8 := chars "Content-Length"
def headerContentType : List UInt8 := chars "Content-Type"
def headerHost : List UInt8 := chars "Host"
def headerConnection : List UInt8 := chars "Connection"
def acceptEncoding : List UInt8 := chars "Accept-Encoding"
def acceptRanges : List UInt8 := chars "Accept-Ranges"
def headerAccept : List UInt8 := chars "Accept"

namespace HttpMessage

/-! ## Finding the headers -/

/-- The states of `process_headers_and_get_payload`. -/
inductive ScanState
  | firstLineFirstDelim | firstLineSecondDelim
  | headerFirstDelim | headerSecondDelim | headerThirdDelim
  | headerDone
  deriving DecidableEq, Repr

/-- The variables of `process_headers_and_get_payload`, with the headers given to `fnc`
so far and the value to return. -/
structure Scan where
  state : ScanState
  oldPositionBuf : ℕ
  headers : List (ℕ × ℕ)
  payload : Option ℕ
  deriving DecidableEq, Repr

def Scan.start : Scan := ⟨.firstLineFirstDelim, 0, [], none⟩

/-- The downgrade of the protocol on the first line, which ends at `old`. -/
def downgrade (h : HttpMessage) (old : ℕ) : HttpMessage :=
  if 10 ≤ old ∧ (h.buffer.drop (old - 10)).take 6 = chars "HTTP/1" then
    { h with buffer := (h.buffer.set (old - 5) 49).set (old - 3) 48 }
  else h

/-- What is done with a delimiter found at position `p`. -/
def scanDelim (h : HttpMessage) (sc : Scan) (p : ℕ) : HttpMessage × Scan :=
  let expected := p + 1
  match sc.state with
  | .firstLineSecondDelim =>
      (h.downgrade expected, { sc with state := .headerFirstDelim, oldPositionBuf := expected })
  | .headerSecondDelim =>
      let next := h.byteAt expected
      -- a line that starts with a blank continues the header
      let sc :=
        if next = 9 ∨ next = 32 then sc
        else { sc with
          headers := sc.headers ++ [(sc.oldPositionBuf, expected - sc.oldPositionBuf - 2)]
          oldPositionBuf := expected }
      (h, { sc with state := if next ∈ delim then .headerThirdDelim else .headerFirstDelim })
  | .headerDone => (h, { sc with payload := some expected })
  | .firstLineFirstDelim => (h, { sc with state := .firstLineSecondDelim })
  | .headerFirstDelim => (h, { sc with state := .headerSecondDelim })
  | .headerThirdDelim => (h, { sc with state := .headerDone })

/-- The loop of `process_headers_and_get_payload` at position `p`. -/
def scanByte (r : HttpMessage × Scan) (p : ℕ) : HttpMessage × Scan :=
  if r.2.payload.isSome then r
  else if r.1.buffer.getD p 0 ∈ delim then r.1.scanDelim r.2 p
  else r

/-- `process_headers_and_get_payload` -/
def processHeadersAndGetPayload (h : HttpMessage) : HttpMessage × Scan :=
  (List.range h.buffer.length).foldl scanByte (h, .start)

/-- `find_header` -/
def findHeader (h : HttpMessage) (name : List UInt8) : Option ℕ :=
  ((h.headers.getD []).take h.headersUsed).findIdx? fun e =>
    h.byteAt (e.1 + name.length) = colon ∧
      (h.bytesAt e.1 name.length).map tolower = name.map tolower

/-- The entry of a header. -/
def header (h : HttpMessage) (pos : ℕ) : ℕ × ℕ := (h.headers.getD []).getD pos (0, 0)

/-- `copy_header` -/
def copyHeader (h : HttpMessage) (pos : ℕ) : List UInt8 :=
  cstr (h.bytesAt (h.header pos).1 (h.header pos).2)

/-! ## The content length -/

/-- The number that the header at position `hr` announces, -1 if it has none. -/
def announced (h : HttpMessage) (hr : ℕ) : ℤ :=
  let value := atoi ((h.copyHeader hr).drop (headerContentLength.length + 2))
  if value.2 then -1 else value.1

/-- `content_length_value` -/
def contentLengthValue (h : HttpMessage) : Except Fault (HttpMessage × ℤ) :=
  match h.findHeader headerContentLength with
  | none => .ok (h, -1)
  | some hr =>
      let h := { h with
        expectedPayload := if h.expectedPayload < 0 then h.announced hr else h.expectedPayload }
      if h.expectedPayload < 0 then .ok (h, 0)
      else match h.payload with
        | none => .error .nullPayload
        | some payload =>
            let expected := toInt32 (h.expectedPayload + payload)
            .ok ({ h with expectedPayload := expected }, expected)

/-- `adjust_expect_payload` -/
def adjustExpectPayload (h : HttpMessage) : Except Fault HttpMessage := do
  if 0 < h.expectedPayload then pure h
  else
    let (h, clv) ← h.contentLengthValue
    if clv ≤ 0 ∧ clv ≠ h.expectedPayload then
      let (h, _) ← h.contentLengthValue
      pure h
    else pure h

/-! ## Removing headers -/

/-- Where the header after the one at position `found` starts, or the last line of the
block. -/
def nextHeader (h : HttpMessage) (found payload : ℕ) : ℕ :=
  if h.headersUsed ≤ found + 1 then payload - 2 else (h.header (found + 1)).1

/-- `find_and_remove_header` -/
def findAndRemoveHeader (h : HttpMessage) (hdr : List UInt8) : Except Fault HttpMessage :=
  match h.findHeader hdr with
  | none => .ok h
  | some found =>
      match h.payload with
      | none => .error .nullPayload
      | some payload =>
          let hdrFound := (h.header found).1
          let next := h.nextHeader found payload
          let diff := next - hdrFound
          if h.buffer.length < next then .error .negativeMove
          else if h.buffer.length ≤ diff then .error .emptyBuffer
          else .ok { h.splice hdrFound next [] with
            headers := h.headers.map fun hs =>
              hs.take found ++ (hs.drop (found + 1)).map fun e => (e.1 - diff, e.2)
            headersUsed := h.headersUsed - 1
            payload := some (payload - diff) }

/-- `remove_headers` -/
def removeHeaders (type : ClientType) (h : HttpMessage) : Except Fault HttpMessage :=
  match type with
  | .victim => do
      let h ← h.findAndRemoveHeader headerContentLength
      h.findAndRemoveHeader acceptRanges
  | .requester => do
      let h ← h.findAndRemoveHeader headerConnection
      h.findAndRemoveHeader acceptEncoding

/-! ## Cookie domains -/

/-- `dprop` -/
def dprop : List UInt8 := chars "; DOMAIN="

/-- `dprop_len`, the size of a pointer: all of `dprop` is matched from 9 on. -/
def dpropLen : ℕ := 8

/-- The variables of `apply_on_domain`, and the message and value that its `fnc` works on. -/
structure DomainScan (σ : Type) where
  http : HttpMessage
  hit : ℕ
  start : Option ℕ
  user : σ

/-- The loop of `apply_on_domain` at position `s`. -/
def domainByte {σ : Type} (fnc : HttpMessage → ℕ → ℕ → σ → Except Fault (HttpMessage × σ))
    (ds : DomainScan σ) (s : ℕ) : Except Fault (DomainScan σ) :=
  let c := ds.http.byteAt s
  if dpropLen < ds.hit then
    match ds.start with
    | none => .ok { ds with start := some s }
    | some first =>
        -- `strchr` also finds the NUL of the terminators
        if c ∈ chars ";\r\n" ∨ c = 0 then do
          let (http, user) ← fnc ds.http first s ds.user
          pure ⟨http, 0, none, user⟩
        else .ok ds
  else if 1 < ds.hit then
    .ok { ds with hit := if dprop.getD ds.hit 0 = toupper c then ds.hit + 1 else 0 }
  else .ok { ds with hit := if dprop.getD ds.hit 0 = c then ds.hit + 1 else 0 }

/-- `apply_on_domain`. The end of the block is fixed before the first edit. -/
def applyOnDomain {σ : Type} (fnc : HttpMessage → ℕ → ℕ → σ → Except Fault (HttpMessage × σ))
    (h : HttpMessage) (user : σ) : Except Fault (HttpMessage × σ) := do
  let ds ← (List.range (h.payload.getD 0)).foldlM (domainByte fnc) ⟨h, 0, none, user⟩
  pure (ds.http, ds.user)

/-- `strnlen(suffix, 4096)` bytes of the suffix -/
def suffixText (suffix : List UInt8) : List UInt8 := suffix.take 4096

/-- `size_need_for_suffix` -/
def sizeNeedForSuffix (suffix : List UInt8) (h : HttpMessage) (first last user : ℕ) :
    Except Fault (HttpMessage × ℕ) :=
  .ok (h, user + ((suffixText suffix).length - (last - first)))

/-- `copy_suffix`, which writes without a look at the size of the block (`DomainsFit`). -/
def copySuffix (suffix : List UInt8) (h : HttpMessage) (first last : ℕ) (user : Unit) :
    Except Fault (HttpMessage × Unit) :=
  if h.buffer.length < last then .error .negativeMove
  else .ok ({ h.splice first last (suffixText suffix) with
      payload := h.payload.map fun p => p + (suffixText suffix).length - (last - first) }, user)

/-- `adjust_domain_property` -/
def adjustDomainProperty (suffix : List UInt8) (h : HttpMessage) : Except Fault HttpMessage := do
  let (_, newElements) ← h.applyOnDomain (sizeNeedForSuffix suffix) 0
  let h := if 0 < newElements then h.reallocationProtocol newElements else h
  let (h, _) ← h.applyOnDomain (copySuffix suffix) ()
  pure h

/-! ## The context of the payload -/

/-- `allowed_mime` -/
def allowedMime (value : List UInt8) : Bool :=
  ["text/", "javascript", "json", "xml"].any fun phrase => strcasestr value (chars phrase)

/-- `not_allowed_accept` -/
def notAllowedAccept (value : List UInt8) : Bool :=
  ["font", "image"].any fun phrase => strcasestr value (chars phrase)

/-- `check_to_disable_transformations`, with the protocol of the peer if it has one. -/
def checkToDisableTransformations (peer : Option HttpMessage) (h : HttpMessage) :
    Except Fault HttpMessage :=
  let setContext (c : Context) : HttpMessage :=
    { h with lookupTree := { h.lookupTree with context := some c } }
  match h.findHeader headerContentType with
  | some hr =>
      let value := (h.copyHeader hr).drop (headerContentType.length + 2)
      .ok (setContext
        (if ¬ allowedMime value then .nothingAllowed
        else if strcasestr value (chars "html") then .setHtmlParser
        else .setFullLinkParser))
  | none =>
      match peer with
      | none => .ok (setContext .setFullLinkParser)
      | some pprot =>
          match pprot.findHeader headerAccept with
          | none => .error .missingHeader
          | some phr =>
              let pvalue := (pprot.copyHeader phr).drop (headerAccept.length + 2)
              .ok (setContext
                (if notAllowedAccept pvalue then .nothingAllowed else .setFullLinkParser))

/-! ## All together -/

/-- The room made for the rest of an announced payload. -/
def reserve (h : HttpMessage) : HttpMessage :=
  if h.payload.isSome ∧ 0 < h.expectedPayload then
    let delta := toInt32 (h.buffer.length + h.expectedPayload - h.totalBlock - sizeofHttp + maxStr)
    if 0 < delta then h.reallocationProtocol delta.toNat else h
  else h

/-- The headers are recorded by a second scan. Its table has room for as many as the
first one counted. -/
def recordHeaders (h : HttpMessage) : Except Fault HttpMessage :=
  if h.headers.isSome then .ok h
  else
    let r := h.processHeadersAndGetPayload
    if r.2.headers.length = h.headersUsed then
      .ok { r.1 with headers := some r.2.headers, payload := r.2.payload }
    else .error .headerTable

/-- `http_evaluate_headers` -/
def evaluateHeaders (rena : Rena) (type : ClientType) (peer : Option HttpMessage)
    (h : HttpMessage) : Except Fault HttpMessage := do
  if h.payload.isSome then pure h
  else
    let (h, scan) := h.processHeadersAndGetPayload
    let h := { h with headersUsed := scan.headers.length }
    match scan.payload with
    | none => pure h
    | some payload =>
        let h := { h with payload := some payload }
        let h ← h.adjustDomainProperty rena.suffix
        let h ← h.recordHeaders
        let h ← h.adjustExpectPayload
        let h ← h.removeHeaders type
        checkToDisableTransformations peer h.reserve

end HttpMessage

end RenaProxy
