import RenaProxy.Http.AtOnce
import RenaProxy.Http.Ledger
import Mathlib.Tactic.Linarith
import Mathlib.Tactic.Ring

/-!
# Requests with a content length

What the proxy makes of a request that announces the length of its body: when
`http_evaluate` takes it for complete, what is still held then, and whether the length
announced is that of the body it passes on. However the request is read, this depends on
what one read makes of its header block, and on what the matcher holds behind its bytes.
-/
namespace RenaProxy
open Failure DatabaseObject HttpMessage StreamMatcher

/-- A request as it comes from the requester: a header block, which its first empty line
ends, with the announced length, and the body with what may follow it. -/
structure Request where
  block : List UInt8
  length : ℕ
  body : List UInt8
  block_ends : ∀ i ≤ block.length, chars "\r\n\r\n" <:+ block.take i ↔ i = block.length
  announces : chars "\r\nContent-Length: " ++ chars (toString length) ++ chars "\r\n" <:+: block
  length_le : length ≤ body.length

namespace Request

/-- The bytes of a request. -/
def bytes (q : Request) : List UInt8 := q.block ++ q.body

/-- The size of the header block and of the announced body. -/
def total (q : Request) : ℕ := q.block.length + q.length

theorem total_le (q : Request) : q.total ≤ q.bytes.length := by
  have := q.length_le
  rw [total, bytes, List.length_append]
  omega

end Request

/-- A way to read the request, up to some read: the reads before it leave the connection open,
and it brings bytes itself or finds the connection closed. Only the TLS layer gives events
without bytes. -/
structure Request.Reading (q : Request) where
  fd : ℤ
  ssl : Bool
  before : List ReadEvent
  last : ReadEvent
  fd_nonneg : 0 ≤ fd
  stays_open : ∀ ev ∈ before, ev.stop ≠ .closed ∧ (ev.stop = .retry → ev.chunks ≠ [])
  brings : last.stop ≠ .closed → last.chunks ≠ []
  bytes : (before.flatMap (·.chunks) ++ last.chunks).flatten <+: q.bytes

namespace Request.Reading
variable {q : Request}

/-- The raw bytes received so far. -/
def raw (s : q.Reading) : List UInt8 := (s.before.flatMap (·.chunks) ++ s.last.chunks).flatten

/-- How many raw bytes were received so far. -/
def received (s : q.Reading) : ℕ := s.raw.length

/-- What the reads come to. -/
def result (rena : Rena) (peer : Option HttpMessage) (s : q.Reading) :
    Except Fault (ClientInfo × Evaluation) := do
  let c ← clientReads rena .requester peer s.fd (.fresh s.fd s.ssl) s.before
  clientDoRead rena .requester peer c s.fd s.last

/-- After the last read `http_evaluate` goes on to `dispatch_new_connection`. -/
def Dispatches (rena : Rena) (peer : Option HttpMessage) (s : q.Reading) : Prop :=
  ∃ c ret freed, s.result rena peer = .ok (c, .dispatch ret freed)

/-- A first part of the request, in one read. -/
def once {x : List UInt8} (hx : x <+: q.bytes) (stop : ReadEnd) : q.Reading where
  fd := 0
  ssl := false
  before := []
  last := ⟨[x], stop⟩
  fd_nonneg := le_rfl
  stays_open _ h := absurd h List.not_mem_nil
  brings _ := List.cons_ne_nil x []
  bytes := by
    rw [List.flatMap_nil, List.nil_append, List.flatten_singleton]
    exact hx

@[simp] theorem raw_once {x : List UInt8} (hx : x <+: q.bytes) (stop : ReadEnd) :
    (once hx stop).raw = x := by
  simp [raw, once]

theorem result_once (rena : Rena) (peer : Option HttpMessage) {x : List UInt8}
    (hx : x <+: q.bytes) (stop : ReadEnd) : (once hx stop).result rena peer =
      clientDoRead rena .requester peer (.fresh 0 false) 0 ⟨[x], stop⟩ := rfl

theorem raw_eq (s : q.Reading) :
    s.raw = (s.before.flatMap (·.chunks)).flatten ++ s.last.chunks.flatten := by
  rw [raw, List.flatten_append]

end Request.Reading

variable {rena : Rena} {peer : Option HttpMessage} {q : Request}

/-! ## The last read -/

section Last
variable {fd : ℤ} {x : List UInt8} {c : ClientInfo} {ev : ReadEvent} {m : HttpMessage}

theorem dispatched_iff {r : Except Fault (ClientInfo × Evaluation)} {c' : ClientInfo}
    {e : Evaluation} (hread : r = .ok (c', e)) :
    (∃ c ret freed, r = .ok (c, .dispatch ret freed)) ↔ ∃ ret freed, e = .dispatch ret freed := by
  subst hread
  constructor
  · rintro ⟨c, ret, freed, hok⟩
    exact ⟨ret, freed, (Prod.mk.inj (Except.ok.inj hok)).2⟩
  · rintro ⟨ret, freed, rfl⟩
    exact ⟨c', ret, freed, rfl⟩

theorem reached_flush (m : HttpMessage) (n k : ℕ) :
    m.flushPendingDataToBuffer.Reached n k ↔ m.Reached n k := by
  have hexp : m.flushPendingDataToBuffer.expectedPayload = m.expectedPayload := by
    rw [flushPendingDataToBuffer_eq, (appended_forceOntoBuffer _ _).expectedPayload]
  rw [HttpMessage.Reached, HttpMessage.Reached, hexp, payload_flushPendingDataToBuffer]

/-- Before the header block is complete, the end of the stream brings no dispatch. -/
theorem not_dispatched_closed (H : AtOnce rena .requester peer fd x c) (hstop : ev.stop = .closed)
    (hfit : ReadFits rena .requester peer c fd ev)
    (hm : atOnce rena .requester peer (x ++ ev.chunks.flatten) = .ok m) (hp : m.payload = none) :
    ¬ ∃ c' ret freed,
      clientDoRead rena .requester peer c fd ev = .ok (c', .dispatch ret freed) := by
  rintro ⟨c', ret, freed, hok⟩
  obtain ⟨chunks, stop⟩ := ev
  obtain rfl : stop = .closed := hstop
  rw [clientDoRead_closed H.fd_eq chunks hfit, bind_eq_ok] at hok
  obtain ⟨p, hpulled, hok⟩ := hok
  cases p with
  | none => cases (Prod.mk.inj (Except.ok.inj hok)).2
  | some h =>
      have hreach := (h.flushPendingDataToBuffer.dispatch_iff (-1)).mp
        ⟨ret, freed, (Prod.mk.inj (Except.ok.inj hok)).2⟩
      have hmsg : h.toHttpMessage = m := by
        by_cases hnone : chunks = []
        · subst hnone
          have hprot : c.protocol = some h := Except.ok.inj hpulled
          rw [List.flatten_nil, List.append_nil, H.message, ClientInfo.message, hprot] at hm
          exact Except.ok.inj hm
        · obtain ⟨h', hh', -, hpull⟩ := H.pullChunk_protocol hm
          rw [Http.pullChunks_eq hnone, hpull] at hpulled
          obtain rfl : h' = h := Option.some.inj (Except.ok.inj hpulled)
          exact hh'
      have hsome := ((reached_flush h.toHttpMessage _ _).mp hreach).1
      rw [hmsg, hp] at hsome
      cases hsome

/-- The dispatch after a read, by the bytes that the connection has brought. What is held counts
as long as it was not put out at the end of the stream. -/
theorem atOnce_dispatched_iff (H : AtOnce rena .requester peer fd x c)
    (hbrings : ev.stop ≠ .closed → ev.chunks ≠ [])
    (hfit : ReadFits rena .requester peer c fd ev)
    (hm : atOnce rena .requester peer (x ++ ev.chunks.flatten) = .ok m) :
    (∃ c' ret freed, clientDoRead rena .requester peer c fd ev = .ok (c', .dispatch ret freed)) ↔
      m.Reached (x ++ ev.chunks.flatten).length
        (if ev.stop = .closed then 0 else m.lookupTree.getHoldingSize) := by
  by_cases hstop : ev.stop = .closed
  · rw [if_pos hstop]
    by_cases hp : m.payload.isSome
    · obtain ⟨h, hh, hrecv, hread⟩ := H.read_closed hstop hfit hm hp
      have hheld : h.flushPendingDataToBuffer.lookupTree.getHoldingSize = 0 := by
        simp [Http.flushPendingDataToBuffer, getHoldingSize, clearInput]
      have hcount : h.flushPendingDataToBuffer.bufferRecv =
          (x ++ ev.chunks.flatten).length := hrecv
      rw [dispatched_iff hread, Http.dispatch_iff, hheld, hcount, ← hh]
      exact reached_flush h.toHttpMessage _ _
    · have hnone : m.payload = none := by simpa using hp
      exact iff_of_false (not_dispatched_closed H hstop hfit hm hnone) fun h => hp h.1
  · rw [if_neg hstop]
    obtain ⟨h, hh, hrecv, hread⟩ := H.read_open hstop (hbrings hstop) hfit hm
    rw [dispatched_iff hread, Http.dispatch_iff, hrecv, ← hh]

end Last

/-! ## One read of the request -/

section Completion
variable {bytes : List UInt8} {d : Completion}

/-- Where the header block of some bytes ends, and what one read makes of the bytes before and
behind that. -/
theorem atOnce_of_completed
    (hd : (HttpMessage.create rena .requester).completed rena .requester peer bytes = some d) :
    ∃ front, bytes = front ++ d.rest ∧ d.done.payload.isSome ∧
      (∀ x, x <+: bytes → x.length < front.length →
        ∃ m, atOnce rena .requester peer x = .ok m ∧ m.payload = none) ∧
      ∀ y, ∃ m out, atOnce rena .requester peer (front ++ y) = .ok m ∧ Appended d.done m out ∧
        m.lookupTree.input = heldAfter d.done.lookupTree y ∧
        rewrite d.done.lookupTree y = .ok (out ++ m.lookupTree.input) := by
  obtain ⟨-, hp, front, hbytes, hfront, hbefore⟩ :=
    completed_spec rfl (expectedPayload_create rena .requester) hd
  refine ⟨front, hbytes, hp, hbefore, fun y => ?_⟩
  have H := consistent_pullBytes (consistent_lookupTree rena .requester) hfront
  obtain ⟨m, hm⟩ : ∃ m, d.done.pullBytes rena .requester peer y = .ok m :=
    exists_pullBytes_body H hp y
  obtain ⟨out, hrun, happ⟩ := pullBytes_body hp hm
  refine ⟨m, out, ?_, happ, (heldAfter_eq hp hm).symm, ?_⟩
  · rw [atOnce_append, atOnce, hfront]
    exact hm
  · rw [rewrite, hrun]
    simp [getHolding, bind, Except.bind, pure, Except.pure]

/-- The total that the protocol then expects is the one that the header block announces. -/
theorem announcedTotal_of_completed
    (hd : (HttpMessage.create rena .requester).completed rena .requester peer bytes = some d) :
    d.done.PayloadWithin ∧ ∃ b, d.read.recorded rena.suffix = .ok b ∧
      b.announcedTotal =
        if 0 ≤ d.done.expectedPayload then some d.done.expectedPayload else none := by
  obtain ⟨⟨hnone, hneg, heval⟩, hp, -⟩ :=
    completed_spec rfl (expectedPayload_create rena .requester) hd
  exact expectedPayload_evaluateHeaders hnone hneg heval hp

end Completion

/-! ## When a request is complete -/

/-- All that one read of the request writes finds room in the block, and so would what is held
after any of its bytes. -/
structure Readable (rena : Rena) (peer : Option HttpMessage) (q : Request) : Prop where
  fits : BytesFit rena .requester peer (.create rena .requester) q.bytes
  flushes : ∀ x, x <+: q.bytes → OnOk HeldFits (atOnce rena .requester peer x)

/-- How many bytes it takes to complete the header block. -/
def Request.headLength (q : Request) (d : Completion) : ℕ := q.bytes.length - d.rest.length

/-- The announced total is the size of the request as it is received, unless no byte is to come
behind the header block; and no byte of the body leaves as many held as are to come. -/
structure JudgedRightly (q : Request) (d : Completion) (b : HttpMessage) : Prop where
  early : q.headLength d ≤ q.total
  counted : ∀ t ∈ b.announcedTotal,
    toInt32 (q.headLength d) + (q.bytes.length - q.headLength d : ℕ) < 2 ^ 31
  reached : ∀ t ∈ b.announcedTotal, t ≤ toInt32 q.total
  awaited : q.headLength d < q.total → b.announcedTotal = some (toInt32 q.total)
  held : ∀ y, y <+: d.rest → q.headLength d + y.length < q.total →
    q.headLength d + y.length + (heldAfter d.done.lookupTree y).length < q.total

section Complete
variable {d : Completion} {b : HttpMessage}

/-- What one read of some first bytes comes to, where the request is judged rightly. -/
theorem JudgedRightly.reached_iff (H : JudgedRightly q d b)
    (hd : (HttpMessage.create rena .requester).completed rena .requester peer q.bytes = some d)
    (hb : d.read.recorded rena.suffix = .ok b) {x : List UInt8} (hx : x <+: q.bytes) :
    ∃ m, atOnce rena .requester peer x = .ok m ∧ ¬ m.ReachedByForce x.length ∧
      ∀ held ≤ m.lookupTree.getHoldingSize, m.Reached x.length held ↔ q.total ≤ x.length := by
  obtain ⟨front, hbytes, hp, hbefore, hbehind⟩ := atOnce_of_completed hd
  have hlen : q.headLength d = front.length := by
    rw [Request.headLength, hbytes, List.length_append]
    omega
  have hxlen := hx.length_le
  have hall := q.total_le
  have hearly := H.early
  rw [hlen] at hearly
  rcases Nat.lt_or_ge x.length front.length with hlt | hge
  · obtain ⟨m, hm, hnone⟩ := hbefore x hx hlt
    refine ⟨m, hm, fun h => ?_, fun held _ => iff_of_false (fun h => ?_) (by omega)⟩
    · simpa [hnone] using h.1.1
    · simpa [hnone] using h.1
  · have hfront : front <+: x :=
      List.prefix_of_prefix_length_le (hbytes ▸ List.prefix_append _ _) hx hge
    obtain ⟨y, rfl⟩ := hfront
    rw [hbytes] at hx
    have hy := (List.prefix_append_right_inj front).mp hx
    obtain ⟨m, out, hm, happ, hheld, -⟩ := hbehind y
    obtain ⟨-, b', hb', htotal⟩ := announcedTotal_of_completed hd
    obtain rfl : b = b' := Except.ok.inj (hb.symm.trans hb')
    rw [List.length_append] at hxlen ⊢
    have hpay : m.payload.isSome := happ.payload ▸ hp
    -- the count of the bytes behind the block does not leave the `int`
    have hcount : 0 ≤ m.expectedPayload → ∀ n ≤ q.bytes.length - front.length,
        toInt32 ((front.length + n : ℕ) : ℤ) = toInt32 front.length + n := by
      intro hpos n hn
      rw [happ.expectedPayload] at hpos
      rw [if_pos hpos] at htotal
      have hlt := H.counted _ htotal
      rw [hlen] at hlt
      rw [Nat.cast_add, toInt32_add (by omega)]
    have hreach : q.total ≤ front.length + y.length → 0 ≤ m.expectedPayload →
        m.expectedPayload ≤ toInt32 ((front.length + y.length : ℕ) : ℤ) := by
      intro hend hpos
      have hy' := hcount hpos y.length (by omega)
      have htot := hcount hpos (q.total - front.length) (by omega)
      rw [Nat.add_sub_cancel' hearly] at htot
      rw [happ.expectedPayload] at hpos ⊢
      rw [if_pos hpos] at htotal
      have := H.reached _ htotal
      omega
    have hmissing : front.length + y.length < q.total → 0 ≤ m.expectedPayload ∧
        toInt32 ((front.length + y.length : ℕ) : ℤ) + m.lookupTree.getHoldingSize <
          m.expectedPayload := by
      intro hlt
      have hawait := H.awaited (by omega)
      rw [htotal] at hawait
      have hpos : 0 ≤ d.done.expectedPayload := by
        by_contra hneg
        rw [if_neg hneg] at hawait
        cases hawait
      rw [if_pos hpos] at hawait
      have hexp := Option.some.inj hawait
      rw [← happ.expectedPayload] at hpos hexp
      have hsmall := H.held y hy (by omega)
      rw [hlen] at hsmall
      have hsum : y.length + (heldAfter d.done.lookupTree y).length < q.total - front.length := by
        omega
      have htot := hcount hpos (q.total - front.length) (by omega)
      have hy' := hcount hpos y.length (Nat.le_sub_of_add_le' hxlen)
      rw [Nat.add_sub_cancel' hearly] at htot
      refine ⟨hpos, ?_⟩
      rw [getHoldingSize, hheld, hexp, htot, hy', add_assoc]
      exact Int.add_lt_add_left (by exact_mod_cast hsum) _
    refine ⟨m, hm, ?_, fun held hle => ⟨?_, ?_⟩⟩
    · rintro ⟨⟨-, hforce⟩, hpos, hlt⟩
      rcases Nat.lt_or_ge (front.length + y.length) q.total with h | h
      · have := (hmissing h).2
        have := hforce hpos
        omega
      · have := hreach h hpos
        omega
    · rintro ⟨-, hinReach⟩
      by_contra hlt
      obtain ⟨hpos, hout⟩ := hmissing (by omega)
      have := hinReach hpos
      omega
    · intro hend
      refine ⟨hpay, fun hpos => ?_⟩
      have := hreach hend hpos
      omega

/-- Every way to read a request that is judged rightly stays in the block, and the dispatch comes
when all bytes are there. -/
theorem JudgedRightly.dispatches_iff (H : JudgedRightly q d b) (hread : Readable rena peer q)
    (hd : (HttpMessage.create rena .requester).completed rena .requester peer q.bytes = some d)
    (hb : d.read.recorded rena.suffix = .ok b) (s : q.Reading) :
    s.result rena peer ≠ .error .overrun ∧ (s.Dispatches rena peer ↔ q.total ≤ s.received) := by
  have hraw : s.raw <+: q.bytes := s.bytes
  have hbefore : (s.before.flatMap (·.chunks)).flatten <+: q.bytes :=
    (List.prefix_append _ _).trans (s.raw_eq ▸ hraw)
  have hfits : ∀ x, x <+: q.bytes → BytesFit rena .requester peer (.create rena .requester) x := by
    rintro x ⟨y, hy⟩
    exact (bytesFit_append.mp (hy ▸ hread.fits)).1
  obtain ⟨c, hc, hone⟩ := atOnce_clientReads (atOnce_fresh rena .requester peer s.fd s.ssl)
    s.stays_open (hfits _ hbefore) fun y hy => by
      obtain ⟨m, hm, hquiet, -⟩ := H.reached_iff hd hb (hy.trans hbefore)
      exact ⟨m, hm, hquiet⟩
  rw [List.nil_append] at hone
  obtain ⟨m, hm, hquiet, hreach⟩ := H.reached_iff hd hb hraw
  rw [s.raw_eq] at hm hquiet hreach hraw
  have hfit : ReadFits rena .requester peer c s.fd s.last :=
    hone.readFits hm (hfits _ hraw) s.brings fun hput => by
      rcases hput with - | hforce
      · exact hread.flushes _ hraw m hm
      · exact absurd hforce hquiet
  have hresult : s.result rena peer = clientDoRead rena .requester peer c s.fd s.last := by
    rw [Request.Reading.result, hc, bind_ok]
  refine ⟨?_, ?_⟩
  · rw [hresult]
    exact clientDoRead_ne_error (by decide) (by decide) (by decide) hfit
  · rw [Request.Reading.Dispatches, hresult, atOnce_dispatched_iff hone s.brings hfit hm,
      Request.Reading.received, s.raw_eq]
    exact hreach _ (by split <;> simp)

/-! The other way round the reads in one piece tell. -/

section Once
variable {x : List UInt8} {m : HttpMessage} (hx : x <+: q.bytes)

theorem readFits_once {stop : ReadEnd}
    (hne : (Request.Reading.once hx stop).result rena peer ≠ .error .overrun) :
    ReadFits rena .requester peer (.fresh 0 false) 0 ⟨[x], stop⟩ := by
  by_contra hfit
  rw [Request.Reading.result_once, clientDoRead, if_pos hfit] at hne
  exact hne rfl

theorem dispatches_once_iff {stop : ReadEnd}
    (hne : (Request.Reading.once hx stop).result rena peer ≠ .error .overrun)
    (hm : atOnce rena .requester peer x = .ok m) :
    (Request.Reading.once hx stop).Dispatches rena peer ↔
      m.Reached x.length (if stop = .closed then 0 else m.lookupTree.getHoldingSize) := by
  have hiff := atOnce_dispatched_iff (atOnce_fresh rena .requester peer 0 false) (by simp)
    (readFits_once hx hne) (by simpa using hm)
  simpa [Request.Reading.Dispatches, Request.Reading.result_once] using hiff

/-- A dispatch tells that one read of the bytes has a result. -/
theorem exists_atOnce_of_dispatches
    (h : (Request.Reading.once hx .retry).Dispatches rena peer) :
    ∃ m, atOnce rena .requester peer x = .ok m := by
  obtain ⟨c, ret, freed, hok⟩ := h
  rw [Request.Reading.result_once] at hok
  have hfd : (ClientInfo.fresh 0 false).fd = 0 := rfl
  rw [clientDoRead_open hfd (by simp) (by simp) (readFits_of_clientDoRead hok), bind_eq_ok] at hok
  obtain ⟨h, hpull, -⟩ := hok
  rw [Http.pullChunk, bind_eq_ok] at hpull
  obtain ⟨m, hm, -⟩ := hpull
  exact ⟨m, by rwa [List.flatten_cons, List.flatten_nil, List.append_nil] at hm⟩

theorem heldFits_once (hne : (Request.Reading.once hx .closed).result rena peer ≠ .error .overrun) :
    OnOk HeldFits (atOnce rena .requester peer x) := by
  intro m hm
  obtain ⟨-, hheld, -⟩ := readFits_once hx hne rfl
  obtain ⟨h, hh, -, hpull⟩ := (atOnce_fresh rena .requester peer 0 false).pullChunk_protocol
    (y := x) (by simpa using hm)
  have hpulled : Http.pullChunks rena .requester peer none [x] = .ok (some h) := by
    rw [Http.pullChunks_eq (by simp), List.flatten_cons, List.flatten_nil, List.append_nil]
    exact bind_eq_ok.mpr ⟨h, hpull, rfl⟩
  have := hheld rfl (some h) hpulled h rfl
  rwa [hh] at this

end Once

/-- A count that is below `t` up to some number, and not below it from there on, does not leave
the `int` on the way. -/
theorem toInt32_count {j n : ℕ} (total : ℕ) {t : ℤ} (hpos : 0 ≤ t) (hint : t < 2 ^ 31)
    (hend : ∀ k ≤ n, total ≤ j + k → t ≤ toInt32 (j + k : ℕ))
    (hbelow : ∀ k ≤ n, j + k < total → toInt32 (j + k : ℕ) < t) :
    toInt32 j + (n : ℤ) < 2 ^ 31 := by
  by_contra hleave
  have hlt : toInt32 j < 2 ^ 31 := Int.bmod_lt (by decide)
  obtain ⟨k, hk⟩ := Int.eq_ofNat_of_zero_le (sub_nonneg.mpr hlt.le)
  have hkn : k ≤ n := by
    generalize toInt32 j = a at *
    omega
  have hkpos : 0 < k := by
    generalize toInt32 j = a at *
    omega
  -- there the count goes on from the other end
  have hwrap : toInt32 (j + k : ℕ) = -2 ^ 31 := by
    rw [Nat.cast_add]
    exact toInt32_wrap (by rw [← hk]; ring)
  have hlast : toInt32 (j + (k - 1) : ℕ) = 2 ^ 31 - 1 := by
    have hk' : ((k - 1 : ℕ) : ℤ) = 2 ^ 31 - toInt32 j - 1 := by
      rw [hk]
      exact Nat.cast_pred hkpos
    rw [Nat.cast_add, toInt32_add] <;> rw [hk'] <;> linarith
  rcases Nat.lt_or_ge (j + k) total with hin | hout
  · have := hbelow (k - 1) (by omega) (by omega)
    rw [hlast] at this
    linarith
  · have := hend k hkn hout
    rw [hwrap] at this
    linarith

theorem announcedTotal_lt {t : ℤ} (ht : t ∈ b.announcedTotal) : t < 2 ^ 31 := by
  rw [announcedTotal] at ht
  split at ht
  · split at ht
    · obtain rfl := Option.some.inj ht
      exact Int.bmod_lt (by decide)
    · cases ht
  · cases ht

/-- What the reads that end behind the header block tell of the expected total `e` makes a request
that is judged rightly: `e` is reached when all bytes are there, and missed with any byte less. -/
theorem judgedRightly_of_counts {e : ℤ} (hearly : q.headLength d ≤ q.total)
    (hlength : q.bytes.length = q.headLength d + d.rest.length)
    (htotal : b.announcedTotal = if 0 ≤ e then some e else none)
    (hend : ∀ y, y <+: d.rest → q.total ≤ q.headLength d + y.length → 0 ≤ e →
      e ≤ toInt32 (q.headLength d + y.length : ℕ))
    (hmissing : ∀ y, y <+: d.rest → q.headLength d + y.length < q.total → 0 ≤ e ∧
      toInt32 (q.headLength d + y.length : ℕ) + ((heldAfter d.done.lookupTree y).length : ℤ) < e) :
    JudgedRightly q d b := by
  have hall := q.total_le
  have htake : ∀ k ≤ d.rest.length, (d.rest.take k).length = k := fun k hk => by
    rw [List.length_take, Nat.min_eq_left hk]
  have hexp : ∀ t ∈ b.announcedTotal, 0 ≤ e ∧ e < 2 ^ 31 ∧ t = e := by
    intro t ht
    have hlt := announcedTotal_lt ht
    rw [htotal] at ht
    split at ht
    · obtain rfl := Option.some.inj ht
      exact ⟨‹_›, hlt, rfl⟩
    · cases ht
  have hcounted : ∀ t ∈ b.announcedTotal,
      toInt32 (q.headLength d) + (d.rest.length : ℤ) < 2 ^ 31 := by
    intro t ht
    obtain ⟨hpos, hlt, -⟩ := hexp t ht
    refine toInt32_count q.total hpos hlt (fun k hk hin => ?_) fun k hk hin => ?_
    · have := hend (d.rest.take k) (List.take_prefix _ _) (by rwa [htake k hk]) hpos
      rwa [htake k hk] at this
    · have := (hmissing (d.rest.take k) (List.take_prefix _ _) (by rwa [htake k hk])).2
      rw [htake k hk] at this
      linarith
  have hcount : ∀ t ∈ b.announcedTotal, ∀ k ≤ d.rest.length,
      toInt32 (q.headLength d + k : ℕ) = toInt32 (q.headLength d) + k := by
    intro t ht k hk
    have hrest : (k : ℤ) ≤ d.rest.length := by exact_mod_cast hk
    rw [Nat.cast_add, toInt32_add (by linarith [hcounted t ht])]
  have hrest : q.total - q.headLength d ≤ d.rest.length := by omega
  have htotalEnd : ∀ t ∈ b.announcedTotal, t ≤ toInt32 q.total := by
    intro t ht
    obtain ⟨hpos, -, rfl⟩ := hexp t ht
    have := hend (d.rest.take (q.total - q.headLength d)) (List.take_prefix _ _)
      (by rw [htake _ hrest]; omega) hpos
    rwa [htake _ hrest, Nat.add_sub_cancel' hearly] at this
  have hawaited : q.headLength d < q.total → b.announcedTotal = some (toInt32 q.total) := by
    intro hlt
    have hone : ((q.total - q.headLength d : ℕ) : ℤ) = (q.total - 1 - q.headLength d : ℕ) + 1 := by
      omega
    have hpre := htake (q.total - 1 - q.headLength d) (by omega)
    obtain ⟨hpos, hout⟩ := hmissing _ (List.take_prefix (q.total - 1 - q.headLength d) d.rest)
      (by rw [hpre]; omega)
    rw [if_pos hpos] at htotal
    have hle := htotalEnd _ htotal
    have hlast := hcount _ htotal (q.total - 1 - q.headLength d) (by omega)
    have hfull := hcount _ htotal (q.total - q.headLength d) hrest
    rw [hpre] at hout
    rw [Nat.add_sub_cancel' hearly, hone] at hfull
    rw [htotal, le_antisymm hle (by linarith)]
  refine ⟨hearly, fun t ht => ?_, htotalEnd, hawaited, fun y hy hlt => ?_⟩
  · rw [hlength, Nat.add_sub_cancel_left]
    exact hcounted t ht
  · obtain ⟨hpos, hout⟩ := hmissing y hy hlt
    have hawait := hawaited (by omega)
    have hy' := hcount _ hawait y.length hy.length_le
    have hfull := hcount _ hawait (q.total - q.headLength d) hrest
    rw [Nat.add_sub_cancel' hearly] at hfull
    rw [htotal, if_pos hpos] at hawait
    rw [Option.some.inj hawait, hfull, hy', add_assoc] at hout
    have hsum : y.length + (heldAfter d.done.lookupTree y).length < q.total - q.headLength d := by
      exact_mod_cast Int.lt_of_add_lt_add_left hout
    rw [Nat.add_assoc]
    exact Nat.add_lt_of_lt_sub' hsum

/-- If every way to read the request is judged rightly, it is as `JudgedRightly` has it. -/
theorem judgedRightly_of_dispatches
    (H : ∀ s : q.Reading, s.result rena peer ≠ .error .overrun ∧
      (s.Dispatches rena peer ↔ q.total ≤ s.received)) :
    Readable rena peer q ∧ ∃ d b,
      (HttpMessage.create rena .requester).completed rena .requester peer q.bytes = some d ∧
      d.read.recorded rena.suffix = .ok b ∧ JudgedRightly q d b := by
  have hreached : ∀ {x : List UInt8} (hx : x <+: q.bytes) (stop : ReadEnd) {m : HttpMessage},
      atOnce rena .requester peer x = .ok m →
      (m.Reached x.length (if stop = .closed then 0 else m.lookupTree.getHoldingSize) ↔
        q.total ≤ x.length) := by
    intro x hx stop m hm
    rw [← dispatches_once_iff hx (H _).1 hm, (H _).2, Request.Reading.received,
      Request.Reading.raw_once]
  have hwhole := List.prefix_refl q.bytes
  have hdispatch : (Request.Reading.once hwhole .retry).Dispatches rena peer := by
    rw [(H _).2, Request.Reading.received, Request.Reading.raw_once]
    exact q.total_le
  obtain ⟨m, hm⟩ := exists_atOnce_of_dispatches hwhole hdispatch
  have hsome := ((hreached hwhole .retry hm).mpr q.total_le).1
  obtain ⟨d, hd⟩ := exists_completed rfl (expectedPayload_create rena .requester) hm hsome
  obtain ⟨-, b, hb, htotal⟩ := announcedTotal_of_completed hd
  obtain ⟨front, hbytes, hp, hbefore, hbehind⟩ := atOnce_of_completed hd
  have hlength : q.bytes.length = front.length + d.rest.length := by
    rw [hbytes, List.length_append]
  have hlen : q.headLength d = front.length := by
    rw [Request.headLength, hlength, Nat.add_sub_cancel]
  refine ⟨⟨?_, fun x hx => heldFits_once hx (H _).1⟩, d, b, hd, hb,
    judgedRightly_of_counts ?_ (hlen ▸ hlength) htotal ?_ ?_⟩
  · have hfit := (readFits_once hwhole (H (.once hwhole .retry)).1 rfl).1
    rwa [List.flatten_cons, List.flatten_nil, List.append_nil] at hfit
  · by_contra hlate
    have hx : q.bytes.take q.total <+: q.bytes := List.take_prefix _ _
    have hxlen : (q.bytes.take q.total).length = q.total := by
      rw [List.length_take, Nat.min_eq_left q.total_le]
    obtain ⟨m, hm, hnone⟩ := hbefore _ hx (by omega)
    have := ((hreached hx .retry hm).mpr hxlen.ge).1
    simp [hnone] at this
  · -- the read that finds the connection closed counts no held bytes
    intro y hy hall hpos
    rw [hlen] at hall ⊢
    obtain ⟨m, out, hm, happ, -⟩ := hbehind y
    have hx : front ++ y <+: q.bytes := hbytes ▸ (List.prefix_append_right_inj front).mpr hy
    have := ((hreached hx .closed hm).mpr (by rwa [List.length_append])).2
    rw [happ.expectedPayload, List.length_append] at this
    simpa using this hpos
  · -- the one that leaves it open does
    intro y hy hlt
    rw [hlen] at hlt ⊢
    obtain ⟨m, out, hm, happ, hheld, -⟩ := hbehind y
    have hx : front ++ y <+: q.bytes := hbytes ▸ (List.prefix_append_right_inj front).mpr hy
    have hnot := mt (hreached hx .retry hm).mp (by rw [List.length_append]; omega)
    rw [HttpMessage.Reached, if_neg (by decide), happ.payload, happ.expectedPayload,
      getHoldingSize, hheld, List.length_append] at hnot
    simp only [hp, true_and, Classical.not_imp, not_le] at hnot
    exact hnot

/-- **When completeness is judged on received bytes**: whichever way the request is read, no read
leaves the block and `http_evaluate` goes on to the dispatch exactly if all bytes of the request
are received, exactly if the writes find room, the total that the header block announces is the
size of the request as it comes, and the body never leaves as many bytes held as are missing. -/
theorem dispatches_iff_received_iff (rena : Rena) (peer : Option HttpMessage) (q : Request) :
    (∀ s : q.Reading, s.result rena peer ≠ .error .overrun ∧
      (s.Dispatches rena peer ↔ q.total ≤ s.received)) ↔
    Readable rena peer q ∧ ∃ d b,
      (HttpMessage.create rena .requester).completed rena .requester peer q.bytes = some d ∧
      d.read.recorded rena.suffix = .ok b ∧ JudgedRightly q d b := by
  constructor
  · exact judgedRightly_of_dispatches
  · rintro ⟨hread, d, b, hd, hb, H⟩ s
    exact H.dispatches_iff hread hd hb s

/-- A proxy with the one rule that turns `abcd` into `R` in requests. -/
def renaPost : Rena := ⟨chars ".proxy", .null, treeBuild [(chars "abcd", some (chars "R"))], .null⟩

/-- A request with a body of 8 bytes at least. -/
def post (body : List UInt8) (length_le : 8 ≤ body.length) : Request where
  block := chars "POST / HTTP/1.0\r\nHost: a.proxy\r\nContent-Length: 8\r\n\r\n"
  length := 8
  body := body
  block_ends := by decide +kernel
  announces := by decide +kernel
  length_le := length_le

/-- With the key in the body. -/
def postAbcd : Request := post (chars "//abcd x") (by decide)

/-- With three of the 8 bytes missing, the three that are held count for them. -/
theorem dispatches_early : ∃ s : postAbcd.Reading,
    s.received + 3 = postAbcd.total ∧ s.Dispatches renaPost none := by
  have hx : postAbcd.block ++ chars "//abc" <+: postAbcd.bytes :=
    (List.prefix_append_right_inj _).mpr (by decide)
  obtain ⟨⟨c, e⟩, hok, he⟩ := exists_ok_of_check (p := fun r => r.2 = .dispatch 1 false)
    (x := clientDoRead renaPost .requester none (.fresh 0 false) 0
      ⟨[postAbcd.block ++ chars "//abc"], .retry⟩) (by decide +kernel)
  refine ⟨.once hx .retry, ?_, c, 1, false, ?_⟩
  · rw [Request.Reading.received, Request.Reading.raw_once]
    decide +kernel
  · rw [Request.Reading.result_once, hok, ← of_decide_eq_true he]

end Complete

/-! ## What stays behind -/

section Behind
variable {d : Completion} {b : HttpMessage}

/-- A dispatch finds a protocol whose books are right, and forces out what is held if the total
is in reach only with that. -/
theorem Request.Reading.dispatched {s : q.Reading} {c : ClientInfo} {ret : ℤ} {freed : Bool}
    (hok : s.result rena peer = .ok (c, .dispatch ret freed)) :
    ∃ h : Http, c.protocol = some h.evaluated ∧ Ledger rena .requester peer s.raw h ∧
      h.Reached s.received h.lookupTree.getHoldingSize := by
  rw [Request.Reading.result, bind_eq_ok] at hok
  obtain ⟨c₀, hreads, hlast⟩ := hok
  have hstart : ClientLedger rena .requester peer s.fd [] (.fresh s.fd s.ssl) :=
    fun _ => ledger_create
  have hbooks := ledger_clientReads s.fd_nonneg hstart hreads
  obtain ⟨c₁, ret₁, hpull, hend⟩ := clientDoRead_cases hlast
  rcases hend with ⟨hret, -, he⟩ | ⟨rfl, h, hprot, rfl, he⟩
  · cases he
  · have hreach := (h.dispatch_iff c₁.fd).mp ⟨ret, freed, he.symm⟩
    have hledger : Ledger rena .requester peer s.raw h := by
      rcases httpPull_cases hpull with ⟨-, -, hret⟩ | ⟨hfd, p, hp, hlast⟩
      · omega
      · have hpulled := (hbooks hfd).pullChunks hp
        rw [List.nil_append, ← s.raw_eq] at hpulled
        rcases hlast with ⟨-, -, hprot', -⟩ | ⟨-, -, hprot', -⟩
        · obtain ⟨h₀, rfl, rfl⟩ := Option.map_eq_some_iff.mp (hprot'.symm.trans hprot)
          exact hpulled.flush ((reached_flush h₀.toHttpMessage _ _).mp hreach).1
        · rw [← hprot', hprot] at hpulled
          exact hpulled
    rw [hledger.received] at hreach
    exact ⟨h, rfl, hledger, hreach⟩

/-- The bytes that the matcher looks at from the end of the header block on, when `y` was read
behind it: what it holds there, and what the context of the payload allows of `y`. -/
def HttpMessage.Completion.lookedAt (d : Completion) (y : List UInt8) : List UInt8 :=
  d.done.lookupTree.input ++ RenaProxy.processed d.done.lookupTree.context (y.map .byte)

/-- The last byte leaves nothing to be held: no ending of what the matcher looks at begins a key,
and no key is pending before that byte, if it looks at it. If nothing follows the header block,
that leaves nothing itself. -/
def HttpMessage.Completion.LeavesNothing (rena : Rena) (d : Completion) : Prop :=
  if d.rest = [] then d.done.lookupTree.input = []
  else
    NoneBegun (treeLexicon rena.neverRules rena.toServer) ((d.lookedAt d.rest).map tolower) ∧
      (d.lookedAt d.rest.dropLast ≠ d.lookedAt d.rest →
        NonePending (treeLexicon rena.neverRules rena.toServer)
          ((d.lookedAt d.rest.dropLast).map tolower))

/-- That is when the matcher holds nothing behind it. -/
theorem heldAfter_rest_eq_nil_iff
    (hd : (HttpMessage.create rena .requester).completed rena .requester peer q.bytes = some d) :
    heldAfter d.done.lookupTree d.rest = [] ↔ d.LeavesNothing rena := by
  obtain ⟨C, H⟩ := looked_of_completed (consistent_lookupTree rena .requester) hd
  rw [Completion.LeavesNothing]
  rcases List.eq_nil_or_concat d.rest with hnil | ⟨text, b, hrest⟩
  · rw [if_pos hnil, hnil]
    rfl
  · rw [List.concat_eq_append] at hrest
    rw [if_neg (by simp [hrest]), hrest, List.dropLast_concat]
    exact heldAfter_concat_eq_nil_iff H C text b

/-- The last byte leaves nothing to be held, or the total that the header block announces is more
than the size of the request. -/
def Settled (rena : Rena) (peer : Option HttpMessage) (q : Request) : Prop :=
  ∀ d b, (HttpMessage.create rena .requester).completed rena .requester peer q.bytes = some d →
    d.read.recorded rena.suffix = .ok b →
    d.LeavesNothing rena ∨ ∃ t ∈ b.announcedTotal, toInt32 q.bytes.length < t

/-- Once all bytes are read, a dispatch leaves nothing held if the last byte does, or if the total
is in reach only with what is held. -/
theorem evaluated_of_settled
    (hd : (HttpMessage.create rena .requester).completed rena .requester peer q.bytes = some d)
    (hb : d.read.recorded rena.suffix = .ok b)
    (hsettled : d.LeavesNothing rena ∨ ∃ t ∈ b.announcedTotal, toInt32 q.bytes.length < t)
    {h : Http}
    (hbooks : Ledger rena .requester peer q.bytes h)
    (hreach : h.Reached q.bytes.length h.lookupTree.getHoldingSize) :
    ∃ m out, atOnce rena .requester peer q.bytes = .ok m ∧ Appended d.done m out ∧
      rewrite d.done.lookupTree d.rest = .ok (out ++ m.lookupTree.input) ∧
      h.evaluated.lookupTree.getHoldingSize = 0 ∧ h.evaluated.buffer = m.text := by
  obtain ⟨d', m, hd', hp, hm, hforced⟩ := hbooks.booked.behind hreach.1
  obtain rfl : d = d' := Option.some.inj (hd.symm.trans hd')
  obtain ⟨-, b', hb', htotal⟩ := announcedTotal_of_completed hd
  obtain rfl : b = b' := Except.ok.inj (hb.symm.trans hb')
  obtain ⟨front, hbytes, -, -, hbehind⟩ := atOnce_of_completed hd
  obtain ⟨m', out, hm', happ', -, hout⟩ := hbehind d.rest
  have hsame : m' = m := by
    obtain ⟨-, -, front', hbytes', hfront, -⟩ :=
      completed_spec rfl (expectedPayload_create rena .requester) hd
    obtain rfl : front' = front := List.append_cancel_right (hbytes'.symm.trans hbytes)
    rw [atOnce_append, atOnce, hfront, bind_ok, hm] at hm'
    exact (Except.ok.inj hm').symm
  subst hsame
  refine ⟨m', out, hbytes ▸ hm', happ', hout, ?_⟩
  obtain ⟨more, happ⟩ := hforced.appended
  have hforce := h.forcesFlush_iff_reachedByForce
  rw [Http.evaluated]
  by_cases hf : h.forcesFlush
  · rw [if_pos hf]
    refine ⟨?_, ?_⟩
    · simp [Http.flushPendingDataToBuffer, getHoldingSize, clearInput]
    · exact (buffer_flushPendingDataToBuffer h.toHttpMessage).trans hforced.text
  · rw [if_neg hf]
    have hnone : h.lookupTree.input = [] := by
      rcases hsettled with hheld | ⟨t, ht, hlt⟩
      · rw [← heldAfter_rest_eq_nil_iff hd, heldAfter_eq hp hm] at hheld
        exact List.suffix_nil.mp (hheld ▸ hforced.input)
      · refine absurd (hforce.mpr ?_) hf
        rw [hbooks.received]
        rw [htotal] at ht
        split at ht
        · rename_i hpos
          obtain rfl := Option.some.inj ht
          rw [← happ.expectedPayload] at hpos hlt
          exact ⟨hreach, hpos, hlt⟩
        · cases ht
    refine ⟨by rw [getHoldingSize, hnone, List.length_nil], ?_⟩
    rw [← hforced.text, HttpMessage.text, hnone, List.append_nil]

/-- All of the request in one read that leaves the connection open. -/
theorem result_whole_open {m : HttpMessage}
    (hfits : BytesFit rena .requester peer (.create rena .requester) q.bytes)
    (hm : atOnce rena .requester peer q.bytes = .ok m)
    (hheld : m.ReachedByForce q.bytes.length → m.HeldFits) :
    ∃ h : Http, h.toHttpMessage = m ∧ h.bufferRecv = q.bytes.length ∧
      (Request.Reading.once (List.prefix_refl q.bytes) .retry).result rena peer =
        .ok ({ ClientInfo.fresh 0 false with protocol := some h.evaluated },
          h.evaluation .requester 0) := by
  have hstart := atOnce_fresh rena .requester peer 0 false
  have hflat : [] ++ [q.bytes].flatten = q.bytes := by simp
  have hfit : ReadFits rena .requester peer (.fresh 0 false) 0 ⟨[q.bytes], .retry⟩ :=
    hstart.readFits (hflat.symm ▸ hm) (hflat.symm ▸ hfits) (by simp) fun h => by
      rw [hflat] at h
      exact hheld (h.resolve_left (by simp))
  obtain ⟨h, hh, hrecv, hread⟩ := hstart.read_open (by simp) (by simp) hfit (hflat.symm ▸ hm)
  exact ⟨h, hh, hflat ▸ hrecv, hread⟩

/-- All of the request in one read that finds the connection closed behind it. -/
theorem result_whole_closed {m : HttpMessage}
    (hfits : BytesFit rena .requester peer (.create rena .requester) q.bytes)
    (hm : atOnce rena .requester peer q.bytes = .ok m) (hp : m.payload.isSome)
    (hheld : m.HeldFits) :
    ∃ h : Http, h.toHttpMessage = m ∧ h.bufferRecv = q.bytes.length ∧
      (Request.Reading.once (List.prefix_refl q.bytes) .closed).result rena peer =
        .ok (⟨-1, false, 0, some h.flushPendingDataToBuffer⟩,
          h.flushPendingDataToBuffer.evaluation .requester (-1)) := by
  have hstart := atOnce_fresh rena .requester peer 0 false
  have hflat : [] ++ [q.bytes].flatten = q.bytes := by simp
  have hfit : ReadFits rena .requester peer (.fresh 0 false) 0 ⟨[q.bytes], .closed⟩ :=
    hstart.readFits (hflat.symm ▸ hm) (hflat.symm ▸ hfits) (by simp) fun _ => hheld
  obtain ⟨h, hh, hrecv, hread⟩ := hstart.read_closed rfl hfit (hflat.symm ▸ hm) hp
  exact ⟨h, hh, hflat ▸ hrecv, hread⟩

/-- Nothing of the request stays behind: however it is read, once all of its bytes are and
`http_evaluate` has dispatched it, the matcher holds nothing, and the text that one read makes
of it is in the forward buffer. -/
def NothingBehind (rena : Rena) (peer : Option HttpMessage) (q : Request) : Prop :=
  ∀ (s : q.Reading) (c : ClientInfo) (ret : ℤ) (freed : Bool), s.raw = q.bytes →
    s.result rena peer = .ok (c, .dispatch ret freed) →
    ∃ (h : Http) (m : HttpMessage), c.protocol = some h ∧ h.lookupTree.getHoldingSize = 0 ∧
      atOnce rena .requester peer q.bytes = .ok m ∧ h.buffer = m.text

end Behind

/-! ## The announced length -/

section Framing
variable {d : Completion} {b : HttpMessage}

/-- What `Content-Length` says in the header block that is passed on, if it is still there, is the
length of what the rewriter makes of the body, and the end of the body does not stay behind; or
the announced total is more than all that is received and held comes to, and no dispatch comes. -/
def Framed (rena : Rena) (peer : Option HttpMessage) (q : Request) : Prop :=
  ∀ d b out, (HttpMessage.create rena .requester).completed rena .requester peer q.bytes = some d →
    d.read.recorded rena.suffix = .ok b → rewrite d.done.lookupTree d.rest = .ok out →
    (∀ t ∈ b.announcedTotal,
      t ≤ toInt32 q.bytes.length + ((heldAfter d.done.lookupTree d.rest).length : ℤ)) →
    ∀ v ∈ d.done.headerPart.announcedLength,
      (d.LeavesNothing rena ∨ ∃ t ∈ b.announcedTotal, toInt32 q.bytes.length < t) ∧
      v = d.done.buffer.length + out.length - (d.done.payload.getD 0 : ℕ)

/-- The framing of the request survives: however it is read, once all of its bytes are and
`http_evaluate` has dispatched it, a `Content-Length` in the forward buffer says how many bytes
follow the header block there. -/
def FramingSurvives (rena : Rena) (peer : Option HttpMessage) (q : Request) : Prop :=
  ∀ (s : q.Reading) (c : ClientInfo) (ret : ℤ) (freed : Bool), s.raw = q.bytes →
    s.result rena peer = .ok (c, .dispatch ret freed) →
    ∃ (h : Http) (p : ℕ), c.protocol = some h ∧ h.payload = some p ∧
      ∀ v ∈ h.headerPart.announcedLength, v = h.buffer.length - (p : ℤ)

/-- The header part and the payload of a protocol, by its books. -/
theorem Ledger.headerPart_evaluated
    (hd : (HttpMessage.create rena .requester).completed rena .requester peer q.bytes = some d)
    {h : Http} (hbooks : Ledger rena .requester peer q.bytes h) (hp : h.payload.isSome) :
    h.evaluated.headerPart.announcedLength = d.done.headerPart.announcedLength ∧
      h.evaluated.payload = d.done.payload := by
  have hpay : h.evaluated.payload = h.payload := by
    rw [Http.evaluated]
    split
    · exact payload_flushPendingDataToBuffer _
    · rfl
  obtain ⟨d', m, hd', -, -, hforced⟩ := hbooks.evaluated.booked.behind (hpay ▸ hp)
  obtain rfl : d = d' := Option.some.inj (hd.symm.trans hd')
  obtain ⟨out, happ⟩ := hforced.appended
  exact ⟨announcedLength_headerPart (announcedTotal_of_completed hd).1 happ, happ.payload⟩

/-- What `Content-Length` says in a protocol that was dispatched, by what was appended to the
header block in it. -/
theorem FramingSurvives.value (H : FramingSurvives rena peer q) {s : q.Reading} {c : ClientInfo}
    {ret : ℤ} {freed : Bool} (hall : s.raw = q.bytes)
    (hok : s.result rena peer = .ok (c, .dispatch ret freed)) {h : Http}
    (hprot : c.protocol = some h) {m : HttpMessage} {o : List UInt8} (hwithin : m.PayloadWithin)
    (happ : Appended m h.toHttpMessage o) {v : ℤ} (hv : v ∈ m.headerPart.announcedLength) :
    v = m.buffer.length + o.length - (m.payload.getD 0 : ℕ) := by
  obtain ⟨h', p, hprot', hp, hvalue⟩ := H s c ret freed hall hok
  obtain rfl : h = h' := Option.some.inj (hprot.symm.trans hprot')
  rw [announcedLength_headerPart hwithin happ] at hvalue
  rw [hvalue v hv, happ.buffer, ← happ.payload, hp, List.length_append, Nat.cast_add,
    Option.getD_some]

end Framing

end RenaProxy
