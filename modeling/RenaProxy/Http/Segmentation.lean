import RenaProxy.Http.Reads

/-!
# Where the network cuts a response

A response is read in pieces of any sizes, by any number of events. Cutting it
elsewhere changes when `http_evaluate` runs, and this only matters when it forces held
bytes out. As long as no candidate is alive then, the message and what the matcher
holds together stay what one long read gives (`finalContents_eq`), be the block of the
buffer as large as it may: how large it is depends on the cuts, and each of the two ways to
read has to stay in its own.
-/
namespace RenaProxy
open Failure DatabaseObject

/-! ## Held and put out -/

/-- What a verdict on `b` makes of all the text so far, put out or held. -/
def Verdict.apply (total : List UInt8) (b : UInt8) : Verdict → List UInt8
  | hold => total ++ [b]
  | release => total ++ [b]
  | swap n o => total.take (total.length - n) ++ o ++ [b]

/-- A reaction moves text from the matcher to the buffer. What both have together
depends on the verdict alone. -/
theorem text_act {κ : Type} {d d' : DatabaseObject κ} {b : UInt8} {v : Verdict} {r : Reaction}
    (hok : d.act b v = .ok (d', r)) (out : List UInt8) :
    out ++ r.text ++ d'.input = v.apply (out ++ d.input) b ∧ d'.core = d.core := by
  cases v with
  | hold =>
      obtain ⟨rfl, rfl⟩ := Prod.mk.inj (Except.ok.inj hok)
      exact ⟨by simp [Reaction.text, addInput, Verdict.apply], rfl⟩
  | release =>
      obtain ⟨rfl, rfl⟩ := Prod.mk.inj (Except.ok.inj hok)
      exact ⟨by simp [Reaction.text, addInput, clearInput, Verdict.apply], rfl⟩
  | swap n o =>
      by_cases hn : d.input.length < n
      · simp [act, hn] at hok
      · rw [act, if_neg hn] at hok
        obtain ⟨rfl, rfl⟩ := Prod.mk.inj (Except.ok.inj hok)
        refine ⟨?_, rfl⟩
        have hlen : (out ++ d.input).length - n = out.length + (d.input.length - n) := by
          rw [List.length_append]
          omega
        have htake : (out ++ d.input).take ((out ++ d.input).length - n) =
            out ++ d.input.take (d.input.length - n) := by
          rw [hlen, List.take_length_add_append]
        simp only [Verdict.apply, htake]
        simp [Reaction.text, addInput, clearInput]

namespace HttpMessage
variable {rena : Rena} {type : ClientType} {peer : Option HttpMessage}

/-- All the text of a message: what is in the buffer and what the matcher holds. -/
def text (h : HttpMessage) : List UInt8 := h.buffer ++ h.lookupTree.input

/-- Two states of a message that differ, behind the header block, only in how much of
the text is still held. -/
structure Same (m m' : HttpMessage) : Prop where
  consistent : m.lookupTree.Consistent
  consistent' : m'.lookupTree.Consistent
  core : m.lookupTree.core = m'.lookupTree.core
  text : m.text = m'.text
  same : m = m' ∨ (m.payload.isSome ∧ m'.payload.isSome)

theorem Same.refl {m : HttpMessage} (H : m.lookupTree.Consistent) : Same m m :=
  ⟨H, H, rfl, rfl, .inl rfl⟩

/-- Behind the header block a byte is for the matcher alone. -/
theorem pullByte_payload {m : HttpMessage} (hp : m.payload.isSome) (b : UInt8) :
    m.pullByte rena type peer b = databaseStep m.lookupTree b >>= fun x =>
      .ok ({ m with lookupTree := x.1 }.appendReaction x.2) := by
  rw [pullByte_eq]
  congr 1
  funext x
  have hsome : (({ m with lookupTree := x.1 } : HttpMessage).appendReaction x.2).payload.isSome := by
    rw [(appended_appendReaction _ x.2).payload]
    exact hp
  simp only [checkDelimiterHeader_of_payload hsome, Bool.false_eq_true, false_and, if_false]

/-- What a byte behind the header block does, by the verdict on it. -/
theorem pullByte_judge {m m₁ : HttpMessage} (hp : m.payload.isSome) {b : UInt8}
    (hok : m.pullByte rena type peer b = .ok m₁) :
    m₁.payload = m.payload ∧ m₁.lookupTree.core = (m.lookupTree.judge b).1.core ∧
      m₁.text = (m.lookupTree.judge b).2.apply m.text b := by
  rw [pullByte_payload hp, databaseStep_eq, bind_eq_ok] at hok
  obtain ⟨⟨d, r⟩, hact, hok⟩ := hok
  obtain rfl := Except.ok.inj hok
  obtain ⟨htext, hcore⟩ := text_act hact m.buffer
  have happ := appended_appendReaction { m with lookupTree := d } r
  refine ⟨happ.payload, by simpa using hcore, ?_⟩
  rw [HttpMessage.text, happ.buffer, lookupTree_appendReaction, htext, input_judge]
  rfl

/-- The next byte makes the same of both states. -/
theorem Same.pullByte {m m' : HttpMessage} (H : Same m m') (b : UInt8) :
    Alike Same (m.pullByte rena type peer b) (m'.pullByte rena type peer b) := by
  rcases H.same with rfl | ⟨hp, hp'⟩
  · refine (alike_refl (R := (· = ·)) (fun _ => rfl) _).mono ?_
    rintro m₁ _ hm₁ - rfl
    exact .refl (consistent_pullByte H.consistent hm₁)
  · obtain ⟨d, r, hd, -⟩ := H.consistent.step m.lookupTree b
    obtain ⟨d', r', hd', -⟩ := H.consistent'.step m'.lookupTree b
    obtain ⟨m₁, hm⟩ : ∃ m₁, m.pullByte rena type peer b = .ok m₁ :=
      ⟨_, by rw [pullByte_payload hp, hd, bind_ok]⟩
    obtain ⟨m₁', hm'⟩ : ∃ m₁, m'.pullByte rena type peer b = .ok m₁ :=
      ⟨_, by rw [pullByte_payload hp', hd', bind_ok]⟩
    obtain ⟨hpay, hcore, htext⟩ := pullByte_judge hp hm
    obtain ⟨hpay', hcore', htext'⟩ := pullByte_judge hp' hm'
    have hjudge : ((m.lookupTree.judge b).1.core, (m.lookupTree.judge b).2) =
        ((m'.lookupTree.judge b).1.core, (m'.lookupTree.judge b).2) := by
      rw [← judge_core, ← judge_core, H.core]
    obtain ⟨hjcore, hverdict⟩ := Prod.mk.inj hjudge
    rw [hm, hm']
    exact ⟨consistent_pullByte H.consistent hm, consistent_pullByte H.consistent' hm',
      by rw [hcore, hcore', hjcore], by rw [htext, htext', hverdict, H.text],
      .inr ⟨by rw [hpay]; exact hp, by rw [hpay']; exact hp'⟩⟩

/-- A flush takes what is held, whatever is alive. -/
theorem flushPendingDataToBuffer_eq (m : HttpMessage) :
    m.flushPendingDataToBuffer =
      { m with lookupTree := m.lookupTree.clearInput }.forceOntoBuffer m.lookupTree.input := by
  simp [flushPendingDataToBuffer, getHolding]

theorem appended_flushPendingDataToBuffer (m : HttpMessage) :
    Appended m m.flushPendingDataToBuffer m.lookupTree.input := by
  have happ := appended_forceOntoBuffer { m with lookupTree := m.lookupTree.clearInput }
    m.lookupTree.input
  rw [flushPendingDataToBuffer_eq]
  exact ⟨happ.buffer, happ.payload, happ.headers, happ.headersUsed, happ.expectedPayload⟩

@[simp] theorem lookupTree_flushPendingDataToBuffer (m : HttpMessage) :
    m.flushPendingDataToBuffer.lookupTree = m.lookupTree.clearInput := by
  simp [flushPendingDataToBuffer_eq]

@[simp] theorem payload_flushPendingDataToBuffer (m : HttpMessage) :
    m.flushPendingDataToBuffer.payload = m.payload := by
  simp [flushPendingDataToBuffer_eq]

@[simp] theorem buffer_flushPendingDataToBuffer (m : HttpMessage) :
    m.flushPendingDataToBuffer.buffer = m.text := by
  simp [flushPendingDataToBuffer_eq, buffer_forceOntoBuffer, text]

/-- A forced flush without candidates changes no more than where the text is. -/
theorem Same.flush {m m' : HttpMessage} (H : Same m m') (hp : m.payload.isSome)
    (hlist : m.lookupTree.list = []) : Same m.flushPendingDataToBuffer m' := by
  refine ⟨?_, H.consistent', ?_, ?_, .inr ⟨by rwa [payload_flushPendingDataToBuffer], ?_⟩⟩
  · rw [lookupTree_flushPendingDataToBuffer]
    exact consistent_clearInput H.consistent hlist
  · rw [lookupTree_flushPendingDataToBuffer]
    exact H.core
  · rw [HttpMessage.text, buffer_flushPendingDataToBuffer, lookupTree_flushPendingDataToBuffer,
      ← H.text]
    simp [clearInput]
  · rcases H.same with rfl | ⟨-, hp'⟩
    · exact hp
    · exact hp'

theorem pullBytes_append (m : HttpMessage) (x y : List UInt8) :
    m.pullBytes rena type peer (x ++ y) =
      m.pullBytes rena type peer x >>= fun m => m.pullBytes rena type peer y :=
  List.foldlM_append

theorem Same.pullBytes {m m' : HttpMessage} (H : Same m m') (bytes : List UInt8) :
    Alike Same (m.pullBytes rena type peer bytes) (m'.pullBytes rena type peer bytes) :=
  Alike.foldlM (fun _ _ b h => h.pullByte b) bytes H

end HttpMessage

/-! ## All reads of a response -/

/-- A way to read the stream `t`: events that leave the connection open, and the one that
finds it closed behind its bytes. Only the TLS layer gives events without bytes. -/
structure Segmentation (t : List UInt8) where
  reads : List ReadEvent
  last : List (List UInt8)
  stays_open : ∀ ev ∈ reads, ev.stop ≠ .closed ∧ (ev.stop = .retry → ev.chunks ≠ [])
  bytes : (reads.flatMap (·.chunks) ++ last).flatten = t

def Segmentation.events {t : List UInt8} (s : Segmentation t) : List ReadEvent :=
  s.reads ++ [⟨s.last, .closed⟩]

/-- The contents of the forward buffer of a client. -/
def ClientInfo.contents (c : ClientInfo) : List UInt8 := (c.protocol.map (·.buffer)).getD []

/-- The contents of the forward buffer of the victim when all of the response was read. -/
def finalContents (rena : Rena) (peer : Option HttpMessage) (fd : ℤ) (ssl : Bool)
    {t : List UInt8} (s : Segmentation t) : Except Fault (List UInt8) := do
  let c ← clientReads rena .victim peer fd (.fresh fd ssl) s.events
  pure c.contents

section Reads
variable {rena : Rena} {type : ClientType} {peer : Option HttpMessage} {fd : ℤ}
open HttpMessage

theorem alike_pullChunk {h : Http} {m : HttpMessage} (H : Same h.toHttpMessage m)
    (bytes : List UInt8) :
    Alike (fun h' m' => Same h'.toHttpMessage m') (h.pullChunk rena type peer bytes)
      (m.pullBytes rena type peer bytes) := by
  rw [Http.pullChunk, ← bind_pure (m.pullBytes rena type peer bytes)]
  exact (H.pullBytes bytes).bind fun _ _ _ _ hsame => hsame

theorem same_evaluated {h : Http} {m : HttpMessage} (H : Same h.toHttpMessage m)
    (hquiet : h.forcesFlush → h.lookupTree.list = []) : Same h.evaluated.toHttpMessage m := by
  rw [Http.evaluated]
  by_cases hforce : h.forcesFlush
  · rw [if_pos hforce]
    refine H.flush ?_ (hquiet hforce)
    simp only [Http.forcesFlush, Bool.and_eq_true] at hforce
    exact hforce.1.1
  · rw [if_neg hforce]
    exact H

/-- One event leaves the client with the same message as its bytes alone. -/
theorem alike_clientDoRead {c : ClientInfo} {m : HttpMessage} {ev : ReadEvent} (hfd : c.fd = fd)
    (H : Same (c.message rena type) m) (hstop : ev.stop ≠ .closed)
    (hretry : ev.stop = .retry → ev.chunks ≠ []) (hfit : ReadFits rena type peer c fd ev)
    (hquiet : OnOk (fun x => x.2 = 0 → x.1.Quiet) (httpPull rena type peer c fd ev)) :
    Alike (fun x m' => x.1.fd = fd ∧ Same (x.1.message rena type) m')
      (clientDoRead rena type peer c fd ev) (m.pullBytes rena type peer ev.chunks.flatten) := by
  by_cases hnone : ev.chunks = []
  · cases hs : ev.stop with
    | closed => exact absurd hs hstop
    | retry => exact absurd hnone (hretry hs)
    | want reading =>
        rw [clientDoRead_want hfd hs hnone hfit, hnone]
        exact ⟨hfd, H⟩
  · rw [clientDoRead_open hfd hstop hnone hfit, ← bind_pure (m.pullBytes rena type peer _)]
    refine (alike_pullChunk H _).bind fun h m' hh _ hsame => ⟨hfd, ?_⟩
    refine same_evaluated hsame
      (hquiet ({ c.clearWant with protocol := some h }, 0) ?_ rfl h rfl)
    rw [httpPull_open hfd hstop hnone, hh, bind_ok]

/-- After a flush nothing is left to force out. -/
theorem evaluated_flushPendingDataToBuffer (h : Http) :
    h.flushPendingDataToBuffer.evaluated = h.flushPendingDataToBuffer := by
  have hheld : h.flushPendingDataToBuffer.lookupTree.getHoldingSize = 0 := by
    simp [Http.flushPendingDataToBuffer, getHoldingSize, clearInput]
  rw [Http.evaluated, if_neg]
  rw [Http.forcesFlush_iff, hheld]
  omega

/-- A read that finds the connection closed. -/
theorem clientDoRead_closed {c : ClientInfo} (hfd : c.fd = fd) (last : List (List UInt8))
    (hfit : ReadFits rena type peer c fd ⟨last, .closed⟩) :
    clientDoRead rena type peer c fd ⟨last, .closed⟩ =
      Http.pullChunks rena type peer c.protocol last >>= fun p =>
        .ok ({ c with protocol := p.map Http.flushPendingDataToBuffer, fd := -1 },
          match p with
          | none => .done (-1)
          | some h => h.flushPendingDataToBuffer.evaluation type (-1)) := by
  rw [clientDoRead_eq hfit, httpPull, if_neg (not_not.mpr hfd), bind_assoc]
  congr 1
  funext p
  cases p with
  | none => rfl
  | some h =>
      have heval := httpEvaluate_eq type
        { c with protocol := some h.flushPendingDataToBuffer, fd := -1 } rfl
      simp only [pure, Except.pure, bind_ok, Option.map_some, Option.isSome_some, if_true,
        lt_irrefl, if_false, heval, evaluated_flushPendingDataToBuffer]

/-- At the end of the stream everything is put out. -/
theorem alike_closed {c : ClientInfo} {m : HttpMessage} (hfd : c.fd = fd)
    (H : Same (c.message rena type) m) (last : List (List UInt8))
    (hfit : ReadFits rena type peer c fd ⟨last, .closed⟩) :
    Alike (fun x m' => x.1.contents = m'.text)
      (clientDoRead rena type peer c fd ⟨last, .closed⟩)
      (m.pullBytes rena type peer last.flatten) := by
  rw [clientDoRead_closed hfd last hfit, ← bind_pure (m.pullBytes rena type peer _)]
  by_cases hnone : last = []
  · subst hnone
    cases hprot : c.protocol with
    | none =>
        have hm : m.text = [] := by
          rw [← H.text, ClientInfo.message, hprot]
          cases type <;> rfl
        exact hm.symm
    | some h =>
        have htext := H.text
        rw [ClientInfo.message, hprot] at htext
        exact (HttpMessage.buffer_flushPendingDataToBuffer h.toHttpMessage).trans htext
  · rw [Http.pullChunks_eq hnone, bind_assoc]
    refine (alike_pullChunk H _).bind fun h m' _ _ hsame => ?_
    exact (HttpMessage.buffer_flushPendingDataToBuffer h.toHttpMessage).trans hsame.text

/-- **What is in the forward buffer in the end** is what one long read of the bytes gives,
held text included. -/
theorem contents_clientReads (last : List (List UInt8)) (reads : List ReadEvent) {c : ClientInfo}
    {m : HttpMessage} (hfd : c.fd = fd) (H : Same (c.message rena type) m)
    (hopen : ∀ ev ∈ reads, ev.stop ≠ .closed ∧ (ev.stop = .retry → ev.chunks ≠ []))
    (hfit : FittingReads rena type peer fd c (reads ++ [⟨last, .closed⟩]))
    (hquiet : QuietReads rena type peer fd c (reads ++ [⟨last, .closed⟩])) :
    Alike (fun c' m' => c'.contents = m'.text)
      (clientReads rena type peer fd c (reads ++ [⟨last, .closed⟩]))
      (m.pullBytes rena type peer (reads.flatMap (·.chunks) ++ last).flatten) := by
  induction reads generalizing c m with
  | nil =>
      rw [List.nil_append, clientReads_cons, ← bind_pure (m.pullBytes rena type peer _)]
      exact (alike_closed hfd H last hfit.1).bind fun _ _ _ _ h => h
  | cons ev reads ih =>
      obtain ⟨hev, hopen⟩ := List.forall_mem_cons.mp hopen
      rw [List.cons_append, clientReads_cons, List.flatMap_cons, List.append_assoc,
        List.flatten_append, pullBytes_append]
      refine (alike_clientDoRead hfd H hev.1 hev.2 hfit.1 hquiet.1).bind ?_
      rintro ⟨c', e⟩ m' hread - ⟨hfd', hsame⟩
      exact ih hfd' hsame hopen (hfit.2 (c', e) hread) (hquiet.2 (c', e) hread)

theorem finalContents_eq (rena : Rena) (peer : Option HttpMessage) (fd : ℤ) (ssl : Bool)
    {t : List UInt8} (s : Segmentation t)
    (hfit : FittingReads rena .victim peer fd (.fresh fd ssl) s.events)
    (hquiet : QuietReads rena .victim peer fd (.fresh fd ssl) s.events) :
    finalContents rena peer fd ssl s =
      (create rena .victim).pullBytes rena .victim peer t >>= fun m => .ok m.text := by
  have H : Same ((ClientInfo.fresh fd ssl).message rena .victim) (create rena .victim) :=
    .refl (consistent_lookupTree rena .victim)
  have hreads := contents_clientReads s.last s.reads rfl H s.stays_open hfit hquiet
  rw [s.bytes] at hreads
  exact eq_of_alike (hreads.bind fun _ _ _ _ h => h)

/-- **It does not matter where the network cuts a response**, as long as all that is read
stays in the block of the buffer and no held bytes are forced out while a candidate is
alive: the forward buffer of the victim ends up the same, or header processing fails alike. -/
theorem finalContents_eq_of_quiet (rena : Rena) (peer : Option HttpMessage) (fd : ℤ) (ssl : Bool)
    (t : List UInt8) (s s' : Segmentation t)
    (hfit : FittingReads rena .victim peer fd (.fresh fd ssl) s.events)
    (hfit' : FittingReads rena .victim peer fd (.fresh fd ssl) s'.events)
    (hquiet : QuietReads rena .victim peer fd (.fresh fd ssl) s.events)
    (hquiet' : QuietReads rena .victim peer fd (.fresh fd ssl) s'.events) :
    finalContents rena peer fd ssl s = finalContents rena peer fd ssl s' := by
  rw [finalContents_eq rena peer fd ssl s hfit hquiet,
    finalContents_eq rena peer fd ssl s' hfit' hquiet']

/-- The response with the key, in one read. -/
def wholeAbcd : Segmentation (responseAbc ++ chars "d ") :=
  ⟨[], [responseAbc ++ chars "d "], by simp, by simp⟩

/-- The same response, cut inside the key. -/
def cutAbcd : Segmentation (responseAbc ++ chars "d ") :=
  ⟨[⟨[responseAbc], .retry⟩], [chars "d "], by simp, by simp⟩

/-- The same response, cut before the key. -/
def cutBefore : Segmentation (responseAbc ++ chars "d ") :=
  ⟨[⟨[responseAbc.take 40], .retry⟩], [responseAbc.drop 40 ++ chars "d "], by simp, by
    simp [← List.append_assoc]⟩

/-- A cut before the key changes nothing. -/
theorem finalContents_eq_of_quiet_cutBefore :
    finalContents renaAbcd none 5 false wholeAbcd = finalContents renaAbcd none 5 false cutBefore :=
  finalContents_eq_of_quiet _ _ _ _ _ wholeAbcd cutBefore (by decide +kernel) (by decide +kernel)
    (by decide +kernel) (by decide +kernel)

/-- A cut inside the key ends in the abort of `consume_input`. -/
theorem finalContents_ne_cutAbcd :
    finalContents renaAbcd none 5 false wholeAbcd =
        .ok (chars "HTTP/1.0 200 OK\r\n\r\n//R ") ∧
      finalContents renaAbcd none 5 false cutAbcd = .error .consumeInput := by
  decide +kernel

end Reads

end RenaProxy
