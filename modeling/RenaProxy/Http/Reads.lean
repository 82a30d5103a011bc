import RenaProxy.Http.Transfer
import RenaProxy.Http.HeaderFrame
import RenaProxy.Database.Verdict

/-!
# The reads of one connection

What a byte, a read and a sequence of reads do to the protocol state of a client.
`pullByte_eq` is the step lemma: a byte moves the lookup tree on and appends what
that puts out, and the byte that completes the header block has it evaluated.

The matcher stays consistent over reads as long as no held bytes are forced out under
a live candidate; then the abort of `consume_input` is out of reach
(`clientReads_ne_consumeInput`).
-/
namespace RenaProxy
open Failure DatabaseObject

namespace HttpMessage
variable {rena : Rena} {type : ClientType} {peer : Option HttpMessage}

/-- `h'` is `h` with `text` appended; what points into the buffer is unchanged. -/
structure Appended (h h' : HttpMessage) (text : List UInt8) : Prop where
  buffer : h'.buffer = h.buffer ++ text
  payload : h'.payload = h.payload
  headers : h'.headers = h.headers
  headersUsed : h'.headersUsed = h.headersUsed
  expectedPayload : h'.expectedPayload = h.expectedPayload

theorem Appended.trans {h h₁ h₂ : HttpMessage} {x y : List UInt8} (a : Appended h h₁ x)
    (b : Appended h₁ h₂ y) : Appended h h₂ (x ++ y) where
  buffer := by rw [b.buffer, a.buffer, List.append_assoc]
  payload := b.payload.trans a.payload
  headers := b.headers.trans a.headers
  headersUsed := b.headersUsed.trans a.headersUsed
  expectedPayload := b.expectedPayload.trans a.expectedPayload

theorem appended_forceOntoBuffer (h : HttpMessage) (o : List UInt8) :
    Appended h (h.forceOntoBuffer o) o := by
  unfold forceOntoBuffer reallocationProtocol
  dsimp only
  split <;> exact ⟨rfl, rfl, rfl, rfl, rfl⟩

theorem appended_checkDelimiterHeader (h : HttpMessage) (ch : UInt8) :
    Appended h (h.checkDelimiterHeader ch).1 [] := by
  unfold checkDelimiterHeader
  split
  · exact ⟨by simp, rfl, rfl, rfl, rfl⟩
  · dsimp only
    split <;> exact ⟨by simp, rfl, rfl, rfl, rfl⟩

theorem appended_appendReaction (h : HttpMessage) (r : Reaction) :
    Appended h (h.appendReaction r) r.text := by
  cases r with
  | keep => exact ⟨by simp [appendReaction, Reaction.text], rfl, rfl, rfl, rfl⟩
  | put holding transformed =>
      have hheld : Appended h (if 0 < holding.length then h.forceOntoBuffer holding else h)
          holding := by
        split
        · exact appended_forceOntoBuffer h holding
        · rename_i hlen
          obtain rfl : holding = [] := by simpa using hlen
          exact ⟨by simp, rfl, rfl, rfl, rfl⟩
      cases transformed with
      | none =>
          rw [Reaction.text, Option.getD_none, List.append_nil]
          exact hheld
      | some o => exact hheld.trans (appended_forceOntoBuffer _ o)

@[simp] theorem lookupTree_appendReaction (h : HttpMessage) (r : Reaction) :
    (h.appendReaction r).lookupTree = h.lookupTree := by
  cases r with
  | keep => rfl
  | put holding transformed => cases transformed <;> simp only [appendReaction] <;> split <;> simp

/-- Everything a byte can do. The lookup tree moves on, what that puts out is appended,
and if the byte completes the header block, this is evaluated. -/
theorem pullByte_eq (h : HttpMessage) (b : UInt8) :
    h.pullByte rena type peer b = databaseStep h.lookupTree b >>= fun x =>
      let c := ({ h with lookupTree := x.1 }.appendReaction x.2).checkDelimiterHeader
        (seenByte b x.2)
      if c.2 ∧ x.2 ≠ .keep then c.1.evaluateHeaders rena type peer else .ok c.1 := by
  rw [pullByte]
  congr 1
  funext x
  obtain ⟨d, r⟩ := x
  cases r with
  | keep => simp [appendReaction, seenByte, pure, Except.pure]
  | put holding transformed =>
      cases transformed <;> simp only [appendReaction, seenByte, ne_eq, reduceCtorEq,
        not_false_eq_true, and_true] <;> rfl

theorem pullByte_cases {h h' : HttpMessage} {b : UInt8}
    (hok : h.pullByte rena type peer b = .ok h') :
    ∃ d r h₁, databaseStep h.lookupTree b = .ok (d, r) ∧ Appended h h₁ r.text ∧
      h₁.lookupTree = d ∧
      (h' = h₁ ∨ (h.payload = none ∧ h₁.evaluateHeaders rena type peer = .ok h')) := by
  rw [pullByte_eq, bind_eq_ok] at hok
  obtain ⟨⟨d, r⟩, hstep, hok⟩ := hok
  have happ : Appended h
      ((({ h with lookupTree := d } : HttpMessage).appendReaction r).checkDelimiterHeader
        (seenByte b r)).1 r.text := by
    have := (appended_appendReaction { h with lookupTree := d } r).trans
      (appended_checkDelimiterHeader _ (seenByte b r))
    rw [List.append_nil] at this
    exact ⟨this.buffer, this.payload, this.headers, this.headersUsed, this.expectedPayload⟩
  refine ⟨d, r, _, hstep, happ, by simp, ?_⟩
  dsimp only at hok
  by_cases hdone : (({ h with lookupTree := d } : HttpMessage).appendReaction
      r).checkDelimiterHeader (seenByte b r) |>.2
  · by_cases hp : h.payload.isSome
    · have hsome : (({ h with lookupTree := d } : HttpMessage).appendReaction r).payload.isSome := by
        rw [(appended_appendReaction _ r).payload]
        exact hp
      rw [checkDelimiterHeader_of_payload hsome] at hdone
      simp at hdone
    · split at hok
      · exact .inr ⟨by simpa using hp, hok⟩
      · exact .inl (Except.ok.inj hok).symm
  · rw [if_neg (fun h => hdone h.1)] at hok
    exact .inl (Except.ok.inj hok).symm

end HttpMessage

/-! ## The steps of a read -/

section Steps
variable {rena : Rena} {type : ClientType} {peer : Option HttpMessage} {client client' : ClientInfo}
  {fd ret : ℤ} {ev : ReadEvent}

/-- Everything `http_pull` can do with a client. -/
theorem httpPull_cases (hok : httpPull rena type peer client fd ev = .ok (client', ret)) :
    (client.fd ≠ fd ∧ client' = client ∧ ret = -1) ∨
    (client.fd = fd ∧ ∃ p, Http.pullChunks rena type peer client.protocol ev.chunks = .ok p ∧
      ((ev.stop = .closed ∧ client'.fd = -1 ∧
          client'.protocol = p.map Http.flushPendingDataToBuffer ∧
          ret = if p.isSome then 0 else -1) ∨
        (ev.stop ≠ .closed ∧ client'.fd = fd ∧ client'.protocol = p ∧ 0 ≤ ret ∧
          (ev.stop = .retry → ret = 0)))) := by
  unfold httpPull at hok
  by_cases hfd : client.fd = fd
  · rw [if_neg (not_not.mpr hfd), bind_eq_ok] at hok
    obtain ⟨p, hp, hok⟩ := hok
    refine .inr ⟨hfd, p, hp, ?_⟩
    cases hstop : ev.stop with
    | closed =>
        rw [hstop] at hok
        obtain ⟨rfl, rfl⟩ := Prod.mk.inj (Except.ok.inj hok)
        exact .inl ⟨rfl, rfl, rfl, rfl⟩
    | retry =>
        rw [hstop] at hok
        obtain ⟨rfl, rfl⟩ := Prod.mk.inj (Except.ok.inj hok)
        exact .inr ⟨by simp, hfd, rfl, le_rfl, fun _ => rfl⟩
    | want reading =>
        rw [hstop] at hok
        dsimp only at hok
        by_cases hnone : ev.chunks = []
        · rw [if_pos hnone] at hok
          obtain ⟨rfl, rfl⟩ := Prod.mk.inj (Except.ok.inj hok)
          exact .inr ⟨by simp, hfd, rfl, by cases reading <;> decide, by simp⟩
        · rw [if_neg hnone] at hok
          obtain ⟨rfl, rfl⟩ := Prod.mk.inj (Except.ok.inj hok)
          exact .inr ⟨by simp, hfd, rfl, le_rfl, fun _ => rfl⟩
  · rw [if_pos hfd] at hok
    obtain ⟨rfl, rfl⟩ := Prod.mk.inj (Except.ok.inj hok)
    exact .inl ⟨hfd, rfl, rfl⟩

/-- Bytes of the payload are missing. -/
theorem Http.missing_iff (h : Http) :
    h.checkPayloadLength.1 ↔
      0 ≤ h.expectedPayload ∧ toInt32 h.bufferRecv < h.expectedPayload ∧
        toInt32 h.bufferRecv + h.lookupTree.getHoldingSize < h.expectedPayload := by
  unfold checkPayloadLength
  by_cases hneg : h.expectedPayload < 0
  · simp [hneg]
  · by_cases hlt : toInt32 h.bufferRecv < h.expectedPayload
    · simp [hneg, hlt, not_lt.mp hneg]
    · simp [hneg, hlt]

/-- What is held makes up for what was not received, so it is forced out. -/
theorem Http.forcesFlush_iff (h : Http) :
    h.forcesFlush ↔ h.payload.isSome ∧ 0 ≤ h.expectedPayload ∧
      toInt32 h.bufferRecv < h.expectedPayload ∧
      h.expectedPayload ≤ toInt32 h.bufferRecv + h.lookupTree.getHoldingSize := by
  unfold forcesFlush checkPayloadLength
  by_cases hneg : h.expectedPayload < 0
  · simp [hneg]
  · by_cases hlt : toInt32 h.bufferRecv < h.expectedPayload
    · simp only [hneg, hlt, if_false, if_true, Bool.and_eq_true, Bool.not_eq_true',
        decide_eq_false_iff_not, not_lt, decide_eq_true_eq, not_lt.mp hneg, true_and, and_assoc]
      refine and_congr_right fun _ => ⟨And.left, fun hle => ⟨hle, ?_⟩⟩
      omega
    · simp [hneg, hlt]

/-- The protocol after `http_evaluate`. -/
def Http.evaluated (h : Http) : Http := if h.forcesFlush then h.flushPendingDataToBuffer else h

/-- What `http_evaluate` comes to, by the protocol before it. -/
def Http.evaluation (type : ClientType) (fd : ℤ) (h : Http) : Evaluation :=
  if h.payload.isNone then .done ttRead
  else
    let evalRet := if fd < 0 then -1 else ttRead
    match type with
    | .requester => if h.checkPayloadLength.1 then .done ttRead
        else .dispatch evalRet (h.evaluated.totalBlock ≠ h.totalBlock)
    | .victim => .done evalRet

variable (type client) in
theorem httpEvaluate_eq {h : Http} (hp : client.protocol = some h) :
    httpEvaluate type client =
      .ok ({ client with protocol := some h.evaluated }, h.evaluation type client.fd) := by
  obtain ⟨fd, ssl, want, protocol⟩ := client
  obtain rfl : protocol = some h := hp
  by_cases hpay : h.payload.isNone
  · have hsome : h.payload.isSome = false := by simpa using hpay
    simp [httpEvaluate, Http.evaluated, Http.forcesFlush, Http.evaluation, hpay, hsome]
  · have hsome : h.payload.isSome = true := by simpa [Option.isSome_iff_ne_none] using hpay
    cases type <;>
      simp [httpEvaluate, Http.evaluated, Http.forcesFlush, Http.evaluation, hpay, hsome]

/-- A read that stays in the block goes on with what was read. -/
theorem clientDoRead_eq (hfit : ReadFits rena type peer client fd ev) :
    clientDoRead rena type peer client fd ev = httpPull rena type peer client fd ev >>= fun x =>
      if x.2 < 0 then .ok (x.1, .done (-1))
      else if 0 < x.2 then .ok (x.1, .done x.2)
      else httpEvaluate type x.1 := by
  rw [clientDoRead, if_neg (not_not.mpr hfit)]
  rfl

/-- A read that has a result has stayed in the block. -/
theorem readFits_of_clientDoRead {x : ClientInfo × Evaluation}
    (hok : clientDoRead rena type peer client fd ev = .ok x) :
    ReadFits rena type peer client fd ev := by
  by_contra hfit
  rw [clientDoRead, if_pos hfit] at hok
  cases hok

theorem clientDoRead_cases {e : Evaluation}
    (hok : clientDoRead rena type peer client fd ev = .ok (client', e)) :
    ∃ c ret, httpPull rena type peer client fd ev = .ok (c, ret) ∧
      ((ret ≠ 0 ∧ client' = c ∧ e = .done (if ret < 0 then -1 else ret)) ∨
        (ret = 0 ∧ ∃ h, c.protocol = some h ∧ client' = { c with protocol := some h.evaluated } ∧
          e = h.evaluation type c.fd)) := by
  rw [clientDoRead_eq (readFits_of_clientDoRead hok), bind_eq_ok] at hok
  obtain ⟨⟨c, ret⟩, hpull, hok⟩ := hok
  refine ⟨c, ret, hpull, ?_⟩
  dsimp only at hok
  rcases lt_trichotomy ret 0 with hneg | rfl | hpos
  · rw [if_pos hneg] at hok
    obtain ⟨rfl, rfl⟩ := Prod.mk.inj (Except.ok.inj hok)
    exact .inl ⟨hneg.ne, rfl, by rw [if_pos hneg]⟩
  · rw [if_neg (lt_irrefl 0), if_neg (lt_irrefl 0)] at hok
    cases hprot : c.protocol with
    | none => simp [httpEvaluate, hprot] at hok
    | some h =>
        rw [httpEvaluate_eq _ _ hprot] at hok
        obtain ⟨rfl, rfl⟩ := Prod.mk.inj (Except.ok.inj hok)
        exact .inr ⟨rfl, h, rfl, rfl, rfl⟩
  · rw [if_neg hpos.not_gt, if_pos hpos] at hok
    obtain ⟨rfl, rfl⟩ := Prod.mk.inj (Except.ok.inj hok)
    exact .inl ⟨hpos.ne', rfl, by rw [if_neg hpos.not_gt]⟩

namespace Http

theorem pullChunk_append (h : Http) (x y : List UInt8) :
    h.pullChunk rena type peer (x ++ y) =
      h.pullChunk rena type peer x >>= fun h => h.pullChunk rena type peer y := by
  rw [pullChunk, HttpMessage.pullBytes, List.foldlM_append, pullChunk, HttpMessage.pullBytes]
  cases x.foldlM (HttpMessage.pullByte rena type peer) h.toHttpMessage with
  | error e => rfl
  | ok m =>
      simp only [bind_ok, pure, Except.pure, pullChunk, HttpMessage.pullBytes]
      congr 1
      funext m'
      simp [add_assoc]

/-- What a call of `http_pull` reads might as well come in one piece. -/
theorem pullChunks_eq {o : Option Http} {chunks : List (List UInt8)} (hne : chunks ≠ []) :
    pullChunks rena type peer o chunks =
      (o.getD (.create rena type)).pullChunk rena type peer chunks.flatten >>= fun h =>
        .ok (some h) := by
  induction chunks generalizing o with
  | nil => exact absurd rfl hne
  | cons c cs ih =>
      rw [pullChunks, List.foldlM_cons, List.flatten_cons, pullChunk_append]
      cases hc : (o.getD (.create rena type)).pullChunk rena type peer c with
      | error e => rfl
      | ok h =>
          simp only [bind_ok, pure, Except.pure]
          by_cases hcs : cs = []
          · subst hcs
            simp [pullChunk, HttpMessage.pullBytes, bind, Except.bind, pure, Except.pure]
          · exact ih (o := some h) hcs

end Http

/-- A read that brings bytes and leaves the connection open. -/
theorem httpPull_open (hfd : client.fd = fd) (hstop : ev.stop ≠ .closed) (hne : ev.chunks ≠ []) :
    httpPull rena type peer client fd ev =
      (client.protocol.getD (.create rena type)).pullChunk rena type peer ev.chunks.flatten >>=
        fun h => .ok ({ client.clearWant with protocol := some h }, 0) := by
  rw [httpPull, if_neg (not_not.mpr hfd), Http.pullChunks_eq hne]
  cases (client.protocol.getD (.create rena type)).pullChunk rena type peer ev.chunks.flatten with
  | error e => rfl
  | ok h =>
      simp only [bind_ok]
      cases hs : ev.stop with
      | closed => exact absurd hs hstop
      | retry => rfl
      | want reading => simp [hne, pure, Except.pure, ClientInfo.clearWant]

/-- Such a read takes all bytes through the matcher, then `http_evaluate` looks at the
protocol. -/
theorem clientDoRead_open (hfd : client.fd = fd) (hstop : ev.stop ≠ .closed)
    (hne : ev.chunks ≠ []) (hfit : ReadFits rena type peer client fd ev) :
    clientDoRead rena type peer client fd ev =
      (client.protocol.getD (.create rena type)).pullChunk rena type peer ev.chunks.flatten >>=
        fun h => .ok ({ client.clearWant with protocol := some h.evaluated },
          h.evaluation type fd) := by
  rw [clientDoRead_eq hfit, httpPull_open hfd hstop hne, bind_assoc]
  congr 1
  funext h
  have heval := httpEvaluate_eq type { client.clearWant with protocol := some h } rfl
  simp only [bind_ok, lt_irrefl, if_false, heval]
  simp [ClientInfo.clearWant, hfd]

/-- A read without bytes that waits for the TLS layer. -/
theorem clientDoRead_want {reading : Bool} (hfd : client.fd = fd) (hstop : ev.stop = .want reading)
    (hnone : ev.chunks = []) (hfit : ReadFits rena type peer client fd ev) :
    clientDoRead rena type peer client fd ev =
      .ok (client.setWant 1 (if reading then 1 else 0),
        .done (if reading then ttRead else ttWrite)) := by
  rw [clientDoRead_eq hfit, httpPull, if_neg (not_not.mpr hfd), hstop, hnone]
  cases reading <;> rfl

end Steps

/-! ## Sequences of reads -/

/-- The reads of one client, one event after the other. -/
def clientReads (rena : Rena) (type : ClientType) (peer : Option HttpMessage) (fd : ℤ)
    (client : ClientInfo) (evs : List ReadEvent) : Except Fault ClientInfo :=
  evs.foldlM (fun c ev => do
    let (c, _) ← clientDoRead rena type peer c fd ev
    pure c) client

theorem clientReads_cons (rena : Rena) (type : ClientType) (peer : Option HttpMessage) (fd : ℤ)
    (client : ClientInfo) (ev : ReadEvent) (evs : List ReadEvent) :
    clientReads rena type peer fd client (ev :: evs) =
      clientDoRead rena type peer client fd ev >>= fun x =>
        clientReads rena type peer fd x.1 evs := by
  rw [clientReads, List.foldlM_cons, bind_assoc]
  rfl

/-- A client that was just accepted or connected. -/
def ClientInfo.fresh (fd : ℤ) (ssl : Bool) : ClientInfo := ⟨fd, ssl, 0, none⟩

/-- If `http_evaluate` forces held bytes out now, no candidate is alive. -/
def ClientInfo.Quiet (c : ClientInfo) : Prop :=
  ∀ h ∈ c.protocol, h.forcesFlush → h.lookupTree.list = []

/-- After no read of the sequence `http_evaluate` forces held bytes out while a candidate
is alive. -/
def QuietReads (rena : Rena) (type : ClientType) (peer : Option HttpMessage) (fd : ℤ) :
    ClientInfo → List ReadEvent → Prop
  | _, [] => True
  | client, ev :: evs =>
      OnOk (fun x => x.2 = 0 → x.1.Quiet) (httpPull rena type peer client fd ev) ∧
      OnOk (fun x => QuietReads rena type peer fd x.1 evs)
        (clientDoRead rena type peer client fd ev)

instance (c : ClientInfo) : Decidable c.Quiet :=
  inferInstanceAs (Decidable (∀ h ∈ c.protocol, _))

instance decidableQuietReads (rena : Rena) (type : ClientType) (peer : Option HttpMessage)
    (fd : ℤ) : (evs : List ReadEvent) → (c : ClientInfo) →
    Decidable (QuietReads rena type peer fd c evs)
  | [], _ => isTrue trivial
  | ev :: evs, c =>
      have := decidableQuietReads rena type peer fd evs
      inferInstanceAs (Decidable (OnOk (fun x => x.2 = 0 → x.1.Quiet)
          (httpPull rena type peer c fd ev) ∧
        OnOk (fun x => QuietReads rena type peer fd x.1 evs)
          (clientDoRead rena type peer c fd ev)))

/-- All reads of the sequence stay in the block. -/
def FittingReads (rena : Rena) (type : ClientType) (peer : Option HttpMessage) (fd : ℤ) :
    ClientInfo → List ReadEvent → Prop
  | _, [] => True
  | client, ev :: evs => ReadFits rena type peer client fd ev ∧
      OnOk (fun x => FittingReads rena type peer fd x.1 evs)
        (clientDoRead rena type peer client fd ev)

instance decidableFittingReads (rena : Rena) (type : ClientType) (peer : Option HttpMessage)
    (fd : ℤ) : (evs : List ReadEvent) → (c : ClientInfo) →
    Decidable (FittingReads rena type peer fd c evs)
  | [], _ => isTrue trivial
  | ev :: evs, c =>
      have := decidableFittingReads rena type peer fd evs
      inferInstanceAs (Decidable (ReadFits rena type peer c fd ev ∧
        OnOk (fun x => FittingReads rena type peer fd x.1 evs)
          (clientDoRead rena type peer c fd ev)))

/-! ## What a read cannot fail with -/

section Faults
variable {rena : Rena} {type : ClientType} {peer : Option HttpMessage} {fd : ℤ} {e : Fault}

theorem databaseStep_ne_error (he : e ≠ .consumeInput) (d : DatabaseObject Context) (b : UInt8) :
    databaseStep d b ≠ .error e := by
  rw [databaseStep_eq]
  cases (d.judge b).2 with
  | hold => simp [act]
  | release => simp [act]
  | swap n o => exact ite_ne_error (by simpa using he.symm) (by simp)

/-- The overrun and the block that was freed are not among the faults of header processing
and of the matcher. -/
theorem pullChunks_ne_error (he : e ∉ HttpMessage.headerFaults) (hconsume : e ≠ .consumeInput)
    (o : Option Http) (chunks : List (List UInt8)) :
    Http.pullChunks rena type peer o chunks ≠ .error e := by
  have hbyte : ∀ (m : HttpMessage) (b : UInt8), m.pullByte rena type peer b ≠ .error e := by
    intro m b
    rw [HttpMessage.pullByte_eq]
    exact bind_ne_error (databaseStep_ne_error hconsume _ b) fun _ _ =>
      ite_ne_error (HttpMessage.evaluateHeaders_ne_error he _ _ _ _) (by simp)
  refine foldlM_ne_error (fun _ => True) (fun _ _ _ _ _ => trivial) (fun o chunk _ => ?_) trivial
  refine bind_ne_error (bind_ne_error ?_ fun _ _ => by simp [pure, Except.pure])
    fun _ _ => by simp [pure, Except.pure]
  exact foldlM_ne_error (fun _ => True) (fun _ _ _ _ _ => trivial) (fun m b _ => hbyte m b) trivial

theorem clientDoRead_ne_error (he : e ∉ HttpMessage.headerFaults) (hconsume : e ≠ .consumeInput)
    (hprot : e ≠ .nullProtocol) {c : ClientInfo} {ev : ReadEvent}
    (hfit : ReadFits rena type peer c fd ev) :
    clientDoRead rena type peer c fd ev ≠ .error e := by
  rw [clientDoRead_eq hfit]
  refine bind_ne_error ?_ fun r _ => ite_ne_error (by simp) (ite_ne_error (by simp) ?_)
  · rw [httpPull]
    refine ite_ne_error (by simp [pure, Except.pure])
      (bind_ne_error (pullChunks_ne_error he hconsume _ _) fun p _ => ?_)
    cases ev.stop with
    | want reading => exact ite_ne_error (by simp [pure, Except.pure]) (by simp [pure, Except.pure])
    | retry => simp [pure, Except.pure]
    | closed => simp [pure, Except.pure]
  · cases hp : r.1.protocol with
    | none => simpa [httpEvaluate, hp] using hprot.symm
    | some h =>
        rw [httpEvaluate_eq _ _ hp]
        simp

end Faults

/-! ## Consistency -/

section Consistency
variable {rena : Rena} {type : ClientType} {peer : Option HttpMessage} {fd : ℤ}

theorem consistent_withContext {d : DatabaseObject Context} (H : d.Consistent)
    (c : Option Context) : ({ d with context := c } : DatabaseObject Context).Consistent :=
  ⟨H.depth_le, H.consume_le, H.list_ne_nil⟩

theorem consistent_pullByte {h h' : HttpMessage} {b : UInt8} (H : h.lookupTree.Consistent)
    (hok : h.pullByte rena type peer b = .ok h') : h'.lookupTree.Consistent := by
  obtain ⟨d, r, h₁, hstep, -, htree, hlast⟩ := HttpMessage.pullByte_cases hok
  obtain ⟨d', r', hstep', Hd⟩ := H.step h.lookupTree b
  obtain ⟨rfl, rfl⟩ := Prod.mk.inj (Except.ok.inj (hstep.symm.trans hstep'))
  rcases hlast with rfl | ⟨-, heval⟩
  · rw [htree]
    exact Hd
  · obtain ⟨c, hc⟩ := HttpMessage.lookupTree_evaluateHeaders heval
    rw [hc, htree]
    exact consistent_withContext Hd c

theorem pullByte_ne_consumeInput {h : HttpMessage} (H : h.lookupTree.Consistent) (b : UInt8) :
    h.pullByte rena type peer b ≠ .error .consumeInput := by
  obtain ⟨d, r, hstep, -⟩ := H.step h.lookupTree b
  rw [HttpMessage.pullByte_eq, hstep, bind_ok]
  exact ite_ne_error (HttpMessage.evaluateHeaders_ne_error (by decide) _ _ _ _) (by simp)

/-- The matcher of the protocol is consistent, if there is one. -/
def ConsistentProtocol (o : Option Http) : Prop := ∀ h, o = some h → h.lookupTree.Consistent

theorem consistent_lookupTree (rena : Rena) (type : ClientType) :
    (rena.lookupTree type).Consistent := by
  cases type <;> exact consistent_create _ _

private theorem consistent_getD {o : Option Http} (H : ConsistentProtocol o) :
    (o.getD (.create rena type)).lookupTree.Consistent := by
  cases o with
  | none => exact consistent_lookupTree rena type
  | some h => exact H h rfl

private theorem consistent_pullChunk {h h' : Http} {chunk : List UInt8}
    (H : h.lookupTree.Consistent) (hok : h.pullChunk rena type peer chunk = .ok h') :
    h'.lookupTree.Consistent := by
  rw [Http.pullChunk, bind_eq_ok] at hok
  obtain ⟨m, hm, hok⟩ := hok
  obtain rfl := Except.ok.inj hok
  exact foldlM_invariant (fun m : HttpMessage => m.lookupTree.Consistent)
    (fun _ _ _ H hok => consistent_pullByte H hok) H hm

private theorem consistent_pullChunks {o o' : Option Http} {chunks : List (List UInt8)}
    (H : ConsistentProtocol o) (hok : Http.pullChunks rena type peer o chunks = .ok o') :
    ConsistentProtocol o' := by
  refine foldlM_invariant ConsistentProtocol ?_ H hok
  intro o chunk o₁ H hstep
  rw [bind_eq_ok] at hstep
  obtain ⟨h₁, h₁ok, hstep⟩ := hstep
  obtain rfl := Except.ok.inj hstep
  rintro _ ⟨⟩
  exact consistent_pullChunk (consistent_getD H) h₁ok

private theorem pullChunks_ne_consumeInput {o : Option Http} {chunks : List (List UInt8)}
    (H : ConsistentProtocol o) :
    Http.pullChunks rena type peer o chunks ≠ .error .consumeInput := by
  refine foldlM_ne_error ConsistentProtocol ?_ ?_ H
  · intro o chunk o₁ H hstep
    have hone : Http.pullChunks rena type peer o [chunk] = .ok o₁ := by
      rw [Http.pullChunks, List.foldlM_cons]
      exact bind_eq_ok.mpr ⟨o₁, hstep, rfl⟩
    exact consistent_pullChunks H hone
  · intro o chunk H
    refine bind_ne_error (bind_ne_error ?_ fun _ _ => by simp [pure, Except.pure])
      fun _ _ => by simp [pure, Except.pure]
    exact foldlM_ne_error (fun m : HttpMessage => m.lookupTree.Consistent)
      (fun _ _ _ H hok => consistent_pullByte H hok)
      (fun m b H => pullByte_ne_consumeInput H b) (consistent_getD H)

/-- A matcher without candidates is consistent with nothing held. -/
theorem consistent_clearInput {d : DatabaseObject Context} (H : d.Consistent)
    (hlist : d.list = []) : d.clearInput.Consistent := by
  have hzero : d.transformationConsume = 0 := by
    by_contra hpos
    exact H.list_ne_nil (Nat.pos_of_ne_zero hpos) hlist
  exact ⟨by simp [clearInput, hlist], by simp [clearInput, hzero], by simp [clearInput, hzero]⟩

private theorem consistent_flush {h : Http} (H : h.lookupTree.Consistent)
    (hlist : h.lookupTree.list = []) : h.flushPendingDataToBuffer.lookupTree.Consistent := by
  have htree : h.flushPendingDataToBuffer.lookupTree = h.lookupTree.clearInput := by
    simp [Http.flushPendingDataToBuffer, HttpMessage.flushPendingDataToBuffer, getHolding]
  rw [htree]
  exact consistent_clearInput H hlist

private theorem consistent_clientDoRead {c c' : ClientInfo} {ev : ReadEvent} {e : Evaluation}
    (hfd : 0 ≤ fd) (H : ConsistentProtocol c.protocol)
    (hquiet : OnOk (fun x => x.2 = 0 → x.1.Quiet) (httpPull rena type peer c fd ev))
    (hok : clientDoRead rena type peer c fd ev = .ok (c', e)) :
    c'.fd = fd → ConsistentProtocol c'.protocol := by
  intro hfd'
  obtain ⟨c₁, ret, hpull, hlast⟩ := clientDoRead_cases hok
  have hfd₁ : c'.fd = c₁.fd := by
    rcases hlast with ⟨-, rfl, -⟩ | ⟨-, h, -, rfl, -⟩ <;> rfl
  have H₁ : ConsistentProtocol c₁.protocol := by
    rcases httpPull_cases hpull with ⟨-, rfl, -⟩ | ⟨-, p, hp, ⟨-, hclosed, -⟩ | ⟨-, -, hprot, -⟩⟩
    · exact H
    · omega
    · rw [hprot]
      exact consistent_pullChunks H hp
  rcases hlast with ⟨-, rfl, -⟩ | ⟨rfl, h, hprot, rfl, -⟩
  · exact H₁
  · rintro _ ⟨⟩
    have Hh := H₁ h hprot
    rw [Http.evaluated]
    split
    · rename_i hforce
      exact consistent_flush Hh (hquiet (c₁, 0) hpull rfl h hprot hforce)
    · exact Hh

private theorem clientDoRead_ne_consumeInput {c : ClientInfo} {ev : ReadEvent}
    (H : c.fd = fd → ConsistentProtocol c.protocol) :
    clientDoRead rena type peer c fd ev ≠ .error .consumeInput := by
  refine ite_ne_error (by simp) (bind_ne_error ?_ fun r _ =>
    ite_ne_error (by simp [pure, Except.pure]) (ite_ne_error (by simp [pure, Except.pure]) ?_))
  · by_cases hfd : c.fd = fd
    · rw [httpPull, if_neg (not_not.mpr hfd)]
      refine bind_ne_error (pullChunks_ne_consumeInput (H hfd)) fun p _ => ?_
      cases ev.stop with
      | want reading => exact ite_ne_error (by simp [pure, Except.pure]) (by simp [pure, Except.pure])
      | retry => simp [pure, Except.pure]
      | closed => simp [pure, Except.pure]
    · rw [httpPull, if_pos hfd]
      simp [pure, Except.pure]
  · cases hp : r.1.protocol with
    | none => simp [httpEvaluate, hp]
    | some h =>
        rw [httpEvaluate_eq _ _ hp]
        simp

/-- **The abort of `consume_input` is out of reach** in every sequence of reads of a client
after which no held bytes are forced out under a live candidate: whatever the rules,
the context parser at the start, the other side and the bytes are, no lookup consumes
more than is held. -/
theorem clientReads_ne_consumeInput (rena : Rena) (type : ClientType) (peer : Option HttpMessage)
    (fd : ℤ) (hfd : 0 ≤ fd) (client : ClientInfo)
    (hstart : ∀ h, client.protocol = some h →
      ∃ ctx, h.lookupTree = { rena.lookupTree type with context := ctx })
    (evs : List ReadEvent) (hquiet : QuietReads rena type peer fd client evs) :
    clientReads rena type peer fd client evs ≠ .error .consumeInput := by
  have main : ∀ (evs : List ReadEvent) (c : ClientInfo),
      (c.fd = fd → ConsistentProtocol c.protocol) → QuietReads rena type peer fd c evs →
      clientReads rena type peer fd c evs ≠ .error .consumeInput := by
    intro evs
    induction evs with
    | nil =>
        intro c _ _ h
        cases h
    | cons ev evs ih =>
        intro c H hquiet
        rw [clientReads_cons]
        refine bind_ne_error (clientDoRead_ne_consumeInput H) ?_
        rintro ⟨c', e⟩ hread
        refine ih _ ?_ (hquiet.2 (c', e) hread)
        by_cases hc : c.fd = fd
        · exact consistent_clientDoRead hfd (H hc) hquiet.1 hread
        · -- after the connection is closed nothing happens any more
          obtain ⟨c₁, ret, hpull, hlast⟩ := clientDoRead_cases hread
          rcases httpPull_cases hpull with ⟨-, rfl, rfl⟩ | ⟨hc', -⟩
          · rcases hlast with ⟨-, rfl, -⟩ | ⟨h0, -⟩
            · exact fun h => absurd h hc
            · omega
          · exact absurd hc' hc
  refine main evs _ (fun _ h hh => ?_) hquiet
  obtain ⟨ctx, hctx⟩ := hstart h hh
  rw [hctx]
  exact consistent_withContext (consistent_lookupTree rena type) ctx

/-- A proxy with the one rule that turns `abcd` into `R` in responses. -/
def renaAbcd : Rena := ⟨chars ".proxy", .null, .null, treeBuild [(chars "abcd", some (chars "R"))]⟩

/-- A response of 7 bytes of payload, up to the middle of the key. -/
def responseAbc : List UInt8 :=
  chars "HTTP/1.0 200 OK\r\nContent-Length: 7\r\n\r\n//abc"

/-- One read may bring the whole response. -/
theorem clientReads_ne_consumeInput_whole :
    clientReads renaAbcd .victim none 5 (.fresh 5 false) [⟨[responseAbc ++ chars "d "], .retry⟩] ≠
      .error .consumeInput := by
  exact clientReads_ne_consumeInput _ _ _ 5 (by decide) _ (by simp [ClientInfo.fresh]) _
    (by decide +kernel)

/-- When the first read ends inside the key, the three bytes held complete the announced
length and are forced out. Two bytes later four are to be consumed and one is held. -/
theorem clientReads_consumeInput :
    clientReads renaAbcd .victim none 5 (.fresh 5 false)
      [⟨[responseAbc], .retry⟩, ⟨[chars "d "], .retry⟩] = .error .consumeInput := by
  decide +kernel

end Consistency

end RenaProxy
