import RenaProxy.Http.Announced
import RenaProxy.Http.Segmentation
import RenaProxy.Database.Held

/-!
# The ledger of a connection

What the reads of a connection come to, by the bytes that were read: up to the end of the
header block the message is what one long read of the bytes gives, and behind it the text
is the same, with the last held bytes possibly put out before their time. `Ledger` says
so, and every sequence of reads keeps it (`ledger_clientReads`).
-/
namespace RenaProxy
open Failure StreamTransducer DatabaseObject

namespace HttpMessage
variable {rena : Rena} {type : ClientType} {peer : Option HttpMessage} {m m₁ m' : HttpMessage}
  {bytes body : List UInt8}

/-! ## Behind the header block -/

/-- Behind the header block the bytes go through the rewriter. -/
theorem pullBytes_body (hp : m.payload.isSome) (hok : m.pullBytes rena type peer body = .ok m') :
    ∃ out, run rewriteStep m.lookupTree body = .ok (m'.lookupTree, out) ∧
      Appended m m' out := by
  induction body generalizing m with
  | nil =>
      obtain rfl := Except.ok.inj hok
      exact ⟨[], rfl, by simp, rfl, rfl, rfl, rfl⟩
  | cons b body ih =>
      rw [pullBytes, List.foldlM_cons, bind_eq_ok] at hok
      obtain ⟨m₁, hbyte, hok⟩ := hok
      have hp₁ : m₁.payload.isSome := (pullByte_judge hp hbyte).1 ▸ hp
      rw [pullByte_payload hp, bind_eq_ok] at hbyte
      obtain ⟨⟨d, r⟩, hstep, hbyte⟩ := hbyte
      obtain rfl := Except.ok.inj hbyte
      obtain ⟨out, hrun, hout⟩ := ih hp₁ hok
      rw [lookupTree_appendReaction] at hrun
      refine ⟨r.text ++ out, ?_, ?_⟩
      · have hfirst : rewriteStep m.lookupTree b = .ok (d, r.text) := by
          rw [rewriteStep, hstep]
          rfl
        rw [run_cons, hfirst, bind_ok, hrun]
        rfl
      · have happ := (appended_appendReaction { m with lookupTree := d } r).trans hout
        exact ⟨happ.buffer, happ.payload, happ.headers, happ.headersUsed, happ.expectedPayload⟩

/-- The text of a message grows by what the rewriter puts out, in the end all that it holds. -/
theorem text_body (hp : m.payload.isSome) (hok : m.pullBytes rena type peer body = .ok m') :
    ∃ out, rewrite m.lookupTree body = .ok out ∧ m'.text = m.buffer ++ out := by
  obtain ⟨out, hrun, happ⟩ := pullBytes_body hp hok
  refine ⟨out ++ m'.lookupTree.input, ?_, ?_⟩
  · rw [rewrite, hrun]
    simp [getHolding, bind, Except.bind, pure, Except.pure]
  · rw [HttpMessage.text, happ.buffer, List.append_assoc]

theorem heldAfter_eq (hp : m.payload.isSome) (hok : m.pullBytes rena type peer body = .ok m') :
    heldAfter m.lookupTree body = m'.lookupTree.input := by
  obtain ⟨out, hrun, -⟩ := pullBytes_body hp hok
  rw [heldAfter, hrun]

theorem consistent_pullBytes (H : m.lookupTree.Consistent)
    (hok : m.pullBytes rena type peer bytes = .ok m') : m'.lookupTree.Consistent :=
  foldlM_invariant (fun m : HttpMessage => m.lookupTree.Consistent)
    (fun _ _ _ H hok => consistent_pullByte H hok) H hok

/-- Behind the header block nothing can fail. -/
theorem exists_pullBytes_body (H : m.lookupTree.Consistent) (hp : m.payload.isSome)
    (body : List UInt8) : ∃ m', m.pullBytes rena type peer body = .ok m' := by
  induction body generalizing m with
  | nil => exact ⟨m, rfl⟩
  | cons b body ih =>
      obtain ⟨d, r, hstep, -⟩ := H.step m.lookupTree b
      obtain ⟨m₁, hbyte⟩ : ∃ m₁, m.pullByte rena type peer b = .ok m₁ :=
        ⟨_, by rw [pullByte_payload hp, hstep, bind_ok]⟩
      have hp₁ : m₁.payload.isSome := (pullByte_judge hp hbyte).1 ▸ hp
      obtain ⟨m', hok⟩ := ih (consistent_pullByte H hbyte) hp₁
      exact ⟨m', by rw [pullBytes, List.foldlM_cons, hbyte]; exact hok⟩

/-! ## The end of the header block -/

/-- What a long read makes of its bytes up to the end of the header block: the message that
is handed to `http_evaluate_headers`, what this makes of it, and the bytes that follow. -/
structure Completion where
  read : HttpMessage
  done : HttpMessage
  rest : List UInt8

/-- The header block is complete with the first byte that brings a payload. -/
def completed (rena : Rena) (type : ClientType) (peer : Option HttpMessage) :
    HttpMessage → List UInt8 → Option Completion
  | _, [] => none
  | m, b :: bytes =>
      match m.pullByte rena type peer b with
      | .error _ => none
      | .ok m₁ =>
          if m₁.payload.isSome then (m.handed b).map fun c => ⟨c, m₁, bytes⟩
          else completed rena type peer m₁ bytes

variable {d : Completion}

/-- The bytes of the header block, and what is made of them. Before the last of them there is
no payload. -/
theorem completed_spec (hnone : m.payload = none) (hneg : m.expectedPayload < 0)
    (h : m.completed rena type peer bytes = some d) :
    (d.read.payload = none ∧ d.read.expectedPayload < 0 ∧
      d.read.evaluateHeaders rena type peer = .ok d.done) ∧ d.done.payload.isSome ∧
    ∃ front, bytes = front ++ d.rest ∧ m.pullBytes rena type peer front = .ok d.done ∧
      ∀ x, x <+: bytes → x.length < front.length →
        ∃ m', m.pullBytes rena type peer x = .ok m' ∧ m'.payload = none := by
  induction bytes generalizing m with
  | nil => cases h
  | cons b bytes ih =>
      rw [completed] at h
      cases hb : m.pullByte rena type peer b with
      | error e => simp [hb] at h
      | ok m' =>
          rw [hb] at h
          dsimp only at h
          by_cases hp : m'.payload.isSome
          · rw [if_pos hp] at h
            obtain ⟨c, hc, heval, hnone', hneg'⟩ := exists_handed hnone hneg hb hp
            rw [hc] at h
            obtain rfl := Option.some.inj h
            refine ⟨⟨hnone', hneg', heval⟩, hp, [b], rfl,
              by rw [pullBytes, List.foldlM_cons, hb]; rfl, fun x _ hx => ?_⟩
            obtain rfl : x = [] := List.eq_nil_of_length_eq_zero (by simpa using hx)
            exact ⟨m, rfl, hnone⟩
          · rw [if_neg hp] at h
            have hnone' : m'.payload = none := by simpa using hp
            obtain ⟨hread, hsome, front, rfl, hfront, hbefore⟩ :=
              ih hnone' (expectedPayload_pullByte hneg hb hnone') h
            refine ⟨hread, hsome, b :: front, rfl, ?_, fun x hx hlt => ?_⟩
            · rw [pullBytes, List.foldlM_cons, hb]
              exact hfront
            · cases x with
              | nil => exact ⟨m, rfl, hnone⟩
              | cons c x =>
                  obtain ⟨rfl, hprefix⟩ := List.cons_prefix_cons.mp hx
                  obtain ⟨m'', hm, hpay⟩ := hbefore x hprefix (by simpa using hlt)
                  exact ⟨m'', by rw [pullBytes, List.foldlM_cons, hb]; exact hm, hpay⟩

/-- **The header block leaves the matcher anew**, with what it holds then. -/
theorem looked_of_completed (H : m.lookupTree.Consistent)
    (h : m.completed rena type peer bytes = some d) :
    d.done.lookupTree.Consistent ∧ Looked m.lookupTree.neverRules m.lookupTree.sideRules
      d.done.lookupTree d.done.lookupTree.input := by
  induction bytes generalizing m with
  | nil => cases h
  | cons b bytes ih =>
      rw [completed] at h
      cases hb : m.pullByte rena type peer b with
      | error e => simp [hb] at h
      | ok m' =>
          rw [hb] at h
          dsimp only at h
          have H' := consistent_pullByte H hb
          obtain ⟨d', r, m₁, hstep, -, htree, hlast⟩ := pullByte_cases hb
          obtain ⟨c, hc⟩ : ∃ c, m'.lookupTree = { d' with context := c } := by
            rcases hlast with rfl | ⟨-, heval⟩
            · exact ⟨_, htree⟩
            · obtain ⟨c, hc⟩ := lookupTree_evaluateHeaders heval
              exact ⟨c, htree ▸ hc⟩
          by_cases hp : m'.payload.isSome
          · rw [if_pos hp] at h
            obtain ⟨c', hc', rfl⟩ := Option.map_eq_some_iff.mp h
            have hput : r ≠ .keep := by
              rintro rfl
              simp [handed, hstep] at hc'
            refine ⟨H', ?_⟩
            dsimp only
            rw [hc]
            exact (looked_of_put H hstep hput).frame rfl
          · rw [if_neg hp] at h
            obtain ⟨-, hnever, hside⟩ := databaseStep_frame hstep
            rw [← hnever, ← hside]
            have hih := ih H' h
            rwa [hc] at hih

/-- Header processing never forgets a payload that was found. -/
theorem payload_pullBytes (hp : m.payload.isSome)
    (hok : m.pullBytes rena type peer bytes = .ok m') : m'.payload.isSome := by
  obtain ⟨out, -, happ⟩ := pullBytes_body hp hok
  rw [happ.payload]
  exact hp

/-- Once there is a payload, the header block was complete before. -/
theorem exists_completed (hnone : m.payload = none) (hneg : m.expectedPayload < 0)
    (hok : m.pullBytes rena type peer bytes = .ok m') (hp : m'.payload.isSome) :
    ∃ d, m.completed rena type peer bytes = some d := by
  induction bytes generalizing m with
  | nil =>
      obtain rfl := Except.ok.inj hok
      simp [hnone] at hp
  | cons b bytes ih =>
      rw [pullBytes, List.foldlM_cons, bind_eq_ok] at hok
      obtain ⟨m₁, hb, hok⟩ := hok
      rw [completed, hb]
      dsimp only
      by_cases hp₁ : m₁.payload.isSome
      · obtain ⟨c, hc, -⟩ := exists_handed hnone hneg hb hp₁
        rw [if_pos hp₁, hc]
        exact ⟨_, rfl⟩
      · rw [if_neg hp₁]
        have hnone₁ : m₁.payload = none := by simpa using hp₁
        exact ih hnone₁ (expectedPayload_pullByte hneg hb hnone₁) hok

/-- The end of the header block stays where it is when more bytes come. -/
theorem completed_append {xs : List UInt8} (h : m.completed rena type peer xs = some d)
    (ys : List UInt8) :
    m.completed rena type peer (xs ++ ys) = some { d with rest := d.rest ++ ys } := by
  induction xs generalizing m with
  | nil => cases h
  | cons b xs ih =>
      rw [completed] at h
      rw [List.cons_append, completed]
      cases hb : m.pullByte rena type peer b with
      | error e => simp [hb] at h
      | ok m' =>
          rw [hb] at h
          dsimp only at h ⊢
          by_cases hp : m'.payload.isSome
          · rw [if_pos hp] at h
            obtain ⟨c, hc, rfl⟩ := Option.map_eq_some_iff.mp h
            rw [if_pos hp, hc]
            rfl
          · rw [if_neg hp] at h
            rw [if_neg hp]
            exact ih h

/-- While the header block is not complete, it is still to be completed. -/
theorem completed_of_pullBytes {xs : List UInt8} (hok : m.pullBytes rena type peer xs = .ok m₁)
    (hnone : m₁.payload = none) (ys : List UInt8) :
    m.completed rena type peer (xs ++ ys) = m₁.completed rena type peer ys := by
  induction xs generalizing m with
  | nil =>
      obtain rfl : m = m₁ := Except.ok.inj hok
      rfl
  | cons b xs ih =>
      rw [pullBytes, List.foldlM_cons, bind_eq_ok] at hok
      obtain ⟨m', hb, hok⟩ := hok
      rw [List.cons_append, completed, hb]
      dsimp only
      rw [if_neg, ih hok]
      intro hp
      have := payload_pullBytes hp hok
      simp [hnone] at this

/-! ## The ledger -/

/-- `m` is `m'`, which has come from `m₁` behind its header block, except that the first of the
bytes that `m'` holds may have been put out. -/
structure Forced (m₁ m m' : HttpMessage) : Prop where
  appended : ∃ out, Appended m₁ m out
  consistent : m'.lookupTree.Consistent
  core : m.lookupTree.core = m'.lookupTree.core
  text : m.text = m'.text
  input : m.lookupTree.input <:+ m'.lookupTree.input

/-- The next byte makes the same of both. -/
theorem Forced.pullByte {n : HttpMessage} (H : Forced m₁ m m') (hp : m.payload.isSome)
    (hp' : m'.payload.isSome) {b : UInt8} (hok : m.pullByte rena type peer b = .ok n) :
    ∃ n', m'.pullByte rena type peer b = .ok n' ∧ Forced m₁ n n' := by
  obtain ⟨d', r', hstep', -⟩ := H.consistent.step m'.lookupTree b
  obtain ⟨n', hn'⟩ : ∃ n', m'.pullByte rena type peer b = .ok n' :=
    ⟨_, by rw [pullByte_payload hp', hstep', bind_ok]⟩
  obtain ⟨-, hcore, htext⟩ := pullByte_judge hp hok
  obtain ⟨-, hcore', htext'⟩ := pullByte_judge hp' hn'
  have hjudge : ((m.lookupTree.judge b).1.core, (m.lookupTree.judge b).2) =
      ((m'.lookupTree.judge b).1.core, (m'.lookupTree.judge b).2) := by
    rw [← judge_core, ← judge_core, H.core]
  obtain ⟨hjcore, hverdict⟩ := Prod.mk.inj hjudge
  refine ⟨n', hn', ?_, consistent_pullByte H.consistent hn', by rw [hcore, hcore', hjcore],
    by rw [htext, htext', hverdict, H.text], ?_⟩
  · obtain ⟨out, hout⟩ := H.appended
    have hone : m.pullBytes rena type peer [b] = .ok n := by
      rw [pullBytes, List.foldlM_cons, hok]
      rfl
    obtain ⟨more, -, happ⟩ := pullBytes_body hp hone
    exact ⟨_, hout.trans happ⟩
  · rw [pullByte_payload hp, bind_eq_ok] at hok
    obtain ⟨⟨d, r⟩, hstep, hok⟩ := hok
    obtain rfl := Except.ok.inj hok
    rw [pullByte_payload hp', hstep', bind_ok] at hn'
    obtain rfl := Except.ok.inj hn'
    rw [lookupTree_appendReaction, lookupTree_appendReaction]
    -- the verdict, which is the same, says what is still held
    rcases databaseStep_cases _ _ hstep with ⟨hv, rfl, -⟩ | ⟨hv, rfl, -⟩ | ⟨n, o, hv, -, rfl, -⟩ <;>
      rcases databaseStep_cases _ _ hstep' with
        ⟨hv', rfl, -⟩ | ⟨hv', rfl, -⟩ | ⟨n', o', hv', -, rfl, -⟩ <;>
      rw [hverdict, hv'] at hv <;> try cases hv
    · obtain ⟨t, ht⟩ := H.input
      exact ⟨t, by simp only [addInput, input_judge, ← List.append_assoc, ht]⟩
    · simp [clearInput]
    · simp [clearInput, addInput]

/-- Putting out what is held leaves nothing to differ in but that. -/
theorem Forced.flush (H : Forced m₁ m m') : Forced m₁ m.flushPendingDataToBuffer m' := by
  refine ⟨?_, H.consistent, ?_, ?_, ?_⟩
  · obtain ⟨out, hout⟩ := H.appended
    have happ := appended_forceOntoBuffer { m with lookupTree := m.lookupTree.clearInput }
      m.lookupTree.input
    rw [flushPendingDataToBuffer_eq]
    exact ⟨_, hout.trans ⟨happ.buffer, happ.payload, happ.headers, happ.headersUsed,
      happ.expectedPayload⟩⟩
  · rw [lookupTree_flushPendingDataToBuffer]
    exact H.core
  · rw [HttpMessage.text, buffer_flushPendingDataToBuffer, lookupTree_flushPendingDataToBuffer,
      ← H.text]
    simp [clearInput]
  · rw [lookupTree_flushPendingDataToBuffer]
    exact List.nil_suffix

/-- The books of a message that started as `m₀`, after `bytes` were read. Up to the end
of the header block it is what one long read makes of them. Behind it, only the held
bytes may differ from that. -/
structure Booked (rena : Rena) (type : ClientType) (peer : Option HttpMessage)
    (m₀ : HttpMessage) (bytes : List UInt8) (m : HttpMessage) : Prop where
  before : m.payload = none →
    m₀.pullBytes rena type peer bytes = .ok m ∧ m.expectedPayload < 0
  behind : m.payload.isSome → ∃ (d : Completion) (m' : HttpMessage),
    m₀.completed rena type peer bytes = some d ∧ d.done.payload.isSome ∧
      d.done.pullBytes rena type peer d.rest = .ok m' ∧ Forced d.done m m'

variable {m₀ : HttpMessage}

theorem booked_start (hp : m₀.payload = none) (hneg : m₀.expectedPayload < 0) :
    Booked rena type peer m₀ [] m₀ where
  before _ := ⟨rfl, hneg⟩
  behind hsome := by simp [hp] at hsome

/-- A byte is entered into the books. -/
theorem Booked.pullByte (H : Booked rena type peer m₀ bytes m) (Hm₀ : m₀.lookupTree.Consistent)
    {b : UInt8} (hok : m.pullByte rena type peer b = .ok m₁) :
    Booked rena type peer m₀ (bytes ++ [b]) m₁ := by
  by_cases hp : m.payload.isSome
  · have hp₁ : m₁.payload.isSome := (pullByte_judge hp hok).1 ▸ hp
    refine ⟨fun hnone => by simp [hnone] at hp₁, fun _ => ?_⟩
    obtain ⟨d, m', hcomp, hpc, hread, hforced⟩ := H.behind hp
    obtain ⟨n', hn', hforced'⟩ := hforced.pullByte hp (payload_pullBytes hpc hread) hok
    refine ⟨{ d with rest := d.rest ++ [b] }, n', completed_append hcomp [b], hpc, ?_, hforced'⟩
    rw [pullBytes_append, hread, bind_ok, HttpMessage.pullBytes, List.foldlM_cons, hn']
    rfl
  · have hnone : m.payload = none := by simpa using hp
    obtain ⟨hread, hneg⟩ := H.before hnone
    refine ⟨fun hnone₁ => ⟨?_, expectedPayload_pullByte hneg hok hnone₁⟩, fun hp₁ => ?_⟩
    · rw [pullBytes_append, hread, bind_ok, HttpMessage.pullBytes, List.foldlM_cons, hok]
      rfl
    · obtain ⟨c, hc, -⟩ := exists_handed hnone hneg hok hp₁
      refine ⟨⟨c, m₁, []⟩, m₁, ?_, hp₁, rfl, ?_⟩
      · rw [completed_of_pullBytes hread hnone, completed, hok]
        simp [hp₁, hc]
      · exact ⟨⟨[], by simp, rfl, rfl, rfl, rfl⟩,
          consistent_pullByte (consistent_pullBytes Hm₀ hread) hok, rfl, rfl, List.suffix_rfl⟩

theorem Booked.pullBytes (H : Booked rena type peer m₀ bytes m) (Hm₀ : m₀.lookupTree.Consistent)
    {more : List UInt8} (hok : m.pullBytes rena type peer more = .ok m₁) :
    Booked rena type peer m₀ (bytes ++ more) m₁ := by
  induction more generalizing bytes m with
  | nil =>
      obtain rfl : m = m₁ := Except.ok.inj hok
      rwa [List.append_nil]
  | cons b more ih =>
      rw [HttpMessage.pullBytes, List.foldlM_cons, bind_eq_ok] at hok
      obtain ⟨m', hb, hok⟩ := hok
      have := ih (H.pullByte Hm₀ hb) hok
      rwa [List.append_assoc] at this

theorem Booked.flush (H : Booked rena type peer m₀ bytes m) (hp : m.payload.isSome) :
    Booked rena type peer m₀ bytes m.flushPendingDataToBuffer := by
  refine ⟨fun hnone => ?_, fun _ => ?_⟩
  · rw [payload_flushPendingDataToBuffer] at hnone
    simp [hnone] at hp
  · obtain ⟨d, m', hcomp, hpc, hread, hforced⟩ := H.behind hp
    exact ⟨d, m', hcomp, hpc, hread, hforced.flush⟩

end HttpMessage

/-! ## Over the reads of a client -/

section Reads
variable {rena : Rena} {type : ClientType} {peer : Option HttpMessage} {fd : ℤ} {h h' : Http}
  {bytes : List UInt8}

/-- The books of a protocol: its message is booked and all bytes were counted. -/
structure Ledger (rena : Rena) (type : ClientType) (peer : Option HttpMessage)
    (bytes : List UInt8) (h : Http) : Prop where
  booked : HttpMessage.Booked rena type peer (.create rena type) bytes h.toHttpMessage
  received : h.bufferRecv = bytes.length

theorem ledger_create : Ledger rena type peer [] (.create rena type) :=
  ⟨HttpMessage.booked_start rfl (HttpMessage.expectedPayload_create rena type), rfl⟩

theorem Ledger.pullChunk (H : Ledger rena type peer bytes h) {chunk : List UInt8}
    (hok : h.pullChunk rena type peer chunk = .ok h') :
    Ledger rena type peer (bytes ++ chunk) h' := by
  rw [Http.pullChunk, bind_eq_ok] at hok
  obtain ⟨m, hm, hok⟩ := hok
  obtain rfl := Except.ok.inj hok
  exact ⟨H.booked.pullBytes (consistent_lookupTree rena type) hm, by simp [H.received]⟩

theorem Ledger.pullChunks {o o' : Option Http} {chunks : List (List UInt8)}
    (H : Ledger rena type peer bytes (o.getD (.create rena type)))
    (hok : Http.pullChunks rena type peer o chunks = .ok o') :
    Ledger rena type peer (bytes ++ chunks.flatten) (o'.getD (.create rena type)) := by
  by_cases hnone : chunks = []
  · subst hnone
    obtain rfl : o = o' := Except.ok.inj hok
    simpa using H
  · rw [Http.pullChunks_eq hnone, bind_eq_ok] at hok
    obtain ⟨h₁, hpull, hok⟩ := hok
    obtain rfl := Except.ok.inj hok
    exact H.pullChunk hpull

theorem Ledger.flush (H : Ledger rena type peer bytes h) (hp : h.payload.isSome) :
    Ledger rena type peer bytes h.flushPendingDataToBuffer :=
  ⟨H.booked.flush hp, H.received⟩

theorem Ledger.evaluated (H : Ledger rena type peer bytes h) :
    Ledger rena type peer bytes h.evaluated := by
  rw [Http.evaluated]
  by_cases hforce : h.forcesFlush
  · rw [if_pos hforce]
    exact H.flush (h.forcesFlush_iff.mp hforce).1
  · rw [if_neg hforce]
    exact H

/-- The books of a client whose connection is open. -/
def ClientLedger (rena : Rena) (type : ClientType) (peer : Option HttpMessage) (fd : ℤ)
    (bytes : List UInt8) (c : ClientInfo) : Prop :=
  c.fd = fd → Ledger rena type peer bytes (c.protocol.getD (.create rena type))

theorem ClientLedger.clientDoRead {c c' : ClientInfo} {ev : ReadEvent} {e : Evaluation}
    (hfd : 0 ≤ fd) (H : ClientLedger rena type peer fd bytes c)
    (hok : clientDoRead rena type peer c fd ev = .ok (c', e)) :
    ClientLedger rena type peer fd (bytes ++ ev.chunks.flatten) c' := by
  intro hfd'
  obtain ⟨c₁, ret, hpull, hlast⟩ := clientDoRead_cases hok
  have hfd₁ : c'.fd = c₁.fd := by
    rcases hlast with ⟨-, rfl, -⟩ | ⟨-, h, -, rfl, -⟩ <;> rfl
  rcases httpPull_cases hpull with ⟨hne, rfl, -⟩ | ⟨hc, p, hp, ⟨-, hclosed, -⟩ | ⟨-, -, hprot, -⟩⟩
  · exact absurd (hfd₁.symm.trans hfd') hne
  · omega
  · have H₁ := (H hc).pullChunks hp
    rcases hlast with ⟨-, rfl, -⟩ | ⟨-, h, hsome, rfl, -⟩
    · rw [hprot]
      exact H₁
    · rw [← hprot, hsome] at H₁
      exact H₁.evaluated

/-- **The books are right** after every sequence of reads. -/
theorem ledger_clientReads (hfd : 0 ≤ fd) {c c' : ClientInfo} {evs : List ReadEvent}
    (H : ClientLedger rena type peer fd bytes c)
    (hok : clientReads rena type peer fd c evs = .ok c') :
    ClientLedger rena type peer fd (bytes ++ (evs.flatMap (·.chunks)).flatten) c' := by
  induction evs generalizing bytes c with
  | nil =>
      obtain rfl : c = c' := Except.ok.inj hok
      simpa using H
  | cons ev evs ih =>
      rw [clientReads_cons, bind_eq_ok] at hok
      obtain ⟨⟨c₁, e⟩, hread, hok⟩ := hok
      have := ih (H.clientDoRead hfd hread) hok
      rwa [List.append_assoc, ← List.flatten_append, ← List.flatMap_cons] at this

end Reads

end RenaProxy
