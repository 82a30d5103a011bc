import RenaProxy.Http.Relay
import RenaProxy.Http.Ledger

/-!
# What a requester is sent

Reads of the victim and writes to the requester come in any order, and the network cuts the response
anywhere. `Relay.written_of_run` says that what is written is the beginning of one text all the same,
the one that a single read of the response gives, and all of it in the end. `Relay.written_body` says
what that is: the header block as it was processed, and behind it the body as the rewriter puts it
out.
-/
namespace RenaProxy
open Failure DatabaseObject StreamTransducer

/-! ## Behind the header block -/

section Body
variable {rena : Rena} {type : ClientType} {peer : Option HttpMessage} {m m' : HttpMessage}
  {body : List UInt8}
open HttpMessage

/-- Where the context allows nothing, a byte is put out or held and never replaced. -/
theorem judge_nothingAllowed {d : DatabaseObject Context} (hd : d.context = some .nothingAllowed)
    (b : UInt8) : (d.judge b).1.context = some .nothingAllowed ∧
      ∀ total, (d.judge b).2.apply total b = total ++ [b] := by
  have hctx : d.evaluateContext b = ({ d with context := some .nothingAllowed }, false) := by
    rw [evaluateContext, hd]
    rfl
  rw [judge, hctx, if_neg Bool.false_ne_true]
  refine ⟨rfl, fun total => ?_⟩
  dsimp only
  split <;> rfl

theorem text_nothingAllowed (hp : m.payload.isSome)
    (hcontext : m.lookupTree.context = some .nothingAllowed)
    (hok : m.pullBytes rena type peer body = .ok m') : m'.text = m.text ++ body := by
  induction body generalizing m with
  | nil =>
      obtain rfl := Except.ok.inj hok
      exact (List.append_nil _).symm
  | cons b body ih =>
      rw [HttpMessage.pullBytes, List.foldlM_cons, bind_eq_ok] at hok
      obtain ⟨m₁, hbyte, hok⟩ := hok
      obtain ⟨hpay, hcore, htext⟩ := pullByte_judge hp hbyte
      obtain ⟨hctx, happly⟩ := judge_nothingAllowed hcontext b
      have hcontext₁ : m₁.lookupTree.context = some .nothingAllowed := by
        have h : m₁.lookupTree.core.context = _ := congrArg DatabaseObject.context hcore
        exact h.trans hctx
      rw [ih (hpay ▸ hp) hcontext₁ hok, htext, happly, List.append_assoc]
      rfl

end Body

namespace Relay
variable {rena : Rena} {vfd rfd : ℤ} {s s' : Relay} {q : Http} {m : HttpMessage}

/-! ## The text that was read -/

/-- After a read `http_evaluate` does not force held bytes out while a candidate is alive. -/
def QuietRead (rena : Rena) (vfd : ℤ) (s : Relay) (ev : ReadEvent) : Prop :=
  OnOk (fun x : ClientInfo × ℤ => x.2 = 0 → x.1.Quiet)
    (httpPull rena .victim (s.requester.protocol.map (·.toHttpMessage)) s.victim vfd ev)

instance (ev : ReadEvent) : Decidable (s.QuietRead rena vfd ev) :=
  inferInstanceAs (Decidable (OnOk (fun x : ClientInfo × ℤ => x.2 = 0 → x.1.Quiet) _))

/-- An event does not make it do so. -/
def Quietly (rena : Rena) (vfd : ℤ) (s : Relay) : RelayEvent → Prop
  | .read ev => s.QuietRead rena vfd ev
  | .write _ => True

/-- No event of a run does. -/
def QuietRun (rena : Rena) (vfd rfd : ℤ) : Relay → List RelayEvent → Prop
  | _, [] => True
  | s, e :: es => s.Quietly rena vfd e ∧
      OnOk (fun s' => QuietRun rena vfd rfd s' es) (s.step rena vfd rfd e)

instance : (e : RelayEvent) → Decidable (s.Quietly rena vfd e)
  | .read ev => inferInstanceAs (Decidable (s.QuietRead rena vfd ev))
  | .write _ => inferInstanceAs (Decidable True)

instance decidableQuietRun : (es : List RelayEvent) → (s : Relay) →
    Decidable (QuietRun rena vfd rfd s es)
  | [], _ => isTrue trivial
  | e :: es, s =>
      have := decidableQuietRun es
      inferInstanceAs (Decidable (s.Quietly rena vfd e ∧
        OnOk (fun s' => QuietRun rena vfd rfd s' es) (s.step rena vfd rfd e)))

/-- An event that finds the victim's connection closed. -/
def Closes : RelayEvent → Bool
  | .read ev => ev.stop = .closed
  | .write _ => false

/-- The bytes that an event brings. -/
def brought : RelayEvent → List UInt8
  | .read ev => ev.chunks.flatten
  | .write _ => []

/-- The response, as far as it was read. -/
def received : List RelayEvent → List UInt8
  | [] => []
  | e :: es => brought e ++ if Closes e then [] else received es

/-- Only the TLS layer gives events without bytes. -/
def HasBytes : RelayEvent → Prop
  | .read ev => ev.stop = .retry → ev.chunks ≠ []
  | .write _ => True

instance : DecidablePred HasBytes := fun e =>
  match e with
  | .read ev => inferInstanceAs (Decidable (ev.stop = .retry → ev.chunks ≠ []))
  | .write _ => isTrue trivial

/-- The victim has the text of `m`: part of it may be held, unless the stream has ended. -/
def Has (rena : Rena) (vfd : ℤ) (s : Relay) (m : HttpMessage) (ended : Bool) : Prop :=
  if ended then s.victim.fd = -1 ∧ s.victim.contents = m.text
  else s.victim.fd = vfd ∧ HttpMessage.Same (s.victim.message rena .victim) m

/-- `http_push2` never touches the protocol of the client that it writes to. -/
theorem protocol_httpPush2 {pp pp' : Http} {client client' : ClientInfo} {pfd ret : ℤ}
    {res : WriteResult} {sent : List UInt8}
    (hok : httpPush2 pp client pfd res = .ok (pp', client', sent, ret)) :
    client'.protocol = client.protocol := by
  unfold httpPush2 at hok
  by_cases hdone : client.wantSsl = 0 ∧ pp.buffer.length = pp.bufferSent
  · rw [if_pos hdone] at hok
    cases hok
    rfl
  · rw [if_neg hdone] at hok
    by_cases hover : pp.buffer.length < pp.bufferSent
    · rw [if_pos hover] at hok
      cases hok
    · rw [if_neg hover] at hok
      rcases res with ⟨_ | n⟩ | _ | _ | _ <;> cases hok <;> rfl

/-- A write moves the send offset of the victim's protocol and no message. -/
theorem write_cases {res : WriteResult} (hq : s.requester.protocol = some q)
    (hok : s.step rena vfd rfd (.write res) = .ok s') :
    s'.requester.protocol = some q ∧ s'.victim.fd = s.victim.fd ∧
      s'.victim.protocol.map (·.toHttpMessage) = s.victim.protocol.map (·.toHttpMessage) := by
  rw [step, bind_eq_ok] at hok
  obtain ⟨⟨requester, victim, sent, ret⟩, hpush, hok⟩ := hok
  obtain rfl := Except.ok.inj hok
  unfold httpPush at hpush
  by_cases hfd : s.requester.fd = rfd
  · rw [if_neg (not_not.mpr hfd)] at hpush
    dsimp only at hpush
    cases hprot : s.victim.protocol with
    | none =>
        rw [hprot] at hpush
        cases hpush
        exact ⟨by rw [hq]; rfl, rfl, congrArg _ hprot⟩
    | some pp =>
        rw [hprot] at hpush
        dsimp only at hpush
        rw [bind_eq_ok] at hpush
        obtain ⟨⟨pp', c, sent', ret'⟩, hpush2, hpush⟩ := hpush
        cases hpush
        obtain ⟨rfl, -⟩ := httpPush2_cases hpush2
        refine ⟨?_, rfl, rfl⟩
        rw [protocol_httpPush2 hpush2, hq]
        rfl
  · rw [if_pos hfd] at hpush
    cases hpush
    exact ⟨hq, rfl, rfl⟩

/-! ## The invariant -/

theorem map_eq_message (rena : Rena) {c c' : ClientInfo}
    (h : c'.protocol.map (·.toHttpMessage) = c.protocol.map (·.toHttpMessage)) :
    c'.message rena .victim = c.message rena .victim ∧ c'.contents = c.contents := by
  cases hc : c.protocol <;> cases hc' : c'.protocol <;> rw [hc, hc'] at h
  · exact ⟨by rw [ClientInfo.message, ClientInfo.message, hc, hc'],
      by rw [ClientInfo.contents, ClientInfo.contents, hc, hc']⟩
  · cases h
  · cases h
  · have hm := Option.some.inj h
    refine ⟨?_, ?_⟩
    · rw [ClientInfo.message, ClientInfo.message, hc, hc']
      exact hm
    · rw [ClientInfo.contents, ClientInfo.contents, hc, hc']
      exact congrArg HttpMessage.buffer hm

theorem Has.write {res : WriteResult} {ended : Bool} (H : s.Has rena vfd m ended)
    (hq : s.requester.protocol = some q)
    (hok : s.step rena vfd rfd (.write res) = .ok s') : s'.Has rena vfd m ended := by
  obtain ⟨-, hfd, hmap⟩ := write_cases hq hok
  obtain ⟨hmsg, hcont⟩ := map_eq_message rena hmap
  cases ended with
  | true => exact ⟨hfd.trans H.1, hcont.trans H.2⟩
  | false =>
      refine ⟨hfd.trans H.1, ?_⟩
      rw [hmsg]
      exact H.2

/-- A read that finds the connection closed leaves no descriptor. -/
theorem fd_closed {c : ClientInfo} {chunks : List (List UInt8)} {peer : Option HttpMessage}
    {x : ClientInfo × Evaluation} (hfd : c.fd = vfd)
    (hok : clientDoRead rena .victim peer c vfd ⟨chunks, .closed⟩ = .ok x) : x.1.fd = -1 := by
  rw [clientDoRead_closed hfd _ (readFits_of_clientDoRead hok), bind_eq_ok] at hok
  obtain ⟨p, -, hok⟩ := hok
  obtain rfl := Except.ok.inj hok
  rfl

theorem requester_read {ev : ReadEvent} (hok : s.step rena vfd rfd (.read ev) = .ok s') :
    s'.requester = s.requester := by
  rw [step, bind_eq_ok] at hok
  obtain ⟨⟨victim, e⟩, -, hok⟩ := hok
  obtain rfl := Except.ok.inj hok
  rfl

/-- A read takes its bytes into the message, unless the stream has ended before. -/
theorem Has.read {ev : ReadEvent} {ended : Bool} (H : s.Has rena vfd m ended) (hvfd : 0 ≤ vfd)
    (hbytes : HasBytes (.read ev)) (hquiet : s.QuietRead rena vfd ev)
    (hq : s.requester.protocol = some q) (hok : s.step rena vfd rfd (.read ev) = .ok s') :
    ∃ m', m.pullBytes rena .victim (some q.toHttpMessage)
        (if ended then [] else ev.chunks.flatten) = .ok m' ∧
      s'.Has rena vfd m' (ended || Closes (.read ev)) := by
  rw [step, bind_eq_ok] at hok
  obtain ⟨⟨victim, e⟩, hread, hok⟩ := hok
  obtain rfl := Except.ok.inj hok
  rw [QuietRead, hq] at hquiet
  rw [hq] at hread
  cases ended with
  | true =>
      obtain ⟨hfd, hcont⟩ := H
      obtain ⟨c, ret, hpull, hlast⟩ := clientDoRead_cases hread
      rcases httpPull_cases hpull with ⟨-, rfl, rfl⟩ | ⟨hopen, -⟩
      · rcases hlast with ⟨-, rfl, -⟩ | ⟨h, -⟩
        · exact ⟨m, rfl, hfd, hcont⟩
        · omega
      · omega
  | false =>
      obtain ⟨hfd, hsame⟩ := H
      by_cases hstop : ev.stop = .closed
      · obtain ⟨chunks, stop⟩ := ev
        obtain rfl : stop = .closed := hstop
        obtain ⟨m', hm', hcont⟩ :=
          (alike_closed hfd hsame chunks (readFits_of_clientDoRead hread)).exists_ok hread
        refine ⟨m', hm', fd_closed hfd hread, hcont⟩
      · obtain ⟨m', hm', hfd', hsame'⟩ :=
          (alike_clientDoRead hfd hsame hstop hbytes (readFits_of_clientDoRead hread)
            hquiet).exists_ok hread
        refine ⟨m', hm', ?_⟩
        rw [Bool.false_or, Closes, decide_eq_false hstop]
        exact ⟨hfd', hsame'⟩

/-- A run leaves the victim with the text of the bytes that were read. -/
theorem Has.run {es : List RelayEvent} {ended : Bool} (hvfd : 0 ≤ vfd) (H : s.Has rena vfd m ended)
    (hq : s.requester.protocol = some q) (hbytes : ∀ e ∈ es, HasBytes e)
    (hquiet : QuietRun rena vfd rfd s es) (hok : run rena vfd rfd s es = .ok s') :
    ∃ m', m.pullBytes rena .victim (some q.toHttpMessage)
        (if ended then [] else received es) = .ok m' ∧
      s'.Has rena vfd m' (ended || es.any Closes) := by
  induction es generalizing s m ended with
  | nil =>
      obtain rfl := Except.ok.inj hok
      refine ⟨m, by cases ended <;> rfl, ?_⟩
      rw [List.any_nil, Bool.or_false]
      exact H
  | cons e es ih =>
      rw [Relay.run, List.foldlM_cons, bind_eq_ok] at hok
      obtain ⟨s₁, hstep, hok⟩ := hok
      obtain ⟨he, htail⟩ := List.forall_mem_cons.mp hbytes
      obtain ⟨hquiet, hrest⟩ := hquiet
      cases e with
      | write res =>
          have hq₁ := (write_cases hq hstep).1
          exact ih (H.write hq hstep) hq₁ htail (hrest s₁ hstep) hok
      | read ev =>
          obtain ⟨m₁, hm₁, H₁⟩ := H.read hvfd he hquiet hq hstep
          have hq₁ : s₁.requester.protocol = some q := (requester_read hstep).symm ▸ hq
          obtain ⟨m', hm', H'⟩ := ih H₁ hq₁ htail (hrest s₁ hstep) hok
          refine ⟨m', ?_, ?_⟩
          · cases ended with
            | true =>
                obtain rfl := Except.ok.inj hm₁
                exact hm'
            | false =>
                rw [if_neg Bool.false_ne_true] at hm₁ ⊢
                rw [received, HttpMessage.pullBytes_append, brought, hm₁, bind_ok]
                exact hm'
          · rw [List.any_cons, ← Bool.or_assoc]
            exact H'

/-- What was written, by the text that the victim has. -/
theorem Has.written {ended : Bool} (H : s.Has rena vfd m ended) (hinv : Inv rena s) :
    s.written <+: m.text ∧
      (ended → (s.protocol rena).bufferSent = (s.protocol rena).buffer.length →
        s.written = m.text) := by
  have hpre : s.written <+: (s.protocol rena).buffer := hinv.sound.2
  cases ended with
  | true =>
      have hbuffer : (s.protocol rena).buffer = m.text := by
        rw [← H.2, ClientInfo.contents, Relay.protocol]
        cases s.victim.protocol <;> rfl
      refine ⟨hbuffer ▸ hpre, fun _ hall => ?_⟩
      rw [hinv.written_eq, hall, List.take_length, hbuffer]
  | false =>
      refine ⟨?_, fun h => absurd h Bool.false_ne_true⟩
      rw [← H.2.text]
      exact hpre.trans (List.prefix_append _ _)

/-- A run from the beginning of the response, with the text that was read and what of it was
written. -/
theorem delivery {requester : ClientInfo} {ssl : Bool} {es : List RelayEvent} (hvfd : 0 ≤ vfd)
    (hq : requester.protocol = some q) (hbytes : ∀ e ∈ es, HasBytes e)
    (hquiet : QuietRun rena vfd rfd (start vfd ssl requester) es)
    (hspare : SparingRun rena vfd rfd (start vfd ssl requester) es)
    (hok : run rena vfd rfd (start vfd ssl requester) es = .ok s) :
    ∃ m, (HttpMessage.create rena .victim).pullBytes rena .victim (some q.toHttpMessage)
        (received es) = .ok m ∧ s.written <+: m.text ∧
      (es.any Closes → (s.protocol rena).bufferSent = (s.protocol rena).buffer.length →
        s.written = m.text) := by
  have hstart : (start vfd ssl requester).Has rena vfd (.create rena .victim) false :=
    ⟨rfl, .refl (consistent_lookupTree rena .victim)⟩
  obtain ⟨m, hm, H⟩ := hstart.run hvfd hq hbytes hquiet hok
  have hstep : ∀ s e es s', Inv rena s ∧ SparingRun rena vfd rfd s (e :: es) →
      s.step rena vfd rfd e = .ok s' → Inv rena s' ∧ SparingRun rena vfd rfd s' es := by
    rintro s e es s' ⟨H, hspares, hrest⟩ hok
    exact ⟨H.step hspares hok, hrest s' hok⟩
  have hinv : Inv rena s ∧ SparingRun rena vfd rfd s [] :=
    foldlM_invariant_rest (fun s es => Inv rena s ∧ SparingRun rena vfd rfd s es) hstep
      ⟨inv_start rena vfd ssl requester, hspare⟩ hok
  exact ⟨m, hm, H.written hinv.1⟩

/-! ## What the requester gets -/

/-- **The requester gets one text**, wherever the network cuts the response and whenever the
socket takes bytes: what was written is the beginning of what a single read of the bytes so far
comes to, and all of that once the victim has closed and the buffer was sent to its end. -/
theorem written_of_run (rena : Rena) (vfd rfd : ℤ) (hvfd : 0 ≤ vfd) (ssl : Bool)
    (requester : ClientInfo) (q : Http) (hq : requester.protocol = some q)
    (es : List RelayEvent) (hbytes : ∀ e ∈ es, HasBytes e)
    (hquiet : QuietRun rena vfd rfd (start vfd ssl requester) es)
    (hspare : SparingRun rena vfd rfd (start vfd ssl requester) es) (s : Relay)
    (hok : run rena vfd rfd (start vfd ssl requester) es = .ok s) :
    ∃ m, (HttpMessage.create rena .victim).pullBytes rena .victim (some q.toHttpMessage)
        (received es) = .ok m ∧ s.written <+: m.text ∧
      (es.any Closes → (s.protocol rena).bufferSent = (s.protocol rena).buffer.length →
        s.written = m.text) :=
  delivery hvfd hq hbytes hquiet hspare hok

/-- A requester whose request was read. -/
def asking : ClientInfo := { waiting with protocol := some (.create renaAbcd .requester) }

/-- A header block of the given content type. -/
def blockOf (mime : String) : List UInt8 :=
  chars "HTTP/1.1 200 OK\r\nContent-Type: " ++ chars mime ++ chars "\r\n\r\n"

/-- The response is cut inside the key, and written in two parts. -/
def cutInKey (mime : String) : List RelayEvent :=
  [.read ⟨[blockOf mime ++ chars "//a"], .retry⟩, .write (.wrote 10),
    .read ⟨[chars "bcd x"], .closed⟩, .write (.wrote 99)]

theorem written_of_run_cutInKey :
    ∃ (s : Relay) (m : HttpMessage),
      run renaAbcd 5 7 (start 5 false asking) (cutInKey "text/css") = .ok s ∧
      (HttpMessage.create renaAbcd .victim).pullBytes renaAbcd .victim
        (some (HttpMessage.create renaAbcd .requester)) (received (cutInKey "text/css")) = .ok m ∧
      s.written <+: m.text := by
  obtain ⟨s, hs, -⟩ := exists_ok_of_check (p := fun s => s.written.length = 48)
    (x := run renaAbcd 5 7 (start 5 false asking) (cutInKey "text/css")) (by decide +kernel)
  obtain ⟨m, hm, hpre, -⟩ := written_of_run renaAbcd 5 7 (by decide) false asking
    (.create renaAbcd .requester) rfl (cutInKey "text/css") (by decide) (by decide +kernel)
    (by decide +kernel) s hs
  exact ⟨s, m, hs, hm, hpre⟩

/-- **The body goes through the rewriter**: behind the header block, as it was processed, comes
what the rewriter puts out for the body with the context that the block has set up. -/
theorem written_body (rena : Rena) (vfd rfd : ℤ) (hvfd : 0 ≤ vfd) (ssl : Bool)
    (requester : ClientInfo) (q : Http) (hq : requester.protocol = some q)
    (es : List RelayEvent) (hbytes : ∀ e ∈ es, HasBytes e)
    (hquiet : QuietRun rena vfd rfd (start vfd ssl requester) es)
    (hspare : SparingRun rena vfd rfd (start vfd ssl requester) es) (s : Relay)
    (hok : run rena vfd rfd (start vfd ssl requester) es = .ok s) (block body : List UInt8)
    (hreceived : received es = block ++ body) (m₀ : HttpMessage)
    (hblock : (HttpMessage.create rena .victim).pullBytes rena .victim (some q.toHttpMessage)
      block = .ok m₀) (hpayload : m₀.payload.isSome) :
    ∃ out, rewrite m₀.lookupTree body = .ok out ∧ s.written <+: m₀.buffer ++ out ∧
      (es.any Closes → (s.protocol rena).bufferSent = (s.protocol rena).buffer.length →
        s.written = m₀.buffer ++ out) := by
  obtain ⟨m, hm, hpre, hall⟩ := delivery hvfd hq hbytes hquiet hspare hok
  rw [hreceived, HttpMessage.pullBytes_append, hblock, bind_ok] at hm
  obtain ⟨out, hout, htext⟩ := HttpMessage.text_body hpayload hm
  rw [htext] at hpre hall
  exact ⟨out, hout, hpre, hall⟩

theorem written_body_cutInKey :
    ∃ (s : Relay) (m₀ : HttpMessage) (out : List UInt8),
      run renaAbcd 5 7 (start 5 false asking) (cutInKey "text/css") = .ok s ∧
      rewrite m₀.lookupTree (chars "//abcd x") = .ok out ∧ s.written = m₀.buffer ++ out := by
  obtain ⟨s, hs, hsent⟩ := exists_ok_of_check
    (p := fun s => (s.protocol renaAbcd).bufferSent = (s.protocol renaAbcd).buffer.length)
    (x := run renaAbcd 5 7 (start 5 false asking) (cutInKey "text/css")) (by decide +kernel)
  obtain ⟨m₀, hm₀, hpayload⟩ := exists_ok_of_check (p := fun m => m.payload.isSome)
    (x := (HttpMessage.create renaAbcd .victim).pullBytes renaAbcd .victim
      (some (HttpMessage.create renaAbcd .requester)) (blockOf "text/css")) (by decide +kernel)
  obtain ⟨out, hout, -, hall⟩ := written_body renaAbcd 5 7 (by decide) false asking
    (.create renaAbcd .requester) rfl (cutInKey "text/css") (by decide) (by decide +kernel)
    (by decide +kernel) s hs (blockOf "text/css") (chars "//abcd x") (by decide) m₀ hm₀ hpayload
  exact ⟨s, m₀, out, hs, hout, hall rfl (of_decide_eq_true hsent)⟩

/-- **A body of another kind is not touched**: where the header block has set up
`context_nothing_allowed`, the body is written as it came, byte for byte. -/
theorem written_untouched (rena : Rena) (vfd rfd : ℤ) (hvfd : 0 ≤ vfd) (ssl : Bool)
    (requester : ClientInfo) (q : Http) (hq : requester.protocol = some q)
    (es : List RelayEvent) (hbytes : ∀ e ∈ es, HasBytes e)
    (hquiet : QuietRun rena vfd rfd (start vfd ssl requester) es)
    (hspare : SparingRun rena vfd rfd (start vfd ssl requester) es) (s : Relay)
    (hok : run rena vfd rfd (start vfd ssl requester) es = .ok s) (block body : List UInt8)
    (hreceived : received es = block ++ body) (m₀ : HttpMessage)
    (hblock : (HttpMessage.create rena .victim).pullBytes rena .victim (some q.toHttpMessage)
      block = .ok m₀) (hpayload : m₀.payload.isSome)
    (hcontext : m₀.lookupTree.context = some .nothingAllowed) :
    s.written <+: m₀.text ++ body ∧
      (es.any Closes → (s.protocol rena).bufferSent = (s.protocol rena).buffer.length →
        s.written = m₀.text ++ body) := by
  obtain ⟨m, hm, hpre, hall⟩ := delivery hvfd hq hbytes hquiet hspare hok
  rw [hreceived, HttpMessage.pullBytes_append, hblock, bind_ok] at hm
  rw [text_nothingAllowed hpayload hcontext hm] at hpre hall
  exact ⟨hpre, hall⟩

theorem written_untouched_cutInKey :
    ∃ (s : Relay) (m₀ : HttpMessage),
      run renaAbcd 5 7 (start 5 false asking) (cutInKey "image/png") = .ok s ∧
      m₀.lookupTree.context = some .nothingAllowed ∧
      s.written = m₀.text ++ chars "//abcd x" := by
  obtain ⟨s, hs, hsent⟩ := exists_ok_of_check
    (p := fun s => (s.protocol renaAbcd).bufferSent = (s.protocol renaAbcd).buffer.length)
    (x := run renaAbcd 5 7 (start 5 false asking) (cutInKey "image/png")) (by decide +kernel)
  obtain ⟨m₀, hm₀, hcheck⟩ := exists_ok_of_check
    (p := fun m => decide (m.payload.isSome ∧ m.lookupTree.context = some .nothingAllowed))
    (x := (HttpMessage.create renaAbcd .victim).pullBytes renaAbcd .victim
      (some (HttpMessage.create renaAbcd .requester)) (blockOf "image/png")) (by decide +kernel)
  obtain ⟨hpayload, hcontext⟩ := of_decide_eq_true hcheck
  obtain ⟨-, hall⟩ := written_untouched renaAbcd 5 7 (by decide) false asking
    (.create renaAbcd .requester) rfl (cutInKey "image/png") (by decide) (by decide +kernel)
    (by decide +kernel) s hs (blockOf "image/png") (chars "//abcd x") (by decide) m₀ hm₀ hpayload
    hcontext
  exact ⟨s, m₀, hs, hcontext, hall rfl (of_decide_eq_true hsent)⟩

end Relay

end RenaProxy
