import RenaProxy.Http.Edits
import RenaProxy.Http.Segmentation

/-!
# The transfer of a response

The victim side is read into its buffer while the requester side sends from it. Every
interleaving of reads and writes is a list of `RelayEvent`. What was written stays a
prefix of the buffer unless header processing edits bytes that are on their way
already or a read leaves the block of the buffer (`sound_of_sparingRun`).
-/
namespace RenaProxy
open Failure HttpMessage

/-- The transfer of a response: the victim that it is read from, the requester that it is
sent to, and all bytes written to the socket of the requester. -/
structure Relay where
  victim : ClientInfo
  requester : ClientInfo
  written : List UInt8

/-- An event on one of the two sockets. -/
inductive RelayEvent
  | read (ev : ReadEvent)
  | write (res : WriteResult)
  deriving DecidableEq, Repr

namespace Relay
variable (rena : Rena) (vfd rfd : ℤ)

/-- The connections when the response begins. -/
def start (ssl : Bool) (requester : ClientInfo) : Relay := ⟨.fresh vfd ssl, requester, []⟩

/-- `client_do_read` of the victim or `client_do_write` of the requester. -/
def step (s : Relay) : RelayEvent → Except Fault Relay
  | .read ev => do
      let peer := s.requester.protocol.map (·.toHttpMessage)
      let (victim, _) ← clientDoRead rena .victim peer s.victim vfd ev
      pure { s with victim := victim }
  | .write res => do
      let (requester, victim, sent, _) ←
        httpPush rena .requester s.requester (some s.victim) rfd res
      pure ⟨victim.getD s.victim, requester, s.written ++ sent⟩

/-- A run of the transfer. -/
def run (s : Relay) (es : List RelayEvent) : Except Fault Relay := es.foldlM (step rena vfd rfd) s

/-- The protocol of the victim. -/
def protocol (s : Relay) : Http := s.victim.protocol.getD (.create rena .victim)

/-- What was sent was in the buffer and is still there: `buffer_sent` is at most
`buffer_used`, and all that was written is the beginning of the buffer. -/
def Sound (s : Relay) : Prop :=
  (s.protocol rena).bufferSent ≤ (s.protocol rena).buffer.length ∧
    s.written <+: (s.protocol rena).buffer

end Relay

/-! ## Edits of what was sent -/

namespace HttpMessage
variable {rena : Rena} {type : ClientType} {peer : Option HttpMessage} {m m₁ m' : HttpMessage}
  {k : ℕ}

/-- Among the bytes, none has a header block processed with an edit before `k`. -/
def SparesBytes (rena : Rena) (type : ClientType) (peer : Option HttpMessage) (k : ℕ) :
    HttpMessage → List UInt8 → Prop
  | _, [] => True
  | m, b :: bytes =>
      (∀ m₁ ∈ m.handed b, ∀ p ∈ m₁.editPlaces rena.suffix type, k ≤ p) ∧
      OnOk (fun m' => SparesBytes rena type peer k m' bytes) (m.pullByte rena type peer b)

instance decidableSparesBytes (rena : Rena) (type : ClientType) (peer : Option HttpMessage)
    (k : ℕ) : (bytes : List UInt8) → (m : HttpMessage) →
    Decidable (SparesBytes rena type peer k m bytes)
  | [], _ => isTrue trivial
  | b :: bytes, m =>
      have := decidableSparesBytes rena type peer k bytes
      inferInstanceAs (Decidable ((∀ m₁ ∈ m.handed b, ∀ p ∈ m₁.editPlaces rena.suffix type, k ≤ p) ∧
        OnOk (fun m' => SparesBytes rena type peer k m' bytes) (m.pullByte rena type peer b)))

theorem Appended.keeps {text : List UInt8} (happ : Appended m m' text) (hk : k ≤ m.buffer.length) :
    Keeps k m m' := by
  constructor
  · rw [happ.buffer, List.length_append]
    omega
  · rw [happ.buffer, List.take_append_of_le_length hk]

/-- A byte is appended, and what is then handed to header processing is processed. -/
theorem pullByte_handed {b : UInt8} (hok : m.pullByte rena type peer b = .ok m') :
    ∃ m₁ text, Appended m m₁ text ∧
      (m' = m₁ ∨ (m.handed b = some m₁ ∧ m₁.evaluateHeaders rena type peer = .ok m')) := by
  rw [pullByte_eq, bind_eq_ok] at hok
  obtain ⟨⟨d, r⟩, hstep, hok⟩ := hok
  have happ := (appended_appendReaction { m with lookupTree := d } r).trans
    (appended_checkDelimiterHeader _ (seenByte b r))
  refine ⟨_, _, ⟨happ.buffer, happ.payload, happ.headers, happ.headersUsed,
    happ.expectedPayload⟩, ?_⟩
  dsimp only at hok
  rw [handed, hstep]
  dsimp only
  split at hok
  · rename_i hdone
    exact .inr ⟨if_pos hdone, hok⟩
  · exact .inl (Except.ok.inj hok).symm

theorem keeps_pullByte {b : UInt8} (hk : k ≤ m.buffer.length)
    (hspare : ∀ m₁ ∈ m.handed b, ∀ p ∈ m₁.editPlaces rena.suffix type, k ≤ p)
    (hok : m.pullByte rena type peer b = .ok m') : Keeps k m m' := by
  obtain ⟨m₁, text, happ, rfl | ⟨hhanded, heval⟩⟩ := pullByte_handed hok
  · exact happ.keeps hk
  · have hkeeps := happ.keeps hk
    exact hkeeps.trans (keeps_evaluateHeaders hkeeps.le_length (hspare m₁ hhanded) heval)

theorem keeps_pullBytes {bytes : List UInt8} (hk : k ≤ m.buffer.length)
    (hspare : SparesBytes rena type peer k m bytes)
    (hok : m.pullBytes rena type peer bytes = .ok m') : Keeps k m m' := by
  induction bytes generalizing m with
  | nil =>
      obtain rfl : m = m' := Except.ok.inj hok
      exact keeps_refl hk
  | cons b bytes ih =>
      rw [pullBytes, List.foldlM_cons, bind_eq_ok] at hok
      obtain ⟨m₁, hb, hok⟩ := hok
      have hkeeps := keeps_pullByte hk hspare.1 hb
      exact hkeeps.trans (ih hkeeps.le_length (hspare.2 m₁ hb) hok)

end HttpMessage

namespace Relay
variable {rena : Rena} {vfd rfd : ℤ} {s s' : Relay}

/-- An event spares what was sent: if it is a read, header processing does not edit before
`buffer_sent`. -/
def Spares (rena : Rena) (vfd : ℤ) (s : Relay) : RelayEvent → Prop
  | .read ev => s.victim.fd = vfd →
      SparesBytes rena .victim (s.requester.protocol.map (·.toHttpMessage))
        (s.protocol rena).bufferSent (s.protocol rena).toHttpMessage ev.chunks.flatten
  | .write _ => True

/-- All events of a run spare what was sent before them. -/
def SparingRun (rena : Rena) (vfd rfd : ℤ) : Relay → List RelayEvent → Prop
  | _, [] => True
  | s, e :: es => s.Spares rena vfd e ∧
      OnOk (fun s' => SparingRun rena vfd rfd s' es) (s.step rena vfd rfd e)

instance (e : RelayEvent) : Decidable (s.Spares rena vfd e) :=
  match e with
  | .read ev => inferInstanceAs (Decidable (s.victim.fd = vfd → SparesBytes rena .victim
      (s.requester.protocol.map (·.toHttpMessage)) (s.protocol rena).bufferSent
      (s.protocol rena).toHttpMessage ev.chunks.flatten))
  | .write _ => isTrue trivial

instance decidableSparingRun : (es : List RelayEvent) → (s : Relay) →
    Decidable (SparingRun rena vfd rfd s es)
  | [], _ => isTrue trivial
  | e :: es, s =>
      have := decidableSparingRun es
      inferInstanceAs (Decidable (s.Spares rena vfd e ∧
        OnOk (fun s' => SparingRun rena vfd rfd s' es) (s.step rena vfd rfd e)))

/-- An event stays in the block of the victim's buffer. -/
def Fitting (rena : Rena) (vfd : ℤ) (s : Relay) : RelayEvent → Prop
  | .read ev =>
      ReadFits rena .victim (s.requester.protocol.map (·.toHttpMessage)) s.victim vfd ev
  | .write _ => True

/-- All events of a run do. -/
def FittingRun (rena : Rena) (vfd rfd : ℤ) : Relay → List RelayEvent → Prop
  | _, [] => True
  | s, e :: es => s.Fitting rena vfd e ∧
      OnOk (fun s' => FittingRun rena vfd rfd s' es) (s.step rena vfd rfd e)

instance (e : RelayEvent) : Decidable (s.Fitting rena vfd e) :=
  match e with
  | .read ev => inferInstanceAs (Decidable (ReadFits rena .victim
      (s.requester.protocol.map (·.toHttpMessage)) s.victim vfd ev))
  | .write _ => isTrue trivial

instance decidableFittingRun : (es : List RelayEvent) → (s : Relay) →
    Decidable (FittingRun rena vfd rfd s es)
  | [], _ => isTrue trivial
  | e :: es, s =>
      have := decidableFittingRun es
      inferInstanceAs (Decidable (s.Fitting rena vfd e ∧
        OnOk (fun s' => FittingRun rena vfd rfd s' es) (s.step rena vfd rfd e)))

/-! ## The invariant -/

/-- What was written is what the buffer has before `buffer_sent`. -/
structure Inv (rena : Rena) (s : Relay) : Prop where
  sent_le : (s.protocol rena).bufferSent ≤ (s.protocol rena).buffer.length
  written_eq : s.written = (s.protocol rena).buffer.take (s.protocol rena).bufferSent

theorem Inv.sound (H : Inv rena s) : Sound rena s :=
  ⟨H.sent_le, by rw [H.written_eq]; exact List.take_prefix _ _⟩

theorem inv_start (rena : Rena) (vfd : ℤ) (ssl : Bool) (requester : ClientInfo) :
    Inv rena (start vfd ssl requester) := ⟨le_rfl, rfl⟩

/-- A protocol with the same send offset and the bytes before it kept. -/
private theorem Inv.of_keeps (H : Inv rena s) {victim : ClientInfo}
    (hsent : (victim.protocol.getD (.create rena .victim)).bufferSent =
      (s.protocol rena).bufferSent)
    (hkeeps : Keeps (s.protocol rena).bufferSent (s.protocol rena).toHttpMessage
      (victim.protocol.getD (.create rena .victim)).toHttpMessage) :
    Inv rena { s with victim := victim } := by
  refine ⟨?_, ?_⟩
  · exact hsent.trans_le hkeeps.le_length
  · rw [H.written_eq, ← hkeeps.take_eq]
    exact congrArg (fun n => List.take n _) hsent.symm

/-- The read of some bytes keeps the send offset. -/
theorem bufferSent_pullChunks {peer : Option HttpMessage} {o o' : Option Http}
    {chunks : List (List UInt8)} (hok : Http.pullChunks rena .victim peer o chunks = .ok o') :
    (o'.getD (.create rena .victim)).bufferSent = (o.getD (.create rena .victim)).bufferSent ∧
      (o.getD (.create rena .victim)).toHttpMessage.pullBytes rena .victim peer chunks.flatten =
        .ok (o'.getD (.create rena .victim)).toHttpMessage := by
  by_cases hnone : chunks = []
  · subst hnone
    obtain rfl : o = o' := Except.ok.inj hok
    exact ⟨rfl, rfl⟩
  · rw [Http.pullChunks_eq hnone, bind_eq_ok] at hok
    obtain ⟨h, hpull, hok⟩ := hok
    obtain rfl := Except.ok.inj hok
    rw [Http.pullChunk, bind_eq_ok] at hpull
    obtain ⟨m, hm, hpull⟩ := hpull
    obtain rfl := Except.ok.inj hpull
    exact ⟨rfl, hm⟩

theorem keeps_flush {h : Http} {k : ℕ} (hk : k ≤ h.buffer.length) :
    Keeps k h.toHttpMessage h.flushPendingDataToBuffer.toHttpMessage :=
  (appended_flushPendingDataToBuffer h.toHttpMessage).keeps hk

theorem keeps_evaluated {h : Http} {k : ℕ} (hk : k ≤ h.buffer.length) :
    Keeps k h.toHttpMessage h.evaluated.toHttpMessage ∧ h.evaluated.bufferSent = h.bufferSent := by
  rw [Http.evaluated]
  split
  · exact ⟨keeps_flush hk, rfl⟩
  · exact ⟨keeps_refl hk, rfl⟩

/-- A read that spares what was sent keeps the invariant. -/
theorem Inv.read (H : Inv rena s) {ev : ReadEvent} (hspare : s.Spares rena vfd (.read ev))
    (hok : s.step rena vfd rfd (.read ev) = .ok s') : Inv rena s' := by
  rw [step, bind_eq_ok] at hok
  obtain ⟨⟨victim, e⟩, hread, hok⟩ := hok
  obtain rfl := Except.ok.inj hok
  obtain ⟨c, ret, hpull, hlast⟩ := clientDoRead_cases hread
  -- what the reading itself leaves
  have hpulled : (c.protocol.getD (.create rena .victim)).bufferSent =
      (s.protocol rena).bufferSent ∧ Keeps (s.protocol rena).bufferSent
        (s.protocol rena).toHttpMessage (c.protocol.getD (.create rena .victim)).toHttpMessage := by
    rcases httpPull_cases hpull with ⟨-, rfl, -⟩ | ⟨hfd, p, hp, hrest⟩
    · exact ⟨rfl, keeps_refl H.sent_le⟩
    · obtain ⟨hsent, hbytes⟩ := bufferSent_pullChunks hp
      have hkeeps := keeps_pullBytes H.sent_le (hspare hfd) hbytes
      rcases hrest with ⟨-, -, hprot, -⟩ | ⟨-, -, hprot, -⟩
      · rw [hprot]
        cases p with
        | none => exact ⟨hsent, hkeeps⟩
        | some h => exact ⟨hsent, hkeeps.trans (keeps_flush hkeeps.le_length)⟩
      · rw [hprot]
        exact ⟨hsent, hkeeps⟩
  rcases hlast with ⟨-, rfl, -⟩ | ⟨-, h, hprot, rfl, -⟩
  · exact H.of_keeps hpulled.1 hpulled.2
  · rw [hprot] at hpulled
    obtain ⟨hkeeps, hsent⟩ := keeps_evaluated hpulled.2.le_length
    exact H.of_keeps (hsent.trans hpulled.1) (hpulled.2.trans hkeeps)

/-- What `http_push2` writes comes next in the buffer, and the send offset moves on by it. -/
theorem httpPush2_cases {pp pp' : Http} {client client' : ClientInfo} {pfd ret : ℤ}
    {res : WriteResult} {sent : List UInt8}
    (hok : httpPush2 pp client pfd res = .ok (pp', client', sent, ret)) :
    pp' = { pp with bufferSent := pp.bufferSent + sent.length } ∧
      sent <+: pp.buffer.drop pp.bufferSent := by
  have hnone : pp = { pp with bufferSent := pp.bufferSent + ([] : List UInt8).length } := rfl
  unfold httpPush2 at hok
  by_cases hdone : client.wantSsl = 0 ∧ pp.buffer.length = pp.bufferSent
  · rw [if_pos hdone] at hok
    cases hok
    exact ⟨hnone, List.nil_prefix⟩
  · rw [if_neg hdone] at hok
    by_cases hover : pp.buffer.length < pp.bufferSent
    · rw [if_pos hover] at hok
      cases hok
    · rw [if_neg hover] at hok
      cases res with
      | wrote n =>
          cases n with
          | zero =>
              cases hok
              exact ⟨hnone, List.nil_prefix⟩
          | succ n =>
              cases hok
              exact ⟨rfl, List.take_prefix _ _⟩
      | retry =>
          cases hok
          exact ⟨hnone, List.nil_prefix⟩
      | failed =>
          cases hok
          exact ⟨hnone, List.nil_prefix⟩
      | want reading =>
          cases hok
          exact ⟨hnone, List.nil_prefix⟩

/-- A write keeps the invariant, whatever the socket takes. -/
theorem Inv.write (H : Inv rena s) {res : WriteResult}
    (hok : s.step rena vfd rfd (.write res) = .ok s') : Inv rena s' := by
  rw [step, bind_eq_ok] at hok
  obtain ⟨⟨requester, victim, sent, ret⟩, hpush, hok⟩ := hok
  obtain rfl := Except.ok.inj hok
  unfold httpPush at hpush
  by_cases hfd : s.requester.fd = rfd
  · rw [if_neg (not_not.mpr hfd)] at hpush
    dsimp only at hpush
    cases hprot : s.victim.protocol with
    | none =>
        rw [hprot] at hpush
        cases hpush
        exact ⟨H.sent_le, (List.append_nil _).trans H.written_eq⟩
    | some pp =>
        rw [hprot] at hpush
        dsimp only at hpush
        rw [bind_eq_ok] at hpush
        obtain ⟨⟨pp', c, sent', ret'⟩, hpush2, hpush⟩ := hpush
        cases hpush
        obtain ⟨rfl, hsent⟩ := httpPush2_cases hpush2
        have hsame : s.protocol rena = pp := by rw [protocol, hprot]; rfl
        have hle := H.sent_le
        have hwritten := H.written_eq
        rw [hsame] at hle hwritten
        have hroom := hsent.length_le
        rw [List.length_drop] at hroom
        refine ⟨?_, ?_⟩
        · change pp.bufferSent + sent'.length ≤ pp.buffer.length
          omega
        · change s.written ++ sent' = pp.buffer.take (pp.bufferSent + sent'.length)
          rw [List.take_add, hwritten, ← List.prefix_iff_eq_take.mp hsent]
  · rw [if_pos hfd] at hpush
    cases hpush
    exact ⟨H.sent_le, (List.append_nil _).trans H.written_eq⟩

/-- One event keeps the invariant if it spares what was sent. -/
theorem Inv.step (H : Inv rena s) {e : RelayEvent} (hspare : s.Spares rena vfd e)
    (hok : s.step rena vfd rfd e = .ok s') : Inv rena s' := by
  cases e with
  | read ev => exact H.read hspare hok
  | write res => exact H.write hok

/-- With the invariant no write offers bytes from behind the end of the buffer, and a read
that stays in the block does not fail for it. -/
theorem Inv.ne_overrun (H : Inv rena s) {e : RelayEvent} (hfit : s.Fitting rena vfd e) :
    s.step rena vfd rfd e ≠ .error .overrun := by
  cases e with
  | read ev =>
      exact bind_ne_error (clientDoRead_ne_error (by decide) (by decide) (by decide) hfit)
        fun _ _ => by simp [pure, Except.pure]
  | write res =>
      refine bind_ne_error ?_ fun _ _ => by simp [pure, Except.pure]
      refine ite_ne_error (by simp [pure, Except.pure]) ?_
      dsimp only
      cases hprot : s.victim.protocol with
      | none => simp [pure, Except.pure]
      | some pp =>
          have hle := H.sent_le
          rw [show s.protocol rena = pp by rw [protocol, hprot]; rfl] at hle
          refine bind_ne_error ?_ fun _ _ => by simp [pure, Except.pure]
          refine ite_ne_error (by simp) ?_
          rw [if_neg (not_lt.mpr hle)]
          rcases res with ⟨_ | n⟩ | _ | _ | _ <;> simp

/-- **What was written is what the buffer begins with**, after every interleaving of reads
and writes in which the reads stay in the block of the buffer and header processing never
edits bytes that were sent already; and no write of such a run offers bytes that are not
in the buffer. -/
theorem sound_of_sparingRun (rena : Rena) (vfd rfd : ℤ) (ssl : Bool) (requester : ClientInfo)
    (es : List RelayEvent) (hfit : FittingRun rena vfd rfd (start vfd ssl requester) es)
    (hspare : SparingRun rena vfd rfd (start vfd ssl requester) es) :
    OnOk (Sound rena) (run rena vfd rfd (start vfd ssl requester) es) ∧
      run rena vfd rfd (start vfd ssl requester) es ≠ .error .overrun := by
  have hstep : ∀ s e es s', Inv rena s ∧ SparingRun rena vfd rfd s (e :: es) →
      s.step rena vfd rfd e = .ok s' → Inv rena s' ∧ SparingRun rena vfd rfd s' es := by
    rintro s e es s' ⟨H, hspares, hrest⟩ hok
    exact ⟨H.step hspares hok, hrest s' hok⟩
  have hstart := inv_start rena vfd ssl requester
  constructor
  · intro s hs
    have H : Inv rena s ∧ SparingRun rena vfd rfd s [] :=
      foldlM_invariant_rest (fun s es => Inv rena s ∧ SparingRun rena vfd rfd s es) hstep
        ⟨hstart, hspare⟩ hs
    exact H.1.sound
  · generalize start vfd ssl requester = s at *
    induction es generalizing s with
    | nil => intro h; cases h
    | cons e es ih =>
        rw [run, List.foldlM_cons]
        refine bind_ne_error (hstart.ne_overrun hfit.1) fun s' hok => ?_
        exact ih s' (hfit.2 s' hok) (hspare.2 s' hok) (hstart.step hspare.1 hok)

instance (s : Relay) : Decidable (Sound rena s) := inferInstanceAs (Decidable (_ ∧ _))

/-- A response up to its last header, which is to be removed. -/
def responseHead : List UInt8 :=
  chars "HTTP/1.1 200 OK\r\nContent-Type: text/css\r\nContent-Length: 5\r\n"

/-- A requester that waits for the response. -/
def waiting : ClientInfo := ⟨7, false, 0, none⟩

/-- The whole response is read before the first write. -/
def readWhole : List RelayEvent :=
  [.read ⟨[responseHead ++ chars "\r\nhello"], .retry⟩, .write (.wrote 10), .write (.wrote 99)]

/-- The status line and the only header are sent before the rest is read. -/
def sendHead : List RelayEvent :=
  [.read ⟨[responseHead], .retry⟩, .write (.wrote 99), .read ⟨[chars "\r\nhello"], .retry⟩]

theorem sound_of_sparingRun_readWhole :
    ∃ s, run renaAbcd 5 7 (start 5 false waiting) readWhole = .ok s ∧ Sound renaAbcd s := by
  have hspare : SparingRun renaAbcd 5 7 (start 5 false waiting) readWhole := by decide +kernel
  obtain ⟨s, hs, -⟩ := exists_ok_of_check (p := fun s => s.written.length = 48)
    (x := run renaAbcd 5 7 (start 5 false waiting) readWhole) (by decide +kernel)
  exact ⟨s, hs, (sound_of_sparingRun renaAbcd 5 7 false waiting readWhole (by decide +kernel)
    hspare).1 s hs⟩

/-- The header that is removed when the block is complete was sent already. -/
theorem not_sound_sendHead :
    ∃ s, run renaAbcd 5 7 (start 5 false waiting) sendHead = .ok s ∧ s.written = responseHead ∧
      (s.protocol renaAbcd).buffer =
        chars "HTTP/1.1 200 OK\r\nContent-Type: text/css\r\n\r\nhello" ∧
      (s.protocol renaAbcd).bufferSent = 60 ∧ ¬ Sound renaAbcd s := by
  obtain ⟨s, hs, hcheck⟩ := exists_ok_of_check (p := fun s => decide (s.written = responseHead ∧
      (s.protocol renaAbcd).buffer =
        chars "HTTP/1.1 200 OK\r\nContent-Type: text/css\r\n\r\nhello" ∧
      (s.protocol renaAbcd).bufferSent = 60 ∧ ¬ Sound renaAbcd s))
    (x := run renaAbcd 5 7 (start 5 false waiting) sendHead) (by decide +kernel)
  exact ⟨s, hs, of_decide_eq_true hcheck⟩

end Relay

end RenaProxy
