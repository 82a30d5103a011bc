import RenaProxy.TaskRunner

/-!
# The end of a response

A requester learns from the end of its connection that the response is complete. The
worker that finds the end of the victim's stream closes the victim, notifies the requester
once and deletes the victim, while another worker may be sending. `neverHangs_iff` says
in which interleavings the requester is always left with an event to come.
-/
namespace RenaProxy
open Failure

/-- What the requester is registered for. -/
inductive Interest
  | input
  | output
  deriving DecidableEq, Repr

/-- How far the worker of the victim is. -/
inductive VictimPhase
  | waiting
  /-- Bytes have come, and the requester is to be notified. -/
  | received
  /-- `http_pull` has closed the descriptor, and the requester is to be notified. -/
  | closed
  /-- `clients_del` comes next. -/
  | notified
  | deleted
  deriving DecidableEq, Repr

/-- A requester that gets its response, and the victim that it comes from. -/
structure Response extends ClientPair where
  interest : Interest
  phase : VictimPhase
  deriving DecidableEq, Repr

/-- A step of one of the two workers. -/
inductive ResponseStep
  | read (ev : ReadEvent)
  | notify
  | delete
  | write (res : WriteResult)
  deriving DecidableEq, Repr

namespace Response

/-- Both connections are open, and the victim waits for bytes. -/
def start (requester victim : Client) (rfd vfd : ℕ) (interest : Interest) : Response where
  requester := some { requester with fd := rfd }
  victim := some { victim with fd := vfd }
  interest := interest
  phase := .waiting

/-- One step. A step that cannot be made changes nothing. -/
def step (rena : Rena) (rfd vfd : ℕ) (s : Response) : ResponseStep → Except Fault Response
  | .read ev =>
      match s.phase, s.victim with
      | .waiting, some v => do
          let (p, _) ← s.clientDoRead rena { TaskEvent.plain 1 vfd with read := ev } .victim v
          pure { s with
            toClientPair := p
            phase := if ev.stop = .closed then .closed else .received }
      | _, _ => pure s
  | .notify =>
      match s.phase with
      | .received => pure { s with interest := .output, phase := .waiting }
      | .closed => pure { s with interest := .output, phase := .notified }
      | _ => pure s
  | .delete =>
      match s.phase with
      | .notified => pure { s with toClientPair := s.del .victim, phase := .deleted }
      | _ => pure s
  | .write res =>
      match s.requester with
      | none => pure s
      | some r => do
          let (p, ret) ← s.clientDoWrite rena { TaskEvent.plain 2 rfd with write := res } .requester r
          if ret ≤ 0 then pure { s with toClientPair := p.del .requester }
          else pure { s with
            toClientPair := p
            interest := if eventMask ret = epollOut then .output else .input }

/-- The victim is closed or gone, everything it had was sent, and the requester is still
there, with nothing to come but input. -/
def Hanging (s : Response) : Prop :=
  (∀ v ∈ s.victim, v.fd < 0 ∧ httpSentDone v.protocol) ∧ (∃ r ∈ s.requester, 0 ≤ r.fd) ∧
    s.interest = .input ∧ s.phase ≠ .received ∧ s.phase ≠ .closed

instance (s : Response) : Decidable s.Hanging := inferInstanceAs (Decidable (_ ∧ _ ∧ _ ∧ _ ∧ _))

/-- A write between the notification and `clients_del` that has nothing left to send. If
the TLS layer wants something, the write is tried all the same and may end the connection. -/
def Early (s : Response) : ResponseStep → Prop
  | .write res => s.phase = .notified ∧ ∃ r ∈ s.requester, ∃ v ∈ s.victim, ∃ pp ∈ v.protocol,
      pp.buffer.length = pp.bufferSent ∧ (r.wantSsl = 0 ∨ res = .retry ∨ res = .want true)
  | _ => False

/-- No state of a run is one in which the requester hangs. -/
def NeverHangs (rena : Rena) (rfd vfd : ℕ) : Response → List ResponseStep → Prop
  | s, [] => ¬ s.Hanging
  | s, e :: es => ¬ s.Hanging ∧ OnOk (fun s' => NeverHangs rena rfd vfd s' es) (s.step rena rfd vfd e)

instance decidableNeverHangs (rena : Rena) (rfd vfd : ℕ) : (es : List ResponseStep) →
    (s : Response) → Decidable (NeverHangs rena rfd vfd s es)
  | [], s => inferInstanceAs (Decidable (¬ s.Hanging))
  | e :: es, s =>
      have := decidableNeverHangs rena rfd vfd es
      inferInstanceAs (Decidable (¬ s.Hanging ∧
        OnOk (fun s' => NeverHangs rena rfd vfd s' es) (s.step rena rfd vfd e)))

/-- No step of a run comes early. -/
def Timely (rena : Rena) (rfd vfd : ℕ) : Response → List ResponseStep → Prop
  | _, [] => True
  | s, e :: es => ¬ s.Early e ∧ OnOk (fun s' => Timely rena rfd vfd s' es) (s.step rena rfd vfd e)

end Response

/-! ## What a write leaves -/

section Push
variable {pp pp' : Http} {client client' : ClientInfo} {pfd ret : ℤ} {res : WriteResult}
  {sent : List UInt8}

/-- To a peer that is closed, a write that does not end the connection either leaves bytes
to be sent, had nothing to send, or asks for another write. -/
theorem httpPush2_closed (h : httpPush2 pp client pfd res = .ok (pp', client', sent, ret))
    (hpfd : pfd < 0) (hret : 0 < ret) :
    (pp'.bufferSent < pp'.buffer.length ∧ pp.bufferSent < pp.buffer.length) ∨
      pp.buffer.length = pp.bufferSent ∧
        ((client.wantSsl = 0 ∨ res = .retry ∨ res = .want true) ∨ ret = ttWrite) := by
  rw [httpPush2] at h
  split at h
  · rename_i hdone
    exact .inr ⟨hdone.2, .inl (.inl hdone.1)⟩
  · split at h
    · cases h
    · rename_i hle
      dsimp only at h
      have hcases : pp.bufferSent < pp.buffer.length ∨ pp.buffer.length = pp.bufferSent := by omega
      split at h
      · cases h
        exact absurd hret (lt_irrefl 0)
      · cases h
        cases hret
      · rename_i reading
        cases h
        refine hcases.imp (fun hlt => ⟨hlt, hlt⟩) fun heq => ⟨heq, ?_⟩
        cases reading with
        | true => exact .inl (.inr (.inr rfl))
        | false => exact .inr rfl
      · cases h
        exact hcases.imp (fun hlt => ⟨hlt, hlt⟩) fun heq => ⟨heq, .inl (.inr (.inl rfl))⟩
      · cases h
        have hleft := hret
        split at hleft
        · cases hleft
        · rename_i hmore
          rw [not_and, not_le] at hmore
          exact .inl ⟨hmore hpfd, by have := hmore hpfd; omega⟩

/-- A write that does not end the connection keeps the descriptor. -/
theorem httpPush2_open (h : httpPush2 pp client pfd res = .ok (pp', client', sent, ret))
    (hret : 0 < ret) : client'.fd = client.fd ∧ (ret = ttRead ∨ ret = ttWrite) := by
  have hleft : ∀ n m : ℕ, (if n < m then ttWrite else ttRead) = ttRead ∨
      (if n < m then ttWrite else ttRead) = ttWrite := by
    intro n m
    split
    · exact .inr rfl
    · exact .inl rfl
  rw [httpPush2] at h
  split at h
  · cases h
    exact ⟨rfl, .inl rfl⟩
  · split at h
    · cases h
    · dsimp only at h
      split at h
      · cases h
        split at hret
        · cases hret
        · rename_i hpfd
          exact ⟨rfl, .inl (if_neg hpfd)⟩
      · cases h
        cases hret
      · rename_i reading
        cases h
        cases reading with
        | true => exact ⟨rfl, .inl rfl⟩
        | false => exact ⟨rfl, .inr rfl⟩
      · cases h
        exact ⟨rfl, hleft _ _⟩
      · cases h
        split at hret
        · cases hret
        · rename_i hmore
          rw [if_neg hmore]
          exact ⟨rfl, hleft _ _⟩

/-- With nothing to send, a write that does not end the connection asks for input. -/
theorem httpPush2_early (pfd : ℤ) (hsame : pp.buffer.length = pp.bufferSent)
    (hwhy : client.wantSsl = 0 ∨ res = .retry ∨ res = .want true) :
    ∃ client', httpPush2 pp client pfd res = .ok (pp, client', [], ttRead) ∧
      client'.fd = client.fd := by
  rw [httpPush2]
  by_cases hwant : client.wantSsl = 0
  · rw [if_pos ⟨hwant, hsame⟩]
    exact ⟨client, rfl, rfl⟩
  · rw [if_neg fun h => hwant h.1, if_neg hsame.not_lt]
    dsimp only
    rcases hwhy.resolve_left hwant with rfl | rfl
    · dsimp only
      rw [if_neg hsame.not_gt]
      exact ⟨_, rfl, rfl⟩
    · exact ⟨_, rfl, rfl⟩

end Push

theorem fd_httpPull {rena : Rena} {type : ClientType} {peer : Option HttpMessage} {ret : ℤ}
    {client client' : ClientInfo} {ev : ReadEvent}
    (h : httpPull rena type peer client client.fd ev = .ok (client', ret)) :
    client'.fd = if ev.stop = .closed then -1 else client.fd := by
  rw [httpPull, if_neg (not_not.mpr rfl)] at h
  obtain ⟨protocol, -, h⟩ := bind_eq_ok.mp h
  dsimp only at h
  split at h
  · rename_i hstop
    cases h
    rw [hstop, if_pos rfl]
  · rename_i hstop
    rw [hstop, if_neg (by simp)]
    split at h <;> (cases h; rfl)
  · rename_i hstop
    cases h
    rw [hstop, if_neg (by simp)]
    rfl

theorem fd_clientDoRead {rena : Rena} {type : ClientType} {peer : Option HttpMessage}
    {client client' : ClientInfo} {ev : ReadEvent} {evaluation : Evaluation}
    (h : clientDoRead rena type peer client client.fd ev = .ok (client', evaluation)) :
    client'.fd = if ev.stop = .closed then -1 else client.fd := by
  obtain ⟨pulled, r, hpull, hlast⟩ := clientDoRead_cases h
  have hfd : client'.fd = pulled.fd := by
    rcases hlast with ⟨-, rfl, -⟩ | ⟨-, _, -, rfl, -⟩ <;> rfl
  rw [hfd]
  exact fd_httpPull hpull

namespace ClientPair
variable {rena : Rena} {e : TaskEvent} {p p' : ClientPair} {ret : ℤ}

theorem set_victim_ne_none (p : ClientPair) (v : Client) : (p.set .victim (some v)).victim ≠ none :=
  Option.some_ne_none v

/-- A read of the victim changes the victim only. -/
theorem requester_clientDoRead {v : Client} (h : p.clientDoRead rena e .victim v = .ok (p', ret)) :
    p'.requester = p.requester := by
  rw [ClientPair.clientDoRead] at h
  obtain ⟨⟨info, evaluation⟩, hread, h⟩ := bind_eq_ok.mp h
  dsimp only at h
  split at h
  · cases h
    rfl
  · cases h
  · rw [if_neg (set_victim_ne_none p _)] at h
    cases h
    rfl

theorem victim_clientDoRead {v : Client} (h : p.clientDoRead rena e .victim v = .ok (p', ret))
    (hfd : v.fd = e.fd) :
    ∃ v' ∈ p'.victim, v'.fd = if e.read.stop = .closed then -1 else v.fd := by
  rw [ClientPair.clientDoRead, ← hfd] at h
  obtain ⟨⟨info, evaluation⟩, hread, h⟩ := bind_eq_ok.mp h
  dsimp only at h
  split at h
  · cases h
    exact ⟨_, rfl, fd_clientDoRead hread⟩
  · cases h
  · rw [if_neg (set_victim_ne_none p _)] at h
    cases h
    exact ⟨_, rfl, fd_clientDoRead hread⟩

theorem requester_del (p : ClientPair) : (p.del .requester).requester = none := by
  rw [ClientPair.del, if_pos (.inr rfl)]

/-- A write that has nothing to send and does not end the connection. -/
theorem clientDoWrite_early {r v : Client} {pp : Http} (hfd : r.fd = e.fd) (hv : p.victim = some v)
    (hpp : v.protocol = some pp) (hsame : pp.buffer.length = pp.bufferSent)
    (hwhy : r.wantSsl = 0 ∨ e.write = .retry ∨ e.write = .want true) :
    ∃ p', p.clientDoWrite rena e .requester r = .ok (p', ttRead) ∧
      (∃ r' ∈ p'.requester, r'.fd = r.fd) ∧ p'.victim = some v := by
  let c : ClientInfo :=
    { r.toClientInfo with protocol := some (r.protocol.getD (.create rena .requester)) }
  obtain ⟨client', hpush, hfd'⟩ : ∃ client', httpPush2 pp c v.fd e.write =
      .ok (pp, client', [], ttRead) ∧ client'.fd = c.fd := httpPush2_early v.fd hsame hwhy
  have hpeer : p.client ClientType.requester.peer = some v := hv
  have hpushed : httpPush rena .requester r.toClientInfo (some v.toClientInfo) e.fd e.write =
      .ok (client', some v.toClientInfo, [], ttRead) := by
    rw [httpPush, if_neg (not_not.mpr hfd)]
    dsimp only
    rw [hpp]
    dsimp only
    rw [hpush]
    have hinfo : ({ v.toClientInfo with protocol := some pp } : ClientInfo) = v.toClientInfo := by
      rw [← hpp]
    exact congrArg (fun info => Except.ok (client', some info, [], ttRead)) hinfo
  refine ⟨(p.set .requester (some { r with toClientInfo := client' })).set .victim (some v), ?_,
    ⟨_, rfl, hfd'⟩, rfl⟩
  rw [ClientPair.clientDoWrite]
  dsimp only
  rw [hpeer, Option.map_some, hpushed]
  rfl

/-- A closed victim is destroyed if everything was sent. -/
theorem victim_del {v : Client} (hr : p.requester ≠ none) (hv : p.victim = some v) (hfd : v.fd < 0) :
    (httpSentDone v.protocol ∧ (p.del .victim).victim = none) ∨
      (¬ httpSentDone v.protocol ∧ ∃ v' ∈ (p.del .victim).victim, v'.fd < 0 ∧
        v'.protocol = v.protocol) := by
  have hnone : p.requester.isNone = false := Option.isNone_eq_false_iff.mpr (Option.isSome_iff_ne_none.mpr hr)
  rw [ClientPair.del, if_pos (.inl rfl), hv, Option.bind_some]
  dsimp only
  rw [hnone, Bool.false_or, decide_eq_true hfd, Bool.true_and, clientInfoDestroy,
    if_neg (not_le.mpr hfd)]
  cases httpSentDone v.protocol with
  | true => exact .inl ⟨rfl, rfl⟩
  | false => exact .inr ⟨Bool.false_ne_true, _, rfl, hfd, rfl⟩

/-- A write of the requester that does not end its connection goes to `http_push2`. -/
theorem clientDoWrite_requester {r : Client} (h : p.clientDoWrite rena e .requester r = .ok (p', ret))
    (hret : 0 < ret) : ∃ v pp r' pp' sent, p.victim = some v ∧ v.protocol = some pp ∧
      httpPush2 pp { r.toClientInfo with
        protocol := some (r.protocol.getD (.create rena .requester)) } v.fd e.write =
          .ok (pp', r', sent, ret) ∧
      p'.requester = some { r with toClientInfo := r' } ∧
      p'.victim = some { v with protocol := some pp' } := by
  rw [ClientPair.clientDoWrite] at h
  obtain ⟨⟨info, peerInfo, sent, pushed⟩, hpush, h⟩ := bind_eq_ok.mp h
  obtain ⟨rfl, hpushed⟩ := Prod.mk.inj (Except.ok.inj h)
  obtain rfl : pushed = ret := by
    rw [← hpushed] at hret ⊢
    split at hret
    · cases hret
    · rename_i hpos
      rw [if_neg hpos]
  rw [httpPush] at hpush
  split at hpush
  · cases hpush
    cases hret
  · dsimp only at hpush
    cases hv : p.client ClientType.requester.peer with
    | none =>
        rw [hv] at hpush
        cases hpush
        cases hret
    | some v =>
        rw [hv, Option.map_some] at hpush
        dsimp only at hpush
        cases hpp : v.protocol with
        | none =>
            rw [hpp] at hpush
            cases hpush
            cases hret
        | some pp =>
            rw [hpp] at hpush
            obtain ⟨⟨pp', r', bytes, pushed'⟩, hpush2, hpush⟩ := bind_eq_ok.mp hpush
            cases hpush
            exact ⟨v, pp, r', pp', bytes, hv, hpp, hpush2, rfl, rfl⟩

end ClientPair

/-! ## What every step keeps -/

namespace Response

/-- What is known of the victim while the requester is there: as long as nothing is to come
for the requester after the end of the stream, there are bytes to be sent to it. -/
def VictimSound (vfd : ℕ) (s : Response) : Prop :=
  match s.phase with
  | .waiting | .received => ∃ v ∈ s.victim, v.fd = vfd
  | .closed => ∃ v ∈ s.victim, v.fd < 0
  | .notified => ∃ v ∈ s.victim, v.fd < 0 ∧ (s.interest = .output ∨ ¬ httpSentDone v.protocol)
  | .deleted => (s.victim = none ∧ s.interest = .output) ∨
      ∃ v ∈ s.victim, v.fd < 0 ∧ ¬ httpSentDone v.protocol

/-- The invariant of all runs without an early step. -/
structure Sound (rfd vfd : ℕ) (s : Response) : Prop where
  requester : ∀ r ∈ s.requester, r.fd = rfd
  victim : s.requester ≠ none → s.VictimSound vfd

section Steps
variable {rena : Rena} {rfd vfd : ℕ} {s s' : Response}

theorem not_httpSentDone {pp : Http} :
    ¬ httpSentDone (some pp) ↔ pp.bufferSent < pp.buffer.length := by
  rw [httpSentDone, decide_eq_true_iff, not_le]

theorem sound_of_none (h : s.requester = none) : Sound rfd vfd s where
  requester := by simp [h]
  victim := fun hr => absurd h hr

theorem Sound.not_hanging (S : Sound rfd vfd s) : ¬ s.Hanging := by
  rintro ⟨hvictim, ⟨r, hr, -⟩, hinterest, hreceived, hclosed⟩
  have hsound := S.victim (by rw [hr]; exact Option.some_ne_none r)
  rw [VictimSound] at hsound
  split at hsound
  · obtain ⟨v, hv, hfd⟩ := hsound
    have := (hvictim v hv).1
    omega
  · rename_i hphase
    exact hreceived hphase
  · rename_i hphase
    exact hclosed hphase
  · obtain ⟨v, hv, -, houtput | hunsent⟩ := hsound
    · rw [hinterest] at houtput
      cases houtput
    · exact hunsent (hvictim v hv).2
  · obtain ⟨-, houtput⟩ | ⟨v, hv, -, hunsent⟩ := hsound
    · rw [hinterest] at houtput
      cases houtput
    · exact hunsent (hvictim v hv).2

theorem Sound.read (S : Sound rfd vfd s) {ev : ReadEvent}
    (hok : s.step rena rfd vfd (.read ev) = .ok s') : Sound rfd vfd s' := by
  rw [step] at hok
  split at hok
  · rename_i v hphase hv
    obtain ⟨⟨p, ret⟩, hread, hok⟩ := bind_eq_ok.mp hok
    obtain rfl := Except.ok.inj hok
    by_cases hr : s.requester = none
    · exact sound_of_none ((ClientPair.requester_clientDoRead hread).trans hr)
    · have hsound := S.victim hr
      rw [VictimSound, hphase] at hsound
      obtain ⟨v', hv', hfd⟩ := hsound
      obtain rfl : v = v' := Option.some.inj (hv.symm.trans hv')
      have hrequester := ClientPair.requester_clientDoRead hread
      obtain ⟨v', hv', hfd'⟩ := ClientPair.victim_clientDoRead hread hfd
      refine ⟨fun r hr => S.requester r (hrequester ▸ hr), ?_⟩
      intro _
      dsimp only at hfd' ⊢
      rw [VictimSound]
      split_ifs at hfd' ⊢ 
      · exact ⟨v', hv', hfd' ▸ Int.negSucc_lt_zero 0⟩
      · exact ⟨v', hv', hfd'.trans hfd⟩
  · cases hok
    exact S

theorem Sound.notify (S : Sound rfd vfd s) (hok : s.step rena rfd vfd .notify = .ok s') :
    Sound rfd vfd s' := by
  rw [step] at hok
  split at hok
  · rename_i hphase
    cases hok
    refine ⟨S.requester, ?_⟩
    intro h
    have hsound := S.victim h
    rw [VictimSound, hphase] at hsound
    exact hsound
  · rename_i hphase
    cases hok
    refine ⟨S.requester, ?_⟩
    intro h
    have hsound := S.victim h
    rw [VictimSound, hphase] at hsound
    obtain ⟨v, hv, hfd⟩ := hsound
    exact ⟨v, hv, hfd, .inl rfl⟩
  · cases hok
    exact S

theorem Sound.delete (S : Sound rfd vfd s) (hok : s.step rena rfd vfd .delete = .ok s') :
    Sound rfd vfd s' := by
  rw [step] at hok
  split at hok
  · rename_i hphase
    obtain rfl := Except.ok.inj hok
    refine ⟨S.requester, ?_⟩
    intro h
    have hr : s.requester ≠ none := h
    have hsound := S.victim hr
    rw [VictimSound, hphase] at hsound
    obtain ⟨v, hv, hfd, hrest⟩ := hsound
    rcases ClientPair.victim_del hr hv hfd with ⟨hdone, hnone⟩ | ⟨hunsent, v', hv', hfd', hprotocol⟩
    · exact .inl ⟨hnone, hrest.resolve_right (not_not.mpr hdone)⟩
    · exact .inr ⟨v', hv', hfd', hprotocol ▸ hunsent⟩
  · cases hok
    exact S

theorem Sound.write (S : Sound rfd vfd s) {res : WriteResult} (htimely : ¬ s.Early (.write res))
    (hok : s.step rena rfd vfd (.write res) = .ok s') : Sound rfd vfd s' := by
  rw [step] at hok
  split at hok
  · cases hok
    exact S
  · rename_i r hr
    obtain ⟨⟨p, ret⟩, hwrite, hok⟩ := bind_eq_ok.mp hok
    dsimp only at hok
    split at hok
    · obtain rfl := Except.ok.inj hok
      exact sound_of_none (ClientPair.requester_del p)
    · rename_i hret
      obtain rfl := Except.ok.inj hok
      obtain ⟨v, pp, r', pp', sent, hv, hpp, hpush, hr', hv'⟩ :=
        ClientPair.clientDoWrite_requester hwrite (not_le.mp hret)
      obtain ⟨hfd, hret'⟩ := httpPush2_open hpush (not_le.mp hret)
      have hsound := S.victim (by rw [hr]; exact Option.some_ne_none r)
      refine ⟨?_, ?_⟩
      · intro r₁ hr₁
        obtain rfl := Option.some.inj (hr'.symm.trans hr₁)
        exact hfd.trans (S.requester r hr)
      · intro _
        have hthe : ∀ {P : Client → Prop}, (∃ v₁ ∈ s.victim, P v₁) → P v := by
          rintro P ⟨v₁, hv₁, hP⟩
          rwa [Option.some.inj (hv.symm.trans hv₁)]
        rw [VictimSound] at hsound ⊢
        dsimp only
        cases hphase : s.phase with
        | waiting =>
            rw [hphase] at hsound
            exact ⟨_, hv', hthe hsound⟩
        | received =>
            rw [hphase] at hsound
            exact ⟨_, hv', hthe hsound⟩
        | closed =>
            rw [hphase] at hsound
            exact ⟨_, hv', hthe hsound⟩
        | notified =>
            rw [hphase] at hsound
            obtain ⟨hvfd, -⟩ := hthe hsound
            refine ⟨_, hv', hvfd, ?_⟩
            rcases httpPush2_closed hpush hvfd (not_le.mp hret) with
              ⟨hunsent, -⟩ | ⟨hsame, hearly | hagain⟩
            · exact .inr (not_httpSentDone.mpr hunsent)
            · exact absurd ⟨hphase, r, hr, v, hv, pp, hpp, hsame, hearly⟩ htimely
            · left
              rw [hagain]
              rfl
        | deleted =>
            rw [hphase] at hsound
            right
            rcases hsound with ⟨hnone, -⟩ | hsound
            · rw [hv] at hnone
              cases hnone
            · obtain ⟨hvfd, hbytes⟩ := hthe hsound
              rw [hpp, not_httpSentDone] at hbytes
              refine ⟨_, hv', hvfd, ?_⟩
              rcases httpPush2_closed hpush hvfd (not_le.mp hret) with ⟨hunsent, -⟩ | ⟨hsame, -⟩
              · exact not_httpSentDone.mpr hunsent
              · omega

/-- **Every step that does not come early keeps the invariant.** -/
theorem Sound.step (S : Sound rfd vfd s) {e : ResponseStep} (htimely : ¬ s.Early e)
    (hok : s.step rena rfd vfd e = .ok s') : Sound rfd vfd s' := by
  cases e with
  | read ev => exact S.read hok
  | notify => exact S.notify hok
  | delete => exact S.delete hok
  | write res => exact S.write htimely hok

/-- After an early step the requester hangs. -/
theorem Sound.hanging_of_early (S : Sound rfd vfd s) {e : ResponseStep} (hearly : s.Early e) :
    ∃ s', s.step rena rfd vfd e = .ok s' ∧ s'.Hanging := by
  cases e with
  | write res =>
      obtain ⟨hphase, r, hr, v, hv, pp, hpp, hsame, hwhy⟩ := hearly
      have hrfd := S.requester r hr
      have hsound := S.victim (by rw [hr]; exact Option.some_ne_none r)
      rw [VictimSound, hphase] at hsound
      obtain ⟨v₁, hv₁, hvfd, -⟩ := hsound
      obtain rfl := Option.some.inj (hv.symm.trans hv₁)
      obtain ⟨p', hwrite, ⟨r', hr', hrfd'⟩, hv'⟩ : ∃ p', s.toClientPair.clientDoWrite rena
          { TaskEvent.plain 2 rfd with write := res } .requester r = .ok (p', ttRead) ∧
          (∃ r' ∈ p'.requester, r'.fd = r.fd) ∧ p'.victim = some v :=
        ClientPair.clientDoWrite_early hrfd hv hpp hsame hwhy
      refine ⟨{ s with toClientPair := p', interest := .input }, ?_, ?_⟩
      · rw [Response.step, hr]
        dsimp only
        rw [hwrite]
        rfl
      · refine ⟨?_, ⟨r', hr', ?_⟩, rfl, ?_, ?_⟩
        · intro v₂ hv₂
          obtain rfl := Option.some.inj (hv'.symm.trans hv₂)
          refine ⟨hvfd, ?_⟩
          rw [hpp, httpSentDone]
          exact decide_eq_true hsame.le
        · omega
        · rw [hphase]
          decide
        · rw [hphase]
          decide
  | read ev => exact hearly.elim
  | notify => exact hearly.elim
  | delete => exact hearly.elim

end Steps

end Response

/-- **No requester is left hanging** in any state of a run, just when no write of the run
comes early. -/
theorem neverHangs_iff (rena : Rena) (requester victim : Client) (rfd vfd : ℕ) (interest : Interest)
    (steps : List ResponseStep) :
    Response.NeverHangs rena rfd vfd (.start requester victim rfd vfd interest) steps ↔
      Response.Timely rena rfd vfd (.start requester victim rfd vfd interest) steps := by
  suffices h : ∀ s : Response, Response.Sound rfd vfd s →
      (s.NeverHangs rena rfd vfd steps ↔ s.Timely rena rfd vfd steps) by
    apply h
    refine ⟨?_, fun _ => ⟨_, rfl, rfl⟩⟩
    intro r hr
    obtain rfl := Option.some.inj hr
    rfl
  induction steps with
  | nil => exact fun s S => iff_of_true S.not_hanging trivial
  | cons e steps ih =>
      intro s S
      constructor
      · intro h
        have htimely : ¬ s.Early e := by
          intro hearly
          obtain ⟨s', hok, hhang⟩ : ∃ s', s.step rena rfd vfd e = .ok s' ∧ s'.Hanging :=
            S.hanging_of_early hearly
          have hnever := h.2 s' hok
          cases steps with
          | nil => exact hnever hhang
          | cons => exact hnever.1 hhang
        refine ⟨htimely, ?_⟩
        intro s' hok
        exact (ih s' (S.step htimely hok)).mp (h.2 s' hok)
      · intro h
        refine ⟨S.not_hanging, ?_⟩
        intro s' hok
        exact (ih s' (S.step h.1 hok)).mpr (h.2 s' hok)

/-- A response that was sent when the end of its stream is seen. The event of the notification
comes before the victim is deleted. -/
theorem not_neverHangs_sent : ¬ ∀ (rena : Rena) (requester victim : Client) (rfd vfd : ℕ)
    (interest : Interest) (steps : List ResponseStep),
    Response.NeverHangs rena rfd vfd (.start requester victim rfd vfd interest) steps := by
  intro h
  have hrun := h ⟨chars ".proxy", .null, .null, .null⟩ (.new 0 false) (.new 0 false) 5 6 .input
    [.read ⟨[chars "HTTP/1.0 200 OK\r\n\r\n"], .retry⟩, .notify, .write (.wrote 100),
      .read ⟨[], .closed⟩, .notify, .write .retry, .delete]
  revert hrun
  decide +kernel

end RenaProxy
