import RenaProxy.Clients
import RenaProxy.Http.Reads

/-!
# Handling a task

`task_handling` finds the client of a task, bends the type of the task to what the TLS
layer waits for, calls a handler, and registers the client for its next event or deletes
it. `ClientPair` is a requester with its victim over any sequence of tasks.
`deletesForReason_iff` says when a client is deleted although nothing went wrong.
-/
namespace RenaProxy
open Failure

/-- The values of `task_type_e` with which those for listening sockets and for signals
begin. -/
def ttNormalRead : ℕ := 3
def ttSignalRead : ℕ := 7

/-- `EPOLLIN` and `EPOLLOUT` -/
def epollIn : ℤ := 1
def epollOut : ℤ := 4

/-- `struct client_info` with what the handlers use besides. -/
structure Client extends ClientInfo where
  tcpConnected : Bool
  sslConnected : Bool
  handshakeDone : Bool
  working : Bool
  deriving DecidableEq, Repr

/-- A client from `calloc`, with its descriptor and `clients_set_ssl`. -/
def Client.new (fd : ℤ) (ssl : Bool) : Client := ⟨⟨fd, ssl, 0, none⟩, false, false, false, false⟩

/-- The type of the client at the other side. -/
def ClientType.peer : ClientType → ClientType
  | .requester => .victim
  | .victim => .requester

/-- A node of the table. -/
structure ClientPair where
  requester : Option Client
  victim : Option Client
  deriving DecidableEq, Repr

/-- A task, and what the system does in the course of its handling. -/
structure TaskEvent where
  type : ℕ
  fd : ℤ
  read : ReadEvent
  write : WriteResult
  /-- The value of `dispatch_new_connection`, and a victim's descriptor and whether it has
  TLS, if there is a new one. -/
  dispatchRet : ℤ
  dispatched : Option (ℤ × Bool)
  /-- The value of `server_tcp_connection_done`. -/
  connected : ℤ
  /-- The value of `server_try_client_connect`, and the descriptor after it. -/
  retryRet : ℤ
  retryFd : ℤ
  /-- The value of `server_handshake_client`. -/
  handshake : ℤ
  /-- `proc_valid_fd` -/
  valid : Bool
  /-- The values of `server_notify`, to modify and to add. -/
  modRet : ℤ
  addRet : ℤ
  deriving DecidableEq, Repr

/-- A task in the course of which the system does nothing in particular. -/
def TaskEvent.plain (type : ℕ) (fd : ℤ) : TaskEvent :=
  ⟨type, fd, ⟨[], .retry⟩, .retry, 0, none, 0, 0, 0, 0, true, 0, 0⟩

/-- What became of a task. -/
structure Handling where
  /-- The value of the handler, if one was called. -/
  ret : Option ℤ
  /-- Whether the client was registered again, if that was tried. -/
  registered : Option Bool
  /-- `task_delete_client` was called for the client. -/
  deleted : Bool
  deriving DecidableEq, Repr

/-- The type that `task_handling` goes on with. -/
def wantedType (type swant : ℕ) : ℕ :=
  if 1 < swant then
    let my := swant >>> 2 &&& 1
    if my ≠ 0 then
      if type &&& 1 = 0 then type ||| my else type
    else
      if type &&& 1 = 1 then type &&& 0xFFFFFFFE else type
  else type

/-- What a handler makes of `TT_READ` and `TT_WRITE`. -/
def eventMask (r : ℤ) : ℤ :=
  if r = ttRead then epollIn
  else if r = ttWrite then epollOut
  else r

/-- `handle_handshake` -/
def handleHandshake (e : TaskEvent) (c : Client) : Client × ℤ :=
  if ¬ c.sslConnected ∧ c.ssl then
    if e.handshake ≠ 0 then
      (c, if e.handshake < 0 then -1 else if e.handshake = ttRead then epollIn else epollOut)
    else ({ c with sslConnected := true, handshakeDone := true }, 0)
  else ({ c with handshakeDone := true }, 0)

namespace ClientPair

/-- A requester that was just accepted. -/
def accepted (fd : ℤ) (ssl : Bool) : ClientPair := ⟨some (.new fd ssl), none⟩

def client (p : ClientPair) : ClientType → Option Client
  | .requester => p.requester
  | .victim => p.victim

def set (p : ClientPair) (t : ClientType) (c : Option Client) : ClientPair :=
  match t with
  | .requester => { p with requester := c }
  | .victim => { p with victim := c }

/-- `clients_search`, at the node. -/
def search (p : ClientPair) (fd : ℤ) : Option ClientType :=
  if p.requester.any (·.fd = fd) then some .requester
  else if p.victim.any (·.fd = fd) then some .victim
  else none

/-- `client_do_read` -/
def clientDoRead (rena : Rena) (e : TaskEvent) (p : ClientPair) (t : ClientType) (c : Client) :
    Except Fault (ClientPair × ℤ) := do
  let peer := ((p.client t.peer).bind (·.protocol)).map (·.toHttpMessage)
  let (info, evaluation) ← RenaProxy.clientDoRead rena t peer c.toClientInfo e.fd e.read
  let p := p.set t (some { c with toClientInfo := info })
  match evaluation with
  | .done ret => pure (p, ret)
  | .dispatch _ true => .error .freedBlock
  | .dispatch evalRet false =>
      let p :=
        if p.victim = none then
          { p with victim := e.dispatched.map fun v => .new v.1 v.2 }
        else p
      pure (p, if e.dispatchRet = -3 then -1 else evalRet)

/-- `client_do_write` -/
def clientDoWrite (rena : Rena) (e : TaskEvent) (p : ClientPair) (t : ClientType) (c : Client) :
    Except Fault (ClientPair × ℤ) := do
  let peer := p.client t.peer
  let (info, peerInfo, _, ret) ←
    httpPush rena t c.toClientInfo (peer.map (·.toClientInfo)) e.fd e.write
  let peer := match peer, peerInfo with
    | some peer, some peerInfo => some { peer with toClientInfo := peerInfo }
    | _, _ => none
  pure ((p.set t (some { c with toClientInfo := info })).set t.peer peer, if ret < 0 then -1 else ret)

/-- The end of both handlers: the handshake if it is not done, else reading or writing. -/
def handleConnected (e : TaskEvent) (p : ClientPair) (t : ClientType) (c : Client)
    (io : Except Fault (ClientPair × ℤ)) : Except Fault (ClientPair × ℤ) :=
  if ¬ c.handshakeDone then
    let done := handleHandshake e c
    pure (p.set t (some done.1),
      if done.2 ≠ 0 then done.2 else if t = .victim then epollOut else epollIn)
  else do
    let (p, r) ← io
    pure (p, eventMask r)

/-- `handle_client_read` -/
def handleClientRead (rena : Rena) (e : TaskEvent) (p : ClientPair) (t : ClientType) (c : Client) :
    Except Fault (ClientPair × ℤ) :=
  if ¬ c.tcpConnected then pure (p.set t (some c), epollOut)
  else p.handleConnected e t c (p.clientDoRead rena e t c)

/-- `handle_client_write` -/
def handleClientWrite (rena : Rena) (e : TaskEvent) (p : ClientPair) (t : ClientType) (c : Client) :
    Except Fault (ClientPair × ℤ) :=
  if ¬ c.tcpConnected ∧ e.connected ≠ 0 then
    if t ≠ .victim then pure (p.set t (some c), -1)
    else pure (p.set t (some { c with fd := e.retryFd }), if e.retryRet ≠ 0 then -1 else epollOut)
  else
    let c := { c with tcpConnected := true }
    p.handleConnected e t c (p.clientDoWrite rena e t c)

/-- The part of `clients_del` that destroys clients. -/
def del (p : ClientPair) (t : ClientType) : ClientPair :=
  let requester := match t with
    | .requester => none
    | .victim => p.requester
  if t = .victim ∨ requester = none then
    ⟨requester, p.victim.bind fun v =>
      let flag := requester.isNone || (decide (v.fd < 0) && httpSentDone v.protocol)
      (clientInfoDestroy v.toClientInfo flag).map fun info => { v with toClientInfo := info }⟩
  else ⟨requester, p.victim⟩

/-- `clients_set_working`, where the client is still there. -/
def setWorking (p : ClientPair) (t : ClientType) (state : Bool) : ClientPair :=
  p.set t ((p.client t).map fun c => { c with working := state })

/-- The part of `task_handling` after the handler. -/
def finish (e : TaskEvent) (p : ClientPair) (t : ClientType) (ret : Option ℤ) :
    ClientPair × Handling :=
  if ret.getD 0 ≤ 0 ∨ ¬ e.valid then ((p.del t).setWorking t false, ⟨ret, none, true⟩)
  else
    let registered := e.modRet ≠ -1 ∧ (e.modRet < 0 → 0 ≤ e.addRet)
    ((if registered then p else p.del t).setWorking t false,
      ⟨ret, some registered, ¬ registered⟩)

/-- The part of `task_handling` for a client that was found and that no one works on. -/
def handleTask (rena : Rena) (e : TaskEvent) (p : ClientPair) (t : ClientType) (c : Client) :
    Except Fault (ClientPair × Handling) := do
  let p := p.setWorking t true
  let c := { c with working := true }
  let type := wantedType e.type c.wantSsl
  if type &&& 1 = 1 then do
    let (p, r) ← p.handleClientRead rena e t c
    pure (p.finish e t (some r))
  else if 0 < type then do
    let (p, r) ← p.handleClientWrite rena e t c
    pure (p.finish e t (some r))
  else pure (p.finish e t none)

/-- `task_handling`, up to the notification of the requester at its end. A task of a listening
socket, of signals or of no client of the two changes nothing here. -/
def taskHandling (rena : Rena) (p : ClientPair) (e : TaskEvent) :
    Except Fault (ClientPair × Handling) :=
  if e.fd < 0 then pure (p, ⟨none, none, false⟩)
  else if e.type < 1 then pure (p, ⟨none, none, false⟩)
  else if e.type < ttNormalRead then
    match p.search e.fd with
    | none => pure (p, ⟨none, none, false⟩)
    | some t =>
        match p.client t with
        | none => pure (p, ⟨none, none, false⟩)
        | some c =>
            if c.working then pure (p, ⟨none, none, false⟩)
            else p.handleTask rena e t c
  else pure (p, ⟨if e.type &&& 1 = 1 then some epollIn else none, none, false⟩)

end ClientPair

/-! ## Reasons to delete a client -/

/-- A handler was called and its value is not positive, the descriptor is not valid, or it
could not be registered. -/
def TaskEvent.Reason (e : TaskEvent) (r : Handling) : Prop :=
  r.ret.any (· ≤ 0) ∨ ¬ e.valid ∨ r.registered = some false

instance (e : TaskEvent) (r : Handling) : Decidable (e.Reason r) :=
  inferInstanceAs (Decidable (_ ∨ _ ∨ _))

namespace ClientPair

/-- In a sequence of tasks, no client is deleted without a reason. -/
def DeletesForReason (rena : Rena) : ClientPair → List TaskEvent → Prop
  | _, [] => True
  | p, e :: es => OnOk (fun r => (r.2.deleted → e.Reason r.2) ∧ DeletesForReason rena r.1 es)
      (p.taskHandling rena e)

instance decidableDeletesForReason (rena : Rena) : (es : List TaskEvent) → (p : ClientPair) →
    Decidable (DeletesForReason rena p es)
  | [], _ => isTrue trivial
  | e :: es, p =>
      have := decidableDeletesForReason rena es
      inferInstanceAs (Decidable (OnOk (fun r => (r.2.deleted → e.Reason r.2) ∧
        DeletesForReason rena r.1 es) (p.taskHandling rena e)))

/-- A read event comes for a client with a valid descriptor while its want is 3: the last
write wanted to read. -/
def Crossed (p : ClientPair) (e : TaskEvent) : Prop :=
  e.valid ∧ 0 ≤ e.fd ∧ e.type = 1 ∧
    ∃ c ∈ (p.search e.fd).bind p.client, ¬ c.working ∧ c.wantSsl = 3

/-- In a sequence of tasks, no want is crossed. -/
def KeepsToWants (rena : Rena) : ClientPair → List TaskEvent → Prop
  | _, [] => True
  | p, e :: es => ¬ p.Crossed e ∧ OnOk (fun r => KeepsToWants rena r.1 es) (p.taskHandling rena e)

end ClientPair

/-! ### The values of a want -/

/-- The values that `want_ssl` has. -/
def wants : List ℕ := [0, 1, 3, 5, 7]

theorem mem_wants_setWant (c : ClientInfo) {my want : ℕ} (hmy : my < 2) (hwant : want < 2) :
    (c.setWant my want).wantSsl ∈ wants := by
  have hall : ∀ my < 2, ∀ want < 2, 4 * my + 2 * want + 1 ∈ wants := by decide
  exact hall my hmy want hwant

/-- A type that selects no handler comes from one place only. -/
theorem wantedType_eq_zero_iff : ∀ want ∈ wants, ∀ type < 3, 0 < type →
    (wantedType type want = 0 ↔ type = 1 ∧ want = 3) := by
  decide

section Wants
variable {rena : Rena} {t : ClientType} {client client' : ClientInfo} {fd ret : ℤ}

theorem wantSsl_httpPull {peer : Option HttpMessage} {ev : ReadEvent}
    (h : httpPull rena t peer client fd ev = .ok (client', ret)) (hw : client.wantSsl ∈ wants) :
    client'.wantSsl ∈ wants := by
  rw [httpPull] at h
  split at h
  · cases h
    exact hw
  · obtain ⟨protocol, -, h⟩ := bind_eq_ok.mp h
    dsimp only at h
    split at h
    · cases h
      exact hw
    · rename_i reading _
      split at h
      · cases h
        apply mem_wants_setWant _ (by decide)
        split <;> decide
      · cases h
        exact List.mem_cons_self
    · cases h
      exact List.mem_cons_self

theorem wantSsl_clientDoRead {peer : Option HttpMessage} {ev : ReadEvent} {evaluation : Evaluation}
    (h : clientDoRead rena t peer client fd ev = .ok (client', evaluation))
    (hw : client.wantSsl ∈ wants) : client'.wantSsl ∈ wants := by
  obtain ⟨pulled, r, hpull, hlast⟩ := clientDoRead_cases h
  have hpulled := wantSsl_httpPull hpull hw
  rcases hlast with ⟨-, rfl, -⟩ | ⟨-, _, -, rfl, -⟩
  · exact hpulled
  · exact hpulled

theorem wantSsl_httpPush2 {pp pp' : Http} {pfd : ℤ} {res : WriteResult} {sent : List UInt8}
    (h : httpPush2 pp client pfd res = .ok (pp', client', sent, ret)) (hw : client.wantSsl ∈ wants) :
    client'.wantSsl ∈ wants := by
  rw [httpPush2] at h
  split at h
  · cases h
    exact hw
  · split at h
    · cases h
    · dsimp only at h
      split at h
      · cases h
        exact hw
      · cases h
        exact hw
      · cases h
        apply mem_wants_setWant _ (by decide)
        split <;> decide
      · cases h
        exact List.mem_cons_self
      · cases h
        exact List.mem_cons_self

theorem wantSsl_httpPush {peer peer' : Option ClientInfo} {res : WriteResult} {sent : List UInt8}
    (h : httpPush rena t client peer fd res = .ok (client', peer', sent, ret))
    (hw : client.wantSsl ∈ wants) (hpeer : ∀ c ∈ peer, c.wantSsl ∈ wants) :
    client'.wantSsl ∈ wants ∧ ∀ c ∈ peer', c.wantSsl ∈ wants := by
  rw [httpPush] at h
  split at h
  · cases h
    exact ⟨hw, hpeer⟩
  · dsimp only at h
    split at h
    · cases h
      exact ⟨hw, hpeer⟩
    · rename_i p
      split at h
      · cases h
        exact ⟨hw, hpeer⟩
      · obtain ⟨⟨pp, pushed, bytes, r⟩, hpush, h⟩ := bind_eq_ok.mp h
        cases h
        refine ⟨wantSsl_httpPush2 hpush hw, ?_⟩
        intro c hc
        obtain rfl := Option.some.inj hc
        exact hpeer p rfl

end Wants

namespace ClientPair

/-- Both wants are among the values. -/
def Wants (p : ClientPair) : Prop := ∀ t, ∀ c ∈ p.client t, c.wantSsl ∈ wants

section
variable {rena : Rena} {e : TaskEvent} {p p' : ClientPair} {t : ClientType} {c : Client} {r : ℤ}

theorem client_set (p : ClientPair) (t t' : ClientType) (c : Option Client) :
    (p.set t c).client t' = if t' = t then c else p.client t' := by
  cases t <;> cases t' <;> rfl

theorem Wants.set (hp : p.Wants) {c : Option Client} (hc : ∀ c' ∈ c, c'.wantSsl ∈ wants) :
    (p.set t c).Wants := by
  intro t' c' hc'
  rw [client_set] at hc'
  split_ifs at hc'
  · exact hc c' hc'
  · exact hp t' c' hc'

theorem Wants.set_some (hp : p.Wants) (hc : c.wantSsl ∈ wants) : (p.set t (some c)).Wants := by
  apply hp.set
  intro c' hc'
  obtain rfl := Option.some.inj hc'
  exact hc

theorem Wants.setWorking (hp : p.Wants) (state : Bool) : (p.setWorking t state).Wants := by
  apply hp.set
  intro c hc
  obtain ⟨c', hc', rfl⟩ := Option.map_eq_some_iff.mp hc
  exact hp t c' hc'

theorem Wants.del (hp : p.Wants) : (p.del t).Wants := by
  have hvictim : ∀ flag : Client → Bool, ∀ c ∈ p.victim.bind fun v =>
      (clientInfoDestroy v.toClientInfo (flag v)).map fun info => { v with toClientInfo := info },
      c.wantSsl ∈ wants := by
    intro flag c hc
    obtain ⟨v, hv, hc⟩ := Option.bind_eq_some_iff.mp hc
    obtain ⟨info, hinfo, rfl⟩ := Option.map_eq_some_iff.mp hc
    rw [clientInfoDestroy] at hinfo
    split at hinfo
    · cases hinfo
    · obtain rfl := Option.some.inj hinfo
      exact hp .victim v hv
  intro t' c hc
  cases t with
  | requester =>
      rw [ClientPair.del, if_pos (.inr rfl)] at hc
      cases t' with
      | requester => cases hc
      | victim => exact hvictim _ c hc
  | victim =>
      rw [ClientPair.del, if_pos (.inl rfl)] at hc
      cases t' with
      | requester => exact hp .requester c hc
      | victim => exact hvictim _ c hc

theorem Wants.finish (hp : p.Wants) (ret : Option ℤ) : (p.finish e t ret).1.Wants := by
  rw [ClientPair.finish]
  split
  · exact hp.del.setWorking false
  · apply Wants.setWorking
    split
    · exact hp
    · exact hp.del

theorem Wants.clientDoRead (hp : p.Wants) (hc : c.wantSsl ∈ wants)
    (h : p.clientDoRead rena e t c = .ok (p', r)) : p'.Wants := by
  rw [ClientPair.clientDoRead] at h
  obtain ⟨⟨info, evaluation⟩, hread, h⟩ := bind_eq_ok.mp h
  have hset : (p.set t (some { c with toClientInfo := info })).Wants :=
    hp.set_some (wantSsl_clientDoRead hread hc)
  dsimp only at h
  split at h
  · cases h
    exact hset
  · cases h
  · cases h
    split
    · apply hset.set (t := .victim)
      intro c' hc'
      obtain ⟨v, -, rfl⟩ := Option.map_eq_some_iff.mp hc'
      exact List.mem_cons_self
    · exact hset

theorem Wants.clientDoWrite (hp : p.Wants) (hc : c.wantSsl ∈ wants)
    (h : p.clientDoWrite rena e t c = .ok (p', r)) : p'.Wants := by
  rw [ClientPair.clientDoWrite] at h
  obtain ⟨⟨info, peerInfo, sent, ret⟩, hpush, h⟩ := bind_eq_ok.mp h
  cases h
  obtain ⟨hinfo, hpeer⟩ := wantSsl_httpPush hpush hc fun c' hc' => by
    obtain ⟨peer, hpeer, rfl⟩ := Option.map_eq_some_iff.mp hc'
    exact hp t.peer peer hpeer
  apply (hp.set_some hinfo).set
  intro c' hc'
  split at hc'
  · obtain rfl := Option.some.inj hc'
    exact hpeer _ rfl
  · cases hc'

theorem wantSsl_handleHandshake (e : TaskEvent) (c : Client) :
    (handleHandshake e c).1.wantSsl = c.wantSsl := by
  rw [handleHandshake]
  split
  · split <;> rfl
  · rfl

theorem Wants.handleConnected (hp : p.Wants) (hc : c.wantSsl ∈ wants)
    {io : Except Fault (ClientPair × ℤ)} (hio : ∀ p' r, io = .ok (p', r) → p'.Wants)
    (h : p.handleConnected e t c io = .ok (p', r)) : p'.Wants := by
  rw [ClientPair.handleConnected] at h
  split at h
  · obtain ⟨rfl, -⟩ := Prod.mk.inj (Except.ok.inj h)
    apply hp.set_some
    rw [wantSsl_handleHandshake]
    exact hc
  · obtain ⟨⟨p₁, r₁⟩, hok, h⟩ := bind_eq_ok.mp h
    cases h
    exact hio _ _ hok

theorem Wants.handleClientRead (hp : p.Wants) (hc : c.wantSsl ∈ wants)
    (h : p.handleClientRead rena e t c = .ok (p', r)) : p'.Wants := by
  rw [ClientPair.handleClientRead] at h
  split at h
  · cases h
    exact hp.set_some hc
  · exact hp.handleConnected hc (fun _ _ hok => hp.clientDoRead hc hok) h

theorem Wants.handleClientWrite (hp : p.Wants) (hc : c.wantSsl ∈ wants)
    (h : p.handleClientWrite rena e t c = .ok (p', r)) : p'.Wants := by
  rw [ClientPair.handleClientWrite] at h
  split at h
  · split at h
    · cases h
      exact hp.set_some hc
    · cases h
      exact hp.set_some hc
  · dsimp only at h
    refine hp.handleConnected ?_ (fun _ _ hok => hp.clientDoWrite ?_ hok) h
    · exact hc
    · exact hc

/-- Without a handler, only the descriptor can be a reason. -/
theorem reason_finish (e : TaskEvent) (p : ClientPair) (t : ClientType) (ret : Option ℤ) :
    ((p.finish e t ret).2.deleted → e.Reason (p.finish e t ret).2) ↔ (ret = none → ¬ e.valid) := by
  rw [ClientPair.finish]
  split
  · rename_i h
    cases ret with
    | none => simp [TaskEvent.Reason]
    | some v =>
        have hreason : e.Reason ⟨some v, none, true⟩ := by
          cases h with
          | inl hv => exact .inl (decide_eq_true hv)
          | inr hvalid => exact .inr (.inl hvalid)
        simp [hreason]
  · rename_i h
    cases ret with
    | none => exact absurd (.inl le_rfl) h
    | some v =>
        simp only [TaskEvent.Reason, decide_not, Bool.not_eq_true', Option.some.injEq]
        exact iff_of_true (fun hdeleted => .inr (.inr hdeleted)) nofun

theorem Wants.handleTask {h : Handling} (hp : p.Wants) (hw : c.wantSsl ∈ wants)
    (htype : 0 < e.type) (htype' : e.type < 3) (hok : p.handleTask rena e t c = .ok (p', h)) :
    p'.Wants ∧ ((h.deleted → e.Reason h) ↔ ¬ (e.valid ∧ e.type = 1 ∧ c.wantSsl = 3)) := by
  have hp₁ : (p.setWorking t true).Wants := hp.setWorking true
  have hw₁ : ({ c with working := true } : Client).wantSsl ∈ wants := hw
  have hzero := wantedType_eq_zero_iff _ hw e.type htype' htype
  have hfinish : ∀ (p₂ : ClientPair) (ret : Option ℤ), p₂.Wants → p₂.finish e t ret = (p', h) →
      (ret = none ↔ wantedType e.type c.wantSsl = 0) →
      p'.Wants ∧ ((h.deleted → e.Reason h) ↔ ¬ (e.valid ∧ e.type = 1 ∧ c.wantSsl = 3)) := by
    intro p₂ ret hp₂ heq hret
    have hreason := reason_finish e p₂ t ret
    have hp' := hp₂.finish (e := e) (t := t) ret
    rw [heq] at hreason hp'
    refine ⟨hp', ?_⟩
    rw [hreason, hret, hzero, not_and', imp_not_comm]
  rw [ClientPair.handleTask] at hok
  dsimp only at hok
  split at hok
  · rename_i hodd
    obtain ⟨⟨p₂, r⟩, hread, hok⟩ := bind_eq_ok.mp hok
    apply hfinish p₂ (some r) (hp₁.handleClientRead hw₁ hread) (Except.ok.inj hok)
    refine iff_of_false nofun ?_
    intro h0
    rw [h0] at hodd
    cases hodd
  · split at hok
    · rename_i hpos
      obtain ⟨⟨p₂, r⟩, hwrite, hok⟩ := bind_eq_ok.mp hok
      apply hfinish p₂ (some r) (hp₁.handleClientWrite hw₁ hwrite) (Except.ok.inj hok)
      exact iff_of_false nofun hpos.ne'
    · rename_i hpos
      apply hfinish _ none hp₁ (Except.ok.inj hok)
      exact iff_of_true rfl (Nat.eq_zero_of_not_pos hpos)

/-- **One task**: the wants stay what they can be, and the task deletes without a reason just
when a want is crossed. -/
theorem taskHandling_spec {h : Handling} (hp : p.Wants)
    (hok : p.taskHandling rena e = .ok (p', h)) :
    p'.Wants ∧ ((h.deleted → e.Reason h) ↔ ¬ p.Crossed e) := by
  have hnothing : ∀ r, p' = p → h = ⟨r, none, false⟩ → ¬ p.Crossed e →
      p'.Wants ∧ ((h.deleted → e.Reason h) ↔ ¬ p.Crossed e) := by
    rintro r rfl rfl hcrossed
    exact ⟨hp, iff_of_true nofun hcrossed⟩
  rw [taskHandling] at hok
  split at hok
  · rename_i hfd
    cases hok
    exact hnothing _ rfl rfl fun hc => absurd hc.2.1 (not_le.mpr hfd)
  rename_i hfd
  split at hok
  · rename_i htype
    cases hok
    refine hnothing _ rfl rfl ?_
    intro hc
    rw [hc.2.2.1] at htype
    omega
  rename_i htype
  split at hok
  · rename_i htype'
    cases ht : p.search e.fd with
    | none =>
        rw [ht] at hok
        cases hok
        refine hnothing _ rfl rfl ?_
        simp [Crossed, ht]
    | some t =>
        rw [ht] at hok
        dsimp only at hok
        cases hc : p.client t with
        | none =>
            rw [hc] at hok
            cases hok
            refine hnothing _ rfl rfl ?_
            simp [Crossed, ht, hc]
        | some c =>
            rw [hc] at hok
            dsimp only at hok
            split at hok
            · rename_i hworking
              cases hok
              refine hnothing _ rfl rfl ?_
              simp [Crossed, ht, hc, hworking]
            · rename_i hidle
              have hcrossed : p.Crossed e ↔ e.valid ∧ e.type = 1 ∧ c.wantSsl = 3 := by
                simp [Crossed, ht, hc, hidle, not_lt.mp hfd]
              rw [hcrossed]
              exact hp.handleTask (hp t c hc) (by omega) htype' hok
  · rename_i htype'
    cases hok
    refine hnothing _ rfl rfl ?_
    intro hc
    rw [hc.2.2.1, ttNormalRead] at htype'
    omega

/-- A crossed want calls no handler, so nothing can go wrong before the deletion. -/
theorem exists_of_crossed (rena : Rena) (h : p.Crossed e) : ∃ r, p.taskHandling rena e = .ok r := by
  obtain ⟨-, hfd, htype, c, hc, hidle, hwant⟩ := h
  obtain ⟨t, ht, hc⟩ := Option.bind_eq_some_iff.mp hc
  refine ⟨(p.setWorking t true).finish e t none, ?_⟩
  have hnone : wantedType e.type c.wantSsl = 0 := by
    rw [htype, hwant]
    rfl
  rw [taskHandling, if_neg (not_lt.mpr hfd), htype, if_neg (by decide), if_pos (by decide), ht]
  dsimp only
  rw [hc]
  dsimp only
  rw [if_neg hidle, ClientPair.handleTask]
  dsimp only
  rw [hnone, if_neg (by decide), if_neg (by decide)]
  rfl

end

end ClientPair

open ClientPair

/-- **Clients are deleted for a reason** over any sequence of tasks, just when no want is
crossed in it. -/
theorem deletesForReason_iff (rena : Rena) (fd : ℤ) (ssl : Bool) (es : List TaskEvent) :
    DeletesForReason rena (accepted fd ssl) es ↔ KeepsToWants rena (accepted fd ssl) es := by
  suffices h : ∀ p : ClientPair, p.Wants → (DeletesForReason rena p es ↔ KeepsToWants rena p es) by
    apply h
    intro t c hc
    cases t with
    | requester =>
        obtain rfl := Option.some.inj hc
        exact List.mem_cons_self
    | victim => cases hc
  induction es with
  | nil => exact fun p _ => Iff.rfl
  | cons e es ih =>
      intro p hp
      have hcons : DeletesForReason rena p (e :: es) ↔ OnOk (fun r => ¬ p.Crossed e ∧
          KeepsToWants rena r.1 es) (p.taskHandling rena e) := by
        apply forall_congr'
        intro r
        apply forall_congr'
        intro hok
        obtain ⟨hp', hreason⟩ := taskHandling_spec hp hok
        exact and_congr hreason (ih r.1 hp')
      rw [hcons]
      constructor
      · intro h
        refine ⟨?_, fun r hok => (h r hok).2⟩
        intro hcrossed
        obtain ⟨r, hok⟩ := exists_of_crossed rena hcrossed
        exact (h r hok).1 hcrossed
      · intro h r hok
        exact ⟨h.1, h.2 r hok⟩

/-- The victim of an `https` requester is connected, the first write to it wants to read, and
it is deleted when there is something to read. -/
theorem not_deletesForReason_wanted : ¬ ∀ (rena : Rena) (fd : ℤ) (ssl : Bool) (es : List TaskEvent),
    DeletesForReason rena (accepted fd ssl) es := by
  intro h
  have hrun := h ⟨chars ".proxy", .null, .null, .null⟩ 5 true
    [.plain 2 5,
      { TaskEvent.plain 1 5 with
        read := ⟨[chars "GET / HTTP/1.0\r\nHost: a.b\r\n\r\n"], .retry⟩
        dispatched := some (6, true) },
      .plain 2 6, { TaskEvent.plain 2 6 with write := .want true }, .plain 1 6]
  revert hrun
  decide +kernel

end RenaProxy
