import RenaProxy.Http.Reads

/-!
# The connection to the server

A complete request is passed on by `dispatch_new_connection`: it resolves the host,
creates a socket, attaches it to the requester as its victim and connects it. Nothing
records that this was done. `Connection` is a requester with its victim over a sequence
of reads, in which the victim may come to its end at any time, with books of all sockets
that were created and closed.
-/
namespace RenaProxy
open Failure

/-! ## The host of a request -/

/-- `DEFAULT_HTTP_PORT` and `DEFAULT_HTTPS_PORT` -/
def defaultPort (ssl : Bool) : ℤ := if ssl then 443 else 80

/-- `get_n_split_hostname`: the host and the port, if there is a header. -/
def HttpMessage.getNSplitHostname (h : HttpMessage) (port : ℤ) : Option (List UInt8 × ℤ) :=
  (h.findHeader headerHost).map fun hr =>
    let value := (h.copyHeader hr).drop (headerHost.length + 2)
    match value.dropWhile (· ≠ colon) with
    | [] => (value, port)
    | _ :: modifiedPort =>
        let tmpPort := atoi modifiedPort
        (value.takeWhile (· ≠ colon), if tmpPort.2 then port else tmpPort.1)

/-- What `recover_address_from_hostname` comes to. -/
inductive Recovered
  | missing
  | fallback
  | addresses (host : List UInt8) (port : ℤ)
  deriving DecidableEq, Repr

/-- `recover_address_from_hostname`. `resolves` is whether the name service knows the
host. -/
def recoverAddressFromHostname (rena : Rena) (http : HttpMessage) (port : ℤ) (resolves : Bool) :
    Except Fault Recovered :=
  match http.getNSplitHostname port with
  | none => .ok .missing
  | some (host, port) =>
      if 32 ∉ cstr http.mem then .error .noFirstSpace
      else if strcasestr host (rena.suffix.drop 1) then .ok .fallback
      else if resolves then .ok (.addresses host port)
      else .ok .missing

/-! ## Sockets -/

/-- What the system does for one address: whether the socket connects, whether its events
are registered, and whether there is a socket for the next address. -/
structure Target where
  connects : Bool
  notifies : Bool
  nextSocket : Bool
  deriving DecidableEq, Repr

/-- What the system does in the course of one dispatch. -/
structure Answers where
  resolves : Bool
  socket : Bool
  mutex : Bool
  secure : Bool
  targets : List Target
  deriving DecidableEq, Repr

/-- A requester with its victim, `struct circle_client_info`. The victim is given by its
socket, which is closed for a while when a connection fails. Sockets are numbered as
`server_socket_for_client` creates them. The last three fields are books: how many of
them `dispatch_new_connection` created itself, and how often `http_evaluate` returned an
error for bytes that came after that on the open connection. -/
structure Connection where
  requester : ClientInfo
  victim : Option (Option ℕ)
  userdata : Option (List UInt8 × ℤ)
  deleted : Bool
  created : ℕ
  closed : List ℕ
  dispatched : ℕ
  refused : ℕ
  deriving DecidableEq, Repr

namespace Connection

/-- A requester that was just accepted. -/
def accepted (fd : ℤ) (ssl : Bool) : Connection := ⟨.fresh fd ssl, none, none, false, 0, [], 0, 0⟩

/-- `server_socket_for_client` -/
def serverSocketForClient (c : Connection) (works : Bool) : Option (Connection × ℕ) :=
  if works then some ({ c with created := c.created + 1 }, c.created) else none

/-- `clients_add_peer` for a requester. -/
def clientsAddPeer (c : Connection) (fd : ℕ) (mutex : Bool) : Connection × ℤ :=
  if c.victim.isSome then (c, -3)
  else if mutex then ({ c with victim := some (some fd) }, 0)
  else (c, -1)

/-- The socket of the victim is closed, and the victim left without one. -/
def closeVictim (c : Connection) : Connection :=
  { c with victim := c.victim.map fun _ => none, closed := c.closed ++ c.victim.join.toList }

/-- `server_try_client_connect` -/
def serverTryClientConnect (c : Connection) : List Target → Connection × ℤ
  | [] => (c, -3)
  | target :: targets =>
      if target.connects ∧ target.notifies then (c, 0)
      else
        let c := c.closeVictim
        match targets with
        | [] => (c, -3)
        | _ :: _ =>
            match c.serverSocketForClient target.nextSocket with
            | none => (c, -3)
            | some (c, vfd) =>
                serverTryClientConnect { c with victim := some (some vfd) } targets

/-- `dispatch_new_connection` -/
def dispatchNewConnection (rena : Rena) (answers : Answers) (c : Connection)
    (http : HttpMessage) : Except Fault (Connection × ℤ) := do
  let ssl := c.requester.ssl
  match ← recoverAddressFromHostname rena http (defaultPort ssl) answers.resolves with
  | .missing => pure (c, -1)
  | .fallback => pure (c, -3)
  | .addresses host port =>
      let c := { c with userdata := some (host, port) }
      match c.serverSocketForClient answers.socket with
      | none => pure (c, -3)
      | some (c, vfd) =>
          let c := { c with dispatched := c.dispatched + 1 }
          let (c, added) := c.clientsAddPeer vfd answers.mutex
          if added ≠ 0 then pure (c, -3)
          else if ssl ∧ ¬ answers.secure then pure (c, -3)
          else pure (c.serverTryClientConnect answers.targets)

/-- `clients_del` of the requester: both sockets are closed. -/
def delete (c : Connection) : Connection :=
  { c.closeVictim with requester := { c.requester with fd := -1 }, victim := none, deleted := true }

/-- A read of the requester: `client_do_read` with all of `http_evaluate`, and the deletion
of the connection after an error. -/
def read (rena : Rena) (fd : ℤ) (c : Connection) (ev : ReadEvent) (answers : Answers) :
    Except Fault Connection :=
  if c.deleted then .ok c
  else do
    let (requester, e) ← clientDoRead rena .requester none c.requester fd ev
    let c := { c with requester := requester }
    match e, requester.protocol with
    | .dispatch _ true, _ => .error .freedBlock
    | .dispatch evalRet false, some http =>
        let (d, dispatchRet) ← c.dispatchNewConnection rena answers http.toHttpMessage
        let ret := if dispatchRet = -3 then -1 else evalRet
        let d := if c.dispatched ≠ 0 ∧ 0 ≤ requester.fd ∧ ret < 0 then
          { d with refused := d.refused + 1 } else d
        pure (if ret ≤ 0 then d.delete else d)
    | .dispatch _ false, none => .error .nullProtocol
    | .done ret, _ => pure (if ret ≤ 0 then c.delete else c)

/-- What happens to a requester and its victim: bytes from the requester; the server is done
or fails, so that the victim's socket is closed; `clients_del` of the victim, which takes
it off when its socket is closed already and all of its buffer `sent`. -/
inductive ConnectionEvent
  | read (ev : ReadEvent) (answers : Answers)
  | victimClosed
  | victimDeleted (sent : Bool)
  deriving DecidableEq, Repr

def step (rena : Rena) (fd : ℤ) (c : Connection) : ConnectionEvent → Except Fault Connection
  | .read ev answers => c.read rena fd ev answers
  | .victimClosed => .ok c.closeVictim
  | .victimDeleted sent =>
      .ok (if c.victim = some none ∧ sent then { c with victim := none } else c.closeVictim)

/-- A sequence of events. -/
def run (rena : Rena) (fd : ℤ) (c : Connection) (evs : List ConnectionEvent) :
    Except Fault Connection :=
  evs.foldlM (step rena fd) c

/-! ## One upstream connection -/

/-- At most one socket was created by a dispatch, every socket is closed or attached as the
victim, and no bytes after the dispatch made `http_evaluate` return an error. -/
structure Single (c : Connection) : Prop where
  dispatched_le : c.dispatched ≤ 1
  attached_or_closed : ∀ fd < c.created, fd ∈ c.closed ∨ c.victim = some (some fd)
  not_refused : c.refused = 0

/-- A read stays in its block and does not lead into a second dispatch: if it finds the
request complete after a dispatch has created a socket, no address is recovered. The
pointer for the dispatch is not that of a block freed, and a new victim gets its mutex. -/
def calm (rena : Rena) (fd : ℤ) (c : Connection) (ev : ReadEvent) (answers : Answers) : Bool :=
  decide (ReadFits rena .requester none c.requester fd ev) &&
  match clientDoRead rena .requester none c.requester fd ev with
  | .ok (requester, .dispatch _ freed) =>
      !freed && requester.protocol.all fun http =>
        match recoverAddressFromHostname rena http.toHttpMessage (defaultPort requester.ssl)
          answers.resolves with
        | .error _ => true
        | .ok .missing => true
        | .ok .fallback => c.dispatched = 0
        | .ok (.addresses ..) => c.dispatched = 0 && (!answers.socket || answers.mutex)
  | _ => true

/-- An event is calm if it is not a read, or is one while the connection exists. -/
def Calm (rena : Rena) (fd : ℤ) (c : Connection) : ConnectionEvent → Prop
  | .read ev answers => ¬ c.deleted → c.calm rena fd ev answers
  | .victimClosed => True
  | .victimDeleted _ => True

/-- All events of a sequence are calm. -/
def CalmRun (rena : Rena) (fd : ℤ) : Connection → List ConnectionEvent → Prop
  | _, [] => True
  | c, ev :: evs => c.Calm rena fd ev ∧ OnOk (fun c' => CalmRun rena fd c' evs) (c.step rena fd ev)

instance (rena : Rena) (fd : ℤ) (c : Connection) : (ev : ConnectionEvent) →
    Decidable (c.Calm rena fd ev)
  | .read ev answers => inferInstanceAs (Decidable (¬ c.deleted → c.calm rena fd ev answers))
  | .victimClosed => inferInstanceAs (Decidable True)
  | .victimDeleted _ => inferInstanceAs (Decidable True)

instance decidableCalmRun (rena : Rena) (fd : ℤ) : (evs : List ConnectionEvent) →
    (c : Connection) → Decidable (CalmRun rena fd c evs)
  | [], _ => isTrue trivial
  | ev :: evs, c =>
      have := decidableCalmRun rena fd evs
      inferInstanceAs (Decidable (c.Calm rena fd ev ∧
        OnOk (fun c' => CalmRun rena fd c' evs) (c.step rena fd ev)))

/-! ### What the parts of a dispatch keep -/

section Steps
variable {rena : Rena} {fd : ℤ} {c d : Connection} {answers : Answers}

/-- When the victim's socket is closed, all are. -/
theorem mem_closed_closeVictim (H : c.Single) {s : ℕ} (hs : s < c.created) :
    s ∈ c.closeVictim.closed := by
  rcases H.attached_or_closed s hs with hmem | hvictim
  · exact List.mem_append_left _ hmem
  · simp [closeVictim, hvictim]

theorem single_closeVictim (H : c.Single) : c.closeVictim.Single :=
  ⟨H.dispatched_le, fun _ hs => .inl (mem_closed_closeVictim H hs), H.not_refused⟩

/-- A socket that becomes the victim's after the one before it was closed. -/
theorem single_attach (H : c.Single) (hclosed : ∀ s < c.created, s ∈ c.closed) :
    ({ c with created := c.created + 1, victim := some (some c.created) } : Connection).Single := by
  refine ⟨H.dispatched_le, fun s hs => ?_, H.not_refused⟩
  rcases Nat.lt_succ_iff_lt_or_eq.mp hs with hlt | rfl
  · exact .inl (hclosed s hlt)
  · exact .inr rfl

/-- Trying one address after the other leaves no socket behind. -/
theorem single_serverTryClientConnect (targets : List Target) (H : c.Single) :
    (c.serverTryClientConnect targets).1.Single ∧
      (c.serverTryClientConnect targets).1.dispatched = c.dispatched := by
  induction targets generalizing c with
  | nil => exact ⟨H, rfl⟩
  | cons target targets ih =>
      rw [serverTryClientConnect]
      by_cases hok : target.connects ∧ target.notifies
      · rw [if_pos hok]
        exact ⟨H, rfl⟩
      · rw [if_neg hok]
        have hclosed := single_closeVictim H
        cases targets with
        | nil => exact ⟨hclosed, rfl⟩
        | cons next targets =>
            dsimp only
            rw [serverSocketForClient]
            by_cases hsocket : target.nextSocket
            · rw [if_pos hsocket]
              exact ih (single_attach hclosed fun s hs => mem_closed_closeVictim H hs)
            · rw [if_neg hsocket]
              exact ⟨hclosed, rfl⟩

/-- What holds of a connection at every moment: `Single`, and there is no victim that does not
come from a dispatch. -/
structure Inv (c : Connection) : Prop extends c.Single where
  victim_eq : c.dispatched = 0 → c.victim = none

/-- A dispatch that is the first to create a socket, or finds no address, keeps the books in
order. After a socket was created it does nothing. -/
theorem inv_dispatchNewConnection {http : HttpMessage} {ret : ℤ} (H : c.Inv)
    (hcalm : OnOk (fun r => r = .missing ∨ c.dispatched = 0 ∧ (r = .fallback ∨
      (answers.socket → answers.mutex)))
      (recoverAddressFromHostname rena http (defaultPort c.requester.ssl) answers.resolves))
    (hok : c.dispatchNewConnection rena answers http = .ok (d, ret)) :
    d.Inv ∧ (c.dispatched ≠ 0 → ret = -1) := by
  rw [dispatchNewConnection, bind_eq_ok] at hok
  obtain ⟨r, hr, hok⟩ := hok
  rcases hcalm r hr with rfl | ⟨hzero, hr'⟩
  · cases hok
    exact ⟨H, fun _ => rfl⟩
  · have hnone := H.victim_eq hzero
    have hclosed : ∀ s < c.created, s ∈ c.closed := fun s hs =>
      (H.attached_or_closed s hs).resolve_right (by simp [hnone])
    refine ⟨?_, fun hdispatched => absurd hzero hdispatched⟩
    cases r with
    | missing =>
        cases hok
        exact H
    | fallback =>
        cases hok
        exact H
    | addresses host port =>
        dsimp only at hok
        rw [serverSocketForClient] at hok
        by_cases hsocket : answers.socket
        · have hmutex : answers.mutex := by simpa [hsocket] using hr'
          -- the new socket becomes the victim's
          have hsingle : ({ c with
              userdata := some (host, port), created := c.created + 1
              dispatched := c.dispatched + 1
              victim := some (some c.created) } : Connection).Single := by
            obtain ⟨-, hsockets, hrefused⟩ := single_attach H.toSingle hclosed
            exact ⟨by simp [hzero], hsockets, hrefused⟩
          simp only [hsocket, if_true, clientsAddPeer, hnone, Option.isSome_none,
            Bool.false_eq_true, if_false, hmutex, ne_eq, not_true_eq_false] at hok
          by_cases hsecure : c.requester.ssl = true ∧ ¬ answers.secure = true
          · rw [if_pos hsecure] at hok
            cases hok
            exact ⟨hsingle, fun h => absurd h (Nat.succ_ne_zero _)⟩
          · rw [if_neg hsecure] at hok
            obtain ⟨htry, hdispatched⟩ := single_serverTryClientConnect answers.targets hsingle
            have hd := (congrArg Prod.fst (Except.ok.inj hok)).symm
            dsimp only at hd
            subst hd
            exact ⟨htry, fun h => absurd (hdispatched.symm.trans h) (Nat.succ_ne_zero _)⟩
        · rw [if_neg hsocket] at hok
          cases hok
          exact ⟨⟨H.dispatched_le, H.attached_or_closed, H.not_refused⟩, H.victim_eq⟩

theorem Inv.closeVictim (H : c.Inv) : c.closeVictim.Inv where
  toSingle := single_closeVictim H.toSingle
  victim_eq hzero := by rw [Connection.closeVictim, H.victim_eq hzero, Option.map_none]

theorem Inv.delete (H : c.Inv) : c.delete.Inv where
  dispatched_le := H.dispatched_le
  attached_or_closed _ hs := .inl (mem_closed_closeVictim H.toSingle hs)
  not_refused := H.not_refused
  victim_eq _ := rfl

/-- A calm read gives the dispatch what it needs to keep the books in order. -/
theorem calm_spec {ev : ReadEvent} {requester : ClientInfo} {http : Http} {evalRet : ℤ}
    {freed : Bool} (hcalm : c.calm rena fd ev answers)
    (hread : clientDoRead rena .requester none c.requester fd ev =
      .ok (requester, .dispatch evalRet freed)) (hprot : requester.protocol = some http) :
    freed = false ∧ OnOk (fun r => r = .missing ∨ c.dispatched = 0 ∧ (r = .fallback ∨
      (answers.socket → answers.mutex)))
      (recoverAddressFromHostname rena http.toHttpMessage (defaultPort requester.ssl)
        answers.resolves) := by
  simp only [calm, hread, hprot, Option.all_some, Bool.and_eq_true, Bool.not_eq_true'] at hcalm
  obtain ⟨-, hfreed, hcalm⟩ := hcalm
  refine ⟨hfreed, fun r hr => ?_⟩
  rw [hr] at hcalm
  cases r with
  | missing => exact .inl rfl
  | fallback => exact .inr ⟨by simpa using hcalm, .inl rfl⟩
  | addresses host port =>
      simp only [Bool.and_eq_true, decide_eq_true_eq] at hcalm
      refine .inr ⟨hcalm.1, .inr fun hsocket => ?_⟩
      simpa [hsocket] using hcalm.2

/-- As long as the connection is open, the dispatch is not followed by an error of its own,
and there is a protocol. -/
theorem ttRead_of_dispatch {type : ClientType} {peer : Option HttpMessage}
    {client client' : ClientInfo} {ev : ReadEvent} {evalRet : ℤ} {freed : Bool}
    (hread : clientDoRead rena type peer client fd ev = .ok (client', .dispatch evalRet freed)) :
    (0 ≤ client'.fd → evalRet = ttRead) ∧ client'.protocol.isSome := by
  obtain ⟨c₁, ret, -, ⟨-, -, he⟩ | ⟨-, h, -, rfl, he⟩⟩ := clientDoRead_cases hread
  · cases he
  · refine ⟨fun hopen => ?_, rfl⟩
    rw [Http.evaluation] at he
    split at he
    · cases he
    · cases type with
      | victim => cases he
      | requester =>
          dsimp only at he
          split at he
          · cases he
          · injection he with he
            rw [he, if_neg (not_lt.mpr hopen)]

/-- One read keeps the invariant if it is calm. -/
theorem Inv.read (H : c.Inv) {ev : ReadEvent} (hcalm : ¬ c.deleted → c.calm rena fd ev answers)
    (hok : c.read rena fd ev answers = .ok d) : d.Inv := by
  rw [Connection.read] at hok
  by_cases hdeleted : c.deleted = true
  · rw [if_pos hdeleted] at hok
    cases hok
    exact H
  · rw [if_neg hdeleted, bind_eq_ok] at hok
    obtain ⟨⟨requester, e⟩, hread, hok⟩ := hok
    have hsame : ({ c with requester := requester } : Connection).Inv :=
      ⟨⟨H.dispatched_le, H.attached_or_closed, H.not_refused⟩, H.victim_eq⟩
    have hlater : ∀ d' : Connection, d'.Inv → ∀ ret : ℤ, (if ret ≤ 0 then d'.delete else d').Inv := by
      intro d' hd' ret
      split
      · exact hd'.delete
      · exact hd'
    cases e with
    | done ret =>
        cases hok
        exact hlater _ hsame ret
    | dispatch evalRet freed =>
        obtain ⟨httRead, hsome⟩ := ttRead_of_dispatch hread
        obtain ⟨http, hprot⟩ := Option.isSome_iff_exists.mp hsome
        obtain ⟨rfl, hrecover⟩ := calm_spec (hcalm hdeleted) hread hprot
        dsimp only at hok
        rw [hprot] at hok
        dsimp only at hok
        rw [bind_eq_ok] at hok
        obtain ⟨⟨d', dispatchRet⟩, hdispatch, hok⟩ := hok
        obtain ⟨hd', hagain⟩ := inv_dispatchNewConnection hsame hrecover hdispatch
        -- once a socket was created there is no address, so that no error is returned
        have hret : ¬ (c.dispatched ≠ 0 ∧ 0 ≤ requester.fd ∧
            (if dispatchRet = -3 then -1 else evalRet) < 0) := by
          rintro ⟨hdispatched, hopen, hneg⟩
          rw [hagain hdispatched, if_neg (by decide), httRead hopen] at hneg
          exact absurd hneg (by decide)
        dsimp only at hok
        rw [if_neg hret] at hok
        cases hok
        exact hlater d' hd' _

/-- One event keeps the invariant if it is calm. -/
theorem Inv.step (H : c.Inv) {ev : ConnectionEvent} (hcalm : c.Calm rena fd ev)
    (hok : c.step rena fd ev = .ok d) : d.Inv := by
  cases ev with
  | read ev answers => exact H.read hcalm hok
  | victimClosed =>
      obtain rfl := Except.ok.inj hok
      exact H.closeVictim
  | victimDeleted sent =>
      obtain rfl := Except.ok.inj hok
      split
      · rename_i hgone
        refine ⟨⟨H.dispatched_le, fun s hs => .inl ?_, H.not_refused⟩, fun _ => rfl⟩
        exact (H.attached_or_closed s hs).resolve_right (by simp [hgone.1])
      · exact H.closeVictim

/-- A dispatch can only fail for a first line without a space. -/
theorem dispatchNewConnection_ne_error {e : Fault} (he : e ≠ .noFirstSpace) (http : HttpMessage) :
    c.dispatchNewConnection rena answers http ≠ .error e := by
  have hspace : Fault.noFirstSpace ≠ e := he.symm
  refine bind_ne_error ?_ fun r _ => ?_
  · rw [recoverAddressFromHostname]
    cases http.getNSplitHostname (defaultPort c.requester.ssl) with
    | none => simp
    | some value =>
        refine ite_ne_error (by simpa using hspace) (ite_ne_error (by simp) ?_)
        exact ite_ne_error (by simp) (by simp)
  · cases r with
    | missing => simp [pure, Except.pure]
    | fallback => simp [pure, Except.pure]
    | addresses host port =>
        dsimp only
        rw [serverSocketForClient]
        by_cases hsocket : answers.socket
        · rw [if_pos hsocket]
          exact ite_ne_error (by simp [pure, Except.pure])
            (ite_ne_error (by simp [pure, Except.pure]) (by simp [pure, Except.pure]))
        · rw [if_neg hsocket]
          simp [pure, Except.pure]

/-- A calm event does not leave the block and uses no block that was freed. -/
theorem step_ne_error {e : Fault} (he : e = .overrun ∨ e = .freedBlock) {ev : ConnectionEvent}
    (hcalm : c.Calm rena fd ev) : c.step rena fd ev ≠ .error e := by
  cases ev with
  | victimClosed => simp [step]
  | victimDeleted sent => simp [step]
  | read ev answers =>
      by_cases hdeleted : c.deleted = true
      · simp [step, Connection.read, hdeleted]
      · have hread := hcalm hdeleted
        have hfit : ReadFits rena .requester none c.requester fd ev := by
          simp only [calm, Bool.and_eq_true, decide_eq_true_eq] at hread
          exact hread.1
        have hother : e ∉ HttpMessage.headerFaults ∧ e ≠ .consumeInput ∧ e ≠ .nullProtocol ∧
            e ≠ .noFirstSpace := by
          rcases he with rfl | rfl <;> decide
        obtain ⟨hheader, hconsume, hnull, hspace⟩ := hother
        rw [step, Connection.read, if_neg hdeleted]
        refine bind_ne_error (clientDoRead_ne_error hheader hconsume hnull hfit) ?_
        rintro ⟨requester, e'⟩ hok
        cases e' with
        | done ret => simp [pure, Except.pure]
        | dispatch evalRet freed =>
            obtain ⟨http, hprot⟩ := Option.isSome_iff_exists.mp (ttRead_of_dispatch hok).2
            obtain ⟨rfl, -⟩ := calm_spec hread hok hprot
            dsimp only
            rw [hprot]
            exact bind_ne_error (dispatchNewConnection_ne_error hspace _)
              fun _ _ => by simp [pure, Except.pure]

/-- Nor does a calm run. -/
theorem run_ne_error {e : Fault} (he : e = .overrun ∨ e = .freedBlock)
    {evs : List ConnectionEvent} (hcalm : CalmRun rena fd c evs) : run rena fd c evs ≠ .error e := by
  induction evs generalizing c with
  | nil => intro h; cases h
  | cons ev evs ih =>
      rw [run, List.foldlM_cons]
      exact bind_ne_error (step_ne_error he hcalm.1) fun c' hok => ih (hcalm.2 c' hok)

end Steps

/-- **One upstream connection for a requester**: in every sequence of calm events, in which the
victim may be closed and taken off at any time, at most one socket is created by a
dispatch, every socket is closed or attached as the victim, and no bytes that come after
the dispatch make `http_evaluate` return an error. No read is an overrun or uses a block
that was freed. -/
theorem single_run (rena : Rena) (fd : ℤ) (ssl : Bool) (evs : List ConnectionEvent)
    (hcalm : CalmRun rena fd (accepted fd ssl) evs) :
    OnOk Single (run rena fd (accepted fd ssl) evs) ∧
      run rena fd (accepted fd ssl) evs ≠ .error .overrun ∧
      run rena fd (accepted fd ssl) evs ≠ .error .freedBlock := by
  have hstart : (accepted fd ssl).Inv :=
    ⟨⟨Nat.zero_le 1, fun _ hs => absurd hs (Nat.not_lt_zero _), rfl⟩, fun _ => rfl⟩
  have hstep : ∀ c ev evs c', c.Inv ∧ CalmRun rena fd c (ev :: evs) →
      c.step rena fd ev = .ok c' → c'.Inv ∧ CalmRun rena fd c' evs := by
    rintro c ev evs c' ⟨H, hcalm, hrest⟩ hok
    exact ⟨H.step hcalm hok, hrest c' hok⟩
  refine ⟨fun c hc => ?_, run_ne_error (.inl rfl) hcalm, run_ne_error (.inr rfl) hcalm⟩
  have H : c.Inv ∧ CalmRun rena fd c [] :=
    foldlM_invariant_rest (fun c evs => c.Inv ∧ CalmRun rena fd c evs) hstep ⟨hstart, hcalm⟩ hc
  exact H.1.toSingle

/-- A request without a body. -/
def getRequest : List UInt8 := chars "GET / HTTP/1.0\r\nHost: a.b\r\n\r\n"

/-- A system on which everything works. -/
def allWorks : Answers := ⟨true, true, true, true, [⟨true, true, true⟩]⟩

/-- The request in two reads. The server is done soon. -/
def getInTwo : List ConnectionEvent :=
  [.read ⟨[getRequest.take 10], .retry⟩ allWorks, .read ⟨[getRequest.drop 10], .retry⟩ allWorks,
    .victimClosed, .victimDeleted true]

/-- The request in one read, and another byte. -/
def getAndMore : List ConnectionEvent :=
  [.read ⟨[getRequest], .retry⟩ allWorks, .read ⟨[chars "x"], .retry⟩ allWorks]

theorem single_run_getInTwo : ∃ c, run renaAbcd 5 (accepted 5 false) getInTwo = .ok c ∧
    c.Single ∧ c.created = 1 := by
  have hcalm : CalmRun renaAbcd 5 (accepted 5 false) getInTwo := by decide +kernel
  obtain ⟨c, hc, hcreated⟩ := exists_ok_of_check (p := fun c => c.created = 1)
    (x := run renaAbcd 5 (accepted 5 false) getInTwo) (by decide +kernel)
  exact ⟨c, hc, (single_run renaAbcd 5 false getInTwo hcalm).1 c hc, of_decide_eq_true hcreated⟩

/-- The byte leads to a second dispatch and a second socket. The socket is neither attached
nor closed, and the connection is deleted. -/
theorem not_single_getAndMore : ∃ c, run renaAbcd 5 (accepted 5 false) getAndMore = .ok c ∧
    c.dispatched = 2 ∧ c.created = 2 ∧ c.closed = [0] ∧ c.victim = none ∧ c.refused = 1 := by
  obtain ⟨c, hc, hcheck⟩ := exists_ok_of_check (p := fun c => c.dispatched = 2 ∧ c.created = 2 ∧
      c.closed = [0] ∧ c.victim = none ∧ c.refused = 1)
    (x := run renaAbcd 5 (accepted 5 false) getAndMore) (by decide +kernel)
  exact ⟨c, hc, of_decide_eq_true hcheck⟩

end Connection

end RenaProxy
