import RenaProxy.TaskRunner
import RenaProxy.Http.Dispatch
import RenaProxy.Lib.Runs

/-!
# Connecting to a server

A name may have several addresses. `server_try_client_connect` goes on to the next one when an attempt
fails at once; one that fails later is reported to `handle_client_write`, which comes back with the
address that has failed. `givesUp_iff` says when every address is tried at most once.
-/
namespace RenaProxy
open Runs

def eintr : ℤ := 4
def eagain : ℤ := 11
def erestart : ℤ := 85
def ealready : ℤ := 114
def einprogress : ℤ := 115

/-- `ignore_error`, `EWOULDBLOCK` is `EAGAIN`. -/
def ignoreError (error : ℤ) : Bool := error ∈ [eintr, einprogress, ealready, erestart, eagain]

/-- What the system says to an attempt: `server_socket_for_client`, where it needs a new socket,
`connect` with `errno`, and `server_notify`. -/
structure Attempt where
  socket : ℤ
  ret : ℤ
  errno : ℤ
  notify : ℤ

/-- A victim that is to be connected. `userdata` points into the list of addresses, whose places are
numbered; `log` has those that `connect` was called with. -/
structure Connecting where
  userdata : List ℕ
  fd : ℤ
  tcpConnected : Bool
  log : List ℕ
  deriving DecidableEq

section Source
variable (env : ℕ → Attempt)

/-- `server_client_connect`, the attempts are numbered. -/
def serverClientConnect (peer : Connecting) : Connecting × ℤ :=
  match peer.userdata with
  | [] => (peer, -3)
  | target :: _ =>
      let attempt := env peer.log.length
      let peer := { peer with log := peer.log ++ [target] }
      if attempt.ret < 0 ∧ ¬ ignoreError attempt.errno then ({ peer with fd := -1 }, -3)
      else if attempt.notify < 0 then ({ peer with fd := -1 }, -3)
      else (peer, 0)

/-- The loop of `server_try_client_connect`, `target` and the addresses after it. -/
def tryTargets : List ℕ → Connecting → Connecting × ℤ
  | [], peer => (peer, -3)
  | _ :: next, peer =>
      let (peer, ret) := serverClientConnect env peer
      if ret = 0 then (peer, ret)
      else
        match next with
        | [] => (peer, ret)
        | _ :: _ =>
            let peer := { peer with userdata := next }
            let vfd := (env peer.log.length).socket
            if vfd < 0 then (peer, ret) else tryTargets next { peer with fd := vfd }

/-- `server_try_client_connect` -/
def serverTryClientConnect (peer : Connecting) : Connecting × ℤ := tryTargets env peer.userdata peer

/-- `dispatch_new_connection` from the socket on, for `n` addresses. -/
def Connecting.dispatchNewConnection (n : ℕ) : Connecting × ℤ :=
  let vfd := (env 0).socket
  let peer : Connecting := ⟨List.range n, vfd, false, []⟩
  if vfd < 0 then (peer, -3) else serverTryClientConnect env peer

/-- `handle_client_write` for a victim up to its connection, with what `server_tcp_connection_done` says.
With no result it goes on to the handshake. -/
def Connecting.handleClientWrite (peer : Connecting) (done : ℤ) : Connecting × Option ℤ :=
  if peer.tcpConnected then (peer, none)
  else if done ≠ 0 then
    let (peer, ret) := serverTryClientConnect env peer
    (peer, some (if ret ≠ 0 then -1 else epollOut))
  else ({ peer with tcpConnected := true }, none)

/-- An event, after which the victim is still there. -/
def connectStep (peer : Connecting) (done : ℤ) : Option Connecting :=
  let (peer, ret) := Connecting.handleClientWrite env peer done
  if ret = some (-1) then none else some peer

end Source

/-- The attempt has failed at once. -/
def Attempt.Refused (attempt : Attempt) : Prop :=
  (attempt.ret < 0 ∧ ¬ ignoreError attempt.errno) ∨ attempt.notify < 0

instance : DecidablePred Attempt.Refused := fun _ => inferInstanceAs (Decidable (_ ∨ _))

/-- The attempt on the last of `n` addresses has failed at once. -/
def LastRefused (env : ℕ → Attempt) (n : ℕ) (peer : Connecting) : Prop :=
  peer.log.getLast? = some (n - 1) ∧ (env (peer.log.length - 1)).Refused

/-- After an event the addresses were tried in their order, each once, and `handle_client_write` has
given up if the attempt on the last one has failed, be it reported or at once. -/
def TriesOnce (env : ℕ → Attempt) (n : ℕ) (peer : Connecting) (done : ℤ) : Prop :=
  let result := Connecting.handleClientWrite env peer done
  result.1.log.Pairwise (· < ·) ∧
    (peer.tcpConnected = false → done ≠ 0 →
      peer.log.getLast? = some (n - 1) ∨ LastRefused env n result.1 → result.2 = some (-1))

/-- The same of a whole connection, from `dispatch_new_connection` on. -/
def GivesUp (env : ℕ → Attempt) (n : ℕ) (reports : List ℤ) : Prop :=
  let result := Connecting.dispatchNewConnection env n
  result.1.log.Pairwise (· < ·) ∧ (LastRefused env n result.1 → result.2 ≠ 0) ∧
    (result.2 = 0 → Along (connectStep env) (TriesOnce env n) result.1 reports)

/-- No attempt that was accepted is reported as failed. -/
def NoneReported (env : ℕ → Attempt) (n : ℕ) (reports : List ℤ) : Prop :=
  let result := Connecting.dispatchNewConnection env n
  result.2 = 0 → Along (connectStep env) (fun peer done => peer.tcpConnected ∨ done = 0) result.1 reports

section Decide
variable (env : ℕ → Attempt) (n : ℕ)

instance (peer : Connecting) : Decidable (LastRefused env n peer) := inferInstanceAs (Decidable (_ ∧ _))

instance (peer : Connecting) (done : ℤ) : Decidable (TriesOnce env n peer done) := by
  unfold TriesOnce
  infer_instance

instance (reports : List ℤ) : Decidable (GivesUp env n reports) := by
  unfold GivesUp
  infer_instance

end Decide

section Tries
variable {env : ℕ → Attempt} {n : ℕ} {peer : Connecting} {target : ℕ} {next targets : List ℕ}

/-- **One attempt** goes to the address that `userdata` points to. -/
theorem serverClientConnect_eq (h : peer.userdata = target :: next) :
    serverClientConnect env peer =
      if (env peer.log.length).Refused then ({ peer with fd := -1, log := peer.log ++ [target] }, -3)
      else ({ peer with log := peer.log ++ [target] }, 0) := by
  rw [serverClientConnect, h]
  dsimp only
  by_cases hret : (env peer.log.length).ret < 0 ∧ ¬ ignoreError (env peer.log.length).errno
  · rw [if_pos hret, if_pos (.inl hret)]
  · rw [if_neg hret]
    by_cases hnotify : (env peer.log.length).notify < 0
    · rw [if_pos hnotify, if_pos (.inr hnotify)]
    · have hfine : ¬ (env peer.log.length).Refused := not_or.mpr ⟨hret, hnotify⟩
      rw [if_neg hnotify, if_neg hfine]

/-- **One round** of the loop. -/
theorem tryTargets_cons (h : peer.userdata = target :: next) :
    tryTargets env (target :: next) peer =
      if (env peer.log.length).Refused then
        if next = [] then ({ peer with fd := -1, log := peer.log ++ [target] }, -3)
        else if (env (peer.log.length + 1)).socket < 0 then
          ({ peer with userdata := next, fd := -1, log := peer.log ++ [target] }, -3)
        else tryTargets env next { peer with
          userdata := next
          fd := (env (peer.log.length + 1)).socket
          log := peer.log ++ [target] }
      else ({ peer with log := peer.log ++ [target] }, 0) := by
  rw [tryTargets, serverClientConnect_eq h]
  split_ifs with hrefused hnext
  · rw [hnext]
    rfl
  · obtain ⟨target', next, rfl⟩ := List.exists_cons_of_ne_nil hnext
    simp_all
  · obtain ⟨target', next, rfl⟩ := List.exists_cons_of_ne_nil hnext
    simp_all
  · rfl

/-- An address after those that were tried keeps their order. -/
theorem pairwise_concat {log : List ℕ} (hsorted : log.Pairwise (· < ·)) (hlog : ∀ t ∈ log, t < target) :
    (log ++ [target]).Pairwise (· < ·) := by
  rw [List.pairwise_append]
  refine ⟨hsorted, List.pairwise_singleton _ _, fun t ht t' ht' => ?_⟩
  rw [List.mem_singleton.mp ht']
  exact hlog t ht

/-- A victim whose attempt was accepted, and nothing was heard of it. -/
structure Pending (peer : Connecting) : Prop where
  sorted : peer.log.Pairwise (· < ·)
  target : ∃ t next, peer.userdata = t :: next ∧ peer.log.getLast? = some t

/-- **The loop** goes on from the first address, in order, and ends with an attempt that is accepted or
with a failure. -/
theorem tryTargets_spec (hdata : peer.userdata = target :: next) (hsorted : peer.log.Pairwise (· < ·))
    (hnext : (target :: next).Pairwise (· < ·)) (hlog : ∀ t ∈ peer.log, t < target) :
    (tryTargets env (target :: next) peer).1.log.Pairwise (· < ·) ∧
      ((tryTargets env (target :: next) peer).2 = 0 →
        Pending (tryTargets env (target :: next) peer).1 ∧
          ¬ (env ((tryTargets env (target :: next) peer).1.log.length - 1)).Refused) := by
  induction next generalizing peer target with
  | nil =>
      have hsorted' := pairwise_concat hsorted hlog
      rw [tryTargets_cons hdata, if_pos rfl]
      split_ifs with hrefused
      · exact ⟨hsorted', fun h => by cases h⟩
      · exact ⟨hsorted', fun _ => ⟨⟨hsorted', target, [], hdata, by simp⟩, by simpa using hrefused⟩⟩
  | cons target' next ih =>
      have hsorted' := pairwise_concat hsorted hlog
      rw [tryTargets_cons hdata, if_neg (List.cons_ne_nil _ _)]
      split_ifs with hrefused hfd
      · exact ⟨hsorted', fun h => by cases h⟩
      · rw [List.pairwise_cons] at hnext
        apply ih rfl hsorted' hnext.2
        intro t ht
        have hlt := hnext.1 target' List.mem_cons_self
        rcases List.mem_append.mp ht with ht | ht
        · exact (hlog t ht).trans hlt
        · rwa [List.mem_singleton.mp ht]
      · exact ⟨hsorted', fun _ => ⟨⟨hsorted', target, _, hdata, by simp⟩, by simpa using hrefused⟩⟩

/-- The first attempt of a call is on the address that `userdata` points to. -/
theorem prefix_log_tryTargets (hdata : peer.userdata = target :: next) :
    peer.log ++ [target] <+: (tryTargets env (target :: next) peer).1.log := by
  induction next generalizing peer target with
  | nil =>
      rw [tryTargets_cons hdata, if_pos rfl]
      split_ifs <;> exact List.prefix_rfl
  | cons target' next ih =>
      rw [tryTargets_cons hdata, if_neg (List.cons_ne_nil _ _)]
      split_ifs
      · exact List.prefix_rfl
      · have hlonger := @ih ⟨target' :: next, (env (peer.log.length + 1)).socket,
          peer.tcpConnected, peer.log ++ [target]⟩ target' rfl
        exact (List.prefix_append _ _).trans hlonger
      · exact List.prefix_rfl

/-- What an attempt and the socket after it are for a target of a connection. -/
def targetOf (env : ℕ → Attempt) (k : ℕ) : Target :=
  ⟨¬ ((env k).ret < 0 ∧ ¬ ignoreError (env k).errno), 0 ≤ (env k).notify, 0 ≤ (env (k + 1)).socket⟩

/-- **The loop returns** what it returns for a connection whose addresses answer so. -/
theorem tryTargets_ret (hdata : peer.userdata = target :: next) (c : Connection) :
    (tryTargets env (target :: next) peer).2 = (c.serverTryClientConnect
      ((List.range' peer.log.length (next.length + 1)).map (targetOf env))).2 := by
  have hrefused : ∀ k, (env k).Refused ↔
      ¬ ((targetOf env k).connects ∧ (targetOf env k).notifies) := by
    intro k
    rw [Attempt.Refused, targetOf, decide_eq_true_eq, decide_eq_true_eq, ← not_lt]
    tauto
  induction next generalizing peer target c with
  | nil =>
      rw [tryTargets_cons hdata, if_pos rfl, List.length_nil, List.range'_one, List.map_singleton,
        Connection.serverTryClientConnect]
      simp only [hrefused, ite_not]
      split_ifs <;> rfl
  | cons target' next ih =>
      rw [tryTargets_cons hdata, if_neg (List.cons_ne_nil _ _), List.length_cons, List.range'_succ,
        List.range'_succ, List.map_cons, List.map_cons, Connection.serverTryClientConnect]
      simp only [hrefused, ite_not]
      split_ifs with hfine hfd
      · rfl
      · have hnone : (targetOf env peer.log.length).nextSocket = false := by
          simpa [targetOf] using hfd
        rw [Connection.serverSocketForClient, hnone]
        rfl
      · have hsome : (targetOf env peer.log.length).nextSocket = true := by
          simpa [targetOf] using hfd
        rw [Connection.serverSocketForClient, hsome]
        rw [ih rfl, List.length_append, List.length_singleton, List.range'_succ, List.map_cons]
        rfl

/-- What `dispatch_new_connection` leaves. -/
theorem dispatchNewConnection_spec (env : ℕ → Attempt) (n : ℕ) :
    (Connecting.dispatchNewConnection env n).1.log.Pairwise (· < ·) ∧
      ((Connecting.dispatchNewConnection env n).2 = 0 →
        Pending (Connecting.dispatchNewConnection env n).1 ∧
          ¬ (env ((Connecting.dispatchNewConnection env n).1.log.length - 1)).Refused) := by
  rw [Connecting.dispatchNewConnection]
  split_ifs with hfd
  · exact ⟨.nil, fun h => by cases h⟩
  · rw [serverTryClientConnect]
    have hsorted : (List.range n).Pairwise (· < ·) := List.pairwise_lt_range
    cases hrange : List.range n with
    | nil => exact ⟨.nil, fun h => by cases h⟩
    | cons target next => exact tryTargets_spec rfl .nil (hrange ▸ hsorted) (by simp)

/-- **One event**: a victim that hears of a failure comes back with the address that has failed. -/
theorem triesOnce_iff (h : peer.tcpConnected ∨ Pending peer) (hsorted : peer.log.Pairwise (· < ·))
    (done : ℤ) : TriesOnce env n peer done ↔ peer.tcpConnected ∨ done = 0 := by
  rw [TriesOnce, Connecting.handleClientWrite]
  cases htcp : peer.tcpConnected with
  | true => simp [hsorted]
  | false =>
      by_cases hdone : done = 0
      · simp [hdone, hsorted]
      · obtain ⟨t, next, hdata, hlast⟩ := (h.resolve_left (by simp [htcp])).target
        simp only [hdone, ne_eq, not_false_eq_true, if_true, Bool.false_eq_true, if_false, or_self,
          iff_false, not_and]
        intro htries
        -- the address is in the list of attempts twice
        have hprefix : peer.log ++ [t] <+: (tryTargets env (t :: next) peer).1.log :=
          prefix_log_tryTargets hdata
        rw [serverTryClientConnect, hdata] at htries
        have htwice := htries.sublist hprefix.sublist
        rw [List.pairwise_append] at htwice
        exact absurd (htwice.2.2 t (List.mem_of_getLast? hlast) t (List.mem_singleton_self t))
          (lt_irrefl t)

/-- An event that reports no failure only connects. -/
theorem connectStep_eq {peer' : Connecting} {done : ℤ} (h : peer.tcpConnected ∨ done = 0)
    (hstep : connectStep env peer done = some peer') :
    peer' = peer ∨ peer' = { peer with tcpConnected := true } := by
  rw [connectStep, Connecting.handleClientWrite] at hstep
  cases htcp : peer.tcpConnected with
  | true =>
      left
      simpa [htcp] using hstep.symm
  | false =>
      right
      have hdone := h.resolve_left (by simp [htcp])
      simpa [htcp, hdone] using hstep.symm

end Tries

/-- **Each address is tried at most once, and the last failure is the end, if and only if** no attempt
that was accepted is reported as failed. -/
theorem givesUp_iff (env : ℕ → Attempt) (n : ℕ) (reports : List ℤ) :
    GivesUp env n reports ↔ NoneReported env n reports := by
  obtain ⟨hsorted, hpending⟩ := dispatchNewConnection_spec env n
  rw [GivesUp, NoneReported]
  generalize Connecting.dispatchNewConnection env n = result at *
  have halong : result.2 = 0 → (Along (connectStep env) (TriesOnce env n) result.1 reports ↔
      Along (connectStep env) (fun peer done => peer.tcpConnected ∨ done = 0) result.1 reports) := by
    intro h0
    apply along_iff_of_invariant (I := fun peer => (peer.tcpConnected ∨ Pending peer) ∧
      peer.log.Pairwise (· < ·))
    · intro peer done peer' hinv htries hstep
      rcases connectStep_eq ((triesOnce_iff hinv.1 hinv.2 done).mp htries) hstep with rfl | rfl
      · exact hinv
      · exact ⟨.inl rfl, hinv.2⟩
    · exact fun peer done hinv => triesOnce_iff hinv.1 hinv.2 done
    · exact ⟨.inr (hpending h0).1, hsorted⟩
  constructor
  · exact fun h h0 => (halong h0).mp (h.2.2 h0)
  · intro h
    exact ⟨hsorted, fun hlast h0 => (hpending h0).2 hlast.2, fun h0 => (halong h0).mpr (h h0)⟩

/-- One address: the attempt is accepted (`EINPROGRESS`), a failure is reported, and `connect` is
called with the same address again (`ECONNABORTED`). -/
theorem not_givesUp_once : ¬ ∀ env n reports, 1 ≤ n → GivesUp env n reports := by
  intro h
  let env : ℕ → Attempt := fun k => if k = 0 then ⟨5, -1, 115, 0⟩ else ⟨6, -1, 103, 0⟩
  have hgives := h env 1 [-1] (by decide)
  exact absurd hgives (by decide)

end RenaProxy
