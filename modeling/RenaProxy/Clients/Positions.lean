import RenaProxy.Clients.Runs
import RenaProxy.TaskRunner
import RenaProxy.Lib.Runs

/-!
# What a position designates

`clients_del` resets a position when it frees the node, and not when it frees a victim whose requester
stays. `task_handling` goes on with the position and writes to what it designates.
`safeAlong_iff` says after which calls that is still a client of the table.
-/
namespace RenaProxy
open Failure LinkedRing Clients Runs

/-- The table and the positions that `clients_search` has handed out. Every `client_info` gets a number
when it is made: `owner` has that of the last one made for a side of a node, and a position comes with
that of the one that it was handed out for. -/
structure PositionUse where
  clients : Clients
  owner : Address → ClientType → ℕ
  count : ℕ
  positions : List (ClientPosition × ℕ)

namespace PositionUse

/-- Nothing is there. -/
def start : PositionUse := ⟨.init, fun _ _ => 0, 0, []⟩

/-- A loop along the ring has as many rounds as there are nodes. -/
def fuel (s : PositionUse) : ℕ := s.clients.qty.toNat

/-- A client was made for a side of the node at `a`. -/
def made (s : PositionUse) (clients : Clients) (a : Address) (t : ClientType) : PositionUse :=
  { s with
    clients := clients
    owner := fun b t' => if b = a ∧ t' = t then s.count else s.owner b t'
    count := s.count + 1 }

/-- The number of the client that was made last for the side that a position leads to. -/
def ownerOf (s : PositionUse) (p : ClientPosition) : ℕ :=
  match p.pos, p.type with
  | some a, some t => s.owner a t
  | _, _ => 0

/-- One call, `calloc` finds room that is free. -/
def step (s : PositionUse) : TableCall → Option PositionUse
  | .add t fd a =>
      if s.clients.heap a = none then do
        let (clients, _) ← (s.clients.add t fd a).toOption
        pure (s.made clients a (if t = some .requester then .requester else .victim))
      else none
  | .search fd => do
      let (p, _) ← (s.clients.search s.fuel fd).toOption
      pure { s with positions := s.positions ++ [(p, s.ownerOf p)] }
  | .addPeer i fd => do
      let (p, _) ← s.positions[i]?
      let (clients, ret) ← (s.clients.addPeer p fd).toOption
      match p.pos, p.type with
      | some a, some t =>
          pure (if ret = 0 then s.made clients a t.peer else { s with clients := clients })
      | _, _ => pure { s with clients := clients }
  | .del i => do
      let (p, k) ← s.positions[i]?
      let (clients, p, _) ← (s.clients.del s.fuel p).toOption
      pure { s with clients := clients, positions := s.positions.set i (p, k) }
  | .forget i => pure { s with positions := s.positions.eraseIdx i }
  | .change a t fd protocol => pure { s with clients := s.clients.change a t fd protocol }

/-- `info` points to a client of the table, the one that the position was handed out for. -/
def Designates (s : PositionUse) (p : ClientPosition × ℕ) : Prop :=
  p.1.info ∧ ∃ a t n, p.1.pos = some a ∧ p.1.type = some t ∧ s.clients.Reachable a ∧
    s.clients.heap a = some n ∧ (n.client t).isSome ∧ s.owner a t = p.2

/-- When `clients_del` returns 0, the position is reset or designates a client still; and so it does
whenever `task_handling` calls `clients_set_working` with it then, unless its type is `INVALID_TYPE`. -/
def Safe (s : PositionUse) : TableCall → Prop
  | .del i => ∀ p ∈ s.positions[i]?, s.clients.del s.fuel p.1 ≠ .error .endless ∧
      ∀ clients p' ret, s.clients.del s.fuel p.1 = .ok (clients, p', ret) →
        let s' := { s with clients := clients }
        (ret = 0 → p' = .zero ∨ s'.Designates (p', p.2)) ∧ (p'.type ≠ none → s'.Designates (p', p.2))
  | _ => True

/-- The position leads nowhere, or its node is there and it is a requester's, or the node has no
requester, or its victim is the one that was looked for and is open or has bytes left to send. -/
def Lasts (s : PositionUse) : TableCall → Prop
  | .del i => ∀ p ∈ s.positions[i]?, p.1 = .zero ∨
      ∃ a n, p.1.pos = some a ∧ s.clients.heap a = some n ∧
        (p.1.type = some .requester ∨ n.requester = none ∨
          ∃ v, n.victim = some v ∧ s.owner a .victim = p.2 ∧ ¬ (v.fd < 0 ∧ httpSentDone v.protocol))
  | _ => True

/-- The nodes are `xs`, and every position is one that `clients_search` may hand out. -/
structure Sane (s : PositionUse) (xs : List Address) : Prop where
  table : Table s.clients xs
  handedOut : ∀ p ∈ s.positions, p.1 = .zero ∨ ∃ t a, p.1 = ⟨true, some t, some a⟩

section Sane
variable {s s' : PositionUse} {xs : List Address}

theorem Sane.length_le (S : Sane s xs) : xs.length ≤ s.fuel := by
  rw [fuel, S.table.qty]
  simp

/-- What is left of a victim whose requester stays. -/
theorem isSome_victim_iff {n : CircleClientInfo} :
    (n.victim.bind fun v => clientInfoDestroy v (decide (v.fd < 0) && httpSentDone v.protocol)).isSome ↔
      ∃ v, n.victim = some v ∧ ¬ (v.fd < 0 ∧ httpSentDone v.protocol) := by
  cases n.victim with
  | none => simp
  | some v =>
      simp only [Option.bind_some, clientInfoDestroy, Bool.and_eq_true, decide_eq_true_eq,
        Option.some.injEq, exists_eq_left']
      split_ifs with h <;> simp [h]

/-- **A call of `clients_del`** follows a null pointer or comes to an end. -/
theorem Sane.del_full (S : Sane s xs) (t : ClientType) (a : Address) :
    (t = .requester ∧ (∃ n, s.clients.heap a = some n ∧ n.requester = none) ∧
        s.clients.del s.fuel ⟨true, some t, some a⟩ = .error .badPointer) ∨
      ∃ clients p' ret xs', s.clients.del s.fuel ⟨true, some t, some a⟩ = .ok (clients, p', ret) ∧
        Table clients xs' ∧ Deletes s.clients ⟨true, some t, some a⟩ clients p' ret := by
  by_cases hgone : t = .requester ∧ ∃ n, s.clients.heap a = some n ∧ n.requester = none
  · obtain ⟨rfl, n, hn, hreq⟩ := hgone
    exact .inl ⟨rfl, ⟨n, hn, hreq⟩, S.table.del_gone S.length_le hn hreq⟩
  · right
    obtain ⟨clients, p', ret, xs', hdel, T, -, -, -, hdeletes⟩ :=
      S.table.del S.length_le ⟨true, some t, some a⟩ (by
        intro b _ hb ht r v hboth
        obtain rfl := Option.some.inj hb
        obtain ⟨n, hn, heq⟩ := Option.map_eq_some_iff.mp hboth
        rw [← (Prod.mk.inj heq).1, Option.isSome_iff_ne_none]
        exact fun hreq => hgone ⟨Option.some.inj ht, n, hn, hreq⟩)
    exact ⟨clients, p', ret, xs', hdel, T, hdeletes⟩

/-- **A full position** is safe to delete if it lasts, and only then. -/
theorem Sane.safe_full_iff (S : Sane s xs) (t : ClientType) (a : Address) (k : ℕ) :
    (s.clients.del s.fuel ⟨true, some t, some a⟩ ≠ .error .endless ∧
      ∀ clients p' ret, s.clients.del s.fuel ⟨true, some t, some a⟩ = .ok (clients, p', ret) →
        let s' := { s with clients := clients }
        (ret = 0 → p' = .zero ∨ s'.Designates (p', k)) ∧ (p'.type ≠ none → s'.Designates (p', k))) ↔
      ∃ n, s.clients.heap a = some n ∧ (t = .requester ∨ n.requester = none ∨
        ∃ v, n.victim = some v ∧ s.owner a .victim = k ∧ ¬ (v.fd < 0 ∧ httpSentDone v.protocol)) := by
  rcases S.del_full t a with ⟨rfl, ⟨n, hn, -⟩, hdel⟩ | ⟨clients, p', ret, xs', hdel, T, hdeletes⟩
  · rw [hdel]
    exact iff_of_true ⟨by simp, by simp⟩ ⟨n, hn, .inl rfl⟩
  · rw [hdel]
    simp only [ne_eq, reduceCtorEq, not_false_eq_true, true_and, Except.ok.injEq, Prod.mk.injEq]
    cases hdeletes with
    | skipped h => simp at h
    | erased hpos hn =>
        obtain rfl := Option.some.inj hpos
        simp [Designates, hn]
    | @unlinked b n _ hpos hn h =>
        obtain rfl := Option.some.inj hpos
        refine iff_of_true ?_ ⟨n, hn, h.imp Option.some.inj .inl⟩
        rintro _ _ _ ⟨rfl, rfl, rfl⟩
        exact ⟨fun _ => .inl rfl, fun h => absurd rfl h⟩
    | @kept b n n' _ hpos hn htype hreq hn' hvictim =>
        obtain rfl := Option.some.inj hpos
        obtain rfl := Option.some.inj htype
        have hreach : clients.Reachable a := by
          rw [T.reachable_iff, ← T.isSome_heap, hn']
          rfl
        have hdesignates : ({ s with clients := clients } : PositionUse).Designates
            (⟨true, some .victim, some a⟩, k) ↔ n'.victim.isSome ∧ s.owner a .victim = k := by
          simp [Designates, hreach, hn', CircleClientInfo.client]
        have hvictim' := isSome_victim_iff (n := n)
        rw [← hvictim] at hvictim'
        constructor
        · intro h
          obtain ⟨hleft, howner⟩ := hdesignates.mp ((h _ _ _ ⟨rfl, rfl, rfl⟩).2 (by simp))
          obtain ⟨v, hv, hopen⟩ := hvictim'.mp hleft
          exact ⟨n, hn, .inr (.inr ⟨v, hv, howner, hopen⟩)⟩
        · rintro ⟨n₀, hn₀, hlasts⟩ _ _ _ ⟨rfl, rfl, rfl⟩
          obtain rfl := Option.some.inj (hn.symm.trans hn₀)
          obtain ⟨v, hv, howner, hopen⟩ := (hlasts.resolve_left (by simp)).resolve_left hreq
          have hlive := hdesignates.mpr ⟨hvictim'.mpr ⟨v, hv, hopen⟩, howner⟩
          exact ⟨fun _ => .inr hlive, fun _ => hlive⟩

/-- **One call of `clients_del`.** -/
theorem Sane.safe_iff (S : Sane s xs) (call : TableCall) : s.Safe call ↔ s.Lasts call := by
  cases call with
  | del i =>
      refine forall₂_congr fun p hp => ?_
      rcases S.handedOut p (List.mem_of_getElem? hp) with hzero | ⟨t, a, hfull⟩
      · have hskip : s.clients.del s.fuel .zero = .ok (s.clients, .zero, -1) := rfl
        rw [hzero, hskip]
        simp [ClientPosition.zero]
      · rw [hfull, S.safe_full_iff]
        simp [ClientPosition.zero]
  | add t fd a => rfl
  | search fd => rfl
  | addPeer i fd => rfl
  | forget i => rfl
  | change a t fd protocol => rfl

/-- `clients_add_peer` changes no node's place. -/
theorem Sane.addPeer (S : Sane s xs) {i : ℕ} {fd : ℤ} (h : s.step (.addPeer i fd) = some s') :
    Sane s' xs := by
  rw [PositionUse.step] at h
  obtain ⟨⟨p, k⟩, hp, h⟩ := Option.bind_eq_some_iff.mp h
  obtain ⟨⟨clients, ret⟩, hadd, h⟩ := Option.bind_eq_some_iff.mp h
  have T : Table clients xs := S.table.of_addPeer (toOption_eq_some.mp hadd)
  dsimp only at h
  split at h
  · split_ifs at h
    · obtain rfl := Option.some.inj h
      exact ⟨T, S.handedOut⟩
    · obtain rfl := Option.some.inj h
      exact ⟨T, S.handedOut⟩
  · obtain rfl := Option.some.inj h
    exact ⟨T, S.handedOut⟩

/-- `clients_del` leaves a table and a position, which is reset or as it was. -/
theorem Sane.del_ok (S : Sane s xs) {p p' : ClientPosition} {clients : Clients} {ret : ℤ}
    (hp : p = .zero ∨ ∃ t a, p = ⟨true, some t, some a⟩)
    (hdel : s.clients.del s.fuel p = .ok (clients, p', ret)) :
    ∃ xs', Table clients xs' ∧ (p' = .zero ∨ ∃ t a, p' = ⟨true, some t, some a⟩) := by
  rcases hp with rfl | ⟨t, a, rfl⟩
  · have hskip : s.clients.del s.fuel .zero = .ok (s.clients, .zero, -1) := rfl
    rw [hskip] at hdel
    cases hdel
    exact ⟨xs, S.table, .inl rfl⟩
  · rcases S.del_full t a with ⟨-, -, hfault⟩ | ⟨clients', p'', ret', xs', hok, T, hdeletes⟩
    · rw [hfault] at hdel
      cases hdel
    · rw [hok] at hdel
      cases hdel
      refine ⟨xs', T, ?_⟩
      cases hdeletes with
      | unlinked => exact .inl rfl
      | skipped => exact .inr ⟨t, a, rfl⟩
      | erased => exact .inr ⟨t, a, rfl⟩
      | kept => exact .inr ⟨t, a, rfl⟩

/-- Every call that is made keeps the invariant. -/
theorem Sane.step (S : Sane s xs) {call : TableCall} (h : s.step call = some s') :
    ∃ xs', Sane s' xs' := by
  cases call with
  | add t fd a =>
      rw [PositionUse.step] at h
      obtain ⟨hfree, h⟩ := Option.ite_none_right_eq_some.mp h
      obtain ⟨clients, hadd, T, -⟩ := S.table.add hfree t fd
      rw [hadd] at h
      obtain rfl := Option.some.inj h
      exact ⟨a :: xs, T, S.handedOut⟩
  | search fd =>
      obtain ⟨p, ret, hok, hfound⟩ := S.table.search S.length_le fd
      rw [PositionUse.step, hok] at h
      obtain rfl := Option.some.inj h
      refine ⟨xs, S.table, ?_⟩
      intro q hq
      rcases List.mem_append.mp hq with hq | hq
      · exact S.handedOut q hq
      · rw [List.mem_singleton.mp hq]
        rcases hfound with ⟨-, a, -, hshown⟩ | ⟨-, rfl, -⟩
        · obtain ⟨t, rfl, -⟩ := shown_eq_some hshown
          exact .inr ⟨t, a, rfl⟩
        · exact .inl rfl
  | addPeer i fd => exact ⟨xs, S.addPeer h⟩
  | del i =>
      rw [PositionUse.step] at h
      obtain ⟨⟨p, k⟩, hp, h⟩ := Option.bind_eq_some_iff.mp h
      obtain ⟨⟨clients, p', ret⟩, hdel, h⟩ := Option.bind_eq_some_iff.mp h
      obtain rfl := Option.some.inj h
      obtain ⟨xs', T, hp'⟩ :=
        S.del_ok (S.handedOut _ (List.mem_of_getElem? hp)) (toOption_eq_some.mp hdel)
      refine ⟨xs', T, fun q hq => ?_⟩
      rcases List.mem_or_eq_of_mem_set hq with hq | rfl
      · exact S.handedOut q hq
      · exact hp'
  | forget i =>
      obtain rfl := Option.some.inj h
      exact ⟨xs, S.table, fun p hp => S.handedOut p (List.mem_of_mem_eraseIdx hp)⟩
  | change a t fd protocol =>
      obtain rfl := Option.some.inj h
      exact ⟨xs, (TableUse.change_keeps S.table a t fd protocol).1, S.handedOut⟩

end Sane

end PositionUse

/-- **A position does not outlive what it designates if and only if** each call of `clients_del` is made
with one that lasts, in every run of the table. -/
theorem safeAlong_iff (calls : List TableCall) :
    Along PositionUse.step PositionUse.Safe .start calls ↔
      Along PositionUse.step PositionUse.Lasts .start calls := by
  apply along_iff_of_invariant (I := fun s => ∃ xs, PositionUse.Sane s xs)
  · rintro s call s' ⟨xs, S⟩ - hstep
    exact S.step hstep
  · rintro s call ⟨xs, S⟩
    exact S.safe_iff call
  · exact ⟨[], table_init, by simp [PositionUse.start]⟩

/-- A requester gets a victim, `http_pull` closes it at the end of its stream, and `clients_del` frees
it and leaves the position as it was. -/
theorem not_safeAlong_victim :
    ¬ ∀ calls, Along PositionUse.step PositionUse.Safe .start calls := by
  intro h
  let calls : List TableCall := [.add (some .requester) 5 100, .search 5, .addPeer 0 6, .search 6,
    .change 100 .victim (-1) none]
  have hrun : (calls.foldlM PositionUse.step .start).any fun s =>
      s.positions[1]?.any fun p => (s.clients.del s.fuel p.1).toOption.any fun r =>
        r.2 = (⟨true, some .victim, some 100⟩, 0) ∧
          r.1.both 100 = some (some (clientsAddCi 5), none) := by
    decide +kernel
  obtain ⟨s, hs, hrun⟩ := (Option.any_eq_true _ _).mp hrun
  obtain ⟨p, hp, hrun⟩ := (Option.any_eq_true _ _).mp hrun
  obtain ⟨⟨clients, p', ret⟩, hdel, hrun⟩ := (Option.any_eq_true _ _).mp hrun
  obtain ⟨hreturned, hboth⟩ := of_decide_eq_true hrun
  obtain ⟨rfl, rfl⟩ := Prod.mk.inj hreturned
  have halong : Along PositionUse.step PositionUse.Safe .start (calls ++ [.del 1]) := h _
  have hsafe := (along_of_append halong s hs).1 p hp
  rcases (hsafe.2 _ _ _ (toOption_eq_some.mp hdel)).1 rfl with hzero | hlive
  · cases hzero
  · -- the node has no victim any more
    obtain ⟨-, a, t, n, ha, ht, -, hn, hclient, -⟩ := hlive
    obtain rfl := Option.some.inj ha
    obtain rfl := Option.some.inj ht
    rw [both, hn, Option.map_some] at hboth
    have hnone : n.victim = none := (Prod.mk.inj (Option.some.inj hboth)).2
    rw [CircleClientInfo.client, hnone] at hclient
    cases hclient

end RenaProxy
