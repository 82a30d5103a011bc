import RenaProxy.Clients.Ring

/-!
# Runs of the client table

Calls of the operations in any order, with the positions that `clients_search` has handed
out and that are still held. `wellFormed_of_calls`: the table they leave is a well-formed
ring on which `clients_search` finds what is there.
-/
namespace RenaProxy
open Failure LinkedRing Clients

/-- The table and the positions that are held. -/
structure TableUse where
  clients : Clients
  positions : List ClientPosition

/-- One call, `i` numbers the positions held. A call of `clients_add` says where `calloc`
puts the node. -/
inductive TableCall
  | add (t : Option ClientType) (fd : ℤ) (a : Address)
  | search (fd : ℤ)
  | addPeer (i : ℕ) (fd : ℤ)
  | del (i : ℕ)
  /-- A position is no longer held. -/
  | forget (i : ℕ)
  /-- `http.c` sets the descriptor and the protocol of a client. -/
  | change (a : Address) (t : ClientType) (fd : ℤ) (protocol : Option Http)

namespace TableUse

/-- Nothing is there. -/
def start : TableUse := ⟨.init, []⟩

/-- What is promised of a call: `calloc` finds room that is free and that no position
leads to, and a peer is added to a node that is still there. -/
def Allowed (s : TableUse) : TableCall → Prop
  | .add _ _ a => s.clients.heap a = none ∧ ∀ p ∈ s.positions, p.pos ≠ some a
  | .addPeer i _ => ∀ p ∈ s.positions[i]?, ∀ b ∈ p.pos, (s.clients.heap b).isSome
  | _ => True

instance (s : TableUse) : (c : TableCall) → Decidable (s.Allowed c)
  | .add _ _ a => inferInstanceAs (Decidable (s.clients.heap a = none ∧ ∀ p ∈ s.positions, p.pos ≠ some a))
  | .addPeer i _ => inferInstanceAs (Decidable (∀ p ∈ s.positions[i]?, ∀ b ∈ p.pos, (s.clients.heap b).isSome))
  | .search _ | .del _ | .forget _ | .change .. => isTrue trivial

end TableUse

/-- The client of one side with the descriptor and the protocol set, if it is there. -/
def Clients.change (s : Clients) (a : Address) (t : ClientType) (fd : ℤ)
    (protocol : Option Http) : Clients :=
  match s.heap a with
  | none => s
  | some n =>
      let set (c : ClientInfo) : ClientInfo := { c with fd := fd, protocol := protocol }
      match t with
      | .requester => s.store a (some { n with requester := n.requester.map set })
      | .victim => s.store a (some { n with victim := n.victim.map set })

namespace TableUse

/-- One call. -/
def step (fuel : ℕ) (s : TableUse) : TableCall → Except TableFault TableUse
  | .add t fd a => do
      let (clients, _) ← s.clients.add t fd a
      pure { s with clients := clients }
  | .search fd => do
      let (p, _) ← s.clients.search fuel fd
      pure { s with positions := s.positions ++ [p] }
  | .addPeer i fd =>
      match s.positions[i]? with
      | none => pure s
      | some p => do
          let (clients, _) ← s.clients.addPeer p fd
          pure { s with clients := clients }
  | .del i =>
      match s.positions[i]? with
      | none => pure s
      | some p => do
          let (clients, p, _) ← s.clients.del fuel p
          pure ⟨clients, s.positions.set i p⟩
  | .forget i => pure { s with positions := s.positions.eraseIdx i }
  | .change a t fd protocol => pure { s with clients := s.clients.change a t fd protocol }

/-- Calls one after the other. -/
def run (fuel : ℕ) (s : TableUse) (calls : List TableCall) : Except TableFault TableUse :=
  calls.foldlM (step fuel) s

/-- All calls of a run are made as promised. -/
def AllowedRun (fuel : ℕ) : TableUse → List TableCall → Prop
  | _, [] => True
  | s, c :: cs => s.Allowed c ∧ OnOk (fun s' => AllowedRun fuel s' cs) (s.step fuel c)

instance decidableAllowedRun (fuel : ℕ) : (cs : List TableCall) → (s : TableUse) →
    Decidable (AllowedRun fuel s cs)
  | [], _ => isTrue trivial
  | c :: cs, s =>
      have := decidableAllowedRun fuel cs
      inferInstanceAs (Decidable (s.Allowed c ∧ OnOk (fun s' => AllowedRun fuel s' cs) (s.step fuel c)))

end TableUse

/-! ## What a well-formed table is -/

namespace Clients

/-- A node that the links lead to from the one that the table points to. -/
def Reachable (s : Clients) (a : Address) : Prop :=
  ∃ c, s.cci = some c ∧ Relation.ReflTransGen (fun x y => s.next x = some y) c a

/-- The client of one side of a node has this descriptor. -/
def HasFd (s : Clients) (a : Address) (t : ClientType) (fd : ℤ) : Prop :=
  ∃ n, s.heap a = some n ∧ ∃ c, n.client t = some c ∧ c.fd = fd

/-- A well-formed ring, on which `clients_search` finds what is there. -/
structure WellFormed (fuel : ℕ) (s : Clients) : Prop where
  prev_next : ∀ a, s.Reachable a → ∃ b, s.next a = some b ∧ s.prev b = some a
  next_prev : ∀ a, s.Reachable a → ∃ b, s.prev a = some b ∧ s.next b = some a
  cycle : ∀ a b, s.Reachable a → s.Reachable b →
    Relation.ReflTransGen (fun x y => s.next x = some y) a b
  empty : s.cci = none ↔ s.qty = 0
  quantity : ∃ nodes : List Address, nodes.Nodup ∧ (∀ a, a ∈ nodes ↔ s.Reachable a) ∧
    s.qty = nodes.length
  client : ∀ a, s.Reachable a → ∃ n, s.heap a = some n ∧ (n.requester.isSome ∨ n.victim.isSome)
  search : ∀ fd, 0 ≤ fd → ∃ p ret, s.search fuel fd = .ok (p, ret) ∧
    ((ret = 0 ∧ ∃ a t, p = ⟨true, some t, some a⟩ ∧ s.Reachable a ∧ s.HasFd a t fd) ∨
      (ret = 1 ∧ ¬ ∃ a t, s.Reachable a ∧ s.HasFd a t fd))

section WellFormed
variable {s : Clients} {xs : List Address}

theorem Table.reachable_iff (T : Table s xs) {a : Address} : s.Reachable a ↔ a ∈ xs := by
  cases xs with
  | nil =>
      have hnil : s.cci = none := T.cci
      simp [Reachable, hnil]
  | cons x xs =>
      have hcons : s.cci = some x := T.cci
      rw [← T.ring.reaches_iff]
      simp [Reachable, hcons]

/-- What a node shows to `clients_search` is a client of it. -/
theorem shown_eq_some {fd : ℤ} {a : Address} {p : ClientPosition}
    (h : s.shown fd a = some p) : ∃ t, p = ⟨true, some t, some a⟩ ∧ s.HasFd a t fd := by
  obtain ⟨c, hc, h⟩ := Option.bind_eq_some_iff.mp h
  obtain ⟨n, hn, rfl⟩ := Option.map_eq_some_iff.mp hc
  dsimp only at h
  split_ifs at h with hr hv
  · obtain ⟨c, hc, hfd⟩ := (Option.any_eq_true ..).mp hr
    exact ⟨.requester, (Option.some.inj h).symm, n, hn, c, hc, by simpa using hfd⟩
  · obtain ⟨c, hc, hfd⟩ := (Option.any_eq_true ..).mp hv
    exact ⟨.victim, (Option.some.inj h).symm, n, hn, c, hc, by simpa using hfd⟩

theorem shown_eq_none {fd : ℤ} {a : Address} (h : s.shown fd a = none) (t : ClientType) :
    ¬ s.HasFd a t fd := by
  rintro ⟨n, hn, c, hc, rfl⟩
  rw [shown, both, hn, Option.map_some, Option.bind_some] at h
  split_ifs at h with hr hv
  cases t with
  | requester => exact hr ((Option.any_eq_true ..).mpr ⟨c, hc, by simp⟩)
  | victim => exact hv ((Option.any_eq_true ..).mpr ⟨c, hc, by simp⟩)

/-- **A table is well formed**, seen along its pointers. -/
theorem Table.wellFormed (T : Table s xs) {fuel : ℕ} (hfuel : xs.length ≤ fuel) :
    s.WellFormed fuel where
  prev_next a ha := by
    obtain ⟨n, -, -, -, hlink, -⟩ := T.ring.neighbours (T.reachable_iff.mp ha)
    exact ⟨n, hlink⟩
  next_prev a ha := by
    obtain ⟨-, -, p, -, -, hlink⟩ := T.ring.neighbours (T.reachable_iff.mp ha)
    exact ⟨p, hlink.2, hlink.1⟩
  cycle a b ha hb := T.ring.reaches (T.reachable_iff.mp ha) (T.reachable_iff.mp hb)
  empty := by
    rw [T.cci, T.qty, List.head?_eq_none_iff, Int.natCast_eq_zero, List.length_eq_zero_iff]
  quantity := ⟨xs, T.ring.nodup, fun _ => T.reachable_iff.symm, T.qty⟩
  client a ha := by
    obtain ⟨n, hn⟩ := Option.isSome_iff_exists.mp ((T.isSome_heap a).mpr (T.reachable_iff.mp ha))
    exact ⟨n, hn, T.client a _ _ (by rw [both, hn, Option.map_some])⟩
  search fd _ := by
    obtain ⟨p, ret, hok, ⟨hret, a, ha, hshown⟩ | ⟨hret, -, hnone⟩⟩ := T.search hfuel fd
    · obtain ⟨t, hp, hfd⟩ := shown_eq_some hshown
      exact ⟨p, ret, hok, .inl ⟨hret, a, t, hp, T.reachable_iff.mpr ha, hfd⟩⟩
    · refine ⟨p, ret, hok, .inr ⟨hret, ?_⟩⟩
      rintro ⟨a, t, ha, hfd⟩
      exact shown_eq_none (hnone a (T.reachable_iff.mp ha)) t hfd

end WellFormed

end Clients

/-! ## What every call keeps -/

namespace TableUse

/-- The nodes are `xs`, and a position of a requester whose node is still there leads to one. -/
structure Sane (s : TableUse) (xs : List Address) : Prop where
  table : Table s.clients xs
  requester : ∀ p ∈ s.positions, p.type = some .requester → ∀ a, p.pos = some a →
    ∀ r v, s.clients.both a = some (r, v) → r.isSome

section Sane
variable {s : TableUse} {xs : List Address} {fuel : ℕ}

private theorem Sane.shrinks (S : Sane s xs) {c : Clients} (h : Shrinks s.clients c) :
    ∀ p ∈ s.positions, p.type = some .requester → ∀ a, p.pos = some a →
      ∀ r v, c.both a = some (r, v) → r.isSome := by
  intro p hp htype a hpos r v hboth
  obtain ⟨r₀, v₀, hboth₀, hkeep⟩ := h a r v hboth
  exact hkeep (S.requester p hp htype a hpos r₀ v₀ hboth₀)

theorem change_keeps {c : Clients} (T : Table c xs) (a : Address) (t : ClientType)
    (fd : ℤ) (protocol : Option Http) :
    Table (c.change a t fd protocol) xs ∧ Shrinks c (c.change a t fd protocol) := by
  rw [Clients.change]
  cases hn : c.heap a with
  | none => exact ⟨T, Shrinks.refl c⟩
  | some n =>
      have hclient := T.client a n.requester n.victim (by rw [both, hn, Option.map_some])
      cases t with
      | requester => exact T.store hn rfl rfl (by simpa using hclient) (by simp)
      | victim => exact T.store hn rfl rfl (by simpa using hclient) id

/-- **Every call keeps the table a table**, with at most one node more. -/
theorem Sane.step (S : Sane s xs) (hfuel : xs.length ≤ fuel) (call : TableCall)
    (hallowed : s.Allowed call) :
    ∃ s' xs', s.step fuel call = .ok s' ∧ Sane s' xs' ∧ xs'.length ≤ xs.length + 1 := by
  cases call with
  | add t fd a =>
      obtain ⟨c, hadd, T, hframe⟩ := S.table.add hallowed.1 t fd
      refine ⟨⟨c, s.positions⟩, a :: xs, ?_, ⟨T, ?_⟩, by simp⟩
      · rw [TableUse.step, hadd]
        rfl
      · intro p hp htype b hpos r v hboth
        rw [hframe b fun h => hallowed.2 p hp (h ▸ hpos)] at hboth
        exact S.requester p hp htype b hpos r v hboth
  | search fd =>
      obtain ⟨p, ret, hok, hfound⟩ := S.table.search hfuel fd
      refine ⟨⟨s.clients, s.positions ++ [p]⟩, xs, ?_, ⟨S.table, ?_⟩, Nat.le_succ _⟩
      · rw [TableUse.step, hok]
        rfl
      · intro q hq htype b hpos r v hboth
        rcases List.mem_append.mp hq with hq | hq
        · exact S.requester q hq htype b hpos r v hboth
        · obtain rfl := List.mem_singleton.mp hq
          rcases hfound with ⟨-, a, -, hshown⟩ | ⟨-, rfl, -⟩
          · obtain ⟨t, rfl, n, hn, c, hc, -⟩ := shown_eq_some hshown
            obtain rfl : t = .requester := Option.some.inj htype
            obtain rfl : a = b := Option.some.inj hpos
            rw [both, hn] at hboth
            obtain ⟨rfl, -⟩ := Prod.mk.inj (Option.some.inj hboth)
            exact Option.isSome_of_eq_some hc
          · cases htype
  | addPeer i fd =>
      rw [TableUse.step]
      cases hp : s.positions[i]? with
      | none => exact ⟨s, xs, rfl, S, Nat.le_succ _⟩
      | some p =>
          obtain ⟨c, ret, hadd, T, hshrinks⟩ := S.table.addPeer p fd
            fun b hb => (S.table.isSome_heap b).mp (hallowed p hp b hb)
          refine ⟨⟨c, s.positions⟩, xs, ?_, ⟨T, S.shrinks hshrinks⟩, Nat.le_succ _⟩
          dsimp only
          rw [hadd]
          rfl
  | del i =>
      rw [TableUse.step]
      cases hp : s.positions[i]? with
      | none => exact ⟨s, xs, rfl, S, Nat.le_succ _⟩
      | some p =>
          have hmem := List.mem_of_getElem? hp
          obtain ⟨c, p', ret, xs', hdel, T, hlen, hp', hshrinks, -⟩ := S.table.del hfuel p
            fun b _ hpos htype => S.requester p hmem htype b hpos
          refine ⟨⟨c, s.positions.set i p'⟩, xs', ?_, ⟨T, ?_⟩, by omega⟩
          · dsimp only
            rw [hdel]
            rfl
          · intro q hq
            rcases List.mem_or_eq_of_mem_set hq with hq | rfl
            · exact S.shrinks hshrinks q hq
            · rcases hp' with rfl | rfl
              · exact S.shrinks hshrinks q hmem
              · intro htype
                cases htype
  | forget i =>
      refine ⟨_, xs, rfl, ⟨S.table, ?_⟩, Nat.le_succ _⟩
      intro p hp
      exact S.requester p (List.mem_of_mem_eraseIdx hp)
  | change a t fd protocol =>
      obtain ⟨T, hshrinks⟩ := change_keeps S.table a t fd protocol
      exact ⟨_, xs, rfl, ⟨T, S.shrinks hshrinks⟩, Nat.le_succ _⟩

end Sane

/-- What one call keeps a run of calls keeps. -/
private theorem Sane.run {s : TableUse} {xs : List Address} {fuel : ℕ} (S : Sane s xs)
    (calls : List TableCall) (hfuel : xs.length + calls.length ≤ fuel)
    (hallowed : AllowedRun fuel s calls) :
    ∃ s' xs', s.run fuel calls = .ok s' ∧ Sane s' xs' ∧ xs'.length ≤ fuel := by
  induction calls generalizing s xs with
  | nil => exact ⟨s, xs, rfl, S, by simpa using hfuel⟩
  | cons call calls ih =>
      rw [List.length_cons] at hfuel
      have hxs : xs.length ≤ fuel := by omega
      obtain ⟨s₁, xs₁, hstep, S₁, hlen⟩ := S.step hxs call hallowed.1
      have hfuel₁ : xs₁.length + calls.length ≤ fuel := by omega
      obtain ⟨s', xs', hrun, S', hlen'⟩ := ih S₁ hfuel₁ (hallowed.2 s₁ hstep)
      refine ⟨s', xs', ?_, S', hlen'⟩
      rw [TableUse.run, List.foldlM_cons, hstep, bind_ok]
      exact hrun

end TableUse

/-- **The client table is always a well-formed ring.** Whatever calls are made, as promised,
each of them comes to an end and follows no bad pointer, and the table they leave is a
well-formed ring. -/
theorem wellFormed_of_calls (fuel : ℕ) (calls : List TableCall) (hfuel : calls.length ≤ fuel)
    (hallowed : TableUse.AllowedRun fuel .start calls) :
    ∃ s, TableUse.start.run fuel calls = .ok s ∧ s.clients.WellFormed fuel := by
  have hstart : TableUse.start.Sane [] := ⟨table_init, by simp [TableUse.start]⟩
  obtain ⟨s, xs, hrun, S, hlen⟩ := hstart.run calls (by simpa using hfuel) hallowed
  exact ⟨s, hrun, S.table.wellFormed hlen⟩

/-- A requester gets a victim, another requester comes, the victim is closed, and the first
requester goes, twice. -/
theorem wellFormed_of_calls_two :
    ∃ s, TableUse.start.run 9 [.add (some .requester) 5 100, .search 5, .addPeer 0 6, .search 6,
        .add (some .requester) 7 200, .del 1, .search 7, .del 0, .del 0] = .ok s ∧
      s.clients.WellFormed 9 :=
  wellFormed_of_calls 9 _ (by decide) (by decide)

end RenaProxy
