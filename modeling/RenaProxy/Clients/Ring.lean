import RenaProxy.Clients

/-!
# The ring of the client table

`Table` says which nodes a client table has and in what order, and every operation of
`clients.c` has its lemma about it: it comes to an end, follows no bad pointer, and leaves
a table behind.
-/
namespace RenaProxy
open Failure LinkedRing

namespace Clients

/-- The next node. -/
def next (s : Clients) (a : Address) : Option Address := (s.heap a).bind (·.next)

/-- The previous node. -/
def prev (s : Clients) (a : Address) : Option Address := (s.heap a).bind (·.prev)

/-- The clients of a node. -/
def both (s : Clients) (a : Address) : Option (Option ClientInfo × Option ClientInfo) :=
  (s.heap a).map fun n => (n.requester, n.victim)

/-- The nodes are `xs`, the newest first, and they form a ring. -/
structure Shape (s : Clients) (xs : List Address) : Prop where
  cci : s.cci = xs.head?
  qty : s.qty = xs.length
  ring : Ring s.next s.prev xs
  isSome_heap : ∀ a, (s.heap a).isSome ↔ a ∈ xs

/-- The same, and no node is without clients. -/
structure Table (s : Clients) (xs : List Address) : Prop extends Shape s xs where
  client : ∀ a r v, s.both a = some (r, v) → r.isSome ∨ v.isSome

section Memory
variable {s : Clients} {a b : Address} {n : CircleClientInfo} {m : Option CircleClientInfo}

@[simp] theorem heap_store : (s.store a m).heap b = if b = a then m else s.heap b :=
  Function.update_apply ..

@[simp] theorem cci_store : (s.store a m).cci = s.cci := rfl

@[simp] theorem qty_store : (s.store a m).qty = s.qty := rfl

theorem deref_eq (h : s.heap a = some n) : s.deref (some a) = .ok n := by
  rw [deref, Option.bind_some, h]

theorem modify_eq (h : s.heap a = some n) (f : CircleClientInfo → CircleClientInfo) :
    s.modify (some a) f = .ok (s.store a (some (f n))) := by
  rw [modify, deref_eq h, bind_ok]
  rfl

theorem table_init : Table init [] where
  cci := rfl
  qty := rfl
  ring := ring_nil
  isSome_heap := by simp [init]
  client := by simp [both, init]

end Memory

section Operations
variable {s : Clients} {xs : List Address} {a : Address}

private theorem exists_of_next {b : Address} (h : s.next a = some b) :
    ∃ n, s.heap a = some n ∧ n.next = some b := Option.bind_eq_some_iff.mp h

private theorem exists_of_prev {b : Address} (h : s.prev a = some b) :
    ∃ n, s.heap a = some n ∧ n.prev = some b := Option.bind_eq_some_iff.mp h

/-- The node that `clients_add` makes. -/
private def fresh (t : Option ClientType) (fd : ℤ) : CircleClientInfo :=
  if t = some .requester then ⟨none, none, some (clientsAddCi fd), none⟩
  else ⟨none, none, none, some (clientsAddCi fd)⟩

private theorem add_eq (t : Option ClientType) (fd : ℤ) :
    s.add t fd a = (do
      let s ← if s.cci ≠ none then do
          let s₁ ← (s.store a (some (fresh t fd))).modify (some a) fun n => { n with next := s.cci }
          let head ← s₁.deref s₁.cci
          let s₂ ← s₁.modify (some a) fun n => { n with prev := head.prev }
          let s₃ ← s₂.modify head.prev fun n => { n with next := some a }
          let s₄ ← s₃.modify s₃.cci fun n => { n with prev := some a }
          pure { s₄ with cci := some a }
        else do
          let s₁ ← (s.store a (some (fresh t fd))).modify (some a) fun n => { n with next := some a }
          let s₂ ← s₁.modify (some a) fun n => { n with prev := some a }
          pure { s₂ with cci := some a }
      pure ({ s with qty := s.qty + 1 }, 0)) := rfl

private theorem add_nil (h : s.cci = none) (t : Option ClientType) (fd : ℤ) :
    s.add t fd a = .ok ({ s.store a (some { fresh t fd with next := some a, prev := some a }) with
      cci := some a, qty := s.qty + 1 }, 0) := by
  rw [add_eq, h, if_neg (by simp), modify_eq (n := fresh t fd) (by simp), bind_ok,
    modify_eq (n := { fresh t fd with next := some a }) (by simp), bind_ok]
  simp [store, bind, Except.bind, pure, Except.pure]

private theorem add_cons {x p : Address} {nx np : CircleClientInfo} (h : s.cci = some x)
    (hx : s.heap x = some nx) (hp : nx.prev = some p) (hnp : s.heap p = some np)
    (hxa : x ≠ a) (hpa : p ≠ a) (t : Option ClientType) (fd : ℤ) :
    s.add t fd a = .ok ({ ((s.store a (some { fresh t fd with next := some x, prev := some p })).store p
        (some { np with next := some a })).store x
        (some { (if x = p then { np with next := some a } else nx) with prev := some a }) with
      cci := some a, qty := s.qty + 1 }, 0) := by
  have hmid : (if x = p then some { np with next := some a } else s.heap x) =
      some (if x = p then { np with next := some a } else nx) := by
    split_ifs
    · rfl
    · exact hx
  rw [add_eq, h, if_pos (by simp), modify_eq (n := fresh t fd) (by simp), bind_ok, cci_store,
    cci_store, h, deref_eq (n := nx) (by simp [hxa, hx]), bind_ok,
    modify_eq (n := { fresh t fd with next := some x }) (by simp), bind_ok, hp,
    modify_eq (n := np) (by simp [hpa, hnp]), bind_ok, cci_store, cci_store, cci_store, cci_store, h,
    modify_eq (n := if x = p then { np with next := some a } else nx) (by simpa [hxa] using hmid)]
  simp [store, bind, Except.bind, pure, Except.pure]

private theorem isSome_fresh (t : Option ClientType) (fd : ℤ) :
    (fresh t fd).requester.isSome ∨ (fresh t fd).victim.isSome := by
  rw [fresh]
  split_ifs
  · exact .inl rfl
  · exact .inr rfl

/-- What `clients_add` leaves: the node of `a` is new, the clients of the others are the same. -/
private def Adds (s : Clients) (a : Address) (t : Option ClientType) (fd : ℤ) (s' : Clients) : Prop :=
  s'.both a = some ((fresh t fd).requester, (fresh t fd).victim) ∧ ∀ b, b ≠ a → s'.both b = s.both b

/-- The first node is a ring of its own. -/
private theorem Shape.add_first (S : Shape s []) (t : Option ClientType) (fd : ℤ) :
    ∃ s', s.add t fd a = .ok (s', 0) ∧ Shape s' [a] ∧ Adds s a t fd s' := by
  have hqty : s.qty + 1 = (([a] : List Address).length : ℤ) := by
    rw [S.qty, List.length_singleton, List.length_nil, Nat.cast_zero, Nat.cast_one, Int.zero_add]
  refine ⟨_, add_nil S.cci t fd, ?_⟩
  generalize hs' : ({ s.store a (some { fresh t fd with next := some a, prev := some a }) with
    cci := some a, qty := s.qty + 1 } : Clients) = s'
  have hheap : ∀ b, s'.heap b = if b = a then
      some { fresh t fd with next := some a, prev := some a } else s.heap b := by
    intro b
    rw [← hs']
    exact heap_store
  refine ⟨⟨by rw [← hs']; rfl, by rw [← hs']; exact hqty, ring_singleton ⟨?_, ?_⟩, ?_⟩, ?_, ?_⟩
  · rw [next, hheap, if_pos rfl, Option.bind_some]
  · rw [prev, hheap, if_pos rfl, Option.bind_some]
  · intro b
    rw [hheap, List.mem_cons, ← S.isSome_heap]
    split_ifs with hb <;> simp [hb]
  · rw [both, hheap, if_pos rfl, Option.map_some]
  · intro b hb
    rw [both, both, hheap, if_neg hb]

/-- Another node goes between the first one and the one before it. -/
private theorem Shape.add_before {x : Address} (S : Shape s (x :: xs)) (hnot : a ∉ x :: xs)
    (t : Option ClientType) (fd : ℤ) :
    ∃ s', s.add t fd a = .ok (s', 0) ∧ Shape s' (a :: x :: xs) ∧ Adds s a t fd s' := by
  have hqty : s.qty + 1 = ((a :: x :: xs).length : ℤ) := by
    rw [S.qty, List.length_cons (a := a), Nat.cast_succ]
  obtain ⟨-, -, p, hpmem, -, hlink⟩ := S.ring.neighbours List.mem_cons_self
  obtain ⟨nx, hx, hp⟩ := exists_of_prev hlink.2
  obtain ⟨np, hnp, -⟩ := exists_of_next hlink.1
  have hxa : x ≠ a := fun h => hnot (h ▸ List.mem_cons_self)
  have hpa : p ≠ a := fun h => hnot (h ▸ hpmem)
  refine ⟨_, add_cons S.cci hx hp hnp hxa hpa t fd, ?_⟩
  generalize hs' : ({ ((s.store a (some { fresh t fd with
      next := some x, prev := some p })).store p (some { np with next := some a })).store x
    (some { (if x = p then { np with next := some a } else nx) with prev := some a }) with
    cci := some a, qty := s.qty + 1 } : Clients) = s'
  have hheap : ∀ b, s'.heap b =
      if b = x then some { (if x = p then { np with next := some a } else nx) with prev := some a }
      else if b = p then some { np with next := some a }
      else if b = a then some { fresh t fd with next := some x, prev := some p }
      else s.heap b := by
    intro b
    rw [← hs']
    exact heap_store.trans (by rw [heap_store, heap_store])
  have hframe : ∀ b, b ≠ a → s'.both b = s.both b := by
    intro b hb
    rw [both, both, hheap]
    split_ifs with hbx hxp hbp
    · rw [hbx, hxp, hnp]
      rfl
    · rw [hbx, hx]
      rfl
    · rw [hbp, hnp]
      rfl
    · rfl
  have hself : s'.heap a = some { fresh t fd with next := some x, prev := some p } := by
    rw [hheap, if_neg (Ne.symm hxa), if_neg (Ne.symm hpa), if_pos rfl]
  refine ⟨⟨by rw [← hs']; rfl, by rw [← hs']; exact hqty, ?_, ?_⟩, ?_, hframe⟩
  · apply S.ring.insert hnot hlink.2
    · rw [next, hself, Option.bind_some]
    · rw [prev, hself, Option.bind_some]
    · rw [next, hheap]
      rcases eq_or_ne p x with rfl | hpx
      · rw [if_pos rfl, if_pos rfl]
        rfl
      · rw [if_neg hpx, if_pos rfl]
        rfl
    · rw [prev, hheap, if_pos rfl, Option.bind_some]
    · intro c hca hcp
      rw [next, next, hheap]
      split_ifs with hcx hxp
      · exact absurd (hcx.trans hxp) hcp
      · rw [hcx, hx]
        rfl
      · rfl
    · intro c hca hcx
      rw [prev, prev, hheap, if_neg hcx]
      split_ifs with hcp
      · rw [hcp, hnp]
        rfl
      · rfl
  · intro b
    rcases eq_or_ne b a with rfl | hb
    · simp [hself]
    · have hboth : (s'.heap b).isSome = (s.heap b).isSome := by
        simpa [both] using congrArg Option.isSome (hframe b hb)
      rw [hboth, S.isSome_heap]
      simp [hb]
  · rw [both, hself, Option.map_some]

/-- `clients_add` puts its node before the others and leaves their clients alone. -/
theorem Table.add (T : Table s xs) (ha : s.heap a = none) (t : Option ClientType) (fd : ℤ) :
    ∃ s', s.add t fd a = .ok (s', 0) ∧ Table s' (a :: xs) ∧ ∀ b, b ≠ a → s'.both b = s.both b := by
  have hnot : a ∉ xs := by
    rw [← T.isSome_heap, ha]
    exact Bool.false_ne_true
  obtain ⟨s', hadd, S, hself, hframe⟩ :
      ∃ s', s.add t fd a = .ok (s', 0) ∧ Shape s' (a :: xs) ∧ Adds s a t fd s' := by
    cases xs with
    | nil => exact T.toShape.add_first t fd
    | cons x xs => exact T.toShape.add_before hnot t fd
  refine ⟨s', hadd, ⟨S, fun b r v h => ?_⟩, hframe⟩
  rcases eq_or_ne b a with rfl | hb
  · rw [hself] at h
    obtain ⟨rfl, rfl⟩ := Prod.mk.inj (Option.some.inj h)
    exact isSome_fresh t fd
  · exact T.client b r v (hframe b hb ▸ h)

/-! ### Searching -/

private theorem follow_eq {b : Address} (h : s.next a = some b) : s.follow a = .ok b := by
  obtain ⟨n, hn, hb⟩ := exists_of_next h
  rw [follow, deref_eq hn, bind_ok, hb]
  rfl

theorem Table.searchPointerLocked_eq (T : Table s xs) {fuel : ℕ} (hfuel : xs.length ≤ fuel)
    (a : Address) : s.searchPointerLocked fuel (some a) = .ok (if a ∈ xs then 0 else 1) := by
  cases xs with
  | nil =>
      have hnil : s.cci = none := T.cci
      simp only [searchPointerLocked, hnil]
      rfl
  | cons x xs =>
      have hcons : s.cci = some x := T.cci
      have hfound : searchRing s.follow (fun aux => pure (if aux = a then some () else none))
          TableFault.endless x fuel x =
            .ok ((x :: xs).findSome? fun aux => if aux = a then some () else none) :=
        searchRing_eq TableFault.endless T.ring (fun c _ d h => follow_eq h) (fun c _ => rfl)
          (Nat.lt_of_succ_le hfuel)
      simp only [searchPointerLocked, hcons]
      rw [hfound, bind_ok]
      by_cases ha : a ∈ x :: xs
      · have hsome : ((x :: xs).findSome? fun aux => if aux = a then some () else none).isSome := by
          rw [List.findSome?_isSome_iff]
          exact ⟨a, ha, by simp⟩
        rw [if_pos ha, if_pos hsome]
        rfl
      · have hnone : ((x :: xs).findSome? fun aux => if aux = a then some () else none) = none := by
          rw [List.findSome?_eq_none_iff]
          intro c hc
          apply if_neg
          rintro rfl
          exact ha hc
        rw [if_neg ha, hnone]
        rfl

/-- What one node shows to `clients_search`. -/
def shown (s : Clients) (fd : ℤ) (aux : Address) : Option ClientPosition :=
  (s.both aux).bind fun c =>
    if c.1.any (·.fd = fd) then some ⟨true, some .requester, some aux⟩
    else if c.2.any (·.fd = fd) then some ⟨true, some .victim, some aux⟩
    else none

private theorem Table.search_eq (T : Table s xs) {fuel : ℕ} (hfuel : xs.length ≤ fuel) (fd : ℤ) :
    s.search fuel fd = .ok (match xs.findSome? (s.shown fd) with
      | some out => (out, 0)
      | none => (.zero, 1)) := by
  cases xs with
  | nil =>
      have hnil : s.cci = none := T.cci
      rw [search, hnil]
      rfl
  | cons x xs =>
      have hcons : s.cci = some x := T.cci
      have hlook : ∀ c ∈ x :: xs, s.searchLook fd c = .ok (s.shown fd c) := by
        intro c hc
        obtain ⟨n, hn⟩ := Option.isSome_iff_exists.mp ((T.isSome_heap c).mpr hc)
        rw [searchLook, deref_eq hn, bind_ok, shown, both, hn, Option.map_some, Option.bind_some]
        split_ifs <;> rfl
      have hfound : searchRing s.follow (s.searchLook fd) TableFault.endless x fuel x =
          .ok ((x :: xs).findSome? (s.shown fd)) :=
        searchRing_eq TableFault.endless T.ring (fun c _ d h => follow_eq h) hlook
          (Nat.lt_of_succ_le hfuel)
      rw [search, hcons]
      dsimp only
      rw [hfound, bind_ok]
      cases (x :: xs).findSome? (s.shown fd) <;> rfl

/-- `clients_search` comes to an end and hands out what the first node shows that shows
anything. -/
theorem Table.search (T : Table s xs) {fuel : ℕ} (hfuel : xs.length ≤ fuel) (fd : ℤ) :
    ∃ p ret, s.search fuel fd = .ok (p, ret) ∧
      ((ret = 0 ∧ ∃ a ∈ xs, s.shown fd a = some p) ∨
        (ret = 1 ∧ p = .zero ∧ ∀ a ∈ xs, s.shown fd a = none)) := by
  rw [T.search_eq hfuel]
  cases hfound : xs.findSome? (s.shown fd) with
  | some p => exact ⟨p, 0, rfl, .inl ⟨rfl, List.exists_of_findSome?_eq_some hfound⟩⟩
  | none => exact ⟨.zero, 1, rfl, .inr ⟨rfl, rfl, List.findSome?_eq_none_iff.mp hfound⟩⟩

/-! ### Deleting -/

private theorem store_self {n : CircleClientInfo} (h : s.heap a = some n) :
    s.store a (some n) = s := by
  rw [store, ← h, Function.update_eq_self]

private theorem store_store (m m' : Option CircleClientInfo) :
    (s.store a m).store a m' = s.store a m' := by
  rw [store, store, store, Function.update_idem]

/-- What is left of a victim. -/
private def victimLeft (n : CircleClientInfo) : Option ClientInfo :=
  n.victim.bind fun v =>
    clientInfoDestroy v (n.requester.isNone || (decide (v.fd < 0) && httpSentDone v.protocol))

/-- What `clients_del` does to the clients of a node: the requester takes the victim
along, the victim never the requester. -/
private theorem delClients_eq {p : ClientPosition} {t : ClientType} {n : CircleClientInfo}
    (hpos : p.pos = some a) (htype : p.type = some t) (hn : s.heap a = some n)
    (hreq : t = .requester → n.requester.isSome) :
    ∃ n', s.delClients p = .ok (s.store a (some n')) ∧ n'.next = n.next ∧ n'.prev = n.prev ∧
      (t = .requester → n'.requester = none ∧ n'.victim = none) ∧
      (t = .victim → n'.requester = n.requester ∧ n'.victim = victimLeft n) := by
  cases t with
  | requester =>
      obtain ⟨r, hr⟩ := Option.isSome_iff_exists.mp (hreq rfl)
      refine ⟨{ n with requester := none, victim := none }, ?_, rfl, rfl, fun _ => ⟨rfl, rfl⟩, nofun⟩
      rw [delClients, htype, hpos, if_pos rfl, deref_eq hn, bind_ok, hr]
      dsimp only
      rw [modify_eq hn, bind_ok, deref_eq (n := { n with requester := none }) (by simp; rfl), bind_ok,
        if_pos (.inr rfl)]
      cases hv : n.victim with
      | none =>
          simp only [clientInfoDestroy, if_true, ← hv]
          rfl
      | some v =>
          simp only
          rw [modify_eq (n := { n with requester := none }) (by simp [clientInfoDestroy, hv]),
            store_store]
          rfl
  | victim =>
      rw [delClients, htype, hpos, if_neg (by decide), pure_bind]
      dsimp only
      rw [deref_eq hn, bind_ok, if_pos (.inl rfl)]
      cases hv : n.victim with
      | none =>
          refine ⟨n, by rw [store_self hn]; rfl, rfl, rfl, nofun, fun _ => ⟨rfl, ?_⟩⟩
          rw [victimLeft, hv, Option.bind_none]
      | some v =>
          refine ⟨_, modify_eq hn _, rfl, rfl, nofun, fun _ => ⟨rfl, ?_⟩⟩
          rw [victimLeft, hv, Option.bind_some]

/-- Writing a `prev` field leaves everything else. -/
private theorem modify_prev {n : CircleClientInfo} (h : s.heap a = some n) (q : Option Address) :
    ∃ s', s.modify (some a) (fun n => { n with prev := q }) = .ok s' ∧ s'.cci = s.cci ∧
      s'.qty = s.qty ∧ (∀ b, (s'.heap b).isSome = (s.heap b).isSome) ∧
      (∀ b, s'.next b = s.next b) ∧ (∀ b, s'.both b = s.both b) ∧
      ∀ b, s'.prev b = if b = a then q else s.prev b := by
  refine ⟨_, modify_eq h _, rfl, rfl, ?_, ?_, ?_, ?_⟩ <;> intro b <;>
    simp only [next, prev, both, heap_store] <;> split_ifs with hb <;> simp [hb, h]

/-- Writing a `next` field leaves everything else. -/
private theorem modify_next {n : CircleClientInfo} (h : s.heap a = some n) (q : Option Address) :
    ∃ s', s.modify (some a) (fun n => { n with next := q }) = .ok s' ∧ s'.cci = s.cci ∧
      s'.qty = s.qty ∧ (∀ b, (s'.heap b).isSome = (s.heap b).isSome) ∧
      (∀ b, s'.prev b = s.prev b) ∧ (∀ b, s'.both b = s.both b) ∧
      ∀ b, s'.next b = if b = a then q else s.next b := by
  refine ⟨_, modify_eq h _, rfl, rfl, ?_, ?_, ?_, ?_⟩ <;> intro b <;>
    simp only [next, prev, both, heap_store] <;> split_ifs with hb <;> simp [hb, h]

/-- The head stays unless its node goes, and then the next one is the new head, if there is
another. -/
private theorem Shape.cci_erase (S : Shape s xs) {m : Address} (hnext : s.next a = some m) :
    (if s.cci = some a then if some a ≠ some m then some m else none else s.cci) =
      (xs.erase a).head? := by
  cases xs with
  | nil => simp [S.cci]
  | cons x ys =>
      have hcons : s.cci = some x := S.cci
      rcases eq_or_ne x a with rfl | hne
      · have hm := S.ring.next_head
        rw [hnext] at hm
        rw [hcons, if_pos rfl, List.erase_cons_head]
        cases ys with
        | nil =>
            obtain rfl : m = x := by simpa using hm
            rw [if_neg (not_not.mpr rfl)]
            rfl
        | cons y ys =>
            obtain rfl : m = y := by simpa using hm
            have hne : some x ≠ some m := by
              intro h
              have := (List.nodup_cons.mp S.ring.nodup).1
              exact this (Option.some.inj h ▸ List.mem_cons_self)
            rw [if_pos hne]
            rfl
      · rw [hcons, if_neg (by simpa using hne), List.erase_cons_tail (by simpa using hne)]
        rfl

/-- When the nodes around one point to each other, and it is gone, the others are a ring. -/
private theorem Shape.freed (S : Shape s xs) (ha : a ∈ xs) {m q : Address} {s₂ s' : Clients}
    (hnext : s.next a = some m) (hprev : s.prev a = some q)
    (hnext₂ : ∀ b, s₂.next b = if b = q then some m else s.next b)
    (hprev₂ : ∀ b, s₂.prev b = if b = m then some q else s.prev b)
    (hsome₂ : ∀ b, (s₂.heap b).isSome = (s.heap b).isSome)
    (hheap : ∀ b, s'.heap b = if b = a then none else s₂.heap b)
    (hcci : s'.cci = if s.cci = some a then if some a ≠ some m then some m else none else s.cci)
    (hqty : s'.qty = s.qty - 1) : Shape s' (xs.erase a) := by
  have hlinks : ∀ b, b ≠ a → s'.next b = s₂.next b ∧ s'.prev b = s₂.prev b := by
    intro b hb
    constructor
    · rw [next, next, hheap, if_neg hb]
    · rw [prev, prev, hheap, if_neg hb]
  refine ⟨hcci.trans (S.cci_erase hnext), ?_, ?_, ?_⟩
  · have hpos := List.length_pos_of_mem ha
    rw [hqty, S.qty, List.length_erase_of_mem ha]
    omega
  · apply S.ring.remove ha hnext hprev
    · intro h
      rw [(hlinks m h).2, hprev₂, if_pos rfl]
    · intro h
      rw [(hlinks q h).1, hnext₂, if_pos rfl]
    · intro b hb hbq
      rw [(hlinks b hb).1, hnext₂, if_neg hbq]
    · intro b hb hbm
      rw [(hlinks b hb).2, hprev₂, if_neg hbm]
  · intro b
    rw [hheap, S.ring.nodup.mem_erase_iff]
    split_ifs with hb
    · simp [hb]
    · rw [hsome₂, S.isSome_heap]
      simp [hb]

/-- A node without clients is taken off the ring and freed. -/
private theorem Shape.unlink (S : Shape s xs) (ha : a ∈ xs) {p : ClientPosition}
    (hpos : p.pos = some a) :
    ∃ s', s.unlink p = .ok (s', .zero) ∧ Shape s' (xs.erase a) ∧
      ∀ b, s'.both b = if b = a then none else s.both b := by
  obtain ⟨m, hm, q, hq, hlinkm, hlinkq⟩ := S.ring.neighbours ha
  obtain ⟨n, hn⟩ := Option.isSome_iff_exists.mp ((S.isSome_heap a).mpr ha)
  obtain ⟨nm, hnm⟩ := Option.isSome_iff_exists.mp ((S.isSome_heap m).mpr hm)
  have hnext : n.next = some m := by simpa [next, hn] using hlinkm.1
  have hprev : n.prev = some q := by simpa [prev, hn] using hlinkq.2
  obtain ⟨s₁, hs₁, hcci₁, hqty₁, hsome₁, hnext₁, hboth₁, hprev₁⟩ := modify_prev hnm (some q)
  obtain ⟨n₁, hn₁⟩ : ∃ n₁, s₁.heap a = some n₁ :=
    Option.isSome_iff_exists.mp (by rw [hsome₁, hn]; rfl)
  have hnext₁' : n₁.next = some m := by simpa [next, hn₁, hn, hnext] using hnext₁ a
  have hprev₁' : n₁.prev = some q := by simpa [prev, hn₁, hn, hprev] using hprev₁ a
  obtain ⟨nq, hnq⟩ : ∃ nq, s₁.heap q = some nq :=
    Option.isSome_iff_exists.mp (by rw [hsome₁]; exact (S.isSome_heap q).mpr hq)
  obtain ⟨s₂, hs₂, hcci₂, hqty₂, hsome₂, hprev₂, hboth₂, hnext₂⟩ := modify_next hnq (some m)
  obtain ⟨n₂, hn₂⟩ : ∃ n₂, s₂.heap a = some n₂ :=
    Option.isSome_iff_exists.mp (by rw [hsome₂, hn₁]; rfl)
  have hnext₂' : n₂.next = some m := by
    have := hnext₂ a
    rw [hnext₁, next, hn₂, Option.bind_some, hlinkm.1, ite_self] at this
    exact this
  refine ⟨⟨(s₂.store a none).heap,
    if s.cci = some a then if some a ≠ some m then some m else none else s.cci, s.qty - 1⟩,
    ?_, ?_, ?_⟩
  · rw [Clients.unlink, hpos, deref_eq hn, bind_ok, hnext, hprev, hs₁, bind_ok, deref_eq hn₁, bind_ok,
      hprev₁', hnext₁', hs₂, bind_ok, deref_eq hn₂, bind_ok, hnext₂']
    dsimp only
    rw [hcci₂, hcci₁]
    by_cases hfirst : s.cci = some a
    · rw [if_pos hfirst, if_pos hfirst, ← hqty₁, ← hqty₂]
      rfl
    · rw [if_neg hfirst, if_neg hfirst, ← hqty₁, ← hqty₂, cci_store, hcci₂, hcci₁]
      rfl
  · refine S.freed ha hlinkm.1 hlinkq.2 ?_ ?_ ?_ (fun b => heap_store) rfl rfl
    · intro b
      rw [hnext₂, hnext₁]
    · intro b
      rw [hprev₂, hprev₁]
    · intro b
      rw [hsome₂, hsome₁]
  · intro b
    rw [both, heap_store]
    split_ifs with hb
    · rfl
    · rw [← hboth₁, ← hboth₂]
      rfl

/-- Writing the clients of a node keeps the ring. -/
private theorem Shape.store (S : Shape s xs) {n n' : CircleClientInfo} (hn : s.heap a = some n)
    (hnext : n'.next = n.next) (hprev : n'.prev = n.prev) : Shape (s.store a (some n')) xs := by
  have hlinks : (s.store a (some n')).next = s.next ∧ (s.store a (some n')).prev = s.prev := by
    constructor <;> funext b
    · rw [next, next, heap_store]
      split_ifs with hb
      · rw [hb, hn, Option.bind_some, Option.bind_some, hnext]
      · rfl
    · rw [prev, prev, heap_store]
      split_ifs with hb
      · rw [hb, hn, Option.bind_some, Option.bind_some, hprev]
      · rfl
  refine ⟨S.cci, S.qty, ?_, ?_⟩
  · rw [hlinks.1, hlinks.2]
    exact S.ring
  · intro b
    rw [heap_store, ← S.isSome_heap]
    split_ifs with hb
    · simp [hb, hn]
    · rfl

private theorem both_store {n' : CircleClientInfo} (b : Address) :
    (s.store a (some n')).both b = if b = a then some (n'.requester, n'.victim) else s.both b := by
  rw [both, heap_store]
  split_ifs with hb
  · rfl
  · rfl

/-- No node is new, and none has lost its requester. -/
def Shrinks (s s' : Clients) : Prop :=
  ∀ b r' v', s'.both b = some (r', v') → ∃ r v, s.both b = some (r, v) ∧ (r.isSome → r'.isSome)

theorem Shrinks.refl (s : Clients) : Shrinks s s := fun _ r v h => ⟨r, v, h, id⟩

/-- Writing the clients of a node keeps a table, if some client is left and the requester
stays. -/
theorem Table.store (T : Table s xs) {n n' : CircleClientInfo} (hn : s.heap a = some n)
    (hnext : n'.next = n.next) (hprev : n'.prev = n.prev)
    (hsome : n'.requester.isSome ∨ n'.victim.isSome)
    (hkeep : n.requester.isSome → n'.requester.isSome) :
    Table (s.store a (some n')) xs ∧ Shrinks s (s.store a (some n')) := by
  refine ⟨⟨T.toShape.store hn hnext hprev, ?_⟩, ?_⟩
  · intro b r v hb
    rw [both_store] at hb
    split_ifs at hb
    · obtain ⟨rfl, rfl⟩ := Prod.mk.inj (Option.some.inj hb)
      exact hsome
    · exact T.client b r v hb
  · intro b r' v' hb
    rw [both_store] at hb
    split_ifs at hb with hba
    · obtain ⟨rfl, rfl⟩ := Prod.mk.inj (Option.some.inj hb)
      refine ⟨n.requester, n.victim, ?_, hkeep⟩
      rw [hba, both, hn, Option.map_some]
    · exact ⟨r', v', hb, id⟩

private theorem del_skip {fuel : ℕ} {p : ClientPosition}
    (h : p.info = false ∨ p.pos = none ∨ p.type = none) : s.del fuel p = .ok (s, p, -1) := if_pos h

private theorem Table.del_erased (T : Table s xs) {fuel : ℕ} (hfuel : xs.length ≤ fuel)
    {p : ClientPosition} (h : ¬ (p.info = false ∨ p.pos = none ∨ p.type = none))
    (hpos : p.pos = some a) (ha : a ∉ xs) : s.del fuel p = .ok (s, p, 1) := by
  rw [Clients.del, if_neg h, hpos, T.searchPointerLocked_eq hfuel, bind_ok, if_neg ha]
  rfl

private theorem Table.del_live (T : Table s xs) {fuel : ℕ} (hfuel : xs.length ≤ fuel)
    {p : ClientPosition} (h : ¬ (p.info = false ∨ p.pos = none ∨ p.type = none))
    (hpos : p.pos = some a) (ha : a ∈ xs) {s₁ : Clients} {n : CircleClientInfo}
    (hdel : s.delClients p = .ok s₁) (hn : s₁.heap a = some n) :
    s.del fuel p = (do
      let r ← if n.requester = none ∧ n.victim = none then s₁.unlink p else pure (s₁, p)
      if r.1.qty < 0 then .error .negativeQuantity else pure (r.1, r.2, 0)) := by
  rw [Clients.del, if_neg h, hpos, T.searchPointerLocked_eq hfuel, bind_ok, if_pos ha, if_pos rfl, hdel,
    bind_ok, deref_eq hn, bind_ok]

/-- What `clients_del` returns and what it leaves, at a position that it skips, at one whose node is
gone, at one whose node goes, and at one whose node stays. -/
inductive Deletes (s : Clients) (p : ClientPosition) : Clients → ClientPosition → ℤ → Prop
  | skipped (h : p.info = false ∨ p.pos = none ∨ p.type = none) : Deletes s p s p (-1)
  | erased {a : Address} (hpos : p.pos = some a) (hn : s.heap a = none) : Deletes s p s p 1
  | unlinked {a : Address} {n : CircleClientInfo} {s' : Clients} (hpos : p.pos = some a)
      (hn : s.heap a = some n) (h : p.type = some .requester ∨ n.requester = none) :
      Deletes s p s' .zero 0
  | kept {a : Address} {n n' : CircleClientInfo} {s' : Clients} (hpos : p.pos = some a)
      (hn : s.heap a = some n) (htype : p.type = some .victim) (hreq : n.requester ≠ none)
      (hn' : s'.heap a = some n')
      (hvictim : n'.victim = n.victim.bind fun v =>
        clientInfoDestroy v (decide (v.fd < 0) && httpSentDone v.protocol)) : Deletes s p s' p 0

/-- `clients_del` keeps a table a table, whatever the position is, if a requester that it
is to delete is there. -/
theorem Table.del (T : Table s xs) {fuel : ℕ} (hfuel : xs.length ≤ fuel) (p : ClientPosition)
    (hreq : ∀ b ∈ xs, p.pos = some b → p.type = some .requester →
      ∀ r v, s.both b = some (r, v) → r.isSome) :
    ∃ s' p' ret xs', s.del fuel p = .ok (s', p', ret) ∧ Table s' xs' ∧ xs'.length ≤ xs.length ∧
      (p' = p ∨ p' = .zero) ∧ Shrinks s s' ∧ Deletes s p s' p' ret := by
  by_cases hskip : p.info = false ∨ p.pos = none ∨ p.type = none
  · exact ⟨s, p, _, xs, del_skip hskip, T, le_rfl, .inl rfl, Shrinks.refl s, .skipped hskip⟩
  obtain ⟨a, hpos⟩ : ∃ a, p.pos = some a :=
    Option.ne_none_iff_exists'.mp fun h => hskip (.inr (.inl h))
  by_cases ha : a ∉ xs
  · have hn : s.heap a = none := by
      rw [← Option.not_isSome_iff_eq_none, T.isSome_heap]
      exact ha
    exact ⟨s, p, _, xs, T.del_erased hfuel hskip hpos ha, T, le_rfl, .inl rfl, Shrinks.refl s,
      .erased hpos hn⟩
  rw [not_not] at ha
  obtain ⟨t, htype⟩ : ∃ t, p.type = some t :=
    Option.ne_none_iff_exists'.mp fun h => hskip (.inr (.inr h))
  obtain ⟨n, hn⟩ := Option.isSome_iff_exists.mp ((T.isSome_heap a).mpr ha)
  have hboth : s.both a = some (n.requester, n.victim) := by rw [both, hn, Option.map_some]
  obtain ⟨n', hdel, hnext, hprev, htaken, hkept⟩ := delClients_eq hpos htype hn
    fun ht => hreq a ha hpos (ht ▸ htype) _ _ hboth
  have S := T.toShape.store hn hnext hprev
  have hlive := T.del_live hfuel hskip hpos ha hdel (n := n') (by rw [heap_store, if_pos rfl])
  by_cases hempty : n'.requester = none ∧ n'.victim = none
  · obtain ⟨s₂, hs₂, S₂, hboth₂⟩ := S.unlink ha hpos
    have hqty : ¬ s₂.qty < 0 := by
      rw [S₂.qty]
      omega
    rw [if_pos hempty, hs₂, bind_ok] at hlive
    have hlive := hlive.trans (if_neg hqty)
    have hold : ∀ b c, s₂.both b = some c → s.both b = some c := by
      intro b c hb
      rw [hboth₂, both_store] at hb
      split_ifs at hb
      exact hb
    refine ⟨s₂, .zero, 0, xs.erase a, hlive, ⟨S₂, ?_⟩, List.length_erase_le, .inr rfl, ?_, ?_⟩
    · intro b r v hb
      exact T.client b r v (hold b _ hb)
    · intro b r v hb
      exact ⟨r, v, hold b _ hb, id⟩
    · refine .unlinked hpos hn ?_
      cases t with
      | requester => exact .inl htype
      | victim => exact .inr ((hkept rfl).1 ▸ hempty.1)
  · have hqty : ¬ (s.store a (some n')).qty < 0 := by
      rw [S.qty]
      omega
    rw [if_neg hempty, pure_bind] at hlive
    have hlive := hlive.trans (if_neg hqty)
    obtain ⟨T', hshrinks⟩ := T.store hn hnext hprev
      ((not_and_or.mp hempty).imp Option.isSome_iff_ne_none.mpr Option.isSome_iff_ne_none.mpr) (by
        cases t with
        | requester => exact absurd (htaken rfl) hempty
        | victim => rw [(hkept rfl).1]; exact id)
    refine ⟨_, p, 0, xs, hlive, T', le_rfl, .inl rfl, hshrinks, ?_⟩
    cases t with
    | requester => exact absurd (htaken rfl) hempty
    | victim =>
        obtain ⟨hr, hv⟩ := hkept rfl
        -- without its requester the victim would be gone too
        have hreq : n.requester ≠ none := by
          intro hnone
          refine hempty ⟨hr.trans hnone, hv.trans ?_⟩
          rw [victimLeft, hnone]
          cases n.victim <;> rfl
        refine .kept hpos hn htype hreq (heap_store.trans (if_pos rfl)) (hv.trans ?_)
        rw [victimLeft, Option.isNone_eq_false_iff.mpr (Option.isSome_iff_ne_none.mpr hreq)]
        rfl

/-- `clients_del` follows a null pointer where the requester that it is to delete is not there. -/
theorem Table.del_gone (T : Table s xs) {fuel : ℕ} (hfuel : xs.length ≤ fuel) {n : CircleClientInfo}
    (hn : s.heap a = some n) (hreq : n.requester = none) :
    s.del fuel ⟨true, some .requester, some a⟩ = .error .badPointer := by
  have ha : a ∈ xs := (T.isSome_heap a).mp (by rw [hn]; rfl)
  have hdel : s.delClients ⟨true, some .requester, some a⟩ = .error .badPointer := by
    rw [delClients, if_pos rfl, deref_eq hn, bind_ok, hreq]
    rfl
  rw [Clients.del, if_neg (by simp), T.searchPointerLocked_eq hfuel, bind_ok, if_pos ha, if_pos rfl,
    hdel]
  rfl

/-- `clients_add_peer` on a node that is still there fills its empty side, at most. -/
theorem Table.addPeer (T : Table s xs) (p : ClientPosition) (fd : ℤ)
    (hpos : ∀ b, p.pos = some b → b ∈ xs) :
    ∃ s' ret, s.addPeer p fd = .ok (s', ret) ∧ Table s' xs ∧ Shrinks s s' := by
  by_cases hfd : fd < 0
  · exact ⟨s, -1, if_pos hfd, T, Shrinks.refl s⟩
  by_cases hskip : p.pos = none ∨ p.type = none
  · exact ⟨s, -2, (if_neg hfd).trans (if_pos hskip), T, Shrinks.refl s⟩
  obtain ⟨a, ha⟩ := Option.ne_none_iff_exists'.mp fun h => hskip (.inl h)
  obtain ⟨n, hn⟩ := Option.isSome_iff_exists.mp ((T.isSome_heap a).mpr (hpos a ha))
  have hrest : s.addPeer p fd = (do
      if p.type = some .requester then
        if n.victim ≠ none then pure (s, -3)
        else do
          let s ← s.modify p.pos fun n => { n with victim := some (clientsAddCi fd) }
          pure (s, 0)
      else
        if n.requester ≠ none then pure (s, -3)
        else do
          let s ← s.modify p.pos fun n => { n with requester := some (clientsAddCi fd) }
          pure (s, 0)) := by
    rw [Clients.addPeer, if_neg hfd, if_neg hskip, ha, deref_eq hn, bind_ok]
  rw [ha, modify_eq hn, modify_eq hn, bind_ok, bind_ok] at hrest
  split_ifs at hrest
  · exact ⟨s, -3, hrest, T, Shrinks.refl s⟩
  · exact ⟨_, 0, hrest, T.store hn rfl rfl (.inr rfl) id⟩
  · exact ⟨s, -3, hrest, T, Shrinks.refl s⟩
  · exact ⟨_, 0, hrest, T.store hn rfl rfl (.inl rfl) fun _ => rfl⟩

/-- Whatever the position is, what `clients_add_peer` leaves when it returns is a table. -/
theorem Table.of_addPeer (T : Table s xs) {p : ClientPosition} {fd : ℤ} {s' : Clients} {ret : ℤ}
    (h : s.addPeer p fd = .ok (s', ret)) : Table s' xs := by
  by_cases hpos : ∀ b, p.pos = some b → b ∈ xs
  · obtain ⟨s₁, ret₁, hok, T₁, -⟩ := T.addPeer p fd hpos
    rw [hok] at h
    cases h
    exact T₁
  · simp only [not_forall, ← T.isSome_heap, Option.not_isSome_iff_eq_none] at hpos
    obtain ⟨b, hb, hnone⟩ := hpos
    have hgone : s.deref (some b) = .error .badPointer := by
      rw [deref, Option.bind_some, hnone]
    rw [Clients.addPeer, hb, hgone] at h
    split_ifs at h
    · cases h
      exact T
    · cases h
      exact T
    · cases h
    · cases h

end Operations

end Clients

end RenaProxy
