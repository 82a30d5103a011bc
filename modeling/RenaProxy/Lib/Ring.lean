import RenaProxy.Lib.Failure
import Mathlib.Data.List.Cycle
import Mathlib.Logic.Relation

/-!
# Doubly linked rings

`Ring next prev xs`: the links of the nodes `xs` form one cycle, in the order of the list.
A ring stays one when a node comes in before the first (`Ring.insert`) and when a node
goes (`Ring.remove`), and a search round the ring looks at every node once
(`searchRing_eq`). Where the links are kept does not matter, only what they are.
-/
namespace LinkedRing

universe u
variable {A : Type u} {next prev next' prev' : A → Option A} {xs ys : List A} {x a b p : A}

/-- `a` comes right before `b`. -/
def Linked (next prev : A → Option A) (a b : A) : Prop := next a = some b ∧ prev b = some a

/-- The nodes of a ring, from one of them on. -/
structure Ring (next prev : A → Option A) (xs : List A) : Prop where
  nodup : xs.Nodup
  chain : Cycle.Chain (Linked next prev) xs

theorem ring_nil : Ring next prev [] := ⟨List.nodup_nil, Cycle.Chain.nil _⟩

theorem ring_singleton (h : Linked next prev x x) : Ring next prev [x] :=
  ⟨List.nodup_singleton x, (Cycle.chain_singleton _ x).mpr h⟩

/-- It does not matter from which node on a ring is listed. -/
theorem Ring.rotated (R : Ring next prev xs) (h : xs ~r ys) : Ring next prev ys := by
  refine ⟨h.nodup_iff.mp R.nodup, ?_⟩
  rw [← Cycle.coe_eq_coe.mpr h]
  exact R.chain

/-- The links inside a stretch of nodes stay what they are when only the last node gets
another next one and only the first another previous one. -/
private theorem isChain_congr {r r' : A → A → Prop}
    (h : ∀ c ∈ ys.dropLast, ∀ d ∈ ys.tail, r c d → r' c d) (hr : ys.IsChain r) : ys.IsChain r' := by
  induction ys with
  | nil => exact .nil
  | cons y ys ih =>
      cases ys with
      | nil => exact .singleton y
      | cons z ys =>
          rw [List.isChain_cons_cons] at hr ⊢
          refine ⟨h y (by simp) z (by simp) hr.1, ih ?_ hr.2⟩
          intro c hc d hd
          exact h c (List.mem_cons_of_mem _ hc) d (List.mem_cons_of_mem _ hd)

private theorem isChain_of_chain (h : Cycle.Chain (Linked next prev) (x :: xs)) :
    (x :: xs).IsChain (Linked next prev) ∧
      Linked next prev ((x :: xs).getLast (List.cons_ne_nil x xs)) x := by
  rw [Cycle.chain_coe_cons, ← List.cons_append, List.isChain_append] at h
  refine ⟨h.1, h.2.2 _ ?_ x rfl⟩
  rw [List.getLast?_eq_getLast_of_ne_nil (List.cons_ne_nil x xs)]
  rfl

private theorem chain_of_isChain (h : (x :: xs).IsChain (Linked next prev))
    (hl : Linked next prev ((x :: xs).getLast (List.cons_ne_nil x xs)) x) :
    Cycle.Chain (Linked next prev) (x :: xs) := by
  rw [Cycle.chain_coe_cons, ← List.cons_append, List.isChain_append]
  refine ⟨h, .singleton x, ?_⟩
  intro c hc d hd
  rw [List.getLast?_eq_getLast_of_ne_nil (List.cons_ne_nil x xs)] at hc
  obtain rfl := Option.some.inj hc
  obtain rfl : x = d := by simpa using hd
  exact hl

/-- Inside a stretch nothing changes but the next node of its last and the previous node
of its first. -/
private theorem isChain_of_frame (hnodup : (x :: xs).Nodup)
    (hnext : ∀ c ∈ x :: xs, c ≠ (x :: xs).getLast (List.cons_ne_nil x xs) → next' c = next c)
    (hprev : ∀ c ∈ x :: xs, c ≠ x → prev' c = prev c)
    (h : (x :: xs).IsChain (Linked next prev)) : (x :: xs).IsChain (Linked next' prev') := by
  apply isChain_congr ?_ h
  intro c hc d hd hlink
  constructor
  · rw [hnext c (List.mem_of_mem_dropLast hc)]
    · exact hlink.1
    · rintro rfl
      rw [← List.dropLast_append_getLast (List.cons_ne_nil x xs), List.nodup_append] at hnodup
      exact hnodup.2.2 _ hc _ (List.mem_singleton_self _) rfl
  · rw [hprev d (List.mem_of_mem_tail hd)]
    · exact hlink.2
    · rintro rfl
      exact (List.nodup_cons.mp hnodup).1 hd

/-- **A node comes in before the first one.** `p` is the node before the first. -/
theorem Ring.insert (R : Ring next prev (x :: xs)) (ha : a ∉ x :: xs) (hp : prev x = some p)
    (hna : next' a = some x) (hpa : prev' a = some p) (hnp : next' p = some a)
    (hpx : prev' x = some a) (hnext : ∀ c, c ≠ a → c ≠ p → next' c = next c)
    (hprev : ∀ c, c ≠ a → c ≠ x → prev' c = prev c) : Ring next' prev' (a :: x :: xs) := by
  obtain ⟨hchain, hlast⟩ := isChain_of_chain R.chain
  obtain rfl : p = (x :: xs).getLast (List.cons_ne_nil x xs) := by
    rw [hlast.2] at hp
    exact (Option.some.inj hp).symm
  have hne : ∀ c ∈ x :: xs, c ≠ a := fun c hc h => ha (h ▸ hc)
  refine ⟨List.nodup_cons.mpr ⟨ha, R.nodup⟩, chain_of_isChain ?_ ?_⟩
  · rw [List.isChain_cons_cons]
    refine ⟨⟨hna, hpx⟩, isChain_of_frame R.nodup ?_ ?_ hchain⟩
    · intro c hc h
      exact hnext c (hne c hc) h
    · intro c hc h
      exact hprev c (hne c hc) h
  · rw [List.getLast_cons (List.cons_ne_nil x xs)]
    exact ⟨hnp, hpa⟩

/-- The neighbours of a node of a ring. -/
theorem Ring.neighbours (R : Ring next prev xs) (ha : a ∈ xs) :
    ∃ n ∈ xs, ∃ p ∈ xs, Linked next prev a n ∧ Linked next prev p a := by
  obtain ⟨pre, post, rfl⟩ := List.append_of_mem ha
  have R' : Ring next prev (a :: (post ++ pre)) := R.rotated List.isRotated_append
  obtain ⟨hchain, hlast⟩ := isChain_of_chain R'.chain
  have hmem : ∀ c ∈ a :: (post ++ pre), c ∈ pre ++ a :: post := by
    intro c hc
    simp only [List.mem_cons, List.mem_append] at hc ⊢
    tauto
  obtain ⟨n, hn, hlink⟩ : ∃ n ∈ a :: (post ++ pre), Linked next prev a n := by
    cases hy : post ++ pre with
    | nil =>
        simp only [hy] at hlast
        exact ⟨a, by simp, by simpa using hlast⟩
    | cons n ys =>
        rw [hy, List.isChain_cons_cons] at hchain
        exact ⟨n, by simp, hchain.1⟩
  exact ⟨n, hmem n hn, _, hmem _ (List.getLast_mem _), hlink, hlast⟩

/-- **A node goes.** `n` and `p` are the nodes after and before it. -/
theorem Ring.remove [DecidableEq A] (R : Ring next prev xs) (ha : a ∈ xs) {n : A}
    (hn : next a = some n) (hp : prev a = some p)
    (hpn : n ≠ a → prev' n = some p) (hnp : p ≠ a → next' p = some n)
    (hnext : ∀ c, c ≠ a → c ≠ p → next' c = next c)
    (hprev : ∀ c, c ≠ a → c ≠ n → prev' c = prev c) : Ring next' prev' (xs.erase a) := by
  obtain ⟨pre, post, rfl⟩ := List.append_of_mem ha
  have R' : Ring next prev (a :: (post ++ pre)) := R.rotated List.isRotated_append
  have hnodup := List.nodup_cons.mp R'.nodup
  have herase : (pre ++ a :: post).erase a = pre ++ post := by
    have hpre : a ∉ pre := fun h => hnodup.1 (List.mem_append_right _ h)
    rw [List.erase_append_right _ hpre, List.erase_cons_head]
  rw [herase]
  suffices h : Ring next' prev' (post ++ pre) from h.rotated List.isRotated_append
  refine ⟨hnodup.2, ?_⟩
  obtain ⟨hchain, hlast⟩ := isChain_of_chain R'.chain
  cases hy : post ++ pre with
  | nil => exact Cycle.Chain.nil _
  | cons y ys =>
      simp only [hy] at hchain hlast hnodup
      rw [List.getLast_cons (List.cons_ne_nil y ys)] at hlast
      rw [List.isChain_cons_cons] at hchain
      obtain rfl : n = y := by
        rw [hchain.1.1] at hn
        exact (Option.some.inj hn).symm
      obtain rfl : p = (n :: ys).getLast (List.cons_ne_nil n ys) := by
        rw [hlast.2] at hp
        exact (Option.some.inj hp).symm
      have hne : ∀ c ∈ n :: ys, c ≠ a := fun c hc h => hnodup.1 (h ▸ hc)
      apply chain_of_isChain
      · apply isChain_of_frame hnodup.2 ?_ ?_ hchain.2
        · intro c hc h
          exact hnext c (hne c hc) h
        · intro c hc h
          exact hprev c (hne c hc) h
      · exact ⟨hnp (hne _ (List.getLast_mem _)), hpn (hne n (by simp))⟩

/-- After the first node comes the second, or the first again. -/
theorem Ring.next_head (R : Ring next prev (x :: xs)) : next x = (xs ++ [x]).head? := by
  have hchain := R.chain
  rw [Cycle.chain_coe_cons] at hchain
  cases xs with
  | nil => exact (List.isChain_cons_cons.mp hchain).1.1
  | cons y ys => exact (List.isChain_cons_cons.mp hchain).1.1

/-- The nodes that the links reach from the first one are the nodes of the ring. -/
theorem Ring.reaches_iff (R : Ring next prev (x :: xs)) :
    Relation.ReflTransGen (fun c d => next c = some d) x a ↔ a ∈ x :: xs := by
  constructor
  · intro h
    induction h with
    | refl => exact List.mem_cons_self
    | tail _ hstep ih =>
        obtain ⟨n, hn, -, -, hlink, -⟩ := R.neighbours ih
        rw [hlink.1] at hstep
        exact Option.some.inj hstep ▸ hn
  · intro h
    obtain ⟨hchain, -⟩ := isChain_of_chain R.chain
    have hchain : (x :: xs).IsChain fun c d => next c = some d := hchain.imp fun _ _ h => h.1
    apply hchain.induction (Relation.ReflTransGen (fun c d => next c = some d) x) _ ?_ ?_ a h
    · intro c d hstep ih
      exact ih.tail hstep
    · intro _
      exact .refl

/-- From every node of a ring the links reach every other. -/
theorem Ring.reaches (R : Ring next prev xs) (ha : a ∈ xs) (hb : b ∈ xs) :
    Relation.ReflTransGen (fun c d => next c = some d) a b := by
  obtain ⟨pre, post, rfl⟩ := List.append_of_mem ha
  have hrot : pre ++ a :: post ~r a :: (post ++ pre) :=
    List.isRotated_append
  exact (R.rotated hrot).reaches_iff.mpr (hrot.mem_iff.mp hb)

/-! ## Searching -/

variable {ε β : Type u}

/-- Look at `x`, at the node after it and so on, until one shows what is looked for or
the next node is `start` again. -/
def searchRing [DecidableEq A] (next : A → Except ε A) (look : A → Except ε (Option β))
    (endless : ε) (start : A) : ℕ → A → Except ε (Option β)
  | 0, _ => .error endless
  | fuel + 1, x => do
      match ← look x with
      | some b => pure (some b)
      | none =>
          let y ← next x
          if y = start then pure none else searchRing next look endless start fuel y

private theorem searchRing_chain [DecidableEq A] {next : A → Except ε A}
    {look : A → Except ε (Option β)} {f : A → Option β} {endless : ε} {start : A} {fuel : ℕ}
    (hchain : (x :: xs ++ [start]).IsChain fun c d => next c = .ok d)
    (hlook : ∀ c ∈ x :: xs, look c = .ok (f c)) (hstart : start ∉ xs) (hfuel : xs.length < fuel) :
    searchRing next look endless start fuel x = .ok ((x :: xs).findSome? f) := by
  induction xs generalizing x fuel with
  | nil =>
      obtain ⟨fuel, rfl⟩ := Nat.exists_eq_add_of_lt hfuel
      have hnext : next x = .ok start := by simpa using hchain
      rw [searchRing, hlook x List.mem_cons_self, List.findSome?_cons, List.findSome?_nil,
        Failure.bind_ok]
      cases f x with
      | some b => rfl
      | none =>
          rw [hnext]
          exact if_pos rfl
  | cons y ys ih =>
      obtain ⟨fuel, rfl⟩ : ∃ n, fuel = n + 1 := ⟨fuel - 1, by omega⟩
      rw [List.cons_append, List.cons_append, List.isChain_cons_cons] at hchain
      have hne : y ≠ start := fun h => hstart (h ▸ List.mem_cons_self)
      rw [searchRing, hlook x List.mem_cons_self, List.findSome?_cons, Failure.bind_ok]
      cases f x with
      | some b => rfl
      | none =>
          rw [hchain.1]
          refine (if_neg hne).trans (ih hchain.2 ?_ ?_ ?_)
          · intro c hc
            exact hlook c (List.mem_cons_of_mem _ hc)
          · exact fun h => hstart (List.mem_cons_of_mem _ h)
          · exact Nat.lt_of_succ_lt_succ hfuel

/-- **A search goes round once**: it finds what the first of the nodes shows that shows
anything, and ends. -/
theorem searchRing_eq [DecidableEq A] {nextE : A → Except ε A} {look : A → Except ε (Option β)}
    {f : A → Option β} (endless : ε) {fuel : ℕ} (R : Ring next prev (x :: xs))
    (hnext : ∀ c ∈ x :: xs, ∀ d, next c = some d → nextE c = .ok d)
    (hlook : ∀ c ∈ x :: xs, look c = .ok (f c)) (hfuel : xs.length < fuel) :
    searchRing nextE look endless x fuel x = .ok ((x :: xs).findSome? f) := by
  apply searchRing_chain ?_ hlook (List.nodup_cons.mp R.nodup).1 hfuel
  have hchain := R.chain
  rw [Cycle.chain_coe_cons, ← List.cons_append] at hchain
  apply isChain_congr ?_ hchain
  intro c hc d _ hlink
  rw [List.dropLast_concat] at hc
  exact hnext c hc d hlink.1

end LinkedRing
