import Mathlib.Data.List.Basic
import Mathlib.Logic.Function.Basic
import Mathlib.Data.Nat.ModEq

/-!
# Bounded queues in a circular buffer

A buffer of fixed capacity with the places where the next element goes in and comes out
and the number of elements. `toList` is the queue it stands for, `enqueue` and `dequeue`
work at its two ends, `fill` and `skip` do so with as many elements as there are or fit, and
`sweep` applies a function from the first place to the last.
A full buffer has both places equal, as an empty one has, and a sweep leaves it as it is.
-/
namespace BoundedQueue

universe u
variable {α : Type u}

/-- A circular buffer of `capacity` places. -/
structure Buffer (α : Type u) where
  cells : ℕ → α
  capacity : ℕ
  size : ℕ
  first : ℕ
  last : ℕ
  size_le : size ≤ capacity
  first_lt : first < capacity
  last_eq : last = (first + size) % capacity

namespace Buffer
variable (q : Buffer α)

/-- The elements, the first to come out first. -/
def toList : List α := (List.range q.size).map fun i => q.cells ((q.first + i) % q.capacity)

/-- The empty buffer. -/
def empty (cells : ℕ → α) (capacity : ℕ) (h : 0 < capacity) : Buffer α where
  cells := cells
  capacity := capacity
  size := 0
  first := 0
  last := 0
  size_le := Nat.zero_le _
  first_lt := h
  last_eq := by simp

/-- An element goes in, if there is room. -/
def enqueue (a : α) : Option (Buffer α) :=
  if h : q.size < q.capacity then
    some { q with
      cells := Function.update q.cells q.last a
      size := q.size + 1
      last := (q.last + 1) % q.capacity
      size_le := h
      last_eq := by rw [q.last_eq, Nat.mod_add_mod, Nat.add_assoc] }
  else none

/-- The first element comes out, if there is one. -/
def dequeue : Option (α × Buffer α) :=
  if h : 0 < q.size then
    some (q.cells q.first, { q with
      size := q.size - 1
      first := (q.first + 1) % q.capacity
      size_le := (Nat.sub_le _ _).trans q.size_le
      first_lt := Nat.mod_lt _ (Nat.zero_lt_of_lt q.first_lt)
      last_eq := by
        rw [q.last_eq, Nat.mod_add_mod]
        congr 1
        omega })
  else none

/-- Elements go in one by one as long as there is room. How many went in is counted. -/
def fill (q : Buffer α) : List α → Buffer α × ℕ
  | [] => (q, 0)
  | a :: as =>
      match q.enqueue a with
      | none => (q, 0)
      | some q' => ((fill q' as).1, (fill q' as).2 + 1)

/-- The first elements come out, all at once. -/
def skip (n : ℕ) (h : n ≤ q.size) : Buffer α :=
  { q with
    size := q.size - n
    first := (q.first + n) % q.capacity
    size_le := (Nat.sub_le _ _).trans q.size_le
    first_lt := Nat.mod_lt _ (Nat.zero_lt_of_lt q.first_lt)
    last_eq := by
      rw [q.last_eq, Nat.mod_add_mod]
      congr 1
      omega }

/-- Apply `f` at `place` and the places after it until `last` is reached. -/
def sweepFrom (f : α → α) : ℕ → ℕ → (ℕ → α) → ℕ → α
  | 0, _, cells => cells
  | fuel + 1, place, cells =>
      if place = q.last then cells
      else sweepFrom f fuel ((place + 1) % q.capacity)
        (Function.update cells place (f (cells place)))

/-- Apply `f` to the elements, going from the first place on until the last is reached. -/
def sweep (f : α → α) : Buffer α := { q with cells := q.sweepFrom f q.capacity q.first q.cells }

section Spec
variable {q : Buffer α} {i j : ℕ}

theorem toList_empty (cells : ℕ → α) (n : ℕ) (h : 0 < n) : (empty cells n h).toList = [] := rfl

/-- Different elements lie at different places. -/
private theorem place_inj (hi : i < q.capacity) (hj : j < q.capacity)
    (h : (q.first + i) % q.capacity = (q.first + j) % q.capacity) : i = j := by
  have := Nat.ModEq.add_left_cancel' q.first (show q.first + i ≡ q.first + j [MOD q.capacity] from h)
  exact Nat.ModEq.eq_of_lt_of_lt this hi hj

theorem toList_enqueue {q' : Buffer α} {a : α} (h : q.enqueue a = some q') :
    q'.toList = q.toList ++ [a] := by
  rw [enqueue] at h
  split_ifs at h with hsize
  obtain rfl := Option.some.inj h
  rw [toList, toList]
  dsimp only
  rw [List.range_succ, List.map_append, List.map_singleton, ← q.last_eq, Function.update_self]
  congr 1
  apply List.map_congr_left
  intro i hi
  have hi := List.mem_range.mp hi
  apply Function.update_of_ne
  rw [q.last_eq]
  intro hplace
  exact absurd (place_inj (by omega) hsize hplace) (by omega)

theorem toList_dequeue {q' : Buffer α} {a : α} (h : q.dequeue = some (a, q')) :
    q.toList = a :: q'.toList := by
  rw [dequeue] at h
  split_ifs at h with hsize
  obtain ⟨rfl, rfl⟩ := Prod.mk.inj (Option.some.inj h)
  obtain ⟨n, hn⟩ : ∃ n, q.size = n + 1 := ⟨q.size - 1, by omega⟩
  rw [toList, toList]
  dsimp only
  rw [hn, Nat.add_sub_cancel, List.range_succ_eq_map, List.map_cons, List.map_map, Nat.add_zero,
    Nat.mod_eq_of_lt q.first_lt]
  congr 1
  apply List.map_congr_left
  intro i _
  rw [Function.comp_apply, Nat.mod_add_mod]
  congr 2
  omega

@[simp] theorem length_toList (q : Buffer α) : q.toList.length = q.size := by
  rw [toList, List.length_map, List.length_range]

theorem enqueue_eq_none_iff {a : α} : q.enqueue a = none ↔ q.size = q.capacity := by
  have := q.size_le
  rw [enqueue]
  split_ifs with h
  · exact iff_of_false id (by omega)
  · exact iff_of_true rfl (by omega)

theorem enqueue_sizes {q' : Buffer α} {a : α} (h : q.enqueue a = some q') :
    q'.size = q.size + 1 ∧ q'.capacity = q.capacity := by
  rw [enqueue] at h
  split_ifs at h
  obtain rfl := Option.some.inj h
  exact ⟨rfl, rfl⟩

theorem dequeue_eq_none_iff : q.dequeue = none ↔ q.size = 0 := by
  rw [dequeue]
  split_ifs with h
  · exact iff_of_false id (Nat.ne_of_gt h)
  · exact iff_of_true rfl (Nat.eq_zero_of_not_pos h)

theorem dequeue_sizes {q' : Buffer α} {a : α} (h : q.dequeue = some (a, q')) :
    q'.size + 1 = q.size ∧ q'.capacity = q.capacity := by
  rw [dequeue] at h
  split_ifs at h with hsize
  obtain ⟨rfl, rfl⟩ := Prod.mk.inj (Option.some.inj h)
  exact ⟨Nat.sub_add_cancel hsize, rfl⟩

theorem capacity_fill (q : Buffer α) (as : List α) : (q.fill as).1.capacity = q.capacity := by
  induction as generalizing q with
  | nil => rfl
  | cons a as ih =>
      rw [fill]
      split
      · rfl
      · rename_i q' h
        exact (ih q').trans (enqueue_sizes h).2

/-- **As many elements as there is room for go in**, the first ones. -/
theorem fill_spec (q : Buffer α) (as : List α) :
    (q.fill as).1.toList = q.toList ++ as.take (q.fill as).2 ∧
      (q.fill as).2 = min as.length (q.capacity - q.size) := by
  induction as generalizing q with
  | nil => exact ⟨by simp [fill], by simp [fill]⟩
  | cons a as ih =>
      rw [fill]
      have := q.size_le
      split
      · rename_i h
        have hfull := enqueue_eq_none_iff.mp h
        exact ⟨by simp, by simp [hfull]⟩
      · rename_i q' h
        obtain ⟨hlist, hcount⟩ := ih q'
        obtain ⟨hsize, hcapacity⟩ := enqueue_sizes h
        have := q'.size_le
        constructor
        · dsimp only
          rw [hlist, toList_enqueue h, List.take_succ_cons, List.append_assoc, List.singleton_append]
        · dsimp only
          rw [hcount, List.length_cons]
          omega

theorem toList_skip {n : ℕ} (h : n ≤ q.size) : (q.skip n h).toList = q.toList.drop n := by
  rw [toList, toList, ← List.map_drop, List.range_eq_range', List.range_eq_range', skip,
    List.drop_range']
  apply List.ext_getElem
  · simp
  · intro i _ _
    simp only [List.getElem_map, List.getElem_range', Nat.mod_add_mod]
    congr 2
    omega

private theorem sweepFrom_eq (f : α → α) (hfull : q.size < q.capacity) (n : ℕ) (cells : ℕ → α)
    (hi : i ≤ q.size) (hn : q.size - i < n) :
    (∀ j, i ≤ j → j < q.size → q.sweepFrom f n ((q.first + i) % q.capacity) cells
        ((q.first + j) % q.capacity) = f (cells ((q.first + j) % q.capacity))) ∧
      ∀ j, j < i → q.sweepFrom f n ((q.first + i) % q.capacity) cells
        ((q.first + j) % q.capacity) = cells ((q.first + j) % q.capacity) := by
  induction n generalizing i cells with
  | zero => omega
  | succ n ih =>
      rw [sweepFrom, q.last_eq]
      by_cases hlast : i = q.size
      · rw [if_pos (by rw [hlast])]
        exact ⟨fun j h h' => by omega, fun j _ => rfl⟩
      · have hne : (q.first + i) % q.capacity ≠ (q.first + q.size) % q.capacity := by
          intro hplace
          exact hlast (place_inj (by omega) hfull hplace)
        rw [if_neg hne, Nat.mod_add_mod, Nat.add_assoc]
        obtain ⟨hfrom, hbefore⟩ := ih (i := i + 1)
          (Function.update cells ((q.first + i) % q.capacity) (f (cells ((q.first + i) % q.capacity))))
          (by omega) (by omega)
        constructor
        · intro j hij hj
          rcases Nat.eq_or_lt_of_le hij with rfl | hlt
          · rw [hbefore _ (Nat.lt_succ_self _), Function.update_self]
          · rw [hfrom j hlt hj, Function.update_of_ne]
            intro hplace
            exact absurd (place_inj (by omega) (by omega) hplace) (by omega)
        · intro j hj
          rw [hbefore j (by omega), Function.update_of_ne]
          intro hplace
          exact absurd (place_inj (by omega) (by omega) hplace) (by omega)

/-- **A sweep reaches every element**, unless the buffer is full. -/
theorem toList_sweep (f : α → α) :
    (q.sweep f).toList = if q.size = q.capacity then q.toList else q.toList.map f := by
  split_ifs with hfull
  · have hlast : q.first = q.last := by
      rw [q.last_eq, hfull, Nat.add_mod_right, Nat.mod_eq_of_lt q.first_lt]
    have hcells : q.sweepFrom f q.capacity q.first q.cells = q.cells := by
      cases h : q.capacity with
      | zero => rfl
      | succ n => rw [sweepFrom, if_pos hlast]
    rw [toList, toList, sweep, hcells]
  · have hlt := Nat.lt_of_le_of_ne q.size_le hfull
    obtain ⟨hfrom, -⟩ := sweepFrom_eq (i := 0) f hlt q.capacity q.cells (Nat.zero_le _) (by omega)
    rw [Nat.add_zero, Nat.mod_eq_of_lt q.first_lt] at hfrom
    rw [toList, toList, List.map_map]
    apply List.map_congr_left
    intro i hi
    exact hfrom i (Nat.zero_le i) (List.mem_range.mp hi)

end Spec

end Buffer

end BoundedQueue
