import Mathlib.Data.List.Sort
import Mathlib.Data.List.Nodup

/-!
# The order in a list

`Precedes` says that one element stands before another in a list. In a list without duplicates
one of two elements precedes the other and never both do. Sorting by a weight, the heaviest first,
puts an element before another if it is heavier, or as heavy and there before it.
-/
namespace StableOrder

universe u
variable {α : Type u} {a b : α} {l : List α}

/-- One element stands before another. -/
def Precedes (l : List α) (a b : α) : Prop := [a, b].Sublist l

/-- Two different elements come one after the other. -/
theorem precedes_or (ha : a ∈ l) (hb : b ∈ l) (hne : a ≠ b) : Precedes l a b ∨ Precedes l b a := by
  induction l with
  | nil => cases ha
  | cons c l ih =>
      cases ha with
      | head =>
          cases hb with
          | head => exact absurd rfl hne
          | tail _ hb => exact .inl (.cons_cons a (List.singleton_sublist.mpr hb))
      | tail _ ha =>
          cases hb with
          | head => exact .inr (.cons_cons b (List.singleton_sublist.mpr ha))
          | tail _ hb => exact (ih ha hb).imp (.cons c) (.cons c)

/-- Without duplicates they do not come both ways. -/
theorem Precedes.asymm (h : Precedes l a b) (hnodup : l.Nodup) : ¬ Precedes l b a := by
  intro h'
  induction l with
  | nil => cases h
  | cons c l ih =>
      have hc := List.nodup_cons.mp hnodup
      cases h with
      | cons _ h =>
          cases h' with
          | cons _ h' => exact ih h hc.2 h'
          | cons_cons _ h' => exact hc.1 (h.subset (by simp))
      | cons_cons _ h =>
          cases h' with
          | cons _ h' => exact hc.1 (h'.subset (by simp))
          | cons_cons _ h' => exact hc.1 (h'.subset (by simp))

theorem Precedes.ne (h : Precedes l a b) (hnodup : l.Nodup) : a ≠ b := by
  rintro rfl
  exact h.asymm hnodup h

/-- What comes after another is not the first. -/
theorem Precedes.head?_ne (h : Precedes l a b) (hnodup : l.Nodup) : l.head? ≠ some b := by
  intro hhead
  obtain ⟨rest, rfl⟩ := List.head?_eq_some_iff.mp hhead
  have ha : a ∈ b :: rest := h.subset (by simp)
  have hback : Precedes (b :: rest) b a :=
    .cons_cons b (List.singleton_sublist.mpr ((List.mem_cons.mp ha).resolve_left (h.ne hnodup)))
  exact hback.asymm hnodup h

/-- Leaving out others changes nothing. -/
theorem precedes_filter_iff {p : α → Bool} (ha : p a) (hb : p b) :
    Precedes (l.filter p) a b ↔ Precedes l a b := by
  constructor
  · intro h
    exact h.trans List.filter_sublist
  · intro h
    have hkeep : [a, b].filter p = [a, b] := by simp [ha, hb]
    rw [Precedes, ← hkeep]
    exact h.filter p

/-- In a list that grows by some measure, the order is that of the measure. -/
theorem precedes_iff_of_pairwise {measure : α → ℕ} (h : l.Pairwise fun a b => measure a < measure b)
    (ha : a ∈ l) (hb : b ∈ l) : Precedes l a b ↔ measure a < measure b := by
  have hsub := @List.pairwise_iff_forall_sublist _ l fun a b => measure a < measure b
  constructor
  · intro h'
    exact hsub.mp h h'
  · intro hlt
    have hne : a ≠ b := fun heq => absurd hlt (by rw [heq]; exact lt_irrefl _)
    refine (precedes_or ha hb hne).resolve_right fun h' => ?_
    exact absurd (hsub.mp h h') (Nat.lt_asymm hlt)

/-- **Sorting by weight**: the heavier comes first, of two as heavy the one that was first. -/
theorem precedes_insertionSort_iff (weight : α → ℕ) (hnodup : l.Nodup) (ha : a ∈ l) (hb : b ∈ l) :
    Precedes (l.insertionSort fun a b => weight b ≤ weight a) a b ↔
      weight b < weight a ∨ weight b = weight a ∧ Precedes l a b := by
  set r : α → α → Prop := fun a b => weight b ≤ weight a with hr
  have hsorted : (l.insertionSort r).Pairwise r := by
    have : Std.Total r := ⟨fun a b => Nat.le_total _ _⟩
    have : IsTrans α r := ⟨fun a b c hab hbc => Nat.le_trans hbc hab⟩
    exact List.pairwise_insertionSort r l
  have hnodup' : (l.insertionSort r).Nodup := (List.perm_insertionSort r l).nodup_iff.mpr hnodup
  constructor
  · intro h
    have hle : weight b ≤ weight a := List.pairwise_iff_forall_sublist.mp hsorted h
    rcases Nat.lt_or_eq_of_le hle with hlt | heq
    · exact .inl hlt
    · refine .inr ⟨heq, (precedes_or ha hb (h.ne hnodup')).resolve_right fun h' => ?_⟩
      exact h.asymm hnodup' (List.pair_sublist_insertionSort (r := r) heq.ge h')
  · rintro (hlt | ⟨heq, h⟩)
    · have hne : a ≠ b := fun heq => absurd hlt (by rw [heq]; exact lt_irrefl _)
      refine (precedes_or ((List.mem_insertionSort r).mpr ha) ((List.mem_insertionSort r).mpr hb)
        hne).resolve_right fun h' => ?_
      exact absurd (List.pairwise_iff_forall_sublist.mp hsorted h' : weight a ≤ weight b) (by omega)
    · exact List.pair_sublist_insertionSort heq.le h

end StableOrder
