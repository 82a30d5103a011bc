import Mathlib.Data.List.Sort
import Mathlib.Data.List.TakeWhile

/-!
# Maps that have several values for a key

The entries of a `Multimap` are in the order of their keys, and those with one key in the order in
which they were inserted. `find` is the place of the first of them, and a loop over equal keys from
there on meets all of them, `range_find`.
-/
universe u v

structure Multimap (κ : Type u) (β : Type v) [LE κ] where
  entries : List (κ × β)
  sorted : entries.Pairwise fun a b => a.1 ≤ b.1

namespace Multimap

instance (κ : Type u) (β : Type v) [LE κ] : EmptyCollection (Multimap κ β) := ⟨⟨[], .nil⟩⟩

/-- A key that comes before all others is none of them. -/
theorem filter_eq_nil_of_lt {κ : Type u} {β : Type v} [LT κ] [Std.Irrefl fun a b : κ => a < b]
    [DecidableEq κ] {l : List (κ × β)} {k : κ} (h : ∀ e ∈ l, k < e.1) :
    (l.filter fun e => e.1 = k) = [] := by
  rw [List.filter_eq_nil_iff]
  intro e he
  have hlt := h e he
  simp only [decide_eq_true_eq]
  rintro rfl
  exact Std.lt_irrefl hlt

variable {κ : Type u} {β : Type v} [LE κ]

section Values
variable [DecidableEq κ]

/-- The entries from the first one with the key on; none where no entry has it. -/
def find (m : Multimap κ β) (k : κ) : List (κ × β) := m.entries.dropWhile fun e => e.1 ≠ k

/-- The values of a key. -/
def values (m : Multimap κ β) (k : κ) : List β := (m.entries.filter fun e => e.1 = k).map Prod.snd

@[simp] theorem values_empty (k : κ) : (∅ : Multimap κ β).values k = [] := rfl

/-- There is an entry to be found where the key has a value. -/
theorem find_eq_nil_iff (m : Multimap κ β) (k : κ) : m.find k = [] ↔ m.values k = [] := by
  simp [find, values, List.dropWhile_eq_nil_iff, List.filter_eq_nil_iff]

end Values

section Order
variable [LT κ] [Std.IsLinearOrder κ] [Std.LawfulOrderLT κ]

section Range
variable [DecidableEq κ]

/-- Behind keys that are not less, those that are equal come first. -/
theorem takeWhile_eq_filter {l : List (κ × β)} {k : κ} (hl : l.Pairwise fun a b => a.1 ≤ b.1)
    (h : ∀ e ∈ l, k ≤ e.1) : (l.takeWhile fun e => e.1 = k) = l.filter fun e => e.1 = k := by
  induction l with
  | nil => rfl
  | cons c l ih =>
      obtain ⟨hc, hl'⟩ := List.pairwise_cons.mp hl
      by_cases hck : c.1 = k
      · rw [List.takeWhile_cons_of_pos (by simpa using hck),
          List.filter_cons_of_pos (by simpa using hck),
          ih hl' fun e he => h e (List.mem_cons_of_mem c he)]
      · have hlt : k < c.1 := Std.lt_of_le_of_ne (h c List.mem_cons_self) fun heq => hck heq.symm
        have hbehind : ∀ e ∈ l, k < e.1 := fun e he => Std.lt_of_lt_of_le hlt (hc e he)
        rw [List.takeWhile_cons_of_neg (by simpa using hck),
          List.filter_cons_of_neg (by simpa using hck), filter_eq_nil_of_lt hbehind]

/-- **The entries of a key follow one another**, from the first one on. -/
theorem range_find (m : Multimap κ β) (k : κ) :
    ((m.find k).takeWhile fun e => e.1 = k) = m.entries.filter fun e => e.1 = k := by
  obtain ⟨l, hl⟩ := m
  simp only [find]
  induction l with
  | nil => rfl
  | cons c l ih =>
      obtain ⟨hc, hl'⟩ := List.pairwise_cons.mp hl
      by_cases hck : c.1 = k
      · rw [List.dropWhile_cons_of_neg (by simpa using hck)]
        refine takeWhile_eq_filter hl fun e he => ?_
        rcases List.mem_cons.mp he with rfl | he
        · exact hck ▸ Std.le_refl e.1
        · exact hck ▸ hc e he
      · rw [List.dropWhile_cons_of_pos (by simpa using hck), ih hl',
          List.filter_cons_of_neg (by simpa using hck)]

end Range

variable [DecidableLT κ]

theorem sorted_orderedInsert {l : List (κ × β)} (h : l.Pairwise fun a b => a.1 ≤ b.1) (e : κ × β) :
    (l.orderedInsert (fun a b => a.1 < b.1) e).Pairwise fun a b => a.1 ≤ b.1 := by
  induction l with
  | nil => simp
  | cons c l ih =>
      obtain ⟨hc, hl⟩ := List.pairwise_cons.mp h
      rw [List.orderedInsert_cons]
      split_ifs with hlt
      · refine List.pairwise_cons.mpr ⟨?_, h⟩
        intro x hx
        have hle : e.1 ≤ c.1 := Std.le_of_lt hlt
        rcases List.mem_cons.mp hx with rfl | hx
        · exact hle
        · exact Std.le_trans hle (hc x hx)
      · refine List.pairwise_cons.mpr ⟨?_, ih hl⟩
        intro x hx
        rcases (List.mem_orderedInsert _).mp hx with rfl | hx
        · exact Std.not_lt.mp hlt
        · exact hc x hx

/-- An entry comes behind those whose keys are not greater. -/
def insert (m : Multimap κ β) (k : κ) (b : β) : Multimap κ β where
  entries := m.entries.orderedInsert (fun a b => a.1 < b.1) (k, b)
  sorted := sorted_orderedInsert m.sorted (k, b)

/-- All of these, one after the other. -/
def insertRange (m : Multimap κ β) (es : List (κ × β)) : Multimap κ β :=
  es.foldl (fun m e => m.insert e.1 e.2) m

variable [DecidableEq κ]

/-- **A new value is the last one of its key**, and the other keys do not change. -/
theorem values_insert (m : Multimap κ β) (k : κ) (b : β) (k' : κ) :
    (m.insert k b).values k' = if k = k' then m.values k' ++ [b] else m.values k' := by
  obtain ⟨l, hl⟩ := m
  simp only [values, insert]
  induction l with
  | nil => by_cases hk : k = k' <;> simp [hk]
  | cons c l ih =>
      obtain ⟨hc, hl'⟩ := List.pairwise_cons.mp hl
      rw [List.orderedInsert_cons]
      by_cases hlt : k < c.1
      · have hbehind : ∀ e ∈ c :: l, k < e.1 := by
          intro e he
          rcases List.mem_cons.mp he with rfl | he
          · exact hlt
          · exact Std.lt_of_lt_of_le hlt (hc e he)
        rw [if_pos hlt]
        by_cases hk : k = k'
        · subst hk
          rw [filter_eq_nil_of_lt hbehind, List.filter_cons_of_pos (by simp),
            filter_eq_nil_of_lt hbehind]
          simp
        · simp [hk]
      · have hrest := ih hl'
        rw [if_neg hlt]
        by_cases hck : c.1 = k'
        · by_cases hk : k = k' <;> simpa [hck, hk] using hrest
        · by_cases hk : k = k' <;> simpa [hck, hk] using hrest

theorem values_insertRange (m : Multimap κ β) (es : List (κ × β)) (k : κ) :
    (m.insertRange es).values k = m.values k ++ (es.filter fun e => e.1 = k).map Prod.snd := by
  induction es generalizing m with
  | nil => simp [insertRange]
  | cons e es ih =>
      rw [insertRange, List.foldl_cons, ← insertRange, ih, values_insert]
      by_cases he : e.1 = k
      · simp [he]
      · simp [he]

end Order

end Multimap
