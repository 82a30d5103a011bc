import Mathlib.Data.List.Basic
import Mathlib.Data.Nat.Basic

/-!
# A keyword with a value behind it

A scanner that looks for a keyword by counting the characters matched so far. A
character that does not fit sets the count back to zero and is not looked at again, so
not every occurrence is found. Behind the keyword comes a value; its first character is
taken as it is, from the second one on the value is over at a stop.

`firstValue` is the first value that the scanner comes to, and `firstValue_eq_some_iff`
says which texts have one and where.
-/
namespace Keyword

/-- What fits at each place of the keyword, and what stops a value. -/
structure Scanner (α : Type) where
  length : ℕ
  fits : ℕ → α → Bool
  stops : α → Bool

namespace Scanner
variable {α : Type} (K : Scanner α)

/-- The count behind one more character. A full count stays. -/
def next (n : ℕ) (c : α) : ℕ := if K.length ≤ n then n else if K.fits n c then n + 1 else 0

/-- The count behind a text. -/
def hits (n : ℕ) (x : List α) : ℕ := x.foldl K.next n

/-- Where the first value of a text starts and stops. -/
def firstValue : ℕ → List α → Option (ℕ × ℕ)
  | _, [] => none
  | n, c :: x =>
      if K.length ≤ n then (x.findIdx? K.stops).map fun k => (0, k + 1)
      else (firstValue (K.next n c) x).map fun r => (r.1 + 1, r.2 + 1)

/-- The rest of the keyword, from its `n`-th place on. -/
def Spells : ℕ → List α → Prop
  | n, [] => n = K.length
  | n, c :: x => n < K.length ∧ K.fits n c ∧ Spells (n + 1) x

/-- A value in front of a stop. -/
structure IsValue (v : List α) (t : α) : Prop where
  ne_nil : v ≠ []
  tail : ∀ c ∈ v.tail, ¬ K.stops c
  stop : K.stops t

variable {K} {n : ℕ} {x y key v : List α} {t : α}

theorem hits_cons (n : ℕ) (c : α) (x : List α) : K.hits n (c :: x) = K.hits (K.next n c) x := rfl

theorem hits_of_le (h : K.length ≤ n) (x : List α) : K.hits n x = n := by
  induction x with
  | nil => rfl
  | cons c x ih => rw [hits_cons, next, if_pos h, ih]

theorem next_le (K : Scanner α) (h : n ≤ K.length) (c : α) : K.next n c ≤ K.length := by
  unfold next
  split
  · exact h
  · split <;> omega

/-- Over a text that does not complete the keyword the scanner finds nothing. -/
theorem firstValue_append (h : K.hits n y < K.length) (x : List α) :
    K.firstValue n (y ++ x) =
      (K.firstValue (K.hits n y) x).map fun r => (y.length + r.1, y.length + r.2) := by
  induction y generalizing n with
  | nil => simp [hits]
  | cons c y ih =>
      have hn : ¬ K.length ≤ n := by
        intro hle
        rw [hits_of_le hle] at h
        omega
      rw [hits_cons] at h
      rw [List.cons_append, firstValue, if_neg hn, ih h, hits_cons, Option.map_map]
      congr 1
      funext r
      simp [Nat.add_right_comm]

theorem length_spells (h : K.Spells n key) : n + key.length = K.length := by
  induction key generalizing n with
  | nil => exact h
  | cons c key ih =>
      have := ih h.2.2
      rw [List.length_cons]
      omega

theorem firstValue_spells (h : K.Spells n key) (x : List α) :
    K.firstValue n (key ++ x) =
      (K.firstValue K.length x).map fun r => (key.length + r.1, key.length + r.2) := by
  induction key generalizing n with
  | nil =>
      obtain rfl : n = K.length := h
      simp
  | cons c key ih =>
      obtain ⟨hlt, hfits, hkey⟩ := h
      rw [List.cons_append, firstValue, if_neg (not_le.mpr hlt), next, if_neg (not_le.mpr hlt),
        if_pos hfits, ih hkey, Option.map_map]
      congr 1
      funext r
      simp [Nat.add_right_comm]

theorem firstValue_value (h : K.IsValue v t) (x : List α) :
    K.firstValue K.length (v ++ t :: x) = some (0, v.length) := by
  obtain ⟨c, w, rfl⟩ := List.exists_cons_of_ne_nil h.ne_nil
  have hfind : (w ++ t :: x).findIdx? K.stops = some w.length := by
    rw [List.findIdx?_append, List.findIdx?_eq_none_iff.mpr, List.findIdx?_cons, if_pos h.stop]
    · simp
    · intro a ha
      simpa using h.tail a ha
  rw [List.cons_append, firstValue, if_pos le_rfl, hfind]
  rfl

/-- The first value, when the scanner is at rest where its keyword starts. -/
theorem firstValue_eq_some (hy : K.hits 0 y = 0) (hkey : K.Spells 0 key) (hv : K.IsValue v t)
    (hpos : 0 < K.length) (x : List α) :
    K.firstValue 0 (y ++ key ++ v ++ t :: x) =
      some (y.length + key.length, y.length + key.length + v.length) := by
  rw [List.append_assoc, List.append_assoc, firstValue_append (by rwa [hy]), hy,
    firstValue_spells hkey, firstValue_value hv]
  simp [Nat.add_assoc]

/-- What a text looks like in which the scanner finds a value: it completes the keyword
that it is in the middle of, or comes to rest and finds one from there on. -/
theorem exists_of_firstValue {b e : ℕ} (hn : n ≤ K.length) (h : K.firstValue n x = some (b, e)) :
    ∃ y key v t z, x = y ++ key ++ v ++ t :: z ∧ K.IsValue v t ∧
      b = y.length + key.length ∧ e = b + v.length ∧
      ((y = [] ∧ K.Spells n key) ∨ (K.hits n y = 0 ∧ K.Spells 0 key)) := by
  induction x generalizing n b e with
  | nil => cases h
  | cons c x ih =>
      rw [firstValue] at h
      by_cases hle : K.length ≤ n
      · rw [if_pos hle, Option.map_eq_some_iff] at h
        obtain ⟨k, hk, hbe⟩ := h
        obtain ⟨rfl, rfl⟩ := Prod.mk.inj hbe
        obtain ⟨hlt, hstop, hbefore⟩ := List.findIdx?_eq_some_iff_getElem.mp hk
        refine ⟨[], [], c :: x.take k, x[k], x.drop (k + 1), ?_, ⟨by simp, ?_, hstop⟩, rfl, ?_,
          .inl ⟨rfl, le_antisymm hn hle⟩⟩
        · simp
        · intro a ha
          obtain ⟨i, hi, rfl⟩ := List.mem_iff_getElem.mp ha
          rw [List.tail_cons, List.length_take] at hi
          simpa using hbefore i (by omega)
        · rw [List.length_cons, List.length_take]
          omega
      · rw [if_neg hle, Option.map_eq_some_iff] at h
        obtain ⟨⟨b', e'⟩, hr, hbe⟩ := h
        obtain ⟨rfl, rfl⟩ := Prod.mk.inj hbe
        obtain ⟨y, key, v, t, z, rfl, hv, rfl, rfl, hcase⟩ := ih (K.next_le hn c) hr
        have hmatch : K.next n c = n + 1 ∧ K.fits n c ∨ K.next n c = 0 := by
          rw [next, if_neg hle]
          by_cases hfits : K.fits n c <;> simp [hfits]
        rcases hcase with ⟨rfl, hspells⟩ | ⟨hhits, hspells⟩
        · rcases hmatch with ⟨hgo, hfits⟩ | hback
          · rw [hgo] at hspells
            exact ⟨[], c :: key, v, t, z, by simp, hv, by simp, by simp; omega,
              .inl ⟨rfl, by omega, hfits, hspells⟩⟩
          · rw [hback] at hspells
            exact ⟨[c], key, v, t, z, by simp, hv, by simp; omega, by simp; omega,
              .inr ⟨hback, hspells⟩⟩
        · exact ⟨c :: y, key, v, t, z, by simp, hv, by simp; omega, by simp; omega,
            .inr ⟨hhits, hspells⟩⟩

/-- **The texts with a first value.** The scanner is at rest in front of a keyword, and
the value behind it has a character and a stop. -/
theorem firstValue_eq_some_iff (hpos : 0 < K.length) {b e : ℕ} :
    K.firstValue 0 x = some (b, e) ↔
      ∃ y key v t z, x = y ++ key ++ v ++ t :: z ∧ K.hits 0 y = 0 ∧ K.Spells 0 key ∧
        K.IsValue v t ∧ b = y.length + key.length ∧ e = b + v.length := by
  constructor
  · intro h
    obtain ⟨y, key, v, t, z, hx, hv, hb, he, ⟨rfl, hkey⟩ | ⟨hy, hkey⟩⟩ :=
      exists_of_firstValue (Nat.zero_le _) h
    · exact ⟨[], key, v, t, z, hx, rfl, hkey, hv, hb, he⟩
    · exact ⟨y, key, v, t, z, hx, hy, hkey, hv, hb, he⟩
  · rintro ⟨y, key, v, t, z, rfl, hy, hkey, hv, rfl, rfl⟩
    exact firstValue_eq_some hy hkey hv hpos z

end Scanner

end Keyword
