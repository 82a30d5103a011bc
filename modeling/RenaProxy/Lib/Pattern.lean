import Mathlib.Data.List.Infix
import Mathlib.Data.List.Forall2
import Mathlib.Tactic.SplitIfs

/-!
# Patterns of single symbols

A pattern says of a row of symbols what each of them must be, and of the text after them what it
must be. `search` asks whether it matches anywhere in a text, `sub` replaces what it matches, from
left to right. `sub_of_none` and `sub_of_first` say what comes of a text without a match, and of
one up to its first match.
-/
namespace SequencePattern

universe u
variable {α : Type u}

/-- What each symbol must be, and what must follow. -/
structure Pattern (α : Type u) where
  items : List (α → Bool)
  rest : List α → Bool

namespace Pattern

/-- The items match the first symbols, and what is after them may follow. -/
def follows (rest : List α → Bool) : List (α → Bool) → List α → Bool
  | [], t => rest t
  | _ :: _, [] => false
  | f :: fs, a :: as => f a && follows rest fs as

variable (p : Pattern α)

/-- The pattern matches at the beginning of a text. -/
def matchAt (t : List α) : Bool := follows p.rest p.items t

/-- The pattern matches somewhere in a text. -/
def search (t : List α) : Bool := t.tails.any p.matchAt

/-- Replace every match, after the first symbols of the text, which are in a match already. -/
def subFrom (repl : List α) : ℕ → List α → List α
  | _, [] => []
  | n + 1, _ :: as => subFrom repl n as
  | 0, a :: as =>
      if p.matchAt (a :: as) then repl ++ subFrom repl (p.items.length - 1) as
      else a :: subFrom repl 0 as

/-- Replace every match. -/
def sub (repl t : List α) : List α := p.subFrom repl 0 t

/-- Every symbol is what it must be. -/
def Covers (items : List (α → Bool)) (x : List α) : Prop := List.Forall₂ (fun f a => f a = true) items x

section Spec
variable {p} {repl t x pre r : List α}

theorem follows_iff {rest : List α → Bool} {items : List (α → Bool)} :
    follows rest items t ↔ ∃ x r, t = x ++ r ∧ Covers items x ∧ rest r := by
  induction items generalizing t with
  | nil =>
      constructor
      · intro h
        exact ⟨[], t, rfl, .nil, h⟩
      · rintro ⟨x, r, rfl, h, hr⟩
        cases h
        exact hr
  | cons f fs ih =>
      cases t with
      | nil =>
          constructor
          · intro h
            cases h
          · rintro ⟨x, r, hx, h, -⟩
            cases h
            cases hx
      | cons a as =>
          rw [follows, Bool.and_eq_true, ih]
          constructor
          · rintro ⟨ha, x, r, rfl, h, hr⟩
            exact ⟨a :: x, r, rfl, .cons ha h, hr⟩
          · rintro ⟨x, r, hx, h, hr⟩
            cases h with
            | @cons _ b _ x hb h =>
                obtain ⟨rfl, rfl⟩ := List.cons.inj hx
                exact ⟨hb, x, r, rfl, h, hr⟩

theorem matchAt_iff : p.matchAt t ↔ ∃ x r, t = x ++ r ∧ Covers p.items x ∧ p.rest r := follows_iff

theorem search_iff : p.search t ↔ ∃ pre t', t = pre ++ t' ∧ p.matchAt t' := by
  rw [search, List.any_eq_true]
  constructor
  · rintro ⟨t', ht', h⟩
    obtain ⟨pre, rfl⟩ := (List.mem_tails _ _).mp ht'
    exact ⟨pre, t', rfl, h⟩
  · rintro ⟨pre, t', rfl, h⟩
    exact ⟨t', (List.mem_tails _ _).mpr ⟨pre, rfl⟩, h⟩

/-- What is in a match already is left out. -/
theorem subFrom_append (x t : List α) : p.subFrom repl x.length (x ++ t) = p.sub repl t := by
  induction x with
  | nil => rfl
  | cons a x ih => exact ih

theorem sub_cons_of_not {a : α} (h : ¬ p.matchAt (a :: t)) :
    p.sub repl (a :: t) = a :: p.sub repl t := by
  rw [sub, subFrom, if_neg h]
  rfl

/-- Symbols at which no match begins are copied. -/
theorem sub_append_of_not (h : ∀ l l', pre = l ++ l' → l' ≠ [] → ¬ p.matchAt (l' ++ t)) :
    p.sub repl (pre ++ t) = pre ++ p.sub repl t := by
  induction pre with
  | nil => rfl
  | cons a pre ih =>
      have hfirst : ¬ p.matchAt (a :: (pre ++ t)) := h [] (a :: pre) rfl (List.cons_ne_nil a pre)
      rw [List.cons_append, sub_cons_of_not hfirst, ih]
      · rfl
      · intro l l' hl
        exact h (a :: l) l' (by rw [hl]; rfl)

/-- What comes out was in the text or was put in. -/
theorem mem_of_mem_subFrom {a : α} {n : ℕ} (h : a ∈ p.subFrom repl n t) : a ∈ repl ∨ a ∈ t := by
  induction t generalizing n with
  | nil => cases n <;> cases h
  | cons b t ih =>
      cases n with
      | succ n => exact (ih h).imp_right (List.mem_cons_of_mem b)
      | zero =>
          rw [subFrom] at h
          split_ifs at h
          · rcases List.mem_append.mp h with h | h
            · exact .inl h
            · exact (ih h).imp_right (List.mem_cons_of_mem b)
          · rcases List.mem_cons.mp h with rfl | h
            · exact .inr List.mem_cons_self
            · exact (ih h).imp_right (List.mem_cons_of_mem b)

/-- **A text without a match** stays as it is. -/
theorem sub_of_none (h : ∀ l l', t = l ++ l' → l' ≠ [] → ¬ p.matchAt l') : p.sub repl t = t := by
  have hcopy : p.sub repl (t ++ []) = t ++ p.sub repl [] := by
    apply sub_append_of_not
    intro l l' hl hne
    rw [List.append_nil]
    exact h l l' hl hne
  rw [List.append_nil] at hcopy
  exact hcopy.trans (List.append_nil t)

/-- **The first match** is replaced, and the text goes on after it. -/
theorem sub_of_first (hx : x.length = p.items.length) (hne : x ≠ []) (hmatch : p.matchAt (x ++ r))
    (h : ∀ l l', pre = l ++ l' → l' ≠ [] → ¬ p.matchAt (l' ++ (x ++ r))) :
    p.sub repl (pre ++ (x ++ r)) = pre ++ (repl ++ p.sub repl r) := by
  rw [sub_append_of_not h]
  obtain ⟨a, x, rfl⟩ := List.exists_cons_of_ne_nil hne
  have hlen : p.items.length - 1 = x.length := by rw [← hx, List.length_cons, Nat.add_sub_cancel]
  rw [List.cons_append] at hmatch ⊢
  rw [sub, subFrom, if_pos hmatch, hlen, subFrom_append]

/-- A first match that the text ends with. -/
theorem sub_of_last (hx : x.length = p.items.length) (hne : x ≠ []) (hmatch : p.matchAt x)
    (h : ∀ l l', pre = l ++ l' → l' ≠ [] → ¬ p.matchAt (l' ++ x)) :
    p.sub repl (pre ++ x) = pre ++ repl := by
  rw [← List.append_nil x] at hmatch h ⊢
  rw [sub_of_first hx hne hmatch h]
  exact congrArg (pre ++ ·) (List.append_nil repl)

end Spec

end Pattern

end SequencePattern
