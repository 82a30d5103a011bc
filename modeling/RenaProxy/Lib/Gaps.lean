import RenaProxy.Lib.Replacement
import Mathlib.Data.Sum.Basic

/-!
# Texts with gaps

Patterns are crossed out of a text one after the other, which leaves letters, and gaps with what is
put in there. A pattern keeps to the letters if it is found in the filled text only where it stands
in the letters. Then a substitution in the filled text is a crossing out, `sub_filled`. What is
crossed out is never found again, `not_search_crossOut`, and what a pattern avoids is still there,
`exists_placed`.
-/
namespace SequencePattern

universe u
variable {α : Type u}

/-- Letters, and gaps with what is put in. -/
abbrev Cells (α : Type u) := List (α ⊕ List α)

namespace Cells

/-- The letters of a text. -/
def whole (t : List α) : Cells α := t.map .inl

/-- The text, of what is put into the gaps. -/
def filled (put : List α → List α) (m : Cells α) : List α := m.flatMap (Sum.elim (fun a => [a]) put)

/-- The letters alone. -/
def closed (m : Cells α) : List α := m.filled fun _ => []

end Cells

open Cells

namespace Pattern
variable (p : Pattern α)

/-- The pattern, for letters between gaps. -/
def onCells : Pattern (α ⊕ List α) where
  items := p.items.map fun f => Sum.elim f fun _ => false
  rest m := p.rest (filled id m)

/-- Each match is a gap from then on. -/
def crossOut (t : List α) (m : Cells α) : Cells α := p.onCells.sub [.inr t] m

/-- The pattern is found in the filled text where it stands in the letters only. -/
def KeepsTo (put : List α → List α) : Cells α → Prop
  | [] => True
  | .inl a :: m =>
      (p.matchAt (a :: filled put m) → p.onCells.matchAt (.inl a :: m)) ∧ KeepsTo put m
  | .inr t :: m =>
      (∀ x ∈ (put t).tails, x ≠ [] → ¬ p.matchAt (x ++ filled put m)) ∧ KeepsTo put m

instance decidableKeepsTo [DecidableEq α] (put : List α → List α) :
    ∀ m, Decidable (p.KeepsTo put m)
  | [] => isTrue trivial
  | .inl _ :: m =>
      have := decidableKeepsTo put m
      inferInstanceAs (Decidable ((_ → _) ∧ p.KeepsTo put m))
  | .inr t :: m =>
      have := decidableKeepsTo put m
      inferInstanceAs (Decidable ((∀ x ∈ (put t).tails, x ≠ [] → _) ∧ p.KeepsTo put m))

section Spec
variable {p} {q : Pattern α} {put : List α → List α} {m l : Cells α} {t x : List α} {a : α}

@[simp] theorem filled_nil : filled put ([] : Cells α) = [] := rfl

@[simp] theorem filled_inl (a : α) (m : Cells α) : filled put (.inl a :: m) = a :: filled put m := rfl

@[simp] theorem filled_inr (t : List α) (m : Cells α) :
    filled put (.inr t :: m) = put t ++ filled put m := rfl

@[simp] theorem filled_append (l m : Cells α) :
    filled put (l ++ m) = filled put l ++ filled put m := List.flatMap_append

@[simp] theorem filled_whole (t : List α) : filled put (whole t) = t := by
  induction t with
  | nil => rfl
  | cons a t ih => exact congrArg (a :: ·) ih

/-- Closing up leaves out symbols only. -/
theorem closed_sublist (put : List α → List α) (m : Cells α) :
    m.closed.Sublist (filled put m) := by
  induction m with
  | nil => exact List.Sublist.refl _
  | cons c m ih =>
      cases c with
      | inl a => exact ih.cons_cons a
      | inr t => exact ih.trans (List.sublist_append_right _ _)

theorem items_onCells_ne_nil (h : p.items ≠ []) : p.onCells.items ≠ [] := by simpa [onCells] using h

/-- What stands in letters is letters. -/
theorem covers_onCells (h : Covers p.onCells.items l) : ∃ x, l = whole x ∧ Covers p.items x := by
  rw [onCells, Covers, List.forall₂_map_left_iff] at h
  generalize p.items = items at h
  induction h with
  | nil => exact ⟨[], rfl, .nil⟩
  | @cons f c items l hc _ ih =>
      obtain ⟨x, rfl, hx⟩ := ih
      cases c with
      | inl a => exact ⟨a :: x, rfl, .cons hc hx⟩
      | inr t => cases hc

theorem matchAt_filled (hrest : ∀ m, p.rest (filled id m) → p.rest (filled put m))
    (h : p.onCells.matchAt m) : p.matchAt (filled put m) := by
  obtain ⟨l, r, rfl, hl, hr⟩ := matchAt_iff.mp h
  obtain ⟨x, rfl, hx⟩ := covers_onCells hl
  exact matchAt_iff.mpr ⟨x, filled put r, by simp, hx, hrest r hr⟩

theorem KeepsTo.of_append (h : p.KeepsTo put (l ++ m)) : p.KeepsTo put m := by
  induction l with
  | nil => exact h
  | cons c l ih =>
      cases c with
      | inl a => exact ih h.2
      | inr t => exact ih h.2

/-- **A substitution in the filled text** is a crossing out. -/
theorem sub_filled (hitems : p.items ≠ []) (hrest : ∀ m, p.rest (filled id m) → p.rest (filled put m))
    (h : p.KeepsTo put m) : p.sub (put t) (filled put m) = filled put (p.crossOut t m) := by
  rw [crossOut]
  induction m using replace_induction (items_onCells_ne_nil hitems) with
  | nil => rfl
  | copy c m hnot ih =>
      rw [sub_cons_of_not hnot]
      cases c with
      | inl a =>
          rw [filled_inl, filled_inl, sub_cons_of_not fun hmatch => hnot (h.1 hmatch), ih h.2]
      | inr x =>
          rw [filled_inr, filled_inr, sub_append_of_not, ih h.2]
          intro y z hyz hz
          exact h.1 z ((List.mem_tails _ _).mpr ⟨y, hyz.symm⟩) hz
  | found l m hl hne hmatch ih =>
      obtain ⟨x, rfl, hx⟩ := covers_onCells (covers_of_matchAt hl hmatch)
      have hfound := matchAt_filled hrest hmatch
      have hx' : x ≠ [] := by
        rintro rfl
        exact hne rfl
      rw [filled_append, filled_whole] at hfound ⊢
      rw [sub_append_of_match (length_of_covers hx) hx' hfound, sub_append_of_match hl hne hmatch,
        ih h.of_append]
      rfl

theorem search_cons : p.search (a :: t) ↔ p.matchAt (a :: t) ∨ p.search t := by
  rw [search, search, List.tails_cons, List.any_cons, Bool.or_eq_true]

theorem search_append (x : List α) (h : p.search t) : p.search (x ++ t) := by
  obtain ⟨pre, t', rfl, hmatch⟩ := search_iff.mp h
  exact search_iff.mpr ⟨x ++ pre, t', (List.append_assoc _ _ _).symm, hmatch⟩

/-- What is found in the filled text stands in the letters. -/
theorem search_of_filled (hitems : p.items ≠ []) (h : p.KeepsTo put m)
    (hsearch : p.search (filled put m)) : p.onCells.search m := by
  induction m with
  | nil =>
      rw [filled_nil, search_iff_covers] at hsearch
      obtain ⟨a, x, b, heq, hx, -⟩ := hsearch
      obtain ⟨-, heq⟩ := List.append_eq_nil_iff.mp heq.symm
      obtain ⟨rfl, -⟩ := List.append_eq_nil_iff.mp heq
      exact absurd (List.forall₂_nil_right_iff.mp hx) hitems
  | cons c m ih =>
      rw [search_cons]
      cases c with
      | inl a =>
          rw [filled_inl, search_cons] at hsearch
          exact hsearch.imp h.1 (ih h.2)
      | inr t =>
          refine .inr (ih h.2 ?_)
          obtain ⟨pre, t', heq, hmatch⟩ := search_iff.mp hsearch
          rcases List.append_eq_append_iff.mp heq with ⟨y, -, hy⟩ | ⟨y, hy, rfl⟩
          · exact search_iff.mpr ⟨y, t', hy, hmatch⟩
          · rcases eq_or_ne y [] with rfl | hne
            · exact search_iff.mpr ⟨[], _, rfl, hmatch⟩
            · exact absurd hmatch (h.1 y ((List.mem_tails _ _).mpr ⟨pre, hy.symm⟩) hne)

/-- What stands in the letters is found in the filled text. -/
theorem search_filled_of_search (hrest : ∀ m, p.rest (filled id m) → p.rest (filled put m))
    (h : p.onCells.search m) : p.search (filled put m) := by
  induction m with
  | nil =>
      obtain ⟨pre, m, heq, hmatch⟩ := search_iff.mp h
      obtain ⟨-, rfl⟩ := List.append_eq_nil_iff.mp heq.symm
      exact search_iff.mpr ⟨[], [], rfl, matchAt_filled hrest hmatch⟩
  | cons c m ih =>
      rcases search_cons.mp h with hmatch | h
      · exact search_iff.mpr ⟨[], _, rfl, matchAt_filled hrest hmatch⟩
      · exact search_append _ (ih h)

theorem search_filled (hitems : p.items ≠ [])
    (hrest : ∀ m, p.rest (filled id m) → p.rest (filled put m)) (h : p.KeepsTo put m) :
    p.search (filled put m) ↔ p.onCells.search m :=
  ⟨search_of_filled hitems h, search_filled_of_search hrest⟩

/-- A pattern that is not found keeps to the letters. -/
theorem keepsTo_of_not_search (h : ¬ p.search (filled put m)) : p.KeepsTo put m := by
  induction m with
  | nil => trivial
  | cons c m ih =>
      cases c with
      | inl a =>
          rw [filled_inl, search_cons, not_or] at h
          exact ⟨fun hmatch => absurd hmatch h.1, ih h.2⟩
      | inr t =>
          refine ⟨fun x hx _ hmatch => h ?_, ih fun hsearch => h (search_append _ hsearch)⟩
          obtain ⟨y, hy⟩ := (List.mem_tails _ _).mp hx
          rw [filled_inr, ← hy, List.append_assoc]
          exact search_iff.mpr ⟨y, _, rfl, hmatch⟩

/-! ## What is crossed out -/

/-- A gap is apart from what stands in letters. -/
theorem apart_gap (hitems : p.items ≠ []) (t : List α) : p.onCells.Apart [.inr t] := by
  have hgap : ∀ items : List (α → Bool), items ≠ [] →
      ¬ agree (items.map fun f => Sum.elim f fun _ => false) [(.inr t : α ⊕ List α)] := by
    intro items hne
    obtain ⟨f, items, rfl⟩ := List.exists_cons_of_ne_nil hne
    simp [agree]
  constructor
  · intro k hk
    obtain rfl : k = 0 := Nat.lt_one_iff.mp hk
    exact hgap p.items hitems
  · intro k hk
    rw [onCells, ← List.map_drop]
    apply hgap
    rw [onCells, List.length_map] at hk
    simpa using hk

theorem loose_gap (h : p.Loose t) : p.onCells.Loose [.inr t] := by
  intro l m n hrest
  rw [onCells] at hrest ⊢
  dsimp only at hrest ⊢
  rw [filled_append, List.singleton_append, filled_inr] at hrest
  rw [filled_append]
  exact h _ _ _ hrest

/-- Nothing comes to stand in the letters by crossing out. -/
theorem search_crossOut (hitems : p.items ≠ []) (hitems' : q.items ≠ []) (hloose : q.Loose t)
    (h : q.onCells.search (p.crossOut t m)) : q.onCells.search m :=
  search_sub_of_apart (items_onCells_ne_nil hitems) (apart_gap hitems' t) (loose_gap hloose) h

/-- **What is crossed out** stands nowhere any more. -/
theorem not_search_crossOut (hitems : p.items ≠ []) (hloose : p.Loose t) :
    ¬ p.onCells.search (p.crossOut t m) :=
  not_search_sub (items_onCells_ne_nil hitems) (apart_gap hitems t) (loose_gap hloose)

end Spec

/-! ## What stays -/

/-- Symbols of a text became gaps, but none at one of the places. -/
inductive Keeps : (ℕ → Prop) → List α → Cells α → Prop
  | nil (P : ℕ → Prop) : Keeps P [] []
  | keep {P : ℕ → Prop} {t : List α} {m : Cells α} (a : α) :
      Keeps (fun i => P (i + 1)) t m → Keeps P (a :: t) (.inl a :: m)
  | cross {P : ℕ → Prop} {t : List α} {m : Cells α} (x r : List α) :
      x ≠ [] → (∀ i < x.length, ¬ P i) → Keeps (fun i => P (i + x.length)) t m →
        Keeps P (x ++ t) (.inr r :: m)

/-- The pattern is found at none of the places. -/
def Avoids (p : Pattern α) (P : ℕ → Prop) (t : List α) : Prop :=
  ∀ k < t.length, p.matchAt (t.drop k) → ∀ i < p.items.length, ¬ P (k + i)

instance (p : Pattern α) (P : ℕ → Prop) [DecidablePred P] (t : List α) :
    Decidable (p.Avoids P t) :=
  inferInstanceAs (Decidable (∀ _ < _, _ → ∀ _ < _, ¬ _))

section Keeps
variable {p : Pattern α} {P : ℕ → Prop} {t x r : List α} {m : Cells α}

theorem keeps_whole (P : ℕ → Prop) (t : List α) : Keeps P t (whole t) := by
  induction t generalizing P with
  | nil => exact .nil P
  | cons a t ih => exact .keep a (ih _)

/-- The letters that are left were there before. -/
theorem Keeps.of_whole_append (h : Keeps P t (whole x ++ m)) :
    ∃ t', t = x ++ t' ∧ Keeps (fun i => P (i + x.length)) t' m := by
  induction x generalizing P t with
  | nil => exact ⟨t, rfl, h⟩
  | cons a x ih =>
      cases h with
      | keep _ h =>
          obtain ⟨t', rfl, h'⟩ := ih h
          exact ⟨t', rfl, h'⟩

theorem Avoids.of_append (h : p.Avoids P (x ++ t)) : p.Avoids (fun i => P (i + x.length)) t := by
  intro k hk hmatch i hi
  have hnot := h (x.length + k) (by rw [List.length_append]; omega)
    (by rwa [List.drop_length_add_append]) i hi
  rwa [Nat.add_assoc, Nat.add_comm] at hnot

/-- What may follow a match in the filled text may do so in the text. -/
theorem Keeps.rest (h : Keeps P t m) (hloose : ∀ r, .inr r ∈ m → p.Loose r) (y : List α)
    (hrest : p.rest (y ++ filled id m)) : p.rest (y ++ t) := by
  induction h generalizing y with
  | nil => exact hrest
  | @keep P t m a _ ih =>
      have hstep := ih (fun r hr => hloose r (List.mem_cons_of_mem _ hr)) (y ++ [a])
      rw [List.append_assoc, List.append_assoc] at hstep
      exact hstep hrest
  | cross x r => exact hloose r List.mem_cons_self _ _ _ hrest

/-- **Crossing out** a pattern that avoids the places keeps them. -/
theorem Keeps.crossOut (hitems : p.items ≠ []) (r : List α) (h : Keeps P t m)
    (hloose : ∀ r, .inr r ∈ m → p.Loose r) (havoids : p.Avoids P t) :
    Keeps P t (p.crossOut r m) := by
  rw [Pattern.crossOut]
  induction m using replace_induction (items_onCells_ne_nil hitems) generalizing P t with
  | nil => exact h
  | copy c m hnot ih =>
      have hloose' : ∀ r, .inr r ∈ m → p.Loose r := fun r hr => hloose r (List.mem_cons_of_mem c hr)
      rw [sub_cons_of_not hnot]
      cases h with
      | keep a h => exact .keep a (ih h hloose' (havoids.of_append (x := [a])))
      | cross x g hx hP h => exact .cross x g hx hP (ih h hloose' havoids.of_append)
  | found l m hl hne hmatch ih =>
      obtain ⟨x, rfl, hx⟩ := covers_onCells (covers_of_matchAt hl hmatch)
      obtain ⟨t, rfl, h'⟩ := h.of_whole_append
      have hloose' : ∀ r, .inr r ∈ m → p.Loose r := fun r hr =>
        hloose r (List.mem_append_right _ hr)
      have hlen := length_of_covers hx
      have hpos := List.length_pos_iff.mpr hitems
      have hrest : p.onCells.rest m := ((matchAt_iff_covers hl).mp hmatch).2
      have hfound : p.matchAt (x ++ t) :=
        (matchAt_iff_covers hlen).mpr ⟨hx, h'.rest hloose' [] hrest⟩
      rw [sub_append_of_match hl hne hmatch]
      refine .cross x r (List.length_pos_iff.mp (by omega)) (fun i hi => ?_)
        (ih h' hloose' havoids.of_append)
      have hnot := havoids 0 (by rw [List.length_append]; omega) hfound i (by omega)
      rwa [Nat.zero_add] at hnot

/-- Places in order, next to each other where they were, each with the symbol that was there. -/
structure Placed (P : ℕ → Prop) (t x : List α) (place : ℕ → ℕ) : Prop where
  first : P 0 → place 0 = 0
  lt : ∀ i j, i < j → P i → P j → place i < place j
  next : ∀ i, P i → P (i + 1) → place (i + 1) = place i + 1
  same : ∀ i, P i → x[place i]? = t[i]?

/-- **The symbols that are kept** are in the filled text. -/
theorem Keeps.exists_placed (h : Keeps P t m) : ∃ place, Placed P t (filled id m) place := by
  induction h with
  | nil P => exact ⟨id, fun _ => rfl, fun _ _ hij _ _ => hij, fun _ _ _ => rfl, fun _ _ => rfl⟩
  | @keep P t m a _ ih =>
      obtain ⟨place, hfirst, hlt, hnext, hsame⟩ := ih
      refine ⟨fun i => if i = 0 then 0 else place (i - 1) + 1, fun _ => rfl, ?_, ?_, ?_⟩
      · intro i j hij hi hj
        obtain ⟨j, rfl⟩ := Nat.exists_eq_succ_of_ne_zero (Nat.ne_zero_of_lt hij)
        cases i with
        | zero => exact Nat.succ_pos _
        | succ i => exact Nat.succ_lt_succ (hlt i j (Nat.lt_of_succ_lt_succ hij) hi hj)
      · intro i hi hi'
        cases i with
        | zero => exact congrArg (· + 1) (hfirst hi')
        | succ i => exact congrArg (· + 1) (hnext i hi hi')
      · intro i hi
        cases i with
        | zero => rfl
        | succ i => exact hsame i hi
  | @cross P t m x r hx hnot _ ih =>
      obtain ⟨place, -, hlt, hnext, hsame⟩ := ih
      have hlater : ∀ i, P i → ∃ j, i = j + x.length := by
        intro i hi
        refine ⟨i - x.length, (Nat.sub_add_cancel (Nat.le_of_not_lt fun hlt => ?_)).symm⟩
        exact hnot i hlt hi
      refine ⟨fun i => r.length + place (i - x.length), fun h => ?_, ?_, ?_, ?_⟩
      · exact absurd h (hnot 0 (List.length_pos_iff.mpr hx))
      · intro i j hij hi hj
        obtain ⟨i, rfl⟩ := hlater i hi
        obtain ⟨j, rfl⟩ := hlater j hj
        rw [Nat.add_sub_cancel, Nat.add_sub_cancel]
        exact Nat.add_lt_add_left (hlt i j (Nat.lt_of_add_lt_add_right hij) hi hj) _
      · intro i hi hi'
        obtain ⟨i, rfl⟩ := hlater i hi
        rw [Nat.add_right_comm] at hi' ⊢
        rw [Nat.add_sub_cancel, Nat.add_sub_cancel, hnext i hi hi', Nat.add_assoc]
      · intro i hi
        obtain ⟨i, rfl⟩ := hlater i hi
        rw [Nat.add_sub_cancel, filled_inr, id, List.getElem?_append_right (Nat.le_add_right _ _),
          Nat.add_sub_cancel_left, hsame i hi, List.getElem?_append_right (Nat.le_add_left _ _),
          Nat.add_sub_cancel]

/-- So is a stretch of them. -/
theorem Placed.prefix_drop {place : ℕ → ℕ} (h : Placed P t x place) {k n : ℕ}
    (hP : ∀ i < n, P (k + i)) : (t.drop k).take n <+: x.drop (place k) := by
  have hplace : ∀ j < n, place (k + j) = place k + j := by
    intro j hj
    induction j with
    | zero => rfl
    | succ j ih =>
        rw [← Nat.add_assoc, h.next (k + j) (hP j (by omega)) (hP (j + 1) hj), ih (by omega)]
        rfl
  rw [List.prefix_iff_getElem?]
  intro j hj
  have hjn : j < n := by
    rw [List.length_take] at hj
    omega
  rw [← List.getElem?_eq_getElem hj, List.getElem?_take_of_lt hjn, List.getElem?_drop,
    List.getElem?_drop, ← hplace j hjn]
  exact h.same (k + j) (hP j hjn)

end Keeps

end Pattern

end SequencePattern
