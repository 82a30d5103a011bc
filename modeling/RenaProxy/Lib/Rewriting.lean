import Mathlib.Data.List.Basic
import Mathlib.Data.List.Count
import Mathlib.Algebra.BigOperators.Group.List.Basic
import Mathlib.Tactic.Ring

/-!
# Rewriting a text piece by piece

A rewritten text is a list of pieces: a symbol copied from the source, or a key
of the source swapped for its replacement. `Reads` says which source a list of
pieces accounts for, symbol by symbol and in order; `render` is the text it
puts out. `Rewrites` is the resulting relation between a source and an output.

Different pieces may render alike. `render_injective` gives replacements for
which they do not, so that an output determines its pieces.
-/
namespace StreamRewriting

universe u
variable {α : Type u}

/-- One step of a rewriting. -/
inductive Piece (α : Type u)
  /-- A symbol of the source, put out unchanged. -/
  | copy (a : α)
  /-- An occurrence of `key`, put out as the replacement of `key`. -/
  | swap (key : List α)
  deriving DecidableEq, Repr

/-- The pieces account for the source `t`: a copy for one equal symbol, a swap
for a stretch that is its key up to `f`. -/
def Reads (f : α → α) : List (Piece α) → List α → Prop
  | [], t => t = []
  | .copy a :: ps, t => ∃ t', t = a :: t' ∧ Reads f ps t'
  | .swap k :: ps, t => ∃ x t', t = x ++ t' ∧ x.map f = k ∧ Reads f ps t'

/-- The text that one piece puts out. -/
def Piece.text (repl : List α → List α) : Piece α → List α
  | .copy a => [a]
  | .swap k => repl k

/-- The text that the pieces put out. -/
def render (repl : List α → List α) (ps : List (Piece α)) : List α :=
  ps.flatMap (Piece.text repl)

/-- `o` is `t` with some disjoint occurrences of keys, up to `f`, each put out
as the replacement of its key, and every other symbol copied once and in order. -/
def Rewrites (f : α → α) (key : List α → Prop) (repl : List α → List α)
    (t o : List α) : Prop :=
  ∃ ps, Reads f ps t ∧ (∀ k, Piece.swap k ∈ ps → key k) ∧ render repl ps = o

section Reading
variable {f : α → α}

@[simp] theorem reads_nil {t : List α} : Reads f [] t ↔ t = [] := Iff.rfl

theorem reads_append {ps qs : List (Piece α)} {t : List α} :
    Reads f (ps ++ qs) t ↔ ∃ x y, t = x ++ y ∧ Reads f ps x ∧ Reads f qs y := by
  induction ps generalizing t with
  | nil =>
      constructor
      · intro h
        exact ⟨[], t, rfl, rfl, h⟩
      · rintro ⟨x, y, rfl, rfl, h⟩
        simpa using h
  | cons p ps ih =>
      cases p with
      | copy a =>
          constructor
          · rintro ⟨t', rfl, h⟩
            obtain ⟨x, y, rfl, hx, hy⟩ := ih.mp h
            exact ⟨a :: x, y, rfl, ⟨x, rfl, hx⟩, hy⟩
          · rintro ⟨_, y, rfl, ⟨x, rfl, hx⟩, hy⟩
            exact ⟨x ++ y, rfl, ih.mpr ⟨x, y, rfl, hx, hy⟩⟩
      | swap k =>
          constructor
          · rintro ⟨z, t', rfl, hz, h⟩
            obtain ⟨x, y, rfl, hx, hy⟩ := ih.mp h
            exact ⟨z ++ x, y, by rw [List.append_assoc], ⟨z, x, rfl, hz, hx⟩, hy⟩
          · rintro ⟨_, y, rfl, ⟨z, x, rfl, hz, hx⟩, hy⟩
            exact ⟨z, x ++ y, by rw [List.append_assoc], hz, ih.mpr ⟨x, y, rfl, hx, hy⟩⟩

theorem reads_copies (l : List α) {t : List α} :
    Reads f (l.map Piece.copy) t ↔ t = l := by
  induction l generalizing t with
  | nil => exact Iff.rfl
  | cons a l ih =>
      constructor
      · rintro ⟨t', rfl, h⟩
        rw [ih.mp h]
      · rintro rfl
        exact ⟨l, rfl, ih.mpr rfl⟩

theorem reads_swap {k t : List α} : Reads f [.swap k] t ↔ t.map f = k := by
  constructor
  · rintro ⟨x, t', rfl, hx, rfl⟩
    simpa using hx
  · intro h
    exact ⟨t, [], by simp, h, rfl⟩

/-- How many symbols of the source the pieces account for. -/
def width (ps : List (Piece α)) : ℕ :=
  (ps.map fun | .copy _ => 1 | .swap k => k.length).sum

@[simp] theorem width_append (ps qs : List (Piece α)) :
    width (ps ++ qs) = width ps + width qs := by simp [width]

@[simp] theorem width_copies (l : List α) : width (l.map Piece.copy) = l.length := by
  induction l with
  | nil => rfl
  | cons a l ih => simp_all [width]; omega

@[simp] theorem width_swap (k : List α) : width [Piece.swap k] = k.length := by simp [width]

theorem length_of_reads {ps : List (Piece α)} {t : List α} (h : Reads f ps t) :
    t.length = width ps := by
  induction ps generalizing t with
  | nil => simp [reads_nil.mp h, width]
  | cons p ps ih =>
      cases p with
      | copy a =>
          obtain ⟨t', rfl, h⟩ := h
          simp [width, ih h, Nat.add_comm]
      | swap k =>
          obtain ⟨x, t', rfl, rfl, h⟩ := h
          simp [width, ih h]

/-- Where a prefix of the pieces ends in the source is fixed by its width. -/
theorem reads_split {ps qs : List (Piece α)} {t : List α} (h : Reads f (ps ++ qs) t) :
    Reads f ps (t.take (width ps)) ∧ Reads f qs (t.drop (width ps)) := by
  obtain ⟨x, y, rfl, hx, hy⟩ := reads_append.mp h
  rw [← length_of_reads hx]
  simpa using ⟨hx, hy⟩

end Reading

section Rendering
variable (repl : List α → List α)

@[simp] theorem render_nil : render repl [] = [] := rfl

@[simp] theorem render_cons (p : Piece α) (ps : List (Piece α)) :
    render repl (p :: ps) = p.text repl ++ render repl ps := rfl

@[simp] theorem render_append (ps qs : List (Piece α)) :
    render repl (ps ++ qs) = render repl ps ++ render repl qs := by
  simp [render]

@[simp] theorem render_copies (l : List α) : render repl (l.map Piece.copy) = l := by
  induction l with
  | nil => rfl
  | cons a l ih => simp [Piece.text, ih]

theorem render_congr {repl repl' : List α → List α} {ps : List (Piece α)}
    (h : ∀ k, Piece.swap k ∈ ps → repl k = repl' k) : render repl ps = render repl' ps := by
  induction ps with
  | nil => rfl
  | cons p ps ih =>
      rw [render_cons, render_cons, ih fun k hk => h k (List.mem_cons_of_mem _ hk)]
      cases p with
      | copy a => rfl
      | swap k => rw [Piece.text, Piece.text, h k List.mem_cons_self]

end Rendering

namespace Rewrites
variable {f : α → α} {key : List α → Prop} {repl : List α → List α} {t t' o o' : List α}

/-- A text is a rewriting of itself. -/
theorem refl (t : List α) : Rewrites f key repl t t := by
  refine ⟨t.map Piece.copy, (reads_copies t).mpr rfl, ?_, render_copies repl t⟩
  intro k hk
  obtain ⟨a, -, ha⟩ := List.mem_map.mp hk
  cases ha

/-- One stretch replaced as a whole. -/
theorem swap (hkey : key (t.map f)) : Rewrites f key repl t (repl (t.map f)) := by
  refine ⟨[.swap (t.map f)], reads_swap.mpr rfl, ?_, List.append_nil _⟩
  intro k hk
  cases List.mem_singleton.mp hk
  exact hkey

theorem append (h : Rewrites f key repl t o) (h' : Rewrites f key repl t' o') :
    Rewrites f key repl (t ++ t') (o ++ o') := by
  obtain ⟨ps, hps, hkeys, rfl⟩ := h
  obtain ⟨qs, hqs, hkeys', rfl⟩ := h'
  refine ⟨ps ++ qs, reads_append.mpr ⟨t, t', rfl, hps, hqs⟩, ?_, render_append repl ps qs⟩
  intro k hk
  rcases List.mem_append.mp hk with hk | hk
  · exact hkeys k hk
  · exact hkeys' k hk

end Rewrites

/-! ## Replacements that can be read back -/

/-- The number of copied symbols. -/
def copies (ps : List (Piece α)) : ℕ := ps.countP fun | .copy _ => true | .swap _ => false

theorem copies_copy (a : α) (ps : List (Piece α)) :
    copies (.copy a :: ps) = copies ps + 1 := by simp [copies]

theorem copies_swap (k : List α) (ps : List (Piece α)) :
    copies (.swap k :: ps) = copies ps := by simp [copies]

theorem copies_le_length_of_reads {f : α → α} {ps : List (Piece α)} {t : List α}
    (h : Reads f ps t) : copies ps ≤ t.length := by
  induction ps generalizing t with
  | nil => simp [copies]
  | cons p ps ih =>
      cases p with
      | copy a =>
          obtain ⟨t', rfl, h⟩ := h
          rw [copies_copy, List.length_cons]
          exact Nat.succ_le_succ (ih h)
      | swap k =>
          obtain ⟨x, t', rfl, _, h⟩ := h
          rw [copies_swap, List.length_append]
          exact (ih h).trans (Nat.le_add_left _ _)

theorem copies_le_width (ps : List (Piece α)) : copies ps ≤ width ps := by
  induction ps with
  | nil => simp [copies]
  | cons p ps ih =>
      cases p with
      | copy a =>
          rw [copies_copy, ← List.singleton_append, width_append]
          simpa [width, Nat.add_comm] using ih
      | swap k =>
          rw [copies_swap, ← List.singleton_append, width_append]
          exact ih.trans (Nat.le_add_left _ _)

/-- A word with a head too long to be copied piece by piece and a body that tells
its number. -/
def mark (x y : α) (n j : ℕ) : List α :=
  List.replicate n x ++ (List.replicate (j + 1) y ++ [x])

variable {x y : α} {n : ℕ} {idx : List α → ℕ}

private theorem mark_eq {m j : ℕ} (hm : n = m + 1) :
    mark x y n j = x :: (List.replicate m x ++ y :: (List.replicate j y ++ [x])) := by
  simp [mark, hm, List.replicate_succ]

/-- With at most `m` copies no rendering has its first `y` at place `m < n`. -/
private theorem render_ne_early (hxy : x ≠ y) (ps : List (Piece α)) (m : ℕ) (hm : m < n)
    (hc : copies ps ≤ m) (z : List α) :
    render (fun k => mark x y n (idx k)) ps ≠ List.replicate m x ++ y :: z := by
  induction ps generalizing m with
  | nil => simp
  | cons p ps ih =>
      intro h
      cases p with
      | copy a =>
          rw [copies_copy] at hc
          obtain ⟨m, rfl⟩ : ∃ m', m = m' + 1 := ⟨m - 1, by omega⟩
          simp only [render_cons, Piece.text, List.replicate_succ, List.cons_append,
            List.nil_append, List.cons.injEq] at h
          exact ih m (by omega) (by omega) h.2
      | swap k =>
          -- the head of the mark still runs at place `m`
          have hl := congrArg (fun l => l[m]?) h
          simp only [render_cons, Piece.text, mark, List.append_assoc] at hl
          rw [List.getElem?_append_left (by simpa using hm),
            List.getElem?_append_right (by simp)] at hl
          simp [hm] at hl
          exact hxy hl

private theorem mark_body_inj (hxy : x ≠ y) (i j : ℕ) (a b : List α)
    (h : List.replicate i y ++ x :: a = List.replicate j y ++ x :: b) : i = j ∧ a = b := by
  induction i generalizing j with
  | zero =>
      cases j with
      | zero => simpa using h
      | succ j =>
          simp only [List.replicate_zero, List.nil_append, List.replicate_succ,
            List.cons_append, List.cons.injEq] at h
          exact absurd h.1 hxy
  | succ i ih =>
      cases j with
      | zero =>
          simp only [List.replicate_zero, List.nil_append, List.replicate_succ,
            List.cons_append, List.cons.injEq] at h
          exact absurd h.1.symm hxy
      | succ j =>
          simp only [List.replicate_succ, List.cons_append, List.cons.injEq, true_and] at h
          obtain ⟨rfl, hab⟩ := ih j h
          exact ⟨rfl, hab⟩

theorem mark_append_inj (hxy : x ≠ y) {i j : ℕ} {a b : List α}
    (h : mark x y n i ++ a = mark x y n j ++ b) : i = j ∧ a = b := by
  simp only [mark, List.append_assoc, List.singleton_append, List.append_cancel_left_eq] at h
  obtain ⟨hij, hab⟩ := mark_body_inj hxy _ _ _ _ h
  exact ⟨by omega, hab⟩

private theorem render_copy_ne_swap (hxy : x ≠ y) {a : α} {k : List α} {ps qs : List (Piece α)}
    (hc : copies (.copy a :: ps) ≤ n) :
    render (fun k => mark x y n (idx k)) (.copy a :: ps) ≠
      render (fun k => mark x y n (idx k)) (.swap k :: qs) := by
  intro h
  rw [copies_copy] at hc
  obtain ⟨m, hm⟩ : ∃ m, n = m + 1 := ⟨n - 1, by omega⟩
  have hswap : render (fun k => mark x y n (idx k)) (.swap k :: qs) =
      x :: (List.replicate m x ++ y :: (List.replicate (idx k) y ++
        x :: render (fun k => mark x y n (idx k)) qs)) := by
    rw [render_cons, Piece.text, mark_eq hm]
    simp
  rw [hswap, render_cons, Piece.text, List.singleton_append, List.cons.injEq] at h
  exact render_ne_early hxy ps m (by omega) (by omega) _ h.2

variable (idx) in
/-- Marks longer than the number of copies tell every piece apart. -/
theorem render_injective (hxy : x ≠ y) {ps qs : List (Piece α)}
    (hps : copies ps ≤ n) (hqs : copies qs ≤ n)
    (hidx : ∀ k k', Piece.swap k ∈ ps → Piece.swap k' ∈ qs → idx k = idx k' → k = k')
    (h : render (fun k => mark x y n (idx k)) ps = render (fun k => mark x y n (idx k)) qs) :
    ps = qs := by
  induction ps generalizing qs with
  | nil =>
      cases qs with
      | nil => rfl
      | cons q qs => cases q <;> simp [Piece.text, mark] at h
  | cons p ps ih =>
      cases qs with
      | nil => cases p <;> simp [Piece.text, mark] at h
      | cons q qs =>
          have hidx' : ∀ k k', Piece.swap k ∈ ps → Piece.swap k' ∈ qs →
              idx k = idx k' → k = k' :=
            fun k k' hk hk' => hidx k k' (List.mem_cons_of_mem _ hk) (List.mem_cons_of_mem _ hk')
          cases p with
          | copy a =>
              cases q with
              | copy b =>
                  simp only [render_cons, Piece.text, List.cons_append, List.nil_append,
                    List.cons.injEq] at h
                  rw [copies_copy] at hps hqs
                  rw [h.1, ih (by omega) (by omega) hidx' h.2]
              | swap k => exact absurd h (render_copy_ne_swap hxy hps)
          | swap k =>
              cases q with
              | copy b => exact absurd h.symm (render_copy_ne_swap hxy hqs)
              | swap k' =>
                  rw [copies_swap] at hps hqs
                  obtain ⟨hk, ht⟩ := mark_append_inj hxy h
                  rw [hidx k k' List.mem_cons_self List.mem_cons_self hk,
                    ih hps hqs hidx' ht]

end StreamRewriting
