import Mathlib.Data.List.Basic

/-!
# Machines that answer every symbol

A step reads a symbol in a state, moves and answers. `after` is the state that a word
leads to, `after_invariant` the rule for what every symbol keeps. `after_flatMap` compares
two ways of writing a text: where they agree character by character they agree on the
whole text.
-/
namespace Mealy

universe u
variable {σ α β γ : Type u} (step : σ → α → σ × β) {s : σ}

/-- The state after a word. -/
def after (s : σ) (xs : List α) : σ := xs.foldl (fun s a => (step s a).1) s

@[simp] theorem after_nil (s : σ) : after step s [] = s := rfl

@[simp] theorem after_cons (s : σ) (a : α) (xs : List α) :
    after step s (a :: xs) = after step (step s a).1 xs := rfl

@[simp] theorem after_append (s : σ) (xs ys : List α) :
    after step s (xs ++ ys) = after step (after step s xs) ys :=
  List.foldl_append

/-- A projection of the states along which another machine moves. -/
theorem after_projection {τ β' : Type u} {step' : τ → α → τ × β'} (p : σ → τ)
    (hstep : ∀ s a, p (step s a).1 = (step' (p s) a).1) (s : σ) (xs : List α) :
    p (after step s xs) = after step' (p s) xs := by
  induction xs generalizing s with
  | nil => rfl
  | cons a xs ih => rw [after_cons, after_cons, ih, hstep]

/-- Characters that lead back to a state leave the text there. -/
theorem after_flatMap_eq_self {f : γ → List α} {cs : List γ} (h : ∀ c ∈ cs, after step s (f c) = s) :
    after step s (cs.flatMap f) = s := by
  induction cs with
  | nil => rfl
  | cons c cs ih =>
      rw [List.flatMap_cons, after_append, h c (by simp)]
      exact ih fun c' hc' => h c' (by simp [hc'])

/-- Symbols that do not move the state leave it where it is. -/
theorem after_eq_self {xs : List α} (h : ∀ a ∈ xs, (step s a).1 = s) : after step s xs = s := by
  have := after_flatMap_eq_self step (f := fun a => [a]) h
  rwa [List.flatMap_singleton'] at this

/-- What every symbol of a word keeps, the word keeps. -/
theorem after_invariant {I : σ → Prop} {xs : List α} (hstep : ∀ s a, a ∈ xs → I s → I (step s a).1)
    (hs : I s) : I (after step s xs) := by
  induction xs generalizing s with
  | nil => exact hs
  | cons a xs ih =>
      exact ih (fun s b hb => hstep s b (by simp [hb])) (hstep s a (by simp) hs)

/-- Two ways of writing a text lead to one state, if they do so for each character from
the states of an invariant. -/
theorem after_flatMap {I : σ → Prop} {f g : γ → List α} {cs : List γ}
    (hchar : ∀ s c, c ∈ cs → I s → after step s (f c) = after step s (g c) ∧ I (after step s (g c)))
    (hs : I s) :
    after step s (cs.flatMap f) = after step s (cs.flatMap g) ∧ I (after step s (cs.flatMap g)) := by
  induction cs generalizing s with
  | nil => exact ⟨rfl, hs⟩
  | cons c cs ih =>
      obtain ⟨heq, hI⟩ := hchar s c (by simp) hs
      rw [List.flatMap_cons, List.flatMap_cons, after_append, after_append, heq]
      exact ih (fun s c' hc' => hchar s c' (by simp [hc'])) hI

end Mealy
