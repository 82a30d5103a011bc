import Mathlib.Data.Option.Basic

/-!
# Runs of steps

A state is changed by steps, some of which cannot be made in some states. `Along` says something of
every step of a run and of the state before it; `along_iff_of_invariant` compares two things that are
said so, where an invariant of the states makes them the same.
-/
namespace Runs

universe u v
variable {σ : Type u} {α : Type v}

/-- Of every step of a run, and of the state before it. -/
def Along (step : σ → α → Option σ) (P : σ → α → Prop) : σ → List α → Prop
  | _, [] => True
  | s, a :: as => P s a ∧ ∀ s' ∈ step s a, Along step P s' as

section Along
variable {step : σ → α → Option σ} {P Q : σ → α → Prop} {I : σ → Prop} {s : σ} {as bs : List α}

/-- **What is the same in every state of a run** is the same along it. -/
theorem along_iff_of_invariant (hstep : ∀ s a s', I s → P s a → step s a = some s' → I s')
    (h : ∀ s a, I s → (P s a ↔ Q s a)) (hs : I s) : Along step P s as ↔ Along step Q s as := by
  induction as generalizing s with
  | nil => rfl
  | cons a as ih =>
      rw [Along, Along, h s a hs]
      refine and_congr_right fun hQ => forall₂_congr fun s' hs' => ?_
      exact ih (hstep s a s' hs ((h s a hs).mpr hQ) hs')

theorem along_congr (h : ∀ s a, P s a ↔ Q s a) : Along step P s as ↔ Along step Q s as :=
  along_iff_of_invariant (I := fun _ => True) (fun _ _ _ _ _ _ => trivial) (fun s a _ => h s a) trivial

/-- **A run can be made** when each of its steps can. -/
theorem isSome_foldlM_iff :
    (as.foldlM step s).isSome ↔ Along step (fun s a => (step s a).isSome) s as := by
  induction as generalizing s with
  | nil => exact iff_of_true rfl trivial
  | cons a as ih =>
      rw [List.foldlM_cons, Along]
      cases hstep : step s a with
      | none => simp
      | some s' => simpa using ih

/-- What holds along a run holds along the rest of it. -/
theorem along_of_append (h : Along step P s (as ++ bs)) :
    ∀ s' ∈ as.foldlM step s, Along step P s' bs := by
  induction as generalizing s with
  | nil =>
      intro s' hs'
      obtain rfl := Option.some.inj hs'
      exact h
  | cons a as ih =>
      intro s' hs'
      obtain ⟨s₁, hs₁, hs'⟩ := Option.bind_eq_some_iff.mp hs'
      exact ih (h.2 s₁ hs₁) s' hs'

instance decidableAlong [∀ s a, Decidable (P s a)] :
    ∀ (as : List α) (s : σ), Decidable (Along step P s as)
  | [], _ => isTrue trivial
  | a :: as, s =>
      have := decidableAlong as
      inferInstanceAs (Decidable (P s a ∧ ∀ s' ∈ step s a, Along step P s' as))

end Along

end Runs
