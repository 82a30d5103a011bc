import Mathlib.Data.List.Basic

/-!
# Computations that may fail

Rules for `Except` programs: what a `bind` that succeeds has done, which errors it
can have, and the same for loops over a list.
-/
namespace Failure

universe u
variable {ε α β σ : Type u}

theorem bind_eq_ok {x : Except ε α} {f : α → Except ε β} {b : β} :
    (x >>= f) = .ok b ↔ ∃ a, x = .ok a ∧ f a = .ok b := by
  cases x <;> simp [bind, Except.bind]

theorem bind_ok (a : α) (f : α → Except ε β) : (Except.ok a >>= f) = f a := rfl

theorem toOption_eq_some {x : Except ε α} {a : α} : x.toOption = some a ↔ x = .ok a := by
  cases x <;> simp [Except.toOption]

theorem bind_ne_error {x : Except ε α} {f : α → Except ε β} {e : ε} (hx : x ≠ .error e)
    (hf : ∀ a, x = .ok a → f a ≠ .error e) : (x >>= f) ≠ .error e := by
  cases x with
  | error e' => simpa [bind, Except.bind] using hx
  | ok a => exact hf a rfl

theorem ite_ne_error {c : Prop} [Decidable c] {x y : Except ε α} {e : ε} (hx : x ≠ .error e)
    (hy : y ≠ .error e) : (if c then x else y) ≠ .error e := by
  split
  · exact hx
  · exact hy

/-- If there is a result, it has the property. -/
def OnOk (P : α → Prop) (x : Except ε α) : Prop := ∀ a, x = .ok a → P a

instance (P : α → Prop) [DecidablePred P] : (x : Except ε α) → Decidable (OnOk P x)
  | .ok a => decidable_of_iff (P a) ⟨fun h _ ha => Except.ok.inj ha ▸ h, fun h => h a rfl⟩
  | .error _ => isTrue nofun

/-- A check of a result finds one. -/
theorem exists_ok_of_check {x : Except ε α} {p : α → Bool} (h : x.toOption.any p) :
    ∃ a, x = .ok a ∧ p a := by
  cases x with
  | error e => cases h
  | ok a => exact ⟨a, rfl, h⟩

variable {f : σ → α → Except ε σ}

/-- What every round of a loop keeps holds at its end. It may say something of the rounds that are
still to come. -/
theorem foldlM_invariant_rest (P : σ → List α → Prop)
    (hstep : ∀ s a l s', P s (a :: l) → f s a = .ok s' → P s' l) {l : List α} {s s' : σ}
    (hs : P s l) (h : l.foldlM f s = .ok s') : P s' [] := by
  induction l generalizing s with
  | nil =>
      obtain rfl : s = s' := Except.ok.inj h
      exact hs
  | cons a l ih =>
      rw [List.foldlM_cons, bind_eq_ok] at h
      obtain ⟨s₁, h₁, h⟩ := h
      exact ih (hstep s a l s₁ hs h₁) h

theorem foldlM_invariant (P : σ → Prop) (hstep : ∀ s a s', P s → f s a = .ok s' → P s')
    {l : List α} {s s' : σ} (hs : P s) (h : l.foldlM f s = .ok s') : P s' :=
  foldlM_invariant_rest (fun s _ => P s) (fun s a _ s' => hstep s a s') hs h

/-- An error that no round has, from states with the invariant, the loop has not. -/
theorem foldlM_ne_error {e : ε} (P : σ → Prop)
    (hstep : ∀ s a s', P s → f s a = .ok s' → P s') (hne : ∀ s a, P s → f s a ≠ .error e)
    {l : List α} {s : σ} (hs : P s) : l.foldlM f s ≠ .error e := by
  induction l generalizing s with
  | nil => intro h; cases h
  | cons a l ih =>
      rw [List.foldlM_cons]
      exact bind_ne_error (hne s a hs) fun s₁ h₁ => ih (hstep s a s₁ hs h₁)

theorem foldlM_concat (l : List α) (a : α) (s : σ) :
    (l ++ [a]).foldlM f s = l.foldlM f s >>= fun s' => f s' a := by
  rw [List.foldlM_append]
  simp

/-! ## Two computations side by side -/

/-- Both fail with the same error, or both succeed with related results. -/
def Alike (R : α → β → Prop) : Except ε α → Except ε β → Prop
  | .ok a, .ok b => R a b
  | .error e, .error e' => e = e'
  | _, _ => False

theorem Alike.mono {R S : α → β → Prop} {x : Except ε α} {y : Except ε β} (h : Alike R x y)
    (himp : ∀ a b, x = .ok a → y = .ok b → R a b → S a b) : Alike S x y := by
  cases x <;> cases y
  · exact h
  · exact h
  · exact h
  · exact himp _ _ rfl rfl h

theorem alike_refl {R : α → α → Prop} (hR : ∀ a, R a a) (x : Except ε α) : Alike R x x := by
  cases x
  · exact rfl
  · exact hR _

theorem eq_of_alike {x y : Except ε α} (h : Alike (· = ·) x y) : x = y := by
  cases x <;> cases y
  · exact congrArg _ h
  · exact h.elim
  · exact h.elim
  · exact congrArg _ h

/-- Where one side succeeds, so does the other. -/
theorem Alike.exists_ok {R : α → β → Prop} {x : Except ε α} {y : Except ε β} (h : Alike R x y)
    {a : α} (ha : x = .ok a) : ∃ b, y = .ok b ∧ R a b := by
  subst ha
  cases y
  · exact h.elim
  · exact ⟨_, rfl, h⟩

theorem Alike.bind {γ δ : Type u} {R : α → β → Prop} {S : γ → δ → Prop} {x : Except ε α}
    {y : Except ε β} {f : α → Except ε γ} {g : β → Except ε δ} (h : Alike R x y)
    (hfg : ∀ a b, x = .ok a → y = .ok b → R a b → Alike S (f a) (g b)) :
    Alike S (x >>= f) (y >>= g) := by
  cases x <;> cases y
  · exact h
  · exact h.elim
  · exact h.elim
  · exact hfg _ _ rfl rfl h

/-- Loops over the same list stay alike when their rounds do. -/
theorem Alike.foldlM {τ : Type u} {R : σ → τ → Prop} {f : σ → α → Except ε σ}
    {g : τ → α → Except ε τ} (hstep : ∀ s t a, R s t → Alike R (f s a) (g t a)) (l : List α)
    {s : σ} {t : τ} (h : R s t) : Alike R (l.foldlM f s) (l.foldlM g t) := by
  induction l generalizing s t with
  | nil => exact h
  | cons a l ih =>
      rw [List.foldlM_cons, List.foldlM_cons]
      exact (hstep s t a h).bind fun s' t' _ _ h' => ih h'

end Failure
