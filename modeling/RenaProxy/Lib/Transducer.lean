import Mathlib.Data.List.Basic

/-!
# Runs of a step that reads a symbol and puts out a list

`run` feeds a list to a step that may fail, `trace` to one that cannot. Both
collect what is put out. `run_simulates` transports a step-wise simulation of
the second by the first to whole runs, `run_induction` is the invariant rule.
`Agree` says that two runs end alike, and `Agree.run` compares runs step by step.
-/
namespace StreamTransducer

universe u
variable {ε σ τ α γ δ : Type u}

/-- Feed the symbols one by one, in order, collecting what is put out. -/
def run (step : σ → α → Except ε (σ × List γ)) : σ → List α → Except ε (σ × List γ)
  | s, [] => .ok (s, [])
  | s, a :: as => do
      let (s₁, out₁) ← step s a
      let (s₂, out₂) ← run step s₁ as
      pure (s₂, out₁ ++ out₂)

/-- The same for a step that cannot fail. -/
def trace (step : σ → α → σ × List γ) : σ → List α → σ × List γ
  | s, [] => (s, [])
  | s, a :: as =>
      let (s₁, out₁) := step s a
      let (s₂, out₂) := trace step s₁ as
      (s₂, out₁ ++ out₂)

section Run
variable {step : σ → α → Except ε (σ × List γ)} {s s₁ s₂ : σ} {out out₁ out₂ : List γ}

@[simp] theorem run_nil : run step s [] = .ok (s, []) := rfl

theorem run_cons (a : α) (as : List α) :
    run step s (a :: as) = step s a >>= fun first =>
      run step first.1 as >>= fun rest => pure (rest.1, first.2 ++ rest.2) := rfl

theorem run_append (xs ys : List α) :
    run step s (xs ++ ys) = run step s xs >>= fun first =>
      run step first.1 ys >>= fun rest => pure (rest.1, first.2 ++ rest.2) := by
  induction xs generalizing s with
  | nil =>
      cases h : run step s ys <;> simp [bind, Except.bind, pure, Except.pure, h]
  | cons a xs ih =>
      rw [List.cons_append, run_cons, run_cons]
      cases hs : step s a with
      | error e => rfl
      | ok r =>
          simp only [bind, Except.bind, ih]
          cases hx : run step r.1 xs with
          | error e => rfl
          | ok r' =>
              simp only [pure, Except.pure]
              cases run step r'.1 ys <;> simp [List.append_assoc]

theorem run_append_of_ok {xs ys : List α} (hx : run step s xs = .ok (s₁, out₁))
    (hy : run step s₁ ys = .ok (s₂, out₂)) :
    run step s (xs ++ ys) = .ok (s₂, out₁ ++ out₂) := by
  simp [run_append, hx, hy, bind, Except.bind, pure, Except.pure]

theorem run_singleton_of_ok {a : α} (h : step s a = .ok (s₁, out₁)) :
    run step s [a] = .ok (s₁, out₁) := by
  simp [run_cons, h, bind, Except.bind, pure, Except.pure]

/-- A property of the symbols read, the state and what was put out that the empty
run has and every step keeps is had by every run. -/
theorem run_induction (P : List α → σ → List γ → Prop) (h0 : P [] s [])
    (hstep : ∀ xs s₁ out₁ a s₂ out₂, P xs s₁ out₁ → step s₁ a = .ok (s₂, out₂) →
      P (xs ++ [a]) s₂ (out₁ ++ out₂)) :
    ∀ {xs s' out}, run step s xs = .ok (s', out) → P xs s' out := by
  suffices H : ∀ (xs pre : List α) (s₁ : σ) (out₁ : List γ), P pre s₁ out₁ →
      ∀ s' out', run step s₁ xs = .ok (s', out') → P (pre ++ xs) s' (out₁ ++ out') by
    intro xs s' out h
    simpa using H xs [] s [] h0 s' out h
  intro xs
  induction xs with
  | nil =>
      rintro pre s₁ out₁ hP s' out' h
      obtain ⟨rfl, rfl⟩ : s₁ = s' ∧ [] = out' := by simpa using h
      simpa using hP
  | cons a xs ih =>
      intro pre s₁ out₁ hP s' out' h
      rw [run_cons] at h
      cases hs : step s₁ a with
      | error e => simp [hs, bind, Except.bind] at h
      | ok r =>
          obtain ⟨s₂, out₂⟩ := r
          simp only [hs, bind, Except.bind] at h
          cases hr : run step s₂ xs with
          | error e => simp [hr] at h
          | ok r' =>
              obtain ⟨s₃, out₃⟩ := r'
              simp only [hr, pure, Except.pure, Except.ok.injEq, Prod.mk.injEq] at h
              obtain ⟨rfl, rfl⟩ := h
              have := ih (pre ++ [a]) s₂ (out₁ ++ out₂) (hstep _ _ _ _ _ _ hP hs) _ _ hr
              simpa [List.append_assoc] using this

end Run

/-- A run over words each of which is read by a run of its own. -/
theorem run_run {β : Type u} (step : σ → α → Except ε (σ × List γ)) (g : β → List α) (s : σ)
    (ws : List β) : run (fun s w => run step s (g w)) s ws = run step s (ws.flatMap g) := by
  induction ws generalizing s with
  | nil => rfl
  | cons w ws ih =>
      rw [run_cons, List.flatMap_cons, run_append]
      simp only [ih]

/-- Two computations end alike: with the same error, or in related states and with the
same put out. -/
inductive Agree (R : σ → τ → Prop) : Except ε (σ × List γ) → Except ε (τ × List γ) → Prop
  | error (e : ε) : Agree R (.error e) (.error e)
  | ok {s : σ} {t : τ} {out : List γ} (h : R s t) : Agree R (.ok (s, out)) (.ok (t, out))

namespace Agree
variable {β : Type u} {f : σ → α → Except ε (σ × List γ)} {g : τ → β → Except ε (τ × List γ)}
  {R Q : σ → τ → Prop} {s : σ} {t : τ} {xs xs' : List α} {ys ys' : List β}

theorem append (h : Agree R (StreamTransducer.run f s xs) (StreamTransducer.run g t ys))
    (hrest : ∀ s' t', R s' t' →
      Agree Q (StreamTransducer.run f s' xs') (StreamTransducer.run g t' ys')) :
    Agree Q (StreamTransducer.run f s (xs ++ xs')) (StreamTransducer.run g t (ys ++ ys')) := by
  rw [run_append, run_append]
  generalize StreamTransducer.run f s xs = x at h
  generalize StreamTransducer.run g t ys = y at h
  cases h with
  | error e => exact .error e
  | @ok s' t' out hR =>
      have hnext := hrest s' t' hR
      change Agree Q (StreamTransducer.run f s' xs' >>= _) (StreamTransducer.run g t' ys' >>= _)
      generalize StreamTransducer.run f s' xs' = x at hnext
      generalize StreamTransducer.run g t' ys' = y at hnext
      cases hnext with
      | error e => exact .error e
      | ok hQ => exact .ok hQ

theorem singleton {a : α} {b : β} (h : Agree R (f s a) (g t b)) :
    Agree R (StreamTransducer.run f s [a]) (StreamTransducer.run g t [b]) := by
  rw [run_cons, run_cons]
  generalize f s a = x at h
  generalize g t b = y at h
  cases h with
  | error e => exact .error e
  | ok hR => exact .ok hR

theorem mono {x : Except ε (σ × List γ)} {y : Except ε (τ × List γ)} (h : Agree R x y)
    (hRQ : ∀ s t, R s t → Q s t) : Agree Q x y := by
  cases h with
  | error e => exact .error e
  | ok hR => exact .ok (hRQ _ _ hR)

theorem and {x : Except ε (σ × List γ)} {y : Except ε (τ × List γ)} {P : σ → Prop} {P' : τ → Prop}
    (h : Agree R x y) (hx : ∀ s out, x = .ok (s, out) → P s) (hy : ∀ t out, y = .ok (t, out) → P' t) :
    Agree (fun s t => R s t ∧ P s ∧ P' t) x y := by
  cases h with
  | error e => exact .error e
  | ok hR => exact .ok ⟨hR, hx _ _ rfl, hy _ _ rfl⟩

/-- Runs agree if steps from related states on related symbols do. -/
theorem run {P : α → β → Prop} (hstep : ∀ s t a b, R s t → P a b → Agree R (f s a) (g t b))
    (hR : R s t) (h : List.Forall₂ P xs ys) :
    Agree R (StreamTransducer.run f s xs) (StreamTransducer.run g t ys) := by
  induction h generalizing s t with
  | nil => exact .ok hR
  | @cons a b xs ys hab _ ih =>
      rw [← List.singleton_append, ← List.singleton_append (l := ys)]
      exact (singleton (hstep s t a b hR hab)).append fun s' t' h' => ih h'

end Agree

section Trace
variable {step : σ → α → σ × List γ}

@[simp] theorem trace_nil (s : σ) : trace step s [] = (s, []) := rfl

theorem trace_cons (s : σ) (a : α) (as : List α) :
    trace step s (a :: as) =
      ((trace step (step s a).1 as).1, (step s a).2 ++ (trace step (step s a).1 as).2) := rfl

theorem trace_append (s : σ) (xs ys : List α) :
    trace step s (xs ++ ys) =
      ((trace step (trace step s xs).1 ys).1,
        (trace step s xs).2 ++ (trace step (trace step s xs).1 ys).2) := by
  induction xs generalizing s with
  | nil => simp
  | cons a xs ih => simp [trace_cons, ih, List.append_assoc]

theorem trace_concat (s : σ) (xs : List α) (a : α) :
    trace step s (xs ++ [a]) =
      ((step (trace step s xs).1 a).1, (trace step s xs).2 ++ (step (trace step s xs).1 a).2) := by
  simp [trace_append, trace_cons]

end Trace

/-- A step that follows another one under `R`, putting out the rendering of what the
other one puts out, does so over whole runs and never fails. -/
theorem run_simulates {f : σ → α → Except ε (σ × List γ)} {g : τ → α → τ × List δ}
    {R : σ → τ → Prop} {text : List δ → List γ} (htext : ∀ x y, text (x ++ y) = text x ++ text y)
    (h0 : text [] = [])
    (hstep : ∀ s t a, R s t → ∃ s', f s a = .ok (s', text (g t a).2) ∧ R s' (g t a).1)
    {s : σ} {t : τ} (hR : R s t) (xs : List α) :
    ∃ s', run f s xs = .ok (s', text (trace g t xs).2) ∧ R s' (trace g t xs).1 := by
  induction xs generalizing s t with
  | nil => exact ⟨s, by simp [h0], hR⟩
  | cons a xs ih =>
      obtain ⟨s₁, h₁, hR₁⟩ := hstep s t a hR
      obtain ⟨s₂, h₂, hR₂⟩ := ih hR₁
      refine ⟨s₂, ?_, hR₂⟩
      simp [run_cons, h₁, h₂, trace_cons, htext, bind, Except.bind, pure, Except.pure]

end StreamTransducer
