import RenaProxy.Lib.Transducer

/-!
# Machines described by what has come

What a machine does with a symbol is said of the symbols before it, the last of them first:
`permitted` says that it does not fail there, `answer` what it puts out. `Describes` connects
this with the step of the machine, symbol by symbol; `run_eq_ok_iff` says that whole runs are then
as described.
-/
namespace StreamTransducer

universe u
variable {ε σ α γ : Type u}

/-- Every symbol is permitted after those before it. -/
def Obeys (permitted : List α → α → Prop) : List α → List α → Prop
  | _, [] => True
  | past, a :: as => permitted past a ∧ Obeys permitted (a :: past) as

/-- What is put out for the symbols, one after the other. -/
def transcript (answer : List α → α → List γ) : List α → List α → List γ
  | _, [] => []
  | past, a :: as => answer past a ++ transcript answer (a :: past) as

/-- The states that a past may lead to, and what a step does from them. -/
structure Describes (step : σ → α → Except ε (σ × List γ)) (permitted : List α → α → Prop)
    (answer : List α → α → List γ) (Reached : List α → σ → Prop) : Prop where
  ok : ∀ {past s a}, Reached past s → permitted past a →
    ∃ s', step s a = .ok (s', answer past a) ∧ Reached (a :: past) s'
  error : ∀ {past s a}, Reached past s → ¬ permitted past a → ∃ e, step s a = .error e

variable {permitted : List α → α → Prop} {answer : List α → α → List γ} {past as bs : List α}

instance decidableObeys [∀ past a, Decidable (permitted past a)] :
    ∀ (as past : List α), Decidable (Obeys permitted past as)
  | [], _ => isTrue trivial
  | a :: as, past =>
      have := decidableObeys as
      inferInstanceAs (Decidable (permitted past a ∧ Obeys permitted (a :: past) as))

theorem obeys_append :
    Obeys permitted past (as ++ bs) ↔
      Obeys permitted past as ∧ Obeys permitted (as.reverse ++ past) bs := by
  induction as generalizing past with
  | nil => simp [Obeys]
  | cons a as ih =>
      rw [List.cons_append, Obeys, Obeys, ih, and_assoc, List.reverse_cons, List.append_assoc,
        List.singleton_append]

/-- What every permitted symbol keeps of the past holds of the whole of it. -/
theorem Obeys.invariant {P : List α → Prop}
    (hstep : ∀ past a, P past → permitted past a → P (a :: past)) (hP : P past)
    (h : Obeys permitted past as) : P (as.reverse ++ past) := by
  induction as generalizing past with
  | nil => exact hP
  | cons a as ih =>
      rw [List.reverse_cons, List.append_assoc]
      exact ih (hstep past a hP h.1) h.2

theorem transcript_append : transcript answer past (as ++ bs) =
    transcript answer past as ++ transcript answer (as.reverse ++ past) bs := by
  induction as generalizing past with
  | nil => rfl
  | cons a as ih =>
      rw [List.cons_append, transcript, transcript, ih, List.append_assoc, List.reverse_cons,
        List.append_assoc, List.singleton_append]

/-- Of any two things put out, the first before the second: it is enough that it holds within an
answer, and between what was put out once and what may be after it. `Q past x` is what is known of
the symbols before after `x` was put out. -/
theorem pairwise_transcript {R : γ → γ → Prop} {Q : List α → γ → Prop}
    (hwithin : ∀ past a, permitted past a → (answer past a).Pairwise R)
    (hput : ∀ past a x, permitted past a → x ∈ answer past a → Q (a :: past) x)
    (hkeep : ∀ past a x, Q past x → Q (a :: past) x)
    (hlater : ∀ past a x y, Q past x → permitted past a → y ∈ answer past a → R x y)
    (h : Obeys permitted past as) : (transcript answer past as).Pairwise R := by
  have hfrom : ∀ (as past : List α) (x : γ), Q past x → Obeys permitted past as →
      ∀ y ∈ transcript answer past as, R x y := by
    intro as
    induction as with
    | nil => exact fun past x _ _ y hy => absurd hy List.not_mem_nil
    | cons a as ih =>
        intro past x hx h y hy
        rcases List.mem_append.mp hy with hy | hy
        · exact hlater past a x y hx h.1 hy
        · exact ih (a :: past) x (hkeep past a x hx) h.2 y hy
  induction as generalizing past with
  | nil => exact .nil
  | cons a as ih =>
      refine List.pairwise_append.mpr ⟨hwithin past a h.1, ih h.2, ?_⟩
      intro x hx y hy
      exact hfrom as (a :: past) x (hput past a x h.1 hx) h.2 y hy

section Run
variable {step : σ → α → Except ε (σ × List γ)} {Reached : List α → σ → Prop} {s : σ} {out : List γ}

/-- **A run that obeys succeeds**, with the answers described, and leads to a state described. -/
theorem Describes.run_of_obeys (D : Describes step permitted answer Reached) (hs : Reached past s)
    (h : Obeys permitted past as) :
    ∃ s', run step s as = .ok (s', transcript answer past as) ∧
      Reached (as.reverse ++ past) s' := by
  induction as generalizing s past with
  | nil => exact ⟨s, rfl, hs⟩
  | cons a as ih =>
      obtain ⟨s₁, hstep, hs₁⟩ := D.ok hs h.1
      obtain ⟨s', hrun, hs'⟩ := ih hs₁ h.2
      refine ⟨s', ?_, by simpa using hs'⟩
      rw [run_cons, hstep]
      simp only [bind, Except.bind, hrun]
      rfl

/-- A run that succeeds obeys. -/
theorem Describes.obeys_of_run (D : Describes step permitted answer Reached) (hs : Reached past s)
    {s' : σ} (h : run step s as = .ok (s', out)) : Obeys permitted past as := by
  induction as generalizing s s' past out with
  | nil => trivial
  | cons a as ih =>
      by_cases ha : permitted past a
      · obtain ⟨s₁, hstep, hs₁⟩ := D.ok hs ha
        rw [run_cons, hstep] at h
        simp only [bind, Except.bind] at h
        cases hrest : run step s₁ as with
        | error e => simp [hrest] at h
        | ok rest =>
            obtain ⟨s₂, out₂⟩ := rest
            exact ⟨ha, ih hs₁ hrest⟩
      · obtain ⟨e, hstep⟩ := D.error hs ha
        rw [run_cons, hstep] at h
        cases h

/-- **Whole runs are as described**: which succeed, and what they put out. -/
theorem Describes.run_eq_ok_iff (D : Describes step permitted answer Reached)
    (hs : Reached past s) :
    (∃ s', run step s as = .ok (s', out)) ↔
      Obeys permitted past as ∧ out = transcript answer past as := by
  constructor
  · rintro ⟨s', h⟩
    have hobeys := D.obeys_of_run hs h
    obtain ⟨s'', hrun, -⟩ := D.run_of_obeys hs hobeys
    rw [hrun] at h
    obtain ⟨-, rfl⟩ := Prod.mk.inj (Except.ok.inj h)
    exact ⟨hobeys, rfl⟩
  · rintro ⟨hobeys, rfl⟩
    obtain ⟨s', hrun, -⟩ := D.run_of_obeys hs hobeys
    exact ⟨s', hrun⟩

/-- The state after a run is one that its past may lead to. -/
theorem Describes.reached_of_run (D : Describes step permitted answer Reached) (hs : Reached past s)
    {s' : σ} (h : run step s as = .ok (s', out)) : Reached (as.reverse ++ past) s' := by
  obtain ⟨s'', hrun, hs''⟩ := D.run_of_obeys hs (D.obeys_of_run hs h)
  rw [hrun] at h
  obtain ⟨rfl, -⟩ := Prod.mk.inj (Except.ok.inj h)
  exact hs''

end Run

end StreamTransducer
