import Mathlib.Algebra.Order.BigOperators.Group.List
import Mathlib.Data.Option.Basic

/-!
# Crews of workers

The workers of a crew have a phase each and share a state. A step is one worker's, which its phase,
the shared state and a label decide; the steps come in any order.

A quantity that is summed over the shared state and the phases changes along a run by what each step
adds and takes away, `amount_run`. A crew whose workers cannot make a step is stuck, and if each step
makes such a quantity smaller every crew gets there, `exists_stuck`.
-/
namespace Crews

universe u v w z
variable {σ : Type u} {φ : Type v} {α : Type w}

/-- Workers, and what they share. -/
structure Crew (σ : Type u) (φ : Type v) where
  shared : σ
  workers : List φ

variable (act : σ → φ → α → Option (σ × φ))

/-- The step of a worker, by its number. -/
def step (c : Crew σ φ) (x : ℕ × α) : Option (Crew σ φ) :=
  (c.workers[x.1]?).bind fun p =>
    (act c.shared p x.2).map fun r => ⟨r.1, c.workers.set x.1 r.2⟩

def run (c : Crew σ φ) (xs : List (ℕ × α)) : Option (Crew σ φ) := xs.foldlM (step act) c

/-- No worker can make a step of this kind. -/
def Stuck (own : α → Prop) (c : Crew σ φ) : Prop := ∀ x, own x.2 → step act c x = none

section Step
variable {act} {c c' : Crew σ φ} {x : ℕ × α} {xs ys : List (ℕ × α)} {own : α → Prop}
  {before after : List φ} {p p' : φ} {s' : σ} {a : α}

/-- A step is one worker's: the others keep their phases. -/
theorem step_eq_some_iff : step act c x = some c' ↔ ∃ before p after s' p',
    c.workers = before ++ p :: after ∧ before.length = x.1 ∧
      act c.shared p x.2 = some (s', p') ∧ c' = ⟨s', before ++ p' :: after⟩ := by
  constructor
  · intro h
    obtain ⟨p, hp, h⟩ := Option.bind_eq_some_iff.mp h
    obtain ⟨r, hr, rfl⟩ := Option.map_eq_some_iff.mp h
    obtain ⟨hlt, hget⟩ := List.getElem?_eq_some_iff.mp hp
    refine ⟨c.workers.take x.1, p, c.workers.drop (x.1 + 1), r.1, r.2, ?_, ?_, hr, ?_⟩
    · rw [← hget, List.getElem_cons_drop, List.take_append_drop]
    · exact List.length_take_of_le (Nat.le_of_lt hlt)
    · rw [List.set_eq_take_append_cons_drop, if_pos hlt]
  · rintro ⟨before, p, after, s', p', hworkers, hlength, hact, rfl⟩
    rw [step, hworkers, ← hlength, List.getElem?_append_right (Nat.le_refl _), Nat.sub_self,
      List.getElem?_cons_zero, Option.bind_some, hact, Option.map_some,
      List.set_append_right _ _ (Nat.le_refl _), Nat.sub_self, List.set_cons_zero]

theorem stuck_iff : Stuck act own c ↔ ∀ p ∈ c.workers, ∀ a, own a → act c.shared p a = none := by
  constructor
  · intro h p hp a ha
    obtain ⟨before, after, hworkers⟩ := List.append_of_mem hp
    cases hact : act c.shared p a with
    | none => rfl
    | some r =>
        have hstep := step_eq_some_iff (x := (before.length, a)).mpr
          ⟨before, p, after, r.1, r.2, hworkers, rfl, hact, rfl⟩
        cases (h (before.length, a) ha).symm.trans hstep
  · intro h x hx
    cases hstep : step act c x with
    | none => rfl
    | some c' =>
        obtain ⟨before, p, after, s', p', hworkers, -, hact, -⟩ := step_eq_some_iff.mp hstep
        have hp : p ∈ c.workers := hworkers ▸ List.mem_append_right _ List.mem_cons_self
        cases (h p hp x.2 hx).symm.trans hact

theorem run_nil : run act c [] = some c := rfl

theorem run_cons : run act c (x :: xs) = (step act c x).bind fun c' => run act c' xs := rfl

theorem run_append : run act c (xs ++ ys) = (run act c xs).bind fun c' => run act c' ys :=
  List.foldlM_append

/-- **Invariants.** What each step keeps, a run keeps. -/
theorem invariant_run {I : Crew σ φ → Prop} (hstep : ∀ c x c', I c → step act c x = some c' → I c')
    (hI : I c) (h : run act c xs = some c') : I c' := by
  induction xs generalizing c with
  | nil => exact Option.some.inj h ▸ hI
  | cons x xs ih =>
      obtain ⟨c₁, hc₁, h⟩ := Option.bind_eq_some_iff.mp h
      exact ih (hstep c x c₁ hI hc₁) h

theorem forall_set {P : φ → Prop} (h : ∀ q ∈ before ++ p :: after, P q) (hp : P p') :
    ∀ q ∈ before ++ p' :: after, P q := by
  intro q hq
  rcases List.mem_append.mp hq with hq | hq
  · exact h q (List.mem_append_left _ hq)
  · rcases List.mem_cons.mp hq with rfl | hq
    · exact hp
    · exact h q (List.mem_append_right _ (List.mem_cons_of_mem p hq))

theorem exists_set {P : φ → Prop} (h : ∃ q ∈ before ++ p :: after, P q) (hp : P p → P p') :
    ∃ q ∈ before ++ p' :: after, P q := by
  obtain ⟨q, hq, hP⟩ := h
  rcases List.mem_append.mp hq with hq | hq
  · exact ⟨q, List.mem_append_left _ hq, hP⟩
  · rcases List.mem_cons.mp hq with rfl | hq
    · exact ⟨p', List.mem_append_right _ List.mem_cons_self, hp hP⟩
    · exact ⟨q, List.mem_append_right _ (List.mem_cons_of_mem p' hq), hP⟩

end Step

/-! ## Quantities -/

section Amount
variable {M : Type z} [AddCommMonoid M] {act} {f : σ → M} {g : φ → M} {gain loss : α → M}
  {c c' : Crew σ φ} {x : ℕ × α} {xs : List (ℕ × α)}

/-- A quantity of the shared state and of each phase. -/
def amount (f : σ → M) (g : φ → M) (c : Crew σ φ) : M := f c.shared + (c.workers.map g).sum

theorem amount_mk (s : σ) (before after : List φ) (p : φ) :
    amount f g ⟨s, before ++ p :: after⟩ =
      f s + g p + ((before.map g).sum + (after.map g).sum) := by
  rw [amount, List.map_append, List.sum_append, List.map_cons, List.sum_cons, add_assoc,
    add_left_comm (g p)]

/-- A step changes what the shared state and the worker that makes it have of the quantity. -/
theorem amount_cases (f : σ → M) (g : φ → M) (h : step act c x = some c') :
    ∃ p s' p' rest, p ∈ c.workers ∧ act c.shared p x.2 = some (s', p') ∧
      amount f g c = f c.shared + g p + rest ∧ amount f g c' = f s' + g p' + rest := by
  obtain ⟨before, p, after, s', p', hworkers, -, hx, rfl⟩ := step_eq_some_iff.mp h
  refine ⟨p, s', p', _, hworkers ▸ List.mem_append_right _ List.mem_cons_self, hx, ?_,
    amount_mk _ _ _ _⟩
  rw [← amount_mk, ← hworkers]

/-- What a step adds and takes away. -/
theorem amount_step {d e : M} (h : step act c x = some c')
    (hact : ∀ p s' p', p ∈ c.workers → act c.shared p x.2 = some (s', p') →
      f s' + g p' + e = f c.shared + g p + d) : amount f g c' + e = amount f g c + d := by
  obtain ⟨p, s', p', rest, hp, hx, hbefore, hafter⟩ := amount_cases f g h
  rw [hbefore, hafter, add_right_comm, hact p s' p' hp hx, add_right_comm]

/-- **The books of a run.** -/
theorem amount_run {I : Crew σ φ → Prop}
    (hstep : ∀ c x c', I c → step act c x = some c' → I c') (hI : I c)
    (hact : ∀ c p a s' p', I c → p ∈ c.workers → act c.shared p a = some (s', p') →
      f s' + g p' + loss a = f c.shared + g p + gain a)
    (h : run act c xs = some c') :
    amount f g c' + (xs.map fun x => loss x.2).sum =
      amount f g c + (xs.map fun x => gain x.2).sum := by
  induction xs generalizing c with
  | nil =>
      obtain rfl := Option.some.inj h
      rfl
  | cons x xs ih =>
      obtain ⟨c₁, hc₁, h⟩ := Option.bind_eq_some_iff.mp h
      have hfirst := amount_step hc₁ fun p s' p' hp => hact c p x.2 s' p' hI hp
      rw [List.map_cons, List.sum_cons, List.map_cons, List.sum_cons, add_left_comm,
        ih (hstep c x c₁ hI hc₁) h, ← add_assoc, ← add_assoc, add_comm (loss x.2), hfirst]

end Amount

/-! ## Coming to an end -/

section End
variable {act} {f : σ → ℕ} {g : φ → ℕ} {c c' : Crew σ φ} {x : ℕ × α} {own : α → Prop}

theorem amount_lt (h : step act c x = some c')
    (hact : ∀ p s' p', p ∈ c.workers → act c.shared p x.2 = some (s', p') →
      f s' + g p' < f c.shared + g p) : amount f g c' < amount f g c := by
  obtain ⟨p, s', p', rest, hp, hx, hbefore, hafter⟩ := amount_cases f g h
  rw [hbefore, hafter]
  exact Nat.add_lt_add_right (hact p s' p' hp hx) _

/-- **Coming to an end.** If each step makes a quantity smaller, steps lead to where there are no
more. -/
theorem exists_stuck {I : Crew σ φ → Prop}
    (hstep : ∀ c x c', I c → step act c x = some c' → I c')
    (hact : ∀ c p a s' p', I c → own a → p ∈ c.workers → act c.shared p a = some (s', p') →
      f s' + g p' < f c.shared + g p) (hI : I c) :
    ∃ xs c', (∀ x ∈ xs, own x.2) ∧ run act c xs = some c' ∧ Stuck act own c' := by
  induction hn : amount f g c using Nat.strongRecOn generalizing c with
  | ind n ih =>
      by_cases hstuck : Stuck act own c
      · exact ⟨[], c, List.forall_mem_nil _, rfl, hstuck⟩
      · obtain ⟨x, hx⟩ := not_forall.mp hstuck
        obtain ⟨hown, hx⟩ := Classical.not_imp.mp hx
        obtain ⟨c₁, hc₁⟩ := Option.ne_none_iff_exists'.mp hx
        have hlt := amount_lt (f := f) (g := g) hc₁ fun p s' p' hp =>
          hact c p x.2 s' p' hI hown hp
        obtain ⟨xs, c', hxs, hrun, hstuck'⟩ := ih _ (hn ▸ hlt) (hstep c x c₁ hI hc₁) rfl
        refine ⟨x :: xs, c', List.forall_mem_cons.mpr ⟨hown, hxs⟩, ?_, hstuck'⟩
        rw [run_cons, hc₁, Option.bind_some, hrun]

end End

end Crews
