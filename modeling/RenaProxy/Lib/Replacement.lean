import RenaProxy.Lib.Pattern
import Mathlib.Data.List.Count

/-!
# What a substitution replaces

`found` are the stretches of a text that `sub` replaces, in their order. A proof about a
substitution goes through the text from one of them to the next, `replace_induction`: symbols are
counted (`countP_sub`), a text stays as it is if only what is put in is replaced (`sub_eq_self_iff`),
and it can be taken apart at a symbol that nothing replaces (`sub_append_sep`). Nothing is found again
of what symbols apart from a pattern were put in for (`not_search_sub`).
-/
namespace SequencePattern

universe u
variable {α : Type u}

namespace Pattern

section Found
variable (p : Pattern α)

/-- The stretches that are replaced, after the first symbols of the text, which are in one already. -/
def foundFrom : ℕ → List α → List (List α)
  | _, [] => []
  | n + 1, _ :: as => foundFrom n as
  | 0, a :: as =>
      if p.matchAt (a :: as) then
        (a :: as).take p.items.length :: foundFrom (p.items.length - 1) as
      else foundFrom 0 as

/-- The stretches that are replaced. -/
def found (t : List α) : List (List α) := p.foundFrom 0 t

end Found

section Spec
variable {p : Pattern α} {repl t x : List α} {a : α}

@[simp] theorem sub_nil : p.sub repl [] = [] := rfl

@[simp] theorem found_nil : p.found [] = [] := rfl

theorem found_cons_of_not (h : ¬ p.matchAt (a :: t)) : p.found (a :: t) = p.found t := by
  rw [found, foundFrom, if_neg h]
  rfl

theorem foundFrom_append (x t : List α) : p.foundFrom x.length (x ++ t) = p.found t := by
  induction x with
  | nil => rfl
  | cons a x ih => exact ih

theorem sub_append_of_match (hx : x.length = p.items.length) (hne : x ≠ []) (h : p.matchAt (x ++ t)) :
    p.sub repl (x ++ t) = repl ++ p.sub repl t := by
  have hfirst : p.sub repl ([] ++ (x ++ t)) = [] ++ (repl ++ p.sub repl t) :=
    sub_of_first hx hne h fun l l' hl hl' => by simp_all
  exact hfirst

theorem found_append_of_match (hx : x.length = p.items.length) (hne : x ≠ [])
    (h : p.matchAt (x ++ t)) : p.found (x ++ t) = x :: p.found t := by
  obtain ⟨a, x, rfl⟩ := List.exists_cons_of_ne_nil hne
  have hlen : p.items.length - 1 = x.length := by rw [← hx, List.length_cons, Nat.add_sub_cancel]
  rw [List.cons_append] at h ⊢
  rw [found, foundFrom, if_pos h, hlen, foundFrom_append, ← hx, ← List.cons_append, List.take_left]

theorem length_of_covers {items : List (α → Bool)} (h : Covers items x) : x.length = items.length :=
  h.length_eq.symm

/-- From one stretch to the next, symbol by symbol in between. -/
theorem replace_induction (hitems : p.items ≠ []) {motive : List α → Prop} (nil : motive [])
    (copy : ∀ a t, ¬ p.matchAt (a :: t) → motive t → motive (a :: t))
    (found : ∀ x t, x.length = p.items.length → x ≠ [] → p.matchAt (x ++ t) → motive t →
      motive (x ++ t)) (t : List α) : motive t := by
  induction h : t.length using Nat.strong_induction_on generalizing t with
  | h n ih =>
      cases t with
      | nil => exact nil
      | cons a t =>
          by_cases hmatch : p.matchAt (a :: t)
          · obtain ⟨x, r, heq, hx, -⟩ := matchAt_iff.mp hmatch
            have hlen := length_of_covers hx
            have hpos := List.length_pos_iff.mpr hitems
            rw [heq] at hmatch h ⊢
            refine found x r hlen (List.length_pos_iff.mp (by omega)) hmatch (ih r.length ?_ r rfl)
            rw [List.length_append] at h
            omega
          · exact copy a t hmatch (ih t.length (by rw [← h]; simp) t rfl)

/-- Symbols are taken out with what is replaced, and put in with what replaces it. -/
theorem countP_sub (hitems : p.items ≠ []) (repl : List α) (q : α → Bool) (t : List α) :
    (p.sub repl t).countP q + (p.found t).flatten.countP q =
      t.countP q + (p.found t).length * repl.countP q := by
  induction t using replace_induction hitems with
  | nil => simp
  | copy a t hnot ih =>
      rw [sub_cons_of_not hnot, found_cons_of_not hnot, List.countP_cons, List.countP_cons]
      omega
  | found x t hx hne h ih =>
      rw [sub_append_of_match hx hne h, found_append_of_match hx hne h, List.flatten_cons,
        List.length_cons, Nat.succ_mul]
      simp only [List.countP_append]
      omega

/-- What is put in is there, if it was there before. -/
theorem mem_sub_of_mem (hitems : p.items ≠ []) (hrepl : a ∈ repl) (h : a ∈ t) : a ∈ p.sub repl t := by
  induction t using replace_induction hitems with
  | nil => exact h
  | copy b t hnot ih =>
      rw [sub_cons_of_not hnot]
      rcases List.mem_cons.mp h with rfl | h
      · exact List.mem_cons_self
      · exact List.mem_cons_of_mem b (ih h)
  | found x t hx hne hmatch ih =>
      rw [sub_append_of_match hx hne hmatch]
      exact List.mem_append_left _ hrepl

theorem length_of_mem_found (hitems : p.items ≠ []) (h : x ∈ p.found t) :
    x.length = p.items.length := by
  induction t using replace_induction hitems with
  | nil => cases h
  | copy a t hnot ih => exact ih (by rwa [found_cons_of_not hnot] at h)
  | found y t hy hne hmatch ih =>
      rw [found_append_of_match hy hne hmatch] at h
      rcases List.mem_cons.mp h with rfl | h
      · exact hy
      · exact ih h

theorem length_sub (hitems : p.items ≠ []) (repl t : List α) :
    (p.sub repl t).length + (p.found t).length * p.items.length =
      t.length + (p.found t).length * repl.length := by
  have hflat : ((p.found t).map List.length).sum = (p.found t).length * p.items.length := by
    rw [List.map_congr_left fun x hx => length_of_mem_found hitems hx]
    simp
  have hcount := countP_sub hitems repl (fun _ => true) t
  simpa [hflat] using hcount

/-- **A text stays as it is** if and only if whatever is replaced in it is what is put in. -/
theorem sub_eq_self_iff (hitems : p.items ≠ []) : p.sub repl t = t ↔ ∀ x ∈ p.found t, x = repl := by
  constructor
  · intro h
    cases hfound : p.found t with
    | nil => simp
    | cons y ys =>
        -- the text keeps its length, so what is put in is as long as what it replaces
        have hlen := length_sub hitems repl t
        rw [h, hfound, List.length_cons] at hlen
        have hrepl : repl.length = p.items.length :=
          (Nat.eq_of_mul_eq_mul_left (Nat.succ_pos ys.length) (Nat.add_left_cancel hlen)).symm
        rw [← hfound]
        clear hfound hlen
        induction t using replace_induction hitems with
        | nil => simp
        | copy a t hnot ih =>
            rw [sub_cons_of_not hnot, List.cons.injEq] at h
            rw [found_cons_of_not hnot]
            exact ih h.2
        | found x t hx hne hmatch ih =>
            rw [sub_append_of_match hx hne hmatch] at h
            obtain ⟨hhead, htail⟩ := List.append_inj h (by omega)
            rw [found_append_of_match hx hne hmatch, List.forall_mem_cons]
            exact ⟨hhead.symm, ih htail⟩
  · intro h
    induction t using replace_induction hitems with
    | nil => rfl
    | copy a t hnot ih =>
        rw [found_cons_of_not hnot] at h
        rw [sub_cons_of_not hnot, ih h]
    | found x t hx hne hmatch ih =>
        rw [found_append_of_match hx hne hmatch, List.forall_mem_cons] at h
        rw [sub_append_of_match hx hne hmatch, ih h.2, h.1]

theorem found_eq_nil_of_not_search (h : ¬ p.search t) : p.found t = [] := by
  induction t with
  | nil => rfl
  | cons a t ih =>
      rw [found_cons_of_not fun hmatch => h (search_iff.mpr ⟨[], a :: t, rfl, hmatch⟩)]
      apply ih
      intro hsearch
      obtain ⟨pre, t', rfl, hmatch⟩ := search_iff.mp hsearch
      exact h (search_iff.mpr ⟨a :: pre, t', rfl, hmatch⟩)

theorem found_ne_nil_of_search (hitems : p.items ≠ []) (h : p.search t) : p.found t ≠ [] := by
  induction t using replace_induction hitems with
  | nil =>
      obtain ⟨pre, t', heq, hmatch⟩ := search_iff.mp h
      obtain ⟨-, rfl⟩ := List.append_eq_nil_iff.mp heq.symm
      obtain ⟨x, r, heq, hx, -⟩ := matchAt_iff.mp hmatch
      obtain ⟨rfl, -⟩ := List.append_eq_nil_iff.mp heq.symm
      exact absurd (List.forall₂_nil_right_iff.mp hx) hitems
  | copy a t hnot ih =>
      rw [found_cons_of_not hnot]
      obtain ⟨pre, t', heq, hmatch⟩ := search_iff.mp h
      cases pre with
      | nil => exact absurd (heq ▸ hmatch) hnot
      | cons b pre =>
          obtain ⟨-, rfl⟩ := List.cons.inj heq
          exact ih (search_iff.mpr ⟨pre, t', rfl, hmatch⟩)
  | found x t hx hne hmatch ih =>
      rw [found_append_of_match hx hne hmatch]
      exact List.cons_ne_nil _ _

/-! ## Texts that are taken apart -/

theorem matchAt_iff_covers (hx : x.length = p.items.length) :
    p.matchAt (x ++ t) ↔ Covers p.items x ∧ p.rest t := by
  constructor
  · intro h
    obtain ⟨y, r, heq, hy, hr⟩ := matchAt_iff.mp h
    obtain ⟨rfl, rfl⟩ := List.append_inj heq (by rw [hx, length_of_covers hy])
    exact ⟨hy, hr⟩
  · rintro ⟨hcovers, hr⟩
    exact matchAt_iff.mpr ⟨x, t, rfl, hcovers, hr⟩

theorem covers_of_matchAt (hx : x.length = p.items.length) (h : p.matchAt (x ++ t)) :
    Covers p.items x := ((matchAt_iff_covers hx).mp h).1

private theorem exists_of_append_eq {l r : List α} {s : α} (h : x ++ t = l ++ s :: r) (hs : s ∉ x) :
    ∃ m, l = x ++ m ∧ t = m ++ s :: r := by
  rcases List.append_eq_append_iff.mp h with ⟨m, hl, ht⟩ | ⟨m, hx, hr⟩
  · exact ⟨m, hl, ht⟩
  · cases m with
    | nil => exact ⟨[], by simpa using hx.symm, hr.symm⟩
    | cons b m =>
        obtain ⟨rfl, -⟩ := List.cons.inj hr
        exact absurd (hx ▸ List.mem_append_right l List.mem_cons_self) hs

/-- The pattern, in a text that goes on after the one that it is looked for in. -/
def before (p : Pattern α) (r : List α) : Pattern α := ⟨p.items, fun t => p.rest (t ++ r)⟩

theorem before_eq_self (hrest : ∀ t, p.rest t) (r : List α) : p.before r = p := by
  have hsame : (fun t => p.rest (t ++ r)) = p.rest := by
    funext t
    rw [hrest t, hrest (t ++ r)]
  rw [before, hsame]

theorem before_before (r y : List α) : (p.before r).before y = p.before (y ++ r) := by
  simp only [before, List.append_assoc]

theorem matchAt_before {r : List α} (hx : x.length = p.items.length) :
    (p.before r).matchAt (x ++ t) ↔ p.matchAt (x ++ (t ++ r)) := by
  rw [matchAt_iff_covers (p := p.before r) hx, matchAt_iff_covers hx]
  rfl

theorem not_mem_of_covers {items : List (α → Bool)} {s : α} (hs : ∀ f ∈ items, ¬ f s)
    (h : Covers items x) : s ∉ x := by
  induction h with
  | nil => exact List.not_mem_nil
  | @cons f a items x ha _ ih =>
      rw [List.forall_mem_cons] at hs
      rw [List.mem_cons, not_or]
      exact ⟨fun heq => hs.1 (heq ▸ ha), ih hs.2⟩

/-- **A text can be taken apart** at a symbol that no item is for. -/
theorem sub_append_sep (hitems : p.items ≠ []) (repl : List α) {l r : List α} {s : α}
    (hs : ∀ f ∈ p.items, ¬ f s) :
    p.sub repl (l ++ s :: r) = (p.before (s :: r)).sub repl l ++ s :: p.sub repl r := by
  have hnot : ∀ x t, Covers p.items x → x ++ t ≠ s :: r := by
    intro x t hx heq
    cases x with
    | nil => exact hitems (List.forall₂_nil_right_iff.mp hx)
    | cons a x =>
        obtain ⟨rfl, -⟩ := List.cons.inj heq
        exact not_mem_of_covers hs hx List.mem_cons_self
  induction l using replace_induction (p := p.before (s :: r)) hitems with
  | nil =>
      rw [List.nil_append, sub_cons_of_not, sub_nil, List.nil_append]
      intro hmatch
      obtain ⟨x, t, heq, hx, -⟩ := matchAt_iff.mp hmatch
      exact hnot x t hx heq.symm
  | copy a l hcopy ih =>
      rw [sub_cons_of_not hcopy, List.cons_append, List.cons_append, ← ih, sub_cons_of_not]
      intro hmatch
      obtain ⟨x, t, heq, hx, ht⟩ := matchAt_iff.mp hmatch
      rw [← List.cons_append] at heq
      obtain ⟨m, hl, rfl⟩ := exists_of_append_eq heq.symm (not_mem_of_covers hs hx)
      apply hcopy
      rw [hl, matchAt_iff_covers (p := p.before (s :: r)) (length_of_covers hx)]
      exact ⟨hx, ht⟩
  | found x l hx hne hmatch ih =>
      have hfound : p.matchAt (x ++ (l ++ s :: r)) := (matchAt_before (p := p) hx).mp hmatch
      rw [sub_append_of_match hx hne hmatch, List.append_assoc,
        sub_append_of_match (p := p) hx hne hfound, ih, List.append_assoc]

/-- Where nothing that is replaced reaches over a symbol, a text can be taken apart there. -/
theorem sub_append_cons (hitems : p.items ≠ []) (repl : List α) (hrest : ∀ t, p.rest t)
    {l r : List α} {s : α} (h : ∀ x ∈ p.found (l ++ s :: r), s ∉ x) :
    p.sub repl (l ++ s :: r) = p.sub repl l ++ s :: p.sub repl r ∧
      p.found (l ++ s :: r) = p.found l ++ p.found r := by
  have hlonger : ∀ x t t', p.matchAt (x ++ t) → x.length = p.items.length → p.matchAt (x ++ t') := by
    intro x t t' hmatch hx
    exact matchAt_iff.mpr ⟨x, t', rfl, covers_of_matchAt hx hmatch, hrest t'⟩
  induction heq : l ++ s :: r using replace_induction hitems generalizing l with
  | nil => simp at heq
  | copy a t hnot ih =>
      rw [heq, found_cons_of_not hnot] at h
      cases l with
      | nil =>
          obtain ⟨rfl, rfl⟩ := List.cons.inj heq
          exact ⟨sub_cons_of_not hnot, found_cons_of_not hnot⟩
      | cons b l =>
          obtain ⟨rfl, rfl⟩ := List.cons.inj heq
          obtain ⟨hsub, hfound⟩ := ih h rfl
          have hnot' : ¬ p.matchAt (b :: l) := by
            intro hmatch
            obtain ⟨x, m, hx, hcovers, -⟩ := matchAt_iff.mp hmatch
            refine hnot (matchAt_iff.mpr ⟨x, m ++ s :: r, ?_, hcovers, hrest _⟩)
            rw [← List.append_assoc, ← hx]
            rfl
          rw [sub_cons_of_not hnot, found_cons_of_not hnot, sub_cons_of_not hnot',
            found_cons_of_not hnot', hsub, hfound]
          exact ⟨rfl, rfl⟩
  | found x t hx hne hmatch ih =>
      rw [heq, found_append_of_match hx hne hmatch, List.forall_mem_cons] at h
      obtain ⟨m, rfl, rfl⟩ := exists_of_append_eq heq.symm h.1
      obtain ⟨hsub, hfound⟩ := ih h.2 rfl
      have hmatch' := hlonger x _ m hmatch hx
      rw [sub_append_of_match hx hne hmatch, found_append_of_match hx hne hmatch,
        sub_append_of_match hx hne hmatch', found_append_of_match hx hne hmatch', hsub, hfound]
      exact ⟨by rw [List.append_assoc], rfl⟩

/-! ## Symbols apart from a pattern -/

section Apart

/-- The symbols are what the items say, as far as both go. -/
def agree (items : List (α → Bool)) (x : List α) : Bool := (items.zip x).all fun fa => fa.1 fa.2

/-- Wherever the pattern and the symbols are laid over each other, they disagree. -/
def Apart (p : Pattern α) (r : List α) : Prop :=
  (∀ k < r.length, ¬ agree p.items (r.drop k)) ∧ ∀ k < p.items.length, ¬ agree (p.items.drop k) r

/-- A match that may stand before the symbols may stand before anything else. -/
def Loose (p : Pattern α) (r : List α) : Prop := ∀ m t y, p.rest (m ++ (r ++ t)) → p.rest (m ++ y)

variable {q : Pattern α} {l r a b : List α}

theorem agree_of_covers {items : List (α → Bool)} (hx : Covers items x) (h : r ++ t = x ++ b) :
    agree items r := by
  induction hx generalizing r with
  | nil => rfl
  | @cons f c items x hc _ ih =>
      cases r with
      | nil => rfl
      | cons d r =>
          obtain ⟨rfl, htail⟩ := List.cons.inj h
          rw [agree, List.zip_cons_cons, List.all_cons, Bool.and_eq_true]
          exact ⟨hc, ih htail⟩

theorem covers_drop {items : List (α → Bool)} (h : Covers items (l ++ x)) :
    Covers (items.drop l.length) x := by
  have hdrop := List.forall₂_drop l.length h
  rwa [List.drop_left] at hdrop

/-- What a pattern matches around symbols apart from it is before them or after them. -/
theorem Apart.split (hapart : p.Apart r) (hx : Covers p.items x) (h : l ++ (r ++ t) = a ++ (x ++ b)) :
    (∃ m, l = a ++ (x ++ m) ∧ b = m ++ (r ++ t)) ∨ ∃ m, a = l ++ (r ++ m) ∧ t = m ++ (x ++ b) := by
  rcases List.append_eq_append_iff.mp h with ⟨m, rfl, hm⟩ | ⟨m, rfl, hm⟩
  · rcases List.append_eq_append_iff.mp hm with ⟨m', rfl, rfl⟩ | ⟨m', rfl, hm'⟩
    · exact .inr ⟨m', rfl, rfl⟩
    · cases m' with
      | nil =>
          refine .inr ⟨[], ?_, ?_⟩
          · simp
          · simpa using hm'.symm
      | cons c m' =>
          refine absurd (agree_of_covers hx hm'.symm) ?_
          simpa using hapart.1 m.length (by simp)
  · rcases List.append_eq_append_iff.mp hm with ⟨m', rfl, rfl⟩ | ⟨m', rfl, hm'⟩
    · exact .inl ⟨m', rfl, rfl⟩
    · cases m' with
      | nil =>
          refine .inl ⟨[], ?_, ?_⟩
          · simp
          · simpa using hm'.symm
      | cons c m' =>
          have hlen := length_of_covers hx
          rw [List.length_append, List.length_cons] at hlen
          exact absurd (agree_of_covers (covers_drop hx) hm') (hapart.2 m.length (by omega))

theorem search_iff_covers : p.search t ↔ ∃ a x b, t = a ++ (x ++ b) ∧ Covers p.items x ∧ p.rest b := by
  rw [search_iff]
  constructor
  · rintro ⟨a, t', rfl, h⟩
    obtain ⟨x, b, rfl, hx, hb⟩ := matchAt_iff.mp h
    exact ⟨a, x, b, rfl, hx, hb⟩
  · rintro ⟨a, x, b, rfl, hx, hb⟩
    exact ⟨a, x ++ b, rfl, matchAt_iff.mpr ⟨x, b, rfl, hx, hb⟩⟩

/-- What is found after a substitution by symbols apart from the pattern was found before it. -/
theorem search_sub_of_apart (hitems : q.items ≠ []) (hapart : p.Apart repl) (hloose : p.Loose repl)
    (h : p.search (q.sub repl t)) : p.search t := by
  suffices hgap : ∀ l, p.search (l ++ q.sub repl t) → p.search (l ++ t) from hgap [] h
  clear h
  induction t using replace_induction hitems with
  | nil => exact fun l h => h
  | copy a t hnot ih =>
      intro l h
      rw [sub_cons_of_not hnot] at h
      have hstep := ih (l ++ [a])
      simp only [List.append_assoc, List.singleton_append] at hstep
      exact hstep h
  | found x t hx hne hmatch ih =>
      intro l h
      rw [sub_append_of_match hx hne hmatch] at h
      obtain ⟨a, y, b, heq, hy, hb⟩ := search_iff_covers.mp h
      rw [search_iff_covers]
      rcases hapart.split hy heq with ⟨m, rfl, rfl⟩ | ⟨m, rfl, ht⟩
      · exact ⟨a, y, m ++ (x ++ t), by simp, hy, hloose _ _ _ hb⟩
      · obtain ⟨a', y', b', rfl, hy', hb'⟩ :=
          search_iff_covers.mp (ih [] (search_iff_covers.mpr ⟨m, y, b, ht, hy, hb⟩))
        exact ⟨l ++ (x ++ a'), y', b', by simp, hy', hb'⟩

/-- **Nothing is found again** of what symbols apart from the pattern were put in for. -/
theorem not_search_sub (hitems : p.items ≠ []) (hapart : p.Apart repl) (hloose : p.Loose repl) :
    ¬ p.search (p.sub repl t) := by
  suffices hgap : ∀ l, (∀ y z, l = y ++ z → z ≠ [] → ¬ p.matchAt (z ++ t)) →
      ¬ p.search (l ++ p.sub repl t) from hgap [] (by simp)
  have hne : ∀ {x}, Covers p.items x → x ≠ [] := by
    rintro x hx rfl
    exact hitems (List.forall₂_nil_right_iff.mp hx)
  induction t using replace_induction hitems with
  | nil =>
      intro l hl h
      rw [sub_nil, List.append_nil] at h
      obtain ⟨a, x, b, rfl, hx, hb⟩ := search_iff_covers.mp h
      refine hl a (x ++ b) rfl (by simp [hne hx]) ?_
      exact matchAt_iff.mpr ⟨x, b, List.append_nil _, hx, hb⟩
  | copy a t hnot ih =>
      intro l hl h
      rw [sub_cons_of_not hnot, ← List.singleton_append, ← List.append_assoc] at h
      refine ih (l ++ [a]) ?_ h
      intro y z hyz hz
      obtain ⟨z, c, rfl⟩ := List.eq_nil_or_concat z |>.resolve_left hz
      rw [List.concat_eq_append, ← List.append_assoc] at hyz
      obtain ⟨hl', hc⟩ := List.append_inj' hyz rfl
      obtain rfl := List.singleton_inj.mp hc
      rw [List.concat_eq_append, List.append_assoc]
      rcases eq_or_ne z [] with rfl | hz'
      · exact hnot
      · exact hl y z hl' hz'
  | found x t hx hxne hmatch ih =>
      intro l hl h
      rw [sub_append_of_match hx hxne hmatch] at h
      obtain ⟨a, y, b, heq, hy, hb⟩ := search_iff_covers.mp h
      rcases hapart.split hy heq with ⟨m, rfl, rfl⟩ | ⟨m, rfl, ht⟩
      · refine hl a (y ++ m) rfl (by simp [hne hy]) ?_
        exact matchAt_iff.mpr ⟨y, m ++ (x ++ t), List.append_assoc _ _ _, hy, hloose _ _ _ hb⟩
      · exact ih [] (by simp) (search_iff_covers.mpr ⟨m, y, b, ht, hy, hb⟩)

end Apart

end Spec

end Pattern

end SequencePattern
