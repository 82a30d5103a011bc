import RenaProxy.Lib.Cuts

/-!
# Texts whose keys are delimited

In a settled text all suffixes die right after a key. `Settled.emit_eq_reference`: the
matcher then puts out the text in which the longest key at every place where one ends
is swapped. When every key is followed by a symbol that no key contains, the text is
settled, and falls apart around each key.
-/
namespace StreamMatcher
open StreamRewriting StreamTransducer

universe u
variable {α : Type u}

/-- The longest key that ends at place `e`. -/
def endingAt (L : Lexicon α) (u : List α) (e : ℕ) : Option (List α) := (u.take e).tails.find? L.key

/-- The symbol at place `i` belongs to the longest key that ends somewhere. -/
def covered (L : Lexicon α) (u : List α) (i : ℕ) : Bool :=
  (List.range (u.length + 1)).any fun e =>
    match endingAt L u e with
    | some k => decide (e - k.length ≤ i) && decide (i < e)
    | none => false

/-- What becomes of the symbol at place `i`: it is copied unless a swapped key
covers it, and if a key ends with it the replacement follows. -/
def cell (L : Lexicon α) (f : α → α) (repl : List α → List α) (t : List α) (i : ℕ) : List α :=
  (if covered L (t.map f) i then [] else t[i]?.toList) ++
    ((endingAt L (t.map f) (i + 1)).map repl).getD []

/-- The text with the longest key at every place where one ends swapped. -/
def reference (L : Lexicon α) (f : α → α) (repl : List α → List α) (t : List α) : List α :=
  (List.range t.length).flatMap (cell L f repl t)

/-- Every key is followed by a symbol that occurs in no beginning of a key. -/
def Delimited (L : Lexicon α) (u : List α) : Prop :=
  ∀ b e, Occurs L u b e → ∃ c, u[e]? = some c ∧ ∀ w, L.pre w → c ∉ w

/-- Every key is followed by a symbol through which nothing that began before lives. -/
def Settled (L : Lexicon α) (u : List α) : Prop :=
  ∀ b e, Occurs L u b e → e < u.length ∧ Quiet L u e

section Ending
variable {L : Lexicon α} {u : List α}

private theorem find_tails (p : List α → Bool) (w : List α) :
    match w.tails.find? p with
    | none => ∀ v, v <:+ w → ¬ p v
    | some k => k <:+ w ∧ p k ∧ ∀ v, v <:+ w → p v → v.length ≤ k.length := by
  induction w with
  | nil =>
      by_cases hp : p []
      · simp [hp]
      · simp [hp]
  | cons a w ih =>
      rw [List.tails_cons]
      by_cases hp : p (a :: w)
      · simp only [List.find?_cons_of_pos hp]
        exact ⟨List.suffix_refl _, hp, fun v hv _ => hv.length_le⟩
      · rw [List.find?_cons_of_neg hp]
        have hsuf : ∀ v, v <:+ a :: w → p v → v <:+ w := by
          intro v hv hpv
          rcases List.suffix_cons_iff.mp hv with rfl | h
          · exact absurd hpv hp
          · exact h
        cases hf : w.tails.find? p with
        | none =>
            rw [hf] at ih
            exact fun v hv hpv => ih v (hsuf v hv hpv) hpv
        | some k =>
            rw [hf] at ih
            exact ⟨ih.1.trans (List.suffix_cons a w), ih.2.1,
              fun v hv hpv => ih.2.2 v (hsuf v hv hpv) hpv⟩

private theorem key_slice_iff {e b : ℕ} (he : e ≤ u.length) (hb : b ≤ e) :
    L.key (slice u b e) ↔ Occurs L u b e := by
  constructor
  · intro h
    have := L.two_le_of_key h
    rw [length_slice he] at this
    exact ⟨by omega, he, h⟩
  · exact fun h => h.2.2

theorem endingAt_eq_none {e : ℕ} (he : e ≤ u.length) :
    endingAt L u e = none ↔ ∀ b, ¬ Occurs L u b e := by
  have h := find_tails L.key (u.take e)
  rw [endingAt]
  constructor
  · intro hnone b hocc
    rw [hnone] at h
    exact h _ (List.drop_suffix _ _) hocc.2.2
  · intro hno
    cases hf : (u.take e).tails.find? L.key with
    | none => rfl
    | some k =>
        rw [hf] at h
        obtain ⟨b, hb, rfl⟩ := (mem_tails_take he).mp ((List.mem_tails ..).mpr h.1)
        exact absurd ((key_slice_iff he hb).mp h.2.1) (hno b)

theorem endingAt_eq_some {e : ℕ} (he : e ≤ u.length) {k : List α} :
    endingAt L u e = some k ↔
      ∃ b, Occurs L u b e ∧ k = slice u b e ∧ ∀ b', Occurs L u b' e → b ≤ b' := by
  have h := find_tails L.key (u.take e)
  rw [endingAt]
  constructor
  · intro hsome
    rw [hsome] at h
    obtain ⟨b, hb, rfl⟩ := (mem_tails_take he).mp ((List.mem_tails ..).mpr h.1)
    refine ⟨b, (key_slice_iff he hb).mp h.2.1, rfl, fun b' hocc => ?_⟩
    have := h.2.2 _ (List.drop_suffix b' _) hocc.2.2
    rw [← slice, length_slice he, length_slice he] at this
    have := hocc.1
    omega
  · rintro ⟨b, hocc, rfl, hfirst⟩
    cases hf : (u.take e).tails.find? L.key with
    | none =>
        rw [hf] at h
        exact absurd hocc.2.2 (h _ (List.drop_suffix _ _))
    | some k =>
        rw [hf] at h
        obtain ⟨b', hb', rfl⟩ := (mem_tails_take he).mp ((List.mem_tails ..).mpr h.1)
        have hle := h.2.2 _ (List.drop_suffix b _) hocc.2.2
        rw [← slice, length_slice he, length_slice he] at hle
        have := hfirst b' ((key_slice_iff he hb').mp h.2.1)
        have := hocc.1
        rw [show b' = b by omega]

theorem covered_iff {i : ℕ} :
    covered L u i ↔ ∃ b e, Occurs L u b e ∧ (∀ b', Occurs L u b' e → b ≤ b') ∧ b ≤ i ∧ i < e := by
  simp only [covered, List.any_eq_true, List.mem_range]
  constructor
  · rintro ⟨e, he, h⟩
    cases hk : endingAt L u e with
    | none => simp [hk] at h
    | some k =>
        obtain ⟨b, hocc, rfl, hfirst⟩ := (endingAt_eq_some (Nat.le_of_lt_succ he)).mp hk
        simp only [hk, Bool.and_eq_true, decide_eq_true_eq, length_slice hocc.2.1] at h
        have := hocc.1
        exact ⟨b, e, hocc, hfirst, by omega, h.2⟩
  · rintro ⟨b, e, hocc, hfirst, hb, hie⟩
    refine ⟨e, Nat.lt_succ_of_le hocc.2.1, ?_⟩
    rw [(endingAt_eq_some hocc.2.1).mpr ⟨b, hocc, rfl, hfirst⟩]
    have := hocc.1
    simp only [length_slice hocc.2.1, Bool.and_eq_true, decide_eq_true_eq]
    omega

theorem Delimited.settled (hd : Delimited L u) : Settled L u := by
  intro b e h
  obtain ⟨c, hc, hfree⟩ := hd b e h
  obtain ⟨he, hce⟩ := List.getElem?_eq_some_iff.mp hc
  refine ⟨he, fun b' hb' hpre => hfree _ hpre ?_⟩
  rw [slice_succ he hb'.le, hce]
  exact List.mem_append_right _ (List.mem_singleton_self c)

end Ending

/-! ## Texts that fall apart -/

/-- No key reaches across the place `p`. -/
def Boundary (L : Lexicon α) (u : List α) (p : ℕ) : Prop :=
  ∀ b e, Occurs L u b e → e ≤ p ∨ p ≤ b

section Boundary
variable {L : Lexicon α} {u : List α} {p b e : ℕ}

theorem slice_take (he : e ≤ p) : slice (u.take p) b e = slice u b e := by
  rw [slice, slice, List.take_take, min_eq_left he]

theorem slice_drop : slice (u.drop p) b e = slice u (p + b) (p + e) := by
  rw [slice, slice, List.take_drop, List.drop_drop]

theorem occurs_take : Occurs L (u.take p) b e ↔ Occurs L u b e ∧ e ≤ p := by
  constructor
  · intro h
    have he := h.2.1
    rw [List.length_take] at he
    refine ⟨⟨h.1, by omega, ?_⟩, by omega⟩
    rw [← slice_take (p := p) (by omega)]
    exact h.2.2
  · intro h
    have he := h.1.2.1
    refine ⟨h.1.1, by rw [List.length_take]; omega, ?_⟩
    rw [slice_take h.2]
    exact h.1.2.2

theorem occurs_drop : Occurs L (u.drop p) b e ↔ Occurs L u (p + b) (p + e) := by
  rw [Occurs, Occurs, slice_drop, List.length_drop]
  constructor
  · intro h
    have := h.1
    exact ⟨by omega, by omega, h.2.2⟩
  · intro h
    have := h.1
    exact ⟨by omega, by omega, h.2.2⟩

theorem endingAt_take (he : e ≤ p) : endingAt L (u.take p) e = endingAt L u e := by
  rw [endingAt, endingAt, List.take_take, min_eq_left he]

theorem Boundary.endingAt_drop (hp : Boundary L u p) (hpos : 0 < e) (he : p + e ≤ u.length) :
    endingAt L (u.drop p) e = endingAt L u (p + e) := by
  have he' : e ≤ (u.drop p).length := by
    rw [List.length_drop]
    omega
  cases h : endingAt L (u.drop p) e with
  | none =>
      rw [endingAt_eq_none he'] at h
      symm
      rw [endingAt_eq_none he]
      intro b hocc
      rcases hp b (p + e) hocc with hle | hle
      · omega
      · apply h (b - p)
        rw [occurs_drop, Nat.add_sub_cancel' hle]
        exact hocc
  | some k =>
      obtain ⟨b, hocc, rfl, hfirst⟩ := (endingAt_eq_some he').mp h
      symm
      rw [endingAt_eq_some he]
      refine ⟨p + b, occurs_drop.mp hocc, slice_drop, ?_⟩
      intro b' hocc'
      rcases hp b' (p + e) hocc' with hle | hle
      · omega
      · have := hfirst (b' - p) (by rwa [occurs_drop, Nat.add_sub_cancel' hle])
        omega

theorem Boundary.covered_take (hp : Boundary L u p) {i : ℕ} (hi : i < p) :
    covered L (u.take p) i = covered L u i := by
  rw [Bool.eq_iff_iff, covered_iff, covered_iff]
  constructor
  · rintro ⟨b, e, hocc, hfirst, hb, he⟩
    rw [occurs_take] at hocc
    exact ⟨b, e, hocc.1, fun b' hocc' => hfirst b' (occurs_take.mpr ⟨hocc', hocc.2⟩), hb, he⟩
  · rintro ⟨b, e, hocc, hfirst, hb, he⟩
    have hep : e ≤ p := (hp b e hocc).resolve_right (by omega)
    exact ⟨b, e, occurs_take.mpr ⟨hocc, hep⟩, fun b' hocc' => hfirst b' (occurs_take.mp hocc').1,
      hb, he⟩

theorem Boundary.covered_drop (hp : Boundary L u p) {i : ℕ} :
    covered L (u.drop p) i = covered L u (p + i) := by
  rw [Bool.eq_iff_iff, covered_iff, covered_iff]
  constructor
  · rintro ⟨b, e, hocc, hfirst, hb, he⟩
    refine ⟨p + b, p + e, occurs_drop.mp hocc, ?_, by omega, by omega⟩
    intro b' hocc'
    rcases hp b' (p + e) hocc' with hle | hle
    · omega
    · have := hfirst (b' - p) (by rwa [occurs_drop, Nat.add_sub_cancel' hle])
      omega
  · rintro ⟨b, e, hocc, hfirst, hb, he⟩
    have hpb : p ≤ b := (hp b e hocc).resolve_left (by omega)
    refine ⟨b - p, e - p, ?_, ?_, by omega, by omega⟩
    · rw [occurs_drop, Nat.add_sub_cancel' hpb, Nat.add_sub_cancel' (by omega)]
      exact hocc
    · intro b' hocc'
      rw [occurs_drop, Nat.add_sub_cancel' (by omega : p ≤ e)] at hocc'
      have := hfirst _ hocc'
      omega

variable {f : α → α} {repl : List α → List α} {t : List α}

/-- A text falls apart at a place that no key reaches across. -/
theorem Boundary.reference_eq (hp : Boundary L (t.map f) p) (hpt : p ≤ t.length) :
    reference L f repl t = reference L f repl (t.take p) ++ reference L f repl (t.drop p) := by
  have hlen : (t.map f).length = t.length := List.length_map ..
  have htake : ∀ i, i < p → cell L f repl t i = cell L f repl (t.take p) i := by
    intro i hi
    rw [cell, cell, List.map_take, hp.covered_take hi, endingAt_take hi,
      List.getElem?_take_of_lt hi]
  have hdrop : ∀ i, p + i < t.length → cell L f repl t (p + i) = cell L f repl (t.drop p) i := by
    intro i hi
    rw [cell, cell, List.map_drop, hp.covered_drop, hp.endingAt_drop (Nat.succ_pos i) (by omega),
      List.getElem?_drop, Nat.add_assoc]
  have hparts : List.range t.length =
      List.range p ++ (List.range (t.length - p)).map (p + ·) := by
    rw [← List.range_add, Nat.add_sub_cancel' hpt]
  rw [reference, hparts, List.flatMap_append, reference, reference, List.length_take,
    min_eq_left hpt, List.length_drop, List.flatMap_map]
  congr 1
  · exact List.flatMap_congr fun i hi => htake i (List.mem_range.mp hi)
  · refine List.flatMap_congr fun i hi => hdrop i ?_
    have := List.mem_range.mp hi
    omega

end Boundary

section Cells
variable {L : Lexicon α} {f : α → α} {repl : List α → List α} {t : List α}

/-- The cells of the places from `a` up to `b`. -/
private def cells (L : Lexicon α) (f : α → α) (repl : List α → List α) (t : List α)
    (a b : ℕ) : List α :=
  (List.range' a (b - a)).flatMap (cell L f repl t)

private theorem cells_append {a b c : ℕ} (hab : a ≤ b) (hbc : b ≤ c) :
    cells L f repl t a b ++ cells L f repl t b c = cells L f repl t a c := by
  obtain ⟨m, rfl⟩ := Nat.exists_eq_add_of_le hab
  obtain ⟨n, rfl⟩ := Nat.exists_eq_add_of_le hbc
  rw [cells, cells, cells, ← List.flatMap_append, Nat.add_sub_cancel_left,
    Nat.add_sub_cancel_left, List.range'_append_1, Nat.add_assoc, Nat.add_sub_cancel_left]

private theorem cells_succ {a b : ℕ} (hab : a ≤ b) :
    cells L f repl t a (b + 1) = cells L f repl t a b ++ cell L f repl t b := by
  rw [← cells_append hab (Nat.le_succ b)]
  congr 1
  simp [cells]

/-- A place where nothing is swapped is copied. -/
private theorem cell_eq_copy {i : ℕ} (hi : i < t.length) (hcov : ¬ covered L (t.map f) i)
    (hend : ∀ b, ¬ Occurs L (t.map f) b (i + 1)) : cell L f repl t i = [t[i]] := by
  have hnone : endingAt L (t.map f) (i + 1) = none :=
    (endingAt_eq_none (by simpa using Nat.succ_le_of_lt hi)).mpr hend
  simp [cell, hcov, hnone, hi]

private theorem cells_eq_slice {a b : ℕ} (hab : a ≤ b) (hb : b ≤ t.length)
    (hcov : ∀ i, a ≤ i → i < b → ¬ covered L (t.map f) i)
    (hend : ∀ i, a ≤ i → i < b → ∀ b', ¬ Occurs L (t.map f) b' (i + 1)) :
    cells L f repl t a b = slice t a b := by
  induction b, hab using Nat.le_induction with
  | base => simp [cells, slice]
  | succ b hab ih =>
      rw [cells_succ hab, ih (by omega) (fun i h h' => hcov i h (by omega))
        (fun i h h' => hend i h (by omega)), slice_succ hb hab,
        cell_eq_copy hb (hcov b hab (by omega)) (hend b hab (by omega))]

/-- The places of a swapped key put out its replacement and nothing else. -/
private theorem cells_eq_repl {b e : ℕ} (hocc : Occurs L (t.map f) b e)
    (hfirst : ∀ b', Occurs L (t.map f) b' e → b ≤ b')
    (hend : ∀ i, b ≤ i → i + 1 < e → ∀ b', ¬ Occurs L (t.map f) b' (i + 1)) :
    cells L f repl t b e = repl (slice (t.map f) b e) := by
  have hcov : ∀ i, b ≤ i → i < e → covered L (t.map f) i :=
    fun i hb he => covered_iff.mpr ⟨b, e, hocc, hfirst, hb, he⟩
  have hempty : ∀ i, b ≤ i → i < e → cells L f repl t b i = [] := by
    intro i hbi
    induction i, hbi using Nat.le_induction with
    | base => intro _; simp [cells]
    | succ i hbi ih =>
        intro hi
        have hnone : endingAt L (t.map f) (i + 1) = none :=
          (endingAt_eq_none (by have := hocc.2.1; omega)).mpr (hend i hbi hi)
        rw [cells_succ hbi, ih (by omega)]
        simp [cell, hcov i hbi (by omega), hnone]
  have hbe := hocc.1
  obtain ⟨n, rfl⟩ : ∃ n, e = n + 1 := ⟨e - 1, by omega⟩
  have hsome := (endingAt_eq_some hocc.2.1).mpr ⟨b, hocc, rfl, hfirst⟩
  rw [cells_succ (by omega), hempty n (by omega) (by omega)]
  simp [cell, hcov n (by omega) (by omega), hsome]

/-- What the matcher has put out by place `i` are the cells before what it holds, and
no key that ended earlier reaches into that. -/
private structure Rendered (L : Lexicon α) (f : α → α) (repl : List α → List α) (t : List α)
    (i : ℕ) : Prop where
  render_eq : render repl (after L f t i).2 =
    cells L f repl t 0 (i - (after L f t i).1.held.length)
  before : ∀ b e, Occurs L (t.map f) b e → e < i → e ≤ i - (after L f t i).1.held.length

section Step
variable {i : ℕ}

/-- A symbol that is held as well, where no key ends. -/
private theorem Rendered.keep (W : Rendered L f repl t i) (hi : i < t.length)
    (hheld : (after L f t (i + 1)).1.held = (after L f t i).1.held ++ [t[i]])
    (ho : (after L f t (i + 1)).2 = (after L f t i).2) (hnone : ∀ b, ¬ Occurs L (t.map f) b i) :
    Rendered L f repl t (i + 1) := by
  have hrest : i + 1 - (after L f t (i + 1)).1.held.length =
      i - (after L f t i).1.held.length := by
    rw [hheld, List.length_append, List.length_singleton, Nat.add_sub_add_right]
  constructor
  · rw [ho, W.render_eq, hrest]
  · intro b e hocc he
    rw [hrest]
    rcases Nat.lt_or_ge e i with hei | hei
    · exact W.before b e hocc hei
    · obtain rfl : e = i := by omega
      exact absurd hocc (hnone b)

/-- A remembered key that ends at a quiet place is swapped, and what was held before it is
copied. -/
private theorem Rendered.swap (W : Rendered L f repl t i) (hi : i < t.length) {b : ℕ}
    (hq : Quiet L (t.map f) i) (hch : Chosen L (t.map f) i b i)
    (hkl : i - b ≤ (after L f t i).1.held.length)
    (hheld : (after L f t (i + 1)).1.held = [t[i]])
    (ho : (after L f t (i + 1)).2 = (after L f t i).2 ++
      (((after L f t i).1.held.take ((after L f t i).1.held.length - (i - b))).map .copy ++
        [.swap (slice (t.map f) b i)])) :
    Rendered L f repl t (i + 1) := by
  have hocc := hch.1.1
  have hbe := hocc.1
  have hle := (inv_after (L := L) (f := f) hi.le).held_le
  have hr := W.render_eq
  have hbefore := W.before
  generalize hh : (after L f t i).1.held.length = h at *
  have hfirst : ∀ b', Occurs L (t.map f) b' i → b ≤ b' := by
    intro b' hocc'
    have := hch.2 b' i hocc'.pending
    have := hocc'.1
    omega
  have hfree : ∀ j, i - h ≤ j → j + 1 < i → ∀ b', ¬ Occurs L (t.map f) b' (j + 1) := by
    intro j hj hje b' hocc'
    have := hbefore b' (j + 1) hocc' hje
    omega
  have hcopy : cells L f repl t (i - h) b = (after L f t i).1.held.take (h - (i - b)) := by
    rw [cells_eq_slice (by omega) (by omega)]
    · rw [held_after hi.le, hh, slice, slice, List.take_drop]
      congr 1
      rw [List.take_take]
      congr 1
      omega
    · intro j hj hj' hcov
      obtain ⟨b', e', hocc', hfirst', hb', he'⟩ := covered_iff.mp hcov
      rcases Nat.lt_trichotomy e' i with h' | rfl | h'
      · have := hbefore b' e' hocc' h'
        omega
      · have := hfirst b' hocc'
        omega
      · exact hocc'.not_quiet (by omega) h' hq
    · exact fun j hj hj' => hfree j hj (by omega)
  have hswap : cells L f repl t b i = repl (slice (t.map f) b i) :=
    cells_eq_repl hocc hfirst (fun j hj hje => hfree j (by omega) hje)
  constructor
  · rw [hheld, ho, List.length_singleton, render_append, render_append, render_copies, hr]
    calc
      _ = cells L f repl t 0 (i - h) ++ cells L f repl t (i - h) b ++
            cells L f repl t b i := by
        rw [hcopy, hswap]
        simp [Piece.text]
      _ = cells L f repl t 0 i := by
        rw [cells_append (Nat.zero_le _) (by omega), cells_append (Nat.zero_le _) hbe.le]
  · intro b e hocc he
    rw [hheld, List.length_singleton]
    omega

/-- Where nothing is remembered and the symbol begins no key, all is copied. -/
private theorem Rendered.release (W : Rendered L f repl t i) (hi : i < t.length)
    (hq : Quiet L (t.map f) i) (hn : ∀ b e, ¬ Pending L (t.map f) i b e)
    (hp : ¬ L.pre (slice (t.map f) i (i + 1))) (hheld : (after L f t (i + 1)).1.held = [])
    (ho : (after L f t (i + 1)).2 = (after L f t i).2 ++
      ((after L f t i).1.held ++ [t[i]]).map .copy) :
    Rendered L f repl t (i + 1) := by
  have hlen : (t.map f).length = t.length := List.length_map ..
  have hle := (inv_after (L := L) (f := f) hi.le).held_le
  have hr := W.render_eq
  have hbefore := W.before
  generalize hh : (after L f t i).1.held.length = h at *
  -- nothing that ends from the held text on begins before place `i + 1`
  have hfar : ∀ b e, Occurs L (t.map f) b e → i - h < e → i < b := by
    intro b e hocc he
    rcases Nat.lt_trichotomy e i with h' | rfl | h'
    · have := hbefore b e hocc h'
      omega
    · exact absurd hocc.pending (hn b e)
    · rcases Nat.lt_trichotomy b i with hb | rfl | hb
      · exact absurd hq (hocc.not_quiet hb h')
      · exact absurd (L.pre_of_begins (slice_ne_nil (Nat.lt_succ_self b) (by omega))
          (slice_begins h') (L.pre_of_key hocc.2.2)) hp
      · exact hb
  have hcopy : cells L f repl t (i - h) (i + 1) = (after L f t i).1.held ++ [t[i]] := by
    rw [cells_eq_slice (by omega) hi]
    · rw [slice_succ hi (Nat.sub_le _ _)]
      conv_rhs => rw [held_after hi.le, hh]
    · intro j hj hj' hcov
      obtain ⟨b', e', hocc', -, hb', he'⟩ := covered_iff.mp hcov
      have := hfar b' e' hocc' (by omega)
      omega
    · intro j hj hj' b' hocc'
      have := hfar b' (j + 1) hocc' (by omega)
      have := hocc'.1
      omega
  constructor
  · rw [hheld, ho, List.length_nil, render_append, render_copies, hr, ← hcopy,
      cells_append (Nat.zero_le _) (by omega), Nat.sub_zero]
  · intro b e hocc he
    rw [hheld, List.length_nil]
    omega

/-- On a settled text this holds at every place. -/
private theorem render_after (repl : List α → List α) (hs : Settled L (t.map f))
    (hi : i ≤ t.length) : Rendered L f repl t i := by
  induction i with
  | zero => exact ⟨by simp [after, cells], by simp⟩
  | succ i ih =>
      have hlt : i < t.length := hi
      have W := ih hlt.le
      have H := inv_after (L := L) (f := f) hlt.le
      rcases after_cases (L := L) (f := f) hlt with
        ⟨hq, hheld, ho⟩ | ⟨hq, k, hk, hheld, ho⟩ | ⟨hq, hn, hheld, ho⟩ | ⟨hq, hn, hp, hheld, ho⟩
      · exact W.keep hlt hheld ho fun b hocc => absurd (hs b i hocc).2 hq
      · obtain ⟨hkl, b, e, hch, rfl⟩ := H.best_some k hk
        have hocc := hch.1.1
        -- the remembered key ends right here
        obtain rfl : e = i := by
          rcases Nat.lt_or_ge e i with hei | hei
          · exact absurd (hs b e hocc).2 (hch.1.2.2 e le_rfl hei)
          · exact le_antisymm hch.1.2.1 hei
        have hlk := length_slice (u := t.map f) (b := b) hocc.2.1
        exact W.swap hlt hq hch (hlk ▸ hkl) hheld (hlk ▸ ho)
      · exact W.keep hlt hheld ho fun b hocc => absurd hocc.pending (H.best_none hn b i)
      · exact W.release hlt hq (H.best_none hn) hp hheld ho

end Step

/-- On a settled text the matcher swaps the longest key wherever one ends. -/
theorem Settled.emit_eq_reference (hs : Settled L (t.map f)) :
    render repl (emit L f t) = reference L f repl t := by
  have hlen : (t.map f).length = t.length := List.length_map ..
  obtain ⟨hr, hbefore⟩ := render_after repl hs le_rfl
  have hle := (inv_after (L := L) (f := f) (t := t) le_rfl).held_le
  have hheld := held_after (L := L) (f := f) (t := t) le_rfl
  generalize hh : (after L f t t.length).1.held.length = h at *
  -- a key that ends is followed by a symbol, so none reaches into the held text
  have hfar : ∀ b e, Occurs L (t.map f) b e → e ≤ t.length - h := by
    intro b e hocc
    have := (hs b e hocc).1
    exact hbefore b e hocc (by omega)
  have hcopy : cells L f repl t (t.length - h) t.length = slice t (t.length - h) t.length := by
    rw [cells_eq_slice (Nat.sub_le _ _) le_rfl]
    · intro i hi _ hcov
      obtain ⟨b, e, hocc, -, hb, he⟩ := covered_iff.mp hcov
      have := hfar b e hocc
      omega
    · intro i hi _ b hocc
      have := hfar b (i + 1) hocc
      omega
  rw [emit_eq_after, render_append, render_copies, hr, hheld, ← hcopy,
    cells_append (Nat.zero_le _) (Nat.sub_le _ _), reference, List.range_eq_range']
  rfl

theorem emit_eq_reference (hd : Delimited L (t.map f)) :
    render repl (emit L f t) = reference L f repl t :=
  hd.settled.emit_eq_reference

/-- A text without keys is copied. -/
theorem reference_eq_self (h : ∀ b e, ¬ Occurs L (t.map f) b e) : reference L f repl t = t := by
  have hcopy : cells L f repl t 0 t.length = slice t 0 t.length := by
    apply cells_eq_slice (Nat.zero_le _) le_rfl
    · intro i _ _ hcov
      obtain ⟨b, e, hocc, -⟩ := covered_iff.mp hcov
      exact h b e hocc
    · intro i _ _ b hocc
      exact h b (i + 1) hocc
  rw [reference, List.range_eq_range', ← Nat.sub_zero t.length]
  exact hcopy.trans (by simp [slice])

/-- A text that is a key, with no key ending earlier, becomes the replacement. -/
theorem reference_eq_repl (hocc : Occurs L (t.map f) 0 t.length)
    (hend : ∀ b e, Occurs L (t.map f) b e → e = t.length) :
    reference L f repl t = repl (t.map f) := by
  have hrepl : cells L f repl t 0 t.length = repl (slice (t.map f) 0 t.length) := by
    apply cells_eq_repl hocc
    · intro b' _
      exact Nat.zero_le b'
    · intro i _ hi b' hocc'
      have := hend b' (i + 1) hocc'
      omega
  rw [reference, List.range_eq_range', ← Nat.sub_zero t.length]
  exact hrepl.trans (by simp [slice, ← List.map_take])

end Cells

/-! ## Around one key -/

namespace Delimited
variable {L : Lexicon α} {u : List α} {b e : ℕ}

/-- The symbol before which a key ends is in no key. -/
private theorem not_inside (hd : Delimited L u) (h : Occurs L u b e) {b' e' : ℕ}
    (h' : Occurs L u b' e') : e < b' ∨ e' ≤ e := by
  obtain ⟨c, hc, hfree⟩ := hd b e h
  obtain ⟨he, rfl⟩ := List.getElem?_eq_some_iff.mp hc
  by_contra hin
  refine hfree _ (L.pre_of_begins (slice_ne_nil (b := b') (by omega) he)
    (slice_begins (by omega)) (L.pre_of_key h'.2.2)) ?_
  rw [slice_succ he (by omega)]
  exact List.mem_append_right _ (List.mem_singleton_self _)

theorem boundary_end (hd : Delimited L u) (h : Occurs L u b e) : Boundary L u e := by
  intro b' e' h'
  exact (hd.not_inside h h').symm.imp_right Nat.le_of_lt

/-- Where the longest of the keys that end at a place begins, no key reaches across. -/
theorem boundary_start (hd : Delimited L u) (h : Occurs L u b e)
    (hfirst : ∀ b', Occurs L u b' e → b ≤ b') : Boundary L u b := by
  intro b' e' h'
  have hbe := h.1
  rcases hd.not_inside h' h with hlt | hle
  · exact .inl hlt.le
  · rcases hd.not_inside h h' with hlt | hle'
    · exact .inr (by omega)
    · obtain rfl : e = e' := le_antisymm hle hle'
      exact .inr (hfirst b' h')

theorem take (hd : Delimited L u) (h : Occurs L u b e) : Delimited L (u.take b) := by
  intro b' e' h'
  rw [occurs_take] at h'
  have hbe := h.1
  have hlt : e' < b := by
    rcases hd.not_inside h'.1 h with hlt | hle
    · exact hlt
    · omega
  obtain ⟨c, hc, hfree⟩ := hd b' e' h'.1
  exact ⟨c, by rw [List.getElem?_take_of_lt hlt, hc], hfree⟩

theorem drop (hd : Delimited L u) (p : ℕ) : Delimited L (u.drop p) := by
  intro b' e' h'
  obtain ⟨c, hc, hfree⟩ := hd _ _ (occurs_drop.mp h')
  exact ⟨c, by rw [List.getElem?_drop, hc], hfree⟩

variable {f : α → α} {repl : List α → List α} {t : List α}

/-- A delimited text falls apart at the longest key that ends at a place. -/
theorem reference_eq (hd : Delimited L (t.map f)) (h : Occurs L (t.map f) b e)
    (hfirst : ∀ b', Occurs L (t.map f) b' e → b ≤ b') :
    reference L f repl t =
      reference L f repl (t.take b) ++ repl (slice (t.map f) b e) ++ reference L f repl (t.drop e) := by
  have hbe := h.1
  have het : e ≤ t.length := by simpa using h.2.1
  have hlen : (slice t b e).length = e - b := length_slice het
  have hbefore : Boundary L ((t.take e).map f) b := by
    intro b' e' h'
    rw [List.map_take, occurs_take] at h'
    exact hd.boundary_start h hfirst b' e' h'.1
  have hkey : reference L f repl (slice t b e) = repl (slice (t.map f) b e) := by
    have hocc : ∀ {b' e'}, Occurs L ((slice t b e).map f) b' e' ↔
        Occurs L (t.map f) (b + b') (b + e') ∧ b + e' ≤ e := by
      intro b' e'
      rw [slice, List.map_drop, List.map_take, occurs_drop, occurs_take]
    rw [slice_map]
    apply reference_eq_repl
    · rw [hlen, hocc, Nat.add_zero, Nat.add_sub_cancel' hbe.le]
      exact ⟨h, le_rfl⟩
    · intro b' e' h'
      rw [hocc] at h'
      have := h'.1.1
      rcases hd.not_inside h'.1 h with hlt | hle
      · omega
      · omega
  rw [(hd.boundary_end h).reference_eq het, hbefore.reference_eq (by rw [List.length_take]; omega),
    List.take_take, min_eq_left hbe.le, ← hkey]
  rfl

end Delimited

end StreamMatcher
