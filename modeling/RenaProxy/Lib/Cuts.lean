import RenaProxy.Lib.Matcher

/-!
# What the streaming matcher does to a whole text

`emit_reads_iff`: the pieces put out for a text rewrite it exactly when every cut
falls on the key that was remembered. `emit_concat_iff`: one symbol more makes no
difference to them exactly when no key is pending, or swapping it changes nothing.
`held_concat_eq_nil_iff`: when nothing is held behind a symbol.
-/
namespace StreamMatcher
open StreamRewriting StreamTransducer

universe u
variable {α : Type u}

/-- The state after the first `i` symbols of `t` and the pieces put out by then. -/
def after (L : Lexicon α) (f : α → α) (t : List α) (i : ℕ) : State α × List (Piece α) :=
  trace (step L f) start (t.take i)

section After
variable {L : Lexicon α} {f : α → α} {t : List α} {i : ℕ}

theorem after_succ (hi : i < t.length) :
    after L f t (i + 1) =
      ((step L f (after L f t i).1 t[i]).1,
        (after L f t i).2 ++ (step L f (after L f t i).1 t[i]).2) := by
  rw [after, List.take_succ_eq_append_getElem hi, trace_concat]
  rfl

theorem emit_eq_after :
    emit L f t =
      (after L f t t.length).2 ++ (after L f t t.length).1.held.map .copy := by
  rw [emit, after, List.take_length]

theorem inv_after (hi : i ≤ t.length) : Inv L (t.map f) i (after L f t i).1 := by
  induction i with
  | zero => exact inv_start L _
  | succ i ih =>
      rw [after_succ hi]
      exact inv_step (ih (Nat.le_of_succ_le hi)) (by simpa using Nat.lt_of_succ_le hi) (by simp)

/-- Everything one symbol of `t` can do to what is held and put out. -/
theorem after_cases (hi : i < t.length) :
    (¬ Quiet L (t.map f) i ∧
      (after L f t (i + 1)).1.held = (after L f t i).1.held ++ [t[i]] ∧
      (after L f t (i + 1)).2 = (after L f t i).2) ∨
    (Quiet L (t.map f) i ∧ ∃ k, (after L f t i).1.best = some k ∧
      (after L f t (i + 1)).1.held = [t[i]] ∧
      (after L f t (i + 1)).2 = (after L f t i).2 ++
        (((after L f t i).1.held.take ((after L f t i).1.held.length - k.length)).map .copy
          ++ [.swap k])) ∨
    (Quiet L (t.map f) i ∧ (after L f t i).1.best = none ∧
      (after L f t (i + 1)).1.held = (after L f t i).1.held ++ [t[i]] ∧
      (after L f t (i + 1)).2 = (after L f t i).2) ∨
    (Quiet L (t.map f) i ∧ (after L f t i).1.best = none ∧
      ¬ L.pre (slice (t.map f) i (i + 1)) ∧
      (after L f t (i + 1)).1.held = [] ∧
      (after L f t (i + 1)).2 = (after L f t i).2 ++
        ((after L f t i).1.held ++ [t[i]]).map .copy) := by
  have hu : i < (t.map f).length := by simpa using hi
  rw [after_succ hi]
  rcases step_cases (f := f) (inv_after hi.le).seen hu (a := t[i]) (by simp) with
    ⟨hq, h⟩ | ⟨hq, k, hk, h⟩ | ⟨hq, hn, -, h⟩ | ⟨hq, hn, hp, h⟩ <;> rw [h]
  · exact .inl ⟨hq, rfl, by simp⟩
  · exact .inr (.inl ⟨hq, k, hk, rfl, rfl⟩)
  · exact .inr (.inr (.inl ⟨hq, hn, rfl, by simp⟩))
  · have hone : slice (t.map f) i (i + 1) = [(t.map f)[i]] := by
      rw [slice_succ hu le_rfl, show slice (t.map f) i i = [] by simp [slice]]
      rfl
    exact .inr (.inr (.inr ⟨hq, hn, hone ▸ hp, rfl, rfl⟩))

/-- What is held is the end of the text read. -/
theorem held_after (hi : i ≤ t.length) :
    (after L f t i).1.held = slice t (i - (after L f t i).1.held.length) i := by
  induction i with
  | zero => simp [after, start, slice]
  | succ i ih =>
      have hlt : i < t.length := hi
      have hle := (inv_after (L := L) (f := f) hlt.le).held_le
      have grown : (after L f t (i + 1)).1.held = (after L f t i).1.held ++ [t[i]] →
          (after L f t (i + 1)).1.held =
            slice t (i + 1 - (after L f t (i + 1)).1.held.length) (i + 1) := by
        intro h
        rw [h, List.length_append, List.length_singleton, Nat.add_sub_add_right,
          slice_succ hlt (Nat.sub_le _ _), ← ih hlt.le]
      rcases after_cases (L := L) (f := f) hlt with
        ⟨-, h, -⟩ | ⟨-, k, -, h, -⟩ | ⟨-, -, h, -⟩ | ⟨-, -, -, h, -⟩
      · exact grown h
      · rw [h, List.length_singleton, Nat.add_sub_cancel, slice_succ hlt le_rfl]
        simp [slice]
      · exact grown h
      · simp [h, slice]

/-- The pieces put out account for everything that is not held. -/
theorem width_after (hi : i ≤ t.length) :
    width (after L f t i).2 + (after L f t i).1.held.length = i := by
  induction i with
  | zero => rfl
  | succ i ih =>
      have hlt : i < t.length := hi
      have hw := ih hlt.le
      rcases after_cases (L := L) (f := f) hlt with
        ⟨-, h, ho⟩ | ⟨-, k, hk, h, ho⟩ | ⟨-, -, h, ho⟩ | ⟨-, -, -, h, ho⟩
      · rw [h, ho, List.length_append, List.length_singleton]
        omega
      · have := ((inv_after (L := L) (f := f) hlt.le).best_some k hk).1
        rw [h, ho, width_append, width_append, width_copies, width_swap, List.length_take,
          List.length_singleton]
        omega
      · rw [h, ho, List.length_append, List.length_singleton]
        omega
      · rw [h, ho, width_append, width_copies, List.length_append, List.length_singleton,
          List.length_nil]
        omega

end After

section Cuts
variable {L : Lexicon α} {f : α → α} {t : List α}

/-- The stretch that a cut removes, as the source has it. -/
private theorem held_drop {i n : ℕ} (hi : i ≤ t.length)
    (hn : n ≤ (after L f t i).1.held.length) :
    (after L f t i).1.held.drop ((after L f t i).1.held.length - n) = slice t (i - n) i := by
  have hle := (inv_after (L := L) (f := f) hi).held_le
  generalize hm : (after L f t i).1.held.length = m at *
  rw [held_after hi, hm, slice, List.drop_drop, slice]
  congr 1
  omega

private theorem reads_after (hcut : CutsAtMatch L (t.map f)) {i : ℕ} (hi : i ≤ t.length) :
    ∃ x, t.take i = x ++ (after L f t i).1.held ∧ Reads f (after L f t i).2 x := by
  induction i with
  | zero => exact ⟨[], by simp [after, start], rfl⟩
  | succ i ih =>
      have hlt : i < t.length := hi
      obtain ⟨x, hx, hr⟩ := ih hlt.le
      have htake : t.take (i + 1) = x ++ (after L f t i).1.held ++ [t[i]] := by
        rw [List.take_succ_eq_append_getElem hlt, hx]
      rcases after_cases (L := L) (f := f) hlt with
        ⟨-, h, ho⟩ | ⟨hq, k, hk, h, ho⟩ | ⟨-, -, h, ho⟩ | ⟨-, -, -, h, ho⟩
      · exact ⟨x, by rw [htake, h, List.append_assoc], ho ▸ hr⟩
      · -- the cut stretch is the remembered key, so the swap reads it
        have H := inv_after (L := L) (f := f) hlt.le
        obtain ⟨hlen, b, e, hch, rfl⟩ := H.best_some k hk
        have hu : i < (t.map f).length := by simpa using hlt
        have hlk := length_slice (u := t.map f) (b := b) hch.1.1.2.1
        have hkey : ((after L f t i).1.held.drop ((after L f t i).1.held.length -
            (slice (t.map f) b e).length)).map f = slice (t.map f) b e := by
          rw [held_drop hlt.le hlen, ← slice_map, hlk]
          exact hcut i hu hq b e hch
        refine ⟨x ++ (after L f t i).1.held, by rw [htake, h], ?_⟩
        rw [ho, ← List.take_append_drop ((after L f t i).1.held.length -
          (slice (t.map f) b e).length) (after L f t i).1.held, List.take_append_drop]
        exact reads_append.mpr ⟨x, _, rfl, hr, reads_append.mpr
          ⟨_, _, (List.take_append_drop _ _).symm, (reads_copies _).mpr rfl,
            reads_swap.mpr hkey⟩⟩
      · exact ⟨x, by rw [htake, h, List.append_assoc], ho ▸ hr⟩
      · refine ⟨x ++ (after L f t i).1.held ++ [t[i]], by simp [htake, h], ?_⟩
        rw [ho, List.append_assoc]
        exact reads_append.mpr ⟨x, _, rfl, hr, (reads_copies _).mpr rfl⟩

/-- The pieces put out by a prefix begin the pieces put out in all. -/
private theorem emit_begins {i : ℕ} :
    ∃ rest, emit L f t = (after L f t i).2 ++ rest := by
  have hsplit : trace (step L f) start t =
      trace (step L f) start (t.take i ++ t.drop i) := by rw [List.take_append_drop]
  rw [emit, hsplit, trace_append]
  exact ⟨_, List.append_assoc _ _ _⟩

/-- The pieces put out rewrite the text exactly when all cuts fall on the keys they
stand for. -/
theorem emit_reads_iff : Reads f (emit L f t) t ↔ CutsAtMatch L (t.map f) := by
  constructor
  · intro h i hi hq b e hch
    have hlt : i < t.length := by simpa using hi
    have H := inv_after (L := L) (f := f) hlt.le
    rcases after_cases (L := L) (f := f) hlt with
      ⟨hq', -, -⟩ | ⟨-, k, hk, -, ho⟩ | ⟨-, hn, -, -⟩ | ⟨-, hn, -, -, -⟩
    · exact absurd hq hq'
    · obtain ⟨hlen, b', e', hch', rfl⟩ := H.best_some k hk
      have hle := hch.2 b' e' hch'.1
      have hle' := hch'.2 b e hch.1
      have hl := length_slice (u := t.map f) (b := b) hch.1.1.2.1
      have hl' := length_slice (u := t.map f) (b := b') hch'.1.1.2.1
      have hb := hch.1.1.1
      have hb' := hch'.1.1.1
      obtain ⟨rfl, rfl⟩ : b' = b ∧ e' = e := by omega
      -- the swap reads the symbols that the cut removed
      obtain ⟨rest, hrest⟩ := emit_begins (L := L) (f := f) (t := t) (i := i + 1)
      rw [hrest, ho, ← List.append_assoc, List.append_assoc _ [Piece.swap _] rest] at h
      have hw : width ((after L f t i).2 ++ ((after L f t i).1.held.take
          ((after L f t i).1.held.length - (slice (t.map f) b' e').length)).map .copy) =
          i - (e' - b') := by
        have := width_after (L := L) (f := f) hlt.le
        rw [width_append, width_copies, List.length_take]
        omega
      obtain ⟨x, y, hxy, hx, -⟩ := reads_append.mp (reads_split h).2
      rw [hw] at hxy
      have hx' := reads_swap.mp hx
      have hlx : x.length = e' - b' := by rw [← hl, ← hx', List.length_map]
      have hxs : x = slice t (i - (e' - b')) i := by
        have hle := H.held_le
        have : x = (t.drop (i - (e' - b'))).take (e' - b') := by
          rw [hxy, ← hlx, List.take_left']
          rfl
        rw [this, slice, List.drop_take]
        congr 1
        omega
      rw [slice_map, ← hxs]
      exact hx'
    · exact absurd hch.1 (H.best_none hn b e)
    · exact absurd hch.1 (H.best_none hn b e)
  · intro hcut
    obtain ⟨x, hx, hr⟩ := reads_after hcut le_rfl
    rw [List.take_length] at hx
    rw [emit_eq_after]
    exact reads_append.mpr ⟨x, _, hx, hr, (reads_copies _).mpr rfl⟩

/-- Only keys that occur are swapped. -/
theorem occurs_of_swap_mem_emit {k : List α} (h : Piece.swap k ∈ emit L f t) :
    ∃ b e, Occurs L (t.map f) b e ∧ k = slice (t.map f) b e := by
  have main : ∀ i ≤ t.length, Piece.swap k ∈ (after L f t i).2 →
      ∃ b e, Occurs L (t.map f) b e ∧ k = slice (t.map f) b e := by
    intro i
    induction i with
    | zero => intro _ h; simp [after] at h
    | succ i ih =>
        intro hi hmem
        have hlt : i < t.length := hi
        rcases after_cases (L := L) (f := f) hlt with
          ⟨-, -, ho⟩ | ⟨-, k', hk, -, ho⟩ | ⟨-, -, -, ho⟩ | ⟨-, -, -, -, ho⟩ <;> rw [ho] at hmem
        · exact ih hlt.le hmem
        · simp only [List.mem_append, List.mem_map, List.mem_singleton, Piece.swap.injEq,
            reduceCtorEq, and_false, exists_false, false_or] at hmem
          rcases hmem with hmem | rfl
          · exact ih hlt.le hmem
          · obtain ⟨-, b, e, hch, rfl⟩ := (inv_after hlt.le).best_some k hk
            exact ⟨b, e, hch.1.1, rfl⟩
        · exact ih hlt.le hmem
        · simp only [List.mem_append, List.mem_map, reduceCtorEq, and_false, exists_false,
            or_false] at hmem
          exact ih hlt.le hmem
  rw [emit_eq_after] at h
  simp only [List.mem_append, List.mem_map, reduceCtorEq, and_false, exists_false, or_false] at h
  exact main t.length le_rfl h

/-- No more symbols are copied than there are. -/
theorem copies_emit_le : copies (emit L f t) ≤ t.length := by
  have hwidth : width (emit L f t) = t.length := by
    rw [emit_eq_after, width_append, width_copies]
    exact width_after le_rfl
  rw [← hwidth]
  exact copies_le_width _

/-! ## One symbol more -/

/-- The chosen key is one stretch of the text. -/
theorem Chosen.unique {u : List α} {i b e b' e' : ℕ} (h : Chosen L u i b e)
    (h' : Chosen L u i b' e') : b = b' ∧ e = e' := by
  have := h.2 b' e' h'.1
  have := h'.2 b e h.1
  have := h.1.1.1
  have := h'.1.1.1
  omega

theorem after_append (s : List α) : after L f (t ++ s) t.length = after L f t t.length := by
  rw [after, after, List.take_left, List.take_length]

/-- **Whether one symbol more only adds itself.** It does unless it kills the last suffix
while a key is pending, and what is put out for this key is not what is cut for it. -/
theorem emit_concat_iff (repl : List α → List α) (t : List α) (c : α) :
    render repl (emit L f (t ++ [c])) = render repl (emit L f t) ++ [c] ↔
      (Quiet L ((t ++ [c]).map f) t.length → ∀ b e, Chosen L (t.map f) t.length b e →
        repl (slice (t.map f) b e) = slice t (t.length - (e - b)) t.length) := by
  have hi : t.length < (t ++ [c]).length := by simp
  have hlen : (t ++ [c]).length = t.length + 1 := by simp
  have hc : (t ++ [c])[t.length] = c := by simp
  have H := inv_after (L := L) (f := f) (t := t) le_rfl
  rw [emit_eq_after, hlen, emit_eq_after]
  have hcases := after_cases (L := L) (f := f) hi
  rw [after_append, hc] at hcases
  rcases hcases with ⟨hq, hheld, hout⟩ | ⟨hq, k, hk, hheld, hout⟩ | ⟨-, hn, hheld, hout⟩ |
    ⟨-, hn, -, hheld, hout⟩
  · -- a suffix lives on
    refine iff_of_true ?_ fun h => absurd h hq
    rw [hheld, hout]
    simp [Piece.text]
  · -- the key is cut from the end of what is held
    obtain ⟨hle, b, e, hch, rfl⟩ := H.best_some k hk
    have hke : (slice (t.map f) b e).length = e - b := length_slice hch.1.1.2.1
    have hcut := held_drop (L := L) (f := f) (t := t) le_rfl hle
    have hsplit := List.take_append_drop ((after L f t t.length).1.held.length -
      (slice (t.map f) b e).length) (after L f t t.length).1.held
    rw [hcut, hke] at hsplit
    rw [hheld, hout, hke]
    simp only [render_append, render_copies, List.map_cons, List.map_nil, render_cons, render_nil,
      Piece.text, List.append_nil, List.append_assoc, List.append_cancel_left_eq]
    have hcancel : (after L f t t.length).1.held.take ((after L f t t.length).1.held.length -
        (e - b)) ++ (repl (slice (t.map f) b e) ++ [c]) = (after L f t t.length).1.held ++ [c] ↔
        repl (slice (t.map f) b e) = slice t (t.length - (e - b)) t.length := by
      rw [← List.append_assoc, List.append_cancel_right_eq]
      exact ⟨fun h => List.append_cancel_left (h.trans hsplit.symm), fun h => by rw [h, hsplit]⟩
    rw [hcancel]
    constructor
    · intro heq _ b' e' hch'
      obtain ⟨rfl, rfl⟩ := hch.unique hch'
      exact heq
    · exact fun h => h hq b e hch
  · -- no key is pending
    refine iff_of_true ?_ fun _ b e hch => absurd hch.1 (H.best_none hn b e)
    rw [hheld, hout]
    simp [Piece.text]
  · refine iff_of_true ?_ fun _ b e hch => absurd hch.1 (H.best_none hn b e)
    rw [hheld, hout]
    simp [Piece.text]

/-! ## When nothing is held -/

/-- One symbol more is one step more. -/
theorem after_concat (t : List α) (a : α) :
    (after L f (t ++ [a]) (t ++ [a]).length).1 = (step L f (after L f t t.length).1 a).1 := by
  have hi : t.length < (t ++ [a]).length := by simp
  rw [List.length_append, List.length_singleton, after_succ hi, after_append]
  simp

/-- The text is what was read of it, through `f`. -/
theorem seen_after (t : List α) : (after L f t t.length).1.seen = t.map f := by
  rw [(inv_after le_rfl).seen, List.take_of_length_le (by simp)]

/-- No ending of the text begins a key. -/
def NoneBegun (L : Lexicon α) (u : List α) : Prop := ∀ v, v ≠ [] → v <:+ u → ¬ L.pre v

/-- No key is pending at the end of the text. -/
def NonePending (L : Lexicon α) (u : List α) : Prop := ∀ b e, ¬ Pending L u u.length b e

theorem noneBegun_concat (u : List α) (a : α) :
    NoneBegun L (u ++ [a]) ↔ Quiet L (u ++ [a]) u.length ∧ ¬ L.pre [a] := by
  have hlen : u.length + 1 ≤ (u ++ [a]).length := by simp
  have htake : (u ++ [a]).take (u.length + 1) = u ++ [a] := List.take_of_length_le (by simp)
  constructor
  · refine fun h => ⟨fun b hb => ?_, h [a] (List.cons_ne_nil a []) (List.suffix_append u [a])⟩
    refine h _ (slice_ne_nil (by omega) hlen) ?_
    have hmem := (mem_tails_take hlen).mpr ⟨b, by omega, rfl⟩
    rwa [htake, List.mem_tails] at hmem
  · rintro ⟨hquiet, hone⟩ v hv hsuffix
    rw [← htake, ← List.mem_tails, mem_tails_take hlen] at hsuffix
    obtain ⟨b, hb, rfl⟩ := hsuffix
    rcases Nat.lt_trichotomy b u.length with hlt | rfl | hgt
    · exact hquiet b hlt
    · rwa [slice, htake, List.drop_left]
    · exact absurd (List.eq_nil_of_length_eq_zero (by rw [length_slice hlen]; omega)) hv

/-- **Nothing is held behind a symbol** exactly when no ending of the text begins a key and none
was pending before it. -/
theorem held_concat_eq_nil_iff (t : List α) (a : α) :
    (after L f (t ++ [a]) (t ++ [a]).length).1.held = [] ↔
      NoneBegun L ((t ++ [a]).map f) ∧ NonePending L (t.map f) := by
  have hu : (t.map f).length < (t.map f ++ [f a]).length := by simp
  have H : Inv L (t.map f) (t.map f).length (after L f t t.length).1 := by
    rw [List.length_map]
    exact inv_after le_rfl
  have hseen : (after L f t t.length).1.seen = (t.map f ++ [f a]).take (t.map f).length := by
    rw [seen_after, List.take_left]
  have hcases := step_cases (L := L) (f := f) hseen hu (a := a) (by simp)
  rw [List.getElem_concat_length rfl] at hcases
  rw [after_concat, List.map_append, List.map_singleton, noneBegun_concat, NonePending]
  rcases hcases with ⟨hq, h⟩ | ⟨-, k, hk, h⟩ | ⟨-, -, hpre, h⟩ | ⟨hq, hn, hpre, h⟩ <;> rw [h]
  · exact iff_of_false (by simp) fun h => hq h.1.1
  · obtain ⟨-, b, e, hch, -⟩ := H.best_some k hk
    exact iff_of_false (by simp) fun h => h.2 b e hch.1
  · exact iff_of_false (by simp) fun h => h.1.2 hpre
  · exact iff_of_true rfl ⟨⟨hq, hpre⟩, H.best_none hn⟩

end Cuts

end StreamMatcher
