import RenaProxy.Lib.Matcher
import Mathlib.Data.List.Find

/-!
# A streaming matcher that replaces the key that is complete first

Several lexicons stand in an order of precedence. `reference` rewrites a whole text: from
the end of the last replacement on it looks for the key that ends first, among those that
end together for the one that begins first, and among those that begin together for the
lexicon that comes first.

The matcher reads symbol by symbol and keeps no text behind it but what it holds. It
follows every stretch up to the last symbol that begins a key, in the order in which they
began. `emit_eq_reference` says that it puts out the reference rewriting.
-/
namespace EarliestMatch
open StreamMatcher StreamTransducer

universe u v
variable {α : Type u} {κ : Type v}

/-- Lexicons in order of precedence, and what replaces their keys. -/
structure Rules (α : Type u) (κ : Type v) where
  kinds : List κ
  lexicon : κ → Lexicon α
  repl : κ → List α → List α

namespace Rules
variable (R : Rules α κ) (f : α → α)

/-- A key from `b` to `e`. -/
def matchAt (u : List α) (e b : ℕ) : Option (ℕ × κ) :=
  (R.kinds.find? fun k => (R.lexicon k).key (slice u b e)).map (b, ·)

/-- The key that begins first, of those that end at `e`. -/
def endingAt (u : List α) (e : ℕ) : Option (ℕ × κ) := (List.range e).findSome? (R.matchAt u e)

/-- The key that ends first: where it begins, where it ends, and its kind. -/
def earliest (u : List α) : Option (ℕ × ℕ × κ) :=
  (List.range (u.length + 1)).findSome? fun e => (R.endingAt u e).map fun m => (m.1, e, m.2)

variable {R} in
theorem endingAt_eq_some {u : List α} {b e : ℕ} {k : κ} (h : R.endingAt u e = some (b, k)) :
    b < e ∧ (R.lexicon k).key (slice u b e) := by
  obtain ⟨b', hb', h⟩ := List.exists_of_findSome?_eq_some h
  obtain ⟨k', hk', h⟩ := Option.map_eq_some_iff.mp h
  obtain ⟨rfl, rfl⟩ := Prod.mk.inj h
  exact ⟨List.mem_range.mp hb', List.find?_some (p := fun k => (R.lexicon k).key (slice u b' e)) hk'⟩

variable {R} in
theorem earliest_eq_some {u : List α} {b e : ℕ} {k : κ} (h : R.earliest u = some (b, e, k)) :
    b < e ∧ e ≤ u.length := by
  obtain ⟨e', he', h⟩ := List.exists_of_findSome?_eq_some h
  obtain ⟨⟨b', k'⟩, hm, h⟩ := Option.map_eq_some_iff.mp h
  cases h
  exact ⟨(endingAt_eq_some hm).1, by have := List.mem_range.mp he'; omega⟩

/-- The text with one key after the other replaced, each the earliest in what comes after
the one before. -/
def reference (t : List α) : List α :=
  match _h : R.earliest (t.map f) with
  | none => t
  | some (b, e, k) => t.take b ++ R.repl k (slice (t.map f) b e) ++ reference (t.drop e)
termination_by t.length
decreasing_by
  have := earliest_eq_some _h
  rw [List.length_map] at this
  rw [List.length_drop]
  omega

theorem reference_of_none {t : List α} (h : R.earliest (t.map f) = none) : R.reference f t = t := by
  rw [reference]
  split
  · rfl
  · rename_i h'
    rw [h] at h'
    cases h'

theorem reference_of_some {t : List α} {b e : ℕ} {k : κ}
    (h : R.earliest (t.map f) = some (b, e, k)) : R.reference f t =
      t.take b ++ R.repl k (slice (t.map f) b e) ++ R.reference f (t.drop e) := by
  rw [reference]
  split
  · rename_i h'
    rw [h] at h'
    cases h'
  · rename_i h'
    rw [h] at h'
    cases h'
    rfl

/-! ## The matcher -/

/-- What the matcher has read since the last replacement, through `f`, and what it has not
put out of that. -/
structure State (α : Type u) where
  seen : List α
  held : List α

/-- The stretches up to the end of `w` that begin a key. -/
def live (w : List α) : List (κ × List α) :=
  (List.range w.length).flatMap fun b =>
    (R.kinds.filter fun k => (R.lexicon k).pre (w.drop b)).map (·, w.drop b)

/-- One symbol. -/
def step (s : State α) (a : α) : State α × List α :=
  match (R.live s.seen).find? fun c => (R.lexicon c.1).key (c.2 ++ [f a]) with
  | some c =>
      (⟨[], []⟩, s.held.take (s.held.length - c.2.length) ++ R.repl c.1 (c.2 ++ [f a]))
  | none =>
      if (R.live (s.seen ++ [f a])).isEmpty then (⟨s.seen ++ [f a], []⟩, s.held ++ [a])
      else (⟨s.seen ++ [f a], s.held ++ [a]⟩, [])

/-- All that is put out for `t`, and what is held in the end. -/
def emit (t : List α) : List α :=
  let r := trace (R.step f) ⟨[], []⟩ t
  r.2 ++ r.1.held

/-! ## What is alive and what is complete -/

section Live
variable {R} {f} {w : List α} {c : α}

/-- What is alive after one more symbol: what was and goes on, and what begins with it. -/
theorem live_append (w : List α) (c : α) : R.live (w ++ [c]) =
    ((R.live w).filter fun p => (R.lexicon p.1).pre (p.2 ++ [c])).map (fun p => (p.1, p.2 ++ [c])) ++
      (R.kinds.filter fun k => (R.lexicon k).pre [c]).map (·, [c]) := by
  rw [live, List.length_append, List.length_singleton, List.range_succ, List.flatMap_append,
    List.flatMap_singleton, List.drop_left]
  congr 1
  rw [live, List.filter_flatMap, List.map_flatMap]
  apply List.flatMap_congr
  intro b hb
  rw [List.mem_range] at hb
  rw [List.drop_append_of_le_length hb.le, List.filter_map, List.map_map, List.filter_filter]
  have hne : w.drop b ≠ [] := by
    rw [Ne, List.drop_eq_nil_iff]
    omega
  congr 1
  apply List.filter_congr
  intro k _
  simp only [Function.comp_apply]
  rw [Bool.eq_iff_iff, Bool.and_eq_true]
  exact ⟨fun h => ⟨h, (R.lexicon k).pre_of_append hne h⟩, fun h => h.1⟩

private theorem findSome?_congr {β γ : Type*} {g h : β → Option γ} {l : List β}
    (heq : ∀ x ∈ l, g x = h x) : l.findSome? g = l.findSome? h := by
  induction l with
  | nil => rfl
  | cons x l ih =>
      rw [List.findSome?_cons, List.findSome?_cons, heq x List.mem_cons_self,
        ih fun y hy => heq y (List.mem_cons_of_mem _ hy)]

/-- A key that is complete with one more symbol was alive before. -/
theorem endingAt_append (w : List α) (c : α) : R.endingAt (w ++ [c]) (w.length + 1) =
    ((R.live w).find? fun p => (R.lexicon p.1).key (p.2 ++ [c])).map
      fun p => (w.length - p.2.length, p.1) := by
  have hslice : ∀ b ≤ w.length, slice (w ++ [c]) b (w.length + 1) = w.drop b ++ [c] := by
    intro b hb
    rw [slice, List.take_of_length_le (by simp), List.drop_append_of_le_length hb]
  have hlast : R.matchAt (w ++ [c]) (w.length + 1) w.length = none := by
    rw [matchAt, Option.map_eq_none_iff, List.find?_eq_none]
    intro k _ hkey
    have htwo := (R.lexicon k).two_le_of_key hkey
    rw [hslice _ le_rfl, List.drop_length] at htwo
    exact absurd htwo (by simp)
  rw [endingAt, List.range_succ, List.findSome?_append, List.findSome?_singleton, hlast, Option.or_none,
    live, List.find?_flatMap, List.map_findSome?]
  apply findSome?_congr
  intro b hb
  rw [List.mem_range] at hb
  rw [matchAt, hslice b hb.le, Function.comp_apply, List.find?_map, List.find?_filter, Option.map_map]
  have hne : w.drop b ≠ [] := by
    rw [Ne, List.drop_eq_nil_iff]
    omega
  have hlen : w.length - (w.drop b).length = b := by
    rw [List.length_drop]
    omega
  have hkey : (R.kinds.find? fun k => (R.lexicon k).key (w.drop b ++ [c])) =
      R.kinds.find? fun k => decide ((R.lexicon k).pre (w.drop b) = true ∧
        (R.lexicon k).key (w.drop b ++ [c]) = true) := by
    apply List.find?_congr
    intro k _
    rw [Bool.eq_iff_iff, decide_eq_true_iff]
    exact ⟨fun h => ⟨(R.lexicon k).pre_of_append hne ((R.lexicon k).pre_of_key h), h⟩,
      fun h => h.2⟩
  rw [hkey]
  congr 1
  funext k
  rw [Function.comp_apply, hlen]

theorem endingAt_append_right {u : List α} {e : ℕ} (he : e ≤ u.length) (r : List α) :
    R.endingAt (u ++ r) e = R.endingAt u e := by
  apply findSome?_congr
  intro b _
  rw [matchAt, matchAt, slice, slice, List.take_append_of_le_length he]

/-- The earliest key is the first that any end finds. -/
theorem earliest_of_endingAt {u : List α} {b e : ℕ} {k : κ} (he : e ≤ u.length)
    (hbefore : ∀ e' < e, R.endingAt u e' = none) (hend : R.endingAt u e = some (b, k)) :
    R.earliest u = some (b, e, k) := by
  obtain ⟨n, hn⟩ := Nat.exists_eq_add_of_lt (Nat.lt_succ_of_le he)
  have hrange : List.range (u.length + 1) = List.range e ++ e :: (List.range n).map (e + 1 + ·) := by
    have hlen : u.length + 1 = e + 1 + n := by omega
    rw [hlen, List.range_add, List.range_succ, List.append_assoc]
    rfl
  rw [earliest, hrange, List.findSome?_append, List.findSome?_cons, hend]
  have hnone : (List.range e).findSome? (fun e => (R.endingAt u e).map fun m => (m.1, e, m.2)) = none := by
    rw [List.findSome?_eq_none_iff]
    intro e' he'
    rw [hbefore e' (List.mem_range.mp he'), Option.map_none]
  rw [hnone]
  rfl

theorem earliest_eq_none {u : List α} (h : ∀ e ≤ u.length, R.endingAt u e = none) :
    R.earliest u = none := by
  rw [earliest, List.findSome?_eq_none_iff]
  intro e he
  rw [h e (Nat.lt_succ_iff.mp (List.mem_range.mp he)), Option.map_none]

/-- What is alive is the end of the text from some place on. -/
theorem eq_drop_of_mem_live {p : κ × List α} (hp : p ∈ R.live w) :
    p.2.length ≤ w.length ∧ p.2 = w.drop (w.length - p.2.length) := by
  obtain ⟨b, hb, hp⟩ := List.mem_flatMap.mp hp
  obtain ⟨k, -, rfl⟩ := List.mem_map.mp hp
  rw [List.mem_range] at hb
  rw [List.length_drop]
  refine ⟨Nat.sub_le _ _, ?_⟩
  rw [Nat.sub_sub_self hb.le]

end Live

/-! ## The run -/

/-- What holds between two symbols: no key has ended in what was seen, and what is alive is
still held. -/
structure Waiting (s : State α) : Prop where
  quiet : ∀ e ≤ s.seen.length, R.endingAt s.seen e = none
  held : ∀ p ∈ R.live s.seen, p.2.length ≤ s.held.length

theorem waiting_nil : R.Waiting ⟨[], []⟩ where
  quiet := by
    intro e he
    rw [Nat.le_zero.mp he]
    rfl
  held := by
    intro p hp
    cases hp

section Run
variable {R} {f} {s : State α} {a : α}

/-- A symbol that completes no key. -/
theorem Waiting.append (W : R.Waiting s)
    (hnone : (R.live s.seen).find? (fun p => (R.lexicon p.1).key (p.2 ++ [f a])) = none) :
    R.Waiting ⟨s.seen ++ [f a], s.held ++ [a]⟩ where
  quiet := by
    intro e he
    rw [List.length_append, List.length_singleton] at he
    rcases Nat.lt_or_eq_of_le he with he | rfl
    · rw [endingAt_append_right (Nat.lt_succ_iff.mp he)]
      exact W.quiet e (Nat.lt_succ_iff.mp he)
    · rw [endingAt_append, hnone, Option.map_none]
  held := by
    intro p hp
    rw [live_append, List.mem_append] at hp
    rw [List.length_append, List.length_singleton]
    rcases hp with hp | hp
    · obtain ⟨p', hp', rfl⟩ := List.mem_map.mp hp
      rw [List.length_append, List.length_singleton]
      exact Nat.succ_le_succ (W.held p' (List.mem_filter.mp hp').1)
    · obtain ⟨k, -, rfl⟩ := List.mem_map.mp hp
      exact Nat.le_add_left _ _

/-- A symbol lets go of what was seen only where nothing is alive. -/
theorem Waiting.step (W : R.Waiting s) (a : α) : R.Waiting (R.step f s a).1 := by
  rw [Rules.step]
  split
  · exact R.waiting_nil
  · rename_i hnone
    have W' := W.append hnone
    split_ifs with hlive
    · refine ⟨W'.quiet, ?_⟩
      intro p hp
      rw [List.isEmpty_iff.mp hlive] at hp
      cases hp
    · exact W'

/-- A symbol that completes a key: what was seen before the key is copied, and the rest begins anew. -/
theorem Waiting.reference_found (W : R.Waiting s) {flushed : List α}
    (hseen : s.seen = (flushed ++ s.held).map f) {p : κ × List α}
    (hfind : (R.live s.seen).find? (fun p => (R.lexicon p.1).key (p.2 ++ [f a])) = some p)
    (r : List α) :
    R.reference f (flushed ++ s.held ++ a :: r) =
      flushed ++ s.held.take (s.held.length - p.2.length) ++ R.repl p.1 (p.2 ++ [f a]) ++
        R.reference f r := by
  have hp := List.mem_of_find?_eq_some hfind
  have hheld := W.held p hp
  obtain ⟨hle, hdrop⟩ := eq_drop_of_mem_live hp
  have hend := endingAt_append (R := R) s.seen (f a)
  rw [hfind, Option.map_some] at hend
  have htext : (flushed ++ s.held ++ a :: r).map f = (s.seen ++ [f a]) ++ r.map f := by
    rw [List.map_append, ← hseen, List.map_cons, List.append_assoc]
    rfl
  have hlen : (s.seen ++ [f a]).length = s.seen.length + 1 := by simp
  have hearliest : R.earliest ((flushed ++ s.held ++ a :: r).map f) =
      some (s.seen.length - p.2.length, s.seen.length + 1, p.1) := by
    rw [htext]
    apply earliest_of_endingAt
    · simp
    · intro e he
      rw [endingAt_append_right (by omega), endingAt_append_right (by omega)]
      exact W.quiet e (by omega)
    · rw [endingAt_append_right hlen.ge]
      exact hend
  have hseenlen : s.seen.length = flushed.length + s.held.length := by
    rw [hseen, List.length_map, List.length_append]
  have hslice : slice ((flushed ++ s.held ++ a :: r).map f) (s.seen.length - p.2.length)
      (s.seen.length + 1) = p.2 ++ [f a] := by
    rw [htext, slice, List.take_left' hlen, List.drop_append_of_le_length (Nat.sub_le _ _), ← hdrop]
  have htake : (flushed ++ s.held ++ a :: r).take (s.seen.length - p.2.length) =
      flushed ++ s.held.take (s.held.length - p.2.length) := by
    rw [List.append_assoc, hseenlen, Nat.add_sub_assoc hheld, List.take_length_add_append,
      List.take_append_of_le_length (Nat.sub_le _ _)]
  have hrest : (flushed ++ s.held ++ a :: r).drop (s.seen.length + 1) = r := by
    rw [hseenlen, ← List.length_append, List.drop_length_add_append]
    rfl
  rw [reference_of_some _ _ hearliest, hslice, htake, hrest]

theorem trace_eq_reference (r : List α) (s : State α) (W : R.Waiting s) (flushed : List α)
    (hseen : s.seen = (flushed ++ s.held).map f) :
    flushed ++ ((trace (R.step f) s r).2 ++ (trace (R.step f) s r).1.held) =
      R.reference f (flushed ++ s.held ++ r) := by
  induction r generalizing s flushed with
  | nil =>
      have hnone : R.earliest ((flushed ++ s.held ++ []).map f) = none := by
        rw [List.append_nil, ← hseen]
        exact earliest_eq_none W.quiet
      rw [reference_of_none _ _ hnone]
      simp [trace]
  | cons a r ih =>
      rw [trace_cons]
      cases hfind : (R.live s.seen).find? fun p => (R.lexicon p.1).key (p.2 ++ [f a]) with
      | some p =>
          have hstep : R.step f s a = (⟨[], []⟩,
              s.held.take (s.held.length - p.2.length) ++ R.repl p.1 (p.2 ++ [f a])) := by
            rw [step, hfind]
          have hrest : (trace (R.step f) ⟨[], []⟩ r).2 ++ (trace (R.step f) ⟨[], []⟩ r).1.held =
              R.reference f r := ih ⟨[], []⟩ R.waiting_nil [] rfl
          rw [W.reference_found hseen hfind, hstep, ← hrest]
          simp only [List.append_assoc]
      | none =>
          have W' := W.append hfind
          by_cases hlive : (R.live (s.seen ++ [f a])).isEmpty
          · have hstep : R.step f s a = (⟨s.seen ++ [f a], []⟩, s.held ++ [a]) := by
              rw [step, hfind]
              exact if_pos hlive
            rw [hstep]
            have hidle := W.step (f := f) a
            rw [hstep] at hidle
            have hrest := ih _ hidle (flushed ++ s.held ++ [a]) (by simp [hseen])
            simpa using hrest
          · have hstep : R.step f s a = (⟨s.seen ++ [f a], s.held ++ [a]⟩, []) := by
              rw [step, hfind]
              exact if_neg hlive
            rw [hstep]
            have hrest := ih _ W' flushed (by simp [hseen])
            simpa using hrest

/-- **The matcher puts out the reference rewriting** of every text. -/
theorem emit_eq_reference (R : Rules α κ) (f : α → α) (t : List α) : R.emit f t = R.reference f t := by
  have h := trace_eq_reference (f := f) t ⟨[], []⟩ R.waiting_nil [] rfl
  exact h

end Run

end Rules

end EarliestMatch
