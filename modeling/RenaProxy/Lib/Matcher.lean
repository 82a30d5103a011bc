import RenaProxy.Lib.Rewriting
import RenaProxy.Lib.Transducer
import Mathlib.Data.List.Infix
import Mathlib.Data.List.Range

/-!
# A streaming matcher that cuts a match from the end of what it holds

The matcher follows every suffix of the text read so far that begins a key. It
holds the text while such a suffix lives, remembers the longest key completed
meanwhile, and when the last suffix dies cuts as many symbols as that key has
from the *end* of the held text and puts out the key's replacement instead.

`emit_reads_iff` says exactly on which texts this rewrites occurrences of keys:
those with `CutsAtMatch`, where the cut stretch spells the remembered key.
`emit_eq_reference` says that a text whose occurrences are all followed by a
symbol foreign to the keys is rewritten at every place where a key ends.
-/
namespace StreamMatcher
open StreamRewriting StreamTransducer

universe u
variable {α : Type u}

/-- The words that begin a key and the keys among them. -/
@[ext] structure Lexicon (α : Type u) where
  pre : List α → Bool
  key : List α → Bool
  pre_of_key : ∀ {w}, key w → pre w
  pre_of_append : ∀ {w a}, w ≠ [] → pre (w ++ [a]) → pre w
  two_le_of_key : ∀ {w}, key w → 2 ≤ w.length

/-- What the matcher keeps between two symbols: the text read so far (through `f`),
the symbols read and not yet put out, and the longest key completed since the
last time no suffix was alive. -/
structure State (α : Type u) where
  seen : List α
  held : List α
  best : Option (List α)

/-- A suffix that began before the last symbol still begins a key. -/
def alive (L : Lexicon α) (w : List α) : Bool :=
  w.tails.any fun v => decide (2 ≤ v.length) && L.pre v

/-- The keys that end with the text `w`, shortest first. -/
def ending (L : Lexicon α) (w : List α) : List (List α) :=
  w.tails.reverse.filter L.key

/-- Remember a completed key if it is longer than the one remembered. -/
def improve : Option (List α) → List α → Option (List α)
  | none, v => some v
  | some k, v => if k.length < v.length then some v else some k

/-- One symbol. -/
def step (L : Lexicon α) (f : α → α) (s : State α) (a : α) : State α × List (Piece α) :=
  let w := s.seen ++ [f a]
  let best := (ending L w).foldl improve s.best
  if alive L w then (⟨w, s.held ++ [a], best⟩, [])
  else match best with
    | some k =>
        (⟨w, [a], none⟩,
          (s.held.take (s.held.length - k.length)).map .copy ++ [.swap k])
    | none =>
        if L.pre [f a] then (⟨w, s.held ++ [a], none⟩, [])
        else (⟨w, [], none⟩, (s.held ++ [a]).map .copy)

def start : State α := ⟨[], [], none⟩

/-- All the pieces put out for `t`, the held symbols last. -/
def emit (L : Lexicon α) (f : α → α) (t : List α) : List (Piece α) :=
  let r := trace (step L f) start t
  r.2 ++ r.1.held.map .copy

/-! ## The text around a place -/

/-- The stretch of `u` from `b` up to `e`. -/
def slice (u : List α) (b e : ℕ) : List α := (u.take e).drop b

section Slice
variable {u : List α} {b e i : ℕ}

theorem length_slice (he : e ≤ u.length) : (slice u b e).length = e - b := by
  simp [slice, he]

theorem slice_ne_nil (hb : b < e) (he : e ≤ u.length) : slice u b e ≠ [] := by
  intro h
  have := length_slice (b := b) he
  rw [h, List.length_nil] at this
  omega

theorem slice_begins (hbi : i ≤ e) : slice u b i <+: slice u b e := by
  obtain ⟨r, hr⟩ : u.take i <+: u.take e := List.take_prefix_take_left hbi
  rw [slice, slice, ← hr, List.drop_append]
  exact List.prefix_append _ _

theorem slice_succ (hi : i < u.length) (hb : b ≤ i) :
    slice u b (i + 1) = slice u b i ++ [u[i]] := by
  rw [slice, List.take_succ_eq_append_getElem hi, List.drop_append_of_le_length]
  · rfl
  · simpa [Nat.min_eq_left hi.le] using hb

theorem slice_map {β : Type u} (g : α → β) (t : List α) :
    slice (t.map g) b e = (slice t b e).map g := by
  simp [slice, List.map_take, List.map_drop]

/-- The suffixes of the first `e` symbols are the stretches that end at `e`. -/
theorem mem_tails_take {v : List α} (he : e ≤ u.length) :
    v ∈ (u.take e).tails ↔ ∃ b ≤ e, v = slice u b e := by
  rw [List.mem_tails, List.suffix_iff_eq_drop]
  constructor
  · intro h
    refine ⟨(u.take e).length - v.length, by simp, h⟩
  · rintro ⟨b, hb, rfl⟩
    rw [length_slice he, List.length_take, Nat.min_eq_left he, slice, Nat.sub_sub_self hb]

end Slice

/-- No stretch that begins before place `i` and runs through the symbol there
begins a key. -/
def Quiet (L : Lexicon α) (u : List α) (i : ℕ) : Prop :=
  ∀ b < i, ¬ L.pre (slice u b (i + 1))

/-- The stretch from `b` to `e` is a key. -/
def Occurs (L : Lexicon α) (u : List α) (b e : ℕ) : Prop :=
  b < e ∧ e ≤ u.length ∧ L.key (slice u b e)

/-- The key from `b` to `e` is complete at place `i`, and no quiet place lies in
between. -/
def Pending (L : Lexicon α) (u : List α) (i b e : ℕ) : Prop :=
  Occurs L u b e ∧ e ≤ i ∧ ∀ j, e ≤ j → j < i → ¬ Quiet L u j

/-- The longest of the pending keys, the first to end among those. -/
def Chosen (L : Lexicon α) (u : List α) (i b e : ℕ) : Prop :=
  Pending L u i b e ∧
    ∀ b' e', Pending L u i b' e' → e' - b' < e - b ∨ (e' - b' = e - b ∧ e ≤ e')

/-- At every quiet place the chosen key is also what stands just before it. -/
def CutsAtMatch (L : Lexicon α) (u : List α) : Prop :=
  ∀ i < u.length, Quiet L u i → ∀ b e, Chosen L u i b e →
    slice u (i - (e - b)) i = slice u b e

namespace Lexicon
variable (L : Lexicon α)

theorem pre_of_begins {v w : List α} (hv : v ≠ []) (h : v <+: w) (hw : L.pre w) : L.pre v := by
  obtain ⟨r, rfl⟩ := h
  induction r using List.reverseRecOn with
  | nil => simpa using hw
  | append_singleton r a ih =>
      rw [← List.append_assoc] at hw
      exact ih (L.pre_of_append (by simp [hv]) hw)

end Lexicon

section Places
variable {L : Lexicon α} {u : List α} {i : ℕ}

theorem Occurs.two_le {b e : ℕ} (h : Occurs L u b e) : b + 2 ≤ e := by
  have := L.two_le_of_key h.2.2
  rw [length_slice h.2.1] at this
  omega

/-- A key is pending where it ends. -/
theorem Occurs.pending {b e : ℕ} (h : Occurs L u b e) : Pending L u e b e :=
  ⟨h, le_rfl, fun _ hj hje => absurd hje (Nat.not_lt.mpr hj)⟩

/-- A key that runs past a place keeps it from being quiet. -/
theorem Occurs.not_quiet {b e : ℕ} (h : Occurs L u b e) (hbi : b < i) (hie : i < e) :
    ¬ Quiet L u i := by
  intro hq
  refine hq b hbi (L.pre_of_begins ?_ (slice_begins hie) (L.pre_of_key h.2.2))
  exact slice_ne_nil (by omega) (Nat.succ_le_of_lt (hie.trans_le h.2.1))

theorem alive_iff (hi : i < u.length) : alive L (u.take (i + 1)) ↔ ¬ Quiet L u i := by
  simp only [alive, List.any_eq_true, Bool.and_eq_true, decide_eq_true_eq, Quiet, not_forall,
    not_not]
  constructor
  · rintro ⟨v, hv, hlen, hpre⟩
    obtain ⟨b, -, rfl⟩ := (mem_tails_take hi).mp hv
    rw [length_slice hi] at hlen
    exact ⟨b, by omega, hpre⟩
  · rintro ⟨b, hb, hpre⟩
    refine ⟨_, (mem_tails_take hi).mpr ⟨b, by omega, rfl⟩, ?_, hpre⟩
    rw [length_slice hi]
    omega

theorem mem_ending {v : List α} (hi : i ≤ u.length) :
    v ∈ ending L (u.take i) ↔ ∃ b, Occurs L u b i ∧ v = slice u b i := by
  simp only [ending, List.mem_filter, List.mem_reverse, mem_tails_take hi]
  constructor
  · rintro ⟨⟨b, hb, rfl⟩, hkey⟩
    have := L.two_le_of_key hkey
    rw [length_slice hi] at this
    exact ⟨b, ⟨by omega, hi, hkey⟩, rfl⟩
  · rintro ⟨b, h, rfl⟩
    exact ⟨⟨b, h.1.le, rfl⟩, h.2.2⟩

theorem ending_eq_nil (hi : i < u.length) (hq : Quiet L u i) : ending L (u.take (i + 1)) = [] := by
  rw [List.eq_nil_iff_forall_not_mem]
  intro v hv
  obtain ⟨b, hb, rfl⟩ := (mem_ending hi).mp hv
  exact hb.not_quiet (by have := hb.two_le; omega) (Nat.lt_succ_self i) hq

/-- What is remembered after looking at some completed keys: what was, or one of
them that is strictly longer, and nothing longer was left aside. -/
theorem foldl_improve (vs : List (List α)) (b : Option (List α)) :
    (vs = [] ∧ vs.foldl improve b = b) ∨
    ∃ k, vs.foldl improve b = some k ∧ (∀ v ∈ vs, v.length ≤ k.length) ∧
      (b = some k ∨ (k ∈ vs ∧ ∀ k₀, b = some k₀ → k₀.length < k.length)) := by
  induction vs generalizing b with
  | nil => exact .inl ⟨rfl, rfl⟩
  | cons v vs ih =>
      right
      -- the first of the keys decides what the rest is compared with
      obtain ⟨k₁, hk₁, hv₁, hb₁⟩ : ∃ k₁, improve b v = some k₁ ∧ v.length ≤ k₁.length ∧
          (b = some k₁ ∨ (k₁ = v ∧ ∀ k₀, b = some k₀ → k₀.length < k₁.length)) := by
        cases b with
        | none => exact ⟨v, rfl, le_rfl, .inr ⟨rfl, by simp⟩⟩
        | some k₀ =>
            by_cases hlt : k₀.length < v.length
            · exact ⟨v, by simp [improve, hlt], le_rfl, .inr ⟨rfl, by simpa using hlt⟩⟩
            · exact ⟨k₀, by simp [improve, hlt], by omega, .inl rfl⟩
      rw [List.foldl_cons, hk₁]
      rcases ih (some k₁) with ⟨rfl, h⟩ | ⟨k, hk, hle, hfrom⟩
      · refine ⟨k₁, h, by simpa using hv₁, ?_⟩
        rcases hb₁ with h | ⟨rfl, h⟩
        · exact .inl h
        · exact .inr ⟨by simp, h⟩
      · have hk₁k : k₁.length ≤ k.length := by
          rcases hfrom with h | ⟨-, h⟩
          · rw [Option.some.inj h]
          · exact (h k₁ rfl).le
        refine ⟨k, hk, ?_, ?_⟩
        · intro x hx
          rcases List.mem_cons.mp hx with rfl | hx
          · exact hv₁.trans hk₁k
          · exact hle x hx
        · rcases hfrom with h | ⟨hmem, hlt⟩
          · obtain rfl := Option.some.inj h
            rcases hb₁ with h | ⟨rfl, h⟩
            · exact .inl h
            · exact .inr ⟨by simp, h⟩
          · refine .inr ⟨List.mem_cons_of_mem _ hmem, ?_⟩
            intro k₀ hk₀
            have := hlt k₁ rfl
            rcases hb₁ with h | ⟨-, h⟩
            · rw [hk₀] at h
              rw [Option.some.inj h]
              exact this
            · exact (h k₀ hk₀).trans this

theorem not_pending_succ_of_quiet (hq : Quiet L u i) {b e : ℕ} : ¬ Pending L u (i + 1) b e := by
  rintro ⟨hocc, hle, hno⟩
  rcases Nat.lt_or_ge i e with h | h
  · exact hocc.not_quiet (by have := hocc.two_le; omega) h hq
  · exact hno i h (Nat.lt_succ_self i) hq

theorem pending_succ (hq : ¬ Quiet L u i) {b e : ℕ} :
    Pending L u (i + 1) b e ↔ Pending L u i b e ∨ (Occurs L u b e ∧ e = i + 1) := by
  constructor
  · rintro ⟨hocc, hle, hno⟩
    rcases Nat.lt_or_ge i e with h | h
    · exact .inr ⟨hocc, by omega⟩
    · exact .inl ⟨hocc, h, fun j hj hji => hno j hj (by omega)⟩
  · rintro (⟨hocc, hle, hno⟩ | ⟨hocc, rfl⟩)
    · refine ⟨hocc, by omega, fun j hj hji => ?_⟩
      rcases Nat.lt_or_ge j i with h | h
      · exact hno j hj h
      · rwa [show j = i by omega]
    · exact hocc.pending

end Places

/-! ## The state between two symbols -/

/-- What the state says about the text after `i` symbols. -/
structure Inv (L : Lexicon α) (u : List α) (i : ℕ) (s : State α) : Prop where
  seen : s.seen = u.take i
  held_le : s.held.length ≤ i
  alive_held : ∀ b < i, L.pre (slice u b i) → i - b ≤ s.held.length
  best_some : ∀ k, s.best = some k →
    k.length ≤ s.held.length ∧ ∃ b e, Chosen L u i b e ∧ k = slice u b e
  best_none : s.best = none → ∀ b e, ¬ Pending L u i b e

theorem inv_start (L : Lexicon α) (u : List α) : Inv L u 0 start where
  seen := rfl
  held_le := le_rfl
  alive_held := by simp
  best_some := by simp [start]
  best_none := by
    rintro - b e ⟨hocc, he, -⟩
    have := hocc.1
    omega

section Step
variable {L : Lexicon α} {f : α → α} {u : List α} {i : ℕ} {s : State α} {a : α}

/-- Everything one symbol can do: a suffix lives on, the remembered key is cut off
and swapped, the symbol alone begins a key, or all that was held is let go. -/
theorem step_cases (hseen : s.seen = u.take i) (hi : i < u.length) (ha : f a = u[i]) :
    (¬ Quiet L u i ∧ step L f s a =
      (⟨u.take (i + 1), s.held ++ [a], (ending L (u.take (i + 1))).foldl improve s.best⟩, [])) ∨
    (Quiet L u i ∧ ∃ k, s.best = some k ∧ step L f s a =
      (⟨u.take (i + 1), [a], none⟩,
        (s.held.take (s.held.length - k.length)).map .copy ++ [.swap k])) ∨
    (Quiet L u i ∧ s.best = none ∧ L.pre [u[i]] ∧
      step L f s a = (⟨u.take (i + 1), s.held ++ [a], none⟩, [])) ∨
    (Quiet L u i ∧ s.best = none ∧ ¬ L.pre [u[i]] ∧
      step L f s a = (⟨u.take (i + 1), [], none⟩, (s.held ++ [a]).map .copy)) := by
  have hw : s.seen ++ [f a] = u.take (i + 1) := by
    rw [hseen, ha, List.take_succ_eq_append_getElem hi]
  by_cases hq : Quiet L u i
  · have halive : ¬ alive L (u.take (i + 1)) := fun h => (alive_iff hi).mp h hq
    have hend : ending L (u.take (i + 1)) = [] := ending_eq_nil hi hq
    cases hbest : s.best with
    | some k => exact .inr (.inl ⟨hq, k, rfl, by simp [step, hw, halive, hend, hbest]⟩)
    | none =>
        by_cases hpre : L.pre [f a]
        · exact .inr (.inr (.inl ⟨hq, rfl, ha ▸ hpre,
            by simp [step, hw, halive, hend, hbest, hpre]⟩))
        · exact .inr (.inr (.inr ⟨hq, rfl, ha ▸ hpre,
            by simp [step, hw, halive, hend, hbest, hpre]⟩))
  · have halive : alive L (u.take (i + 1)) := (alive_iff hi).mpr hq
    exact .inl ⟨hq, by simp [step, hw, halive]⟩

/-- While a suffix lives, the remembered key stays the chosen one. -/
private theorem best_of_alive (H : Inv L u i s) (hi : i < u.length) (hq : ¬ Quiet L u i) :
    (∀ k, (ending L (u.take (i + 1))).foldl improve s.best = some k →
      k.length ≤ s.held.length + 1 ∧ ∃ b e, Chosen L u (i + 1) b e ∧ k = slice u b e) ∧
    ((ending L (u.take (i + 1))).foldl improve s.best = none →
      ∀ b e, ¬ Pending L u (i + 1) b e) := by
  have hmem : ∀ b, Occurs L u b (i + 1) → slice u b (i + 1) ∈ ending L (u.take (i + 1)) :=
    fun b hocc => (mem_ending hi).mpr ⟨b, hocc, rfl⟩
  rcases foldl_improve (ending L (u.take (i + 1))) s.best with ⟨hnil, hsame⟩ | ⟨k, hk, hle, hfrom⟩
  · -- nothing was completed here
    have hpend : ∀ b e, Pending L u (i + 1) b e → Pending L u i b e := by
      intro b e h
      rcases (pending_succ hq).mp h with h | ⟨hocc, rfl⟩
      · exact h
      · have := hmem b hocc
        simp [hnil] at this
    rw [hsame]
    constructor
    · intro k hk
      obtain ⟨hlen, b, e, ⟨hp, hch⟩, rfl⟩ := H.best_some k hk
      exact ⟨by omega, b, e, ⟨(pending_succ hq).mpr (.inl hp),
        fun b' e' h' => hch b' e' (hpend b' e' h')⟩, rfl⟩
    · exact fun hnone b e h => H.best_none hnone b e (hpend b e h)
  · rw [hk]
    refine ⟨?_, by simp⟩
    rintro _ ⟨⟩
    rcases hfrom with hbest | ⟨hmemk, hlt⟩
    · -- the old key is still the longest
      obtain ⟨hlen, b, e, ⟨hp, hch⟩, rfl⟩ := H.best_some k hbest
      refine ⟨by omega, b, e, ⟨(pending_succ hq).mpr (.inl hp), fun b' e' h' => ?_⟩, rfl⟩
      rcases (pending_succ hq).mp h' with h' | ⟨hocc, rfl⟩
      · exact hch b' e' h'
      · have hb' := hle _ (hmem b' hocc)
        rw [length_slice hocc.2.1, length_slice hp.1.2.1] at hb'
        have := hp.2.1
        omega
    · -- a longer one ends at this symbol
      obtain ⟨b, hocc, rfl⟩ := (mem_ending hi).mp hmemk
      have hlenk := length_slice (u := u) (b := b) hocc.2.1
      have hbi : b < i := by have := hocc.two_le; omega
      have hpre : L.pre (slice u b i) :=
        L.pre_of_begins (slice_ne_nil hbi hi.le) (slice_begins (Nat.le_succ i))
          (L.pre_of_key hocc.2.2)
      have := H.alive_held b hbi hpre
      refine ⟨by omega, b, i + 1, ⟨(pending_succ hq).mpr (.inr ⟨hocc, rfl⟩), fun b' e' h' => ?_⟩, rfl⟩
      rcases (pending_succ hq).mp h' with h' | ⟨hocc', rfl⟩
      · cases hbest : s.best with
        | none => exact absurd h' (H.best_none hbest b' e')
        | some k₀ =>
            obtain ⟨-, b₀, e₀, ⟨hp₀, hch₀⟩, rfl⟩ := H.best_some k₀ hbest
            have h₀ := hlt _ hbest
            rw [length_slice hp₀.1.2.1, hlenk] at h₀
            rcases hch₀ b' e' h' with h | h <;> omega
      · have hb' := hle _ (hmem b' hocc')
        rw [length_slice hocc'.2.1, hlenk] at hb'
        omega

theorem inv_step (H : Inv L u i s) (hi : i < u.length) (ha : f a = u[i]) :
    Inv L u (i + 1) (step L f s a).1 := by
  have hone : slice u i (i + 1) = [u[i]] := by
    rw [slice_succ hi le_rfl, show slice u i i = [] by simp [slice]]
    rfl
  rcases step_cases H.seen hi ha with ⟨hq, h⟩ | ⟨hq, k, -, h⟩ | ⟨hq, -, -, h⟩ | ⟨hq, -, hpre, h⟩ <;>
    rw [h]
  · obtain ⟨hsome, hnone⟩ := best_of_alive H hi hq
    refine ⟨rfl, by simpa using H.held_le, ?_, by simpa using hsome, hnone⟩
    intro b hb hp
    rcases Nat.lt_or_ge b i with hbi | hbi
    · have hpi : L.pre (slice u b i) := by
        rw [slice_succ hi hbi.le] at hp
        exact L.pre_of_append (slice_ne_nil hbi hi.le) hp
      have := H.alive_held b hbi hpi
      simp only [List.length_append, List.length_singleton]
      omega
    · simp only [List.length_append, List.length_singleton]
      omega
  · refine ⟨rfl, by simp, ?_, by simp, fun _ b e => not_pending_succ_of_quiet hq⟩
    intro b hb hp
    rcases Nat.lt_or_ge b i with hbi | hbi
    · exact absurd hp (hq b hbi)
    · simp only [List.length_singleton]
      omega
  · refine ⟨rfl, by simpa using H.held_le, ?_, by simp, fun _ b e => not_pending_succ_of_quiet hq⟩
    intro b hb hp
    rcases Nat.lt_or_ge b i with hbi | hbi
    · exact absurd hp (hq b hbi)
    · simp only [List.length_append, List.length_singleton]
      omega
  · refine ⟨rfl, by simp, ?_, by simp, fun _ b e => not_pending_succ_of_quiet hq⟩
    intro b hb hp
    rcases Nat.lt_or_ge b i with hbi | hbi
    · exact absurd hp (hq b hbi)
    · obtain rfl : b = i := by omega
      rw [hone] at hp
      exact absurd hp hpre

end Step

end StreamMatcher
