import Mathlib.Data.List.Basic

/-!
# Words between blanks

A text is cut at its runs of blanks. `cutFrom_words` gives the pieces of a text that was
put together from words and gaps, and `span_eq` what a scanner reads that stops at the
first symbol it does not want.
-/
namespace Words

universe u
variable {α : Type u} (p : α → Bool)

/-- Cut a text at the runs of blanks, with the piece read so far and whether the last symbol
was a blank. -/
def cutFrom : List α → Bool → List α → List (List α)
  | cur, _, [] => [cur]
  | cur, blank, a :: as =>
      if p a then (if blank then cutFrom [] true as else cur :: cutFrom [] true as)
      else cutFrom (cur ++ [a]) false as

/-- The pieces between the runs of blanks. There is an empty one before blanks at the
beginning, and one after blanks at the end. -/
def cut (as : List α) : List (List α) := cutFrom p [] false as

variable {p} {w g r : List α}

/-- What is scanned stops at a symbol that does not belong to it. -/
theorem span_eq (hw : ∀ a ∈ w, p a = true) (hr : ∀ a ∈ r.head?, p a = false) :
    (w ++ r).takeWhile p = w ∧ (w ++ r).dropWhile p = r := by
  rw [List.takeWhile_append_of_pos hw, List.dropWhile_append_of_pos hw]
  cases r with
  | nil => simp
  | cons a r =>
      have ha : ¬ p a = true := by simp [hr a rfl]
      rw [List.takeWhile_cons_of_neg ha, List.dropWhile_cons_of_neg ha]
      exact ⟨List.append_nil w, rfl⟩

theorem cutFrom_word (cur as : List α) (blank : Bool) (hw : ∀ a ∈ w, p a = false) (hne : w ≠ []) :
    cutFrom p cur blank (w ++ as) = cutFrom p (cur ++ w) false as := by
  induction w generalizing cur blank with
  | nil => exact absurd rfl hne
  | cons a w ih =>
      rw [List.cons_append, cutFrom, if_neg (by simp [hw a])]
      cases w with
      | nil => rfl
      | cons b w =>
          rw [ih (cur ++ [a]) false (fun b hb => hw b (by simp [hb])) (by simp)]
          simp

theorem cutFrom_blanks (as : List α) (hg : ∀ a ∈ g, p a = true) :
    cutFrom p [] true (g ++ as) = cutFrom p [] true as := by
  induction g with
  | nil => rfl
  | cons a g ih =>
      rw [List.cons_append, cutFrom, if_pos (hg a (by simp)), if_pos rfl]
      exact ih fun b hb => hg b (by simp [hb])

theorem cutFrom_gap (cur as : List α) (hg : ∀ a ∈ g, p a = true) (hne : g ≠ []) :
    cutFrom p cur false (g ++ as) = cur :: cutFrom p [] true as := by
  cases g with
  | nil => exact absurd rfl hne
  | cons a g =>
      rw [List.cons_append, cutFrom, if_pos (hg a (by simp)), if_neg Bool.false_ne_true,
        cutFrom_blanks as fun b hb => hg b (by simp [hb])]

/-- Words, each behind a gap, and the blanks at the end. -/
theorem cutFrom_words (w₀ t : List α) (ws : List (List α × List α)) (ht : ∀ a ∈ t, p a = true)
    (hws : ∀ x ∈ ws, (x.1 ≠ [] ∧ ∀ a ∈ x.1, p a = true) ∧ x.2 ≠ [] ∧ ∀ a ∈ x.2, p a = false) :
    cutFrom p w₀ false (ws.flatMap (fun x => x.1 ++ x.2) ++ t) =
      w₀ :: ws.map Prod.snd ++ if t = [] then [] else [[]] := by
  induction ws generalizing w₀ with
  | nil =>
      by_cases h : t = []
      · subst h
        rfl
      · have := cutFrom_gap w₀ [] ht h
        simpa [h, cutFrom] using this
  | cons x ws ih =>
      obtain ⟨⟨hgne, hg⟩, hwne, hw⟩ := hws x (by simp)
      rw [List.flatMap_cons, List.append_assoc, List.append_assoc, cutFrom_gap w₀ _ hg hgne,
        cutFrom_word [] _ true hw hwne, List.nil_append,
        ih x.2 fun y hy => hws y (by simp [hy])]
      rfl

end Words
