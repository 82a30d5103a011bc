import RenaProxy.Database.Zones
import RenaProxy.Lib.Mealy

/-!
# Escaped links

Scripts write a link with its slashes escaped and its line ends spelled out. The
full-link parser reads such a text as it reads the plain one: `evaluate_written`
compares the two runs character by character, however the writer chose. Between two
characters both runs are in one of the stages without a pending backslash.
-/
namespace RenaProxy.FullLinkStage

/-- What follows the backslash when a character is written escaped. -/
def partner (c : UInt8) : Option UInt8 :=
  if c = slash then some slash
  else if c = 10 then some 110
  else if c = 13 then some 114
  else if c = 9 then some 116
  else if c = 11 then some 118
  else if c = 12 then some 102
  else .none

/-- A character as it is written, escaped where the writer chose so and it can be. -/
def written (c : UInt8 × Bool) : List UInt8 :=
  match c.2, partner c.1 with
  | true, some p => [backslash, p]
  | _, _ => [c.1]

/-- The characters of a text of which the writer has chosen how to write each. -/
def plain (t : List (UInt8 × Bool)) : List UInt8 := t.map Prod.fst

/-- The bytes of such a text. -/
def escaped (t : List (UInt8 × Bool)) : List UInt8 := t.flatMap written

/-- The stages between two characters. -/
def Settled (s : FullLinkStage) : Prop := s = unknown ∨ s = none ∨ s = bar ∨ s = allowed

instance : DecidablePred Settled := fun _ => inferInstanceAs (Decidable (_ ∨ _))

theorem written_cases (c : UInt8 × Bool) :
    written c = [c.1] ∨ (c.1 = slash ∧ written c = [backslash, slash]) ∨
      (c.1 ∈ blanks ∧ ∃ p ∈ escapes, p ≠ slash ∧ written c = [backslash, p]) := by
  obtain ⟨b, chosen⟩ := c
  cases chosen with
  | false => exact .inl rfl
  | true =>
      cases hp : partner b with
      | none => exact .inl (by simp [written, hp])
      | some p =>
          have hw : written (b, true) = [backslash, p] := by simp [written, hp]
          rw [hw]
          rw [partner] at hp
          split_ifs at hp with h <;> obtain rfl := Option.some.inj hp
          · exact .inr (.inl ⟨h, rfl⟩)
          all_goals
            subst b
            exact .inr (.inr ⟨by decide, _, by decide +kernel, by decide, rfl⟩)

/-- One character, written either way, from a stage between two characters: the run ends in
the same stage, and the last byte gets the same answer. -/
theorem evaluate_written_of_settled {s : FullLinkStage} {c : UInt8 × Bool} (hs : Settled s)
    (hc : c.1 ≠ backslash) :
    Settled (evaluate c.1 s).1 ∧ ∃ init last, written c = init ++ [last] ∧
      evaluate last (Mealy.after (fun s b => evaluate b s) s init) = evaluate c.1 s := by
  obtain h | ⟨h, hw⟩ | ⟨h, p, hp, hslash, hw⟩ := written_cases c
  · refine ⟨?_, [], c.1, h, rfl⟩
    rcases hs with rfl | rfl | rfl | rfl <;> simp only [evaluate, Settled, if_neg hc] <;>
      split_ifs <;> simp
  · rw [hw, h]
    rcases hs with rfl | rfl | rfl | rfl <;> exact ⟨by decide, [backslash], slash, rfl, rfl⟩
  · -- a blank ends the link, and so does its letter after the backslash
    have hne : c.1 ≠ slash := fun hc' => absurd (hc' ▸ h) (by decide)
    have hesc : p ∈ chars "tvnrfTVNRF" := hp
    have hb : backslash ≠ slash := by decide
    refine ⟨?_, [backslash], p, hw, ?_⟩ <;>
      rcases hs with rfl | rfl | rfl | rfl <;>
      simp [evaluate, Settled, hc, hne, hslash, h, hesc, hb]

/-- The run over a text, written in any way, stands between two characters in the stage of
the run over the plain text. -/
theorem stageAfter_escaped {t : List (UInt8 × Bool)} (ht : ∀ c ∈ t, c.1 ≠ backslash) :
    stageAfter (escaped t) = stageAfter (plain t) ∧ Settled (stageAfter (plain t)) := by
  have hplain : plain t = t.flatMap fun c => [c.1] := by
    rw [plain, List.map_eq_flatMap]
  rw [hplain]
  refine Mealy.after_flatMap (fun s b => evaluate b s) (I := Settled) ?_ (.inl rfl)
  intro s c hmem hs
  obtain ⟨hsettled, init, last, hw, heq⟩ := evaluate_written_of_settled hs (ht c hmem)
  refine ⟨?_, hsettled⟩
  rw [hw, Mealy.after_append]
  simp [heq]

/-- Every character of a text without backslashes gets, on its last byte, the answer that it
gets in the plain text, and leads to the same stage. -/
theorem evaluate_written {t pre post : List (UInt8 × Bool)} {c : UInt8 × Bool}
    (ht : ∀ c ∈ t, c.1 ≠ backslash) (h : t = pre ++ c :: post) :
    ∃ init last, written c = init ++ [last] ∧
      allowedAfter (escaped pre ++ init) last = allowedAfter (plain pre) c.1 ∧
      stageAfter (escaped pre ++ written c) = stageAfter (plain pre ++ [c.1]) := by
  subst h
  obtain ⟨hstage, hsettled⟩ := stageAfter_escaped (t := pre) fun x hx => ht x (by simp [hx])
  obtain ⟨-, init, last, hw, heq⟩ := evaluate_written_of_settled hsettled (ht c (by simp))
  have hinit : stageAfter (escaped pre ++ init) =
      Mealy.after (fun s b => evaluate b s) (stageAfter (plain pre)) init := by
    rw [← hstage]
    exact Mealy.after_append _ _ _ _
  refine ⟨init, last, hw, ?_, ?_⟩
  · rw [allowedAfter, allowedAfter, hinit, heq]
  · rw [hw, ← List.append_assoc, stageAfter_concat, stageAfter_concat, hinit, heq]

/-- The line end after a link, written as a backslash and a letter. -/
theorem evaluate_written_lineEnd :
    ∃ init last, written (10, true) = init ++ [last] ∧
      allowedAfter (escaped [(slash, true), (slash, false), (97, true)] ++ init) last =
        allowedAfter (plain [(slash, true), (slash, false), (97, true)]) 10 ∧
      stageAfter (escaped [(slash, true), (slash, false), (97, true)] ++ written (10, true)) =
        stageAfter (plain [(slash, true), (slash, false), (97, true)] ++ [10]) :=
  @evaluate_written [(slash, true), (slash, false), (97, true), (10, true)] _ [] _
    (by decide +kernel) rfl

end RenaProxy.FullLinkStage
