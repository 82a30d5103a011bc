import RenaProxy.Database.Bookkeeping

/-!
# When the matcher holds nothing

What the matcher holds goes out with a byte if no candidate is left behind it, and none that was
completed waits to be cut off. Both are said of the bytes that it has looked at, those that the
context allows: every byte keeps `Looked`, and `heldAfter_concat_eq_nil_iff` says so of a text.
-/
namespace RenaProxy
open StreamTransducer StreamMatcher DatabaseObject

/-- What the matcher holds when it has read some text. -/
def heldAfter (d : DatabaseObject Context) (text : List UInt8) : List UInt8 :=
  match run rewriteStep d text with
  | .ok (d, _) => d.input
  | .error _ => []

/-- These are the bytes that the matcher has looked at. -/
def Looked (never side : TreeNode) (d : DatabaseObject Context) (done : List UInt8) : Prop :=
  Sees never side d (after (treeLexicon never side) tolower done done.length).1

variable {never side : TreeNode} {d d' : DatabaseObject Context} {done : List UInt8} {b : UInt8}
  {r : Reaction}

/-- A byte that the context forbids is held with the others as long as there are candidates. -/
theorem judge_of_forbidden (hforbid : (d.evaluateContext b).2 = false) :
    ∃ ctx, d.judge b = ({ d with context := ctx }, if d.list = [] then .release else .hold) := by
  obtain ⟨ctx, hctx⟩ := d.evaluateContext_frame b
  refine ⟨ctx, ?_⟩
  rw [judge, hctx]
  simp [hforbid]

/-- **One byte.** Nothing is held behind it exactly when no ending of what the matcher has looked at
begins a key and none was pending before it, if it is looked at. -/
theorem Looked.step (H : Looked never side d done) (hok : databaseStep d b = .ok (d', r)) :
    Looked never side d' (d.processedBy done b) ∧
      (d'.input = [] ↔
        NoneBegun (treeLexicon never side) ((d.processedBy done b).map tolower) ∧
          ((d.evaluateContext b).2 →
            NonePending (treeLexicon never side) (done.map tolower))) := by
  have hcases := databaseStep_cases d b hok
  have hrelease : d'.input = [] ↔ (d.judge b).2 = .release := by
    rcases hcases with ⟨hv, rfl, -⟩ | ⟨hv, rfl, -⟩ | ⟨n, o, hv, -, rfl, -⟩ <;>
      simp [hv, addInput, clearInput]
  have hsees : ∀ {s}, Sees never side (d.judge b).1 s → Sees never side d' s := by
    intro s S
    rcases hcases with ⟨-, rfl, -⟩ | ⟨-, rfl, -⟩ | ⟨n, o, -, -, rfl, -⟩ <;> exact S.frame rfl
  rw [hrelease, processedBy]
  by_cases hallow : (d.evaluateContext b).2
  · obtain ⟨S, hiff⟩ := Sees.judge H hallow
    rw [← after_concat] at S hiff
    rw [if_pos hallow, hiff, held_concat_eq_nil_iff]
    exact ⟨hsees S, and_congr_right fun _ => (imp_iff_right hallow).symm⟩
  · obtain ⟨ctx, hjudge⟩ := judge_of_forbidden (by simpa using hallow)
    have hjudged : Sees never side (d.judge b).1 _ := H.frame (by rw [hjudge])
    rw [if_neg hallow, hjudge, ← seen_after (L := treeLexicon never side), ← H.list_eq_nil_iff]
    refine ⟨hsees hjudged, ?_⟩
    by_cases hempty : d.list = [] <;> simp [hempty, hallow]

theorem databaseStep_frame (hok : databaseStep d b = .ok (d', r)) :
    d'.context = (d.evaluateContext b).1.context ∧ d'.neverRules = d.neverRules ∧
      d'.sideRules = d.sideRules := by
  obtain ⟨l, n, o, hframe⟩ := d.judge_frame b
  have hcases := databaseStep_cases d b hok
  rw [hframe] at hcases
  rcases hcases with ⟨-, rfl, -⟩ | ⟨-, rfl, -⟩ | ⟨n, o, -, -, rfl, -⟩ <;> exact ⟨rfl, rfl, rfl⟩

/-- A byte in front of a text. -/
theorem heldAfter_cons (hok : databaseStep d b = .ok (d', r)) (text : List UInt8) :
    heldAfter d (b :: text) = heldAfter d' text := by
  have hfirst : rewriteStep d b = .ok (d', r.text) := by
    rw [rewriteStep, hok]
    rfl
  rw [heldAfter, heldAfter, run_cons, hfirst]
  cases h : run rewriteStep d' text <;> simp [bind, Except.bind, pure, Except.pure, h]

/-- **A text** leaves nothing held exactly when no ending of what the matcher has looked at by then
begins a key and none was pending before the last byte, if this is looked at. -/
theorem heldAfter_concat_eq_nil_iff (H : Looked never side d done) (C : d.Consistent)
    (text : List UInt8) (b : UInt8) :
    let before := done ++ processed d.context (text.map .byte)
    let all := done ++ processed d.context ((text ++ [b]).map .byte)
    heldAfter d (text ++ [b]) = [] ↔
      NoneBegun (treeLexicon never side) (all.map tolower) ∧
        (before ≠ all → NonePending (treeLexicon never side) (before.map tolower)) := by
  induction text generalizing d done with
  | nil =>
      obtain ⟨d', r, hok, -⟩ := C.step d b
      have hall := processed_byte d done b []
      rw [processed, List.append_nil] at hall
      have hlooked : done ≠ d.processedBy done b ↔ (d.evaluateContext b).2 := by
        rw [processedBy]
        split_ifs with hallow <;> simp [hallow]
      simp only [List.map_nil, List.nil_append, List.map_cons, processed, List.append_nil, hall,
        heldAfter_cons hok, hlooked]
      exact (H.step hok).2
  | cons a text ih =>
      obtain ⟨d', r, hok, C'⟩ := C.step d a
      have hih := ih (H.step hok).1 C'
      rw [(databaseStep_frame hok).1, ← processed_byte, ← processed_byte] at hih
      rw [List.cons_append, heldAfter_cons hok]
      exact hih

/-! ## Where something was put out -/

/-- After a release there are no candidates. -/
theorem list_of_release (h : (d.judge b).2 = .release) : (d.judge b).1.list = [] := by
  rw [judge] at h ⊢
  dsimp only at h ⊢
  split_ifs at h ⊢ <;> assumption

/-- After a swap the byte is the first of a candidate. -/
theorem list_of_swap {n : ℕ} {o : List UInt8} (h : (d.judge b).2 = .swap n o) :
    (d.judge b).1.list = d.started b ∧ (d.judge b).1.transformationConsume = 0 := by
  have hlist := d.list_judge b
  rw [judge] at h hlist ⊢
  dsimp only at h hlist ⊢
  split_ifs at h hlist ⊢ with hallow hswap
  · refine ⟨?_, rfl⟩
    rw [hlist, hswap.1, List.append_nil]

/-- **When something is put out**, the matcher begins anew with what is held then. -/
theorem looked_of_put (C : d.Consistent) (hok : databaseStep d b = .ok (d', r))
    (hput : r ≠ .keep) : Looked d.neverRules d.sideRules d' d'.input := by
  obtain ⟨d₁, r₁, hok₁, C'⟩ := C.step d b
  obtain ⟨rfl, rfl⟩ := Prod.mk.inj (Except.ok.inj (hok₁.symm.trans hok))
  obtain ⟨l, n, o, hframe⟩ := d.judge_frame b
  rcases databaseStep_cases d b hok with ⟨-, -, hr⟩ | ⟨hv, rfl, -⟩ | ⟨n, o, hv, -, rfl, -⟩
  · exact absurd hr hput
  · have hlist := list_of_release hv
    have hconsume : (d.judge b).1.transformationConsume = 0 :=
      Nat.eq_zero_of_not_pos fun hpos => C'.list_ne_nil hpos hlist
    exact sees_nil (by rw [hframe]; rfl) (by rw [hframe]; rfl) hlist hconsume
  · obtain ⟨hlist, hconsume⟩ := list_of_swap hv
    have hinput : ((d.judge b).1.clearInput.addInput b).input = [b] := rfl
    have hstarted : d.started b = ((d.judge b).1.clearInput.addInput b).started b := by
      rw [hframe]
      rfl
    have H := inv_after (L := treeLexicon d.neverRules d.sideRules) (f := tolower) (t := [b]) le_rfl
    rw [Looked, hinput]
    refine sees_byte (by rw [hframe]; rfl) (by rw [hframe]; rfl) (hstarted ▸ hlist) hconsume
      (seen_after [b]) ?_
    -- a key has two bytes
    cases hbest : (after (treeLexicon d.neverRules d.sideRules) tolower [b] 1).1.best with
    | none => rfl
    | some k =>
        obtain ⟨-, b', e, hch, -⟩ := H.best_some k hbest
        have := hch.1.1.two_le
        have : e ≤ 1 := hch.1.2.1
        omega

end RenaProxy
