import RenaProxy.Rewriter

/-!
# What the matcher keeps between two bytes

The pairs of the list, the replacement found and the held bytes are changed in different functions,
and while the context forbids bytes only the held bytes grow. `run_bookkeeping` says how the three
go together after any text, whatever the context parser answers.
-/
namespace RenaProxy
open StreamTransducer DatabaseObject

variable {κ : Type}

/-- What happens to the matcher of a connection. -/
inductive PullEvent (κ : Type)
  /-- `http_pull` gives it a byte. -/
  | byte (b : UInt8)
  /-- `database_instance_set_context` -/
  | setContext (c : Option κ)

/-- One event, with the bytes that are put out for it. -/
def pullStep [ContextParser κ] (d : DatabaseObject κ) :
    PullEvent κ → Except Fault (DatabaseObject κ × List UInt8)
  | .byte b => rewriteStep d b
  | .setContext c => .ok ({ d with context := c }, [])

/-- The bytes that the context allows, which are those that the matcher processes. -/
def processed [ContextParser κ] : Option κ → List (PullEvent κ) → List UInt8
  | _, [] => []
  | _, .setContext c :: events => processed c events
  | none, .byte b :: events => b :: processed none events
  | some c, .byte b :: events =>
      let r := ContextParser.parserFnc c b
      if r.2 then b :: processed (some r.1) events else processed (some r.1) events

section Trees
variable {never side root : TreeNode} {done : List UInt8} {b : UInt8} {p : Pair}

/-- The pair is at the node that its last bytes reach in one of the trees. -/
def Reached (never side : TreeNode) (done : List UInt8) (p : Pair) : Prop :=
  1 ≤ p.depth ∧ ¬ p.actual.isNull ∧ ∃ root ∈ [never, side], ∃ w, w <:+ done ∧
    w.length = p.depth ∧ p.actual = treeWalk root w

/-- The replacement is that of a node that so many bytes have reached in one of the trees. -/
def FoundAt (never side : TreeNode) (done : List UInt8) (consume : ℕ)
    (transformation : Option (List UInt8)) : Prop :=
  ∃ root ∈ [never, side], ∃ w, w <:+: done ∧ w.length = consume ∧ transformation.isSome ∧
    transformation = (treeWalk root w).adapted

theorem FoundAt.append {consume : ℕ} {transformation : Option (List UInt8)}
    (h : FoundAt never side done consume transformation) (b : UInt8) :
    FoundAt never side (done ++ [b]) consume transformation := by
  obtain ⟨root, hroot, w, hw, hfound⟩ := h
  exact ⟨root, hroot, w, hw.trans (List.prefix_append done [b]).isInfix, hfound⟩

/-- A pair that moves on has the next byte behind its bytes. -/
theorem Reached.treeGetChild (h : Reached never side done p) (b : UInt8) :
    ∃ root ∈ [never, side], ∃ w, w <:+ done ++ [b] ∧ w.length = p.depth + 1 ∧
      treeGetChild p.actual b = treeWalk root w := by
  obtain ⟨hdepth, -, root, hroot, w, ⟨before, rfl⟩, hlength, hactual⟩ := h
  have hw : w ≠ [] := by
    rintro rfl
    simp only [List.length_nil] at hlength
    omega
  refine ⟨root, hroot, w ++ [b], ⟨before, by rw [List.append_assoc]⟩, by simp [hlength], ?_⟩
  rw [treeWalk_append hw, hactual]

end Trees

namespace DatabaseObject
variable {d d' : DatabaseObject κ} {done : List UInt8} {b : UInt8}

/-- What is kept between two bytes, when these were processed. -/
structure Bookkeeping (d : DatabaseObject κ) (done : List UInt8) : Prop extends d.Consistent where
  reached : ∀ p ∈ d.list, Reached d.neverRules d.sideRules done p
  found : 0 < d.transformationConsume →
    FoundAt d.neverRules d.sideRules done d.transformationConsume d.transformation
  input_le : d.input.length ≤ d.inputRs

theorem bookkeeping_create (never side : TreeNode) :
    (create never side : DatabaseObject κ).Bookkeeping [] where
  toConsistent := consistent_create never side
  reached := by simp [create]
  found := by simp [create]
  input_le := le_rfl

/-- The pairs that a byte starts are at the nodes that it reaches. -/
theorem reached_of_mem_started {p : Pair} (h : p ∈ d.started b) :
    Reached d.neverRules d.sideRules (done ++ [b]) p := by
  simp only [started, List.mem_map, List.mem_filter] at h
  obtain ⟨t, ⟨⟨root, hroot, rfl⟩, hnull⟩, rfl⟩ := h
  refine ⟨le_rfl, by simpa using hnull, root, ?_, [b], List.suffix_append done [b], rfl, rfl⟩
  rw [List.mem_pair] at hroot ⊢
  exact hroot.symm

/-- The context says nothing of it. -/
theorem Bookkeeping.setContext (B : d.Bookkeeping done) (c : Option κ) :
    ({ d with context := c } : DatabaseObject κ).Bookkeeping done :=
  ⟨⟨B.depth_le, B.consume_le, B.list_ne_nil⟩, B.reached, B.found, B.input_le⟩

/-- What the loop over the list leaves, with the byte among those processed. -/
theorem Bookkeeping.listForeach (B : d.Bookkeeping done) (b : UInt8) :
    (∀ p ∈ (d.listForeach b).list, Reached d.neverRules d.sideRules (done ++ [b]) p) ∧
      (0 < (d.listForeach b).transformationConsume →
        FoundAt d.neverRules d.sideRules (done ++ [b]) (d.listForeach b).transformationConsume
          (d.listForeach b).transformation) := by
  obtain ⟨hmem, hfound⟩ := d.listForeach_spec b
  refine ⟨fun p hp => ?_, fun hpos => ?_⟩
  · obtain ⟨q, hq, rfl, hnull⟩ := hmem p hp
    exact ⟨Nat.le_add_left 1 q.depth, hnull, (B.reached q hq).treeGetChild b⟩
  · rcases hfound with ⟨hconsume, htransformation⟩ | ⟨-, q, hq, hconsume, o, ho, htransformation⟩
    · rw [hconsume] at hpos ⊢
      rw [htransformation]
      exact (B.found hpos).append b
    · obtain ⟨root, hroot, w, hw, hlength, hactual⟩ := (B.reached q hq).treeGetChild b
      refine ⟨root, hroot, w, hw.isInfix, hlength.trans hconsume.symm, ?_, ?_⟩
      · rw [htransformation]
        rfl
      · rw [htransformation, ← ho, hactual]

variable [ContextParser κ]

/-- The bytes processed after one more. -/
def processedBy (d : DatabaseObject κ) (done : List UInt8) (b : UInt8) : List UInt8 :=
  if (d.evaluateContext b).2 then done ++ [b] else done

/-- What the decision on a byte leaves of the pairs and of the replacement. -/
theorem Bookkeeping.judge (B : d.Bookkeeping done) (b : UInt8) :
    (∀ p ∈ (d.judge b).1.list, Reached d.neverRules d.sideRules (d.processedBy done b) p) ∧
      (0 < (d.judge b).1.transformationConsume →
        FoundAt d.neverRules d.sideRules (d.processedBy done b) (d.judge b).1.transformationConsume
          (d.judge b).1.transformation) := by
  obtain ⟨ctx, hctx⟩ := d.evaluateContext_frame b
  rw [DatabaseObject.judge, processedBy]
  dsimp only
  rw [hctx]
  by_cases hallow : (d.evaluateContext b).2
  · obtain ⟨hkept, hfound⟩ := (B.setContext ctx).listForeach b
    have hstarted : (({ d with context := ctx } : DatabaseObject κ).listForeach b).started b =
        d.started b := by
      simp [started]
    rw [if_pos hallow, if_pos hallow, hstarted]
    generalize ({ d with context := ctx } : DatabaseObject κ).listForeach b = f at hkept hfound ⊢
    have hlist : ∀ p ∈ d.started b ++ f.list,
        Reached d.neverRules d.sideRules (done ++ [b]) p := by
      intro p hp
      rcases List.mem_append.mp hp with hp | hp
      · exact reached_of_mem_started hp
      · exact hkept p hp
    by_cases hswap : f.list = [] ∧ 0 < f.transformationConsume
    · rw [if_pos hswap]
      exact ⟨hlist, fun hpos => absurd hpos (Nat.lt_irrefl 0)⟩
    · rw [if_neg hswap]
      exact ⟨hlist, hfound⟩
  · rw [if_neg hallow, if_neg hallow]
    exact ⟨B.reached, B.found⟩

/-- The decision changes the context, the list and the replacement, no more. -/
theorem judge_frame (d : DatabaseObject κ) (b : UInt8) : ∃ l n o, (d.judge b).1 =
    { d with
      context := (d.evaluateContext b).1.context
      list := l
      transformationConsume := n
      transformation := o } := by
  obtain ⟨ctx, hctx⟩ := d.evaluateContext_frame b
  obtain ⟨l, n, o, hframe⟩ := ({ d with context := ctx } : DatabaseObject κ).listForeach_frame b
  rw [DatabaseObject.judge]
  dsimp only
  rw [hctx, hframe]
  by_cases hallow : (d.evaluateContext b).2
  · rw [if_pos hallow]
    by_cases hswap : l = [] ∧ 0 < n
    · rw [if_pos hswap]
      exact ⟨_, _, _, rfl⟩
    · rw [if_neg hswap]
      exact ⟨_, _, _, rfl⟩
  · rw [if_neg hallow]
    exact ⟨_, _, _, rfl⟩

omit [ContextParser κ] in
/-- There is room for the byte that is added. -/
theorem input_le_addInput (h : d.input.length ≤ d.inputRs) (b : UInt8) :
    (d.addInput b).input.length ≤ (d.addInput b).inputRs := by
  simp only [addInput, List.length_append, List.length_singleton]
  split_ifs
  · omega
  · omega

/-- **One byte** keeps all of it. -/
theorem Bookkeeping.step (B : d.Bookkeeping done) (b : UInt8) :
    ∃ d' r, databaseStep d b = .ok (d', r) ∧ d'.Bookkeeping (d.processedBy done b) ∧
      d'.neverRules = d.neverRules ∧ d'.sideRules = d.sideRules ∧
      d'.context = (d.evaluateContext b).1.context := by
  obtain ⟨d', r, hstep, C⟩ := B.toConsistent.step d b
  obtain ⟨hlist, hfound⟩ := B.judge b
  obtain ⟨l, n, o, hframe⟩ := d.judge_frame b
  have hcases := databaseStep_cases d b hstep
  rw [hframe] at hlist hfound hcases
  -- the held bytes are all that the verdicts treat differently
  rcases hcases with ⟨-, rfl, -⟩ | ⟨-, rfl, -⟩ | ⟨-, -, -, -, rfl, -⟩
  · exact ⟨_, r, hstep, ⟨C, hlist, hfound, input_le_addInput B.input_le b⟩, rfl, rfl, rfl⟩
  · exact ⟨_, r, hstep, ⟨C, hlist, hfound, Nat.zero_le _⟩, rfl, rfl, rfl⟩
  · exact ⟨_, r, hstep, ⟨C, hlist, hfound, input_le_addInput (Nat.zero_le _) b⟩, rfl, rfl, rfl⟩

/-- What is processed is seen byte by byte. -/
theorem processed_byte (d : DatabaseObject κ) (done : List UInt8) (b : UInt8)
    (events : List (PullEvent κ)) : done ++ processed d.context (.byte b :: events) =
      d.processedBy done b ++ processed (d.evaluateContext b).1.context events := by
  rw [processedBy, evaluateContext]
  cases hc : d.context with
  | none => simp [processed, hc]
  | some c => by_cases hallow : (ContextParser.parserFnc c b).2 <;> simp [processed, hallow]

/-- **All events** keep it. -/
theorem Bookkeeping.run (B : d.Bookkeeping done) (events : List (PullEvent κ)) :
    ∃ d' out, StreamTransducer.run pullStep d events = .ok (d', out) ∧
      d'.Bookkeeping (done ++ processed d.context events) ∧
      d'.neverRules = d.neverRules ∧ d'.sideRules = d.sideRules := by
  induction events generalizing d done with
  | nil => exact ⟨d, [], rfl, by simpa [processed] using B, rfl, rfl⟩
  | cons e events ih =>
      cases e with
      | byte b =>
          obtain ⟨d₁, r, hstep, B₁, hnever, hside, hcontext⟩ := B.step b
          obtain ⟨d', out, hrun, B', hnever', hside'⟩ := ih B₁
          have hfirst : pullStep d (.byte b) = .ok (d₁, r.text) := by
            simp [pullStep, rewriteStep, hstep, bind, Except.bind, pure, Except.pure]
          refine ⟨d', r.text ++ out, ?_, ?_, hnever'.trans hnever, hside'.trans hside⟩
          · simp [run_cons, hfirst, hrun, bind, Except.bind, pure, Except.pure]
          · rwa [processed_byte, ← hcontext]
      | setContext c =>
          obtain ⟨d', out, hrun, B', hnever', hside'⟩ := ih (B.setContext c)
          refine ⟨d', out, ?_, ?_, hnever', hside'⟩
          · simp [run_cons, pullStep, hrun, bind, Except.bind, pure, Except.pure]
          · rwa [processed]

end DatabaseObject

/-- **Whatever happens to the matcher**, it does not fail, and between two bytes it keeps what
belongs together. -/
theorem run_bookkeeping [ContextParser κ] (never side : TreeNode) (events : List (PullEvent κ)) :
    ∃ d out, run pullStep (create never side : DatabaseObject κ) events = .ok (d, out) ∧
      d.Bookkeeping (processed none events) ∧ d.neverRules = never ∧ d.sideRules = side :=
  (bookkeeping_create never side).run events

end RenaProxy
