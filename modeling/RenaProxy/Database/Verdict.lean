import RenaProxy.Database

/-!
# What the matcher decides, apart from what it holds

The matcher never looks at the bytes it holds. `judge` is its decision on a byte
with the held bytes left alone, and `databaseStep_eq` says how they follow from it:
the byte joins them, all of them go out, or the last ones of them are cut off.
`Consistent` is the invariant under which there are always enough to cut.
-/
namespace RenaProxy

/-- What is to happen with the held bytes: the byte joins them, they go out with it,
or `consume` of them are cut off for `transformed` and the byte is held. -/
inductive Verdict
  | hold
  | release
  | swap (consume : ℕ) (transformed : List UInt8)
  deriving DecidableEq, Repr

namespace DatabaseObject
variable {κ : Type}

/-- The pairs that a byte starts, in the order of the list. -/
def started (d : DatabaseObject κ) (b : UInt8) : List Pair :=
  (([d.sideRules, d.neverRules].map (treeGetSibling · b)).filter fun t => !t.isNull).map (⟨·, 1⟩)

/-- The decision on one byte. -/
def judge [ContextParser κ] (d : DatabaseObject κ) (b : UInt8) : DatabaseObject κ × Verdict :=
  let c := d.evaluateContext b
  if c.2 then
    let f := c.1.listForeach b
    let d' := { f with list := f.started b ++ f.list }
    if f.list = [] ∧ 0 < f.transformationConsume then
      ({ d' with transformationConsume := 0, transformation := none },
        .swap f.transformationConsume (f.transformation.getD []))
    else (d', if d'.list = [] then .release else .hold)
  else (c.1, if c.1.list = [] then .release else .hold)

/-- What a verdict does to the held bytes and to the forward buffer. -/
def act (d : DatabaseObject κ) (b : UInt8) : Verdict → Except Fault (DatabaseObject κ × Reaction)
  | .hold => .ok (d.addInput b, .keep)
  | .release => .ok ((d.addInput b).clearInput, .put (d.input ++ [b]) none)
  | .swap n transformed =>
      if d.input.length < n then .error .consumeInput
      else .ok (d.clearInput.addInput b,
        .put (d.input.take (d.input.length - n)) (some transformed))

section Frame
variable (d : DatabaseObject κ) (b : UInt8)

theorem listPrepend_started :
    (d.listPrepend (treeGetSibling d.neverRules b)).listPrepend
        (treeGetSibling (d.listPrepend (treeGetSibling d.neverRules b)).sideRules b) =
      { d with list := d.started b ++ d.list } := by
  have hside : (d.listPrepend (treeGetSibling d.neverRules b)).sideRules = d.sideRules := by
    unfold listPrepend
    split <;> rfl
  rw [hside]
  unfold listPrepend started
  cases hn : (treeGetSibling d.neverRules b).isNull <;>
    cases hs : (treeGetSibling d.sideRules b).isNull <;> simp [hn, hs]

/-- Everything the body of the loop can do with a pair: drop it, move it on, or move it
on and remember the replacement of its key. -/
private theorem foreachStep_cases (p : Pair) :
    foreachStep b d p = d ∨
    ¬ (treeGetChild p.actual b).isNull ∧
      (foreachStep b d p = { d with list := d.list ++ [⟨treeGetChild p.actual b, p.depth + 1⟩] } ∨
      ∃ o, (treeGetChild p.actual b).adapted = some o ∧ foreachStep b d p =
        { d with
          list := d.list ++ [⟨treeGetChild p.actual b, p.depth + 1⟩]
          transformationConsume := p.depth + 1
          transformation := some o }) := by
  rw [foreachStep]
  by_cases hnull : (treeGetChild p.actual b).isNull
  · rw [if_pos hnull]
    exact .inl rfl
  · rw [if_neg hnull]
    refine .inr ⟨hnull, ?_⟩
    cases (treeGetChild p.actual b).adapted with
    | none => exact .inl rfl
    | some o =>
        by_cases hdepth : d.transformationConsume = 0 ∨ d.transformationConsume < p.depth + 1
        · exact .inr ⟨o, rfl, if_pos hdepth⟩
        · exact .inl (if_neg hdepth)

private theorem foreachStep_frame (p : Pair) :
    ∃ l n o, foreachStep b d p =
      { d with list := l, transformationConsume := n, transformation := o } := by
  rcases foreachStep_cases d b p with h | ⟨-, h | ⟨o, -, h⟩⟩
  · exact ⟨_, _, _, h⟩
  · exact ⟨_, _, _, h⟩
  · exact ⟨_, _, _, h⟩

/-- The loop over the list changes the list and the replacement found, no more. -/
theorem listForeach_frame :
    ∃ l n o, d.listForeach b =
      { d with list := l, transformationConsume := n, transformation := o } := by
  refine List.foldlRecOn (motive := fun e : DatabaseObject κ => ∃ l n o, e =
    { d with list := l, transformationConsume := n, transformation := o }) _ _ ⟨_, _, _, rfl⟩ ?_
  rintro _ ⟨l, n, o, rfl⟩ p -
  obtain ⟨l', n', o', h⟩ := foreachStep_frame
    { d with list := l, transformationConsume := n, transformation := o } b p
  exact ⟨l', n', o', h⟩

@[simp] theorem input_listForeach : (d.listForeach b).input = d.input := by
  obtain ⟨l, n, o, h⟩ := d.listForeach_frame b
  rw [h]

@[simp] theorem neverRules_listForeach : (d.listForeach b).neverRules = d.neverRules := by
  obtain ⟨l, n, o, h⟩ := d.listForeach_frame b
  rw [h]

@[simp] theorem sideRules_listForeach : (d.listForeach b).sideRules = d.sideRules := by
  obtain ⟨l, n, o, h⟩ := d.listForeach_frame b
  rw [h]

@[simp] theorem context_listForeach : (d.listForeach b).context = d.context := by
  obtain ⟨l, n, o, h⟩ := d.listForeach_frame b
  rw [h]

end Frame

variable [ContextParser κ] (d : DatabaseObject κ) (b : UInt8)

theorem evaluateContext_frame : ∃ ctx, (d.evaluateContext b).1 = { d with context := ctx } := by
  unfold evaluateContext
  split
  · exact ⟨d.context, rfl⟩
  · exact ⟨_, rfl⟩

@[simp] theorem input_evaluateContext : (d.evaluateContext b).1.input = d.input := by
  obtain ⟨ctx, h⟩ := d.evaluateContext_frame b
  rw [h]

@[simp] theorem input_judge : (d.judge b).1.input = d.input := by
  unfold judge
  dsimp only
  split_ifs <;> simp

/-- The step of `http_pull` is the decision followed by what it means for the held bytes. -/
theorem databaseStep_eq : databaseStep d b = (d.judge b).1.act b (d.judge b).2 := by
  cases hc : d.evaluateContext b with
  | mk d₁ allowed =>
      cases allowed with
      | false =>
          by_cases hl : d₁.list = []
          · simp [databaseStep, lookup, judge, hc, hl, act, getHolding, addInput, bind,
              Except.bind, pure, Except.pure]
          · simp [databaseStep, lookup, judge, hc, hl, act, bind, Except.bind, pure, Except.pure]
      | true =>
          have hinput := d₁.input_listForeach b
          generalize hf : d₁.listForeach b = f at hinput
          have hpre := f.listPrepend_started b
          by_cases hswap : f.list = [] ∧ 0 < f.transformationConsume
          · have hlook : d.lookup b = if f.input.length < f.transformationConsume then
                .error .consumeInput
              else .ok ({ f with
                  list := f.started b ++ f.list
                  input := f.input.take (f.input.length - f.transformationConsume)
                  transformationConsume := 0
                  transformation := none }, .transformationFound (f.transformation.getD [])) := by
              simp only [lookup, hc, lookupAllowed, hf, hpre, hswap, consumeInput, if_true,
                List.isEmpty_nil, true_and, bind, Except.bind, pure, Except.pure]
              split_ifs <;> rfl
            by_cases hlt : f.input.length < f.transformationConsume
            · simp [databaseStep, hlook, judge, hc, hf, hswap, act, hlt, bind, Except.bind]
            · simp [databaseStep, hlook, judge, hc, hf, hswap, act, hlt, getHolding, clearInput,
                addInput, bind, Except.bind, pure, Except.pure]
          · have hlook : d.lookup b = .ok ({ f with list := f.started b ++ f.list },
                if f.started b ++ f.list = [] then .notHold else .feedMe) := by
              have hswap' : ¬ (f.list.isEmpty = true ∧ 0 < f.transformationConsume) := by
                simpa using hswap
              simp only [lookup, hc, lookupAllowed, hf, hpre, hswap', if_true, if_false,
                bind, Except.bind, pure, Except.pure]
              by_cases hl : f.started b ++ f.list = []
              · simp only [hl, List.isEmpty_nil, if_true]
              · have : (f.started b ++ f.list).isEmpty = false := by simpa using hl
                simp only [this, hl, if_false, Bool.false_eq_true]
            by_cases hl : f.started b ++ f.list = []
            · simp [databaseStep, hlook, judge, hc, hf, hswap, hl, act, getHolding, addInput,
                bind, Except.bind, pure, Except.pure]
            · simp [databaseStep, hlook, judge, hc, hf, hswap, hl, act, bind, Except.bind,
                pure, Except.pure]

/-- What a step leaves behind and puts out, for each verdict. -/
theorem databaseStep_cases {d' : DatabaseObject κ} {r : Reaction}
    (hok : databaseStep d b = .ok (d', r)) :
    ((d.judge b).2 = .hold ∧ d' = (d.judge b).1.addInput b ∧ r = .keep) ∨
    ((d.judge b).2 = .release ∧ d' = ((d.judge b).1.addInput b).clearInput ∧
      r = .put (d.input ++ [b]) none) ∨
    ∃ n o, (d.judge b).2 = .swap n o ∧ n ≤ d.input.length ∧
      d' = (d.judge b).1.clearInput.addInput b ∧
      r = .put (d.input.take (d.input.length - n)) (some o) := by
  have hinput := d.input_judge b
  rw [databaseStep_eq] at hok
  cases hv : (d.judge b).2 with
  | hold =>
      rw [hv] at hok
      obtain ⟨rfl, rfl⟩ := Prod.mk.inj (Except.ok.inj hok)
      exact .inl ⟨rfl, rfl, rfl⟩
  | release =>
      rw [hv] at hok
      obtain ⟨rfl, rfl⟩ := Prod.mk.inj (Except.ok.inj hok)
      exact .inr (.inl ⟨rfl, rfl, by rw [hinput]⟩)
  | swap n o =>
      rw [hv, act, hinput] at hok
      split_ifs at hok with hlt
      obtain ⟨rfl, rfl⟩ := Prod.mk.inj (Except.ok.inj hok)
      exact .inr (.inr ⟨n, o, rfl, not_lt.mp hlt, rfl, rfl⟩)

/-- The list after a decision: the pairs that the byte starts and those it moves on, or
the same list where the context forbids the byte. -/
theorem list_judge :
    (d.judge b).1.list = if (d.evaluateContext b).2 then
        d.started b ++ ((d.evaluateContext b).1.listForeach b).list
      else d.list := by
  obtain ⟨ctx, hctx⟩ := d.evaluateContext_frame b
  have hstarted : ((d.evaluateContext b).1.listForeach b).started b = d.started b := by
    simp [started, hctx]
  rw [judge, ← hstarted]
  generalize (d.evaluateContext b).1.listForeach b = f
  dsimp only
  by_cases hallow : (d.evaluateContext b).2
  · rw [if_pos hallow, if_pos hallow]
    by_cases hswap : f.list = [] ∧ 0 < f.transformationConsume
    · rw [if_pos hswap]
    · rw [if_neg hswap]
  · rw [if_neg hallow, if_neg hallow, hctx]

/-! ### The held bytes play no part -/

/-- The matcher without the bytes it holds. -/
def core (d : DatabaseObject κ) : DatabaseObject κ := { d with input := [], inputRs := 0 }

omit [ContextParser κ] in
private theorem foldl_foreachStep_core (ps : List Pair) (e : DatabaseObject κ) :
    ps.foldl (foreachStep b) e.core = (ps.foldl (foreachStep b) e).core := by
  induction ps generalizing e with
  | nil => rfl
  | cons p ps ih =>
      have hstep : foreachStep b e.core p = (foreachStep b e p).core := by
        rw [foreachStep, foreachStep]
        by_cases hnull : (treeGetChild p.actual b).isNull
        · rw [if_pos hnull, if_pos hnull]
        · rw [if_neg hnull, if_neg hnull]
          cases (treeGetChild p.actual b).adapted with
          | none => rfl
          | some o =>
              by_cases hdepth : e.transformationConsume = 0 ∨ e.transformationConsume < p.depth + 1
              · simp only [core, hdepth, if_true]
              · simp only [core, hdepth, if_false]
      rw [List.foldl_cons, hstep, ih, List.foldl_cons]

omit [ContextParser κ] in
private theorem listForeach_core : d.core.listForeach b = (d.listForeach b).core :=
  foldl_foreachStep_core b d.list { d with list := [] }

omit [ContextParser κ] in
@[simp] theorem list_core : d.core.list = d.list := rfl

omit [ContextParser κ] in
@[simp] theorem transformationConsume_core :
    d.core.transformationConsume = d.transformationConsume := rfl

omit [ContextParser κ] in
@[simp] theorem started_core : d.core.started b = d.started b := rfl

theorem judge_core : d.core.judge b = ((d.judge b).1.core, (d.judge b).2) := by
  have hctx : d.core.evaluateContext b = ((d.evaluateContext b).1.core, (d.evaluateContext b).2) := by
    cases hc : d.context <;> simp [evaluateContext, core, hc]
  rw [judge, judge, hctx]
  dsimp only
  rw [listForeach_core]
  generalize (d.evaluateContext b).1.listForeach b = f
  simp only [list_core, transformationConsume_core, started_core]
  by_cases ha : (d.evaluateContext b).2
  · by_cases hswap : f.list = [] ∧ 0 < f.transformationConsume
    · simp only [ha, hswap, and_self, if_true]
      rfl
    · simp only [ha, hswap, if_true, if_false]
      rfl
  · simp only [ha, Bool.false_eq_true, if_false]
    rfl

/-! ### There is always enough to cut -/

/-- The bytes of every live pair, and those of the replacement found, are held; and a
replacement is found only while a pair lives. -/
structure Consistent (d : DatabaseObject κ) : Prop where
  depth_le : ∀ p ∈ d.list, p.depth ≤ d.input.length
  consume_le : d.transformationConsume ≤ d.input.length
  list_ne_nil : 0 < d.transformationConsume → d.list ≠ []

omit [ContextParser κ] in
theorem consistent_create (never side : TreeNode) :
    (create never side : DatabaseObject κ).Consistent where
  depth_le := by simp [create]
  consume_le := le_rfl
  list_ne_nil := by simp [create]

/-- The replacement of the node that a pair moves on to, with the depth it has there. -/
def FoundBy (b : UInt8) (d : DatabaseObject κ) (q : Pair) : Prop :=
  d.transformationConsume = q.depth + 1 ∧
    ∃ o, (treeGetChild q.actual b).adapted = some o ∧ d.transformation = some o

omit [ContextParser κ] in
/-- What the loop over the list does to the pairs: every pair kept has moved on to a node
one deeper, and the replacement found is the old one or that of a pair kept. -/
private theorem foldl_foreachStep_list (ps : List Pair) (e : DatabaseObject κ) :
    (∀ p ∈ (ps.foldl (foreachStep b) e).list, p ∈ e.list ∨
      ∃ q ∈ ps, p = ⟨treeGetChild q.actual b, q.depth + 1⟩ ∧ ¬ p.actual.isNull) ∧
    (e.list ≠ [] → (ps.foldl (foreachStep b) e).list ≠ []) ∧
    (((ps.foldl (foreachStep b) e).transformationConsume = e.transformationConsume ∧
        (ps.foldl (foreachStep b) e).transformation = e.transformation) ∨
      (ps.foldl (foreachStep b) e).list ≠ [] ∧
        ∃ q ∈ ps, FoundBy b (ps.foldl (foreachStep b) e) q) := by
  induction ps generalizing e with
  | nil => exact ⟨fun p hp => .inl hp, id, .inl ⟨rfl, rfl⟩⟩
  | cons q ps ih =>
      have hstep : (foreachStep b e q = e) ∨
          (¬ (treeGetChild q.actual b).isNull ∧ (foreachStep b e q).list =
              e.list ++ [⟨treeGetChild q.actual b, q.depth + 1⟩] ∧
            (((foreachStep b e q).transformationConsume = e.transformationConsume ∧
                (foreachStep b e q).transformation = e.transformation) ∨
              FoundBy b (foreachStep b e q) q)) := by
        rcases foreachStep_cases e b q with h | ⟨hnull, h | ⟨o, ho, h⟩⟩ <;> rw [h]
        · exact .inl rfl
        · exact .inr ⟨hnull, rfl, .inl ⟨rfl, rfl⟩⟩
        · exact .inr ⟨hnull, rfl, .inr ⟨rfl, o, ho, rfl⟩⟩
      obtain ⟨hmem, hne, htc⟩ := ih (foreachStep b e q)
      rw [List.foldl_cons]
      rcases hstep with h | ⟨hnull, hl, hn⟩
      · rw [h] at hmem hne htc ⊢
        refine ⟨fun p hp => ?_, hne, ?_⟩
        · rcases hmem p hp with hp | ⟨r, hr, hd⟩
          · exact .inl hp
          · exact .inr ⟨r, List.mem_cons_of_mem _ hr, hd⟩
        · rcases htc with htc | ⟨hne', r, hr, hd⟩
          · exact .inl htc
          · exact .inr ⟨hne', r, List.mem_cons_of_mem _ hr, hd⟩
      · have hkept := hne (by simp [hl])
        refine ⟨fun p hp => ?_, fun _ => hkept, ?_⟩
        · rcases hmem p hp with hp | ⟨r, hr, hd⟩
          · rw [hl, List.mem_append, List.mem_singleton] at hp
            rcases hp with hp | rfl
            · exact .inl hp
            · exact .inr ⟨q, List.mem_cons_self, rfl, hnull⟩
          · exact .inr ⟨r, List.mem_cons_of_mem _ hr, hd⟩
        · rcases htc with ⟨htc, ho⟩ | ⟨-, r, hr, hd⟩
          · rcases hn with ⟨hn, hn'⟩ | ⟨hn, hn'⟩
            · exact .inl ⟨htc.trans hn, ho.trans hn'⟩
            · refine .inr ⟨hkept, q, List.mem_cons_self, htc.trans hn, ?_⟩
              rwa [ho]
          · exact .inr ⟨hkept, r, List.mem_cons_of_mem _ hr, hd⟩

omit [ContextParser κ] in
/-- **What the loop keeps**: pairs of the list that have moved on. The replacement is the old one,
or that of a pair that has moved on. -/
theorem listForeach_spec :
    (∀ p ∈ (d.listForeach b).list, ∃ q ∈ d.list,
      p = ⟨treeGetChild q.actual b, q.depth + 1⟩ ∧ ¬ p.actual.isNull) ∧
    (((d.listForeach b).transformationConsume = d.transformationConsume ∧
        (d.listForeach b).transformation = d.transformation) ∨
      (d.listForeach b).list ≠ [] ∧ ∃ q ∈ d.list, FoundBy b (d.listForeach b) q) := by
  obtain ⟨hmem, -, htc⟩ := foldl_foreachStep_list b d.list { d with list := [] }
  exact ⟨fun p hp => (hmem p hp).resolve_left (by simp), htc⟩

omit [ContextParser κ] in
/-- A pair that the loop keeps has moved on from a pair of the list. -/
theorem mem_listForeach {p : Pair} (h : p ∈ (d.listForeach b).list) :
    ∃ q ∈ d.list, p.actual = treeGetChild q.actual b ∧ ¬ p.actual.isNull := by
  obtain ⟨q, hq, rfl, hnull⟩ := (d.listForeach_spec b).1 p h
  exact ⟨q, hq, rfl, hnull⟩

omit [ContextParser κ] in
private theorem depth_of_mem_started {p : Pair} (h : p ∈ d.started b) : p.depth = 1 := by
  simp only [started, List.mem_map] at h
  obtain ⟨t, -, rfl⟩ := h
  rfl

/-- What a decision leaves behind, for each verdict. -/
theorem Consistent.judge (H : d.Consistent) :
    match (d.judge b).2 with
    | .hold => (∀ p ∈ (d.judge b).1.list, p.depth ≤ d.input.length + 1) ∧
        (d.judge b).1.transformationConsume ≤ d.input.length + 1 ∧ (d.judge b).1.list ≠ []
    | .release => (d.judge b).1.list = [] ∧ (d.judge b).1.transformationConsume = 0
    | .swap n _ => n ≤ d.input.length ∧ (∀ p ∈ (d.judge b).1.list, p.depth = 1) ∧
        (d.judge b).1.transformationConsume = 0 := by
  obtain ⟨ctx, hctx⟩ := d.evaluateContext_frame b
  rw [DatabaseObject.judge]
  dsimp only
  rw [hctx]
  by_cases ha : (d.evaluateContext b).2
  · obtain ⟨hmem, htc⟩ := ({ d with context := ctx } : DatabaseObject κ).listForeach_spec b
    generalize ({ d with context := ctx } : DatabaseObject κ).listForeach b = f at hmem htc ⊢
    have hdepth : ∀ p ∈ f.list, p.depth ≤ d.input.length + 1 := by
      intro p hp
      obtain ⟨q, hq, rfl, -⟩ := hmem p hp
      have := H.depth_le q hq
      dsimp only
      omega
    by_cases hswap : f.list = [] ∧ 0 < f.transformationConsume
    · simp only [ha, hswap, and_self, if_true, List.append_nil]
      refine ⟨?_, fun p hp => depth_of_mem_started _ b hp, trivial⟩
      rcases htc with ⟨htc, -⟩ | ⟨hne, -⟩
      · rw [htc]
        exact H.consume_le
      · exact absurd hswap.1 hne
    · simp only [ha, hswap, if_true, if_false]
      by_cases hl : f.started b ++ f.list = []
      · simp only [hl, if_true, true_and]
        by_contra hpos
        exact hswap ⟨(List.append_eq_nil_iff.mp hl).2, Nat.pos_of_ne_zero hpos⟩
      · simp only [hl, if_false]
        refine ⟨fun p hp => ?_, ?_, hl⟩
        · rcases List.mem_append.mp hp with hp | hp
          · have := depth_of_mem_started _ b hp
            omega
          · exact hdepth p hp
        · rcases htc with ⟨htc, -⟩ | ⟨-, q, hq, hd, -⟩
          · have : f.transformationConsume ≤ d.input.length := htc ▸ H.consume_le
            omega
          · have := H.depth_le q hq
            omega
  · simp only [ha, Bool.false_eq_true, if_false]
    by_cases hl : d.list = []
    · simp only [hl, if_true, true_and]
      by_contra hpos
      exact H.list_ne_nil (Nat.pos_of_ne_zero hpos) hl
    · simp only [hl, if_false]
      refine ⟨fun p hp => ?_, ?_, hl⟩
      · have := H.depth_le p hp
        omega
      · have := H.consume_le
        omega

/-- **A consistent matcher never consumes more than it holds**, and stays consistent. -/
theorem Consistent.step (H : d.Consistent) :
    ∃ d' r, databaseStep d b = .ok (d', r) ∧ d'.Consistent := by
  have hj := H.judge d b
  have hinput := d.input_judge b
  rw [databaseStep_eq]
  cases hv : (d.judge b).2 with
  | hold =>
      rw [hv] at hj
      obtain ⟨hdepth, htc, hne⟩ := hj
      exact ⟨_, _, rfl, by simpa [addInput, hinput] using hdepth,
        by simpa [addInput, hinput] using htc, fun _ => hne⟩
  | release =>
      rw [hv] at hj
      obtain ⟨hl, htc⟩ := hj
      exact ⟨_, _, rfl, by simp [addInput, clearInput, hl],
        by simp [addInput, clearInput, htc], by simp [addInput, clearInput, htc]⟩
  | swap n o =>
      rw [hv] at hj
      obtain ⟨hn, hdepth, htc⟩ := hj
      refine ⟨_, _, by rw [act, hinput, if_neg (not_lt.mpr hn)], ?_, ?_, ?_⟩
      · intro p hp
        exact (hdepth p hp).le
      · simp [addInput, clearInput, htc]
      · simp [addInput, clearInput, htc]

end DatabaseObject

end RenaProxy
