import RenaProxy.Database.Verdict
import RenaProxy.Lib.Delimited

/-!
# The streaming rewriter

The per-byte protocol of `http_pull` on a lookup tree without a context parser is
the streaming matcher whose words are the beginnings of the rules and whose keys
are the rules (`rewrite_create`). With one, `Sees.judge` says so of each byte that it allows.
From the two accounts of that matcher follow when the rewriter corrupts nothing, and what it
makes of a delimited text.
-/
namespace RenaProxy
open StreamRewriting StreamTransducer StreamMatcher DatabaseObject

variable {κ : Type}

/-- One byte of the protocol, with the bytes it puts out. -/
def rewriteStep [ContextParser κ] (d : DatabaseObject κ) (b : UInt8) :
    Except Fault (DatabaseObject κ × List UInt8) := do
  let (d, r) ← databaseStep d b
  pure (d, r.text)

/-- All that is put out for `t` and for the end of the stream after it, where
`flush_pending_data_to_buffer` takes what is held. -/
def rewrite [ContextParser κ] (d : DatabaseObject κ) (t : List UInt8) :
    Except Fault (List UInt8) := do
  let (d, out) ← run rewriteStep d t
  pure (out ++ (d.getHolding true).2)

/-! ## The words of two rule trees -/

section Words
variable (never side : TreeNode)

/-- A word is what reaches a node of one of the trees; it is a key where the node has
a replacement. -/
def treeLexicon : Lexicon UInt8 where
  pre w := (look side w).isSome || (look never w).isSome
  key w := decide (2 ≤ w.length) && ((look side w).join.isSome || (look never w).join.isSome)
  pre_of_key := by
    intro w h
    simp only [Bool.and_eq_true, Bool.or_eq_true] at h ⊢
    rcases h.2 with h | h
    · exact .inl (by cases hl : look side w <;> simp_all)
    · exact .inr (by cases hl : look never w <;> simp_all)
  pre_of_append := by
    intro w a hw h
    have shorter : ∀ root, (look root (w ++ [a])).isSome → (look root w).isSome := by
      intro root h
      rw [look, treeWalk_append hw] at h
      rw [look]
      cases hn : treeWalk root w with
      | null => simp [hn, treeGetChild, TreeNode.view] at h
      | node => rfl
    simp only [Bool.or_eq_true] at h ⊢
    exact h.imp (shorter side) (shorter never)
  two_le_of_key := by
    intro w h
    simp only [Bool.and_eq_true, decide_eq_true_eq] at h
    exact h.1

/-- The replacement of a key: that of the side rules if both trees have one. -/
def treeReplacement (w : List UInt8) : List UInt8 :=
  ((look side w).join.or (look never w).join).getD []

/-- The pair of a suffix that reaches a node. -/
private def pairAt (root : TreeNode) (w : List UInt8) : List Pair :=
  if (treeWalk root w).isNull then [] else [⟨treeWalk root w, w.length⟩]

/-- The list after the text `w`: the pairs of its suffixes, shortest first. -/
private def pairs (w : List UInt8) : List Pair :=
  w.tails.reverse.flatMap fun v => pairAt side v ++ pairAt never v

private theorem tails_reverse (w : List UInt8) :
    ∃ vs, w.tails.reverse = [] :: vs ∧ ∀ v ∈ vs, v ≠ [] := by
  induction w with
  | nil => exact ⟨[], rfl, by simp⟩
  | cons a w ih =>
      obtain ⟨vs, h, hne⟩ := ih
      refine ⟨vs ++ [a :: w], by simp [h], fun v hv => ?_⟩
      rcases List.mem_append.mp hv with hv | hv
      · exact hne v hv
      · rw [List.mem_singleton.mp hv]
        exact List.cons_ne_nil _ _

private theorem tails_reverse_append (w : List UInt8) (a : UInt8) :
    (w ++ [a]).tails.reverse = [] :: w.tails.reverse.map (· ++ [a]) := by
  simp [List.tails_append]

/-- The replacement found is that of the key remembered. -/
private structure Noted (d : DatabaseObject κ) (best : Option (List UInt8)) : Prop where
  consume : d.transformationConsume = (best.map List.length).getD 0
  transformation : ∀ k, best = some k → d.transformation = some (treeReplacement never side k)
  ne_nil : ∀ k, best = some k → k ≠ []

private theorem noted_none {d : DatabaseObject κ} (h : d.transformationConsume = 0) :
    Noted never side d none :=
  ⟨h, by simp, by simp⟩

private theorem started_eq {d : DatabaseObject κ} (hn : d.neverRules = never)
    (hs : d.sideRules = side) (b : UInt8) :
    d.started b = pairAt side [tolower b] ++ pairAt never [tolower b] := by
  cases hs' : (treeGetSibling side b).isNull <;> cases hn' : (treeGetSibling never b).isNull <;>
    simp [started, pairAt, treeWalk_singleton, hn, hs, hs', hn']

private theorem pairAt_eq_nil (root : TreeNode) (w : List UInt8) :
    pairAt root w = [] ↔ (look root w).isSome = false := by
  cases h : treeWalk root w <;> simp [pairAt, look, h, TreeNode.isNull, TreeNode.view]

/-- The pair of a suffix moves on with the byte, or is dropped where the longer suffix
reaches no node. -/
private theorem foldl_pairAt (root : TreeNode) {v : List UInt8} (hv : v ≠ []) (b : UInt8)
    (e : DatabaseObject κ) :
    (pairAt root v).foldl (foreachStep b) e =
      match (look root (v ++ [tolower b])).join with
      | none => { e with list := e.list ++ pairAt root (v ++ [tolower b]) }
      | some o =>
          if e.transformationConsume = 0 ∨ e.transformationConsume < v.length + 1 then
            { e with
              list := e.list ++ pairAt root (v ++ [tolower b])
              transformationConsume := v.length + 1
              transformation := some o }
          else { e with list := e.list ++ pairAt root (v ++ [tolower b]) } := by
  have hwalk : treeWalk root (v ++ [tolower b]) = treeGetChild (treeWalk root v) b := by
    rw [treeWalk_append hv, treeGetChild_tolower]
  cases hn : treeWalk root v with
  | null =>
      have : treeGetChild TreeNode.null b = .null := rfl
      simp [pairAt, look, hwalk, hn, this, TreeNode.view, TreeNode.isNull]
  | node val c s a =>
      rw [hn] at hwalk
      cases hc : treeGetChild (.node val c s a) b with
      | null =>
          simp [pairAt, look, hwalk, hn, hc, TreeNode.view, TreeNode.isNull, foreachStep]
      | node val' c' s' a' =>
          cases a' with
          | none =>
              simp [pairAt, look, hwalk, hn, hc, TreeNode.view, TreeNode.isNull, foreachStep,
                TreeNode.adapted]
          | some o =>
              simp [pairAt, look, hwalk, hn, hc, TreeNode.view, TreeNode.isNull, foreachStep,
                TreeNode.adapted]

/-- A key of `n` bytes is noted if it is longer than the one noted before. -/
private theorem Noted.note {e : DatabaseObject κ} {best : Option (List UInt8)}
    (H : Noted never side e best) {w o : List UInt8} {n : ℕ} (hw : w ≠ []) (hlen : w.length = n)
    (ho : treeReplacement never side w = o) :
    Noted never side
      (if e.transformationConsume = 0 ∨ e.transformationConsume < n then
        { e with transformationConsume := n, transformation := some o }
      else e)
      (improve best w) := by
  subst ho
  cases best with
  | none =>
      have h0 : e.transformationConsume = 0 := by
        rw [H.consume]
        rfl
      rw [if_pos (.inl h0)]
      refine ⟨by simp [improve, hlen], by simp [improve], ?_⟩
      rintro k ⟨⟩
      exact hw
  | some k =>
      have hk : e.transformationConsume = k.length := by
        rw [H.consume]
        rfl
      have hpos := List.length_pos_iff.mpr (H.ne_nil k rfl)
      by_cases hlt : k.length < w.length
      · rw [if_pos (.inr (by omega)), improve, if_pos hlt]
        refine ⟨by simp [hlen], by simp, ?_⟩
        rintro k' ⟨⟩
        exact hw
      · rw [if_neg (by omega), improve, if_neg hlt]
        exact H

/-- The two pairs of a suffix together: the key that the longer suffix may be is
remembered if it is longer than the one remembered before. -/
private theorem foldl_pairAts {v : List UInt8} (hv : v ≠ []) (b : UInt8) {e : DatabaseObject κ}
    {best : Option (List UInt8)} (H : Noted never side e best) :
    let w := v ++ [tolower b]
    ∃ e', (pairAt side v ++ pairAt never v).foldl (foreachStep b) e =
        { e' with list := e.list ++ (pairAt side w ++ pairAt never w) } ∧
      e' = { e with
        transformationConsume := e'.transformationConsume, transformation := e'.transformation } ∧
      Noted never side e'
        (if (treeLexicon never side).key w then improve best w else best) := by
  intro w
  have hlen : 2 ≤ w.length := by
    have := List.length_pos_iff.mpr hv
    simp only [w, List.length_append, List.length_singleton]
    omega
  have hw : w.length = v.length + 1 := by simp [w]
  have hwne : w ≠ [] := by simp [w]
  rw [List.foldl_append, foldl_pairAt side hv, foldl_pairAt never hv]
  cases hs : (look side w).join with
  | none =>
      cases hn : (look never w).join with
      | none =>
          have hkey : ¬ (treeLexicon never side).key w := by simp [treeLexicon, hs, hn]
          refine ⟨e, by simp [w], rfl, ?_⟩
          rw [if_neg hkey]
          exact H
      | some o =>
          have hkey : (treeLexicon never side).key w := by simp [treeLexicon, hs, hn, hlen]
          have hrepl : treeReplacement never side w = o := by simp [treeReplacement, hs, hn]
          refine ⟨_, ?_, ?_, by rw [if_pos hkey]; exact H.note never side hwne hw hrepl⟩
          · dsimp only
            split_ifs <;> simp [w]
          · split_ifs <;> rfl
  | some o =>
      have hkey : (treeLexicon never side).key w := by simp [treeLexicon, hs, hlen]
      have hrepl : treeReplacement never side w = o := by simp [treeReplacement, hs]
      refine ⟨_, ?_, ?_, by rw [if_pos hkey]; exact H.note never side hwne hw hrepl⟩
      · -- a never rule of the same length comes second and changes nothing
        cases hn : (look never w).join with
        | none =>
            dsimp only
            split_ifs <;> simp [w]
        | some o' =>
            dsimp only
            by_cases hup : e.transformationConsume = 0 ∨ e.transformationConsume < v.length + 1
            · simp only [if_pos hup]
              simp [w]
            · simp only [if_neg hup]
              simp [w]
      · split_ifs <;> rfl

/-- The loop over the pairs of some suffixes. -/
private theorem foldl_pairsOf {vs : List (List UInt8)} (hne : ∀ v ∈ vs, v ≠ []) (b : UInt8)
    {e : DatabaseObject κ} {best : Option (List UInt8)} (H : Noted never side e best) :
    ∃ f, (vs.flatMap fun v => pairAt side v ++ pairAt never v).foldl (foreachStep b) e = f ∧
      f = { e with
        list := f.list
        transformationConsume := f.transformationConsume
        transformation := f.transformation } ∧
      f.list = e.list ++ (vs.map (· ++ [tolower b])).flatMap
        (fun v => pairAt side v ++ pairAt never v) ∧
      Noted never side f (((vs.map (· ++ [tolower b])).filter
        (treeLexicon never side).key).foldl improve best) := by
  induction vs generalizing e best with
  | nil => exact ⟨e, rfl, rfl, by simp, H⟩
  | cons v vs ih =>
      obtain ⟨e', he', hframe, H'⟩ := foldl_pairAts never side (hne v List.mem_cons_self) b H
      have H'' : Noted never side { e' with list := e.list ++ (pairAt side (v ++ [tolower b]) ++
          pairAt never (v ++ [tolower b])) } _ := ⟨H'.consume, H'.transformation, H'.ne_nil⟩
      obtain ⟨f, hf, hfframe, hflist, Hf⟩ := ih (fun v hv => hne v (List.mem_cons_of_mem _ hv)) H''
      refine ⟨f, ?_, ?_, ?_, ?_⟩
      · rw [List.flatMap_cons, List.foldl_append, he', hf]
      · rw [hfframe, hframe]
      · rw [hflist, List.map_cons, List.flatMap_cons, List.append_assoc]
      · rw [List.map_cons, List.filter_cons]
        split_ifs at Hf ⊢ with hkey <;> exact Hf

/-- The loop over the list after the text `w`: the pairs of all suffixes move on, and
of the keys that end with the byte the longest is remembered. -/
private theorem listForeach_pairs {d : DatabaseObject κ} {w : List UInt8}
    {best : Option (List UInt8)} (hlist : d.list = pairs never side w)
    (H : Noted never side d best) (b : UInt8) :
    ∃ f, d.listForeach b = f ∧
      f = { d with
        list := f.list
        transformationConsume := f.transformationConsume
        transformation := f.transformation } ∧
      pairs never side (w ++ [tolower b]) =
        (pairAt side [tolower b] ++ pairAt never [tolower b]) ++ f.list ∧
      (f.list = [] ↔ alive (treeLexicon never side) (w ++ [tolower b]) = false) ∧
      Noted never side f
        ((ending (treeLexicon never side) (w ++ [tolower b])).foldl improve best) := by
  obtain ⟨vs, hvs, hne⟩ := tails_reverse w
  have hnil : ∀ root, pairAt root [] = [] := fun root => rfl
  have H₀ : Noted never side { d with list := [] } best := ⟨H.consume, H.transformation, H.ne_nil⟩
  obtain ⟨f, hf, hframe, hflist, Hf⟩ := foldl_pairsOf never side hne b H₀
  have hkey : ∀ b, ¬ (treeLexicon never side).key [b] := by simp [treeLexicon]
  have hkey0 : ¬ (treeLexicon never side).key [] := by simp [treeLexicon]
  refine ⟨f, ?_, hframe, ?_, ?_, ?_⟩
  · rw [listForeach, hlist, pairs, hvs, List.flatMap_cons, hnil, hnil]
    exact hf
  · rw [pairs, tails_reverse_append, hvs, hflist]
    simp [hnil]
  · rw [hflist, List.nil_append, List.flatMap_eq_nil_iff, alive, ← List.any_reverse,
      tails_reverse_append, hvs]
    simp only [List.map_cons, List.any_cons, List.length_nil, List.nil_append,
      List.length_singleton, Nat.reduceLeDiff, decide_false, Bool.false_and, Bool.false_or,
      List.any_eq_false, List.append_eq_nil_iff, pairAt_eq_nil]
    refine forall₂_congr fun v hv => ?_
    obtain ⟨x, hx, rfl⟩ := List.mem_map.mp hv
    have hlen : 1 ≤ x.length := List.length_pos_iff.mpr (hne x hx)
    simp [treeLexicon, hlen]
  · rw [ending, tails_reverse_append, hvs, List.map_cons, List.nil_append,
      List.filter_cons_of_neg hkey0, List.filter_cons_of_neg (hkey _)]
    exact Hf

end Words

/-! ## The protocol follows the streaming matcher -/

section Follows
variable {never side : TreeNode}

/-- The lookup tree follows the words that the matcher in the state `s` does. -/
structure Sees (never side : TreeNode) (d : DatabaseObject κ) (s : State UInt8) : Prop where
  neverRules : d.neverRules = never
  sideRules : d.sideRules = side
  list : d.list = pairs never side s.seen
  noted : Noted never side d s.best

/-- The context and the held bytes play no part in it. -/
theorem Sees.frame {d d' : DatabaseObject κ} {s : State UInt8} (S : Sees never side d s)
    (h : d' = { d with context := d'.context, input := d'.input, inputRs := d'.inputRs }) :
    Sees never side d' s := by
  rw [h]
  exact ⟨S.neverRules, S.sideRules, S.list, S.noted.consume, S.noted.transformation, S.noted.ne_nil⟩

/-- The list is empty when no ending of the text reaches a node. -/
theorem Sees.list_eq_nil_iff {d : DatabaseObject κ} {s : State UInt8} (S : Sees never side d s) :
    d.list = [] ↔ NoneBegun (treeLexicon never side) s.seen := by
  rw [S.list, pairs, List.flatMap_eq_nil_iff, NoneBegun]
  refine forall_congr' fun v => ?_
  rw [List.mem_reverse, List.mem_tails, List.append_eq_nil_iff, pairAt_eq_nil, pairAt_eq_nil]
  rcases eq_or_ne v [] with rfl | hv
  · simp [look_nil]
  · simp [hv, treeLexicon]

/-- A list with the pairs of one byte only begins with this. -/
theorem sees_byte {d : DatabaseObject κ} {s : State UInt8} {b : UInt8} (hn : d.neverRules = never)
    (hs : d.sideRules = side) (hlist : d.list = d.started b) (hconsume : d.transformationConsume = 0)
    (hseen : s.seen = [tolower b]) (hbest : s.best = none) : Sees never side d s where
  neverRules := hn
  sideRules := hs
  list := by
    have hnil : ∀ root, pairAt root [] = [] := fun root => rfl
    rw [hlist, started_eq never side hn hs, hseen]
    simp [pairs, hnil]
  noted := hbest ▸ noted_none never side hconsume

/-- An empty list is that of the empty text. -/
theorem sees_nil {d : DatabaseObject κ} (hn : d.neverRules = never) (hs : d.sideRules = side)
    (hlist : d.list = []) (hconsume : d.transformationConsume = 0) : Sees never side d start where
  neverRules := hn
  sideRules := hs
  list := hlist
  noted := noted_none never side hconsume

/-- The decision of the lookup tree on a byte that its context allows is that of the matcher: `w`
is the text with the byte and `best` the key remembered then. -/
private theorem judge_sees [ContextParser κ] {d : DatabaseObject κ} {s : State UInt8}
    (S : Sees never side d s) {b : UInt8} (hallow : (d.evaluateContext b).2) {w : List UInt8}
    (hw : s.seen ++ [tolower b] = w) {best : Option (List UInt8)}
    (hbest : (ending (treeLexicon never side) w).foldl improve s.best = best) :
    (d.judge b).1.context = (d.evaluateContext b).1.context ∧ (d.judge b).1.neverRules = never ∧
      (d.judge b).1.sideRules = side ∧ (d.judge b).1.list = pairs never side w ∧
      if alive (treeLexicon never side) w then
        (d.judge b).2 = .hold ∧ Noted never side (d.judge b).1 best
      else Noted never side (d.judge b).1 none ∧
        match best with
        | some k => (d.judge b).2 = .swap k.length (treeReplacement never side k)
        | none => (d.judge b).2 =
            if (treeLexicon never side).pre [tolower b] then .hold else .release := by
  obtain ⟨ctx, hctx⟩ := d.evaluateContext_frame b
  have hnoted : Noted never side ({ d with context := ctx } : DatabaseObject κ) s.best :=
    ⟨S.noted.consume, S.noted.transformation, S.noted.ne_nil⟩
  obtain ⟨f, hf, hframe, hpairs, halive, Hf⟩ := listForeach_pairs never side
    (d := { d with context := ctx }) S.list hnoted b
  rw [hw] at hpairs halive Hf
  rw [hbest] at Hf
  have hfn : f.neverRules = never := by rw [hframe, S.neverRules]
  have hfs : f.sideRules = side := by rw [hframe, S.sideRules]
  have hfc : f.context = (d.evaluateContext b).1.context := by rw [hframe, hctx]
  have hjudge : d.judge b =
      (if f.list = [] ∧ 0 < f.transformationConsume then
        ({ f with
            list := pairs never side w
            transformationConsume := 0
            transformation := none },
          .swap f.transformationConsume (f.transformation.getD []))
      else ({ f with list := pairs never side w },
        if pairs never side w = [] then .release else .hold)) := by
    rw [hpairs, ← started_eq never side hfn hfs b, judge, hctx]
    simp only [hallow, if_true, hf]
  by_cases hl : f.list = []
  · have hdead : alive (treeLexicon never side) w = false := halive.mp hl
    simp only [hdead, Bool.false_eq_true, if_false]
    cases best with
    | some k =>
        have hk : f.transformationConsume = k.length := Hf.consume
        have hpos := List.length_pos_iff.mpr (Hf.ne_nil k rfl)
        have htr : f.transformation = some (treeReplacement never side k) := Hf.transformation k rfl
        rw [if_pos ⟨hl, by omega⟩, hk, htr] at hjudge
        simp only [hjudge]
        exact ⟨hfc, hfn, hfs, trivial, noted_none never side rfl, rfl⟩
    | none =>
        have h0 : f.transformationConsume = 0 := Hf.consume
        have hpre : pairs never side w = [] ↔ (treeLexicon never side).pre [tolower b] = false := by
          rw [hpairs, hl, List.append_nil, List.append_eq_nil_iff, pairAt_eq_nil, pairAt_eq_nil]
          simp [treeLexicon]
        rw [if_neg (by omega)] at hjudge
        simp only [hjudge, hpre]
        refine ⟨hfc, hfn, hfs, trivial, ⟨Hf.consume, Hf.transformation, Hf.ne_nil⟩, ?_⟩
        cases (treeLexicon never side).pre [tolower b] <;> rfl
  · have halive' : alive (treeLexicon never side) w = true := by
      cases ha : alive (treeLexicon never side) w with
      | true => rfl
      | false => exact absurd (halive.mpr ha) hl
    have hne : pairs never side w ≠ [] := by
      rw [hpairs]
      simp [hl]
    rw [if_neg (fun h => hl h.1), if_neg hne] at hjudge
    simp only [hjudge, halive', if_true]
    exact ⟨hfc, hfn, hfs, trivial, trivial, Hf.consume, Hf.transformation, Hf.ne_nil⟩

/-- **A byte that the context allows** is one for the matcher, and nothing is held behind it when
the matcher holds nothing. -/
theorem Sees.judge [ContextParser κ] {d : DatabaseObject κ} {s : State UInt8}
    (S : Sees never side d s) {b : UInt8} (hallow : (d.evaluateContext b).2) :
    Sees never side (d.judge b).1 (step (treeLexicon never side) tolower s b).1 ∧
      ((d.judge b).2 = .release ↔ (step (treeLexicon never side) tolower s b).1.held = []) := by
  generalize hw : s.seen ++ [tolower b] = w
  generalize hbest : (ending (treeLexicon never side) w).foldl improve s.best = best
  obtain ⟨-, hn, hs, hl, hv⟩ := judge_sees S hallow hw hbest
  rw [StreamMatcher.step, hw, hbest]
  by_cases halive : alive (treeLexicon never side) w
  · simp only [halive, if_true] at hv ⊢
    exact ⟨⟨hn, hs, hl, hv.2⟩, by simp [hv.1]⟩
  · simp only [halive, Bool.false_eq_true, if_false] at hv ⊢
    obtain ⟨H, hv⟩ := hv
    cases best with
    | some k => exact ⟨⟨hn, hs, hl, H⟩, by simp [hv]⟩
    | none =>
        simp only at hv ⊢
        by_cases hpre : (treeLexicon never side).pre [tolower b]
        · rw [if_pos hpre] at hv ⊢
          exact ⟨⟨hn, hs, hl, H⟩, by simp [hv]⟩
        · rw [if_neg hpre] at hv ⊢
          exact ⟨⟨hn, hs, hl, H⟩, by simp [hv]⟩

/-- The lookup tree without a context is at the state `s` of the matcher. -/
private structure Follows (never side : TreeNode) (d : DatabaseObject κ) (s : State UInt8) : Prop
    extends Sees never side d s where
  context : d.context = none
  input : d.input = s.held
  consistent : d.Consistent

private theorem follows_create :
    Follows never side (create never side : DatabaseObject κ) start where
  toSees := sees_nil rfl rfl rfl rfl
  context := rfl
  input := rfl
  consistent := consistent_create never side

/-- One byte of the protocol is one step of the matcher. -/
private theorem rewriteStep_follows [ContextParser κ] (d : DatabaseObject κ) (s : State UInt8)
    (b : UInt8) (F : Follows never side d s) :
    ∃ d', rewriteStep d b = .ok (d', render (treeReplacement never side)
        (step (treeLexicon never side) tolower s b).2) ∧
      Follows never side d' (step (treeLexicon never side) tolower s b).1 := by
  generalize hw : s.seen ++ [tolower b] = w
  generalize hbest : (ending (treeLexicon never side) w).foldl improve s.best = best
  have hctx : d.evaluateContext b = (d, true) := by simp [evaluateContext, F.context]
  obtain ⟨hc, hn, hs, hl, hv⟩ := judge_sees F.toSees (by rw [hctx]) hw hbest
  rw [hctx, F.context] at hc
  obtain ⟨d', r, hstep, hcons⟩ := F.consistent.step d b
  have hinput : (d.judge b).1.input = s.held := (d.input_judge b).trans F.input
  have hrw : rewriteStep d b = .ok (d', r.text) := by
    simp [rewriteStep, hstep, bind, Except.bind, pure, Except.pure]
  rw [databaseStep_eq] at hstep
  rw [hrw, StreamMatcher.step, hw, hbest]
  -- what the verdict leaves of the held bytes decides the rest
  have follow : ∀ {held : List UInt8} {o : List (Piece UInt8)} {best' : Option (List UInt8)},
      r.text = render (treeReplacement never side) o →
      d'.context = (d.judge b).1.context → d'.neverRules = (d.judge b).1.neverRules →
      d'.sideRules = (d.judge b).1.sideRules → d'.list = (d.judge b).1.list →
      d'.input = held → Noted never side d' best' →
      ∃ d'', (Except.ok (d', r.text) : Except Fault _) =
          .ok (d'', render (treeReplacement never side) o) ∧
        Follows never side d'' ⟨w, held, best'⟩ := by
    intro held o best' hr hc' hn' hs' hl' hi' hnoted
    exact ⟨d', by rw [hr], ⟨hn'.trans hn, hs'.trans hs, hl'.trans hl, hnoted⟩, hc'.trans hc, hi',
      hcons⟩
  have hhold : (d.judge b).2 = .hold →
      ∀ {best'}, Noted never side (d.judge b).1 best' →
      ∃ d'', (Except.ok (d', r.text) : Except Fault _) =
          .ok (d'', render (treeReplacement never side) []) ∧
        Follows never side d'' ⟨w, s.held ++ [b], best'⟩ := by
    intro hv best' H
    rw [hv] at hstep
    obtain ⟨rfl, rfl⟩ : (d.judge b).1.addInput b = d' ∧ Reaction.keep = r := by
      simpa [act] using hstep
    exact follow rfl rfl rfl rfl rfl (by rw [← hinput]; rfl)
      ⟨H.consume, H.transformation, H.ne_nil⟩
  by_cases halive : alive (treeLexicon never side) w
  · simp only [halive, if_true] at hv ⊢
    exact hhold hv.1 hv.2
  · simp only [halive, Bool.false_eq_true, if_false] at hv ⊢
    obtain ⟨H, hv⟩ := hv
    cases best with
    | some k =>
        simp only at hv ⊢
        rw [hv, act] at hstep
        split_ifs at hstep
        obtain ⟨rfl, rfl⟩ := Prod.mk.inj (Except.ok.inj hstep)
        have htext : s.held.take (s.held.length - k.length) ++ treeReplacement never side k =
            render (treeReplacement never side)
              ((s.held.take (s.held.length - k.length)).map .copy ++ [.swap k]) := by
          rw [render_append, render_copies]
          simp [Piece.text]
        exact follow (by rw [← htext, Reaction.text, hinput]; rfl) rfl rfl rfl rfl rfl
          ⟨H.consume, H.transformation, H.ne_nil⟩
    | none =>
        simp only at hv ⊢
        by_cases hpre : (treeLexicon never side).pre [tolower b]
        · rw [if_pos hpre] at hv ⊢
          exact hhold hv H
        · rw [if_neg hpre] at hv ⊢
          rw [hv, act] at hstep
          obtain ⟨rfl, rfl⟩ := Prod.mk.inj (Except.ok.inj hstep)
          exact follow (by rw [render_copies, Reaction.text, hinput, Option.getD_none,
              List.append_nil]) rfl rfl rfl rfl rfl
            ⟨H.consume, H.transformation, H.ne_nil⟩

/-- **The protocol is the streaming matcher.** Without a context parser all bytes that
are put out for a text are the rendering of what the matcher puts out for it; nothing
goes wrong. -/
theorem rewrite_create [ContextParser κ] (never side : TreeNode) (t : List UInt8) :
    rewrite (create never side : DatabaseObject κ) t =
      .ok (render (treeReplacement never side) (emit (treeLexicon never side) tolower t)) := by
  obtain ⟨d', hrun, F⟩ := run_simulates (f := rewriteStep)
    (render_append (treeReplacement never side)) rfl (rewriteStep_follows (κ := κ))
    follows_create t
  rw [rewrite, hrun, emit, render_append, render_copies, ← F.input]
  simp [getHolding, bind, Except.bind, pure, Except.pure]

end Follows

end RenaProxy
