import RenaProxy.Rewriter
import Mathlib.Tactic.IntervalCases

/-!
# Rewriting with the rules of one side

A side rule has a lowercase key of at least two bytes and a replacement; of several
rules for one key the first counts. `rewritesSoundly_iff` says on which texts the
rewriter corrupts nothing whatever the replacements are, `rewrite_delimited` that a
text whose keys are all delimited is rewritten wherever a key ends.
-/
namespace RenaProxy
open StreamRewriting StreamMatcher DatabaseObject TreeNode

/-- A rule of one side. The replacement is a C string. -/
structure SideRule where
  key : List UInt8
  replacement : List UInt8
  two_le : 2 ≤ key.length
  lower : key.map tolower = key
  isString : 0 ∉ replacement

/-- The tree that `tree_insert` makes of the rules. -/
def sideTree (rules : List SideRule) : TreeNode :=
  treeBuild (rules.map fun r => (r.key, some r.replacement))

/-- The replacement of the first rule for a word in any letter case. -/
def replacementOf (rules : List SideRule) (w : List UInt8) : List UInt8 :=
  ((rules.find? fun r => r.key = w.map tolower).map SideRule.replacement).getD []

/-- The beginnings of keys and the keys, in any letter case. -/
def sideLexicon (rules : List SideRule) : Lexicon UInt8 where
  pre w := decide (w ≠ [] ∧ ∃ r ∈ rules, w.map tolower <+: r.key)
  key w := decide (∃ r ∈ rules, w.map tolower = r.key)
  pre_of_key := by
    intro w h
    simp only [decide_eq_true_eq] at h ⊢
    obtain ⟨r, hr, h⟩ := h
    refine ⟨?_, r, hr, by rw [h]⟩
    rintro rfl
    have := r.two_le
    simp [← h] at this
  pre_of_append := by
    intro w a hw h
    simp only [decide_eq_true_eq] at h ⊢
    obtain ⟨-, r, hr, h⟩ := h
    exact ⟨hw, r, hr, ((List.prefix_append w [a]).map tolower).trans h⟩
  two_le_of_key := by
    intro w h
    simp only [decide_eq_true_eq] at h
    obtain ⟨r, -, h⟩ := h
    have hlen : (w.map tolower).length = w.length := List.length_map ..
    rw [← hlen, h]
    exact r.two_le

section Lexicon
variable (rules : List SideRule)

private theorem sideRules_proper : ∀ r ∈ rules.map (fun r => (r.key, some r.replacement)),
    r.1 ≠ [] ∧ r.1.map tolower = r.1 := by
  intro r hr
  obtain ⟨r, -, rfl⟩ := List.mem_map.mp hr
  exact ⟨List.ne_nil_of_length_pos (Nat.lt_of_lt_of_le Nat.zero_lt_two r.two_le), r.lower⟩

private theorem firstAdapted_sideRules (w : List UInt8) :
    firstAdapted (rules.map fun r => (r.key, some r.replacement)) w =
      (rules.find? fun r => r.key = w.map tolower).map SideRule.replacement := by
  have hstored : ∀ r : SideRule, storedAdapted (some r.replacement) = r.replacement :=
    fun r => cstr_of_notMem r.isString
  rw [firstAdapted]
  simp [List.find?_map, Function.comp_def, hstored]

theorem look_sideTree {w : List UInt8} (hw : w ≠ []) :
    look (sideTree rules) w =
      if ∃ r ∈ rules, w.map tolower <+: r.key then
        some ((rules.find? fun r => r.key = w.map tolower).map SideRule.replacement)
      else none := by
  rw [sideTree, look_treeBuild (sideRules_proper rules) hw, firstAdapted_sideRules]
  simp

/-- A word reaches a node of the tree when it begins a key. -/
private theorem isSome_look_sideTree (w : List UInt8) :
    (look (sideTree rules) w).isSome = (sideLexicon rules).pre w := by
  rcases eq_or_ne w [] with rfl | hw
  · simp [look_nil, sideLexicon]
  · rw [look_sideTree rules hw]
    by_cases h : ∃ r ∈ rules, w.map tolower <+: r.key <;> simp [sideLexicon, h, hw]

/-- What is stored there is the first replacement of the key. -/
theorem join_look_sideTree (w : List UInt8) :
    (look (sideTree rules) w).join =
      (rules.find? fun r => r.key = w.map tolower).map SideRule.replacement := by
  rcases eq_or_ne w [] with rfl | hw
  · have hnone : rules.find? (fun r => r.key = ([] : List UInt8).map tolower) = none := by
      rw [List.find?_eq_none]
      intro r _ heq
      have := r.two_le
      rw [of_decide_eq_true heq] at this
      simp at this
    rw [hnone]
    rfl
  · rw [sideTree, join_look_treeBuild (sideRules_proper rules) hw, firstAdapted_sideRules]

private theorem isSome_join_look_sideTree (w : List UInt8) :
    (look (sideTree rules) w).join.isSome = (sideLexicon rules).key w := by
  rw [join_look_sideTree, Option.isSome_map, Bool.eq_iff_iff, List.find?_isSome]
  simp [sideLexicon, eq_comm]

/-- Two trees know the lexicon of all their rules. -/
theorem treeLexicon_sideTree (never side : List SideRule) :
    treeLexicon (sideTree never) (sideTree side) = sideLexicon (side ++ never) := by
  ext w
  · simp [treeLexicon, isSome_look_sideTree, sideLexicon, or_and_right, exists_or, Bool.and_or_distrib_left]
  · have hlen : (sideLexicon (side ++ never)).key w → 2 ≤ w.length :=
      (sideLexicon (side ++ never)).two_le_of_key
    have hkey : (sideLexicon (side ++ never)).key w =
        ((sideLexicon side).key w || (sideLexicon never).key w) := by
      simp [sideLexicon, or_and_right, exists_or]
    rw [hkey] at hlen ⊢
    simp only [treeLexicon, isSome_join_look_sideTree]
    by_cases h : ((sideLexicon side).key w || (sideLexicon never).key w) = true
    · simp [h, hlen h]
    · simp [h]

/-- Of two trees that know a key the one for the side wins. -/
theorem treeReplacement_sideTree (never side : List SideRule) :
    treeReplacement (sideTree never) (sideTree side) = replacementOf (side ++ never) := by
  funext w
  rw [treeReplacement, join_look_sideTree, join_look_sideTree, replacementOf, List.find?_append,
    Option.map_or]

/-- What the rewriter puts out with rules in both trees. -/
theorem rewrite_sideTrees (never side : List SideRule) (t : List UInt8) :
    rewrite (create (sideTree never) (sideTree side) : DatabaseObject Context) t =
      .ok (render (replacementOf (side ++ never)) (emit (sideLexicon (side ++ never)) tolower t)) := by
  rw [rewrite_create, treeLexicon_sideTree, treeReplacement_sideTree]

/-- What the rewriter puts out with side rules alone. -/
theorem rewrite_sideTree (t : List UInt8) :
    rewrite (create null (sideTree rules) : DatabaseObject Context) t =
      .ok (render (replacementOf rules) (emit (sideLexicon rules) tolower t)) := by
  have h := rewrite_sideTrees [] rules t
  rwa [List.append_nil] at h

end Lexicon

/-! ## No corruption -/

/-- The bytes put out for `t` are `t` with some disjoint occurrences of keys, in any
letter case, swapped for their replacements. -/
def RewritesSoundly (rules : List SideRule) (t : List UInt8) : Prop :=
  ∃ out, rewrite (create null (sideTree rules) : DatabaseObject Context) t = .ok out ∧
    Rewrites tolower (fun k => ∃ r ∈ rules, r.key = k) (replacementOf rules) t out

section Sound
variable {rules : List SideRule} {t : List UInt8}

theorem sideLexicon_congr {rules' : List SideRule}
    (h : rules'.map SideRule.key = rules.map SideRule.key) :
    sideLexicon rules' = sideLexicon rules := by
  have hex : ∀ p : List UInt8 → Prop, (∃ r ∈ rules', p r.key) ↔ ∃ r ∈ rules, p r.key := by
    intro p
    have hmem : ∀ rs : List SideRule,
        (∃ r ∈ rs, p r.key) ↔ ∃ k ∈ rs.map SideRule.key, p k := by simp
    rw [hmem, hmem, h]
  ext w
  · simp [sideLexicon, hex fun k => w.map tolower <+: k]
  · simp [sideLexicon, hex fun k => w.map tolower = k]

/-- The keys that the rewriter swaps are keys of rules. -/
private theorem key_of_swap_mem_emit {k : List UInt8}
    (h : Piece.swap k ∈ emit (sideLexicon rules) tolower t) : ∃ r ∈ rules, r.key = k := by
  obtain ⟨b, e, hocc, rfl⟩ := occurs_of_swap_mem_emit h
  have hkey := hocc.2.2
  simp only [sideLexicon, decide_eq_true_eq] at hkey
  obtain ⟨r, hr, hk⟩ := hkey
  refine ⟨r, hr, ?_⟩
  rw [← hk, slice_map, map_tolower_tolower]

private theorem rewritesSoundly_of_cuts (h : CutsAtMatch (sideLexicon rules) (t.map tolower)) :
    RewritesSoundly rules t :=
  ⟨_, rewrite_sideTree rules t, _, emit_reads_iff.mpr h, fun _ => key_of_swap_mem_emit, rfl⟩

/-- The rules with replacements that tell which key was swapped. -/
private def marked (rules : List SideRule) (n : ℕ) : List SideRule :=
  rules.map fun r => { r with
    replacement := mark 1 2 n ((rules.map SideRule.key).idxOf r.key)
    isString := by simp [mark] }

private theorem map_key_marked (n : ℕ) :
    (marked rules n).map SideRule.key = rules.map SideRule.key := by
  simp [marked, Function.comp_def]

private theorem replacementOf_marked {n : ℕ} {k : List UInt8} (h : ∃ r ∈ rules, r.key = k) :
    replacementOf (marked rules n) k = mark 1 2 n ((rules.map SideRule.key).idxOf k) := by
  obtain ⟨r, hr, rfl⟩ := h
  rw [replacementOf, r.lower]
  cases hf : (marked rules n).find? (fun r' => r'.key = r.key) with
  | none =>
      rw [List.find?_eq_none] at hf
      exact absurd (hf _ (List.mem_map_of_mem hr)) (by simp)
  | some r' =>
      have hkey : r'.key = r.key := by simpa using List.find?_some hf
      obtain ⟨r₀, -, rfl⟩ := List.mem_map.mp (List.mem_of_find?_eq_some hf)
      simp only [Option.map_some, Option.getD_some]
      rw [← hkey]

/-- **When the rewriter corrupts nothing.** Whatever the replacements are, the output is
the text with some disjoint occurrences of keys replaced, exactly when each cut falls
on the key it is made for: at every byte with which the last candidate dies, the
longest key completed since the last such byte, the first to end among those, also
stands right before that byte. -/
theorem rewritesSoundly_iff (rules : List SideRule) (t : List UInt8) :
    (∀ rules', rules'.map SideRule.key = rules.map SideRule.key → RewritesSoundly rules' t) ↔
      CutsAtMatch (sideLexicon rules) (t.map tolower) := by
  constructor
  · intro h
    obtain ⟨out, hout, ps, hreads, hkeys, hrender⟩ :=
      h (marked rules t.length) (map_key_marked t.length)
    have hkeys' : ∀ k, Piece.swap k ∈ ps → ∃ r ∈ rules, r.key = k := by
      intro k hk
      obtain ⟨r, hr, rfl⟩ := hkeys k hk
      obtain ⟨r₀, hr₀, rfl⟩ := List.mem_map.mp hr
      exact ⟨r₀, hr₀, rfl⟩
    rw [rewrite_sideTree, sideLexicon_congr (map_key_marked _), Except.ok.injEq] at hout
    have heq : ps = emit (sideLexicon rules) tolower t := by
      refine render_injective (rules.map SideRule.key).idxOf (x := 1) (y := 2)
        (by decide) (copies_le_length_of_reads hreads) copies_emit_le ?_ ?_
      · intro k k' hk hk' hidx
        obtain ⟨r, hr, rfl⟩ := hkeys' k hk
        exact (List.idxOf_inj (List.mem_map_of_mem hr)).mp hidx
      · calc
          render (fun k => mark 1 2 t.length ((rules.map SideRule.key).idxOf k)) ps = out := by
            rw [← hrender]
            exact render_congr fun k hk => (replacementOf_marked (hkeys' k hk)).symm
          _ = _ := by
            rw [← hout]
            exact render_congr fun k hk => replacementOf_marked (key_of_swap_mem_emit hk)
    exact emit_reads_iff.mp (heq ▸ hreads)
  · intro h rules' hkeys
    exact rewritesSoundly_of_cuts (sideLexicon_congr hkeys ▸ h)

/-- Two rules of which the first key begins the second. -/
def nestedRules : List SideRule :=
  [⟨chars "ab", chars "R", by decide, by decide, by decide⟩,
    ⟨chars "abcd", chars "S", by decide, by decide, by decide⟩]

/-- The text `abcx` becomes `aRx`: the candidate `abc` lives on after `ab`, and the two
bytes cut when it dies are `bc`. -/
theorem not_rewritesSoundly_nestedRules : ¬ RewritesSoundly nestedRules (chars "abcx") := by
  rintro ⟨out, hout, ps, hreads, hkeys, hrender⟩
  rw [show chars "abcx" = [97, 98, 99, 120] by decide] at hreads hout
  have hcomputed : rewrite (create null (sideTree nestedRules) : DatabaseObject Context)
      [97, 98, 99, 120] = .ok [97, 82, 120] := by rfl
  obtain rfl : [97, 82, 120] = out := Except.ok.inj (hcomputed.symm.trans hout)
  have hswap : ∀ k, (∃ r ∈ nestedRules, r.key = k) →
      ∃ c z, replacementOf nestedRules k = c :: z ∧ c ≠ 97 ∧ ∃ w, k = 97 :: w := by
    rintro k ⟨r, hr, rfl⟩
    obtain rfl | rfl : r = nestedRules[0] ∨ r = nestedRules[1] := by
      simpa [nestedRules] using hr
    · exact ⟨82, [], rfl, by decide, _, rfl⟩
    · exact ⟨83, [], rfl, by decide, _, rfl⟩
  -- the first byte is copied, and the next two can be neither copied nor read as a key
  cases ps with
  | nil => exact absurd hrender (by decide)
  | cons p ps =>
      cases p with
      | swap k =>
          obtain ⟨c, z, hrepl, hc, -⟩ := hswap k (hkeys k List.mem_cons_self)
          rw [render_cons, Piece.text, hrepl, List.cons_append, List.cons.injEq] at hrender
          exact hc hrender.1
      | copy a =>
          obtain ⟨t', ht, hreads⟩ := hreads
          obtain rfl : [98, 99, 120] = t' := by simpa using (List.cons.inj ht).2
          rw [render_cons, Piece.text, List.singleton_append, List.cons.injEq] at hrender
          cases ps with
          | nil => exact absurd hrender.2 (by decide)
          | cons q ps =>
              cases q with
              | copy b =>
                  obtain ⟨t'', ht, -⟩ := hreads
                  have hb : b = 82 := by simpa [Piece.text] using congrArg List.head? hrender.2
                  rw [hb] at ht
                  exact absurd (List.cons.inj ht).1 (by decide)
              | swap k =>
                  obtain ⟨-, -, -, -, w, rfl⟩ := hswap k (hkeys k (by simp))
                  obtain ⟨x, t'', ht, hx, -⟩ := hreads
                  cases x with
                  | nil => simp at hx
                  | cons b x =>
                      obtain rfl : 98 = b := (List.cons.inj ht).1
                      exact absurd (List.cons.inj hx).1 (by decide)

end Sound

/-! ## Delimited texts -/

/-- A byte after every key that is in no key delimits them. -/
theorem delimited_sideLexicon {rules : List SideRule} {t : List UInt8}
    (hd : ∀ b e, Occurs (sideLexicon rules) (t.map tolower) b e →
      ∃ c, t[e]? = some c ∧ ∀ r ∈ rules, tolower c ∉ r.key) :
    Delimited (sideLexicon rules) (t.map tolower) := by
  intro b e hocc
  obtain ⟨c, hc, hfree⟩ := hd b e hocc
  refine ⟨tolower c, by simp [hc], fun w hw hmem => ?_⟩
  simp only [sideLexicon, decide_eq_true_eq] at hw
  obtain ⟨-, r, hr, hpre⟩ := hw
  exact hfree r hr (hpre.subset (List.mem_map.mpr ⟨_, hmem, tolower_tolower c⟩))

/-- **A delimited text is rewritten wherever a key ends.** If every occurrence of a key
is followed by a byte that is in no key, the output is the text with the longest key
at each place where one ends replaced, and all other bytes copied. -/
theorem rewrite_delimited (rules : List SideRule) (t : List UInt8)
    (hd : ∀ b e, Occurs (sideLexicon rules) (t.map tolower) b e →
      ∃ c, t[e]? = some c ∧ ∀ r ∈ rules, tolower c ∉ r.key) :
    rewrite (create null (sideTree rules) : DatabaseObject Context) t =
      .ok (reference (sideLexicon rules) tolower (replacementOf rules) t) := by
  rw [rewrite_sideTree, emit_eq_reference (delimited_sideLexicon hd)]

/-- `xAB.` with `ab` replaced. -/
theorem rewrite_delimited_xAB :
    rewrite (create null (sideTree
        [⟨chars "ab", chars "R", by decide, by decide, by decide⟩]) : DatabaseObject Context)
        (chars "xAB.") =
      .ok (reference (sideLexicon [⟨chars "ab", chars "R", by decide, by decide, by decide⟩])
        tolower
        (replacementOf [⟨chars "ab", chars "R", by decide, by decide, by decide⟩])
        (chars "xAB.")) := by
  refine rewrite_delimited _ _ fun b e hocc => ?_
  obtain ⟨hbe, he, hkey⟩ := hocc
  have he : e ≤ 4 := he
  interval_cases e <;> interval_cases b <;> first
    | exact ⟨_, rfl, by decide⟩
    | exact absurd hkey (by decide)

/-! ## The end of the stream -/

/-- A byte that is in no key, in any letter case, leaves no candidate alive. -/
theorem quiet_of_foreign {rules : List SideRule} {c : UInt8} (hc : ∀ r ∈ rules, tolower c ∉ r.key)
    (t : List UInt8) : Quiet (sideLexicon rules) ((t ++ [c]).map tolower) t.length := by
  intro b hb hpre
  simp only [sideLexicon, decide_eq_true_eq] at hpre
  obtain ⟨-, r, hr, hpre⟩ := hpre
  refine hc r hr (hpre.subset (List.mem_map.mpr ⟨tolower c, ?_, tolower_tolower c⟩))
  have hlen : t.length < ((t ++ [c]).map tolower).length := by simp
  rw [slice_succ hlen hb.le]
  simp

/-- **When the end of the stream completes a match.** Ending the stream after `t` puts out
what ending it after `t` and `c` does, but for the `c`, exactly when `c` keeps a candidate
alive, or no key is pending at the end of `t`, or the pending key is replaced by what
stands in its place. The first is out of the question for a byte that is in no key. -/
theorem rewrite_concat_iff (rules : List SideRule) (t : List UInt8) (c : UInt8) :
    let d : DatabaseObject Context := create null (sideTree rules)
    let kept := ∀ b e, Chosen (sideLexicon rules) (t.map tolower) t.length b e →
      replacementOf rules (slice (t.map tolower) b e) = slice t (t.length - (e - b)) t.length
    (rewrite d (t ++ [c]) = (rewrite d t).map (· ++ [c]) ↔
      (Quiet (sideLexicon rules) ((t ++ [c]).map tolower) t.length → kept)) ∧
    ((∀ r ∈ rules, tolower c ∉ r.key) →
      (rewrite d (t ++ [c]) = (rewrite d t).map (· ++ [c]) ↔ kept)) := by
  intro d kept
  have hiff : rewrite d (t ++ [c]) = (rewrite d t).map (· ++ [c]) ↔
      (Quiet (sideLexicon rules) ((t ++ [c]).map tolower) t.length → kept) := by
    rw [rewrite_sideTree, rewrite_sideTree, Except.map, Except.ok.injEq]
    exact emit_concat_iff (replacementOf rules) t c
  exact ⟨hiff, fun hc => hiff.trans ⟨fun h => h (quiet_of_foreign hc t), fun h _ => h⟩⟩

/-- At its end the text `ab` is put out as it is, although `ab` and a dot are not. -/
theorem not_rewrite_concat :
    ¬ ∀ (rules : List SideRule) (t : List UInt8) (c : UInt8), (∀ r ∈ rules, tolower c ∉ r.key) →
      rewrite (create null (sideTree rules) : DatabaseObject Context) (t ++ [c]) =
        (rewrite (create null (sideTree rules) : DatabaseObject Context) t).map (· ++ [c]) := by
  intro h
  have := h [⟨[97, 98], [82], by decide, by decide, by decide⟩] [97, 98] 46 (by decide)
  have hend : rewrite (create null (sideTree
      [⟨[97, 98], [82], by decide, by decide, by decide⟩]) : DatabaseObject Context) [97, 98] =
      .ok [97, 98] := by rfl
  have hdot : rewrite (create null (sideTree
      [⟨[97, 98], [82], by decide, by decide, by decide⟩]) : DatabaseObject Context)
      ([97, 98] ++ [46]) = .ok [82, 46] := by rfl
  rw [hend, hdot] at this
  exact absurd (Except.ok.inj this) (by decide)

end RenaProxy
