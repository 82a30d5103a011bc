import RenaProxy.SideRules

/-!
# Names that are never proxied

`no_proxy` gives `tree_insert` no replacement, and the tree stores the empty string in its
place: the matcher cannot tell a name to leave alone from a name to delete.
`neverNamesPass_iff` says when such a name gets through all the same.
-/
namespace RenaProxy
open StreamRewriting StreamMatcher DatabaseObject TreeNode

/-- A rule of `no_proxy`. -/
structure NeverRule where
  key : List UInt8
  two_le : 2 ≤ key.length
  lower : key.map tolower = key

/-- The tree that `no_proxy` makes of its rules. -/
def neverTree (rules : List NeverRule) : TreeNode := treeBuild (rules.map fun r => (r.key, none))

/-- The word `key` stands in `t` from `b` to `e`, in any letter case. -/
def KeyAt (key t : List UInt8) (b e : ℕ) : Prop :=
  b < e ∧ e ≤ t.length ∧ (slice t b e).map tolower = key

/-- A never name stands in `t` from `b` to `e`, and is not part of a longer side key that
ends at the same place. -/
def NeverNameAt (never : List NeverRule) (side : List SideRule) (t : List UInt8) (b e : ℕ) : Prop :=
  (∃ n ∈ never, KeyAt n.key t b e) ∧ ∀ r ∈ side, ∀ b', KeyAt r.key t b' e → b ≤ b'

/-- The matcher of the rules, without a context parser. -/
def neverMatcher (never : List NeverRule) (side : List SideRule) : DatabaseObject Context :=
  create (neverTree never) (sideTree side)

/-- Between what is put out for the text before `b` and for the text from `e` on come
the bytes in between, as they are. -/
def PassesThrough (never : List NeverRule) (side : List SideRule) (t : List UInt8) (b e : ℕ) :
    Prop :=
  ∃ before after, rewrite (neverMatcher never side) (t.take b) = .ok before ∧
    rewrite (neverMatcher never side) (t.drop e) = .ok after ∧
    rewrite (neverMatcher never side) t = .ok (before ++ slice t b e ++ after)

/-- Never names pass through untouched, and with never names alone everything does. -/
def NeverNamesPass (never : List NeverRule) (side : List SideRule) (t : List UInt8) : Prop :=
  (∀ b e, NeverNameAt never side t b e → PassesThrough never side t b e) ∧
    (side = [] → rewrite (neverMatcher never side) t = .ok t)

/-- Every key is followed by a byte that is in no key. -/
def AllFollowed (never : List NeverRule) (side : List SideRule) (t : List UInt8) : Prop :=
  ∀ b e, ((∃ n ∈ never, KeyAt n.key t b e) ∨ ∃ r ∈ side, KeyAt r.key t b e) →
    ∃ c, t[e]? = some c ∧ (∀ n ∈ never, tolower c ∉ n.key) ∧ ∀ r ∈ side, tolower c ∉ r.key

/-! ## A never rule is a rule to delete -/

/-- The side rule with the empty replacement. -/
def NeverRule.toSideRule (r : NeverRule) : SideRule where
  key := r.key
  replacement := []
  two_le := r.two_le
  lower := r.lower
  isString := List.not_mem_nil

private theorem treeInsertFrom_none (bs : List UInt8) :
    treeInsertFrom none bs = treeInsertFrom (some []) bs := by
  induction bs with
  | nil =>
      funext aux
      cases aux <;> rfl
  | cons b bs ih =>
      funext aux
      rw [treeInsertFrom, treeInsertFrom, ih]

/-- **No replacement is the empty replacement.** -/
theorem treeInsert_none (root : TreeNode) (v : List UInt8) :
    treeInsert root v none = treeInsert root v (some []) := by
  rw [treeInsert, treeInsert, treeInsertFrom_none]

theorem neverTree_eq (rules : List NeverRule) :
    neverTree rules = sideTree (rules.map NeverRule.toSideRule) := by
  induction rules using List.reverseRecOn with
  | nil => rfl
  | append_singleton rules r ih =>
      rw [neverTree, sideTree, List.map_append, List.map_append, List.map_append] at *
      rw [List.map_singleton, List.map_singleton, List.map_singleton, treeBuild_append,
        treeBuild_append, ih]
      exact treeInsert_none _ r.key

section Pass
variable (never : List NeverRule) (side : List SideRule) {t : List UInt8} {b e : ℕ}

/-- All rules as side rules. -/
private def allRules : List SideRule := side ++ never.map NeverRule.toSideRule

private theorem occurs_allRules :
    Occurs (sideLexicon (allRules never side)) (t.map tolower) b e ↔
      (∃ n ∈ never, KeyAt n.key t b e) ∨ ∃ r ∈ side, KeyAt r.key t b e := by
  have hkey : (sideLexicon (allRules never side)).key (slice (t.map tolower) b e) ↔
      ∃ r ∈ allRules never side, (slice t b e).map tolower = r.key := by
    simp only [sideLexicon, slice_map, map_tolower_tolower, decide_eq_true_eq]
  rw [Occurs, List.length_map, hkey]
  constructor
  · rintro ⟨hbe, he, r, hr, hkey⟩
    rcases List.mem_append.mp hr with hr | hr
    · exact .inr ⟨r, hr, hbe, he, hkey⟩
    · obtain ⟨n, hn, rfl⟩ := List.mem_map.mp hr
      exact .inl ⟨n, hn, hbe, he, hkey⟩
  · rintro (⟨n, hn, hbe, he, hkey⟩ | ⟨r, hr, hbe, he, hkey⟩)
    · exact ⟨hbe, he, n.toSideRule, List.mem_append_right _ (List.mem_map_of_mem hn), hkey⟩
    · exact ⟨hbe, he, r, List.mem_append_left _ hr, hkey⟩

/-- The replacement of a key: that of the first side rule for it, or none. -/
private theorem replacementOf_allRules (w : List UInt8) :
    replacementOf (allRules never side) w = replacementOf side w := by
  rw [replacementOf, replacementOf, allRules, List.find?_append]
  cases side.find? (fun r => r.key = w.map tolower) with
  | some r => rfl
  | none =>
      rw [Option.none_or, List.find?_map]
      cases never.find? _ <;> rfl

private theorem rewrite_neverMatcher (t : List UInt8) :
    rewrite (neverMatcher never side) t =
      .ok (render (replacementOf (allRules never side))
        (emit (sideLexicon (allRules never side)) tolower t)) := by
  rw [neverMatcher, neverTree_eq, rewrite_sideTrees, allRules]

variable {never side}

private theorem delimited_allRules (hd : AllFollowed never side t) :
    Delimited (sideLexicon (allRules never side)) (t.map tolower) := by
  apply delimited_sideLexicon
  intro b e hocc
  obtain ⟨c, hc, hnever, hside⟩ := hd b e ((occurs_allRules never side).mp hocc)
  refine ⟨c, hc, ?_⟩
  intro r hr
  rcases List.mem_append.mp hr with hr | hr
  · exact hside r hr
  · obtain ⟨n, hn, rfl⟩ := List.mem_map.mp hr
    exact hnever n hn

/-- What is put out for a text that falls apart at the longest key that ends at `e`. -/
private theorem rewrite_around (hd : AllFollowed never side t)
    (h : Occurs (sideLexicon (allRules never side)) (t.map tolower) b e)
    (hfirst : ∀ b', Occurs (sideLexicon (allRules never side)) (t.map tolower) b' e → b ≤ b') :
    ∃ before after, rewrite (neverMatcher never side) (t.take b) = .ok before ∧
      rewrite (neverMatcher never side) (t.drop e) = .ok after ∧
      rewrite (neverMatcher never side) t = .ok (before ++ replacementOf side (slice t b e) ++ after) := by
  have hd := delimited_allRules hd
  have hrepl : replacementOf (allRules never side) (slice (t.map tolower) b e) =
      replacementOf side (slice t b e) := by
    rw [replacementOf_allRules, slice_map, replacementOf, replacementOf, map_tolower_tolower]
  refine ⟨_, _, rewrite_neverMatcher never side _, rewrite_neverMatcher never side _, ?_⟩
  have htake := hd.take h
  have hdrop := hd.drop e
  rw [← List.map_take] at htake
  rw [← List.map_drop] at hdrop
  rw [rewrite_neverMatcher, emit_eq_reference hd, emit_eq_reference htake, emit_eq_reference hdrop,
    hd.reference_eq h hfirst, hrepl]

/-- The longest of the keys that end where a never name does is a never name too. -/
private theorem exists_longest (h : NeverNameAt never side t b e) :
    ∃ b₀ ≤ b, Occurs (sideLexicon (allRules never side)) (t.map tolower) b₀ e ∧
      (∀ b', Occurs (sideLexicon (allRules never side)) (t.map tolower) b' e → b₀ ≤ b') ∧
      NeverNameAt never side t b₀ e := by
  classical
  have hex : ∃ b', Occurs (sideLexicon (allRules never side)) (t.map tolower) b' e :=
    ⟨b, (occurs_allRules never side).mpr (.inl h.1)⟩
  have hocc := Nat.find_spec hex
  have hle : Nat.find hex ≤ b := Nat.find_min' hex ((occurs_allRules never side).mpr (.inl h.1))
  refine ⟨Nat.find hex, hle, hocc, fun b' => Nat.find_min' hex, ?_, ?_⟩
  · rcases (occurs_allRules never side).mp hocc with hn | ⟨r, hr, hkey⟩
    · exact hn
    · rw [le_antisymm hle (h.2 r hr _ hkey)]
      exact h.1
  · intro r hr b' hkey
    exact hle.trans (h.2 r hr b' hkey)

/-- A name that a side rule replaces by itself is as long as any that ends there. -/
private theorem eq_of_replaced {b₀ : ℕ} (h : NeverNameAt never side t b e) (hle : b₀ ≤ b)
    (hocc : Occurs (sideLexicon (allRules never side)) (t.map tolower) b₀ e)
    (hself : replacementOf side (slice t b₀ e) = slice t b₀ e) : b₀ = b := by
  have het : e ≤ t.length := by simpa using hocc.2.1
  cases hfind : side.find? (fun r => r.key = (slice t b₀ e).map tolower) with
  | none =>
      rw [replacementOf, hfind] at hself
      exact absurd hself.symm (slice_ne_nil hocc.1 het)
  | some r =>
      have hkey : r.key = (slice t b₀ e).map tolower := by simpa using List.find?_some hfind
      exact le_antisymm hle
        (h.2 r (List.mem_of_find?_eq_some hfind) b₀ ⟨hocc.1, het, hkey.symm⟩)

/-- **When never names pass through.** On a text whose keys are all followed by a foreign
byte, exactly when each of them is also the key of a side rule, which replaces it by
the very bytes that stand there. -/
theorem neverNamesPass_iff (never : List NeverRule) (side : List SideRule) (t : List UInt8)
    (hd : AllFollowed never side t) :
    NeverNamesPass never side t ↔
      ∀ b e, NeverNameAt never side t b e → replacementOf side (slice t b e) = slice t b e := by
  constructor
  · intro hpass b e h
    obtain ⟨b₀, hle, hocc, hfirst, h₀⟩ := exists_longest h
    obtain ⟨before, after, hbefore, hafter, hall⟩ := rewrite_around hd hocc hfirst
    obtain ⟨before', after', hbefore', hafter', hall'⟩ := hpass.1 b₀ e h₀
    obtain rfl : before = before' := Except.ok.inj (hbefore.symm.trans hbefore')
    obtain rfl : after = after' := Except.ok.inj (hafter.symm.trans hafter')
    have hself : replacementOf side (slice t b₀ e) = slice t b₀ e := by
      have := Except.ok.inj (hall.symm.trans hall')
      rw [List.append_assoc, List.append_assoc] at this
      exact List.append_cancel_right (List.append_cancel_left this)
    rwa [eq_of_replaced h hle hocc hself] at hself
  · intro hself
    constructor
    · intro b e h
      obtain ⟨b₀, hle, hocc, hfirst, h₀⟩ := exists_longest h
      obtain rfl := eq_of_replaced h hle hocc (hself b₀ e h₀)
      obtain ⟨before, after, hbefore, hafter, hall⟩ := rewrite_around hd hocc hfirst
      rw [hself b₀ e h] at hall
      exact ⟨before, after, hbefore, hafter, hall⟩
    · rintro rfl
      have hnone : ∀ b e, ¬ Occurs (sideLexicon (allRules never [])) (t.map tolower) b e := by
        intro b e hocc
        have hn := ((occurs_allRules never []).mp hocc).resolve_right (by simp)
        exact slice_ne_nil hocc.1 (by simpa using hocc.2.1) (hself b e ⟨hn, by simp⟩).symm
      rw [rewrite_neverMatcher, emit_eq_reference (delimited_allRules hd), reference_eq_self hnone]

end Pass

/-- A rule for the name `ab`. -/
def neverAb : NeverRule := ⟨[97, 98], by decide, by decide⟩

private theorem allFollowed_neverAb : AllFollowed [neverAb] [] (chars "ab/") := by
  intro b e h
  obtain ⟨n, hn, hbe, he, hkey⟩ := h.resolve_right (by simp)
  obtain rfl := List.mem_singleton.mp hn
  have he : e ≤ 3 := he
  interval_cases e <;> interval_cases b <;> first
    | exact absurd hkey (by decide)
    | exact ⟨47, rfl, by decide, by decide⟩

theorem neverNamesPass_iff_ab :
    NeverNamesPass [neverAb] [] (chars "ab/") ↔
      ∀ b e, NeverNameAt [neverAb] [] (chars "ab/") b e →
        replacementOf [] (slice (chars "ab/") b e) = slice (chars "ab/") b e :=
  neverNamesPass_iff [neverAb] [] (chars "ab/") allFollowed_neverAb

/-- With the one rule that `ab` is never proxied the text `ab/` becomes `/`. -/
theorem not_neverNamesPass_ab :
    AllFollowed [neverAb] [] (chars "ab/") ∧ ¬ NeverNamesPass [neverAb] [] (chars "ab/") := by
  refine ⟨allFollowed_neverAb, ?_⟩
  intro h
  have hsame := h.2 rfl
  have hcomputed : rewrite (neverMatcher [neverAb] []) (chars "ab/") = .ok (chars "/") := by rfl
  rw [hcomputed] at hsame
  exact absurd (Except.ok.inj hsame) (by decide)

end RenaProxy
