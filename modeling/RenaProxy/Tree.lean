import RenaProxy.CString

/-!
# The rule tree

`tree.c` keeps the rules in a tree of characters: a node has a chain of siblings
in ascending order and a chain of children one character further. The functions
below return trees instead of changing nodes in place. Where the source hands out
a pointer to a node through which its caller goes on writing, the writes are a
function `use` that is applied to the node where it stands.

`look_treeInsert` says what an insertion changes for every query, and
`look_treeBuild` that a tree built from rules with lowercase keys is the map from
each key to its first replacement.
-/
namespace RenaProxy

/-- A `tree_node_t *`. -/
inductive TreeNode
  | null
  | node (value : UInt8) (nextChild nextSibling : TreeNode) (adapted : Option (List UInt8))
  deriving DecidableEq, Repr

namespace TreeNode

def isNull : TreeNode → Bool
  | null => true
  | node .. => false

def value : TreeNode → UInt8
  | null => 0
  | node v _ _ _ => v

def nextChild : TreeNode → TreeNode
  | null => null
  | node _ c _ _ => c

def adapted : TreeNode → Option (List UInt8)
  | null => none
  | node _ _ _ a => a

/-- What a node has apart from its place in a chain. -/
def view : TreeNode → Option (TreeNode × Option (List UInt8))
  | null => none
  | node _ c _ a => some (c, a)

theorem nextChild_eq_view (n : TreeNode) : n.nextChild = (n.view.map Prod.fst).getD null := by
  cases n <;> rfl

end TreeNode

open TreeNode

def treeCreateNode (val : UInt8) : TreeNode := node val null null none

/-- `tree_get_sibling2` with `before == 0`. -/
def treeGetSibling : TreeNode → UInt8 → TreeNode
  | null, _ => null
  | node v c s a, val =>
      if schar v ≤ schar (tolower val) then
        if v = tolower val then node v c s a else treeGetSibling s val
      else null

def treeGetChild : TreeNode → UInt8 → TreeNode
  | null, _ => null
  | node _ c _ _, val => treeGetSibling c val

/-- `tree_add_sibling`, with what the caller writes through the result. The first
component is the chain from `n` on, the second the node returned. The search is
`tree_get_sibling2` with `before == 1`; where it stops the new node is linked. -/
def treeAddSibling (use : TreeNode → TreeNode) : TreeNode → UInt8 → TreeNode × TreeNode
  | null, val =>
      let aux := use (treeCreateNode val)
      (aux, aux)
  | node v c s a, val =>
      if schar v ≤ schar (tolower val) then
        if v = tolower val then
          let aux := use (node v c s a)
          (aux, aux)
        else
          let r := treeAddSibling use s val
          (node v c r.1 a, r.2)
      else
        let aux := use (node val null (node v c s a) none)
        (aux, aux)

/-- `tree_add_child`, with what the caller writes through the result. -/
def treeAddChild (use : TreeNode → TreeNode) : TreeNode → UInt8 → TreeNode
  | null, val => (treeAddSibling use null val).2
  | node v null s a, val => node v (use (treeCreateNode val)) s a
  | node v (node cv cc cs ca) s a, val =>
      if schar (tolower val) < schar cv then
        node v (use (node val null (node cv cc cs ca) none)) s a
      else node v (treeAddSibling use (node cv cc cs ca) val).1 s a

/-- The end of `tree_insert`: the copy made of `adapted`, empty for `NULL`. -/
def storedAdapted (adapted : Option (List UInt8)) : List UInt8 := cstr (adapted.getD [])

/-- The loop of `tree_insert` from its second character on. -/
def treeInsertFrom (adapted : Option (List UInt8)) : List UInt8 → TreeNode → TreeNode
  | [], null => null
  | [], node v c s a =>
      -- a rule that exists already keeps its replacement
      node v c s (some (a.getD (storedAdapted adapted)))
  | b :: bs, aux => treeAddChild (treeInsertFrom adapted bs) aux b

/-- `tree_insert`. -/
def treeInsert (root : TreeNode) (v : List UInt8) (adapted : Option (List UInt8)) : TreeNode :=
  let r := treeAddSibling (treeInsertFrom adapted v.tail) root (v.headD 0)
  if root.isNull || decide (schar r.2.value < schar root.value) then r.2 else r.1

/-- The node that a query reaches: `tree_get_sibling` on its first character,
`tree_get_child` on every further one. -/
def treeWalk (root : TreeNode) : List UInt8 → TreeNode
  | [] => null
  | b :: bs => bs.foldl treeGetChild (treeGetSibling root b)

/-- What a query finds: no node, or a node with its replacement. -/
def look (root : TreeNode) (q : List UInt8) : Option (Option (List UInt8)) :=
  (treeWalk root q).view.map Prod.snd

section Walk
variable {root : TreeNode}

@[simp] theorem treeGetSibling_tolower (n : TreeNode) (c : UInt8) :
    treeGetSibling n (tolower c) = treeGetSibling n c := by
  induction n with
  | null => rfl
  | node v c s a _ ih => simp [treeGetSibling, ih]

@[simp] theorem treeGetChild_tolower (n : TreeNode) (c : UInt8) :
    treeGetChild n (tolower c) = treeGetChild n c := by
  cases n <;> simp [treeGetChild]

theorem treeWalk_singleton (b : UInt8) : treeWalk root [b] = treeGetSibling root b := rfl

theorem treeWalk_append {q : List UInt8} (hq : q ≠ []) (b : UInt8) :
    treeWalk root (q ++ [b]) = treeGetChild (treeWalk root q) b := by
  cases q with
  | nil => exact absurd rfl hq
  | cons x q => simp [treeWalk]

theorem treeWalk_cons_cons (b b' : UInt8) (q : List UInt8) :
    treeWalk root (b :: b' :: q) = treeWalk (treeGetSibling root b).nextChild (b' :: q) := by
  cases h : treeGetSibling root b <;> simp [treeWalk, h, treeGetChild, nextChild, treeGetSibling]

/-- Queries are read without regard to letter case. -/
theorem treeWalk_map_tolower (q : List UInt8) : treeWalk root (q.map tolower) = treeWalk root q := by
  induction q using List.reverseRecOn with
  | nil => rfl
  | append_singleton q b ih =>
      rcases eq_or_ne q [] with rfl | hq
      · simp [treeWalk]
      · rw [List.map_append, List.map_singleton, treeWalk_append (by simpa using hq), ih,
          treeGetChild_tolower, ← treeWalk_append hq]

theorem look_nil : look root [] = none := rfl

theorem adapted_treeWalk (q : List UInt8) : (treeWalk root q).adapted = (look root q).join := by
  rw [look]
  cases treeWalk root q <;> rfl

theorem look_eq_none {q : List UInt8} : look root q = none ↔ treeWalk root q = null := by
  rw [look]
  cases treeWalk root q <;> simp [view]

theorem look_singleton (b : UInt8) :
    look root [b] = (treeGetSibling root b).view.map Prod.snd := rfl

theorem look_cons_cons (b b' : UInt8) (q : List UInt8) :
    look root (b :: b' :: q) = look (treeGetSibling root b).nextChild (b' :: q) := by
  rw [look, treeWalk_cons_cons, look]

end Walk

section Insert
variable {adapted : Option (List UInt8)}

/-- What the writes of an insertion make of a node: the children for the rest of
the key change, at its end the replacement is set unless there is one. -/
def written (adapted : Option (List UInt8)) :
    List UInt8 → TreeNode × Option (List UInt8) → TreeNode × Option (List UInt8)
  | [], (c, a) => (c, some (a.getD (storedAdapted adapted)))
  | b :: bs, (c, a) => ((treeAddSibling (treeInsertFrom adapted bs) c b).1, a)

theorem treeInsertFrom_node (bs : List UInt8) (v : UInt8) (c s : TreeNode)
    (a : Option (List UInt8)) :
    treeInsertFrom adapted bs (node v c s a) =
      node v (written adapted bs (c, a)).1 s (written adapted bs (c, a)).2 := by
  cases bs with
  | nil => rfl
  | cons b bs =>
      cases c with
      | null => rfl
      | node cv cc cs ca =>
          by_cases hlt : schar (tolower b) < schar cv
          · simp [treeInsertFrom, treeAddChild, written, treeAddSibling, hlt, not_le.mpr hlt]
          · simp [treeInsertFrom, treeAddChild, written, hlt]

variable (adapted) in
/-- The sibling looked for after an insertion: the one inserted, or one whose view
is what it was. -/
theorem view_getSibling_addSibling (bs : List UInt8) {b : UInt8} (hb : tolower b = b)
    (t : TreeNode) (x : UInt8) :
    (treeGetSibling (treeAddSibling (treeInsertFrom adapted bs) t b).1 x).view =
      if tolower x = b then
        some (written adapted bs ((treeGetSibling t x).view.getD (null, none)))
      else (treeGetSibling t x).view := by
  induction t with
  | null =>
      simp only [treeAddSibling, treeCreateNode, treeInsertFrom_node, treeGetSibling]
      by_cases hx : tolower x = b
      · simp [hx, view]
      · simp [hx, Ne.symm hx, view]
  | node v c s a _ ih =>
      simp only [treeAddSibling, hb]
      by_cases hle : schar v ≤ schar b
      · by_cases hv : v = b
        · subst hv
          simp only [le_refl, if_true, treeInsertFrom_node, treeGetSibling]
          by_cases hx : tolower x = v
          · simp [hx, view]
          · simp [hx, Ne.symm hx]
        · simp only [hle, hv, if_true, if_false, treeGetSibling]
          by_cases hvx : v = tolower x
          · simp [← hvx, hv, view]
          · by_cases hlex : schar v ≤ schar (tolower x)
            · simp [hlex, hvx, ih]
            · have hx : tolower x ≠ b := by
                rintro rfl
                exact hlex hle
              simp [hlex, hx, view]
      · simp only [hle, if_false, treeInsertFrom_node, treeGetSibling]
        by_cases hx : tolower x = b
        · simp [hx, hle, view]
        · by_cases hlex : schar b ≤ schar (tolower x)
          · simp [hlex, hx, Ne.symm hx]
          · have : ¬ schar v ≤ schar (tolower x) := by omega
            simp [hlex, this, hx]

variable (adapted) in
private theorem value_addSibling (bs : List UInt8) {b : UInt8} (hb : tolower b = b)
    (t : TreeNode) : (treeAddSibling (treeInsertFrom adapted bs) t b).2.value = b := by
  induction t with
  | null => simp [treeAddSibling, treeCreateNode, treeInsertFrom_node, value]
  | node v c s a _ ih =>
      simp only [treeAddSibling, hb]
      split_ifs with hle hv
      · simp [treeInsertFrom_node, value, hv]
      · exact ih
      · simp [treeInsertFrom_node, value]

/-- The new root is the node inserted or reached, or the head of the chain with it. -/
theorem treeInsert_cases (root : TreeNode) (v : List UInt8) (adapted : Option (List UInt8)) :
    treeInsert root v adapted =
        (treeAddSibling (treeInsertFrom adapted v.tail) root (v.headD 0)).2 ∨
      treeInsert root v adapted =
        (treeAddSibling (treeInsertFrom adapted v.tail) root (v.headD 0)).1 :=
  ite_eq_or_eq _ _ _

/-- With a lowercase key the root stays the head of the whole chain. -/
theorem treeInsert_eq {root : TreeNode} {b : UInt8} (hb : tolower b = b) (bs : List UInt8) :
    treeInsert root (b :: bs) adapted =
      (treeAddSibling (treeInsertFrom adapted bs) root b).1 := by
  have hval := value_addSibling adapted bs hb root
  cases root with
  | null => rfl
  | node v c s a =>
      rw [treeInsert]
      simp only [List.tail_cons, List.headD_cons, hval]
      by_cases hlt : schar b < schar v
      · simp [treeAddSibling, hb, not_le.mpr hlt]
      · simp [isNull, value, hlt]

private theorem look_addSibling_singleton (k : List UInt8) {b : UInt8} (hb : tolower b = b)
    (t : TreeNode) (x : UInt8) :
    look (treeAddSibling (treeInsertFrom adapted k) t b).1 [x] =
      if [tolower x] = b :: k then
        some (some ((look t [x]).join.getD (storedAdapted adapted)))
      else if [tolower x] <+: b :: k then some (look t [x]).join
      else look t [x] := by
  rw [look_singleton, look_singleton, view_getSibling_addSibling adapted k hb t x]
  by_cases hx : tolower x = b
  · cases k with
    | nil => cases (treeGetSibling t x).view <;> simp [hx, written]
    | cons b' k => cases (treeGetSibling t x).view <;> simp [hx, written]
  · simp [hx]

private theorem look_addSibling (k : List UInt8) {b : UInt8} (hlow : (b :: k).map tolower = b :: k)
    (t : TreeNode) (q : List UInt8) (hq : q ≠ []) :
    look (treeAddSibling (treeInsertFrom adapted k) t b).1 q =
      if q.map tolower = b :: k then some (some ((look t q).join.getD (storedAdapted adapted)))
      else if q.map tolower <+: b :: k then some (look t q).join
      else look t q := by
  obtain ⟨x, q, rfl⟩ := List.exists_cons_of_ne_nil hq
  induction k generalizing b t x q with
  | nil =>
      have hb : tolower b = b := by simpa using hlow
      cases q with
      | nil => exact look_addSibling_singleton [] hb t x
      | cons y q =>
          rw [look_cons_cons, look_cons_cons, nextChild_eq_view, nextChild_eq_view,
            view_getSibling_addSibling adapted [] hb t x]
          by_cases hx : tolower x = b
          · cases (treeGetSibling t x).view <;> simp [hx, written]
          · simp [hx]
  | cons b' k ih =>
      obtain ⟨hb, hlow'⟩ : tolower b = b ∧ (b' :: k).map tolower = b' :: k := by
        simpa [and_assoc] using hlow
      cases q with
      | nil => exact look_addSibling_singleton (b' :: k) hb t x
      | cons y q =>
          rw [look_cons_cons, look_cons_cons, nextChild_eq_view, nextChild_eq_view,
            view_getSibling_addSibling adapted (b' :: k) hb t x]
          by_cases hx : tolower x = b
          · have := ih hlow' (((treeGetSibling t x).view.map Prod.fst).getD null) y q (by simp)
            simp only [List.map_cons, List.cons.injEq, List.cons_prefix_cons] at this ⊢
            rw [if_pos hx]
            simp only [hx, true_and]
            rw [← this]
            cases (treeGetSibling t x).view <;> rfl
          · simp [hx]

/-- **What an insertion changes.** The inserted key is found, with the replacement it
had before if it had one; a beginning of it is found; every other query is answered
as before. -/
theorem look_treeInsert (k : List UInt8) (hk : k ≠ []) (hlow : k.map tolower = k)
    (root : TreeNode) (q : List UInt8) (hq : q ≠ []) :
    look (treeInsert root k adapted) q =
      if q.map tolower = k then
        some (some ((look root q).join.getD (storedAdapted adapted)))
      else if q.map tolower <+: k then some (look root q).join
      else look root q := by
  obtain ⟨b, bs, rfl⟩ := List.exists_cons_of_ne_nil hk
  have hb : tolower b = b := by
    rw [List.map_cons, List.cons.injEq] at hlow
    exact hlow.1
  rw [treeInsert_eq hb, look_addSibling bs hlow root q hq]

end Insert

/-! ## Trees built from rules -/

/-- The tree that insertions in this order make, each a key with what is to replace it. -/
def treeBuild (rules : List (List UInt8 × Option (List UInt8))) : TreeNode :=
  rules.foldl (fun root r => treeInsert root r.1 r.2) null

theorem treeBuild_append (rules : List (List UInt8 × Option (List UInt8)))
    (r : List UInt8 × Option (List UInt8)) :
    treeBuild (rules ++ [r]) = treeInsert (treeBuild rules) r.1 r.2 := by
  simp [treeBuild]

/-- The replacement of the first rule for a query. -/
def firstAdapted (rules : List (List UInt8 × Option (List UInt8))) (q : List UInt8) :
    Option (List UInt8) :=
  (rules.find? fun r => r.1 = q.map tolower).map fun r => storedAdapted r.2

/-- A query that begins no key is no key. -/
theorem firstAdapted_eq_none {rules : List (List UInt8 × Option (List UInt8))} {q : List UInt8}
    (h : ¬ ∃ r ∈ rules, q.map tolower <+: r.1) : firstAdapted rules q = none := by
  rw [firstAdapted, Option.map_eq_none_iff, List.find?_eq_none]
  intro r hr heq
  exact h ⟨r, hr, by rw [of_decide_eq_true heq]⟩

/-- Where no two rules have one key, each key has the replacement of its rule. -/
theorem firstAdapted_map {β : Type*} {key adapted : β → List UInt8} {l : List β} {r : β}
    (hr : r ∈ l) (hinj : ∀ r' ∈ l, key r' = key r → r' = r)
    (hlow : (key r).map tolower = key r) (hstring : 0 ∉ adapted r) :
    firstAdapted (l.map fun r => (key r, some (adapted r))) (key r) = some (adapted r) := by
  rw [firstAdapted, hlow, List.find?_map]
  change ((l.find? fun r' => key r' = key r).map fun r => (key r, some (adapted r))).map _ = _
  have hex : ∃ r' ∈ l, decide (key r' = key r) := ⟨r, hr, decide_eq_true rfl⟩
  obtain ⟨r', hfind⟩ := Option.isSome_iff_exists.mp (List.find?_isSome.mpr hex)
  have hkey : key r' = key r := of_decide_eq_true (List.find?_some (p := fun r' => key r' = key r) hfind)
  obtain rfl := hinj r' (List.mem_of_find?_eq_some hfind) hkey
  rw [hfind]
  exact congrArg some (cstr_of_notMem hstring)

theorem look_null (q : List UInt8) : look null q = none := by
  induction q using List.reverseRecOn with
  | nil => rfl
  | append_singleton q b ih =>
      rcases eq_or_ne q [] with rfl | hq
      · rfl
      · have hw : treeWalk null q = null := by
          cases h : treeWalk null q with
          | null => rfl
          | node => simp [look, h, view] at ih
        rw [look, treeWalk_append hq, hw]
        rfl

/-- **The tree is the map from keys to first replacements.** A query reaches a node
exactly when it begins a key, and that node has a replacement exactly when it is a key. -/
theorem look_treeBuild {rules : List (List UInt8 × Option (List UInt8))}
    (hrules : ∀ r ∈ rules, r.1 ≠ [] ∧ r.1.map tolower = r.1) {q : List UInt8} (hq : q ≠ []) :
    look (treeBuild rules) q =
      if ∃ r ∈ rules, q.map tolower <+: r.1 then some (firstAdapted rules q) else none := by
  induction rules using List.reverseRecOn with
  | nil => simp [treeBuild, look_null]
  | append_singleton rules r ih =>
      have hr := hrules r (by simp)
      have ih' := ih fun r' hr' => hrules r' (by simp [hr'])
      have hjoin : (look (treeBuild rules) q).join = firstAdapted rules q := by
        rw [ih']
        split_ifs with hex
        · rfl
        · rw [firstAdapted_eq_none hex]
          rfl
      rw [treeBuild_append, look_treeInsert _ hr.1 hr.2 _ _ hq, hjoin]
      by_cases hkey : q.map tolower = r.1
      · rw [if_pos hkey, if_pos ⟨r, by simp, by rw [hkey]⟩]
        cases hf : rules.find? (fun r => r.1 = q.map tolower) <;>
          simp [firstAdapted, List.find?_append, hf, hkey.symm]
      · have hsame : firstAdapted (rules ++ [r]) q = firstAdapted rules q := by
          simp [firstAdapted, List.find?_append, Ne.symm hkey]
        rw [if_neg hkey, hsame]
        by_cases hpre : q.map tolower <+: r.1
        · rw [if_pos hpre, if_pos ⟨r, by simp, hpre⟩]
        · rw [if_neg hpre, ih']
          congr 1
          simp [hpre]

theorem join_look_treeBuild {rules : List (List UInt8 × Option (List UInt8))}
    (hrules : ∀ r ∈ rules, r.1 ≠ [] ∧ r.1.map tolower = r.1) {q : List UInt8} (hq : q ≠ []) :
    (look (treeBuild rules) q).join = firstAdapted rules q := by
  rw [look_treeBuild hrules hq]
  split_ifs with hex
  · rfl
  · rw [firstAdapted_eq_none hex]
    rfl

/-- No uppercase letter of ASCII. -/
def NoUpper (k : List UInt8) : Prop := ∀ b ∈ k, ¬ (65 ≤ b ∧ b ≤ 90)

theorem NoUpper.map_tolower {k : List UInt8} (h : NoUpper k) : k.map tolower = k := by
  conv_rhs => rw [← List.map_id k]
  apply List.map_congr_left
  intro b hb
  rw [tolower, if_neg (h b hb), id]

/-- **The first rule for a key wins.** After any insertions of nonempty keys without
uppercase letters, a query reaches a node with a replacement exactly when it is one of the
keys up to letter case, and that is the replacement inserted first; it reaches no node
exactly when no key begins with it. -/
theorem treeWalk_firstWins (rules : List (List UInt8 × Option (List UInt8)))
    (hrules : ∀ r ∈ rules, r.1 ≠ [] ∧ NoUpper r.1) (q : List UInt8) (hq : q ≠ []) :
    ((treeWalk (treeBuild rules) q).adapted.isSome ↔ ∃ r ∈ rules, q.map tolower = r.1) ∧
    (∀ earlier r later, rules = earlier ++ r :: later → q.map tolower = r.1 →
      (∀ r' ∈ earlier, q.map tolower ≠ r'.1) →
      (treeWalk (treeBuild rules) q).adapted = some (storedAdapted r.2)) ∧
    (treeWalk (treeBuild rules) q = null ↔ ∀ r ∈ rules, ¬ q.map tolower <+: r.1) := by
  have hlow : ∀ r ∈ rules, r.1 ≠ [] ∧ r.1.map tolower = r.1 :=
    fun r hr => ⟨(hrules r hr).1, (hrules r hr).2.map_tolower⟩
  have hadapted : (treeWalk (treeBuild rules) q).adapted = firstAdapted rules q := by
    rw [adapted_treeWalk, join_look_treeBuild hlow hq]
  refine ⟨?_, ?_, ?_⟩
  · rw [hadapted, firstAdapted, Option.isSome_map, List.find?_isSome]
    simp only [decide_eq_true_eq, eq_comm (a := q.map tolower)]
  · rintro earlier r later rfl hkey hfirst
    have hnone : earlier.find? (fun r => r.1 = q.map tolower) = none := by
      rw [List.find?_eq_none]
      intro r' hr' heq
      exact hfirst r' hr' (of_decide_eq_true heq).symm
    rw [hadapted, firstAdapted, List.find?_append, hnone]
    simp [hkey]
  · rw [← look_eq_none, look_treeBuild hlow hq]
    split_ifs with hex
    · simpa using hex
    · simpa using hex

/-- `aB` finds the first of the two replacements for `ab`. -/
theorem treeWalk_firstWins_aB :
    (treeWalk (treeBuild [(chars "ab", some (chars "R")), (chars "ab", some (chars "S")),
      (chars "abc", none)]) (chars "aB")).adapted = some (chars "R") :=
  (treeWalk_firstWins [(chars "ab", some (chars "R")), (chars "ab", some (chars "S")),
    (chars "abc", none)] (by unfold NoUpper; decide +kernel) (chars "aB") (by decide)).2.1
    [] _ _ rfl (by decide) (by simp)

end RenaProxy
