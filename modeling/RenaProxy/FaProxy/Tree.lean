import RenaProxy.CString
import Mathlib.Data.List.Infix

/-!
# The rule tree of faproxy

The tree is laid out like that of `rena`, with chains of siblings in ascending order. It
reads and writes in lowercase, and a rule for a key that exists already replaces what was
stored; no replacement is the empty string. Where the source hands out a pointer to a node
through which its caller goes on writing, the writes are a function `use`.

`look_treeInsert` says what an insertion changes for every query, and `look_treeBuild`
that a tree built from rules is the map from each key to its last replacement.
-/
namespace RenaProxy.FaProxy

/-- `MAX_STR` -/
def maxStr : ℕ := 1024

/-- A `tree_node_t *`. -/
inductive TreeNode
  | null
  | node (value : UInt8) (nextChild nextSibling : TreeNode) (adapted : List UInt8)
  deriving DecidableEq, Repr

namespace TreeNode

/-- What a node has apart from its place in a chain. -/
def view : TreeNode → Option (TreeNode × List UInt8)
  | null => none
  | node _ c _ a => some (c, a)

def nextChild : TreeNode → TreeNode
  | null => null
  | node _ c _ _ => c

theorem nextChild_eq_view (n : TreeNode) : n.nextChild = (n.view.map Prod.fst).getD null := by
  cases n <;> rfl

end TreeNode

open TreeNode

def treeCreateNode (val : UInt8) : TreeNode := node val null null []

/-- The loop of `tree_add_sibling` once there is a `prev`. -/
def treeAddSiblingFrom (use : TreeNode → TreeNode) : TreeNode → UInt8 → TreeNode
  | null, val => use (treeCreateNode val)
  | node v c s a, val =>
      if schar v < schar val then node v c (treeAddSiblingFrom use s val) a
      else if v = val then use (node v c s a)
      else use (node val null (node v c s a) [])

/-- `tree_add_sibling`. Without a `prev`, the new node comes after the first one. -/
def treeAddSibling (use : TreeNode → TreeNode) : TreeNode → UInt8 → TreeNode
  | null, _ => null
  | node v c s a, val =>
      if schar v < schar val then node v c (treeAddSiblingFrom use s val) a
      else if v = val then use (node v c s a)
      else node v c (use (node val null s [])) a

/-- `tree_add_child` -/
def treeAddChild (use : TreeNode → TreeNode) : TreeNode → UInt8 → TreeNode
  | null, _ => null
  | node v null s a, val => node v (use (treeCreateNode val)) s a
  | node v (node cv cc cs ca) s a, val =>
      if schar val < schar cv then node v (use (node val null (node cv cc cs ca) [])) s a
      else node v (treeAddSibling use (node cv cc cs ca) val) s a

/-- The loop of `tree_insert`, and the `snprintf` at its end. -/
def treeInsertFrom (stored : List UInt8) : List UInt8 → TreeNode → TreeNode
  | [], null => null
  | [], node v c s _ => node v c s stored
  | b :: bs, aux => treeAddChild (treeInsertFrom stored bs) aux (tolower b)

/-- `tree_insert` -/
def treeInsert (root : TreeNode) (v adapted suffix : List UInt8) : TreeNode :=
  let use := treeInsertFrom ((adapted ++ suffix).take (maxStr - 1)) v.tail
  let vl := tolower (v.headD 0)
  match root with
  | null => use (treeCreateNode vl)
  | node rv rc rs ra =>
      if schar vl < schar rv then use (node vl null (node rv rc rs ra) [])
      else treeAddSibling use (node rv rc rs ra) vl

/-- The loop of `tree_get_sibling`. -/
def treeGetSiblingFrom : TreeNode → UInt8 → TreeNode
  | null, _ => null
  | node v c s a, value =>
      if schar v ≤ schar value then
        if v = value then node v c s a else treeGetSiblingFrom s value
      else null

/-- `tree_get_sibling` -/
def treeGetSibling (n : TreeNode) (val : UInt8) : TreeNode := treeGetSiblingFrom n (tolower val)

/-- `tree_get_child` -/
def treeGetChild : TreeNode → UInt8 → TreeNode
  | null, _ => null
  | node _ c _ _, val => treeGetSibling c val

/-- The node that a query reaches: `tree_get_sibling` on its first character,
`tree_get_child` on every further one. -/
def treeWalk (root : TreeNode) : List UInt8 → TreeNode
  | [] => null
  | b :: bs => bs.foldl treeGetChild (treeGetSibling root b)

/-- What a query finds: no node, or a node with what is stored there. -/
def look (root : TreeNode) (q : List UInt8) : Option (List UInt8) :=
  (treeWalk root q).view.map Prod.snd

section Walk
variable {root : TreeNode}

theorem treeWalk_singleton (b : UInt8) : treeWalk root [b] = treeGetSibling root b := rfl

theorem treeWalk_append {q : List UInt8} (hq : q ≠ []) (b : UInt8) :
    treeWalk root (q ++ [b]) = treeGetChild (treeWalk root q) b := by
  cases q with
  | nil => exact absurd rfl hq
  | cons x q => simp [treeWalk]

theorem treeGetChild_eq (n : TreeNode) (b : UInt8) :
    treeGetChild n b = treeGetSibling n.nextChild b := by
  cases n <;> rfl

theorem treeWalk_cons_cons (b b' : UInt8) (q : List UInt8) :
    treeWalk root (b :: b' :: q) = treeWalk (treeGetSibling root b).nextChild (b' :: q) := by
  rw [treeWalk, treeWalk, List.foldl_cons, treeGetChild_eq]

theorem look_singleton (b : UInt8) :
    look root [b] = (treeGetSibling root b).view.map Prod.snd := rfl

theorem look_cons_cons (b b' : UInt8) (q : List UInt8) :
    look root (b :: b' :: q) = look (treeGetSibling root b).nextChild (b' :: q) := by
  rw [look, treeWalk_cons_cons, look]

theorem look_eq_none {q : List UInt8} : look root q = none ↔ treeWalk root q = null := by
  rw [look]
  cases treeWalk root q <;> simp [view]

end Walk

/-! ## What an insertion changes -/

section Insert
variable {stored : List UInt8}

/-- With the check of the callers before it, `tree_add_sibling` puts the node in its place. -/
theorem treeAddSibling_eq (use : TreeNode → TreeNode) {v val : UInt8} {c s : TreeNode}
    {a : List UInt8} (h : ¬ schar val < schar v) :
    treeAddSibling use (node v c s a) val = treeAddSiblingFrom use (node v c s a) val := by
  rw [treeAddSibling, treeAddSiblingFrom]
  split
  · rfl
  · split
    · rfl
    · rename_i hlt hne
      exact absurd (schar_inj.mp (by omega)) hne

theorem treeAddChild_eq (use : TreeNode → TreeNode) (v val : UInt8) (c s : TreeNode)
    (a : List UInt8) : treeAddChild use (node v c s a) val =
      node v (treeAddSiblingFrom use c val) s a := by
  cases c with
  | null => rfl
  | node cv cc cs ca =>
      rw [treeAddChild]
      split
      · rename_i hlt
        have hne : cv ≠ val := by
          rintro rfl
          exact lt_irrefl _ hlt
        rw [treeAddSiblingFrom, if_neg hlt.not_gt, if_neg hne]
      · rename_i hle
        rw [treeAddSibling_eq use hle]

theorem treeInsert_eq (root : TreeNode) (b : UInt8) (bs adapted suffix : List UInt8) :
    treeInsert root (b :: bs) adapted suffix =
      treeAddSiblingFrom (treeInsertFrom ((adapted ++ suffix).take (maxStr - 1)) bs) root
        (tolower b) := by
  cases root with
  | null => rfl
  | node v c s a =>
      rw [treeInsert]
      by_cases hlt : schar (tolower b) < schar v
      · have hne : v ≠ tolower b := by
          rintro rfl
          exact lt_irrefl _ hlt
        rw [treeAddSiblingFrom, if_neg hlt.not_gt, if_neg hne]
        exact if_pos hlt
      · rw [← treeAddSibling_eq _ hlt]
        exact if_neg hlt

/-- What the writes of an insertion make of a node: at the end of the key the replacement is
stored, before it the children for the rest of the key change. -/
def written (stored : List UInt8) : List UInt8 → TreeNode × List UInt8 → TreeNode × List UInt8
  | [], (c, _) => (c, stored)
  | b :: bs, (c, a) => (treeAddSiblingFrom (treeInsertFrom stored bs) c (tolower b), a)

theorem treeInsertFrom_node (bs : List UInt8) (v : UInt8) (c s : TreeNode) (a : List UInt8) :
    treeInsertFrom stored bs (node v c s a) =
      node v (written stored bs (c, a)).1 s (written stored bs (c, a)).2 := by
  cases bs with
  | nil => rfl
  | cons b bs => exact treeAddChild_eq _ _ _ _ _ _

variable (stored) in
/-- The sibling looked for after an insertion: the one inserted, or one whose view is what it
was. -/
theorem view_getSibling_addSibling (bs : List UInt8) (b : UInt8) (t : TreeNode) (x : UInt8) :
    (treeGetSibling (treeAddSiblingFrom (treeInsertFrom stored bs) t b) x).view =
      if tolower x = b then
        some (written stored bs ((treeGetSibling t x).view.getD (null, [])))
      else (treeGetSibling t x).view := by
  simp only [treeGetSibling]
  induction t with
  | null =>
      simp only [treeAddSiblingFrom, treeCreateNode, treeInsertFrom_node, treeGetSiblingFrom]
      by_cases hx : tolower x = b
      · simp [hx, view]
      · simp [hx, Ne.symm hx, view]
  | node v c s a _ ih =>
      rw [treeAddSiblingFrom]
      rcases lt_trichotomy (schar v) (schar b) with hlt | heq | hgt
      · have hv : v ≠ b := by
          rintro rfl
          exact lt_irrefl _ hlt
        rw [if_pos hlt]
        simp only [treeGetSiblingFrom]
        by_cases hle : schar v ≤ schar (tolower x)
        · by_cases hvx : v = tolower x
          · simp [← hvx, hv, view]
          · simp [hle, hvx, ih]
        · have hx : tolower x ≠ b := by
            rintro rfl
            exact hle hlt.le
          simp [hle, hx, view]
      · obtain rfl := schar_inj.mp heq
        rw [if_neg (lt_irrefl _), if_pos rfl, treeInsertFrom_node]
        simp only [treeGetSiblingFrom]
        by_cases hx : tolower x = v
        · simp [hx, view]
        · simp [hx, Ne.symm hx]
      · have hv : v ≠ b := by
          rintro rfl
          exact lt_irrefl _ hgt
        rw [if_neg hgt.not_gt, if_neg hv, treeInsertFrom_node]
        simp only [treeGetSiblingFrom]
        by_cases hx : tolower x = b
        · simp [hx, not_le.mpr hgt, view]
        · by_cases hle : schar b ≤ schar (tolower x)
          · simp [hle, hx, Ne.symm hx]
          · have : ¬ schar v ≤ schar (tolower x) := by omega
            simp [hle, this, hx]

private theorem look_addSibling_singleton (k : List UInt8) (b : UInt8) (t : TreeNode) (x : UInt8) :
    look (treeAddSiblingFrom (treeInsertFrom stored k) t (tolower b)) [x] =
      if [tolower x] = (b :: k).map tolower then some stored
      else if [tolower x] <+: (b :: k).map tolower then some ((look t [x]).getD [])
      else look t [x] := by
  rw [look_singleton, look_singleton, view_getSibling_addSibling stored k (tolower b) t x]
  by_cases hx : tolower x = tolower b
  · cases k with
    | nil => cases (treeGetSibling t x).view <;> simp [hx, written]
    | cons b' k => cases (treeGetSibling t x).view <;> simp [hx, written]
  · simp [hx]

private theorem look_addSibling (k : List UInt8) (b : UInt8) (t : TreeNode) (x : UInt8)
    (q : List UInt8) :
    look (treeAddSiblingFrom (treeInsertFrom stored k) t (tolower b)) (x :: q) =
      if (x :: q).map tolower = (b :: k).map tolower then some stored
      else if (x :: q).map tolower <+: (b :: k).map tolower then some ((look t (x :: q)).getD [])
      else look t (x :: q) := by
  induction k generalizing b t x q with
  | nil =>
      cases q with
      | nil => exact look_addSibling_singleton [] b t x
      | cons y q =>
          rw [look_cons_cons, look_cons_cons, nextChild_eq_view, nextChild_eq_view,
            view_getSibling_addSibling stored [] (tolower b) t x]
          by_cases hx : tolower x = tolower b
          · cases (treeGetSibling t x).view <;> simp [hx, written]
          · simp [hx]
  | cons b' k ih =>
      cases q with
      | nil => exact look_addSibling_singleton (b' :: k) b t x
      | cons y q =>
          rw [look_cons_cons, look_cons_cons, nextChild_eq_view, nextChild_eq_view,
            view_getSibling_addSibling stored (b' :: k) (tolower b) t x]
          by_cases hx : tolower x = tolower b
          · have := ih b' (((treeGetSibling t x).view.map Prod.fst).getD null) y q
            simp only [List.map_cons, List.cons.injEq, List.cons_prefix_cons] at this ⊢
            rw [if_pos hx]
            simp only [hx, true_and]
            rw [← this]
            cases (treeGetSibling t x).view <;> rfl
          · simp [hx]

/-- **What an insertion changes.** The key is found with what was stored last, every beginning
of it is found, and every other query is answered as before. -/
theorem look_treeInsert (k : List UInt8) (hk : k ≠ []) (root : TreeNode)
    (adapted suffix q : List UInt8) (hq : q ≠ []) :
    look (treeInsert root k adapted suffix) q =
      if q.map tolower = k.map tolower then some ((adapted ++ suffix).take (maxStr - 1))
      else if q.map tolower <+: k.map tolower then some ((look root q).getD [])
      else look root q := by
  obtain ⟨b, bs, rfl⟩ := List.exists_cons_of_ne_nil hk
  obtain ⟨x, q, rfl⟩ := List.exists_cons_of_ne_nil hq
  rw [treeInsert_eq]
  exact look_addSibling bs b root x q

end Insert

/-! ## Trees built from rules -/

/-- A rule: its key, and the two strings that `snprintf` puts together. -/
structure Entry where
  key : List UInt8
  adapted : List UInt8
  suffix : List UInt8
  deriving DecidableEq, Repr

/-- The tree that insertions in this order make. -/
def treeBuild (entries : List Entry) : TreeNode :=
  entries.foldl (fun root e => treeInsert root e.key e.adapted e.suffix) null

/-- What the last entry for a query stores. -/
def lastStored (entries : List Entry) (q : List UInt8) : Option (List UInt8) :=
  (entries.reverse.find? fun e => e.key.map tolower = q.map tolower).map fun e =>
    (e.adapted ++ e.suffix).take (maxStr - 1)

theorem look_null (q : List UInt8) : look null q = none := by
  rw [look_eq_none]
  cases q with
  | nil => rfl
  | cons b bs =>
      rw [treeWalk]
      induction bs with
      | nil => rfl
      | cons b' bs ih => exact ih

/-- **The tree is the map from keys to last replacements.** -/
theorem look_treeBuild {entries : List Entry} (hkeys : ∀ e ∈ entries, e.key ≠ []) {q : List UInt8}
    (hq : q ≠ []) : look (treeBuild entries) q =
      if ∃ e ∈ entries, q.map tolower <+: e.key.map tolower then
        some ((lastStored entries q).getD [])
      else none := by
  induction entries using List.reverseRecOn with
  | nil => simp [treeBuild, look_null]
  | append_singleton entries e ih =>
      have he := hkeys e (by simp)
      have ih' := ih fun e' he' => hkeys e' (by simp [he'])
      have hbuild : treeBuild (entries ++ [e]) =
          treeInsert (treeBuild entries) e.key e.adapted e.suffix := by
        simp [treeBuild]
      rw [hbuild, look_treeInsert _ he _ _ _ _ hq]
      by_cases hkey : q.map tolower = e.key.map tolower
      · rw [if_pos hkey, if_pos ⟨e, by simp, by rw [hkey]⟩, lastStored, List.reverse_append,
          List.reverse_singleton, List.singleton_append, List.find?_cons_of_pos (by simp [hkey])]
        rfl
      · have hsame : lastStored (entries ++ [e]) q = lastStored entries q := by
          rw [lastStored, List.reverse_append, List.reverse_singleton, List.singleton_append,
            List.find?_cons_of_neg (by simpa using Ne.symm hkey)]
          rfl
        have hget : (look (treeBuild entries) q).getD [] = (lastStored entries q).getD [] := by
          rw [ih']
          split_ifs with hex
          · rfl
          · -- a query that begins no key is no key
            have hnone : lastStored entries q = none := by
              rw [lastStored, Option.map_eq_none_iff, List.find?_eq_none]
              intro e' he' heq
              rw [decide_eq_true_iff] at heq
              exact hex ⟨e', List.mem_reverse.mp he', heq ▸ List.prefix_rfl⟩
            rw [hnone]
        rw [if_neg hkey, hsame]
        by_cases hpre : q.map tolower <+: e.key.map tolower
        · rw [if_pos hpre, if_pos ⟨e, by simp, hpre⟩, hget]
        · rw [if_neg hpre, ih']
          congr 1
          simp [hpre]

end RenaProxy.FaProxy
