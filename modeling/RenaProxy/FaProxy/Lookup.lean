import RenaProxy.FaProxy.Tree
import RenaProxy.Lib.Earliest

/-!
# Looking up a byte

faproxy reads its rules into three trees. `database_transform_lookup` takes a text byte by
byte and follows in two of them at once what may become a key, in an array that it
compacts as it goes. `Follows` ties this array to what is alive in the general matcher,
and `databaseTransformLookup_spec` says what one byte does.
-/
namespace RenaProxy.FaProxy
open TreeNode StreamMatcher EarliestMatch

/-- A line of the rule files. -/
inductive Rule
  | noProxy (domain : List UInt8)
  | proxyDomainRename (server client : List UInt8)
  deriving DecidableEq, Repr

/-- The sides of the proxy that a text can come from. -/
inductive Side
  | server
  | client
  deriving DecidableEq, Repr

/-- `main_db` -/
structure Database where
  neverProxyTree : TreeNode
  renameFromServer : TreeNode
  renameFromClient : TreeNode
  deriving DecidableEq, Repr

def Database.empty : Database := ⟨null, null, null⟩

/-- `insert_never` -/
def insertNever (db : Database) (domain : List UInt8) : Database :=
  { db with neverProxyTree := treeInsert db.neverProxyTree domain domain [] }

/-- `insert_rewrite` -/
def insertRewrite (serverSuffix : List UInt8) (db : Database) (server client : List UInt8) :
    Database :=
  let expandedClient := (client ++ serverSuffix).take (maxStr - 1)
  { db with
    renameFromServer := treeInsert db.renameFromServer server client serverSuffix
    renameFromClient := treeInsert db.renameFromClient expandedClient server [] }

/-- What `expand_database_from` does with one line. -/
def insertRule (serverSuffix : List UInt8) (db : Database) : Rule → Database
  | .noProxy domain => insertNever db domain
  | .proxyDomainRename server client => insertRewrite serverSuffix db server client

/-- The loop of `expand_database_from` over the lines. -/
def databaseSetUp (serverSuffix : List UInt8) (rules : List Rule) : Database :=
  rules.foldl (insertRule serverSuffix) .empty

/-- `tree_lookup_t` -/
structure TreeLookup where
  subtree : TreeNode
  depth : ℕ
  deriving DecidableEq, Repr

/-- `di_lookup_t`, its array with as many elements as there are lookups. -/
structure DiLookup where
  neverRef : TreeNode
  otherRef : TreeNode
  lookups : List TreeLookup
  deriving DecidableEq, Repr

/-- What `database_transform_lookup` returns. -/
inductive LookupResult
  | notHold
  | feedMeAndHold
  | transformOk (phrase : List UInt8) (phraseConsume : ℕ)
  deriving DecidableEq, Repr

/-- `database_transform_handler` -/
def databaseTransformHandler (db : Database) : Side → DiLookup
  | .server => ⟨db.neverProxyTree, db.renameFromServer, []⟩
  | .client => ⟨db.neverProxyTree, db.renameFromClient, []⟩

/-- `array_insert_based_on_depth`. The position that it computes is not used. -/
def arrayInsertBasedOnDepth (base : List TreeLookup) (newElement : TreeLookup) : List TreeLookup :=
  base ++ [newElement]

/-- The loop of `database_transform_lookup` from the index `i` on: the array after it, and the
phrase and its length if a key is complete. An element without a child is taken out of the
array, and the next one comes to stand at its index. -/
def transformLoop (input : UInt8) (lookups : List TreeLookup) (i : ℕ) :
    List TreeLookup × Option (List UInt8 × ℕ) :=
  if h : i < lookups.length then
    match treeGetChild lookups[i].subtree input with
    | null => transformLoop input (lookups.eraseIdx i) i
    | node v c s adapted =>
        let lup : TreeLookup := ⟨node v c s adapted, lookups[i].depth + 1⟩
        if adapted ≠ [] then ([], some (adapted, lup.depth))
        else transformLoop input (lookups.set i lup) (i + 1)
  else (lookups, none)
termination_by lookups.length - i
decreasing_by
  · rw [List.length_eraseIdx_of_lt h]
    omega
  · rw [List.length_set]
    omega

/-- The part of `database_transform_lookup` after the loop: the array with what begins at the
byte. -/
def beginLookups (cast : DiLookup) (input : UInt8) (lookups : List TreeLookup) : List TreeLookup :=
  if schar input ≤ schar 32 then lookups
  else
    let never := treeGetSibling cast.neverRef input
    let lookups := if never ≠ null then arrayInsertBasedOnDepth lookups ⟨never, 1⟩ else lookups
    let other := treeGetSibling cast.otherRef input
    if other ≠ null then arrayInsertBasedOnDepth lookups ⟨other, 1⟩ else lookups

/-- `database_transform_lookup` -/
def databaseTransformLookup (cast : DiLookup) (input : UInt8) : DiLookup × LookupResult :=
  match transformLoop input cast.lookups 0 with
  | (lookups, some (phrase, phraseConsume)) =>
      ({ cast with lookups := lookups }, .transformOk phrase phraseConsume)
  | (lookups, none) =>
      let lookups := beginLookups cast input lookups
      ({ cast with lookups := lookups }, if lookups.length = 0 then .notHold else .feedMeAndHold)

/-! ## The loop over the array -/

/-- What becomes of one element. -/
def advance (input : UInt8) (lup : TreeLookup) : Option TreeLookup :=
  match treeGetChild lup.subtree input with
  | null => none
  | aux => some ⟨aux, lup.depth + 1⟩

/-- What is stored at a node. -/
def TreeNode.stored : TreeNode → List UInt8
  | null => []
  | node _ _ _ a => a

/-- The elements before the index stay, the others advance or go, and the first that completes
a key ends the loop. -/
theorem transformLoop_append (input : UInt8) (done rest : List TreeLookup) :
    transformLoop input (done ++ rest) done.length =
      match (rest.filterMap (advance input)).find? (·.subtree.stored ≠ []) with
      | some lup => ([], some (lup.subtree.stored, lup.depth))
      | none => (done ++ rest.filterMap (advance input), none) := by
  induction rest generalizing done with
  | nil =>
      rw [transformLoop, dif_neg (by simp)]
      rfl
  | cons lup rest ih =>
      have hlt : done.length < (done ++ lup :: rest).length := by simp
      have hget : (done ++ lup :: rest)[done.length] = lup := by simp
      rw [transformLoop, dif_pos hlt, hget]
      cases hchild : treeGetChild lup.subtree input with
      | null =>
          have hadvance : advance input lup = none := by rw [advance, hchild]
          dsimp only
          rw [List.eraseIdx_append_of_length_le le_rfl, Nat.sub_self, List.eraseIdx_cons_zero, ih,
            List.filterMap_cons_none hadvance]
      | node v c s a =>
          have hadvance : advance input lup = some ⟨node v c s a, lup.depth + 1⟩ := by
            rw [advance, hchild]
          dsimp only
          rw [List.filterMap_cons_some hadvance]
          by_cases ha : a = []
          · have hset : (done ++ lup :: rest).set done.length ⟨node v c s a, lup.depth + 1⟩ =
                (done ++ [⟨node v c s a, lup.depth + 1⟩]) ++ rest := by
              rw [List.set_append_right _ _ le_rfl, Nat.sub_self, List.set_cons_zero, List.append_assoc]
              rfl
            have hnext := ih (done ++ [⟨node v c s a, lup.depth + 1⟩])
            rw [List.length_append, List.length_singleton] at hnext
            rw [if_neg (not_not.mpr ha), hset, hnext, List.find?_cons_of_neg (by simp [stored, ha])]
            simp
          · rw [if_pos ha, List.find?_cons_of_pos (by simp [stored, ha])]
            rfl

theorem transformLoop_zero (input : UInt8) (lookups : List TreeLookup) :
    transformLoop input lookups 0 =
      match (lookups.filterMap (advance input)).find? (·.subtree.stored ≠ []) with
      | some lup => ([], some (lup.subtree.stored, lup.depth))
      | none => (lookups.filterMap (advance input), none) :=
  transformLoop_append input [] lookups

/-! ## The rules as lexicons -/

/-- Keys that the lookup can find: of two bytes at least, from a printable one on. -/
def IsKey (k : List UInt8) : Prop := 2 ≤ k.length ∧ ∀ b ∈ k.head?, 33 ≤ b ∧ b ≤ 126

instance (k : List UInt8) : Decidable (IsKey k) := inferInstanceAs (Decidable (_ ∧ _))

theorem schar_eq (c : UInt8) :
    schar c = if c.toNat < 128 then (c.toNat : ℤ) else c.toNat - 256 := by
  rw [schar, BitVec.toInt_eq_toNat_cond, UInt8.toNat_toBitVec]
  split_ifs <;> first | rfl | omega

/-- Bytes that a lookup does not begin at stay apart from the printable ones. -/
theorem tolower_ne_of_le {b k : UInt8} (hb : schar b ≤ schar 32) (hlow : 33 ≤ k) (hhigh : k ≤ 126) :
    tolower b ≠ tolower k := by
  have h32 : schar 32 = 32 := rfl
  rw [schar_eq, h32] at hb
  rw [UInt8.le_iff_toNat_le] at hlow hhigh
  have hlow : 33 ≤ k.toNat := hlow
  have hhigh : k.toNat ≤ 126 := hhigh
  intro heq
  have heq := congrArg UInt8.toNat heq
  rw [toNat_tolower, toNat_tolower] at heq
  split_ifs at hb heq <;> omega

/-- What is asked of a rule: its keys can be found, and its replacements, which are nonempty
with that, are shorter than `MAX_STR`. -/
def Rule.Proper (serverSuffix : List UInt8) : Rule → Prop
  | noProxy domain => IsKey domain ∧ domain.length < maxStr
  | proxyDomainRename server client => IsKey server ∧ IsKey (client ++ serverSuffix) ∧
      server.length < maxStr ∧ (client ++ serverSuffix).length < maxStr

instance (serverSuffix : List UInt8) : (r : Rule) → Decidable (r.Proper serverSuffix)
  | .noProxy _ => inferInstanceAs (Decidable (_ ∧ _))
  | .proxyDomainRename _ _ => inferInstanceAs (Decidable (_ ∧ _))

/-- Rule files with the suffix of the configuration. -/
structure RuleBase where
  serverSuffix : List UInt8
  rules : List Rule
  proper : ∀ r ∈ rules, r.Proper serverSuffix

/-- The two trees that a lookup walks, in the order in which it begins in them. -/
inductive Kind
  | never
  | other
  deriving DecidableEq, Repr

/-- What a rule inserts into a tree. -/
def Rule.entry (serverSuffix : List UInt8) (side : Side) : Kind → Rule → Option Entry
  | .never, noProxy domain => some ⟨domain, domain, []⟩
  | .other, proxyDomainRename server client =>
      match side with
      | .server => some ⟨server, client, serverSuffix⟩
      | .client => some ⟨client ++ serverSuffix, server, []⟩
  | _, _ => none

/-- A tree of a database. -/
def Database.tree (db : Database) (side : Side) : Kind → TreeNode
  | .never => (databaseTransformHandler db side).neverRef
  | .other => (databaseTransformHandler db side).otherRef

theorem Rule.Proper.entry {serverSuffix : List UInt8} {side : Side} {kind : Kind} {r : Rule}
    {e : Entry} (hr : r.Proper serverSuffix) (he : r.entry serverSuffix side kind = some e) :
    IsKey e.key ∧ IsKey (e.adapted ++ e.suffix) ∧ (e.adapted ++ e.suffix).length < maxStr := by
  cases kind with
  | never =>
      cases r with
      | noProxy domain =>
          obtain rfl := Option.some.inj he
          rw [List.append_nil]
          exact ⟨hr.1, hr⟩
      | proxyDomainRename server client => cases he
  | other =>
      cases r with
      | noProxy domain => cases he
      | proxyDomainRename server client =>
          obtain ⟨hserver, hclient, hlen, hlen'⟩ := hr
          cases side with
          | server =>
              obtain rfl := Option.some.inj he
              exact ⟨hserver, hclient, hlen'⟩
          | client =>
              obtain rfl := Option.some.inj he
              rw [List.append_nil]
              exact ⟨hclient, hserver, hlen⟩

theorem tree_insertRule {serverSuffix : List UInt8} {r : Rule} (side : Side) (kind : Kind)
    (hr : r.Proper serverSuffix) (db : Database) :
    (insertRule serverSuffix db r).tree side kind =
      (r.entry serverSuffix side kind).toList.foldl
        (fun root e => treeInsert root e.key e.adapted e.suffix) (db.tree side kind) := by
  cases r with
  | noProxy domain => cases kind <;> cases side <;> rfl
  | proxyDomainRename server client =>
      cases kind with
      | never => cases side <;> rfl
      | other =>
          cases side with
          | server => rfl
          | client =>
              have hwhole : (client ++ serverSuffix).take (maxStr - 1) = client ++ serverSuffix :=
                List.take_of_length_le (Nat.le_sub_one_of_lt hr.2.2.2)
              rw [insertRule, insertRewrite, hwhole]
              rfl

/-- Every tree of a database holds the entries for it. -/
theorem tree_databaseSetUp {serverSuffix : List UInt8} {rules : List Rule} (side : Side) (kind : Kind)
    (hproper : ∀ r ∈ rules, r.Proper serverSuffix) :
    (databaseSetUp serverSuffix rules).tree side kind =
      treeBuild (rules.filterMap (Rule.entry serverSuffix side kind)) := by
  induction rules using List.reverseRecOn with
  | nil => cases kind <;> cases side <;> rfl
  | append_singleton rules r ih =>
      have ih := ih fun r' hr' => hproper r' (by simp [hr'])
      rw [treeBuild] at ih
      rw [databaseSetUp, List.foldl_append, List.foldl_cons, List.foldl_nil, ← databaseSetUp,
        tree_insertRule side kind (hproper r (by simp)), ih, treeBuild, List.filterMap_append,
        List.foldl_append, List.filterMap_cons, List.filterMap_nil]
      cases r.entry serverSuffix side kind <;> rfl

namespace RuleBase
variable (B : RuleBase) (side : Side)

/-- What all rules insert into a tree. -/
def entries (kind : Kind) : List Entry := B.rules.filterMap (Rule.entry B.serverSuffix side kind)

/-- The database that is built from the rules. -/
def database : Database := databaseSetUp B.serverSuffix B.rules

theorem proper_of_mem_entries {kind : Kind} {e : Entry} (he : e ∈ B.entries side kind) :
    IsKey e.key ∧ IsKey (e.adapted ++ e.suffix) ∧ (e.adapted ++ e.suffix).length < maxStr := by
  obtain ⟨r, hr, he⟩ := List.mem_filterMap.mp he
  exact (B.proper r hr).entry he

/-- The keys of a tree, over lowercase text. -/
def lexicon (kind : Kind) : Lexicon UInt8 where
  pre w := (B.entries side kind).any fun e => w <+: e.key.map tolower
  key w := (B.entries side kind).any fun e => e.key.map tolower = w
  pre_of_key := by
    intro w h
    obtain ⟨e, he, h⟩ := List.any_eq_true.mp h
    refine List.any_eq_true.mpr ⟨e, he, ?_⟩
    rw [decide_eq_true_iff] at h ⊢
    exact h ▸ List.prefix_rfl
  pre_of_append := by
    intro w a _ h
    obtain ⟨e, he, h⟩ := List.any_eq_true.mp h
    refine List.any_eq_true.mpr ⟨e, he, ?_⟩
    rw [decide_eq_true_iff] at h ⊢
    exact (List.prefix_append w [a]).trans h
  two_le_of_key := by
    intro w h
    obtain ⟨e, he, h⟩ := List.any_eq_true.mp h
    rw [decide_eq_true_iff] at h
    rw [← h, List.length_map]
    exact (B.proper_of_mem_entries side he).1.1

/-- The entry that was inserted last for a key. -/
def lastEntry (kind : Kind) (w : List UInt8) : Option Entry :=
  (B.entries side kind).reverse.find? fun e => e.key.map tolower = w

/-- The replacement that was inserted last for a key. -/
def replacement (kind : Kind) (w : List UInt8) : List UInt8 :=
  ((B.lastEntry side kind w).map fun e => e.adapted ++ e.suffix).getD []

/-- The rules for the general matcher: the never tree comes first. -/
def matcher : Rules UInt8 Kind := ⟨[.never, .other], B.lexicon side, B.replacement side⟩

/-- A tree of the database. -/
def tree (kind : Kind) : TreeNode := B.database.tree side kind

variable {B side} {kind : Kind} {v : List UInt8}

theorem pre_iff : (B.lexicon side kind).pre v ↔
    ∃ e ∈ B.entries side kind, v <+: e.key.map tolower := by
  rw [lexicon, List.any_eq_true]
  simp only [decide_eq_true_eq]

theorem key_iff : (B.lexicon side kind).key v ↔ ∃ e ∈ B.entries side kind, e.key.map tolower = v := by
  rw [lexicon, List.any_eq_true]
  simp only [decide_eq_true_eq]

theorem look_tree (hv : v ≠ []) (hlow : v.map tolower = v) : look (B.tree side kind) v =
    if (B.lexicon side kind).pre v then some ((lastStored (B.entries side kind) v).getD [])
    else none := by
  rw [tree, database, tree_databaseSetUp side kind B.proper, look_treeBuild _ hv, hlow]
  · simp only [pre_iff]
    rfl
  · intro e he h
    have := (B.proper_of_mem_entries side he).1.1
    rw [h] at this
    exact absurd this (by decide)

variable (B side kind) in
/-- A query ends at no node if it begins no key. -/
theorem treeWalk_eq_null (hv : v ≠ []) (hlow : v.map tolower = v) :
    treeWalk (B.tree side kind) v = null ↔ ¬ (B.lexicon side kind).pre v := by
  rw [← look_eq_none, look_tree hv hlow]
  split_ifs with h <;> simp [h]

theorem stored_treeWalk (root : TreeNode) (q : List UInt8) :
    (treeWalk root q).stored = (look root q).getD [] := by
  rw [look]
  cases treeWalk root q <;> rfl

theorem exists_lastEntry (hkey : (B.lexicon side kind).key v) :
    ∃ e ∈ B.entries side kind, B.lastEntry side kind v = some e := by
  obtain ⟨e, he, hv⟩ := key_iff.mp hkey
  cases hlast : B.lastEntry side kind v with
  | none =>
      have := List.find?_eq_none.mp hlast e (List.mem_reverse.mpr he)
      exact absurd (decide_eq_true hv) this
  | some e' => exact ⟨e', List.mem_reverse.mp (List.mem_of_find?_eq_some hlast), rfl⟩

theorem lastEntry_eq_none (hkey : ¬ (B.lexicon side kind).key v) :
    B.lastEntry side kind v = none := by
  rw [lastEntry, List.find?_eq_none]
  intro e he hv
  exact hkey (key_iff.mpr ⟨e, List.mem_reverse.mp he, of_decide_eq_true hv⟩)

theorem replacement_proper (hkey : (B.lexicon side kind).key v) :
    B.replacement side kind v ≠ [] ∧ (B.replacement side kind v).length < maxStr := by
  obtain ⟨e, he, hlast⟩ := exists_lastEntry hkey
  obtain ⟨-, hnonempty, hlen⟩ := B.proper_of_mem_entries side he
  rw [replacement, hlast]
  refine ⟨?_, hlen⟩
  intro hnil
  have htwo := hnonempty.1
  rw [show e.adapted ++ e.suffix = [] from hnil] at htwo
  exact absurd htwo (by decide)

variable (B side kind) in
/-- What is stored for a key is the replacement, and for nothing else is anything stored. -/
theorem stored_tree (hv : v ≠ []) (hlow : v.map tolower = v) :
    (treeWalk (B.tree side kind) v).stored =
      if (B.lexicon side kind).key v then B.replacement side kind v else [] := by
  have hlast : lastStored (B.entries side kind) v =
      (B.lastEntry side kind v).map fun e => (e.adapted ++ e.suffix).take (maxStr - 1) := by
    rw [lastStored, hlow, lastEntry]
  rw [stored_treeWalk, look_tree hv hlow, hlast]
  by_cases hkey : (B.lexicon side kind).key v
  · obtain ⟨e, he, hentry⟩ := exists_lastEntry hkey
    have hlen := (B.proper_of_mem_entries side he).2.2
    rw [if_pos ((B.lexicon side kind).pre_of_key hkey), if_pos hkey, replacement, hentry]
    exact List.take_of_length_le (Nat.le_sub_one_of_lt hlen)
  · rw [if_neg hkey, lastEntry_eq_none hkey]
    split_ifs <;> rfl

/-! ## One byte -/

/-- The element of the array for a stretch that is alive. -/
def element (B : RuleBase) (side : Side) (p : Kind × List UInt8) : TreeLookup :=
  ⟨treeWalk (B.tree side p.1) p.2, p.2.length⟩

variable (B side) in
theorem advance_element {p : Kind × List UInt8} (hp : p.2 ≠ []) (hlow : p.2.map tolower = p.2)
    (input : UInt8) : advance input (B.element side p) =
      if (B.lexicon side p.1).pre (p.2 ++ [tolower input]) then
        some (B.element side (p.1, p.2 ++ [tolower input]))
      else none := by
  have hchild : treeGetChild (treeWalk (B.tree side p.1) p.2) input =
      treeWalk (B.tree side p.1) (p.2 ++ [tolower input]) := by
    rw [treeWalk_append hp, treeGetChild_eq, treeGetChild_eq, treeGetSibling, treeGetSibling,
      tolower_tolower]
  have hnull := treeWalk_eq_null B side p.1 (v := p.2 ++ [tolower input]) (by simp)
    (by simp [hlow])
  rw [advance, element, hchild]
  by_cases hpre : (B.lexicon side p.1).pre (p.2 ++ [tolower input])
  · rw [if_pos hpre, element, List.length_append, List.length_singleton]
    cases hwalk : treeWalk (B.tree side p.1) (p.2 ++ [tolower input]) with
    | null => exact absurd hpre (hnull.mp hwalk)
    | node v c s a => rfl
  · rw [if_neg hpre, hnull.mpr hpre]

variable {w : List UInt8}

/-- Every stretch that is alive in lowercase text is in lowercase. -/
theorem lower_of_mem_live {p : Kind × List UInt8} (hw : w.map tolower = w)
    (hp : p ∈ (B.matcher side).live w) : p.2 ≠ [] ∧ p.2.map tolower = p.2 := by
  obtain ⟨b, hb, hp⟩ := List.mem_flatMap.mp hp
  obtain ⟨k, -, rfl⟩ := List.mem_map.mp hp
  rw [List.mem_range] at hb
  refine ⟨?_, ?_⟩
  · rw [Ne, List.drop_eq_nil_iff]
    omega
  · rw [List.map_drop, hw]

theorem filterMap_advance (input : UInt8) {l : List (Kind × List UInt8)}
    (hl : ∀ p ∈ l, p.2 ≠ [] ∧ p.2.map tolower = p.2) :
    (l.map (B.element side)).filterMap (advance input) =
      (l.filter fun p => (B.lexicon side p.1).pre (p.2 ++ [tolower input])).map
        fun p => B.element side (p.1, p.2 ++ [tolower input]) := by
  induction l with
  | nil => rfl
  | cons p l ih =>
      obtain ⟨hne, hlow⟩ := hl p List.mem_cons_self
      have ih := ih fun p' hp' => hl p' (List.mem_cons_of_mem _ hp')
      have hadvance := advance_element B side hne hlow input
      rw [List.map_cons]
      by_cases hpre : (B.lexicon side p.1).pre (p.2 ++ [tolower input])
      · rw [if_pos hpre] at hadvance
        rw [List.filterMap_cons_some hadvance, ih, List.filter_cons, if_pos hpre, List.map_cons]
      · rw [if_neg hpre] at hadvance
        rw [List.filterMap_cons_none hadvance, ih, List.filter_cons, if_neg hpre]

theorem find_stored (c : UInt8) (hc : tolower c = c) {l : List (Kind × List UInt8)}
    (hl : ∀ p ∈ l, p.2 ≠ [] ∧ p.2.map tolower = p.2) :
    ((l.filter fun p => (B.lexicon side p.1).pre (p.2 ++ [c])).map
        fun p => B.element side (p.1, p.2 ++ [c])).find? (·.subtree.stored ≠ []) =
      (l.find? fun p => (B.lexicon side p.1).key (p.2 ++ [c])).map
        fun p => B.element side (p.1, p.2 ++ [c]) := by
  rw [List.find?_map, List.find?_filter]
  congr 1
  apply List.find?_congr
  intro p hp
  obtain ⟨-, hlow⟩ := hl p hp
  have hstored := stored_tree B side p.1 (v := p.2 ++ [c]) (by simp) (by simp [hlow, hc])
  rw [Bool.eq_iff_iff, decide_eq_true_iff, Function.comp_apply, decide_eq_true_iff, element, hstored]
  by_cases hkey : (B.lexicon side p.1).key (p.2 ++ [c])
  · rw [if_pos hkey]
    exact iff_of_true ⟨(B.lexicon side p.1).pre_of_key hkey, (replacement_proper hkey).1⟩ hkey
  · rw [if_neg hkey]
    exact iff_of_false (fun h => h.2 rfl) hkey

/-- The lookup follows the text `w`, which was read since the last replacement. -/
structure Follows (B : RuleBase) (side : Side) (cast : DiLookup) (w : List UInt8) : Prop where
  neverRef : cast.neverRef = B.tree side .never
  otherRef : cast.otherRef = B.tree side .other
  lookups : cast.lookups = ((B.matcher side).live w).map (B.element side)
  lower : w.map tolower = w

theorem follows_handler (B : RuleBase) (side : Side) :
    B.Follows side (databaseTransformHandler B.database side) [] := by
  refine ⟨rfl, rfl, ?_, rfl⟩
  cases side <;> rfl

/-- No key begins with a byte that the lookup does not begin at. -/
theorem not_pre_of_le {input : UInt8} (h : schar input ≤ schar 32) :
    ¬ (B.lexicon side kind).pre [tolower input] := by
  intro hpre
  obtain ⟨e, he, hprefix⟩ := pre_iff.mp hpre
  obtain ⟨htwo, hfirst⟩ := (B.proper_of_mem_entries side he).1
  cases hkey : e.key with
  | nil =>
      rw [hkey] at htwo
      exact absurd htwo (by decide)
  | cons k ks =>
      rw [hkey, List.map_cons, List.cons_prefix_cons] at hprefix
      rw [hkey] at hfirst
      obtain ⟨hlow, hhigh⟩ := hfirst k rfl
      exact absurd hprefix.1 (tolower_ne_of_le h hlow hhigh)

/-- What one byte adds at the end of the array. -/
theorem beginLookups_eq (input : UInt8) {cast : DiLookup} (F : B.Follows side cast w)
    (lookups : List TreeLookup) : beginLookups cast input lookups =
      lookups ++ (((B.matcher side).kinds.filter fun k =>
        ((B.matcher side).lexicon k).pre [tolower input]).map (·, [tolower input])).map
          (B.element side) := by
  have hsibling : ∀ kind, treeGetSibling (B.tree side kind) input =
      treeWalk (B.tree side kind) [tolower input] := by
    intro kind
    rw [treeWalk_singleton, treeGetSibling, treeGetSibling, tolower_tolower]
  have hnull : ∀ kind, treeWalk (B.tree side kind) [tolower input] = null ↔
      ¬ (B.lexicon side kind).pre [tolower input] :=
    fun kind => treeWalk_eq_null B side kind (by simp) (by simp)
  have hkinds : (B.matcher side).kinds = [.never, .other] := rfl
  have hlexicon : (B.matcher side).lexicon = B.lexicon side := rfl
  rw [hkinds, hlexicon, beginLookups]
  by_cases hle : schar input ≤ schar 32
  · rw [if_pos hle]
    simp [not_pre_of_le hle]
  · rw [if_neg hle, F.neverRef, F.otherRef, hsibling, hsibling]
    simp only [Ne, hnull, not_not, arrayInsertBasedOnDepth]
    by_cases hnever : (B.lexicon side .never).pre [tolower input] <;>
      by_cases hother : (B.lexicon side .other).pre [tolower input] <;>
      simp [hnever, hother, element]

variable (B side) in
theorem transformLoop_live (input : UInt8) (hw : w.map tolower = w) :
    transformLoop input (((B.matcher side).live w).map (B.element side)) 0 =
      match ((B.matcher side).live w).find? fun p =>
          (B.lexicon side p.1).key (p.2 ++ [tolower input]) with
      | some p => ([], some (B.replacement side p.1 (p.2 ++ [tolower input]), p.2.length + 1))
      | none => ((((B.matcher side).live w).filter fun p =>
          (B.lexicon side p.1).pre (p.2 ++ [tolower input])).map fun p =>
            B.element side (p.1, p.2 ++ [tolower input]), none) := by
  have hl : ∀ p ∈ (B.matcher side).live w, p.2 ≠ [] ∧ p.2.map tolower = p.2 :=
    fun p hp => lower_of_mem_live hw hp
  rw [transformLoop_zero, filterMap_advance input hl, find_stored _ (tolower_tolower input) hl]
  cases hfind : ((B.matcher side).live w).find? fun p =>
      (B.lexicon side p.1).key (p.2 ++ [tolower input]) with
  | none => rfl
  | some p =>
      have hkey := List.find?_some (p := fun p : Kind × List UInt8 =>
        (B.lexicon side p.1).key (p.2 ++ [tolower input])) hfind
      obtain ⟨-, hlow⟩ := hl p (List.mem_of_find?_eq_some hfind)
      have hstored := stored_tree B side p.1 (v := p.2 ++ [tolower input]) (by simp) (by simp [hlow])
      rw [if_pos hkey] at hstored
      rw [Option.map_some, element]
      dsimp only
      rw [hstored, List.length_append, List.length_singleton]

/-- **One byte.** If it completes keys, the one that is found is the first of those that are
alive; if not, the array follows the text with the byte. -/
theorem databaseTransformLookup_spec {cast : DiLookup} (F : B.Follows side cast w) (input : UInt8) :
    match ((B.matcher side).live w).find? fun p =>
        (B.lexicon side p.1).key (p.2 ++ [tolower input]) with
    | some p => (databaseTransformLookup cast input).2 =
        .transformOk (B.replacement side p.1 (p.2 ++ [tolower input])) (p.2.length + 1) ∧
        B.Follows side (databaseTransformLookup cast input).1 []
    | none => (databaseTransformLookup cast input).2 =
        (if ((B.matcher side).live (w ++ [tolower input])).isEmpty then .notHold
          else .feedMeAndHold) ∧
        B.Follows side (databaseTransformLookup cast input).1 (w ++ [tolower input]) := by
  have hloop := transformLoop_live B side input F.lower
  rw [← F.lookups] at hloop
  split
  · rename_i p hfind
    rw [hfind] at hloop
    rw [databaseTransformLookup, hloop]
    exact ⟨rfl, F.neverRef, F.otherRef, rfl, rfl⟩
  · rename_i hfind
    rw [hfind] at hloop
    have hlive : beginLookups cast input ((((B.matcher side).live w).filter fun p =>
        (B.lexicon side p.1).pre (p.2 ++ [tolower input])).map fun p =>
          B.element side (p.1, p.2 ++ [tolower input])) =
        ((B.matcher side).live (w ++ [tolower input])).map (B.element side) := by
      rw [beginLookups_eq input F, (B.matcher side).live_append, List.map_append]
      congr 1
      rw [List.map_map]
      rfl
    rw [databaseTransformLookup, hloop]
    dsimp only
    rw [hlive, List.length_map]
    refine ⟨?_, F.neverRef, F.otherRef, rfl, by simp [F.lower]⟩
    cases (B.matcher side).live (w ++ [tolower input]) <;> rfl

end RuleBase

end RenaProxy.FaProxy
