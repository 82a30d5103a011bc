import RenaProxy.Rewriter
import RenaProxy.Lib.Inverse

/-!
# Names there and back

`rename_domain` puts each line of a rule file into two trees: one takes the name of a
server to the name that its clients see, the other takes that name back. A host name that
was rewritten on its way to the client is to come back as it was. `roundTrip` says when it
does, up to letter case.
-/
namespace RenaProxy
open StreamRewriting StreamMatcher DatabaseObject TreeNode

/-- `struct database`, with one field for each of its rule trees. -/
structure Database where
  suffix : List UInt8
  noProxy : TreeNode
  toServer : TreeNode
  fromServer : TreeNode
  deriving DecidableEq, Repr

/-- `rename_domain`. Where there is no second parameter `snprintf` is given a null pointer. -/
def renameDomain (db : Database) (params : List UInt8) : Database :=
  let firstParam := params.takeWhile (· ≠ 32)
  let secondParam :=
    match params.dropWhile (· ≠ 32) with
    | [] => chars "(null)"
    | _ :: rest => rest.takeWhile (· ≠ 32)
  let victim := (secondParam ++ db.suffix).take (maxStr - 1)
  { db with
    toServer := treeInsert db.toServer victim (some firstParam)
    fromServer := treeInsert db.fromServer firstParam (some victim) }

/-- `database_instance_create` -/
def databaseInstanceCreate (db : Database) (isVictim : Bool) : DatabaseObject Context :=
  create db.noProxy (if isVictim then db.fromServer else db.toServer)

/-! ## Rule files -/

/-- A lowercase name, without a space or a slash. -/
def IsName (w : List UInt8) : Prop :=
  w ≠ [] ∧ w.map tolower = w ∧ 0 ∉ w ∧ 32 ∉ w ∧ 47 ∉ w

instance (w : List UInt8) : Decidable (IsName w) := inferInstanceAs (Decidable (_ ∧ _))

/-- A line that renames `left` to `right`. -/
structure RenameLine where
  left : List UInt8
  right : List UInt8
  left_isName : IsName left
  right_isName : IsName right

/-- What is read of the line behind its keyword. -/
def RenameLine.params (l : RenameLine) : List UInt8 := l.left ++ 32 :: l.right

/-- Rename lines with the suffix of the configuration. -/
structure RenameFile where
  suffix : List UInt8
  lines : List RenameLine
  suffix_isString : 0 ∉ suffix
  slash_notMem : 47 ∉ suffix
  left_nodup : (lines.map RenameLine.left).Nodup
  right_nodup : (lines.map RenameLine.right).Nodup

namespace RenameFile
variable (F : RenameFile)

/-- What `read_line` makes of the lines, one after the other. -/
def database : Database := (F.lines.map RenameLine.params).foldl renameDomain ⟨F.suffix, null, null, null⟩

/-- The name that the clients see. -/
def victim (l : RenameLine) : List UInt8 := (l.right ++ F.suffix).take (maxStr - 1)

/-- The name that the clients see for some server stands in `u` from `b` to `e`. -/
def VictimAt (u : List UInt8) (b e : ℕ) : Prop :=
  b < e ∧ e ≤ u.length ∧ ∃ l ∈ F.lines, (slice u b e).map tolower = F.victim l

instance (u : List UInt8) (b e : ℕ) : Decidable (F.VictimAt u b e) :=
  inferInstanceAs (Decidable (_ ∧ _))

/-- Rewriting `h/` for the clients puts a name from `b` to `e`. -/
def PutAt (h : List UInt8) (b e : ℕ) : Prop :=
  Placed (treeReplacement null F.database.fromServer)
    (emit (treeLexicon null F.database.fromServer) tolower (h ++ [47])) b e

/-- The names that the clients see can be told from each other and are found. -/
structure Separable : Prop where
  suffix_lower : F.suffix.map tolower = F.suffix
  two_le : ∀ l ∈ F.lines, 2 ≤ (F.victim l).length
  nodup : (F.lines.map F.victim).Nodup

/-- It can be told from `g/` what was put there for `h/`: every name for the clients ends where
one was put and does not begin earlier, and no beginning of one goes on after it. -/
structure Traceable (h g : List UInt8) : Prop where
  cuts : CutsAtMatch (treeLexicon null F.database.fromServer) ((h ++ [47]).map tolower)
  ends : ∀ b e, F.VictimAt (g ++ [47]) b e → ∃ b' ≤ b, F.PutAt h b' e
  stops : ∀ b e, F.VictimAt (g ++ [47]) b e → ∀ b' < e, ∀ l ∈ F.lines,
    ¬ (slice (g ++ [47]) b' (e + 1)).map tolower <+: F.victim l

end RenameFile

/-! ## One tree alone -/

section Alone
variable {rules : List (List UInt8 × Option (List UInt8))} {w : List UInt8}

theorem treeLexicon_key_iff (hrules : ∀ r ∈ rules, r.1 ≠ [] ∧ r.1.map tolower = r.1) :
    (treeLexicon null (treeBuild rules)).key w ↔ 2 ≤ w.length ∧ ∃ r ∈ rules, r.1 = w.map tolower := by
  simp only [treeLexicon, look_null, Option.join_none, Option.isSome_none, Bool.or_false,
    Bool.and_eq_true, decide_eq_true_eq]
  refine and_congr_right ?_
  intro hlen
  have hw : w ≠ [] := List.ne_nil_of_length_pos (by omega)
  rw [join_look_treeBuild hrules hw, firstAdapted, Option.isSome_map, List.find?_isSome]
  simp only [decide_eq_true_eq]

theorem treeLexicon_pre_iff (hrules : ∀ r ∈ rules, r.1 ≠ [] ∧ r.1.map tolower = r.1) (hw : w ≠ []) :
    (treeLexicon null (treeBuild rules)).pre w ↔ ∃ r ∈ rules, w.map tolower <+: r.1 := by
  simp only [treeLexicon, look_null, Option.isSome_none, Bool.or_false]
  rw [look_treeBuild hrules hw]
  split_ifs with h
  · exact iff_of_true rfl h
  · exact iff_of_false Bool.false_ne_true h

theorem treeReplacement_treeBuild (hrules : ∀ r ∈ rules, r.1 ≠ [] ∧ r.1.map tolower = r.1) (hw : w ≠ []) :
    treeReplacement null (treeBuild rules) w = (firstAdapted rules w).getD [] := by
  rw [treeReplacement, look_null, Option.join_none, Option.or_none, join_look_treeBuild hrules hw]

end Alone

namespace RenameFile
variable (F : RenameFile)

/-! ## The two trees of a file -/

/-- What the lines put into the tree for the clients. -/
def fromRules : List (List UInt8 × Option (List UInt8)) :=
  F.lines.map fun l => (l.left, some (F.victim l))

/-- What they put into the tree for the servers. -/
def toRules : List (List UInt8 × Option (List UInt8)) :=
  F.lines.map fun l => (F.victim l, some l.left)

theorem takeWhile_name {w : List UInt8} (rest : List UInt8) (hw : 32 ∉ w) :
    (w ++ 32 :: rest).takeWhile (· ≠ 32) = w ∧ (w ++ 32 :: rest).dropWhile (· ≠ 32) = 32 :: rest := by
  have hall : ∀ b ∈ w, decide (b ≠ 32) = true := by
    intro b hb
    exact decide_eq_true fun h => hw (h ▸ hb)
  rw [List.takeWhile_append_of_pos hall, List.dropWhile_append_of_pos hall]
  exact ⟨by simp, by simp⟩

theorem renameDomain_params (db : Database) (l : RenameLine) : renameDomain db l.params =
    { db with
      toServer := treeInsert db.toServer ((l.right ++ db.suffix).take (maxStr - 1)) (some l.left)
      fromServer := treeInsert db.fromServer l.left
        (some ((l.right ++ db.suffix).take (maxStr - 1))) } := by
  obtain ⟨htake, hdrop⟩ := takeWhile_name l.right l.left_isName.2.2.2.1
  have hright : l.right.takeWhile (· ≠ 32) = l.right := by
    rw [List.takeWhile_eq_self_iff]
    intro b hb
    exact decide_eq_true fun h => l.right_isName.2.2.2.1 (h ▸ hb)
  rw [renameDomain, RenameLine.params, htake, hdrop]
  dsimp only
  rw [hright]

theorem database_eq : F.database = ⟨F.suffix, null, treeBuild F.toRules, treeBuild F.fromRules⟩ := by
  have main : ∀ lines : List RenameLine,
      (lines.map RenameLine.params).foldl renameDomain ⟨F.suffix, null, null, null⟩ =
        ⟨F.suffix, null, treeBuild (lines.map fun l => (F.victim l, some l.left)),
          treeBuild (lines.map fun l => (l.left, some (F.victim l)))⟩ := by
    intro lines
    induction lines using List.reverseRecOn with
    | nil => rfl
    | append_singleton lines l ih =>
        rw [List.map_append, List.foldl_append, ih, List.map_append, List.map_append]
        simp only [List.map_cons, List.map_nil, List.foldl_cons, List.foldl_nil, treeBuild_append]
        exact renameDomain_params _ l
  exact main F.lines

theorem fromRules_proper : ∀ r ∈ F.fromRules, r.1 ≠ [] ∧ r.1.map tolower = r.1 := by
  intro r hr
  obtain ⟨l, -, rfl⟩ := List.mem_map.mp hr
  exact ⟨l.left_isName.1, l.left_isName.2.1⟩

variable {F}

theorem zero_notMem_victim (l : RenameLine) : 0 ∉ F.victim l := by
  intro h
  rcases List.mem_append.mp (List.mem_of_mem_take h) with h | h
  · exact l.right_isName.2.2.1 h
  · exact F.suffix_isString h

theorem slash_notMem_victim (l : RenameLine) : 47 ∉ F.victim l := by
  intro h
  rcases List.mem_append.mp (List.mem_of_mem_take h) with h | h
  · exact l.right_isName.2.2.2.2 h
  · exact F.slash_notMem h

theorem Separable.victim_lower (D : F.Separable) (l : RenameLine) :
    (F.victim l).map tolower = F.victim l := by
  rw [victim, List.map_take, List.map_append, l.right_isName.2.1, D.suffix_lower]

theorem Separable.toRules_proper (D : F.Separable) :
    ∀ r ∈ F.toRules, r.1 ≠ [] ∧ r.1.map tolower = r.1 := by
  intro r hr
  obtain ⟨l, hl, rfl⟩ := List.mem_map.mp hr
  have hpos : 0 < (F.victim l).length := Nat.lt_of_lt_of_le Nat.zero_lt_two (D.two_le l hl)
  exact ⟨List.ne_nil_of_length_pos hpos, D.victim_lower l⟩

/-- A name is rewritten for the clients to the name of its line. -/
theorem replacement_left {l : RenameLine} (hl : l ∈ F.lines) :
    treeReplacement null F.database.fromServer l.left = F.victim l := by
  have hfirst : firstAdapted F.fromRules l.left = some (F.victim l) :=
    firstAdapted_map hl (fun l' hl' h => List.inj_on_of_nodup_map F.left_nodup hl' hl h)
      l.left_isName.2.1 (zero_notMem_victim l)
  rw [database_eq, treeReplacement_treeBuild F.fromRules_proper l.left_isName.1, hfirst]
  rfl

/-- And the name of the line is rewritten back to it. -/
theorem Separable.replacement_victim (D : F.Separable) {l : RenameLine} (hl : l ∈ F.lines) :
    treeReplacement null F.database.toServer (F.victim l) = l.left := by
  have hfirst : firstAdapted F.toRules (F.victim l) = some l.left :=
    firstAdapted_map hl (fun l' hl' h => List.inj_on_of_nodup_map D.nodup hl' hl h)
      (D.victim_lower l) l.left_isName.2.2.1
  have hne := (D.toRules_proper _ (List.mem_map_of_mem hl)).1
  rw [database_eq, treeReplacement_treeBuild D.toRules_proper hne, hfirst]
  rfl

/-- A key that is found in a text for the clients is the name of a line. -/
theorem exists_left_of_key {w : List UInt8} (hlow : w.map tolower = w)
    (hkey : (treeLexicon null F.database.fromServer).key w) : ∃ l ∈ F.lines, l.left = w := by
  rw [database_eq, treeLexicon_key_iff F.fromRules_proper, hlow] at hkey
  obtain ⟨-, r, hr, hw⟩ := hkey
  obtain ⟨l, hl, rfl⟩ := List.mem_map.mp hr
  exact ⟨l, hl, hw⟩

theorem Separable.occurs_iff (D : F.Separable) {u : List UInt8} {b e : ℕ} :
    Occurs (treeLexicon null F.database.toServer) (u.map tolower) b e ↔ F.VictimAt u b e := by
  rw [Occurs, database_eq, treeLexicon_key_iff D.toRules_proper, List.length_map, slice_map,
    map_tolower_tolower, VictimAt]
  refine and_congr_right fun hbe => and_congr_right fun he => ?_
  constructor
  · rintro ⟨-, r, hr, hw⟩
    obtain ⟨l, hl, rfl⟩ := List.mem_map.mp hr
    exact ⟨l, hl, hw.symm⟩
  · rintro ⟨l, hl, hw⟩
    refine ⟨?_, (F.victim l, some l.left), List.mem_map_of_mem hl, hw.symm⟩
    rw [hw]
    exact D.two_le l hl

variable {h g : List UInt8}

/-- Nothing that began before lives on after a name for the clients. -/
theorem Separable.settled (D : F.Separable) (T : F.Traceable h g) :
    Settled (treeLexicon null F.database.toServer) ((g ++ [47]).map tolower) := by
  intro b e hocc
  have hat := D.occurs_iff.mp hocc
  obtain ⟨hbe, he, l, hl, hvictim⟩ := hat
  have hlt : e < (g ++ [47]).length := by
    refine Nat.lt_of_le_of_ne he ?_
    -- a name that reaches the end has the slash in it
    intro hend
    have hslash : (47 : UInt8) ∈ slice (g ++ [47]) b e := by
      rw [slice, hend, List.take_length, List.drop_append_of_le_length]
      · exact List.mem_append_right _ List.mem_cons_self
      · rw [List.length_append, List.length_singleton] at hend
        omega
    have hmem := List.mem_map_of_mem (f := tolower) hslash
    rw [hvictim] at hmem
    exact slash_notMem_victim l hmem
  refine ⟨by rwa [List.length_map], ?_⟩
  intro b' hb' hpre
  have hne : slice ((g ++ [47]).map tolower) b' (e + 1) ≠ [] :=
    slice_ne_nil (by omega) (by rw [List.length_map]; omega)
  rw [database_eq, treeLexicon_pre_iff D.toRules_proper hne, slice_map, map_tolower_tolower] at hpre
  obtain ⟨r, hr, hprefix⟩ := hpre
  obtain ⟨l', hl', rfl⟩ := List.mem_map.mp hr
  exact T.stops b e (D.occurs_iff.mp hocc) b' hb' l' hl' hprefix

end RenameFile

open RenameFile

/-- **Names come back.** Where it can be told what was put into the text for the clients,
rewriting it for the server gives the first text up to letter case, and a text in lowercase as
it was. -/
theorem roundTrip (F : RenameFile) (D : F.Separable) {h g : List UInt8}
    (hg : rewrite (databaseInstanceCreate F.database true) (h ++ [47]) = .ok (g ++ [47]))
    (T : F.Traceable h g) :
    ∃ back, rewrite (databaseInstanceCreate F.database false) (g ++ [47]) = .ok back ∧
      back.map tolower = (h ++ [47]).map tolower ∧ (h.map tolower = h → back = h ++ [47]) := by
  have hcreate : ∀ isVictim, databaseInstanceCreate F.database isVictim =
      create null (if isVictim then F.database.fromServer else F.database.toServer) := by
    intro isVictim
    rw [databaseInstanceCreate, F.database_eq]
  rw [hcreate, if_pos rfl, rewrite_create, Except.ok.injEq] at hg
  have hreads := emit_reads_iff.mpr T.cuts
  have hkeys : ∀ k, Piece.swap k ∈ emit (treeLexicon null F.database.fromServer) tolower (h ++ [47]) →
      (treeLexicon null F.database.toServer).key
        ((treeReplacement null F.database.fromServer k).map tolower) ∧
      treeReplacement null F.database.toServer
        ((treeReplacement null F.database.fromServer k).map tolower) = k := by
    intro k hk
    obtain ⟨b, e, hocc, rfl⟩ := occurs_of_swap_mem_emit hk
    obtain ⟨l, hl, hleft⟩ := exists_left_of_key (by rw [slice_map, map_tolower_tolower]) hocc.2.2
    rw [← hleft, replacement_left hl, D.victim_lower, D.replacement_victim hl]
    refine ⟨?_, rfl⟩
    rw [F.database_eq, treeLexicon_key_iff D.toRules_proper, D.victim_lower]
    exact ⟨D.two_le l hl, _, List.mem_map_of_mem hl, rfl⟩
  have hends : EndsPlaced (treeLexicon null F.database.toServer) tolower
      (treeReplacement null F.database.fromServer)
      (emit (treeLexicon null F.database.fromServer) tolower (h ++ [47])) := by
    intro b e hocc
    rw [hg] at hocc
    exact T.ends b e (D.occurs_iff.mp hocc)
  have hback := reference_render hkeys hends
  rw [hg, ← (D.settled T).emit_eq_reference] at hback
  refine ⟨_, ?_, map_render_id tolower_tolower hreads, ?_⟩
  · rw [hcreate, if_neg Bool.false_ne_true, rewrite_create, hback]
  · intro hlow
    apply render_id_eq hreads
    rw [List.map_append, hlow]
    rfl

/-! ## A name and its subdomains -/

/-- A name, and with its dot the form that names under it end in. -/
def iopFile : RenameFile where
  suffix := chars ".p"
  lines := [⟨chars "iop.org", chars "iop-org", by decide, by decide⟩,
    ⟨chars ".iop.org", chars "-iop-org", by decide, by decide⟩]
  suffix_isString := by decide
  slash_notMem := by decide
  left_nodup := by decide
  right_nodup := by decide

theorem traceable_iopFile : iopFile.Traceable (chars "x.iop.org") (chars "x-iop-org.p") where
  cuts := by
    have hemit : emit (treeLexicon null iopFile.database.fromServer) tolower
        (chars "x.iop.org" ++ [47]) = [.copy 120, .swap (chars ".iop.org"), .copy 47] := by
      decide +kernel
    rw [← emit_reads_iff, hemit]
    exact ⟨_, rfl, chars ".iop.org", [47], rfl, rfl, [], rfl, rfl⟩
  ends := by
    have hall : ∀ e ≤ 12, ∀ b < e, iopFile.VictimAt (chars "x-iop-org.p" ++ [47]) b e →
        1 ≤ b ∧ e = 11 := by decide +kernel
    intro b e hat
    obtain ⟨hb, rfl⟩ := hall e hat.2.1 b hat.1 hat
    refine ⟨1, hb, [.copy 120], chars ".iop.org", [.copy 47], ?_, ?_, ?_⟩ <;> decide +kernel
  stops := by
    have hall : ∀ e ≤ 12, ∀ b < e, iopFile.VictimAt (chars "x-iop-org.p" ++ [47]) b e →
        ∀ b' < e, ∀ l ∈ iopFile.lines,
          ¬ (slice (chars "x-iop-org.p" ++ [47]) b' (e + 1)).map tolower <+: iopFile.victim l := by
      decide +kernel
    intro b e hat
    exact hall e hat.2.1 b hat.1 hat

/-- The name `x.iop.org` comes back. -/
theorem roundTrip_iopFile : ∃ back,
    rewrite (databaseInstanceCreate iopFile.database false) (chars "x-iop-org.p" ++ [47]) = .ok back ∧
      back.map tolower = (chars "x.iop.org" ++ [47]).map tolower ∧
      ((chars "x.iop.org").map tolower = chars "x.iop.org" → back = chars "x.iop.org" ++ [47]) :=
  roundTrip iopFile ⟨by decide, by decide, by decide⟩ rfl traceable_iopFile

/-- The characters of host names. -/
def IsHostChar (c : UInt8) : Prop :=
  (97 ≤ c ∧ c ≤ 122) ∨ (65 ≤ c ∧ c ≤ 90) ∨ (48 ≤ c ∧ c ≤ 57) ∨ c = 45 ∨ c = 46

instance (c : UInt8) : Decidable (IsHostChar c) := inferInstanceAs (Decidable (_ ∨ _))

/-- The host `x-iop.org` comes back as `x.iop.org`: in `x-iop-org.p` the rule for the name
under `iop.org` has the longer key. -/
theorem not_roundTrip_iopFile : ¬ ∀ (F : RenameFile) (h g : List UInt8), (∀ c ∈ h, IsHostChar c) →
    rewrite (databaseInstanceCreate F.database true) (h ++ [47]) = .ok (g ++ [47]) → g ≠ h →
    rewrite (databaseInstanceCreate F.database false) (g ++ [47]) = .ok (h ++ [47]) := by
  intro hall
  have hback := hall iopFile (chars "x-iop.org") (chars "x-iop-org.p") (by decide +kernel) rfl
    (by decide)
  have hcomputed : rewrite (databaseInstanceCreate iopFile.database false)
      (chars "x-iop-org.p" ++ [47]) = .ok (chars "x.iop.org" ++ [47]) := by rfl
  rw [hcomputed] at hback
  exact absurd (Except.ok.inj hback) (by decide)

end RenaProxy
