import RenaProxy.Tree

/-!
# Rules with uppercase letters

`tree_get_sibling2` compares the lowercase of the character looked for, but
`tree_create_node` stores the character as it is. A node made for an uppercase letter is
therefore found by no query, and what is inserted below it is lost. `caseless_iff` says
which sequences of insertions never come to that.
-/
namespace RenaProxy
open TreeNode

variable {adapted : Option (List UInt8)}

/-- The insertions with all keys in lowercase. -/
def lowered (rules : List (List UInt8 × Option (List UInt8))) :
    List (List UInt8 × Option (List UInt8)) :=
  rules.map fun r => (r.1.map tolower, r.2)

/-- Every uppercase letter of `k` ends a beginning that an earlier key has too, up to
letter case. -/
def UpperCovered (earlier : List (List UInt8 × Option (List UInt8))) (k : List UInt8) : Prop :=
  ∀ j (hj : j < k.length), tolower k[j] ≠ k[j] →
    ∃ r ∈ earlier, (k.take (j + 1)).map tolower <+: r.1.map tolower

/-- Every beginning of `k` that ends with an uppercase letter is found. -/
private def UpperFound (root : TreeNode) (k : List UInt8) : Prop :=
  ∀ j (hj : j < k.length), tolower k[j] ≠ k[j] → look root (k.take (j + 1)) ≠ none

section Found
variable {t : TreeNode} {b : UInt8} {bs : List UInt8}

theorem look_of_getSibling_null (h : treeGetSibling t b = null) (q : List UInt8) :
    look t (b :: q) = none := by
  cases q with
  | nil => rw [look_singleton, h]; rfl
  | cons b' q => rw [look_cons_cons, h, nextChild, look_null]

private theorem upperFound_tail (h : UpperFound t (b :: bs)) :
    UpperFound (treeGetSibling t b).nextChild bs := by
  intro j hj hup
  obtain ⟨b', bs, rfl⟩ := List.exists_cons_of_ne_nil (List.ne_nil_of_length_pos (Nat.zero_lt_of_lt hj))
  have := h (j + 1) (by simpa using hj) (by simpa using hup)
  rwa [List.take_succ_cons, List.take_succ_cons, look_cons_cons, ← List.take_succ_cons] at this

/-- Where not even the first character is found, no letter may be an uppercase one. -/
private theorem lower_of_upperFound (h : UpperFound t (b :: bs)) (hnull : treeGetSibling t b = null) :
    (b :: bs).map tolower = b :: bs := by
  apply List.ext_getElem (by simp)
  intro j _ hj
  rw [List.getElem_map]
  by_contra hup
  exact h j hj hup (look_of_getSibling_null hnull _)

theorem treeAddSibling_congr {use use' : TreeNode → TreeNode}
    (hfound : treeGetSibling t b ≠ null → use (treeGetSibling t b) = use' (treeGetSibling t b))
    (hnew : treeGetSibling t b = null → use = use' ∧ tolower b = b) :
    treeAddSibling use t b = treeAddSibling use' t (tolower b) := by
  induction t with
  | null =>
      obtain ⟨rfl, hb⟩ := hnew rfl
      rw [hb]
  | node v c s a _ ih =>
      simp only [treeGetSibling] at hfound hnew
      simp only [treeAddSibling, tolower_tolower]
      by_cases hle : schar v ≤ schar (tolower b)
      · by_cases hv : v = tolower b
        · subst hv
          simp only [le_refl, if_true] at hfound ⊢
          rw [hfound (by simp)]
        · simp only [hle, hv, if_true, if_false] at hfound hnew ⊢
          rw [ih hfound hnew]
      · simp only [hle, if_false] at hnew ⊢
        obtain ⟨rfl, hb⟩ := hnew trivial
        rw [hb]

private theorem treeAddSibling_lower (h : UpperFound t (b :: bs)) :
    treeAddSibling (treeInsertFrom adapted bs) t b =
      treeAddSibling (treeInsertFrom adapted (bs.map tolower)) t (tolower b) := by
  induction bs generalizing t b with
  | nil =>
      refine treeAddSibling_congr (fun _ => rfl) fun hnull => ⟨rfl, ?_⟩
      simpa using lower_of_upperFound h hnull
  | cons b' bs ih =>
      refine treeAddSibling_congr (fun hfound => ?_) fun hnull => ?_
      · have htail := upperFound_tail h
        cases hn : treeGetSibling t b with
        | null => exact absurd hn hfound
        | node v c s a =>
            rw [hn, nextChild] at htail
            rw [treeInsertFrom_node, List.map_cons, treeInsertFrom_node, written, written, ih htail]
      · have hlow := lower_of_upperFound h hnull
        rw [List.map_cons, List.cons.injEq] at hlow
        exact ⟨by rw [hlow.2], hlow.1⟩

/-- An insertion whose uppercase letters are all found is that of the lowercase key. -/
private theorem treeInsert_lower {root : TreeNode} {k : List UInt8} (hk : k ≠ [])
    (h : UpperFound root k) : treeInsert root k adapted = treeInsert root (k.map tolower) adapted := by
  obtain ⟨b, bs, rfl⟩ := List.exists_cons_of_ne_nil hk
  rw [treeInsert, treeInsert]
  simp only [List.tail_cons, List.headD_cons, List.map_cons, treeAddSibling_lower h]

end Found

/-! ## What is lost -/

section Lost
variable {t : TreeNode} {b : UInt8} {bs : List UInt8}

variable (adapted) in
/-- The node made for an uppercase letter is not found, whichever node of the chain the
search starts at. -/
private theorem getSibling_addSibling_upper (hup : tolower b ≠ b) (hnull : treeGetSibling t b = null)
    (bs : List UInt8) :
    treeGetSibling (treeAddSibling (treeInsertFrom adapted bs) t b).1 b = null ∧
      treeGetSibling (treeAddSibling (treeInsertFrom adapted bs) t b).2 b = null := by
  induction t with
  | null =>
      simp only [treeAddSibling, treeCreateNode, treeInsertFrom_node, treeGetSibling, and_self]
      simp [Ne.symm hup]
  | node v c s a _ ih =>
      rw [treeGetSibling] at hnull
      simp only [treeAddSibling]
      by_cases hle : schar v ≤ schar (tolower b)
      · by_cases hv : v = tolower b
        · simp [hv] at hnull
        · simp only [hle, hv, if_true, if_false] at hnull ⊢
          refine ⟨?_, (ih hnull).2⟩
          simp only [treeGetSibling, hle, hv, if_true, if_false]
          exact (ih hnull).1
      · simp only [hle, if_false, treeInsertFrom_node, treeGetSibling, and_self]
        simp [Ne.symm hup]

variable (adapted) in
/-- Otherwise the node is the one for the lowercase letter. -/
private theorem treeAddSibling_tolower (hb : tolower b = b ∨ treeGetSibling t b ≠ null)
    (bs : List UInt8) : treeAddSibling (treeInsertFrom adapted bs) t b =
      treeAddSibling (treeInsertFrom adapted bs) t (tolower b) := by
  rcases hb with hb | hb
  · rw [hb]
  · exact treeAddSibling_congr (fun _ => rfl) fun hnull => absurd hnull hb

private theorem view_addSibling (hb : tolower b = b ∨ treeGetSibling t b ≠ null) (bs : List UInt8) :
    (treeGetSibling (treeAddSibling (treeInsertFrom adapted bs) t b).1 b).view =
      some (written adapted bs ((treeGetSibling t b).view.getD (null, none))) := by
  rw [treeAddSibling_tolower adapted hb,
    view_getSibling_addSibling adapted bs (tolower_tolower b) t b, if_pos rfl]

private theorem look_addSibling_of_lost (h : ¬ UpperFound t (b :: bs)) :
    look (treeAddSibling (treeInsertFrom adapted bs) t b).1 (b :: bs) = none := by
  induction bs generalizing t b with
  | nil =>
      simp only [UpperFound, not_forall, not_not] at h
      obtain ⟨j, hj, hup, hnone⟩ := h
      obtain rfl : j = 0 := by simpa using hj
      rw [List.take_succ_cons, List.take_zero, look_singleton, Option.map_eq_none_iff] at hnone
      have hnull : treeGetSibling t b = null := by
        cases hn : treeGetSibling t b with
        | null => rfl
        | node => simp [hn, view] at hnone
      exact look_of_getSibling_null (getSibling_addSibling_upper adapted hup hnull _).1 _
  | cons b' bs ih =>
      by_cases hb : tolower b = b ∨ treeGetSibling t b ≠ null
      · rw [look_cons_cons, nextChild_eq_view, view_addSibling hb]
        refine ih fun htail => h ?_
        -- the letter that is lost is not the first one
        rintro (_ | j) hj hup
        · rw [List.take_succ_cons, List.take_zero, look_singleton]
          rcases hb with hb | hb
          · exact absurd hb hup
          · cases hn : treeGetSibling t b with
            | null => exact absurd hn hb
            | node => simp [view]
        · have := htail j (by simpa using hj) (by simpa using hup)
          rw [List.take_succ_cons, List.take_succ_cons, look_cons_cons, ← List.take_succ_cons]
          cases hn : treeGetSibling t b <;> simpa [hn, view, nextChild] using this
      · obtain ⟨hup, hnull⟩ := not_or.mp hb
        exact look_of_getSibling_null
          (getSibling_addSibling_upper adapted hup (not_not.mp hnull) _).1 _

/-- A key with an uppercase letter that is not found is lost. -/
private theorem look_treeInsert_of_lost {root : TreeNode} {k : List UInt8} (hk : k ≠ [])
    (h : ¬ UpperFound root k) : look (treeInsert root k adapted) k = none := by
  obtain ⟨b, bs, rfl⟩ := List.exists_cons_of_ne_nil hk
  by_cases hb : tolower b = b ∨ treeGetSibling root b ≠ null
  · have hlow := treeAddSibling_tolower adapted hb bs
    have hroot : treeInsert root (b :: bs) adapted = treeInsert root (tolower b :: bs) adapted := by
      rw [treeInsert, treeInsert]
      simp only [List.tail_cons, List.headD_cons, hlow]
      rfl
    rw [hroot, treeInsert_eq (tolower_tolower b), ← hlow]
    exact look_addSibling_of_lost h
  · obtain ⟨hup, hnull⟩ := not_or.mp hb
    have hlost := getSibling_addSibling_upper adapted hup (not_not.mp hnull) bs
    rcases treeInsert_cases root (b :: bs) adapted with hroot | hroot <;> rw [hroot]
    · exact look_of_getSibling_null hlost.2 _
    · exact look_of_getSibling_null hlost.1 _

end Lost

/-! ## Sequences of insertions -/

private theorem lowered_keys {rules : List (List UInt8 × Option (List UInt8))}
    (hne : ∀ r ∈ rules, r.1 ≠ []) : ∀ r ∈ lowered rules, r.1 ≠ [] ∧ r.1.map tolower = r.1 := by
  intro r hr
  obtain ⟨r', hr', rfl⟩ := List.mem_map.mp hr
  exact ⟨by simpa using hne r' hr', map_tolower_tolower r'.1⟩

private theorem treeBuild_lowered {rules : List (List UInt8 × Option (List UInt8))}
    (hne : ∀ r ∈ rules, r.1 ≠ [])
    (h : ∀ earlier r, earlier ++ [r] <+: rules → UpperCovered earlier r.1) :
    treeBuild rules = treeBuild (lowered rules) := by
  induction rules using List.reverseRecOn with
  | nil => rfl
  | append_singleton rules r ih =>
      have heq := ih (fun r' hr' => hne r' (by simp [hr']))
        fun earlier r' hr' => h earlier r' (hr'.trans (List.prefix_append _ _))
      have hfound : UpperFound (treeBuild rules) r.1 := by
        intro j hj hup
        obtain ⟨r', hr', hpre⟩ := h rules r (List.prefix_refl _) j hj hup
        have hq : r.1.take (j + 1) ≠ [] := List.ne_nil_of_length_pos (by simp; omega)
        rw [heq, look_treeBuild (lowered_keys fun r' hr' => hne r' (by simp [hr'])) hq, if_pos]
        · simp
        · exact ⟨_, List.mem_map_of_mem hr', hpre⟩
      rw [treeBuild_append, treeInsert_lower (hne r (by simp)) hfound, heq, lowered, lowered,
        List.map_append, List.map_singleton, treeBuild_append]

/-- **When letter case makes no difference.** After every insertion all queries are
answered as on the tree built from the lowercased keys, exactly if at every insertion each
uppercase letter of the key ends a beginning that an earlier key has too. -/
theorem caseless_iff (rules : List (List UInt8 × Option (List UInt8)))
    (hne : ∀ r ∈ rules, r.1 ≠ []) :
    (∀ rules', rules' <+: rules → ∀ q,
      look (treeBuild rules') q = look (treeBuild (lowered rules')) q) ↔
    ∀ earlier r, earlier ++ [r] <+: rules → UpperCovered earlier r.1 := by
  constructor
  · intro h
    induction rules using List.reverseRecOn with
    | nil =>
        intro earlier r hpre
        simp at hpre
    | append_singleton rules r ih =>
        have hne' : ∀ r' ∈ rules, r'.1 ≠ [] := fun r' hr' => hne r' (by simp [hr'])
        have hrules := ih hne' fun rules' hpre => h rules' (hpre.trans (List.prefix_append _ _))
        intro earlier r' hpre
        rcases List.prefix_concat_iff.mp hpre with heq | hpre
        · obtain ⟨rfl, rfl⟩ : earlier = rules ∧ r' = r := by simpa using heq
          have htree := treeBuild_lowered hne' hrules
          have hr := hne r' (by simp)
          -- the key is found, so none of its letters was lost
          have hfound : UpperFound (treeBuild earlier) r'.1 := by
            by_contra hlost
            have hlook := h _ (List.prefix_refl _) r'.1
            rw [treeBuild_append, look_treeInsert_of_lost hr hlost,
              look_treeBuild (lowered_keys hne) hr, if_pos] at hlook
            · simp at hlook
            · exact ⟨(r'.1.map tolower, r'.2), by simp [lowered], List.prefix_refl _⟩
          intro j hj hup
          have hlook := hfound j hj hup
          have hq : r'.1.take (j + 1) ≠ [] := List.ne_nil_of_length_pos (by simp; omega)
          rw [htree, look_treeBuild (lowered_keys hne') hq] at hlook
          by_contra hno
          rw [if_neg] at hlook
          · exact hlook rfl
          · rintro ⟨_, hmem, hpre⟩
            obtain ⟨r₀, hr₀, rfl⟩ := List.mem_map.mp hmem
            exact hno ⟨r₀, hr₀, hpre⟩
        · exact hrules earlier r' hpre
  · intro h rules' hpre q
    rw [treeBuild_lowered (fun r hr => hne r (hpre.subset hr))
      fun earlier r hr => h earlier r (hr.trans hpre)]

/-- After `ab` the key `aB` comes to the same node. -/
theorem caseless_iff_abaB : UpperCovered [(chars "ab", some (chars "R"))] (chars "aB") ∧
    ∀ rules', rules' <+: [(chars "ab", some (chars "R")), (chars "aB", some (chars "S"))] →
      ∀ q, look (treeBuild rules') q = look (treeBuild (lowered rules')) q := by
  have hcovered : UpperCovered [(chars "ab", some (chars "R"))] (chars "aB") := by
    unfold UpperCovered
    decide
  refine ⟨hcovered, (caseless_iff _ (by decide)).mpr fun earlier r hpre => ?_⟩
  rw [show [(chars "ab", some (chars "R")), (chars "aB", some (chars "S"))] =
    [(chars "ab", some (chars "R"))] ++ [(chars "aB", some (chars "S"))] from rfl] at hpre
  rcases List.prefix_concat_iff.mp hpre with heq | hpre
  · obtain ⟨rfl, hr⟩ := List.append_inj' heq rfl
    obtain rfl : r = _ := List.head_eq_of_cons_eq hr
    exact hcovered
  · obtain ⟨rfl, rfl⟩ : earlier = [] ∧ r = (chars "ab", some (chars "R")) := by
      cases earlier with
      | nil => simpa [eq_comm] using hpre
      | cons r' earlier => simp at hpre
    unfold UpperCovered
    decide

/-- The key `Ab` is found by no query, and the key `Ca` hides the earlier key `bb`: its
node becomes the root although that of `b` stands before it. -/
theorem not_caseless_mixed :
    look (treeBuild [(chars "Ab", some (chars "R"))]) (chars "ab") ≠
        look (treeBuild (lowered [(chars "Ab", some (chars "R"))])) (chars "ab") ∧
      look (treeBuild [(chars "bb", some (chars "R"))]) (chars "bb") = some (some (chars "R")) ∧
      look (treeBuild [(chars "bb", some (chars "R")), (chars "Ca", some (chars "S"))])
        (chars "bb") = none := by
  decide

end RenaProxy
