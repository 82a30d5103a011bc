import RenaProxy.Rewriter

/-!
# Replacements and link zones

With the full-link parser the matcher sees only the bytes of link zones and stands still
in between. Keys without blanks and backslashes cannot go on past the end of a zone, but
the letter of an escaped blank still counts as allowed and may start a key.
`staysInZones_iff` says that this is the only way for a candidate to outlive its zone.
-/
namespace RenaProxy
open StreamTransducer DatabaseObject TreeNode FullLinkStage

/-- A byte that no key may contain: a blank or a backslash. -/
def Breaks (b : UInt8) : Prop := b ∈ blanks ∨ b = backslash

instance : DecidablePred Breaks := fun _ => inferInstanceAs (Decidable (_ ∨ _))

/-- No node of the tree stands for such a byte. -/
def Unbroken : TreeNode → Prop
  | null => True
  | node v c s _ => ¬ Breaks v ∧ Unbroken c ∧ Unbroken s

section Unbroken
variable {t : TreeNode} {b x : UInt8}

theorem tolower_of_breaks (hx : Breaks x) : tolower x = x := by
  simp only [Breaks, blanks, backslash, List.mem_cons, List.not_mem_nil, or_false] at hx
  rcases hx with (rfl | rfl | rfl | rfl | rfl | rfl) | rfl <;> rfl

theorem unbroken_getSibling (h : Unbroken t) : Unbroken (treeGetSibling t x) := by
  induction t with
  | null => exact h
  | node v c s a _ ih =>
      rw [treeGetSibling]
      split_ifs
      · exact h
      · exact ih h.2.2
      · trivial

theorem unbroken_getChild (h : Unbroken t) : Unbroken (treeGetChild t x) := by
  cases t with
  | null => exact h
  | node v c s a => exact unbroken_getSibling h.2.1

theorem getSibling_of_breaks (h : Unbroken t) (hx : Breaks x) : treeGetSibling t x = null := by
  induction t with
  | null => rfl
  | node v c s a _ ih =>
      rw [treeGetSibling, tolower_of_breaks hx]
      split_ifs with hle hv
      · exact absurd (hv ▸ hx) h.1
      · exact ih h.2.2
      · rfl

theorem getChild_of_breaks (h : Unbroken t) (hx : Breaks x) : treeGetChild t x = null := by
  cases t with
  | null => rfl
  | node v c s a => exact getSibling_of_breaks h.2.1 hx

private theorem unbroken_addSibling {use : TreeNode → TreeNode}
    (huse : ∀ v c s a, ¬ Breaks v → Unbroken c → Unbroken s → Unbroken (use (node v c s a)))
    (h : Unbroken t) (hb : ¬ Breaks b) :
    Unbroken (treeAddSibling use t b).1 ∧ Unbroken (treeAddSibling use t b).2 := by
  induction t with
  | null =>
      have := huse b null null none hb trivial trivial
      exact ⟨this, this⟩
  | node v c s a _ ih =>
      obtain ⟨hv, hc, hs⟩ := h
      rw [treeAddSibling]
      split_ifs
      · have := huse v c s a hv hc hs
        exact ⟨this, this⟩
      · exact ⟨⟨hv, hc, (ih hs).1⟩, (ih hs).2⟩
      · have := huse b null (node v c s a) none hb trivial ⟨hv, hc, hs⟩
        exact ⟨this, this⟩

private theorem unbroken_insertFrom (adapted : Option (List UInt8)) {bs : List UInt8}
    (hbs : ∀ b ∈ bs, ¬ Breaks b) {v : UInt8} {c s : TreeNode} {a : Option (List UInt8)}
    (hv : ¬ Breaks v) (hc : Unbroken c) (hs : Unbroken s) :
    Unbroken (treeInsertFrom adapted bs (node v c s a)) := by
  rw [treeInsertFrom_node]
  refine ⟨hv, ?_, hs⟩
  induction bs generalizing c v a s with
  | nil => exact hc
  | cons b bs ih =>
      have hbs' : ∀ b ∈ bs, ¬ Breaks b := fun b hb => hbs b (List.mem_cons_of_mem _ hb)
      refine (unbroken_addSibling (fun v c s a hv hc hs => ?_) hc (hbs b List.mem_cons_self)).1
      rw [treeInsertFrom_node]
      exact ⟨hv, ih hbs' hv hc hs, hs⟩

/-- A tree built from keys without such bytes has no node for one. -/
theorem unbroken_treeBuild {rules : List (List UInt8 × Option (List UInt8))}
    (h : ∀ r ∈ rules, ∀ b ∈ r.1, ¬ Breaks b) : Unbroken (treeBuild rules) := by
  induction rules using List.reverseRecOn with
  | nil => trivial
  | append_singleton rules r ih =>
      rw [treeBuild_append]
      have hr := h r (by simp)
      have hhead : ¬ Breaks (r.1.headD 0) := by
        cases hk : r.1 with
        | nil => decide
        | cons b bs => exact hr b (by simp [hk])
      have htail : ∀ b ∈ r.1.tail, ¬ Breaks b := fun b hb => hr b (List.mem_of_mem_tail hb)
      have := unbroken_addSibling (fun _ _ _ _ => unbroken_insertFrom r.2 htail)
        (ih fun r' hr' => h r' (by simp [hr'])) hhead
      rcases treeInsert_cases (treeBuild rules) r.1 r.2 with h | h <;> rw [h]
      · exact this.2
      · exact this.1

end Unbroken

/-! ## The zones of a text -/

/-- The stage of the parser after a text. -/
def stageAfter (t : List UInt8) : FullLinkStage := t.foldl (fun s b => (s.evaluate b).1) .unknown

/-- The parser's answer on the byte that follows a text. -/
def allowedAfter (t : List UInt8) (b : UInt8) : Bool := ((stageAfter t).evaluate b).2

theorem stageAfter_concat (t : List UInt8) (b : UInt8) :
    stageAfter (t ++ [b]) = ((stageAfter t).evaluate b).1 := by
  simp [stageAfter]

theorem allowedAfter_iff {t : List UInt8} {b : UInt8} :
    allowedAfter t b ↔ stageAfter t = allowed ∨ stageAfter t = allowedS := by
  rw [allowedAfter]
  cases stageAfter t <;> simp [evaluate]

/-- The letters that stand for a blank after a backslash. -/
def escapes : List UInt8 := chars "tvnrfTVNRF"

/-- The matcher of a connection with the full-link parser. -/
def linkMatcher (never side : TreeNode) : DatabaseObject Context :=
  { (create never side : DatabaseObject Context) with context := some .setFullLinkParser }

/-- What the parser forbids is out of reach. Whenever it forbids a byte no candidate is
alive, and what a replacement takes the place of are the last bytes read before it, all of
them allowed. -/
def StaysInZones (never side : TreeNode) (t : List UInt8) : Prop :=
  ∀ pre b post, t = pre ++ b :: post →
    ∃ d out d' r, run rewriteStep (linkMatcher never side) pre = .ok (d, out) ∧
      databaseStep d b = .ok (d', r) ∧
      (allowedAfter pre b = false → d'.list = []) ∧
      ∀ held o, r = .put held (some o) → ∃ piece, d.input = held ++ piece ∧ piece <:+ pre ∧
        ∀ x c y, pre = x ++ c :: y → y.length < piece.length → allowedAfter x c = true

/-- No key begins with a letter that ends a zone, an escaped blank with more to come. -/
def EscapesStartNothing (never side : TreeNode) (t : List UInt8) : Prop :=
  ∀ x c y, t = x ++ c :: y → y ≠ [] → stageAfter x = allowedS → c ∈ escapes →
    treeGetSibling side c = null ∧ treeGetSibling never c = null

/-! ## The matcher and the parser side by side -/

section Run
variable {never side : TreeNode} {pre : List UInt8} {b : UInt8} {d d' : DatabaseObject Context}
  {r : Reaction}

/-- The matcher of the connection after the text `pre`. -/
private structure Reading (never side : TreeNode) (pre : List UInt8) (d : DatabaseObject Context) :
    Prop where
  context : d.context = some (.fullLink (stageAfter pre))
  neverRules : d.neverRules = never
  sideRules : d.sideRules = side
  consistent : d.Consistent

private theorem reading_linkMatcher : Reading never side [] (linkMatcher never side) where
  context := rfl
  neverRules := rfl
  sideRules := rfl
  consistent := ⟨by simp [linkMatcher, create], le_rfl, by simp [linkMatcher, create]⟩

private theorem Reading.evaluateContext (R : Reading never side pre d) (b : UInt8) :
    d.evaluateContext b =
      ({ d with context := some (.fullLink (stageAfter (pre ++ [b]))) }, allowedAfter pre b) := by
  rw [DatabaseObject.evaluateContext, R.context, stageAfter_concat]
  rfl

/-- The parser stands where the text puts it, whatever the matcher does. -/
private theorem Reading.step (R : Reading never side pre d)
    (hok : databaseStep d b = .ok (d', r)) : Reading never side (pre ++ [b]) d' := by
  obtain ⟨d₁, r₁, hok₁, hcons⟩ := R.consistent.step d b
  obtain ⟨rfl, rfl⟩ := Prod.mk.inj (Except.ok.inj (hok.symm.trans hok₁))
  have hctx := R.evaluateContext b
  have hjudge : (d.judge b).1.context = some (.fullLink (stageAfter (pre ++ [b]))) ∧
      (d.judge b).1.neverRules = never ∧ (d.judge b).1.sideRules = side := by
    rw [judge, hctx]
    dsimp only
    split_ifs <;> simp [R.neverRules, R.sideRules]
  rcases d.databaseStep_cases b hok with ⟨-, rfl, -⟩ | ⟨-, rfl, -⟩ | ⟨n, o, -, -, rfl, -⟩ <;>
    exact ⟨hjudge.1, hjudge.2.1, hjudge.2.2, hcons⟩

/-- The list after a byte. -/
private theorem Reading.list_step (R : Reading never side pre d)
    (hok : databaseStep d b = .ok (d', r)) :
    d'.list = if allowedAfter pre b then
        d.started b ++ (({ d with
          context := some (.fullLink (stageAfter (pre ++ [b]))) } : DatabaseObject Context).listForeach
            b).list
      else d.list := by
  have hjudge : d'.list = (d.judge b).1.list := by
    rcases d.databaseStep_cases b hok with ⟨-, rfl, -⟩ | ⟨-, rfl, -⟩ | ⟨n, o, -, -, rfl, -⟩ <;> rfl
  rw [hjudge, list_judge, R.evaluateContext b]

theorem started_eq_nil (d : DatabaseObject Context) (b : UInt8) :
    d.started b = [] ↔
      treeGetSibling d.sideRules b = null ∧ treeGetSibling d.neverRules b = null := by
  cases hs : treeGetSibling d.sideRules b <;> cases hn : treeGetSibling d.neverRules b <;>
    simp [started, hs, hn, isNull]

/-- The bytes held are the last ones read and all allowed, and candidates live in zones
only. -/
private structure InZone (never side : TreeNode) (pre : List UInt8) (d : DatabaseObject Context) :
    Prop extends Reading never side pre d where
  unbroken : ∀ p ∈ d.list, Unbroken p.actual
  input : d.input <:+ pre
  allowed_input : ∀ x c y, pre = x ++ c :: y → y.length < d.input.length → allowedAfter x c = true
  list_eq_nil : stageAfter pre ≠ allowed → d.list = []

private theorem inZone_linkMatcher : InZone never side [] (linkMatcher never side) where
  toReading := reading_linkMatcher
  unbroken := by simp [linkMatcher, create]
  input := List.nil_suffix
  allowed_input := by simp
  list_eq_nil := fun _ => rfl

/-- Where the parser leaves the zone, or is about to, no candidate is left. -/
private theorem InZone.list_step_eq_nil (I : InZone never side pre d)
    (hnever : Unbroken never) (hside : Unbroken side)
    (hescape : stageAfter pre = allowedS → b ∈ escapes →
      treeGetSibling side b = null ∧ treeGetSibling never b = null)
    (hok : databaseStep d b = .ok (d', r)) (hstage : stageAfter (pre ++ [b]) ≠ allowed) :
    d'.list = [] := by
  have hlist := I.toReading.list_step hok
  rw [stageAfter_concat] at hstage
  by_cases hallow : allowedAfter pre b
  · rw [if_pos hallow, listForeach] at hlist
    rcases allowedAfter_iff.mp hallow with hpre | hpre
    · -- a plain delimiter or a backslash: no key goes on with it and none begins with it
      have hb : Breaks b := by
        rw [hpre, evaluate] at hstage
        by_contra hno
        obtain ⟨hblank, hback⟩ := not_or.mp hno
        simp [hblank, hback] at hstage
      have hstarted : d.started b = [] := by
        rw [started_eq_nil, I.sideRules, I.neverRules]
        exact ⟨getSibling_of_breaks hside hb, getSibling_of_breaks hnever hb⟩
      rw [hlist, hstarted, List.nil_append, List.eq_nil_iff_forall_not_mem]
      intro p hp
      obtain ⟨q, hq, hact, hnull⟩ := mem_listForeach _ b hp
      rw [hact, getChild_of_breaks (I.unbroken q hq) hb] at hnull
      exact hnull rfl
    · -- the letter of an escaped blank: the backslash before it left no candidate
      have hnil := I.list_eq_nil (by rw [hpre]; decide)
      have hb : b ∈ escapes := by
        rw [hpre, evaluate] at hstage
        by_contra hno
        exact hstage (if_neg hno)
      have hstarted : d.started b = [] := by
        rw [started_eq_nil, I.sideRules, I.neverRules]
        exact hescape hpre hb
      rw [hlist, hstarted, hnil]
      rfl
  · rw [if_neg hallow] at hlist
    rw [hlist]
    refine I.list_eq_nil fun hpre => hallow (allowedAfter_iff.mpr (.inl hpre))

private theorem InZone.step (I : InZone never side pre d)
    (hnever : Unbroken never) (hside : Unbroken side)
    (hescape : stageAfter pre = allowedS → b ∈ escapes →
      treeGetSibling side b = null ∧ treeGetSibling never b = null)
    (hok : databaseStep d b = .ok (d', r)) : InZone never side (pre ++ [b]) d' := by
  have hlist := I.toReading.list_step hok
  have hstarted : ∀ p ∈ d.started b, Unbroken p.actual := by
    intro p hp
    simp only [started, I.sideRules, I.neverRules, List.mem_map, List.mem_filter] at hp
    obtain ⟨t, ⟨⟨x, hx, rfl⟩, -⟩, rfl⟩ := hp
    rcases List.mem_pair.mp hx with rfl | rfl
    · exact unbroken_getSibling hside
    · exact unbroken_getSibling hnever
  -- what is held grows by the byte, or is the byte, or nothing
  have hinput : (d'.input = d.input ++ [b] ∧ allowedAfter pre b) ∨
      (d'.input = [b] ∧ allowedAfter pre b) ∨ d'.input = [] := by
    have hkeep := d.input_judge b
    by_cases hallow : allowedAfter pre b
    · rcases d.databaseStep_cases b hok with ⟨-, rfl, -⟩ | ⟨-, rfl, -⟩ | ⟨n, o, -, -, rfl, -⟩
      · exact .inl ⟨by rw [addInput, hkeep], hallow⟩
      · exact .inr (.inr rfl)
      · exact .inr (.inl ⟨rfl, hallow⟩)
    · have hnil : d.list = [] :=
        I.list_eq_nil fun hpre => hallow (allowedAfter_iff.mpr (.inl hpre))
      have hverdict : (d.judge b).2 = .release := by
        rw [judge, I.toReading.evaluateContext b]
        simp [hallow, hnil]
      rcases d.databaseStep_cases b hok with ⟨h, -⟩ | ⟨-, rfl, -⟩ | ⟨n, o, h, -⟩
      · rw [h] at hverdict
        cases hverdict
      · exact .inr (.inr rfl)
      · rw [h] at hverdict
        cases hverdict
  refine ⟨I.toReading.step hok, ?_, ?_, ?_, I.list_step_eq_nil hnever hside hescape hok⟩
  · rw [hlist]
    split_ifs
    · intro p hp
      rcases List.mem_append.mp hp with hp | hp
      · exact hstarted p hp
      · obtain ⟨q, hq, hact, -⟩ := mem_listForeach _ b hp
        rw [hact]
        exact unbroken_getChild (I.unbroken q hq)
    · exact I.unbroken
  · rcases hinput with ⟨h, -⟩ | ⟨h, -⟩ | h <;> rw [h]
    · exact (List.suffix_append_self_iff).mpr I.input
    · exact List.suffix_append _ _
    · exact List.nil_suffix
  · intro x c y hxy hlen
    rcases List.eq_nil_or_concat y with rfl | ⟨y, e, rfl⟩
    · obtain ⟨rfl, rfl⟩ : pre = x ∧ b = c := by simpa using hxy
      rcases hinput with ⟨-, h⟩ | ⟨-, h⟩ | h
      · exact h
      · exact h
      · simp [h] at hlen
    · rw [List.concat_eq_append, ← List.cons_append, ← List.append_assoc] at hxy
      obtain ⟨rfl, -⟩ := List.append_inj' hxy rfl
      rcases hinput with ⟨h, -⟩ | ⟨h, -⟩ | h
      · exact I.allowed_input x c y rfl (by simpa [h] using hlen)
      · simp [h] at hlen
      · simp [h] at hlen

/-- What one byte shows of a matcher whose candidates keep to their zones. -/
private theorem InZone.stays (I : InZone never side pre d) (hok : databaseStep d b = .ok (d', r)) :
    (allowedAfter pre b = false → d'.list = []) ∧
      ∀ held o, r = .put held (some o) → ∃ piece, d.input = held ++ piece ∧ piece <:+ pre ∧
        ∀ x c y, pre = x ++ c :: y → y.length < piece.length → allowedAfter x c = true := by
  constructor
  · intro hforbid
    rw [I.toReading.list_step hok, if_neg (by simp [hforbid])]
    apply I.list_eq_nil
    intro hstage
    rw [allowedAfter_iff.mpr (.inl hstage)] at hforbid
    cases hforbid
  · intro held o hr
    rcases d.databaseStep_cases b hok with ⟨-, -, rfl⟩ | ⟨-, -, rfl⟩ | ⟨n, o', -, hn, -, rfl⟩
    · cases hr
    · cases hr
    · obtain ⟨rfl, -⟩ := Reaction.put.inj hr
      refine ⟨d.input.drop (d.input.length - n), (List.take_append_drop _ _).symm,
        (List.drop_suffix _ _).trans I.input, ?_⟩
      intro x c y hpre hlen
      rw [List.length_drop] at hlen
      exact I.allowed_input x c y hpre (by omega)

/-- The matcher after a text whose escapes start nothing. -/
private theorem exists_inZone (hnever : Unbroken never) (hside : Unbroken side) {t : List UInt8}
    (hescape : ∀ x c y, t = x ++ c :: y → stageAfter x = allowedS → c ∈ escapes →
      treeGetSibling side c = null ∧ treeGetSibling never c = null) :
    ∃ d out, run rewriteStep (linkMatcher never side) t = .ok (d, out) ∧ InZone never side t d := by
  induction t using List.reverseRecOn with
  | nil => exact ⟨_, _, rfl, inZone_linkMatcher⟩
  | append_singleton t b ih =>
      obtain ⟨d, out, hrun, I⟩ := ih fun x c y h => hescape x c (y ++ [b]) (by simp [h])
      obtain ⟨d', r, hok, -⟩ := I.consistent.step d b
      have hstep : rewriteStep d b = .ok (d', r.text) := by
        simp [rewriteStep, hok, bind, Except.bind, pure, Except.pure]
      exact ⟨d', _, run_append_of_ok hrun (run_singleton_of_ok hstep),
        I.step hnever hside (hescape t b [] rfl) hok⟩

/-- The matcher after any text. -/
private theorem exists_reading (t : List UInt8) :
    ∃ d out, run rewriteStep (linkMatcher never side) t = .ok (d, out) ∧ Reading never side t d := by
  induction t using List.reverseRecOn with
  | nil => exact ⟨_, _, rfl, reading_linkMatcher⟩
  | append_singleton t b ih =>
      obtain ⟨d, out, hrun, R⟩ := ih
      obtain ⟨d', r, hok, -⟩ := R.consistent.step d b
      have hstep : rewriteStep d b = .ok (d', r.text) := by
        simp [rewriteStep, hok, bind, Except.bind, pure, Except.pure]
      exact ⟨d', _, run_append_of_ok hrun (run_singleton_of_ok hstep), R.step hok⟩

end Run

/-- **What lets a replacement out of its zone.** With keys free of blanks and backslashes a
text keeps to its link zones exactly when no key begins with the letter of an escaped
blank that ends a zone and is not the last byte. -/
theorem staysInZones_iff (neverRules sideRules : List (List UInt8 × Option (List UInt8)))
    (hnever : ∀ r ∈ neverRules, ∀ b ∈ r.1, ¬ Breaks b)
    (hside : ∀ r ∈ sideRules, ∀ b ∈ r.1, ¬ Breaks b) (t : List UInt8) :
    StaysInZones (treeBuild neverRules) (treeBuild sideRules) t ↔
      EscapesStartNothing (treeBuild neverRules) (treeBuild sideRules) t := by
  have hnever := unbroken_treeBuild hnever
  have hside := unbroken_treeBuild hside
  constructor
  · intro h x c y ht hy hstage hc
    obtain ⟨b, post, rfl⟩ := List.exists_cons_of_ne_nil hy
    obtain ⟨d, out, d', r, hrun, hok, hforbid, -⟩ := h (x ++ [c]) b post (by simp [ht])
    obtain ⟨d₀, out₀, hrun₀, R⟩ : ∃ d out, run rewriteStep
        (linkMatcher (treeBuild neverRules) (treeBuild sideRules)) x = .ok (d, out) ∧
        Reading (treeBuild neverRules) (treeBuild sideRules) x d := exists_reading x
    obtain ⟨d₁, r₁, hok₁, -⟩ := R.consistent.step d₀ c
    have hstep : rewriteStep d₀ c = .ok (d₁, r₁.text) := by
      simp [rewriteStep, hok₁, bind, Except.bind, pure, Except.pure]
    have hrun₁ := run_append_of_ok hrun₀ (run_singleton_of_ok hstep)
    obtain ⟨rfl, -⟩ := Prod.mk.inj (Except.ok.inj (hrun.symm.trans hrun₁))
    -- the letter leaves the zone, so the next byte is forbidden and finds what it started
    have hstage₁ : stageAfter (x ++ [c]) = .none := by
      rw [stageAfter_concat, hstage, evaluate]
      exact if_pos hc
    have hforbidden : allowedAfter (x ++ [c]) b = false := by
      rw [allowedAfter, hstage₁]
      rfl
    have hlist := hforbid hforbidden
    rw [(R.step hok₁).list_step hok, if_neg (by simp [hforbidden]), R.list_step hok₁,
      if_pos (allowedAfter_iff.mpr (.inr hstage)), List.append_eq_nil_iff, started_eq_nil,
      R.sideRules, R.neverRules] at hlist
    exact hlist.1
  · intro h pre b post ht
    obtain ⟨d, out, hrun, I⟩ := exists_inZone hnever hside (t := pre) fun x c y hpre =>
      h x c (y ++ b :: post) (by simp [ht, hpre]) (by simp)
    obtain ⟨d', r, hok, -⟩ := I.consistent.step d b
    exact ⟨d, out, d', r, hrun, hok, I.stays hok⟩

/-- A rule for the word `tx`. -/
def wordRule : List (List UInt8 × Option (List UInt8)) := [(chars "tx", some (chars "R"))]

/-- In `//tx ` the word is replaced. -/
theorem staysInZones_iff_tx :
    StaysInZones (treeBuild []) (treeBuild wordRule) (chars "//tx ") ↔
      EscapesStartNothing (treeBuild []) (treeBuild wordRule) (chars "//tx ") :=
  staysInZones_iff [] wordRule (by decide) (by decide +kernel) (chars "//tx ")

/-- In the text `//\t //x.` the letter of the escaped tab starts the word, and the next zone
ends it: what gets replaced is `/x`, and the parser forbids that slash. -/
theorem not_staysInZones_escape :
    ¬ StaysInZones (treeBuild []) (treeBuild wordRule) (chars "//\\t //x.") := by
  intro h
  obtain ⟨d, out, d', r, hrun, hok, -, hput⟩ := h (chars "//\\t //x") 46 [] (by decide)
  have hcomputed : (run rewriteStep (linkMatcher (treeBuild []) (treeBuild wordRule))
        (chars "//\\t //x")).map (fun r => (r.1.input, (databaseStep r.1 46).map Prod.snd)) =
      .ok (chars "t //x", .ok (.put (chars "t /") (some (chars "R")))) := by rfl
  rw [hrun] at hcomputed
  obtain ⟨hinput, hstep⟩ := Prod.mk.inj (Except.ok.inj hcomputed)
  rw [hok] at hstep
  obtain ⟨piece, hpiece, -, hallowed⟩ := hput _ _ (Except.ok.inj hstep)
  obtain rfl : chars "/x" = piece := by
    rw [show d.input = chars "t /" ++ chars "/x" from hinput] at hpiece
    exact List.append_cancel_left hpiece
  exact absurd (hallowed (chars "//\\t /") 47 (chars "x") (by decide) (by decide)) (by decide)

end RenaProxy
