import RenaProxy.Squid.RuleFiles

/-!
# What `search` yields

`search` gives up on a text that is shorter than the shortest pattern of the files. Patterns are
longer than what they match, by a backslash for each dot and by `$`, so a short name may be hidden:
`hidesNothing_iff` says when one is. Rules are tried from the heaviest pattern on, so that the rule of
a name comes before those of the names in it; but capitals weigh less than the small letters that
they match, and `triedBefore_iff` says when that upsets the order.
-/
namespace RenaProxy.Squid
open SequencePattern StableOrder

/-! ## Texts that are too short -/

/-- `search` yields, in the order of the list, the rules whose name occurs in the text. -/
def HidesNothing (lines : List Line) (kind : SearchBy) (text : List UInt8) : Prop :=
  let m := ProxyModel.traverse lines
  m.search (m.iter kind) text = (m.iter kind).filter fun e => e.Occurs text

instance (lines : List Line) (kind : SearchBy) (text : List UInt8) :
    Decidable (HidesNothing lines kind text) := inferInstanceAs (Decidable (_ = _))

section Hides
variable {lines : List Line} {kind : SearchBy} {text : List UInt8}

theorem filter_eq_filter_iff {α : Type} {p q : α → Bool} {l : List α} :
    l.filter p = l.filter q ↔ ∀ a ∈ l, p a = q a := by
  constructor
  · intro h a ha
    have hmem : a ∈ l.filter p ↔ a ∈ l.filter q := by rw [h]
    rw [Bool.eq_iff_iff]
    simpa only [List.mem_filter, ha, true_and] using hmem
  · exact List.filter_congr

theorem occurs_congr {e e' : Entry} (h : e.pattern = e'.pattern) : e.Occurs text ↔ e'.Occurs text := by
  obtain ⟨ref, pattern⟩ := e
  obtain ⟨ref', pattern'⟩ := e'
  obtain rfl : pattern = pattern' := h
  exact Iff.rfl

theorem beforeNewline_congr {e e' : Entry} (h : e.pattern = e'.pattern) :
    e.BeforeNewline text ↔ e'.BeforeNewline text := by
  simp only [Entry.BeforeNewline, Entry.atEnd, Entry.name, h]

/-- **No rule is hidden if and only if** the text is as long as some pattern of the files and no name
with `$` stands before a newline at its end, or it is shorter than all of them and no name occurs
in it. -/
theorem hidesNothing_iff (h : ∀ line ∈ lines, line.IsLiteral) : HidesNothing lines kind text ↔
    (LongEnough lines text → ∀ e ∈ rules kind lines, ¬ e.BeforeNewline text) ∧
      (¬ LongEnough lines text → ∀ e ∈ rules kind lines, ¬ e.Occurs text) := by
  have hmatch : ∀ e ∈ (ProxyModel.traverse lines).iter kind,
      (e.match.search text = decide (e.Occurs text) ↔ ¬ e.BeforeNewline text) := by
    intro e he
    obtain ⟨name, hname, hpattern⟩ := exists_name h (mem_iter_traverse he)
    have hiff : e.match.search text ↔ e.Occurs text ∨ e.BeforeNewline text :=
      search_iff_occurs hname hpattern
    have hnot : e.BeforeNewline text → ¬ e.Occurs text := not_occurs_of_beforeNewline hname hpattern
    rw [Bool.eq_iff_iff, hiff, decide_eq_true_iff]
    tauto
  rw [HidesNothing, search_traverse h]
  by_cases hlong : LongEnough lines text
  · simp only [hlong, if_true, true_imp_iff, not_true_eq_false, false_imp_iff, and_true]
    rw [filter_eq_filter_iff, ← forall_iter_traverse]
    · exact forall₂_congr hmatch
    · intro e e' heq
      rw [beforeNewline_congr heq]
      exact id
  · simp only [hlong, if_false, false_imp_iff, not_false_eq_true, true_imp_iff, true_and]
    rw [eq_comm, List.filter_eq_nil_iff, ← forall_iter_traverse]
    · simp only [decide_eq_true_eq]
    · intro e e' heq
      rw [occurs_congr heq]
      exact id

end Hides

/-- `bol.com.br$` for `bol`, and `www.bol.com.br` is long enough to be found. -/
theorem hidesNothing_iff_going : HidesNothing
    [.proxyDomainRename [98, 111, 108, 46, 99, 111, 109, 46, 98, 114, 36] [98, 111, 108]] .byGoing
    [119, 119, 119, 46, 98, 111, 108, 46, 99, 111, 109, 46, 98, 114] := by
  have hliteral : ∀ line ∈ [Line.proxyDomainRename
      [98, 111, 108, 46, 99, 111, 109, 46, 98, 114, 36] [98, 111, 108]], line.IsLiteral := by
    intro line hline
    rw [List.mem_singleton.mp hline]
    exact ⟨⟨[98, 111, 108, 46, 99, 111, 109, 46, 98, 114], ⟨by decide, by decide +kernel⟩, .inr rfl⟩,
      ⟨by decide, by decide +kernel⟩, by decide⟩
  exact (hidesNothing_iff hliteral).mpr (by decide +kernel)

/-- The alias `bol` is not found in `bol`, since the pattern `bol$` is longer. -/
theorem not_hidesNothing_bol : ¬ ∀ lines : List Line, (∀ line ∈ lines, line.IsLiteral) →
    ∀ kind text, HidesNothing lines kind text := by
  intro h
  have hhides := h [.proxyDomainRename [98, 111, 108, 46, 99, 111, 109, 46, 98, 114, 36] [98, 111, 108]]
    (by
      intro line hline
      rw [List.mem_singleton.mp hline]
      exact ⟨⟨[98, 111, 108, 46, 99, 111, 109, 46, 98, 114], ⟨by decide, by decide +kernel⟩, .inr rfl⟩,
        ⟨by decide, by decide +kernel⟩, by decide⟩)
    .byComing [98, 111, 108]
  exact absurd hhides (by decide +kernel)

/-! ## The order of the rules -/

/-- How heavy a pattern is. -/
def weight (pattern : List UInt8) : ℕ := pattern.length + (pattern.map UInt8.toNat).sum

/-- How many capitals a pattern has. -/
def capitals (pattern : List UInt8) : ℕ := pattern.countP fun c => 65 ≤ c ∧ c ≤ 90

/-- `search` yields one rule before another, which is then not the one that is applied. -/
def TriedBefore (lines : List Line) (kind : SearchBy) (text : List UInt8) (e₁ e₂ : Entry) : Prop :=
  let m := ProxyModel.traverse lines
  Precedes (m.search (m.iter kind) text) e₁ e₂ ∧ (m.search (m.iter kind) text).head? ≠ some e₂

instance (lines : List Line) (kind : SearchBy) (text : List UInt8) (e₁ e₂ : Entry) :
    Decidable (TriedBefore lines kind text e₁ e₂) :=
  inferInstanceAs (Decidable (List.Sublist _ _ ∧ _))

/-- The place at which a pattern is first assigned. -/
def assignedAt (lines : List Line) (kind : SearchBy) (e : Entry) : ℕ :=
  ((rules kind lines).map (·.pattern)).idxOf e.pattern

section Order
variable {lines : List Line} {kind : SearchBy} {text : List UInt8} {e₁ e₂ : Entry} {l r : List UInt8}

theorem weight_append (s t : List UInt8) : weight (s ++ t) = weight s + weight t := by
  simp only [weight, List.length_append, List.map_append, List.sum_append]
  omega

/-- A capital weighs 32 less than the small letter. -/
theorem weight_lower (s : List UInt8) : weight (lower s) = weight s + 32 * capitals s := by
  induction s with
  | nil => rfl
  | cons c s ih =>
      have hc := toNat_tolower c
      have hcapital : (65 ≤ c ∧ c ≤ 90) ↔ 65 ≤ c.toNat ∧ c.toNat ≤ 90 := by
        rw [UInt8.le_iff_toNat_le, UInt8.le_iff_toNat_le]
        rfl
      simp only [weight, lower, capitals, List.length_cons, List.map_cons, List.sum_cons,
        List.countP_cons, decide_eq_true_eq, hcapital, hc] at ih ⊢
      split_ifs <;> omega

/-- The lists are sorted by weight, and by the place of assignment. -/
theorem precedes_iter_iff (he₁ : e₁ ∈ (ProxyModel.traverse lines).iter kind)
    (he₂ : e₂ ∈ (ProxyModel.traverse lines).iter kind) :
    Precedes ((ProxyModel.traverse lines).iter kind) e₁ e₂ ↔
      weight e₂.pattern < weight e₁.pattern ∨ weight e₂.pattern = weight e₁.pattern ∧
        assignedAt lines kind e₁ < assignedAt lines kind e₂ := by
  rw [iter_traverse, mem_sorted] at he₁ he₂
  have hpairwise : (dict (rules kind lines)).Pairwise fun e e' =>
      assignedAt lines kind e < assignedAt lines kind e' := by
    have h := dict_pairwise (rules kind lines)
    rw [List.pairwise_map] at h
    exact h
  rw [iter_traverse, ProxyModel.sorted, precedes_insertionSort_iff lens (nodup_dict _) he₁ he₂,
    precedes_iff_of_pairwise hpairwise he₁ he₂]
  rfl

/-- **The rule of a name is tried before that of a name in it if and only if** the text is as long as
some pattern of the files and the capitals of its pattern do not make it too light: each of them
weighs 32 less, each capital of the other pattern makes up for one, and so does what it has besides.
If they make it as light as the other, the one that was assigned first is tried first. -/
theorem triedBefore_iff (h : ∀ line ∈ lines, line.IsLiteral)
    (he₁ : e₁ ∈ (ProxyModel.traverse lines).iter kind)
    (he₂ : e₂ ∈ (ProxyModel.traverse lines).iter kind) (hmatch₁ : e₁.match.search text)
    (hmatch₂ : e₂.match.search text) (hcontains : lower e₁.pattern = l ++ (lower e₂.pattern ++ r)) :
    TriedBefore lines kind text e₁ e₂ ↔ LongEnough lines text ∧
      (32 * capitals e₁.pattern < weight (l ++ r) + 32 * capitals e₂.pattern ∨
        32 * capitals e₁.pattern = weight (l ++ r) + 32 * capitals e₂.pattern ∧
          assignedAt lines kind e₁ < assignedAt lines kind e₂) := by
  have hweights : weight e₁.pattern + 32 * capitals e₁.pattern =
      weight (l ++ r) + (weight e₂.pattern + 32 * capitals e₂.pattern) := by
    rw [← weight_lower, ← weight_lower, hcontains, weight_append, weight_append, weight_append]
    omega
  have horder : Precedes ((ProxyModel.traverse lines).iter kind) e₁ e₂ ↔
      32 * capitals e₁.pattern < weight (l ++ r) + 32 * capitals e₂.pattern ∨
        32 * capitals e₁.pattern = weight (l ++ r) + 32 * capitals e₂.pattern ∧
          assignedAt lines kind e₁ < assignedAt lines kind e₂ := by
    rw [precedes_iter_iff he₁ he₂]
    omega
  have hnodup : ((ProxyModel.traverse lines).iter kind).Nodup := by
    rw [iter_traverse]
    exact (List.perm_insertionSort _ _).nodup_iff.mpr (nodup_dict _)
  rw [TriedBefore, search_traverse h]
  by_cases hlong : LongEnough lines text
  · simp only [hlong, if_true, true_and]
    have hfilter := precedes_filter_iff (l := (ProxyModel.traverse lines).iter kind)
      (p := fun e : Entry => e.match.search text) hmatch₁ hmatch₂
    rw [← horder, ← hfilter, and_iff_left_iff_imp]
    intro hprecedes hhead
    exact hprecedes.head?_ne (hnodup.filter _) hhead
  · simp only [hlong, if_false, false_and, iff_false, not_and]
    intro hnil
    cases hnil

end Order

/-- `.iop.org` before `iop.org`. -/
theorem triedBefore_iff_iop : TriedBefore (renameLines iopRules) .byGoing
    [119, 119, 119, 46, 105, 111, 112, 46, 111, 114, 103]
    ⟨[45, 105, 111, 112], ProxyModel.clean [46, 105, 111, 112, 46, 111, 114, 103]⟩
    ⟨[105, 111, 112], ProxyModel.clean [105, 111, 112, 46, 111, 114, 103]⟩ := by
  have hliteral : ∀ line ∈ renameLines iopRules, line.IsLiteral := by
    intro line hline
    obtain rfl | rfl := by simpa [renameLines, iopRules] using hline
    · exact ⟨⟨_, ⟨by decide, by decide +kernel⟩, .inl rfl⟩, ⟨by decide, by decide +kernel⟩, by decide⟩
    · exact ⟨⟨_, ⟨by decide, by decide +kernel⟩, .inl rfl⟩, ⟨by decide, by decide +kernel⟩, by decide⟩
  exact (triedBefore_iff (l := [92, 46]) (r := []) hliteral (by decide +kernel) (by decide +kernel)
    (by decide +kernel) (by decide +kernel) (by decide +kernel)).mpr (by decide +kernel)

/-- `.IOP.ORG` is lighter than `iop.org`, and tried after it. -/
theorem not_triedBefore_capitals : ¬ ∀ lines : List Line, (∀ line ∈ lines, line.IsLiteral) →
    ∀ kind text, ∀ e₁ ∈ (ProxyModel.traverse lines).iter kind,
      ∀ e₂ ∈ (ProxyModel.traverse lines).iter kind, e₁.match.search text → e₂.match.search text →
        ∀ l r, lower e₁.pattern = l ++ (lower e₂.pattern ++ r) → l ++ r ≠ [] →
          TriedBefore lines kind text e₁ e₂ := by
  intro h
  have htried := h [.proxyDomainRename [105, 111, 112, 46, 111, 114, 103] [105, 111, 112],
      .proxyDomainRename [46, 73, 79, 80, 46, 79, 82, 71] [45, 105, 111, 112]]
    (by
      intro line hline
      obtain rfl | rfl := by simpa using hline
      · exact ⟨⟨_, ⟨by decide, by decide +kernel⟩, .inl rfl⟩, ⟨by decide, by decide +kernel⟩, by decide⟩
      · exact ⟨⟨_, ⟨by decide, by decide +kernel⟩, .inl rfl⟩, ⟨by decide, by decide +kernel⟩, by decide⟩)
    .byGoing [119, 119, 119, 46, 105, 111, 112, 46, 111, 114, 103]
    ⟨[45, 105, 111, 112], ProxyModel.clean [46, 73, 79, 80, 46, 79, 82, 71]⟩ (by decide +kernel)
    ⟨[105, 111, 112], ProxyModel.clean [105, 111, 112, 46, 111, 114, 103]⟩ (by decide +kernel)
    (by decide +kernel) (by decide +kernel) [92, 46] [] (by decide +kernel) (by decide)
  exact absurd htried (by decide +kernel)

end RenaProxy.Squid
