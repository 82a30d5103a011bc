import RenaProxy.Squid.Undo
import RenaProxy.Lib.StableOrder

/-!
# What is made of the rule files

`traverse` fills three dictionaries from the lines of the files, keeps the length of the shortest
pattern and sorts. Here the lists and that length are read off the lines, and the patterns of
literal names are read back as names.
-/
namespace RenaProxy.Squid
open SequencePattern SequencePattern.Pattern StableOrder

/-- `SearchBy` -/
inductive SearchBy
  | byNeverProxy
  | byComing
  | byGoing
  deriving DecidableEq, Repr

/-- The list that `search` goes through. -/
def ProxyModel.iter (m : ProxyModel) : SearchBy → List Entry
  | .byNeverProxy => m.noProxy
  | .byComing => m.coming
  | .byGoing => m.going

/-- What a line assigns to the dictionary of a kind. -/
def Line.assigned : SearchBy → Line → Option Entry
  | .byNeverProxy, .noProxy domain => some ⟨ProxyModel.clean domain, ProxyModel.clean domain⟩
  | .byGoing, .proxyDomainRename oldDomain newDomain => some ⟨newDomain, ProxyModel.clean oldDomain⟩
  | .byComing, .proxyDomainRename oldDomain newDomain =>
      some ⟨oldDomain.filter fun c => c ≠ 36 ∧ c ≠ 94, newDomain ++ [36]⟩
  | _, _ => none

/-- The patterns of a line. -/
def Line.patterns : Line → List (List UInt8)
  | .noProxy domain => [ProxyModel.clean domain]
  | .proxyDomainRename oldDomain newDomain => [ProxyModel.clean oldDomain, newDomain ++ [36]]

/-- What the files assign, line by line. -/
def rules (kind : SearchBy) (lines : List Line) : List Entry := lines.filterMap (Line.assigned kind)

/-- A dictionary after these assignments. -/
def dict (es : List Entry) : List Entry := es.foldl dictSet []

/-- Some pattern of the files is not longer than the text. -/
def LongEnough (lines : List Line) (text : List UInt8) : Prop :=
  ∃ pattern ∈ lines.flatMap Line.patterns, pattern.length ≤ text.length

instance (lines : List Line) (text : List UInt8) : Decidable (LongEnough lines text) :=
  inferInstanceAs (Decidable (∃ _ ∈ _, _))

/-! ## Literal rules -/

/-- A name, of whose characters only the dot means something in a pattern. -/
structure IsName (name : List UInt8) : Prop where
  ne_nil : name ≠ []
  chars : ∀ b ∈ name, b ∉ metachars ∧ b ≠ 10

/-- A name, maybe with `$` after it. -/
def IsLiteral (domain : List UInt8) : Prop :=
  ∃ name, IsName name ∧ (domain = name ∨ domain = name ++ [36])

/-- A line of literal names. An alias is not cleaned, so it has no dot. -/
def Line.IsLiteral : Line → Prop
  | .noProxy domain => Squid.IsLiteral domain
  | .proxyDomainRename oldDomain newDomain =>
      Squid.IsLiteral oldDomain ∧ IsName newDomain ∧ 46 ∉ newDomain

/-- The name that a literal pattern is of. -/
def Entry.name (e : Entry) : List UInt8 := e.pattern.filter fun c => c ≠ 92 ∧ c ≠ 36

/-- The pattern ends with `$`. -/
def Entry.atEnd (e : Entry) : Bool := e.pattern.getLast? = some 36

/-- The name stands in the text, in any letter case, with `$` at its end. -/
def Entry.Occurs (e : Entry) (text : List UInt8) : Prop :=
  if e.atEnd then lower e.name <:+ lower text else lower e.name <:+: lower text

instance (e : Entry) (text : List UInt8) : Decidable (e.Occurs text) :=
  inferInstanceAs (Decidable
    (if e.atEnd then lower e.name <:+ lower text else lower e.name <:+: lower text))

/-- The name of a pattern with `$` stands before the newline that the text ends with. -/
def Entry.BeforeNewline (e : Entry) (text : List UInt8) : Prop :=
  e.atEnd ∧ text.getLast? = some 10 ∧ lower e.name <:+ lower text.dropLast

instance (e : Entry) (text : List UInt8) : Decidable (e.BeforeNewline text) :=
  inferInstanceAs (Decidable (_ ∧ _))

/-! ## The dictionaries -/

section Dict
variable {es : List Entry} {e : Entry} {kind : SearchBy} {lines : List Line}

theorem foldl_visit_iter (m : ProxyModel) (lines : List Line) (kind : SearchBy) :
    (lines.foldl ProxyModel.visit m).iter kind = (rules kind lines).foldl dictSet (m.iter kind) := by
  induction lines generalizing m with
  | nil => rfl
  | cons line lines ih =>
      rw [List.foldl_cons, ih]
      cases line <;> cases kind <;> rfl

/-- **The lists of `traverse`** are the sorted dictionaries. -/
theorem iter_traverse (lines : List Line) (kind : SearchBy) :
    (ProxyModel.traverse lines).iter kind = ProxyModel.sorted (dict (rules kind lines)) := by
  rw [dict, show ([] : List Entry) = (⟨[], [], [], 0⟩ : ProxyModel).iter kind by cases kind <;> rfl,
    ← foldl_visit_iter]
  cases kind <;> rfl

theorem dict_concat (es : List Entry) (e : Entry) : dict (es ++ [e]) = dictSet (dict es) e := by
  rw [dict, List.foldl_concat]
  rfl

theorem mem_dictSet {db : List Entry} {e' : Entry} (h : e' ∈ dictSet db e) : e' ∈ db ∨ e' = e := by
  rw [dictSet] at h
  split_ifs at h
  · obtain ⟨e'', hmem, rfl⟩ := List.mem_map.mp h
    split_ifs
    · exact .inr rfl
    · exact .inl hmem
  · simpa using h

theorem map_pattern_dictSet (db : List Entry) (e : Entry) :
    (dictSet db e).map (·.pattern) =
      if e.pattern ∈ db.map (·.pattern) then db.map (·.pattern)
      else db.map (·.pattern) ++ [e.pattern] := by
  have hany : (db.any fun e' => e'.pattern = e.pattern) = decide (e.pattern ∈ db.map (·.pattern)) := by
    rw [Bool.eq_iff_iff]
    simp
  rw [dictSet, hany]
  by_cases h : e.pattern ∈ db.map (·.pattern)
  · simp only [h, decide_true, if_true, List.map_map]
    apply List.map_congr_left
    intro e' _
    rw [Function.comp_apply]
    split_ifs with heq
    · exact heq.symm
    · rfl
  · simp [h]

/-- What is in a dictionary was assigned. -/
theorem mem_of_mem_dict (h : e ∈ dict es) : e ∈ es := by
  induction es using List.reverseRecOn with
  | nil => exact h
  | append_singleton es e' ih =>
      rw [dict_concat] at h
      rcases mem_dictSet h with h | rfl
      · exact List.mem_append_left _ (ih h)
      · exact List.mem_append_right _ (List.mem_singleton_self _)

theorem mem_pattern_dict {pattern : List UInt8} :
    pattern ∈ (dict es).map (·.pattern) ↔ pattern ∈ es.map (·.pattern) := by
  induction es using List.reverseRecOn with
  | nil => rfl
  | append_singleton es e ih =>
      rw [dict_concat, map_pattern_dictSet, List.map_append, List.map_singleton, List.mem_append,
        List.mem_singleton, ← ih]
      split_ifs with h
      · constructor
        · exact .inl
        · rintro (h' | rfl)
          · exact h'
          · exact h
      · rw [List.mem_append, List.mem_singleton]

/-- **The keys of a dictionary** are in the order in which they were first assigned. -/
theorem dict_pairwise (es : List Entry) :
    ((dict es).map (·.pattern)).Pairwise fun p q =>
      (es.map (·.pattern)).idxOf p < (es.map (·.pattern)).idxOf q := by
  induction es using List.reverseRecOn with
  | nil => exact .nil
  | append_singleton es e ih =>
      have hold : ((dict es).map (·.pattern)).Pairwise fun p q =>
          ((es ++ [e]).map (·.pattern)).idxOf p < ((es ++ [e]).map (·.pattern)).idxOf q := by
        apply ih.imp_of_mem
        intro p q hp hq hlt
        rw [List.map_append, List.idxOf_append_of_mem (mem_pattern_dict.mp hp),
          List.idxOf_append_of_mem (mem_pattern_dict.mp hq)]
        exact hlt
      rw [dict_concat, map_pattern_dictSet]
      split_ifs with h
      · exact hold
      · rw [List.pairwise_append]
        refine ⟨hold, List.pairwise_singleton _ _, ?_⟩
        intro p hp q hq
        obtain rfl := List.mem_singleton.mp hq
        have hnew : e.pattern ∉ es.map (·.pattern) := fun hmem => h (mem_pattern_dict.mpr hmem)
        have hp := mem_pattern_dict.mp hp
        rw [List.map_append, List.idxOf_append_of_mem hp, List.idxOf_append_of_notMem hnew]
        exact Nat.lt_add_right _ (List.idxOf_lt_length_iff.mpr hp)

theorem nodup_dict (es : List Entry) : (dict es).Nodup := by
  apply List.Nodup.of_map (·.pattern)
  apply (dict_pairwise es).imp
  intro p q hlt heq
  rw [heq] at hlt
  exact lt_irrefl _ hlt

theorem mem_sorted {db : List Entry} : e ∈ ProxyModel.sorted db ↔ e ∈ db := List.mem_insertionSort _

theorem mem_iter_traverse (h : e ∈ (ProxyModel.traverse lines).iter kind) : e ∈ rules kind lines := by
  rw [iter_traverse, mem_sorted] at h
  exact mem_of_mem_dict h

/-- Every pattern of a kind is in its list. -/
theorem exists_mem_iter_traverse (h : e ∈ rules kind lines) :
    ∃ e' ∈ (ProxyModel.traverse lines).iter kind, e'.pattern = e.pattern := by
  have hpattern := mem_pattern_dict.mpr (List.mem_map_of_mem (f := (·.pattern)) h)
  obtain ⟨e', he', heq⟩ := List.mem_map.mp hpattern
  exact ⟨e', by rw [iter_traverse, mem_sorted]; exact he', heq⟩

/-- The rules by going are those of the rename lines. -/
theorem mem_rules_byGoing (h : e ∈ rules .byGoing lines) : ∃ oldDomain newDomain,
    Line.proxyDomainRename oldDomain newDomain ∈ lines ∧
      e = ⟨newDomain, ProxyModel.clean oldDomain⟩ := by
  obtain ⟨line, hline, hassigned⟩ := List.mem_filterMap.mp h
  cases line with
  | noProxy domain => cases hassigned
  | proxyDomainRename oldDomain newDomain =>
      exact ⟨oldDomain, newDomain, hline, (Option.some.inj hassigned).symm⟩

/-- So are those by coming, the other way. -/
theorem mem_rules_byComing (h : e ∈ rules .byComing lines) : ∃ oldDomain newDomain,
    Line.proxyDomainRename oldDomain newDomain ∈ lines ∧
      e = ⟨oldDomain.filter fun c => c ≠ 36 ∧ c ≠ 94, newDomain ++ [36]⟩ := by
  obtain ⟨line, hline, hassigned⟩ := List.mem_filterMap.mp h
  cases line with
  | noProxy domain => cases hassigned
  | proxyDomainRename oldDomain newDomain =>
      exact ⟨oldDomain, newDomain, hline, (Option.some.inj hassigned).symm⟩

/-- What depends on the pattern only holds in the list if it does in the files. -/
theorem forall_iter_traverse {Q : Entry → Prop} (hQ : ∀ e e', e.pattern = e'.pattern → Q e → Q e') :
    (∀ e ∈ (ProxyModel.traverse lines).iter kind, Q e) ↔ ∀ e ∈ rules kind lines, Q e := by
  constructor
  · intro h e he
    obtain ⟨e', he', heq⟩ := exists_mem_iter_traverse he
    exact hQ e' e heq (h e' he')
  · intro h e he
    exact h e (mem_iter_traverse he)

end Dict

/-! ## The shortest pattern -/

section Shortest
variable {lines : List Line} {text : List UInt8}

theorem foldl_visit_minimalAvail (m : ProxyModel) (lines : List Line) :
    (lines.foldl ProxyModel.visit m).minimalAvail =
      ((lines.flatMap Line.patterns).map List.length).foldl ProxyModel.lowered m.minimalAvail := by
  induction lines generalizing m with
  | nil => rfl
  | cons line lines ih =>
      rw [List.foldl_cons, ih, List.flatMap_cons, List.map_append, List.foldl_append]
      cases line <;> rfl

theorem lt_foldl_lowered {k : ℕ} (ls : List ℕ) (m : ℕ) (hpos : ∀ n ∈ ls, 0 < n) :
    k < ls.foldl ProxyModel.lowered m ↔ (m = 0 → ls ≠ []) ∧ (m ≠ 0 → k < m) ∧ ∀ n ∈ ls, k < n := by
  induction ls generalizing m with
  | nil =>
      by_cases hm : m = 0
      · simp [hm]
      · simp [hm]
  | cons n ls ih =>
      have hn := hpos n List.mem_cons_self
      rw [List.foldl_cons, ih _ fun n' hn' => hpos n' (List.mem_cons_of_mem n hn'), ProxyModel.lowered]
      simp only [ne_eq, reduceCtorEq, not_false_eq_true, implies_true, true_and, List.forall_mem_cons]
      split_ifs with h
      · have : n ≠ 0 := by omega
        simp only [this, false_imp_iff, true_and, not_false_eq_true, true_imp_iff]
        constructor
        · rintro ⟨hlt, hall⟩
          exact ⟨fun hm => by omega, hlt, hall⟩
        · rintro ⟨-, hlt, hall⟩
          exact ⟨hlt, hall⟩
      · have : m ≠ 0 := by omega
        simp only [this, false_imp_iff, true_and, not_false_eq_true, true_imp_iff]
        constructor
        · rintro ⟨hlt, hall⟩
          exact ⟨hlt, by omega, hall⟩
        · rintro ⟨hlt, -, hall⟩
          exact ⟨hlt, hall⟩

theorem IsLiteral.ne_nil {domain : List UInt8} (h : IsLiteral domain) : domain ≠ [] := by
  obtain ⟨name, hname, rfl | rfl⟩ := h
  · exact hname.ne_nil
  · simp

theorem clean_ne_nil {domain : List UInt8} (h : domain ≠ []) : ProxyModel.clean domain ≠ [] := by
  obtain ⟨c, domain, rfl⟩ := List.exists_cons_of_ne_nil h
  rw [ProxyModel.clean, List.flatMap_cons]
  split_ifs <;> simp

theorem patterns_ne_nil (h : ∀ line ∈ lines, line.IsLiteral) :
    ∀ pattern ∈ lines.flatMap Line.patterns, 0 < pattern.length := by
  intro pattern hpattern
  obtain ⟨line, hline, hmem⟩ := List.mem_flatMap.mp hpattern
  have hliteral := h line hline
  rw [List.length_pos_iff]
  cases line with
  | noProxy domain =>
      rw [List.mem_singleton.mp hmem]
      exact clean_ne_nil (IsLiteral.ne_nil hliteral)
  | proxyDomainRename oldDomain newDomain =>
      rcases List.mem_cons.mp hmem with rfl | hmem
      · exact clean_ne_nil (IsLiteral.ne_nil hliteral.1)
      · rw [List.mem_singleton.mp hmem]
        simp

/-- **What `search` yields**: nothing if the text is shorter than every pattern, else what matches. -/
theorem search_traverse (h : ∀ line ∈ lines, line.IsLiteral) (kind : SearchBy) :
    (ProxyModel.traverse lines).search ((ProxyModel.traverse lines).iter kind) text =
      if LongEnough lines text then
        ((ProxyModel.traverse lines).iter kind).filter fun e => e.match.search text
      else [] := by
  have hlt : text.length < (ProxyModel.traverse lines).minimalAvail ↔
      lines.flatMap Line.patterns ≠ [] ∧ ¬ LongEnough lines text := by
    have hpos : ∀ n ∈ (lines.flatMap Line.patterns).map List.length, 0 < n := by
      intro n hn
      obtain ⟨pattern, hmem, rfl⟩ := List.mem_map.mp hn
      exact patterns_ne_nil h pattern hmem
    change text.length < (lines.foldl ProxyModel.visit ⟨[], [], [], 0⟩).minimalAvail ↔ _
    rw [foldl_visit_minimalAvail, lt_foldl_lowered _ _ hpos, LongEnough]
    generalize lines.flatMap Line.patterns = patterns
    simp
  rw [ProxyModel.search]
  by_cases hlong : LongEnough lines text
  · rw [if_pos hlong, if_neg fun hshort => (hlt.mp hshort).2 hlong]
  · rw [if_neg hlong]
    by_cases hnil : lines.flatMap Line.patterns = []
    · have hlines : lines = [] := by
        cases lines with
        | nil => rfl
        | cons line lines => cases line <;> simp [Line.patterns] at hnil
      subst hlines
      cases kind <;> rfl
    · rw [if_pos (hlt.mpr ⟨hnil, hlong⟩)]

end Shortest

/-! ## Literal patterns -/

section Literal
variable {name text t : List UInt8} {e : Entry} {kind : SearchBy} {lines : List Line}

theorem IsName.not_metachar (h : IsName name) : ∀ b ∈ name, b ∉ metachars := fun b hb => (h.chars b hb).1

theorem clean_append (s t : List UInt8) :
    ProxyModel.clean (s ++ t) = ProxyModel.clean s ++ ProxyModel.clean t := List.flatMap_append

theorem exists_name_of_literal {domain : List UInt8} (h : IsLiteral domain) :
    ∃ name, IsName name ∧ (ProxyModel.clean domain = ProxyModel.clean name ∨
      ProxyModel.clean domain = ProxyModel.clean name ++ [36]) := by
  obtain ⟨name, hname, rfl | rfl⟩ := h
  · exact ⟨domain, hname, .inl rfl⟩
  · exact ⟨name, hname, .inr (clean_append name [36])⟩

/-- Every pattern of literal lines is that of a name, maybe with `$` after it. -/
theorem exists_name (h : ∀ line ∈ lines, line.IsLiteral) (he : e ∈ rules kind lines) :
    ∃ name, IsName name ∧
      (e.pattern = ProxyModel.clean name ∨ e.pattern = ProxyModel.clean name ++ [36]) := by
  cases kind with
  | byNeverProxy =>
      obtain ⟨line, hline, hassigned⟩ := List.mem_filterMap.mp he
      cases line with
      | noProxy domain =>
          cases hassigned
          exact exists_name_of_literal (h _ hline)
      | proxyDomainRename oldDomain newDomain => cases hassigned
  | byGoing =>
      obtain ⟨oldDomain, newDomain, hline, rfl⟩ := mem_rules_byGoing he
      exact exists_name_of_literal (h _ hline).1
  | byComing =>
      obtain ⟨oldDomain, newDomain, hline, rfl⟩ := mem_rules_byComing he
      obtain ⟨-, hname, hdot⟩ := h _ hline
      exact ⟨newDomain, hname, .inr (by rw [clean_of_not_mem hdot])⟩

theorem filter_clean (h : ∀ b ∈ name, b ∉ metachars) :
    (ProxyModel.clean name).filter (fun c => c ≠ 92 ∧ c ≠ 36) = name := by
  induction name with
  | nil => rfl
  | cons c name ih =>
      have ih := ih fun b hb => h b (List.mem_cons_of_mem c hb)
      have hc := h c List.mem_cons_self
      have hdollar : c ≠ 36 := fun heq => hc (heq ▸ by decide)
      have hslash : c ≠ 92 := fun heq => hc (heq ▸ by decide)
      rw [ProxyModel.clean, List.flatMap_cons, List.filter_append, ← ProxyModel.clean, ih]
      split_ifs with hdot
      · subst hdot
        rfl
      · simp [hdollar, hslash]

theorem getLast?_clean (h : ∀ b ∈ name, b ∉ metachars) : (ProxyModel.clean name).getLast? ≠ some 36 := by
  intro hlast
  have hmem := List.mem_of_getLast? hlast
  obtain ⟨c, hc, hin⟩ := List.mem_flatMap.mp hmem
  split_ifs at hin
  · simp at hin
  · obtain rfl := List.mem_singleton.mp hin
    exact h 36 hc (by decide)

theorem infix_iff {s t : List UInt8} :
    (∃ pre x post, t = pre ++ (x ++ post) ∧ lower x = lower s) ↔ lower s <:+: lower t := by
  constructor
  · rintro ⟨pre, x, post, rfl, hx⟩
    exact ⟨lower pre, lower post, by simp [lower_append, hx]⟩
  · rintro ⟨pre, post, h⟩
    rw [List.append_assoc] at h
    obtain ⟨pre', rest, rfl, -, hrest⟩ := List.map_eq_append_iff.mp h.symm
    obtain ⟨x, post', rfl, hx, -⟩ := List.map_eq_append_iff.mp hrest
    exact ⟨pre', x, post', rfl, hx⟩

theorem suffix_iff {s t : List UInt8} :
    (∃ pre x, t = pre ++ x ∧ lower x = lower s) ↔ lower s <:+ lower t := by
  constructor
  · rintro ⟨pre, x, rfl, hx⟩
    exact ⟨lower pre, by simp [lower_append, hx]⟩
  · rintro ⟨pre, h⟩
    obtain ⟨pre', x, rfl, -, hx⟩ := List.map_eq_append_iff.mp h.symm
    exact ⟨pre', x, rfl, hx⟩

/-- **What a literal pattern matches**: its name, and with `$` also before a newline at the end. -/
theorem search_iff_occurs (hname : IsName name)
    (he : e.pattern = ProxyModel.clean name ∨ e.pattern = ProxyModel.clean name ++ [36]) :
    e.match.search text ↔ e.Occurs text ∨ e.BeforeNewline text := by
  have hmeta := hname.not_metachar
  rcases he with he | he
  · have hitems : e.match = ⟨name.map (reChar true), fun _ => true⟩ := by
      rw [Entry.match, he, reCompile, reItems_clean hmeta]
      rfl
    have hend : e.atEnd = false := by simpa [Entry.atEnd, he] using getLast?_clean hmeta
    have hname' : e.name = name := by rw [Entry.name, he, filter_clean hmeta]
    rw [Entry.Occurs, Entry.BeforeNewline, hend, hname', hitems, search_iff, ← infix_iff]
    simp only [matchAt_reChar, Bool.false_eq_true, if_false, false_and, or_false]
    constructor
    · rintro ⟨pre, t, rfl, x, r, rfl, hx, -⟩
      exact ⟨pre, x, r, rfl, hx⟩
    · rintro ⟨pre, x, r, rfl, hx⟩
      exact ⟨pre, x ++ r, rfl, x, r, rfl, hx, trivial⟩
  · have hitems : e.match = ⟨name.map (reChar true), reEnd⟩ := by
      rw [Entry.match, he, reCompile, reItems_clean_dollar hmeta]
      rfl
    have hend : e.atEnd = true := by simp [Entry.atEnd, he]
    have hname' : e.name = name := by
      rw [Entry.name, he, List.filter_append, filter_clean hmeta]
      simp
    rw [Entry.Occurs, Entry.BeforeNewline, hend, hname', hitems, search_iff, ← suffix_iff,
      ← suffix_iff]
    simp only [matchAt_reChar, if_true, true_and, reEnd, decide_eq_true_eq]
    constructor
    · rintro ⟨pre, t, rfl, x, r, rfl, hx, rfl | rfl⟩
      · exact .inl ⟨pre, x, by simp, hx⟩
      · refine .inr ⟨by simp, pre, x, ?_, hx⟩
        rw [← List.append_assoc, List.dropLast_concat]
    · rintro (⟨pre, x, rfl, hx⟩ | ⟨hlast, pre, x, hdrop, hx⟩)
      · exact ⟨pre, x, rfl, x, [], by simp, hx, .inl rfl⟩
      · refine ⟨pre, x ++ [10], ?_, x, [10], rfl, hx, .inr rfl⟩
        rw [← List.append_assoc, ← hdrop, List.dropLast_append_getLast? 10 hlast]

/-- A name does not stand both at the end and before a newline there. -/
theorem not_occurs_of_beforeNewline (hname : IsName name)
    (he : e.pattern = ProxyModel.clean name ∨ e.pattern = ProxyModel.clean name ++ [36])
    (h : e.BeforeNewline text) : ¬ e.Occurs text := by
  have hname' : e.name = name := by
    rcases he with he | he
    · rw [Entry.name, he, filter_clean hname.not_metachar]
    · rw [Entry.name, he, List.filter_append, filter_clean hname.not_metachar]
      simp
  obtain ⟨hend, hlast, -⟩ := h
  rw [Entry.Occurs, if_pos hend, hname']
  rintro ⟨pre, hpre⟩
  -- the last character of the name would be the newline
  obtain ⟨c, hc⟩ := Option.ne_none_iff_exists'.mp (mt List.getLast?_eq_none_iff.mp hname.ne_nil)
  have hlower : (lower text).getLast? = some 10 := by
    rw [lower, List.getLast?_map, hlast]
    rfl
  rw [← hpre, List.getLast?_append, lower, List.getLast?_map, hc, Option.map_some,
    Option.some_or, Option.some_inj] at hlower
  have hnat := congrArg UInt8.toNat hlower
  rw [toNat_tolower] at hnat
  have h10 : c.toNat = 10 := by
    change _ = 10 at hnat
    split_ifs at hnat <;> omega
  exact (hname.chars c (List.mem_of_getLast? hc)).2 (UInt8.toNat_inj.mp h10)

end Literal

end RenaProxy.Squid
