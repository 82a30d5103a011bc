import RenaProxy.Lib.Gaps
import RenaProxy.Squid.RuleFiles

/-!
# Rule after rule

`do_all_redirects` chooses rules in a working copy, out of which it takes each name that it finds,
and applies them to the whole text. Texts with gaps follow both: the working copy is one whose gaps
are closed up (`firing_closed`), and in the whole text the aliases stand in them
(`foldl_applyRule_filled`), where every name is found in letters only.
-/
namespace RenaProxy.Squid
open SequencePattern SequencePattern.Pattern SequencePattern.Cells

/-- A line of literal names. An alias is a template, which has no backslash. -/
def Line.HasNames : Line → Prop
  | .noProxy domain => Squid.IsLiteral domain
  | .proxyDomainRename oldDomain newDomain => Squid.IsLiteral oldDomain ∧ 92 ∉ newDomain

/-- A URL and nothing else, as `do_all_redirects` takes it. -/
def IsSingleUrl (data : List UInt8) : Prop :=
  find data [47, 47] ≠ none ∧ find data [46] ≠ none ∧ find data [32] = none

instance (data : List UInt8) : Decidable (IsSingleUrl data) :=
  inferInstanceAs (Decidable (_ ∧ _ ∧ _))

/-- What `do_all_redirects` looks for names in: the domain of a single URL, else everything. -/
def lookedAt (data : List UInt8) : List UInt8 :=
  if IsSingleUrl data then (splitUrl data).2.1 else data

namespace ProxyController
variable (c : ProxyController)

/-- The alias of a rule under the suffix. -/
def underSuffix (e : Entry) : List UInt8 := e.ref ++ [46] ++ c.suffix

/-- The rules that are found in a working copy, out of which each takes what it finds. -/
def firing : List Entry → List UInt8 → List Entry
  | [], _ => []
  | e :: elems, wd =>
      if wd.length < c.model.minimalAvail then []
      else if e.match.search wd then e :: firing elems (e.match.sub [] wd)
      else firing elems wd

/-- The rules that `do_all_redirects` applies. -/
def fired (data : List UInt8) : List Entry :=
  c.firing c.model.going (c.withoutNever c.model.noProxy (lookedAt data))

/-- One of them is applied. -/
def applyRule (data : List UInt8) (e : Entry) : List UInt8 := e.match.sub (c.underSuffix e) data

/-! ## Names crossed out of a text -/

/-- The name stands in what is left, which is enough to look at. -/
def Stands (e : Entry) (w : Cells UInt8) : Prop :=
  c.model.minimalAvail ≤ w.closed.length ∧ e.match.onCells.search w

instance (e : Entry) (w : Cells UInt8) : Decidable (c.Stands e w) :=
  inferInstanceAs (Decidable (_ ∧ _))

/-- The name is crossed out, the gap is for its alias. -/
def cross (w : Cells UInt8) (e : Entry) : Cells UInt8 := e.match.crossOut (c.underSuffix e) w

/-- The rules whose names stand in a text, each at its turn. -/
def standing : List Entry → Cells UInt8 → List Entry
  | [], _ => []
  | e :: elems, w =>
      if c.Stands e w then e :: standing elems (c.cross w e) else standing elems w

/-- At no turn is the name found over a gap that is closed up. -/
def ClosesUp : List Entry → Cells UInt8 → Prop
  | [], _ => True
  | e :: elems, w => e.match.KeepsTo (fun _ => []) w ∧
      ClosesUp elems (if c.Stands e w then c.cross w e else w)

/-- At no turn is the name found over an alias that was put in. -/
def FillsIn : List Entry → Cells UInt8 → Prop
  | [], _ => True
  | e :: elems, n => e.match.KeepsTo id n ∧ FillsIn elems (c.cross n e)

instance decidableClosesUp : ∀ elems w, Decidable (c.ClosesUp elems w)
  | [], _ => isTrue trivial
  | e :: elems, w =>
      have := decidableClosesUp elems (if c.Stands e w then c.cross w e else w)
      inferInstanceAs (Decidable (_ ∧ _))

instance decidableFillsIn : ∀ elems n, Decidable (c.FillsIn elems n)
  | [], _ => isTrue trivial
  | e :: elems, n =>
      have := decidableFillsIn elems (c.cross n e)
      inferInstanceAs (Decidable (_ ∧ _))

section Fired
variable {c} {e : Entry} {elems : List Entry} {wd data : List UInt8}

theorem redirectAll_eq (elems : List Entry) (wd data : List UInt8) :
    c.redirectAll elems wd data = (c.firing elems wd).foldl c.applyRule data := by
  induction elems generalizing wd data with
  | nil => rfl
  | cons e elems ih =>
      rw [redirectAll, firing]
      split_ifs
      · rfl
      · rw [ih]
        rfl
      · rw [ih]

/-- **`do_all_redirects`** applies rule after rule to the text. -/
theorem doAllRedirects_eq (data : List UInt8) :
    c.doAllRedirects data = (c.fired data).foldl c.applyRule data := redirectAll_eq _ _ _

theorem mem_of_mem_firing (h : e ∈ c.firing elems wd) : e ∈ elems := by
  induction elems generalizing wd with
  | nil => cases h
  | cons e' elems ih =>
      rw [firing] at h
      split_ifs at h
      · cases h
      · rcases List.mem_cons.mp h with rfl | h
        · exact List.mem_cons_self
        · exact List.mem_cons_of_mem e' (ih h)
      · exact List.mem_cons_of_mem e' (ih h)

theorem firing_of_short (h : wd.length < c.model.minimalAvail) : c.firing elems wd = [] := by
  cases elems with
  | nil => rfl
  | cons e elems => rw [firing, if_pos h]

theorem firing_cons (e : Entry) (elems : List Entry) (wd : List UInt8) :
    c.firing (e :: elems) wd =
      if c.model.minimalAvail ≤ wd.length ∧ e.match.search wd then
        e :: c.firing elems (e.match.sub [] wd)
      else c.firing elems wd := by
  rw [firing]
  by_cases hshort : wd.length < c.model.minimalAvail
  · rw [if_pos hshort, if_neg (by omega), firing_of_short hshort]
  · simp only [hshort, Nat.le_of_not_lt hshort, true_and, if_false]

/-- The first loop takes out what is found in the same way. -/
theorem withoutNever_eq (elems : List Entry) (wd : List UInt8) :
    c.withoutNever elems wd = (c.firing elems wd).foldl (fun wd e => e.match.sub [] wd) wd := by
  induction elems generalizing wd with
  | nil => rfl
  | cons e elems ih =>
      rw [withoutNever, firing]
      split_ifs
      · rfl
      · exact ih _
      · exact ih wd

end Fired

section Turns
variable {c} {e : Entry} {elems es : List Entry} {w n : Cells UInt8}

/-- What may follow a name may do so after closing up. -/
theorem rest_closed (e : Entry) (m : Cells UInt8) (h : e.match.rest (filled id m)) :
    e.match.rest (filled (fun _ => []) m) := by
  have hsub := closed_sublist id m
  rw [Entry.match, reCompile] at h ⊢
  dsimp only at h ⊢
  split_ifs at h ⊢
  · rw [reEnd, decide_eq_true_eq] at h ⊢
    rcases h with h | h
    · rw [h, List.sublist_nil] at hsub
      exact .inl hsub
    · rw [h, List.sublist_singleton] at hsub
      exact hsub
  · rfl

/-- What follows an alias under the suffix does not end the text. -/
theorem loose_underSuffix (e e' : Entry) : e.match.Loose (c.underSuffix e') := by
  intro m t y h
  rw [Entry.match, reCompile] at h ⊢
  dsimp only at h ⊢
  split_ifs at h ⊢ with hend
  · have h46 : 46 ∈ m ++ (c.underSuffix e' ++ t) := by simp [underSuffix]
    rw [reEnd, decide_eq_true_eq] at h
    rcases h with h | h
    · simp [h] at h46
    · simp [h] at h46
  · rfl

theorem mem_of_mem_standing (h : e ∈ c.standing elems w) : e ∈ elems := by
  induction elems generalizing w with
  | nil => cases h
  | cons e' elems ih =>
      rw [standing] at h
      split_ifs at h
      · rcases List.mem_cons.mp h with rfl | h
        · exact List.mem_cons_self
        · exact List.mem_cons_of_mem e' (ih h)
      · exact List.mem_cons_of_mem e' (ih h)

/-- **In a working copy** that names are taken out of, those are found that stand in it. -/
theorem firing_closed (hitems : ∀ e ∈ elems, e.match.items ≠ []) (h : c.ClosesUp elems w) :
    c.firing elems w.closed = c.standing elems w := by
  induction elems generalizing w with
  | nil => rfl
  | cons e elems ih =>
      rw [List.forall_mem_cons] at hitems
      have hfound : c.model.minimalAvail ≤ w.closed.length ∧ e.match.search w.closed ↔
          c.Stands e w := and_congr_right fun _ => search_filled hitems.1 (rest_closed e) h.1
      have hleft := h.2
      rw [firing_cons, standing]
      split_ifs at hleft ⊢ with hfires hstands hstands
      · have hsub : e.match.sub [] w.closed = (c.cross w e).closed :=
          sub_filled (t := c.underSuffix e) hitems.1 (rest_closed e) h.1
        rw [hsub, ih hitems.2 hleft]
      · exact absurd (hfound.mp hfires) hstands
      · exact absurd (hfound.mpr hstands) hfires
      · exact ih hitems.2 hleft

/-- They leave the letters that are not crossed out. -/
theorem foldl_sub_closed (hitems : ∀ e ∈ elems, e.match.items ≠ []) (h : c.ClosesUp elems w) :
    (c.standing elems w).foldl (fun wd e => e.match.sub [] wd) w.closed =
      ((c.standing elems w).foldl c.cross w).closed := by
  induction elems generalizing w with
  | nil => rfl
  | cons e elems ih =>
      rw [List.forall_mem_cons] at hitems
      have hleft := h.2
      rw [standing]
      split_ifs at hleft ⊢ with hstands
      · have hsub : e.match.sub [] w.closed = (c.cross w e).closed :=
          sub_filled (t := c.underSuffix e) hitems.1 (rest_closed e) h.1
        rw [List.foldl_cons, List.foldl_cons, hsub, ih hitems.2 hleft]
      · exact ih hitems.2 hleft

/-- **In the whole text** their aliases stand in the gaps. -/
theorem foldl_applyRule_filled (hitems : ∀ e ∈ es, e.match.items ≠ []) (h : c.FillsIn es n) :
    es.foldl c.applyRule (filled id n) = filled id (es.foldl c.cross n) := by
  induction es generalizing n with
  | nil => rfl
  | cons e es ih =>
      rw [List.forall_mem_cons] at hitems
      have hsub : c.applyRule (filled id n) e = filled id (c.cross n e) :=
        sub_filled (t := c.underSuffix e) hitems.1 (fun _ h => h) h.1
      rw [List.foldl_cons, List.foldl_cons, hsub, ih hitems.2 h.2]

/-- What the names that are crossed out avoid is kept. -/
theorem keeps_foldl {P : ℕ → Prop} {data : List UInt8} (hitems : ∀ e ∈ es, e.match.items ≠ [])
    (havoids : ∀ e ∈ es, e.match.Avoids P data) (h : Keeps P data n)
    (hgaps : ∀ r, .inr r ∈ n → ∃ e, r = c.underSuffix e) : Keeps P data (es.foldl c.cross n) := by
  induction es generalizing n with
  | nil => exact h
  | cons e es ih =>
      rw [List.forall_mem_cons] at hitems havoids
      refine ih hitems.2 havoids.2 (h.crossOut hitems.1 _ ?_ havoids.1) ?_
      · intro r hr
        obtain ⟨e', rfl⟩ := hgaps r hr
        exact loose_underSuffix e e'
      · intro r hr
        rcases mem_of_mem_subFrom hr with hr | hr
        · exact ⟨e, Sum.inr.inj (List.mem_singleton.mp hr)⟩
        · exact hgaps r hr

end Turns

end ProxyController

section Literal
variable {c : ProxyController} {sufixo : List UInt8} {lines : List Line} {e : Entry}

theorem items_clean_ne_nil {domain : List UInt8} (h : Squid.IsLiteral domain) (ref : List UInt8) :
    (Entry.match ⟨ref, ProxyModel.clean domain⟩).items ≠ [] := by
  obtain ⟨name, hname, heq | heq⟩ := exists_name_of_literal h
  · rw [heq, match_clean ref hname.not_metachar]
    simpa using hname.ne_nil
  · rw [Entry.match, heq, reCompile, reItems_clean_dollar hname.not_metachar]
    simpa using hname.ne_nil

/-- The pattern of a rename rule is not empty. -/
theorem items_ne_nil_of_going (hlines : ∀ line ∈ lines, line.HasNames) (hc : c = .init sufixo lines)
    (he : e ∈ c.model.going) : e.match.items ≠ [] := by
  have he : e ∈ rules .byGoing lines := mem_iter_traverse (by rwa [hc] at he)
  obtain ⟨oldDomain, newDomain, hline, rfl⟩ := mem_rules_byGoing he
  exact items_clean_ne_nil (hlines _ hline).1 newDomain

/-- Nor is that of a never-proxy name. -/
theorem items_ne_nil_of_noProxy (hlines : ∀ line ∈ lines, line.HasNames)
    (hc : c = .init sufixo lines) (he : e ∈ c.model.noProxy) : e.match.items ≠ [] := by
  have he : e ∈ rules .byNeverProxy lines := mem_iter_traverse (by rwa [hc] at he)
  obtain ⟨line, hline, hassigned⟩ := List.mem_filterMap.mp he
  cases line with
  | noProxy domain =>
      cases hassigned
      exact items_clean_ne_nil (hlines _ hline) _
  | proxyDomainRename oldDomain newDomain => cases hassigned

end Literal

end RenaProxy.Squid
