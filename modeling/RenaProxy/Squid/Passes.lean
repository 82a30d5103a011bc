import RenaProxy.Squid.Redirect
import RenaProxy.Squid.Turns

/-!
# Redirecting a whole text again

Which rules `do_all_redirects` applies depends on its working copy only, which nothing is put into;
what they are applied to is the whole text. Names under the suffix are looked for names like any
others. `doAllRedirects_doAllRedirects` says where a second pass changes nothing all the same.
-/
namespace RenaProxy.Squid
open SequencePattern SequencePattern.Pattern SequencePattern.Cells

/-- A line that renames a literal name. -/
def Line.IsRename : Line → Prop
  | .noProxy _ => False
  | .proxyDomainRename oldDomain newDomain => Squid.IsLiteral oldDomain ∧ 92 ∉ newDomain

namespace ProxyController
variable (c : ProxyController)

/-- Each rule whose name stands in what is left, at its turn, has enough left to look at. -/
def MissesNone : List Entry → Cells UInt8 → Prop
  | [], _ => True
  | e :: elems, w =>
      if c.Stands e w then MissesNone elems (c.cross w e)
      else ¬ e.match.onCells.search w ∧ MissesNone elems w

/-- The rule renames a host to a host, and one that ends with `$` only where nothing follows. -/
def KeepsUrl (path : List UInt8) (e : Entry) : Prop :=
  (∀ b ∈ e.pattern ++ c.underSuffix e, b ∉ ([47, 63, 35, 64, 32] : List UInt8)) ∧
    (e.atEnd → path = [])

/-- The rules that are applied. -/
def applied (data : List UInt8) : List Entry := c.standing c.model.going (whole (lookedAt data))

/-- What is taken out and what is renamed is found in letters only, at each turn. -/
def ReadsLetters (data : List UInt8) : Prop :=
  c.ClosesUp c.model.going (whole (lookedAt data)) ∧
    c.FillsIn (c.applied data) (whole (lookedAt data))

/-- Nor is a name found over an alias when all are renamed, and none is missed; a single URL keeps
its form. -/
def RenamesOnce (data : List UInt8) : Prop :=
  c.ReadsLetters data ∧ (c.applied data ≠ [] →
    c.MissesNone c.model.going (whole (lookedAt data)) ∧
    (∀ e ∈ c.model.going,
      e.match.KeepsTo id ((c.applied data).foldl c.cross (whole (lookedAt data)))) ∧
    (IsSingleUrl data → ∀ e ∈ c.applied data, c.KeepsUrl (splitUrl data).2.2 e))

/-- An alias under the suffix is longer than the name, which has no space. -/
def Lengthens : Prop :=
  ∀ e ∈ c.model.going, e.name.length < (c.underSuffix e).length ∧ 32 ∉ e.pattern

instance decidableMissesNone : ∀ elems w, Decidable (c.MissesNone elems w)
  | [], _ => isTrue trivial
  | e :: elems, w =>
      have := decidableMissesNone elems (c.cross w e)
      have := decidableMissesNone elems w
      inferInstanceAs (Decidable (if c.Stands e w then c.MissesNone elems (c.cross w e)
        else ¬ e.match.onCells.search w ∧ c.MissesNone elems w))

instance : Decidable c.Lengthens := inferInstanceAs (Decidable (∀ _ ∈ _, _ ∧ _))

instance (path : List UInt8) (e : Entry) : Decidable (c.KeepsUrl path e) :=
  inferInstanceAs (Decidable (_ ∧ (_ → _)))

instance (data : List UInt8) : Decidable (c.ReadsLetters data) :=
  inferInstanceAs (Decidable (_ ∧ _))

instance (data : List UInt8) : Decidable (c.RenamesOnce data) :=
  inferInstanceAs (Decidable (_ ∧ (_ → _ ∧ _ ∧ (_ → _))))

section Cells
variable {c} {e p : Entry} {elems es : List Entry} {w : Cells UInt8} {data : List UInt8}

theorem search_of_search_foldl (hitems : ∀ e ∈ es, e.match.items ≠ []) (hp : p.match.items ≠ [])
    (h : p.match.onCells.search (es.foldl c.cross w)) : p.match.onCells.search w := by
  induction es generalizing w with
  | nil => exact h
  | cons e es ih =>
      rw [List.forall_mem_cons] at hitems
      exact search_crossOut hitems.1 hp (loose_underSuffix p e) (ih hitems.2 h)

/-- **No name is left** of those that are renamed at their turn. -/
theorem not_search_of_missesNone (hitems : ∀ e ∈ elems, e.match.items ≠ [])
    (h : c.MissesNone elems w) :
    ∀ e ∈ elems, ¬ e.match.onCells.search ((c.standing elems w).foldl c.cross w) := by
  induction elems generalizing w with
  | nil => exact fun e he => absurd he List.not_mem_nil
  | cons e elems ih =>
      rw [MissesNone] at h
      rw [standing]
      rw [List.forall_mem_cons] at hitems ⊢
      have hstanding : ∀ w', ∀ e' ∈ c.standing elems w', e'.match.items ≠ [] :=
        fun w' e' he' => hitems.2 e' (mem_of_mem_standing he')
      split_ifs at h ⊢ with hstands
      · refine ⟨fun hsearch => ?_, ih hitems.2 h⟩
        exact not_search_crossOut hitems.1 (loose_underSuffix e e)
          (search_of_search_foldl (hstanding _) hitems.1 hsearch)
      · refine ⟨fun hsearch => h.1 ?_, ih hitems.2 h.2⟩
        exact search_of_search_foldl (hstanding _) hitems.1 hsearch

/-- Nothing is applied to a text in which nothing is found. -/
theorem firing_eq_nil {wd : List UInt8} (h : ∀ e ∈ elems, ¬ e.match.search wd) :
    c.firing elems wd = [] := by
  induction elems with
  | nil => rfl
  | cons e elems ih =>
      rw [List.forall_mem_cons] at h
      rw [firing_cons, if_neg fun hfires => h.1 hfires.2, ih h.2]

theorem applyRule_of_not_search (hitems : e.match.items ≠ []) (h : ¬ e.match.search data) :
    c.applyRule data e = data := by
  rw [applyRule, sub_eq_self_iff hitems, found_eq_nil_of_not_search h]
  exact fun x hx => absurd hx List.not_mem_nil

theorem foldl_applyRule_of_not_search (hitems : ∀ e ∈ es, e.match.items ≠ [])
    (h : ∀ e ∈ es, ¬ e.match.search data) : es.foldl c.applyRule data = data := by
  induction es with
  | nil => rfl
  | cons e es ih =>
      rw [List.forall_mem_cons] at hitems h
      rw [List.foldl_cons, applyRule_of_not_search hitems.1 h.1, ih hitems.2 h.2]

theorem standing_of_short (h : w.closed.length < c.model.minimalAvail) :
    c.standing elems w = [] := by
  induction elems with
  | nil => rfl
  | cons e elems ih => rw [standing, if_neg fun hstands => Nat.not_le_of_lt h hstands.1, ih]

/-- A name that is missed is left. -/
theorem missesNone_of_not_search
    (h : ∀ e ∈ elems, ¬ e.match.onCells.search ((c.standing elems w).foldl c.cross w)) :
    c.MissesNone elems w := by
  induction elems generalizing w with
  | nil => trivial
  | cons e elems ih =>
      rw [standing, List.forall_mem_cons] at h
      rw [MissesNone]
      split_ifs at h ⊢ with hstands
      · exact ih h.2
      · refine ⟨fun hsearch => ?_, ih h.2⟩
        have hshort : w.closed.length < c.model.minimalAvail := by
          by_contra hlong
          exact hstands ⟨Nat.le_of_not_lt hlong, hsearch⟩
        rw [standing_of_short hshort] at h
        exact h.1 hsearch

section Lengths
variable {t : List UInt8}

theorem length_applyRule (hitems : e.match.items ≠ [])
    (hlong : e.match.items.length < (c.underSuffix e).length) (t : List UInt8) :
    t.length ≤ (c.applyRule t e).length ∧
      (e.match.search t → t.length < (c.applyRule t e).length) := by
  have hlen := length_sub hitems (c.underSuffix e) t
  have hle := Nat.mul_le_mul_left (e.match.found t).length hlong.le
  rw [applyRule]
  refine ⟨by omega, fun hsearch => ?_⟩
  have hpos := List.length_pos_iff.mpr (found_ne_nil_of_search hitems hsearch)
  have hlt := Nat.mul_lt_mul_of_pos_left hlong hpos
  omega

theorem length_foldl_applyRule (hitems : ∀ e ∈ es, e.match.items ≠ [])
    (hlong : ∀ e ∈ es, e.match.items.length < (c.underSuffix e).length) (t : List UInt8) :
    t.length ≤ (es.foldl c.applyRule t).length := by
  induction es generalizing t with
  | nil => exact Nat.le_refl _
  | cons e es ih =>
      rw [List.forall_mem_cons] at hitems hlong
      exact (length_applyRule hitems.1 hlong.1 t).1.trans (ih hitems.2 hlong.2 _)

/-- A name that is found makes the text longer. -/
theorem lt_length_of_search (hitems : ∀ e ∈ elems, e.match.items ≠ [])
    (hlong : ∀ e ∈ elems, e.match.items.length < (c.underSuffix e).length)
    (havail : c.model.minimalAvail ≤ t.length) (he : e ∈ elems) (h : e.match.search t) :
    t.length < ((c.firing elems t).foldl c.applyRule t).length := by
  induction elems with
  | nil => cases he
  | cons e' elems ih =>
      rw [List.forall_mem_cons] at hitems hlong
      rw [firing_cons]
      by_cases hfound : e'.match.search t
      · rw [if_pos ⟨havail, hfound⟩, List.foldl_cons]
        refine ((length_applyRule hitems.1 hlong.1 t).2 hfound).trans_le ?_
        exact length_foldl_applyRule (fun e he => hitems.2 e (mem_of_mem_firing he))
          (fun e he => hlong.2 e (mem_of_mem_firing he)) _
      · rw [if_neg fun hfires => hfound hfires.2]
        rcases List.mem_cons.mp he with rfl | he
        · exact absurd h hfound
        · exact ih hitems.2 hlong.2 he

end Lengths

end Cells

end ProxyController

/-! ## Single URLs -/

/-- A URL with the domain, and the path after it. -/
def HasDomain (domain path u : List UInt8) : Prop :=
  ∃ scheme userinfo, u = scheme ++ 47 :: 47 :: (userinfo ++ (domain ++ path)) ∧
    ¬ [47, 47] <:+: scheme ++ [47] ∧ IsUserinfo userinfo ∧ (userinfo = [] → 64 ∉ domain) ∧
      (∀ b ∈ domain, b ∉ ([47, 63, 35] : List UInt8)) ∧ IsTail path

section Url
variable {p : Pattern UInt8} {repl domain path u t : List UInt8}

theorem IsUserinfo.free {userinfo : List UInt8} (h : IsUserinfo userinfo) :
    ∀ b ∈ userinfo, b ∉ ([47, 63, 35] : List UInt8) := by
  have hnil : IsHostPort [] := fun b hb => absurd hb List.not_mem_nil
  have hfree := authority_free h hnil
  rwa [List.append_nil] at hfree

/-- `split_url` finds it. -/
theorem HasDomain.domain_eq (h : HasDomain domain path u) : (splitUrl u).2.1 = domain := by
  obtain ⟨scheme, userinfo, rfl, hscheme, huser, hat, hdomain, htail⟩ := h
  have hdrop : ∀ t : List UInt8, (scheme ++ 47 :: 47 :: t).drop (scheme.length + 2) = t := by
    intro t
    rw [← List.drop_drop, List.drop_left]
    rfl
  have hfree : ∀ b ∈ userinfo ++ domain, b ∉ ([47, 63, 35] : List UInt8) := by
    intro b hb
    rcases List.mem_append.mp hb with hb | hb
    · exact huser.free b hb
    · exact hdomain b hb
  rw [splitUrl_eq, find_of_first hscheme]
  simp only [Option.map_some, Option.getD_some, hdrop]
  rw [← List.append_assoc, (cut_of_tail hfree htail).1, afterUserinfo_append huser hat]

/-- What is taken off before a domain is userinfo. -/
theorem exists_userinfo {d : List UInt8} (hd : ∀ b ∈ d, b ∉ ([47, 63, 35] : List UInt8)) :
    ∃ userinfo, d = userinfo ++ afterUserinfo d ∧ IsUserinfo userinfo ∧
      (userinfo = [] → 64 ∉ afterUserinfo d) := by
  rw [afterUserinfo, find_singleton]
  cases hfind : d.findIdx? (· = 64) with
  | none =>
      refine ⟨[], rfl, .inl rfl, fun _ hmem => ?_⟩
      exact absurd (List.findIdx?_eq_none_iff.mp hfind 64 hmem) (by decide)
  | some pos =>
      obtain ⟨hpos, hfound, hfirst⟩ := List.findIdx?_eq_some_iff_getElem.mp hfind
      have hat : d[pos] = 64 := of_decide_eq_true hfound
      have hsplit : d = (d.take pos ++ [64]) ++ d.drop (pos + 1) := by
        rw [← hat, List.append_assoc, List.singleton_append, List.getElem_cons_drop,
          List.take_append_drop]
      refine ⟨d.take pos ++ [64], hsplit, .inr ⟨d.take pos, rfl, ?_⟩, fun hnil => ?_⟩
      · intro b hb hmem
        rcases List.mem_append.mp (show b ∈ [47, 63, 35] ++ [64] from hmem) with hmem | hmem
        · exact hd b (List.mem_of_mem_take hb) hmem
        · obtain ⟨j, hj, rfl⟩ := List.mem_iff_getElem.mp hb
          rw [List.length_take] at hj
          rw [List.getElem_take] at hmem
          exact hfirst j (by omega) (decide_eq_true (List.mem_singleton.mp hmem))
      · exact absurd hnil (by simp)

theorem HasDomain.find_ne_none (h : HasDomain domain path u) : find u [47, 47] ≠ none := by
  obtain ⟨scheme, userinfo, rfl, hscheme, -⟩ := h
  rw [find_of_first hscheme]
  exact Option.some_ne_none _

theorem hasDomain_splitUrl (h : find u [47, 47] ≠ none) :
    HasDomain (splitUrl u).2.1 (splitUrl u).2.2 u := by
  obtain ⟨i, hi⟩ := Option.ne_none_iff_exists'.mp h
  obtain ⟨hsplit, hslashes⟩ := slashes_of_find hi
  rw [splitUrl_eq, hi]
  simp only [Option.map_some, Option.getD_some]
  generalize u.drop (i + 2) = rest at *
  have hfree : ∀ b ∈ rest.take (findAnyOf [47, 63, 35] rest), b ∉ ([47, 63, 35] : List UInt8) :=
    fun b hb => not_mem_take_findAnyOf hb
  obtain ⟨userinfo, hrest, huser, hat⟩ := exists_userinfo hfree
  refine ⟨u.take i, userinfo, ?_, hslashes, huser, hat, ?_, isTail_drop_findAnyOf⟩
  · rw [← List.append_assoc, ← hrest, List.take_append_drop]
    exact hsplit
  · exact fun b hb => hfree b (mem_of_mem_afterUserinfo hb)

/-- Two slashes, as a pattern. -/
def slashes : Pattern UInt8 := ⟨[fun b => b = 47, fun b => b = 47], fun _ => true⟩

theorem search_slashes : slashes.search t ↔ [47, 47] <:+: t := by
  rw [search_iff_covers]
  constructor
  · rintro ⟨a, x, b, rfl, hx, -⟩
    have hx' : x = [47, 47] := by
      rw [slashes, Covers] at hx
      cases hx with
      | cons h hx =>
          cases hx with
          | cons h' hx =>
              cases hx
              rw [of_decide_eq_true h, of_decide_eq_true h']
    exact ⟨a, b, by rw [hx', List.append_assoc]⟩
  · rintro ⟨a, b, rfl⟩
    exact ⟨a, [47, 47], b, List.append_assoc _ _ _, .cons rfl (.cons rfl .nil), rfl⟩

/-- A host is apart from them. -/
theorem apart_slashes (hrepl : 47 ∉ repl) (hne : repl ≠ []) : slashes.Apart repl := by
  have hfirst : ∀ items x, items ≠ [] → x ≠ [] → (∀ f ∈ items, f ∈ slashes.items) → 47 ∉ x →
      ¬ agree items x := by
    intro items x hitems hx hslashes hmem
    obtain ⟨f, items, rfl⟩ := List.exists_cons_of_ne_nil hitems
    obtain ⟨b, x, rfl⟩ := List.exists_cons_of_ne_nil hx
    have hf : f = fun b => decide (b = 47) := by
      simpa [slashes] using hslashes f List.mem_cons_self
    rw [agree, List.zip_cons_cons, List.all_cons, Bool.and_eq_true, hf]
    rintro ⟨hb, -⟩
    exact hmem (of_decide_eq_true hb ▸ List.mem_cons_self)
  constructor
  · intro k hk
    exact hfirst _ _ (List.cons_ne_nil _ _) (by simpa using hk) (fun f hf => hf)
      fun hmem => hrepl (List.mem_of_mem_drop hmem)
  · intro k hk
    exact hfirst _ _ (by simpa using hk) hne (fun f hf => List.mem_of_mem_drop hf) hrepl

/-- One that is put in brings none. -/
theorem not_slashes_sub (hitems : p.items ≠ []) (hp : ∀ f ∈ p.items, ¬ f 47) (hrepl : 47 ∉ repl)
    (hne : repl ≠ []) (r : List UInt8) (h : ¬ [47, 47] <:+: t ++ [47]) :
    ¬ [47, 47] <:+: (p.before (47 :: r)).sub repl t ++ [47] := by
  have hsub : (p.before r).sub repl (t ++ [47]) = (p.before (47 :: r)).sub repl t ++ [47] := by
    rw [sub_append_sep (p := p.before r) hitems repl hp, before_before]
    rfl
  rw [← search_slashes] at h ⊢
  rw [← hsub]
  exact fun hsearch => h (search_sub_of_apart (q := p.before r) hitems (apart_slashes hrepl hne)
    (fun _ _ _ _ => rfl) hsearch)

end Url

section Rename
variable {c : ProxyController} {sufixo : List UInt8} {lines : List Line} {e : Entry}
variable {domain path u : List UInt8}

theorem Line.IsRename.hasNames {line : Line} (h : line.IsRename) : line.HasNames := by
  cases line with
  | noProxy domain => exact h.elim
  | proxyDomainRename oldDomain newDomain => exact h

theorem noProxy_eq_nil (hlines : ∀ line ∈ lines, line.IsRename) (hc : c = .init sufixo lines) :
    c.model.noProxy = [] := by
  rw [List.eq_nil_iff_forall_not_mem]
  intro e he
  have he : e ∈ rules .byNeverProxy lines := mem_iter_traverse (by rwa [hc] at he)
  obtain ⟨line, hline, hassigned⟩ := List.mem_filterMap.mp he
  cases line with
  | noProxy domain => exact (hlines _ hline).elim
  | proxyDomainRename oldDomain newDomain => cases hassigned

/-- What ends a host, and a space, is matched by itself only. -/
theorem eq_of_tolower_eq {s b : UInt8} (hs : s ∈ ([47, 63, 35, 64, 32] : List UInt8))
    (h : tolower s = tolower b) : s = b := by
  have hs' : s.toNat = 47 ∨ s.toNat = 63 ∨ s.toNat = 35 ∨ s.toNat = 64 ∨ s.toNat = 32 := by
    simp only [List.mem_cons, List.not_mem_nil, or_false] at hs
    rcases hs with rfl | rfl | rfl | rfl | rfl <;> decide
  have hb := congrArg UInt8.toNat h
  rw [toNat_tolower, toNat_tolower] at hb
  rw [← UInt8.toNat_inj]
  split_ifs at hb <;> omega

/-- What the pattern of a rule is for. -/
theorem match_of_going (hlines : ∀ line ∈ lines, line.IsRename) (hc : c = .init sufixo lines)
    (he : e ∈ c.model.going) :
    (∀ s ∈ ([47, 63, 35, 64, 32] : List UInt8), s ∉ e.pattern → ∀ f ∈ e.match.items, ¬ f s) ∧
      (¬ e.atEnd → ∀ t, e.match.rest t) ∧ e.match.items.length = e.name.length := by
  have he : e ∈ rules .byGoing lines := mem_iter_traverse (by rwa [hc] at he)
  obtain ⟨oldDomain, newDomain, hline, rfl⟩ := mem_rules_byGoing he
  obtain ⟨name, hname, heq⟩ := exists_name_of_literal (hlines _ hline).1
  have hmem : ∀ b ∈ name, b ∈ ProxyModel.clean name := by
    intro b hb
    refine List.mem_flatMap.mpr ⟨b, hb, ?_⟩
    split_ifs with hdot
    · exact hdot ▸ List.mem_cons_of_mem 92 List.mem_cons_self
    · exact List.mem_singleton.mpr rfl
  have hsep : ∀ s ∈ ([47, 63, 35, 64, 32] : List UInt8), s ∉ ProxyModel.clean oldDomain →
      ∀ f ∈ name.map (reChar true), ¬ f s := by
    intro s hs hnot f hf
    obtain ⟨b, hb, rfl⟩ := List.mem_map.mp hf
    rw [reChar, if_pos rfl, decide_eq_true_eq]
    intro htolower
    obtain rfl := eq_of_tolower_eq hs htolower
    rcases heq with heq | heq
    · exact hnot (heq ▸ hmem s hb)
    · exact hnot (heq ▸ List.mem_append_left _ (hmem s hb))
  have hfilter := filter_clean hname.not_metachar
  rcases heq with heq | heq
  · rw [heq] at hsep ⊢
    rw [match_clean newDomain hname.not_metachar, Entry.name, hfilter]
    exact ⟨hsep, fun _ _ => rfl, List.length_map _⟩
  · have hitems : (Entry.match ⟨newDomain, ProxyModel.clean oldDomain⟩).items =
        name.map (reChar true) := by
      rw [Entry.match, heq, reCompile, reItems_clean_dollar hname.not_metachar]
    rw [hitems]
    refine ⟨hsep, fun hend => absurd ?_ hend, ?_⟩
    · rw [Entry.atEnd, heq, List.getLast?_append, List.getLast?_singleton]
      rfl
    · rw [Entry.name, heq, List.filter_append, hfilter, List.length_map]
      exact congrArg List.length (List.append_nil name).symm

/-- A rule renames the domain of a URL, and what else it renames leaves it a URL. -/
theorem HasDomain.applyRule (hlines : ∀ line ∈ lines, line.IsRename) (hc : c = .init sufixo lines)
    (he : e ∈ c.model.going) (hurl : c.KeepsUrl path e) (h : HasDomain domain path u) :
    ∃ path', (path = [] → path' = []) ∧
      HasDomain (c.applyRule domain e) path' (c.applyRule u e) := by
  obtain ⟨scheme, userinfo, rfl, hslashes, huser, hat, hdomain, htail⟩ := h
  have hitems := items_ne_nil_of_going (fun line hline => (hlines line hline).hasNames) hc he
  obtain ⟨hsep, hrest, -⟩ := match_of_going hlines hc he
  have hnot : ∀ s ∈ ([47, 63, 35, 64, 32] : List UInt8), s ∉ e.pattern ∧ s ∉ c.underSuffix e := by
    intro s hs
    rw [← not_or, ← List.mem_append]
    exact fun hmem => hurl.1 s hmem hs
  have hcut : ∀ s ∈ ([47, 63, 35, 64, 32] : List UInt8), ∀ l r, c.applyRule (l ++ s :: r) e =
      (e.match.before (s :: r)).sub (c.underSuffix e) l ++ s :: c.applyRule r e :=
    fun s hs l r => sub_append_sep hitems _ (hsep s hs (hnot s hs).1)
  have hmem : ∀ (p : Pattern UInt8) l, ∀ s ∈ ([47, 63, 35, 64, 32] : List UInt8), s ∉ l →
      s ∉ p.sub (c.underSuffix e) l := by
    intro p l s hs hl hsub
    rcases mem_of_mem_subFrom hsub with hsub | hsub
    · exact (hnot s hs).2 hsub
    · exact hl hsub
  have hpath : ∃ path', (path = [] → path' = []) ∧ IsTail path' ∧
      c.applyRule (domain ++ path) e = c.applyRule domain e ++ path' := by
    cases path with
    | nil => exact ⟨[], fun _ => rfl, htail, by simp⟩
    | cons s r =>
        have hs : s ∈ ([47, 63, 35] : List UInt8) := htail s rfl
        have hloose : ∀ t, e.match.rest t := hrest fun hend => List.cons_ne_nil s r (hurl.2 hend)
        refine ⟨s :: c.applyRule r e, fun hnil => absurd hnil (List.cons_ne_nil s r),
          isTail_cons hs, ?_⟩
        rw [hcut s (List.mem_append_left [64, 32] hs), before_eq_self hloose]
        rfl
  have huser' : ∃ userinfo', IsUserinfo userinfo' ∧ (userinfo' = [] → userinfo = []) ∧
      c.applyRule (userinfo ++ (domain ++ path)) e =
        userinfo' ++ c.applyRule (domain ++ path) e := by
    rcases huser with rfl | ⟨name, rfl, hname⟩
    · exact ⟨[], .inl rfl, fun _ => rfl, rfl⟩
    · refine ⟨(e.match.before (64 :: (domain ++ path))).sub (c.underSuffix e) name ++ [64],
        .inr ⟨_, rfl, ?_⟩, fun hnil => absurd hnil (List.append_ne_nil_of_right_ne_nil _ (by simp)),
        ?_⟩
      · exact fun b hb hsep' =>
          hmem _ _ b (List.mem_append_left [32] hsep') (fun hb' => hname b hb' hsep') hb
      · rw [List.append_assoc, List.singleton_append, hcut 64 (by decide), List.append_assoc,
          List.singleton_append]
  obtain ⟨path', hnil, htail', hpath⟩ := hpath
  obtain ⟨userinfo', huserinfo, hnone, huser'⟩ := huser'
  refine ⟨path', hnil, (e.match.before (47 :: (47 :: (userinfo ++ (domain ++ path))))).sub
    (c.underSuffix e) scheme, userinfo', ?_, ?_, huserinfo, ?_, ?_, htail'⟩
  · have hslash := hcut 47 (by decide) [] (userinfo ++ (domain ++ path))
    rw [List.nil_append, sub_nil, List.nil_append, huser', hpath] at hslash
    rw [hcut 47 (by decide), hslash]
  · exact not_slashes_sub hitems (hsep 47 (by decide) (hnot 47 (by decide)).1)
      (hnot 47 (by decide)).2 (by simp [ProxyController.underSuffix]) _ hslashes
  · exact fun hnil' => hmem _ _ 64 (by decide) (hat (hnone hnil'))
  · intro b hb hsep'
    exact hmem _ _ b (List.mem_append_left [64, 32] hsep') (fun hb' => hdomain b hb' hsep') hb

/-- All of them together rename the domain. -/
theorem HasDomain.foldl_applyRule (hlines : ∀ line ∈ lines, line.IsRename)
    (hc : c = .init sufixo lines) {es : List Entry} (hes : ∀ e ∈ es, e ∈ c.model.going)
    (hurl : ∀ e ∈ es, c.KeepsUrl path e) (h : HasDomain domain path u) :
    ∃ path', HasDomain (es.foldl c.applyRule domain) path' (es.foldl c.applyRule u) := by
  induction es generalizing domain path u with
  | nil => exact ⟨path, h⟩
  | cons e es ih =>
      rw [List.forall_mem_cons] at hes hurl
      obtain ⟨path', hnil, hstep⟩ := h.applyRule hlines hc hes.1 hurl.1
      refine ih hes.2 (fun e' he' => ⟨(hurl.2 e' he').1, fun hend => hnil ?_⟩) hstep
      exact (hurl.2 e' he').2 hend

/-- A URL is one still. -/
theorem IsSingleUrl.foldl_applyRule {es : List Entry} {data : List UInt8} (h : IsSingleUrl data)
    (hes : ∀ e ∈ es, c.KeepsUrl path e) (hitems : ∀ e ∈ es, e.match.items ≠ [])
    (hslashes : find (es.foldl c.applyRule data) [47, 47] ≠ none) :
    IsSingleUrl (es.foldl c.applyRule data) := by
  have hfind : ∀ t, IsSingleUrl t ↔ find t [47, 47] ≠ none ∧ 46 ∈ t ∧ 32 ∉ t := by
    intro t
    rw [IsSingleUrl, ne_eq (find t [46]), find_eq_none_iff, find_eq_none_iff,
      List.singleton_infix_iff, List.singleton_infix_iff, not_not]
  rw [hfind] at h ⊢
  obtain ⟨-, hdot, hspace⟩ := h
  refine ⟨hslashes, ?_⟩
  clear hslashes
  induction es generalizing data with
  | nil => exact ⟨hdot, hspace⟩
  | cons e es ih =>
      rw [List.forall_mem_cons] at hes hitems
      apply ih hes.2 hitems.2
      · exact mem_sub_of_mem hitems.1 (by simp [ProxyController.underSuffix]) hdot
      · intro hmem'
        rcases mem_of_mem_subFrom hmem' with hmem' | hmem'
        · exact hes.1.1 32 (List.mem_append_right _ hmem') (by decide)
        · exact hspace hmem'

section Again
variable {data : List UInt8}

theorem fired_eq_firing (hlines : ∀ line ∈ lines, line.IsRename) (hc : c = .init sufixo lines)
    (t : List UInt8) : c.fired t = c.firing c.model.going (lookedAt t) := by
  rw [ProxyController.fired, noProxy_eq_nil hlines hc]
  rfl

/-- The first pass applies the rules whose names stand in the text. -/
theorem doAllRedirects_eq_applied (hlines : ∀ line ∈ lines, line.IsRename)
    (hc : c = .init sufixo lines) (h : c.ClosesUp c.model.going (whole (lookedAt data))) :
    c.doAllRedirects data = (c.applied data).foldl c.applyRule data := by
  have hitems : ∀ e ∈ c.model.going, e.match.items ≠ [] := fun e =>
    items_ne_nil_of_going (fun line hline => (hlines line hline).hasNames) hc
  have hclosed : (whole (lookedAt data)).closed = lookedAt data := filled_whole _
  rw [ProxyController.doAllRedirects_eq, fired_eq_firing hlines hc, ← hclosed,
    ProxyController.firing_closed hitems h, ProxyController.applied]

/-- What the text that is looked at becomes. -/
theorem foldl_applied (hlines : ∀ line ∈ lines, line.IsRename) (hc : c = .init sufixo lines)
    (h : c.FillsIn (c.applied data) (whole (lookedAt data))) :
    (c.applied data).foldl c.applyRule (lookedAt data) =
      filled id ((c.applied data).foldl c.cross (whole (lookedAt data))) := by
  have hfilled := ProxyController.foldl_applyRule_filled (c := c)
    (fun e he => items_ne_nil_of_going (fun line hline => (hlines line hline).hasNames) hc
      (ProxyController.mem_of_mem_standing he)) h
  rwa [filled_whole] at hfilled

/-- A second pass changes nothing after one that renames once. -/
theorem doAllRedirects_of_renamesOnce (hlines : ∀ line ∈ lines, line.IsRename)
    (hc : c = .init sufixo lines) (h : c.RenamesOnce data) :
    c.doAllRedirects (c.doAllRedirects data) = c.doAllRedirects data := by
  have hitems : ∀ e ∈ c.model.going, e.match.items ≠ [] := fun e =>
    items_ne_nil_of_going (fun line hline => (hlines line hline).hasNames) hc
  have hgoing : ∀ e ∈ c.applied data, e ∈ c.model.going := fun e he =>
    ProxyController.mem_of_mem_standing he
  have hresult := doAllRedirects_eq_applied hlines hc h.1.1
  by_cases hnone : c.applied data = []
  · have hsame : c.doAllRedirects data = data := by
      rw [hresult, hnone]
      rfl
    rw [hsame, hsame]
  · obtain ⟨hmisses, hkeeps, hurl⟩ := h.2 hnone
    -- no name is in what the text that was looked at has become
    have hleft : ∀ e ∈ c.model.going,
        ¬ e.match.search ((c.applied data).foldl c.applyRule (lookedAt data)) := by
      intro e he hsearch
      rw [foldl_applied hlines hc h.1.2] at hsearch
      exact ProxyController.not_search_of_missesNone hitems hmisses e he
        (search_of_filled (hitems e he) (hkeeps e he) hsearch)
    rw [ProxyController.doAllRedirects_eq (c.doAllRedirects data), fired_eq_firing hlines hc]
    by_cases hsingle : IsSingleUrl data
    · obtain ⟨path', hdomain⟩ :=
        (hasDomain_splitUrl hsingle.1).foldl_applyRule hlines hc hgoing (hurl hsingle)
      have hsingle' := hsingle.foldl_applyRule (hurl hsingle) (fun e he => hitems e (hgoing e he))
        hdomain.find_ne_none
      rw [← hresult] at hdomain hsingle'
      have hlooked : lookedAt (c.doAllRedirects data) =
          (c.applied data).foldl c.applyRule (lookedAt data) := by
        rw [lookedAt, if_pos hsingle', hdomain.domain_eq, lookedAt, if_pos hsingle]
      rw [hlooked, ProxyController.firing_eq_nil hleft]
      rfl
    · have hwhole : lookedAt data = data := if_neg hsingle
      rw [hwhole, ← hresult] at hleft
      refine ProxyController.foldl_applyRule_of_not_search ?_ ?_
      · exact fun e he => hitems e (ProxyController.mem_of_mem_firing he)
      · exact fun e he => hleft e (ProxyController.mem_of_mem_firing he)

/-- A space stays in a text. -/
theorem mem_space_foldl (hlines : ∀ line ∈ lines, line.IsRename) (hc : c = .init sufixo lines)
    {es : List Entry} (hes : ∀ e ∈ es, e ∈ c.model.going) (hnot : ∀ e ∈ es, 32 ∉ e.pattern)
    (h : 32 ∈ data) : 32 ∈ es.foldl c.applyRule data := by
  induction es generalizing data with
  | nil => exact h
  | cons e es ih =>
      rw [List.forall_mem_cons] at hes hnot
      apply ih hes.2 hnot.2
      obtain ⟨l, r, rfl⟩ := List.append_of_mem h
      have hitems := items_ne_nil_of_going (fun line hline => (hlines line hline).hasNames) hc hes.1
      have hsep := (match_of_going hlines hc hes.1).1 32 (by decide) hnot.1
      rw [ProxyController.applyRule, sub_append_sep hitems _ hsep]
      exact List.mem_append_right _ List.mem_cons_self

theorem not_isSingleUrl (h : 32 ∈ data) : ¬ IsSingleUrl data := by
  rintro ⟨-, -, hspace⟩
  rw [find_eq_none_iff, List.singleton_infix_iff] at hspace
  exact hspace h

/-- What a second pass does not change was renamed once, if aliases are longer than names. -/
theorem renamesOnce_of_doAllRedirects (hlines : ∀ line ∈ lines, line.IsRename)
    (hc : c = .init sufixo lines) (hlengthens : c.Lengthens) (hspace : 32 ∈ data)
    (hletters : c.ReadsLetters data)
    (h : c.doAllRedirects (c.doAllRedirects data) = c.doAllRedirects data) :
    c.RenamesOnce data := by
  have hitems : ∀ e ∈ c.model.going, e.match.items ≠ [] := fun e =>
    items_ne_nil_of_going (fun line hline => (hlines line hline).hasNames) hc
  have hlong : ∀ e ∈ c.model.going, e.match.items.length < (c.underSuffix e).length := by
    intro e he
    rw [(match_of_going hlines hc he).2.2]
    exact (hlengthens e he).1
  have hgoing : ∀ e ∈ c.applied data, e ∈ c.model.going := fun e he =>
    ProxyController.mem_of_mem_standing he
  have hresult := doAllRedirects_eq_applied hlines hc hletters.1
  have hwhole : lookedAt data = data := if_neg (not_isSingleUrl hspace)
  have hspace' : 32 ∈ c.doAllRedirects data := by
    rw [hresult]
    exact mem_space_foldl hlines hc hgoing (fun e he => (hlengthens e (hgoing e he)).2) hspace
  have hwhole' : lookedAt (c.doAllRedirects data) = c.doAllRedirects data :=
    if_neg (not_isSingleUrl hspace')
  refine ⟨hletters, fun hne => ?_⟩
  have havail : c.model.minimalAvail ≤ (c.doAllRedirects data).length := by
    have hlong' := ProxyController.length_foldl_applyRule (c := c)
      (fun e he => hitems e (hgoing e he)) (fun e he => hlong e (hgoing e he)) data
    rw [← hresult] at hlong'
    refine le_trans (Nat.le_of_not_lt fun hshort => hne ?_) hlong'
    apply ProxyController.standing_of_short
    rwa [closed, filled_whole, hwhole]
  -- a name that is found is renamed, which makes the text longer
  have hnone : ∀ e ∈ c.model.going, ¬ e.match.search (c.doAllRedirects data) := by
    intro e he hsearch
    have hlt := ProxyController.lt_length_of_search hitems hlong havail he hsearch
    rw [← hwhole', ← fired_eq_firing hlines hc, hwhole', ← ProxyController.doAllRedirects_eq,
      h] at hlt
    exact Nat.lt_irrefl _ hlt
  have hfilled : c.doAllRedirects data =
      filled id ((c.applied data).foldl c.cross (whole (lookedAt data))) := by
    rw [hresult, ← foldl_applied hlines hc hletters.2, hwhole]
  rw [hfilled] at hnone
  refine ⟨?_, fun e he => keepsTo_of_not_search (hnone e he),
    fun hsingle => absurd hsingle (not_isSingleUrl hspace)⟩
  apply ProxyController.missesNone_of_not_search
  exact fun e he hsearch => hnone e he (search_filled_of_search (fun _ h => h) hsearch)

-- under `b` the alias of `n.b` is `a.b`, and that of `a.b` is `n.b`: `an.b.b` comes out as it was
example :
    let c := ProxyController.init [98]
      [.proxyDomainRename [97, 46, 98] [110], .proxyDomainRename [110, 46, 98] [97]]
    c.doAllRedirects [97, 110, 46, 98, 46, 98] = [97, 110, 46, 98, 46, 98] ∧
      ¬ c.ReadsLetters [97, 110, 46, 98, 46, 98] := by
  decide +kernel

end Again

end Rename

theorem isRename_iop : ∀ line ∈ renameLines iopRules, line.IsRename := by
  intro line hline
  obtain rfl | rfl := by simpa [renameLines, iopRules] using hline
  · exact ⟨⟨_, ⟨by decide, by decide +kernel⟩, .inl rfl⟩, by decide⟩
  · exact ⟨⟨_, ⟨by decide, by decide +kernel⟩, .inl rfl⟩, by decide⟩

end RenaProxy.Squid
