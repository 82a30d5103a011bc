import RenaProxy.Squid.RuleFiles
import RenaProxy.Squid.SplitUrl

/-!
# A redirect of a redirect

What `do_redirect` gives back is put together from the scheme, a domain, the suffix and the path. It
is cut at the same places again, `splitUrl_redirected`, and its domain ends with the suffix, so
that it comes back as it is: `doRedirect_doRedirect`.
-/
namespace RenaProxy.Squid
open SequencePattern SequencePattern.Pattern

/-- A line of literal names. The alias is put into a domain, and takes no part in how it is cut. -/
def Line.IsPlain : Line → Prop
  | .noProxy domain => Squid.IsLiteral domain
  | .proxyDomainRename oldDomain newDomain =>
      Squid.IsLiteral oldDomain ∧ ∀ b ∈ newDomain, b ∉ ([47, 63, 35, 64, 92, 10] : List UInt8)

/-- What `split_url` leaves before the path. -/
def beforePath (uri : List UInt8) : List UInt8 := uri.take (uri.length - (splitUrl uri).2.2.length)

/-- What `do_redirect` puts together. -/
def redirected (scheme name suffix path : List UInt8) : List UInt8 :=
  scheme ++ 47 :: 47 :: ((name ++ 46 :: suffix) ++ path)

/-! ## Where a URL is cut -/

section Cut
variable {t uri scheme path name suffix : List UInt8} {i : ℕ}

/-- Before the first two slashes there are none, not even with the first of them. -/
theorem slashes_of_find (h : find uri [47, 47] = some i) :
    uri = uri.take i ++ 47 :: 47 :: uri.drop (i + 2) ∧ ¬ [47, 47] <:+: uri.take i ++ [47] := by
  obtain ⟨r, hr⟩ := prefix_of_find h
  obtain ⟨hi, -, hfirst⟩ := List.findIdx?_eq_some_iff_getElem.mp h
  have hsplit : uri = uri.take i ++ 47 :: 47 :: r := by
    conv_lhs => rw [← List.take_append_drop i uri, ← hr]
    rfl
  have hlen : (uri.take i).length = i := by
    rw [List.length_tails] at hi
    rw [List.length_take]
    omega
  have hdrop : uri.drop (i + 2) = r := by
    rw [← List.drop_drop, ← hr]
    rfl
  refine ⟨by rw [hdrop]; exact hsplit, ?_⟩
  rintro ⟨pre, post, heq⟩
  have hpre : pre.length < i := by
    have := congrArg List.length heq
    simp only [List.length_append, List.length_cons, List.length_nil, hlen] at this
    omega
  apply hfirst pre.length hpre
  rw [List.getElem_tails, List.isPrefixOf_iff_prefix, hsplit]
  refine ⟨post ++ 47 :: r, ?_⟩
  have hcut : uri.take i ++ 47 :: 47 :: r = pre ++ ([47, 47] ++ (post ++ 47 :: r)) := by
    rw [← List.singleton_append (l := 47 :: r), ← List.append_assoc, ← heq]
    simp only [List.append_assoc]
  rw [hcut, List.drop_left]

theorem lower_lower (s : List UInt8) : lower (lower s) = lower s := map_tolower_tolower s

theorem lower_eq_47 {b : UInt8} : tolower b = 47 ↔ b = 47 := by
  have h := toNat_tolower b
  rw [← UInt8.toNat_inj, ← UInt8.toNat_inj, h]
  change _ = 47 ↔ _ = 47
  split_ifs <;> omega

theorem slashes_lower (h : ¬ [47, 47] <:+: scheme ++ [47]) : ¬ [47, 47] <:+: lower scheme ++ [47] := by
  have hlower : lower scheme ++ [47] = lower (scheme ++ [47]) := by rw [lower_append]; rfl
  rw [hlower]
  rintro ⟨pre, post, heq⟩
  rw [List.append_assoc] at heq
  obtain ⟨pre', rest, hrest, -, heq⟩ := List.map_eq_append_iff.mp heq.symm
  obtain ⟨x, post', rfl, hx, -⟩ := List.map_eq_append_iff.mp heq
  apply h
  rw [hrest]
  refine ⟨pre', post', ?_⟩
  rw [List.append_assoc]
  congr 2
  obtain ⟨a, x, rfl, ha, hx⟩ := List.map_eq_cons_iff.mp hx
  obtain ⟨b, x, rfl, hb, hx⟩ := List.map_eq_cons_iff.mp hx
  rw [lower_eq_47.mp ha, lower_eq_47.mp hb, List.map_eq_nil_iff.mp hx]

/-- What `_find_any_of` stops at is not passed. -/
theorem not_mem_take_findAnyOf {b : UInt8} (hb : b ∈ t.take (findAnyOf [47, 63, 35] t)) :
    b ∉ ([47, 63, 35] : List UInt8) := by
  rw [findAnyOf] at hb
  cases h : t.findIdx? (· ∈ ([47, 63, 35] : List UInt8)) with
  | none =>
      have hall := List.findIdx?_eq_none_iff.mp h b (List.mem_of_mem_take hb)
      exact of_decide_eq_false hall
  | some pos =>
      rw [h] at hb
      dsimp only at hb
      obtain ⟨hpos, -, hbefore⟩ := List.findIdx?_eq_some_iff_getElem.mp h
      obtain ⟨j, hj, rfl⟩ := List.mem_iff_getElem.mp hb
      rw [List.length_take] at hj
      rw [List.getElem_take]
      simpa using hbefore j (by omega)

/-- And there a tail begins. -/
theorem isTail_drop_findAnyOf : IsTail (t.drop (findAnyOf [47, 63, 35] t)) := by
  intro b hb
  rw [findAnyOf] at hb
  cases h : t.findIdx? (· ∈ ([47, 63, 35] : List UInt8)) with
  | none =>
      rw [h] at hb
      rw [List.drop_of_length_le (by dsimp only; omega)] at hb
      cases hb
  | some pos =>
      rw [h] at hb
      obtain ⟨hpos, hfound, -⟩ := List.findIdx?_eq_some_iff_getElem.mp h
      rw [List.head?_drop, List.getElem?_eq_getElem hpos] at hb
      rw [← Option.mem_some.mp hb]
      exact of_decide_eq_true hfound

theorem mem_of_mem_afterUserinfo {b : UInt8} (h : b ∈ afterUserinfo t) : b ∈ t := by
  rw [afterUserinfo] at h
  split at h
  · exact List.mem_of_mem_drop h
  · exact h

/-- One `@` is taken off with what stands before it. -/
theorem not_mem_afterUserinfo (h : t.count 64 ≤ 1) : 64 ∉ afterUserinfo t := by
  rw [afterUserinfo, find_singleton]
  cases hfind : t.findIdx? (· = 64) with
  | none =>
      intro hmem
      exact absurd (List.findIdx?_eq_none_iff.mp hfind 64 hmem) (by decide)
  | some pos =>
      obtain ⟨hpos, hfound, -⟩ := List.findIdx?_eq_some_iff_getElem.mp hfind
      have hat : t[pos] = 64 := of_decide_eq_true hfound
      dsimp only
      intro hmem
      have hsplit : t = t.take pos ++ 64 :: t.drop (pos + 1) := by
        rw [← hat, List.getElem_cons_drop, List.take_append_drop]
      rw [hsplit, List.count_append, List.count_cons_self] at h
      have := List.count_pos_iff.mpr hmem
      omega

/-- What `split_url` gives back of any URL. -/
theorem splitUrl_spec (uri : List UInt8) : ¬ [47, 47] <:+: (splitUrl uri).1 ++ [47] ∧
    lower (splitUrl uri).1 = (splitUrl uri).1 ∧
    (∀ b ∈ (splitUrl uri).2.1, b ∉ ([47, 63, 35] : List UInt8) ∧ b ∈ uri) ∧
    IsTail (splitUrl uri).2.2 := by
  rw [splitUrl_eq]
  dsimp only
  refine ⟨?_, ?_, ?_, isTail_drop_findAnyOf⟩
  · cases hfind : find uri [47, 47] with
    | none =>
        rw [Option.map_none, Option.getD_none]
        decide
    | some i => exact slashes_lower (slashes_of_find hfind).2
  · cases find uri [47, 47] with
    | none => rfl
    | some i => exact lower_lower _
  · intro b hb
    have hb := mem_of_mem_afterUserinfo hb
    refine ⟨not_mem_take_findAnyOf hb, ?_⟩
    have hmem := List.mem_of_mem_take hb
    cases hfind : find uri [47, 47] with
    | none =>
        rw [hfind] at hmem
        exact hmem
    | some i =>
        rw [hfind] at hmem
        exact List.mem_of_mem_drop hmem

/-- With one `@` before its path at most, a URL has a domain without any. -/
theorem not_mem_domain (h : (beforePath uri).count 64 ≤ 1) : 64 ∉ (splitUrl uri).2.1 := by
  have hbefore : ∃ pre, beforePath uri = pre ++
      (((find uri [47, 47]).map fun i => uri.drop (i + 2)).getD uri).take
        (findAnyOf [47, 63, 35] (((find uri [47, 47]).map fun i => uri.drop (i + 2)).getD uri)) := by
    have hrest : ∃ pre, uri = pre ++ ((find uri [47, 47]).map fun i => uri.drop (i + 2)).getD uri := by
      cases hfind : find uri [47, 47] with
      | none => exact ⟨[], rfl⟩
      | some i => exact ⟨uri.take (i + 2), (List.take_append_drop _ _).symm⟩
    rw [beforePath, splitUrl_eq]
    dsimp only
    generalize ((find uri [47, 47]).map fun i => uri.drop (i + 2)).getD uri = rest at *
    obtain ⟨pre, rfl⟩ := hrest
    generalize findAnyOf [47, 63, 35] rest = stop
    refine ⟨pre, ?_⟩
    have hcut : pre ++ rest = (pre ++ rest.take stop) ++ rest.drop stop := by
      rw [List.append_assoc, List.take_append_drop]
    rw [hcut, List.length_append, Nat.add_sub_cancel, List.take_left]
  obtain ⟨pre, hpre⟩ := hbefore
  rw [hpre, List.count_append] at h
  rw [splitUrl_eq]
  apply not_mem_afterUserinfo
  omega

/-- **A URL that was put together** is cut at the same places again. -/
theorem splitUrl_redirected (hscheme : ¬ [47, 47] <:+: scheme ++ [47]) (hlower : lower scheme = scheme)
    (hname : ∀ b ∈ name ++ 46 :: suffix, b ∉ ([47, 63, 35] : List UInt8))
    (hat : 64 ∉ name ++ 46 :: suffix) (hpath : IsTail path) :
    splitUrl (redirected scheme name suffix path) = (scheme, name ++ 46 :: suffix, path) := by
  have hdrop : ∀ t : List UInt8, (scheme ++ 47 :: 47 :: t).drop (scheme.length + 2) = t := by
    intro t
    rw [← List.drop_drop, List.drop_left]
    rfl
  have hcut := cut_of_tail hname hpath
  rw [splitUrl_eq, redirected, find_of_first hscheme]
  simp only [Option.map_some, Option.getD_some, List.take_left, hdrop, hlower, hcut]
  rw [afterUserinfo_of_not_mem hat]

end Cut

/-! ## The suffix is found again -/

section Suffix
variable {c : ProxyController} {name t : List UInt8}

/-- The last place that is right is found first from behind. -/
theorem find?_reverse_range {p : ℕ → Bool} {k n : ℕ} (hk : k < n) (hp : p k)
    (hlast : ∀ i, k < i → i < n → ¬ p i) : (List.range n).reverse.find? p = some k := by
  induction n with
  | zero => cases hk
  | succ n ih =>
      rw [List.range_succ, List.reverse_append, List.reverse_singleton, List.singleton_append]
      rcases Nat.lt_or_eq_of_le (Nat.le_of_lt_succ hk) with hlt | rfl
      · rw [List.find?_cons_of_neg (hlast n hlt (Nat.lt_succ_self n))]
        exact ih hlt fun i hi hin => hlast i hi (Nat.lt_succ_of_lt hin)
      · exact List.find?_cons_of_pos hp

/-- **What stands before the suffix** is the group, whatever it is. -/
theorem suffixMatch_name (hc : ∀ b ∈ c.suffix, b ∉ metachars) (hline : 10 ∉ name) :
    c.suffixMatch (name ++ 46 :: c.suffix) = some name := by
  have hmeta : ∀ b ∈ 46 :: c.suffix, b ∉ metachars := by
    intro b hb
    rcases List.mem_cons.mp hb with rfl | hb
    · decide
    · exact hc b hb
  have hitems : ∀ t, c.isSuffix t ↔
      ∃ x r, t = x ++ r ∧ lower x = lower (46 :: c.suffix) ∧ (reEnd r ∨ ProxyController.isPort r) := by
    intro t
    rw [ProxyController.isSuffix, reCompile, reItems_clean hmeta]
    dsimp only
    simp only [follows_iff, covers_reChar, decide_eq_true_eq]
  rw [ProxyController.suffixMatch, find?_reverse_range (k := name.length), Option.map_some,
    List.take_left]
  · rw [List.length_append]
    omega
  · rw [decide_eq_true_iff, List.take_left, List.drop_left, hitems]
    exact ⟨hline, 46 :: c.suffix, [], by simp, rfl, .inl rfl⟩
  · -- behind it there is too little left for the suffix
    intro i hi _ hfound
    obtain ⟨x, r, heq, hx, -⟩ := (hitems _).mp (of_decide_eq_true hfound).2
    have hlen := congrArg List.length heq
    have hlen' := congrArg List.length hx
    rw [length_lower, length_lower, List.length_cons] at hlen'
    simp only [List.length_drop, List.length_append, List.length_cons] at hlen
    omega

theorem mem_of_mem_portSub {b : UInt8} (h : b ∈ ProxyController.portSub t) : b ∈ t := by
  induction t with
  | nil => exact h
  | cons a t ih =>
      rw [ProxyController.portSub] at h
      split_ifs at h
      · exact (List.mem_filter.mp h).1
      · rcases List.mem_cons.mp h with rfl | h
        · exact List.mem_cons_self
        · exact List.mem_cons_of_mem a (ih h)

theorem mem_of_suffixMatch {b : UInt8} (h : c.suffixMatch t = some name) (hb : b ∈ name) :
    b ∈ t := by
  rw [ProxyController.suffixMatch, Option.map_eq_some_iff] at h
  obtain ⟨i, -, rfl⟩ := h
  exact List.mem_of_mem_take hb

end Suffix

/-! ## Redirecting again -/

section Again
variable {sufixo u v : List UInt8} {lines : List Line} {c : ProxyController}

/-- `http:` where there is no scheme. -/
def schemeOr (scheme : List UInt8) : List UInt8 :=
  if scheme = [] then [104, 116, 116, 112, 58] else scheme

/-- What `do_redirect` gives back, where it redirects: the new name is from the domain or from an
alias of the rules. -/
theorem doRedirect_eq_true (h : c.doRedirect u = (true, v)) :
    ∃ name, v = redirected (schemeOr (splitUrl u).1) name c.suffix (splitUrl u).2.2 ∧
      ∀ b ∈ name, b ∈ (splitUrl u).2.1 ∨ ∃ e ∈ c.model.going, b ∈ e.ref := by
  have hscheme : (if (splitUrl u).1 = [] then [104, 116, 116, 112, 58] else (splitUrl u).1) =
      schemeOr (splitUrl u).1 := rfl
  rw [ProxyController.doRedirect] at h
  dsimp only at h
  rw [hscheme] at h
  cases hgroup : c.suffixMatch (splitUrl u).2.1 with
  | some group =>
      rw [hgroup] at h
      refine ⟨group, ?_, fun b hb => .inl (mem_of_suffixMatch hgroup hb)⟩
      have hv : _ = v := (Prod.ext_iff.mp h).2
      rw [← hv, redirected]
      simp
  | none =>
      rw [hgroup] at h
      dsimp only at h
      split_ifs at h
      · cases (Prod.ext_iff.mp h).1
      · cases hsearch : c.model.search c.model.going (splitUrl u).2.1 with
        | nil =>
            rw [hsearch] at h
            cases (Prod.ext_iff.mp h).1
        | cons e rest =>
            rw [hsearch] at h
            have hmem : e ∈ c.model.going := by
              have he : e ∈ c.model.search c.model.going (splitUrl u).2.1 := by simp [hsearch]
              exact (ProxyModel.mem_search.mp he).2.1
            refine ⟨ProxyController.portSub (e.match.sub e.ref (splitUrl u).2.1), ?_, ?_⟩
            · have hv : _ = v := (Prod.ext_iff.mp h).2
              rw [← hv, redirected]
              simp
            · intro b hb
              rcases mem_of_mem_subFrom (mem_of_mem_portSub hb) with hb | hb
              · exact .inr ⟨e, hmem, hb⟩
              · exact .inl hb

/-- A URL under the suffix comes back as it is. -/
theorem doRedirect_redirected {scheme name path : List UInt8} (hc : ∀ b ∈ c.suffix, IsHostByte b)
    (hscheme : ¬ [47, 47] <:+: scheme ++ [47]) (hlower : lower scheme = scheme) (hne : scheme ≠ [])
    (hname : ∀ b ∈ name, b ∉ ([47, 63, 35, 64, 10] : List UInt8)) (hpath : IsTail path) :
    c.doRedirect (redirected scheme name c.suffix path) =
      (true, redirected scheme name c.suffix path) := by
  have hdomain : ∀ b ∈ name ++ 46 :: c.suffix, b ∉ ([47, 63, 35, 64, 10] : List UInt8) := by
    intro b hb
    rcases List.mem_append.mp hb with hb | hb
    · exact hname b hb
    · have hbyte : IsHostByte b := by
        rcases List.mem_cons.mp hb with rfl | hb
        · decide
        · exact hc b hb
      intro hmem
      simp only [List.mem_cons, List.not_mem_nil, or_false] at hmem
      rcases hmem with rfl | rfl | rfl | rfl | rfl <;> exact absurd hbyte (by decide)
  have hsplit : splitUrl (redirected scheme name c.suffix path) =
      (scheme, name ++ 46 :: c.suffix, path) := by
    apply splitUrl_redirected hscheme hlower _ _ hpath
    · intro b hb hmem
      exact hdomain b hb (List.mem_of_mem_take (i := 3) hmem)
    · intro hmem
      exact hdomain 64 hmem (by decide)
  have hgroup : c.suffixMatch (name ++ 46 :: c.suffix) = some name :=
    suffixMatch_name (not_mem_metachars hc) fun hmem => hname 10 hmem (by decide)
  rw [ProxyController.doRedirect, hsplit]
  dsimp only
  rw [hgroup, if_neg hne]
  simp [redirected]

theorem mem_ref_going (hlines : ∀ line ∈ lines, line.IsPlain) {e : Entry}
    (he : e ∈ (ProxyModel.traverse lines).going) :
    ∀ b ∈ e.ref, b ∉ ([47, 63, 35, 64, 92, 10] : List UInt8) := by
  have he : e ∈ rules .byGoing lines := mem_iter_traverse he
  obtain ⟨oldDomain, newDomain, hline, rfl⟩ := mem_rules_byGoing he
  exact (hlines _ hline).2

/-- **`do_redirect` is idempotent**: a URL that it gives back, of one without a newline and with one `@`
before its path at most, it gives back again. -/
theorem doRedirect_doRedirect (hlines : ∀ line ∈ lines, line.IsPlain)
    (hsufixo : ∀ b ∈ sufixo, IsHostByte b) (hc : c = .init sufixo lines) (hline : 10 ∉ u)
    (hat : (beforePath u).count 64 ≤ 1) (h : c.doRedirect u = (true, v)) :
    c.doRedirect v = (true, v) := by
  obtain ⟨name, rfl, hname⟩ := doRedirect_eq_true h
  obtain ⟨hslashes, hlower, hdomain, htail⟩ := splitUrl_spec u
  have hsuffix' : ∀ b ∈ c.suffix, IsHostByte b := by
    rw [hc]
    exact isHostByte_suffix hsufixo
  apply doRedirect_redirected hsuffix' _ _ _ _ htail
  · rw [schemeOr]
    split_ifs
    · decide
    · exact hslashes
  · rw [schemeOr]
    split_ifs
    · decide
    · exact hlower
  · rw [schemeOr]
    split_ifs with hnil
    · simp
    · exact hnil
  · intro b hb hmem
    rcases hname b hb with hb | ⟨e, he, hb⟩
    · have hb' := hdomain b hb
      simp only [List.mem_cons, List.not_mem_nil, or_false] at hmem hb'
      rcases hmem with rfl | rfl | rfl | rfl | rfl
      · simp at hb'
      · simp at hb'
      · simp at hb'
      · exact not_mem_domain hat hb
      · exact hline hb'.2
    · rw [hc] at he
      have hsub : ([47, 63, 35, 64, 10] : List UInt8) ⊆ [47, 63, 35, 64, 92, 10] := by decide
      exact mem_ref_going hlines he b hb (hsub hmem)

end Again

/-- `//user@www.iop.org:81/x@y` becomes `http://www-iop.ez/x@y`. -/
theorem doRedirect_doRedirect_www :
    (ProxyController.init [101, 122] (renameLines iopRules)).doRedirect
        [104, 116, 116, 112, 58, 47, 47, 119, 119, 119, 45, 105, 111, 112, 46, 101, 122, 47, 120, 64, 121] =
      (true,
        [104, 116, 116, 112, 58, 47, 47, 119, 119, 119, 45, 105, 111, 112, 46, 101, 122, 47, 120, 64, 121]) := by
  have hlines : ∀ line ∈ renameLines iopRules, line.IsPlain := by
    intro line hline
    obtain rfl | rfl := by simpa [renameLines, iopRules] using hline
    · exact ⟨⟨_, ⟨by decide, by decide +kernel⟩, .inl rfl⟩, by decide +kernel⟩
    · exact ⟨⟨_, ⟨by decide, by decide +kernel⟩, .inl rfl⟩, by decide +kernel⟩
  exact doRedirect_doRedirect (u := [47, 47, 117, 115, 101, 114, 64, 119, 119, 119, 46, 105, 111, 112,
    46, 111, 114, 103, 58, 56, 49, 47, 120, 64, 121]) hlines (by decide +kernel) rfl (by decide +kernel)
    (by decide +kernel) (by decide +kernel)

end RenaProxy.Squid
