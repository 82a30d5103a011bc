import RenaProxy.Squid.Controller

/-!
# Undoing a rename

`undo_redirect` is meant to give back the URL that `do_redirect` renamed. It does where the name
of the rule stands at the end of the host and nowhere else in it, and where the first pattern that
matches the renamed host is that of the same rule: `undoRedirect_doRedirect`. Two hosts may have
the same alias; then it cannot, `not_undoRedirect_doRedirect`.
-/
namespace RenaProxy.Squid
open SequencePattern SequencePattern.Pattern

/-! ## Literal rules -/

/-- What a host consists of: letters, digits, `-` and `.`. -/
def IsHostByte (b : UInt8) : Prop :=
  48 ≤ b ∧ b ≤ 57 ∨ 65 ≤ b ∧ b ≤ 90 ∨ 97 ≤ b ∧ b ≤ 122 ∨ b = 45 ∨ b = 46

instance : DecidablePred IsHostByte := fun _ => inferInstanceAs (Decidable (_ ∨ _))

/-- What means something in a pattern, other than the dot: `^$*+?{}[]\|()`. -/
def metachars : List UInt8 := [94, 36, 42, 43, 63, 123, 125, 91, 93, 92, 124, 40, 41]

/-- A rename rule of a name without such characters and an alias of letters, digits and `-`. -/
structure LiteralRule (rule : List UInt8 × List UInt8) : Prop where
  old_ne_nil : rule.1 ≠ []
  new_ne_nil : rule.2 ≠ []
  old : ∀ b ∈ rule.1, b ∉ metachars
  new : ∀ b ∈ rule.2, IsHostByte b ∧ b ≠ 46

/-- Literal rules with different names and different aliases, ignoring case. -/
structure LiteralRules (rules : List (List UInt8 × List UInt8)) : Prop where
  literal : ∀ rule ∈ rules, LiteralRule rule
  names : (rules.map fun rule => lower rule.1).Nodup
  aliases : (rules.map fun rule => lower rule.2).Nodup

/-- The lines of rename rules. -/
def renameLines (rules : List (List UInt8 × List UInt8)) : List Line :=
  rules.map fun rule => .proxyDomainRename rule.1 rule.2

/-- `scheme://host` and the rest. -/
def url (scheme host tail : List UInt8) : List UInt8 := (scheme ++ [58]) ++ 47 :: 47 :: (host ++ tail)

/-- A name stands in a host at its end, and nowhere else. -/
def AtEnd (name host : List UInt8) : Prop :=
  ∀ i < host.length, lower name <+: (lower host).drop i → i + name.length = host.length

instance (name host : List UInt8) : Decidable (AtEnd name host) :=
  inferInstanceAs (Decidable (∀ _ < _, _))

/-- A pattern matches a text only from `start` on and before `stop`. -/
def MatchesWithin (p : Pattern UInt8) (text : List UInt8) (start stop : ℕ) : Prop :=
  ∀ i < text.length, p.matchAt (text.drop i) → start ≤ i ∧ i < stop

instance (p : Pattern UInt8) (text : List UInt8) (start stop : ℕ) :
    Decidable (MatchesWithin p text start stop) := inferInstanceAs (Decidable (∀ _ < _, _))

/-- A host whose last bytes, as many as the name has, are replaced by the alias. -/
def renamed (host name newName : List UInt8) : List UInt8 :=
  host.take (host.length - name.length) ++ newName

section Bytes
variable {b : UInt8}

theorem IsHostByte.ne (h : IsHostByte b) {c : UInt8} (hc : ¬ IsHostByte c) : b ≠ c :=
  fun heq => hc (heq ▸ h)

theorem isDomain_of_isHostByte {host : List UInt8} (h : ∀ b ∈ host, IsHostByte b) : IsDomain host := by
  intro b hb hmem
  have hbyte := h b hb
  simp only [List.mem_cons, List.not_mem_nil, or_false] at hmem
  rcases hmem with rfl | rfl | rfl | rfl <;> exact absurd hbyte (by decide)

theorem not_mem_of_isHostByte {host : List UInt8} (h : ∀ b ∈ host, IsHostByte b) {c : UInt8}
    (hc : ¬ IsHostByte c) : c ∉ host := fun hmem => hc (h c hmem)

theorem not_mem_metachars {host : List UInt8} (h : ∀ b ∈ host, IsHostByte b) :
    ∀ b ∈ host, b ∉ metachars := by
  intro b hb hmem
  exact absurd (h b hb) ((by decide +kernel : ∀ b ∈ metachars, ¬ IsHostByte b) b hmem)

theorem length_lower (s : List UInt8) : (lower s).length = s.length := List.length_map _

theorem lower_append (s t : List UInt8) : lower (s ++ t) = lower s ++ lower t := List.map_append

end Bytes

/-! ## What literal patterns match -/

section Patterns
variable {ignoreCase : Bool} {name x t : List UInt8}

/-- The item of a character that is not special, but for the dot, which is any. -/
theorem reItems_cons {c : UInt8} (hc : c ∉ metachars) (pattern : List UInt8) :
    reItems ignoreCase (c :: pattern) =
      ((if c = 46 then fun a => decide (a ≠ 10) else reChar ignoreCase c) ::
        (reItems ignoreCase pattern).1, (reItems ignoreCase pattern).2) := by
  have hdollar : c ≠ 36 := fun heq => hc (heq ▸ by decide)
  have hslash : c ≠ 92 := fun heq => hc (heq ▸ by decide)
  rw [reItems]
  · intro heq
    exact absurd heq hdollar
  · intro c' pattern heq
    exact absurd heq hslash

/-- A cleaned name has its characters as items, before those of what is behind it. -/
theorem reItems_clean_append (h : ∀ b ∈ name, b ∉ metachars) (rest : List UInt8) :
    reItems ignoreCase (ProxyModel.clean name ++ rest) =
      (name.map (reChar ignoreCase) ++ (reItems ignoreCase rest).1,
        (reItems ignoreCase rest).2) := by
  induction name with
  | nil => rfl
  | cons c name ih =>
      have ih := ih fun b hb => h b (List.mem_cons_of_mem c hb)
      by_cases hdot : c = 46
      · subst hdot
        change reItems ignoreCase (92 :: 46 :: (ProxyModel.clean name ++ rest)) = _
        rw [reItems, ih]
        rfl
      · have hclean : ProxyModel.clean (c :: name) = c :: ProxyModel.clean name := by
          rw [ProxyModel.clean, List.flatMap_cons, if_neg hdot]
          rfl
        rw [hclean, List.cons_append, reItems_cons (h c List.mem_cons_self), ih, if_neg hdot]
        rfl

/-- The pattern of a cleaned name has its characters as items. -/
theorem reItems_clean (h : ∀ b ∈ name, b ∉ metachars) :
    reItems ignoreCase (ProxyModel.clean name) = (name.map (reChar ignoreCase), false) := by
  simpa [reItems] using reItems_clean_append h []

/-- A cleaned name with `$` after it. -/
theorem reItems_clean_dollar (h : ∀ b ∈ name, b ∉ metachars) :
    reItems ignoreCase (ProxyModel.clean name ++ [36]) = (name.map (reChar ignoreCase), true) := by
  simpa [reItems] using reItems_clean_append h [36]

/-- A name without a dot is not changed. -/
theorem clean_of_not_mem (h : 46 ∉ name) : ProxyModel.clean name = name := by
  induction name with
  | nil => rfl
  | cons c name ih =>
      have hc : c ≠ 46 := fun heq => h (heq ▸ List.mem_cons_self)
      rw [ProxyModel.clean, List.flatMap_cons, if_neg hc, ← ProxyModel.clean,
        ih fun hmem => h (List.mem_cons_of_mem c hmem)]
      rfl

/-- So has that of an alias, with `$` after it. -/
theorem reItems_dollar (h : ∀ b ∈ name, b ∉ metachars ∧ b ≠ 46) :
    reItems ignoreCase (name ++ [36]) = (name.map (reChar ignoreCase), true) := by
  have hdot : 46 ∉ name := fun hmem => (h 46 hmem).2 rfl
  have hitems : reItems ignoreCase (ProxyModel.clean name ++ [36]) = _ :=
    reItems_clean_dollar fun b hb => (h b hb).1
  rwa [clean_of_not_mem hdot] at hitems

/-- What a character of a pattern that is not cleaned matches: the dot matches any. -/
def rawItem (c : UInt8) : UInt8 → Bool := if c = 46 then fun a => a ≠ 10 else reChar false c

theorem reItems_raw (h : ∀ b ∈ name, b ∉ metachars) :
    reItems false name = (name.map rawItem, false) := by
  induction name with
  | nil => rfl
  | cons c name ih =>
      rw [reItems_cons (h c List.mem_cons_self), ih fun b hb => h b (List.mem_cons_of_mem c hb)]
      rfl

theorem covers_raw (h : 10 ∉ name) : Covers (name.map rawItem) name := by
  induction name with
  | nil => exact .nil
  | cons c name ih =>
      refine .cons ?_ (ih fun hmem => h (List.mem_cons_of_mem c hmem))
      have hc : c ≠ 10 := fun heq => h (heq ▸ List.mem_cons_self)
      rw [rawItem]
      split_ifs
      · exact decide_eq_true hc
      · rw [reChar, if_neg (by decide)]
        exact decide_eq_true rfl

theorem covers_reChar : Covers (name.map (reChar true)) x ↔ lower x = lower name := by
  induction name generalizing x with
  | nil =>
      rw [List.map_nil, Covers, List.forall₂_nil_left_iff, lower, lower, List.map_nil,
        List.map_eq_nil_iff]
  | cons c name ih =>
      cases x with
      | nil =>
          constructor
          · intro h
            cases h
          · intro h
            cases h
      | cons a x =>
          have hfirst : reChar true c a = true ↔ tolower a = tolower c := by
            rw [reChar, if_pos rfl, decide_eq_true_iff]
          rw [List.map_cons, Covers, List.forall₂_cons, hfirst, ← Covers, ih, lower, lower, lower,
            lower, List.map_cons, List.map_cons, List.cons.injEq]

/-- The entry of a name in the list for going. -/
theorem match_clean (newName : List UInt8) (h : ∀ b ∈ name, b ∉ metachars) :
    Entry.match ⟨newName, ProxyModel.clean name⟩ = ⟨name.map (reChar true), fun _ => true⟩ := by
  rw [Entry.match, reCompile, reItems_clean h]
  rfl

/-- The entry of an alias in the list for coming. -/
theorem match_dollar (oldName : List UInt8) (h : ∀ b ∈ name, b ∉ metachars ∧ b ≠ 46) :
    Entry.match ⟨oldName, name ++ [36]⟩ = ⟨name.map (reChar true), reEnd⟩ := by
  rw [Entry.match, reCompile, reItems_dollar h]
  rfl

theorem matchAt_reChar {rest : List UInt8 → Bool} :
    matchAt ⟨name.map (reChar true), rest⟩ t ↔ ∃ x r, t = x ++ r ∧ lower x = lower name ∧ rest r := by
  simp only [matchAt_iff, covers_reChar]

theorem reEnd_iff (h : 10 ∉ t) : reEnd t ↔ t = [] := by
  rw [reEnd, decide_eq_true_iff]
  constructor
  · rintro (h' | rfl)
    · exact h'
    · exact absurd List.mem_cons_self h
  · exact .inl

end Patterns

/-! ## Renaming and back -/

section Rename
variable {host name newName pre x : List UInt8}

theorem AtEnd.eq_nil (h : AtEnd name (pre ++ (x ++ t))) (hx : lower x = lower name)
    (hne : name ≠ []) : t = [] := by
  have hlen := congrArg List.length hx
  have hpos := List.length_pos_iff.mpr hne
  rw [length_lower, length_lower] at hlen
  have hend := h pre.length (by simp only [List.length_append]; omega) ⟨lower t, by
    rw [lower_append, ← length_lower pre, List.drop_left, lower_append, hx]⟩
  simp only [List.length_append] at hend
  exact List.length_eq_zero_iff.mp (by omega)

/-- A name that stands at the end of a host. -/
theorem exists_of_search (hname : ∀ b ∈ name, b ∉ metachars) (hne : name ≠ []) (h : AtEnd name host)
    (hsearch : (Entry.match ⟨newName, ProxyModel.clean name⟩).search host) :
    ∃ pre x, host = pre ++ x ∧ lower x = lower name ∧ renamed host name newName = pre ++ newName := by
  rw [match_clean newName hname, search_iff] at hsearch
  obtain ⟨pre, t, rfl, hmatch⟩ := hsearch
  obtain ⟨x, r, rfl, hx, -⟩ := matchAt_reChar.mp hmatch
  obtain rfl := h.eq_nil hx hne
  have hlen := congrArg List.length hx
  rw [length_lower, length_lower] at hlen
  refine ⟨pre, x, by rw [List.append_nil], hx, ?_⟩
  rw [renamed, List.append_nil, List.length_append, ← hlen, Nat.add_sub_cancel, List.take_left]

/-- The name is replaced by the alias. -/
theorem sub_clean (hname : ∀ b ∈ name, b ∉ metachars) (hne : name ≠ [])
    (h : AtEnd name (pre ++ x)) (hx : lower x = lower name) :
    (Entry.match ⟨newName, ProxyModel.clean name⟩).sub newName (pre ++ x) = pre ++ newName := by
  have hlen := congrArg List.length hx
  rw [length_lower, length_lower] at hlen
  rw [match_clean newName hname]
  apply sub_of_last
  · rw [hlen, List.length_map]
  · exact fun hnil => hne (List.length_eq_zero_iff.mp (by rw [← hlen, hnil]; rfl))
  · exact matchAt_reChar.mpr ⟨x, [], (List.append_nil x).symm, hx, rfl⟩
  · intro l l' hl hl' hmatch
    obtain ⟨y, r, heq, hy, -⟩ := matchAt_reChar.mp hmatch
    rw [hl, List.append_assoc, heq] at h
    obtain rfl := h.eq_nil hy hne
    have hlen' := congrArg List.length heq
    have hxy := congrArg List.length (hx.trans hy.symm)
    have hpos := List.length_pos_iff.mpr hl'
    rw [length_lower, length_lower] at hxy
    simp only [List.length_append, List.length_nil] at hlen'
    omega

/-- The alias at the end is replaced by the name. -/
theorem sub_dollar (hname : ∀ b ∈ newName, b ∉ metachars ∧ b ≠ 46) (hne : newName ≠ [])
    (hline : 10 ∉ pre ++ newName) :
    (Entry.match ⟨name, newName ++ [36]⟩).sub name (pre ++ newName) = pre ++ name := by
  rw [match_dollar name hname]
  apply sub_of_last
  · exact (List.length_map _).symm
  · exact hne
  · exact matchAt_reChar.mpr ⟨newName, [], (List.append_nil _).symm, rfl, rfl⟩
  · intro l l' hl hl' hmatch
    obtain ⟨y, r, heq, hy, hr⟩ := matchAt_reChar.mp hmatch
    have hline' : 10 ∉ r := by
      intro hmem
      apply hline
      rw [hl, List.append_assoc, heq]
      exact List.mem_append_right l (List.mem_append_right y hmem)
    have hnil := (reEnd_iff hline').mp hr
    have hlen := congrArg List.length heq
    have hlen' := congrArg List.length hy
    have hpos := List.length_pos_iff.mpr hl'
    rw [length_lower, length_lower] at hlen'
    simp only [hnil, List.length_append, List.length_nil] at hlen
    omega

/-- The name is found again in the host that is put together. -/
theorem search_clean (hname : ∀ b ∈ name, b ∉ metachars) :
    (Entry.match ⟨newName, ProxyModel.clean name⟩).search (pre ++ name) := by
  rw [match_clean newName hname, search_iff]
  exact ⟨pre, name, rfl, matchAt_reChar.mpr ⟨name, [], (List.append_nil _).symm, rfl, rfl⟩⟩

end Rename

/-! ## The suffix of the proxy -/

namespace ProxyController
variable {c : ProxyController} {name t : List UInt8}

theorem isPort_eq_false (h : 58 ∉ t) : isPort t = false := by
  rw [isPort.eq_def]
  split
  · exact absurd List.mem_cons_self h
  · rfl

theorem portSub_of_not_mem (h : 58 ∉ t) : portSub t = t := by
  induction t with
  | nil => rfl
  | cons b t ih =>
      rw [portSub, isPort_eq_false h, ih fun hmem => h (List.mem_cons_of_mem b hmem)]
      rfl

/-- Without a port or a newline, only the suffix matches itself. -/
theorem isSuffix_iff (hc : ∀ b ∈ c.suffix, b ∉ metachars) (hport : 58 ∉ t) (hline : 10 ∉ t) :
    c.isSuffix t ↔ lower t = lower (46 :: c.suffix) := by
  have hname : ∀ b ∈ 46 :: c.suffix, b ∉ metachars := by
    intro b hb
    rcases List.mem_cons.mp hb with rfl | hb
    · decide
    · exact hc b hb
  rw [isSuffix, reCompile, reItems_clean hname]
  dsimp only
  rw [follows_iff]
  constructor
  · rintro ⟨x, r, rfl, hx, hr⟩
    have hport' : 58 ∉ r := fun hmem => hport (List.mem_append_right x hmem)
    have hline' : 10 ∉ r := fun hmem => hline (List.mem_append_right x hmem)
    rw [isPort_eq_false hport', decide_eq_true_iff, reEnd_iff hline'] at hr
    obtain rfl := hr.resolve_right (by decide)
    rw [List.append_nil]
    exact covers_reChar.mp hx
  · intro hx
    exact ⟨t, [], (List.append_nil t).symm, covers_reChar.mpr hx, rfl⟩

theorem find?_of_unique {α : Type} {p : α → Bool} {l : List α} {a : α} (hmem : a ∈ l) (ha : p a)
    (huniq : ∀ b, p b → b = a) : l.find? p = some a := by
  cases hfind : l.find? p with
  | none => exact absurd ha (List.find?_eq_none.mp hfind a hmem)
  | some b => rw [huniq b (List.find?_some hfind)]

/-- **What stands before the suffix** is the group. -/
theorem suffixMatch_append (hc : ∀ b ∈ c.suffix, b ∉ metachars)
    (hport : 58 ∉ name ++ 46 :: c.suffix) (hline : 10 ∉ name ++ 46 :: c.suffix) :
    c.suffixMatch (name ++ 46 :: c.suffix) = some name := by
  have hlen : name.length < (name ++ 46 :: c.suffix).length + 1 := by
    rw [List.length_append]
    omega
  rw [suffixMatch, find?_of_unique (a := name.length), Option.map_some, List.take_left]
  · exact List.mem_reverse.mpr (List.mem_range.mpr hlen)
  · rw [decide_eq_true_iff, List.take_left, List.drop_left, isSuffix_iff hc]
    · exact ⟨fun hmem => hline (List.mem_append_left _ hmem), rfl⟩
    · exact fun hmem => hport (List.mem_append_right _ hmem)
    · exact fun hmem => hline (List.mem_append_right _ hmem)
  · -- what matches is as long as the suffix, so it begins where the suffix does
    intro i hi
    rw [decide_eq_true_iff, isSuffix_iff hc (fun hmem => hport (List.mem_of_mem_drop hmem))
      (fun hmem => hline (List.mem_of_mem_drop hmem))] at hi
    have hdrop := congrArg List.length hi.2
    rw [length_lower, length_lower, List.length_drop, List.length_append, List.length_cons] at hdrop
    omega

variable {scheme host tail v : List UInt8} {e : Entry}

/-- What a rename makes of a URL. -/
theorem doRedirect_url (hscheme : 47 ∉ scheme) (hlower : lower scheme = scheme)
    (hhost : IsDomain host) (hne : host ≠ []) (htail : IsTail tail)
    (hnot : c.suffixMatch host = none) (hused : (c.model.search c.model.going host).head? = some e)
    (hdo : c.doRedirect (url scheme host tail) = (true, v)) :
    v = url scheme (portSub (e.match.sub e.ref host) ++ 46 :: c.suffix) tail := by
  have hcolon : 47 ∉ scheme ++ [58] := by simpa using hscheme
  obtain ⟨rest, hsearch⟩ := List.head?_eq_some_iff.mp hused
  rw [doRedirect, url, splitUrl_of_parts hcolon hhost hne htail] at hdo
  dsimp only at hdo
  rw [hnot, hsearch] at hdo
  dsimp only at hdo
  split_ifs at hdo with hnever hempty
  · cases (Prod.ext_iff.mp hdo).1
  · exact absurd hempty (by simp [lower])
  · have hv : _ = v := (Prod.ext_iff.mp hdo).2
    rw [← hv, lower_append, hlower]
    simp [url, lower, tolower]

/-- What is given back for a URL under the suffix. -/
theorem undoRedirect_url {oldDomain full : List UInt8} (hgroup : c.suffixMatch oldDomain = some t)
    (hlong : c.model.minimalAvail ≤ t.length)
    (hback : c.model.coming.find? (fun e => e.match.search t) = some e)
    (hfull : e.match.sub e.ref t = full) (hagain : c.model.search c.model.going full ≠ []) :
    c.undoRedirect v oldDomain = some ((reCompile oldDomain false).sub full v) := by
  obtain ⟨rest, hsearch⟩ : ∃ rest, c.model.search c.model.coming t = e :: rest := by
    rw [← List.head?_eq_some_iff, ProxyModel.search, if_neg (not_lt.mpr hlong), List.head?_filter, hback]
  rw [undoRedirect, hgroup]
  dsimp only
  rw [hsearch, List.findSome?_cons, hfull, if_pos hagain]

end ProxyController

namespace ProxyModel

theorem mem_search {m : ProxyModel} {elems : List Entry} {t : List UInt8} {e : Entry} :
    e ∈ m.search elems t ↔ m.minimalAvail ≤ t.length ∧ e ∈ elems ∧ e.match.search t := by
  rw [search]
  split_ifs with h
  · simp [not_le.mpr h]
  · rw [List.mem_filter, and_iff_right (not_lt.mp h)]

end ProxyModel

theorem MatchesWithin.of_append {p : Pattern UInt8} {text l r : List UInt8} {start stop : ℕ}
    (h : MatchesWithin p text start stop) (hl : text = l ++ r) (hne : r ≠ []) (hmatch : p.matchAt r) :
    start ≤ l.length ∧ l.length < stop := by
  subst hl
  have hpos := List.length_pos_iff.mpr hne
  apply h l.length
  · rw [List.length_append]
    omega
  · rw [List.drop_left]
    exact hmatch

/-- A domain in a URL is replaced, if as a pattern it matches nothing else there. -/
theorem sub_url {scheme domain tail full : List UInt8} (h : ∀ b ∈ domain, IsHostByte b)
    (hne : domain ≠ []) (honce : MatchesWithin (reCompile domain false) (url scheme domain tail)
      (scheme.length + 3) (scheme.length + 3 + domain.length)) :
    (reCompile domain false).sub full (url scheme domain tail) = url scheme full tail := by
  have hline : 10 ∉ domain := not_mem_of_isHostByte h (by decide)
  have hpattern : reCompile domain false = ⟨domain.map rawItem, fun _ => true⟩ := by
    rw [reCompile, reItems_raw (not_mem_metachars h)]
    rfl
  have hsplit : ∀ host, url scheme host tail = (scheme ++ [58, 47, 47]) ++ (host ++ tail) := by
    intro host
    simp [url]
  rw [hsplit] at honce
  rw [hsplit, hsplit, sub_of_first, sub_of_none]
  · intro l l' hl hne' hmatch
    have hafter : (scheme ++ [58, 47, 47]) ++ (domain ++ tail) =
        ((scheme ++ [58, 47, 47]) ++ (domain ++ l)) ++ l' := by
      rw [hl, List.append_assoc _ (domain ++ l), List.append_assoc domain]
    have hwithin := honce.of_append hafter hne' hmatch
    simp only [List.length_append, List.length_cons, List.length_nil] at hwithin
    omega
  · rw [hpattern]
    exact (List.length_map _).symm
  · exact hne
  · rw [hpattern, matchAt_iff]
    exact ⟨domain, tail, rfl, covers_raw hline, rfl⟩
  · intro l l' hl hne' hmatch
    have hbefore : (scheme ++ [58, 47, 47]) ++ (domain ++ tail) = l ++ (l' ++ (domain ++ tail)) := by
      rw [hl, List.append_assoc]
    have hwithin := honce.of_append hbefore (List.append_ne_nil_of_left_ne_nil hne' _) hmatch
    have hlen := congrArg List.length hl
    have hpos := List.length_pos_iff.mpr hne'
    simp only [List.length_append, List.length_cons, List.length_nil] at hlen
    omega

theorem isHostByte_suffix {sufixo : List UInt8} {lines : List Line}
    (h : ∀ b ∈ sufixo, IsHostByte b) : ∀ b ∈ (ProxyController.init sufixo lines).suffix, IsHostByte b := by
  intro b hb
  rw [ProxyController.init] at hb
  dsimp only at hb
  split_ifs at hb
  · exact h b (List.mem_of_mem_tail hb)
  · exact h b hb

/-- A host under a suffix. -/
theorem isHostByte_under {host suffix : List UInt8} (hhost : ∀ b ∈ host, IsHostByte b)
    (hsuffix : ∀ b ∈ suffix, IsHostByte b) : ∀ b ∈ host ++ 46 :: suffix, IsHostByte b := by
  intro b hb
  rcases List.mem_append.mp hb with hb | hb
  · exact hhost b hb
  · rcases List.mem_cons.mp hb with rfl | hb
    · decide
    · exact hsuffix b hb

/-- **What `do_redirect` renames, `undo_redirect` gives back**, up to letter case: the name of the
rule stands only at the end of the host, the first pattern of an alias that matches the renamed
host is that of the rule, the renamed host is not too short to be looked up, and the domain that
comes of it matches nothing else in the URL. -/
theorem undoRedirect_doRedirect {sufixo : List UInt8} {rules : List (List UInt8 × List UInt8)}
    (hrules : LiteralRules rules) (hsuffix : ∀ b ∈ sufixo, IsHostByte b)
    {scheme host tail v : List UInt8} (hscheme : 47 ∉ scheme) (hlower : lower scheme = scheme)
    (hhost : ∀ b ∈ host, IsHostByte b) (htail : IsTail tail) {c : ProxyController}
    (hc : c = .init sufixo (renameLines rules))
    (hdo : c.doRedirect (url scheme host tail) = (true, v)) (hnot : c.suffixMatch host = none)
    {old new : List UInt8} (hrule : (old, new) ∈ rules)
    (hused : (c.model.search c.model.going host).head? = some ⟨new, ProxyModel.clean old⟩)
    (hend : AtEnd old host)
    (hback : c.model.coming.find? (fun e => e.match.search (renamed host old new)) =
      some ⟨old, new ++ [36]⟩)
    (hlong : c.model.minimalAvail ≤ (renamed host old new).length)
    (honce : MatchesWithin (reCompile (splitUrl v).2.1 false) v (scheme.length + 3)
      (scheme.length + 3 + (splitUrl v).2.1.length)) :
    ∃ host', lower host' = lower host ∧
      c.undoRedirect v (splitUrl v).2.1 = some (url scheme host' tail) := by
  have hliteral := hrules.literal (old, new) hrule
  have hnew : ∀ b ∈ new, b ∉ metachars ∧ b ≠ 46 := by
    intro b hb
    exact ⟨not_mem_metachars (fun b hb => (hliteral.new b hb).1) b hb, (hliteral.new b hb).2⟩
  have hfound : ⟨new, ProxyModel.clean old⟩ ∈ c.model.search c.model.going host :=
    List.mem_of_mem_head? hused
  obtain ⟨hshort, hgoing, hmatch⟩ := ProxyModel.mem_search.mp hfound
  obtain ⟨pre, x, rfl, hx, hrenamed⟩ := exists_of_search hliteral.old hliteral.old_ne_nil hend hmatch
  have hlen : x.length = old.length := by
    have hlower' := congrArg List.length hx
    rwa [length_lower, length_lower] at hlower'
  have hne : pre ++ x ≠ [] := by
    intro hnil
    have hx' := (List.append_eq_nil_iff.mp hnil).2
    exact hliteral.old_ne_nil (List.length_eq_zero_iff.mp (by rw [← hlen, hx']; rfl))
  -- the renamed host and the suffix are the domain of the new URL
  have hname : ∀ b ∈ pre ++ new, IsHostByte b := by
    intro b hb
    rcases List.mem_append.mp hb with hb | hb
    · exact hhost b (List.mem_append_left x hb)
    · exact (hliteral.new b hb).1
  have hsuffix' : ∀ b ∈ c.suffix, IsHostByte b := by
    rw [hc]
    exact isHostByte_suffix hsuffix
  have hdomain : ∀ b ∈ pre ++ new ++ 46 :: c.suffix, IsHostByte b := isHostByte_under hname hsuffix'
  have hdomain_ne : pre ++ new ++ 46 :: c.suffix ≠ [] := by simp
  have hv := ProxyController.doRedirect_url hscheme hlower (isDomain_of_isHostByte hhost) hne htail
    hnot hused hdo
  rw [sub_clean hliteral.old hliteral.old_ne_nil hend hx,
    ProxyController.portSub_of_not_mem (not_mem_of_isHostByte hname (by decide))] at hv
  have hsplit : (splitUrl v).2.1 = pre ++ new ++ 46 :: c.suffix := by
    have hcolon : 47 ∉ scheme ++ [58] := by simpa using hscheme
    rw [hv, url, splitUrl_of_parts hcolon (isDomain_of_isHostByte hdomain) hdomain_ne htail]
  -- the alias is found, and what is put together from it as well
  have hgroup : c.suffixMatch (pre ++ new ++ 46 :: c.suffix) = some (pre ++ new) :=
    ProxyController.suffixMatch_append (not_mem_metachars hsuffix')
      (not_mem_of_isHostByte hdomain (by decide)) (not_mem_of_isHostByte hdomain (by decide))
  rw [hrenamed] at hback hlong
  have hfull : (Entry.match ⟨old, new ++ [36]⟩).sub old (pre ++ new) = pre ++ old :=
    sub_dollar hnew hliteral.new_ne_nil (not_mem_of_isHostByte hname (by decide))
  have hagain : c.model.search c.model.going (pre ++ old) ≠ [] := by
    apply List.ne_nil_of_mem (a := ⟨new, ProxyModel.clean old⟩)
    refine ProxyModel.mem_search.mpr ⟨?_, hgoing, search_clean hliteral.old⟩
    rw [List.length_append] at hshort ⊢
    omega
  refine ⟨pre ++ old, by rw [lower_append, lower_append, hx], ?_⟩
  rw [hsplit] at honce ⊢
  rw [ProxyController.undoRedirect_url hgroup hlong hback hfull hagain]
  rw [hv] at honce ⊢
  rw [sub_url hdomain hdomain_ne honce]

/-- Two rules as they come in the files, of a name and of what stands before it. -/
def iopRules : List (List UInt8 × List UInt8) :=
  [([105, 111, 112, 46, 111, 114, 103], [105, 111, 112]),
    ([46, 105, 111, 112, 46, 111, 114, 103], [45, 105, 111, 112])]

theorem literalRules_iop : LiteralRules iopRules := by
  refine ⟨?_, by decide +kernel, by decide +kernel⟩
  intro rule hrule
  rw [iopRules, List.mem_cons, List.mem_singleton] at hrule
  obtain rfl | rfl := hrule
  · exact ⟨by decide, by decide, by decide +kernel, by decide +kernel⟩
  · exact ⟨by decide, by decide, by decide +kernel, by decide +kernel⟩

/-- `http://www.iop.org/` under the suffix `ez` and back. -/
theorem undoRedirect_doRedirect_www : ∃ host',
    lower host' = lower [119, 119, 119, 46, 105, 111, 112, 46, 111, 114, 103] ∧
    (ProxyController.init [101, 122] (renameLines iopRules)).undoRedirect
      (url [104, 116, 116, 112] [119, 119, 119, 45, 105, 111, 112, 46, 101, 122] [47])
      (splitUrl (url [104, 116, 116, 112] [119, 119, 119, 45, 105, 111, 112, 46, 101, 122] [47])).2.1 =
        some (url [104, 116, 116, 112] host' [47]) := by
  have hrule : (([46, 105, 111, 112, 46, 111, 114, 103], [45, 105, 111, 112]) :
      List UInt8 × List UInt8) ∈ iopRules := by decide +kernel
  have hdo : (ProxyController.init [101, 122] (renameLines iopRules)).doRedirect
      (url [104, 116, 116, 112] [119, 119, 119, 46, 105, 111, 112, 46, 111, 114, 103] [47]) =
      (true, url [104, 116, 116, 112] [119, 119, 119, 45, 105, 111, 112, 46, 101, 122] [47]) := by
    decide +kernel
  exact undoRedirect_doRedirect literalRules_iop (by decide +kernel) (by decide +kernel)
    (by decide +kernel) (by decide +kernel) (by decide +kernel) rfl hdo (by decide +kernel) hrule
    (by decide +kernel) (by decide +kernel) (by decide +kernel) (by decide +kernel)
    (by decide +kernel)

theorem lower_url (scheme host tail : List UInt8) :
    lower (url scheme host tail) = url (lower scheme) (lower host) (lower tail) := by
  simp [url, lower, tolower]

/-- `x-iop.org` and `x.iop.org` have the same alias, and that is the second one's. -/
theorem not_undoRedirect_doRedirect : ∃ sufixo rules scheme host tail v, LiteralRules rules ∧
    (∀ b ∈ sufixo, IsHostByte b) ∧ 47 ∉ scheme ∧ lower scheme = scheme ∧
    (∀ b ∈ host, IsHostByte b) ∧ IsTail tail ∧
    (ProxyController.init sufixo (renameLines rules)).doRedirect (url scheme host tail) = (true, v) ∧
    (ProxyController.init sufixo (renameLines rules)).suffixMatch host = none ∧
    ¬ ∃ host', lower host' = lower host ∧
      (ProxyController.init sufixo (renameLines rules)).undoRedirect v (splitUrl v).2.1 =
        some (url scheme host' tail) := by
  refine ⟨[101, 122], iopRules, [104, 116, 116, 112], [120, 45, 105, 111, 112, 46, 111, 114, 103], [],
    url [104, 116, 116, 112] [120, 45, 105, 111, 112, 46, 101, 122] [], literalRules_iop,
    by decide +kernel, by decide, by decide +kernel, by decide +kernel, by decide +kernel,
    by decide +kernel, by decide +kernel, ?_⟩
  rintro ⟨host', hhost, hundo⟩
  have hlower := congrArg (Option.map lower) hundo
  rw [Option.map_some, lower_url, hhost] at hlower
  exact absurd hlower (by decide +kernel)

end RenaProxy.Squid
