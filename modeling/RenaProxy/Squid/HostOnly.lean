import RenaProxy.Lib.Replacement
import RenaProxy.Squid.RuleFiles
import RenaProxy.Squid.SplitUrl

/-!
# What `undo_redirect` leaves alone

The new host is put in wherever the old one, taken as a pattern, matches in the URL; its dots match
anything, a tail may repeat the host, and the name of a rule may have a path. `touchesHostOnly_iff`
says when the scheme and the tail stay as they are.
-/
namespace RenaProxy.Squid
open SequencePattern SequencePattern.Pattern

/-- What ends a host in a URL is not in it. -/
def EndsNowhere (host : List UInt8) : Prop := ∀ b ∈ host, b ∉ ([47, 63, 35] : List UInt8)

instance : DecidablePred EndsNowhere := fun _ => inferInstanceAs (Decidable (∀ _ ∈ _, _))

/-- A line of literal names, the renamed one may be a host. -/
def Line.IsHostRule : Line → Prop
  | .noProxy domain => Squid.IsLiteral domain
  | .proxyDomainRename oldDomain newDomain =>
      Squid.IsLiteral oldDomain ∧ EndsNowhere oldDomain ∧ IsName newDomain ∧ 46 ∉ newDomain

/-- The host that `undo_redirect` puts in, whatever the URL is. -/
def ProxyController.undoneHost (c : ProxyController) (oldDomain : List UInt8) : Option (List UInt8) :=
  match c.suffixMatch oldDomain with
  | some group =>
      (c.model.search c.model.coming group).findSome? fun e =>
        let fullDomain := e.match.sub e.ref group
        if c.model.search c.model.going fullDomain ≠ [] then some fullDomain else none
  | none => none

/-- A URL, with the scheme as it is written. -/
def urlOf (scheme host tail : List UInt8) : List UInt8 := scheme ++ 47 :: 47 :: (host ++ tail)

/-- Whatever `undo_redirect` gives back has the scheme and the tail of the URL. -/
def TouchesHostOnly (c : ProxyController) (scheme d tail : List UInt8) : Prop :=
  ∀ v, c.undoRedirect (urlOf scheme d tail) d = some v →
    ∃ host, EndsNowhere host ∧ v = urlOf scheme host tail

/-- A host is put in, no match reaches over what ends one, and those in the scheme and in the tail are
the new host already. -/
def LeavesRest (c : ProxyController) (scheme d tail : List UInt8) : Prop :=
  ∀ full, c.undoneHost d = some full → EndsNowhere full ∧
    (∀ x ∈ (reCompile d false).found (urlOf scheme d tail), EndsNowhere x) ∧
      ∀ x ∈ (reCompile d false).found scheme ++ (reCompile d false).found tail, x = full

/-- What ends a host is in what is put in, and in a match as well. -/
def ReachesOver (c : ProxyController) (scheme d tail : List UInt8) : Prop :=
  ∃ full, c.undoneHost d = some full ∧ ¬ EndsNowhere full ∧
    ∃ x ∈ (reCompile d false).found (urlOf scheme d tail), ¬ EndsNowhere x

section Cut
variable {l l' r r' : List UInt8}

/-- Where a host ends is seen from the text. -/
theorem host_unique (hl : EndsNowhere l) (hl' : EndsNowhere l') (hr : IsTail r) (hr' : IsTail r')
    (h : l ++ r = l' ++ r') : l = l' ∧ r = r' := by
  have hcut := cut_of_tail hl hr
  have hcut' := cut_of_tail hl' hr'
  rw [h] at hcut
  exact ⟨hcut.1.symm.trans hcut'.1, hcut.2.symm.trans hcut'.2⟩

/-- A URL has its scheme and its tail from one host only. -/
theorem urlOf_inj {scheme scheme' host host' tail tail' : List UInt8} (hscheme : EndsNowhere scheme)
    (hscheme' : EndsNowhere scheme') (hhost : EndsNowhere host) (hhost' : EndsNowhere host')
    (htail : IsTail tail) (htail' : IsTail tail')
    (h : urlOf scheme host tail = urlOf scheme' host' tail') :
    scheme = scheme' ∧ host = host' ∧ tail = tail' := by
  rw [urlOf, urlOf] at h
  obtain ⟨rfl, h'⟩ := host_unique hscheme hscheme' (isTail_cons (by decide)) (isTail_cons (by decide)) h
  have hrest := (List.cons.inj (List.cons.inj h').2).2
  exact ⟨rfl, host_unique hhost hhost' htail htail' hrest⟩

end Cut

section Sub
variable {p : Pattern UInt8} {repl t : List UInt8}

/-- No host ends in a text in which a host is put if none ended in it before. -/
theorem endsNowhere_sub (hrepl : EndsNowhere repl) (ht : EndsNowhere t) :
    EndsNowhere (p.sub repl t) := by
  intro b hb
  rcases mem_of_mem_subFrom hb with hb | hb
  · exact hrepl b hb
  · exact ht b hb

theorem countP_endsNowhere : t.countP (· ∈ ([47, 63, 35] : List UInt8)) = 0 ↔ EndsNowhere t := by
  rw [List.countP_eq_zero]
  simp [EndsNowhere]

/-- If what ends a host is as often in the result as in the text, as much of it is replaced as is
put in. -/
theorem countP_found (hitems : p.items ≠ []) (repl t : List UInt8)
    (h : (p.sub repl t).countP (· ∈ ([47, 63, 35] : List UInt8)) =
      t.countP (· ∈ ([47, 63, 35] : List UInt8))) :
    (p.found t).flatten.countP (· ∈ ([47, 63, 35] : List UInt8)) =
      (p.found t).length * repl.countP (· ∈ ([47, 63, 35] : List UInt8)) := by
  have hcount := countP_sub hitems repl (· ∈ ([47, 63, 35] : List UInt8)) t
  rw [h] at hcount
  exact Nat.add_left_cancel hcount

theorem endsNowhere_flatten {xs : List (List UInt8)} :
    EndsNowhere xs.flatten ↔ ∀ x ∈ xs, EndsNowhere x := by
  constructor
  · exact fun h x hx b hb => h b (List.mem_flatten.mpr ⟨x, hx, hb⟩)
  · intro h b hb
    obtain ⟨x, hx, hb⟩ := List.mem_flatten.mp hb
    exact h x hx b hb

/-- A tail in which no match holds its first symbol is one still. -/
theorem isTail_sub (hitems : p.items ≠ []) (hrest : ∀ t, p.rest t) (ht : IsTail t)
    (h : ∀ x ∈ p.found t, EndsNowhere x) : IsTail (p.sub repl t) := by
  cases t with
  | nil => simp [IsTail]
  | cons s t =>
      have hs : s ∈ ([47, 63, 35] : List UInt8) := ht s rfl
      have hapart : ∀ x ∈ p.found ([] ++ s :: t), s ∉ x := fun x hx hmem => h x hx s hmem hs
      have hcopy := (sub_append_cons hitems repl hrest hapart).1
      rw [List.nil_append] at hcopy
      rw [hcopy]
      exact isTail_cons hs

end Sub

section Undo
variable {c : ProxyController} {sufixo scheme d tail full : List UInt8} {lines : List Line}

theorem undoRedirect_eq (uri oldDomain : List UInt8) : c.undoRedirect uri oldDomain =
    (c.undoneHost oldDomain).map fun full => (reCompile oldDomain false).sub full uri := by
  rw [ProxyController.undoRedirect, ProxyController.undoneHost]
  cases c.suffixMatch oldDomain with
  | none => rfl
  | some group =>
      dsimp only
      rw [List.map_findSome?]
      congr 1
      funext e
      dsimp only [Function.comp_apply]
      split_ifs <;> rfl

/-- What a rule puts back is a host. -/
theorem endsNowhere_ref {e : Entry} (hlines : ∀ line ∈ lines, line.IsHostRule)
    (he : e ∈ rules .byComing lines) : EndsNowhere e.ref := by
  obtain ⟨oldDomain, newDomain, hline, rfl⟩ := mem_rules_byComing he
  obtain ⟨-, hold, -⟩ := hlines _ hline
  exact fun b hb => hold b (List.mem_of_mem_filter hb)

/-- The new host is one, as the names of the rules are. -/
theorem endsNowhere_undoneHost (hlines : ∀ line ∈ lines, line.IsHostRule) (hc : c = .init sufixo lines)
    (hd : IsHostPort d) (h : c.undoneHost d = some full) : EndsNowhere full := by
  rw [ProxyController.undoneHost] at h
  cases hgroup : c.suffixMatch d with
  | none =>
      rw [hgroup] at h
      cases h
  | some group =>
      rw [hgroup] at h
      obtain ⟨e, he, h⟩ := List.exists_of_findSome?_eq_some h
      obtain ⟨-, h⟩ := Option.ite_none_right_eq_some.mp h
      obtain rfl := Option.some.inj h
      have he : e ∈ rules .byComing lines := by
        rw [hc] at he
        exact mem_iter_traverse (ProxyModel.mem_search.mp he).2.1
      apply endsNowhere_sub (endsNowhere_ref hlines he)
      rw [ProxyController.suffixMatch, Option.map_eq_some_iff] at hgroup
      obtain ⟨i, -, rfl⟩ := hgroup
      exact fun b hb => authority_free (.inl rfl) hd b (List.mem_of_mem_take hb)

theorem ne_nil_of_undoneHost (h : c.undoneHost d = some full) : d ≠ [] := by
  rintro rfl
  have hnone : c.suffixMatch [] = none := by
    have hsuffix : c.isSuffix [] = false := by
      rw [ProxyController.isSuffix, reCompile, ProxyModel.clean, List.flatMap_cons, if_pos rfl]
      change follows _ (reItems true (92 :: 46 :: _)).1 [] = false
      rw [reItems]
      rfl
    rw [ProxyController.suffixMatch]
    simp [hsuffix]
  rw [ProxyController.undoneHost, hnone] at h
  cases h

/-- The pattern of a host, and what it matches first. -/
theorem reCompile_host (hd : IsHostPort d) :
    reCompile d false = ⟨d.map rawItem, fun _ => true⟩ ∧ Covers (d.map rawItem) d := by
  have hmeta : ∀ b ∈ d, b ∉ metachars := by
    intro b hb hmem
    rcases hd b hb with hbyte | rfl
    · exact absurd hbyte ((by decide +kernel : ∀ b ∈ metachars, ¬ IsHostByte b) b hmem)
    · exact absurd hmem (by decide)
  have hline : 10 ∉ d := hd.not_mem (by decide) (by decide)
  constructor
  · rw [reCompile, reItems_raw hmeta]
    rfl
  · exact covers_raw hline

theorem items_reCompile_ne_nil (hd : IsHostPort d) (hne : d ≠ []) : (reCompile d false).items ≠ [] := by
  rw [(reCompile_host hd).1]
  simpa using hne

/-- What comes of a URL in which no match reaches over what ends a host. -/
theorem sub_urlOf (hd : IsHostPort d) (hne : d ≠ []) (full : List UInt8)
    (h : ∀ x ∈ (reCompile d false).found (urlOf scheme d tail), EndsNowhere x) :
    (reCompile d false).sub full (urlOf scheme d tail) =
        urlOf ((reCompile d false).sub full scheme) full ((reCompile d false).sub full tail) ∧
      (reCompile d false).found (urlOf scheme d tail) =
        (reCompile d false).found scheme ++ d :: (reCompile d false).found tail := by
  obtain ⟨hpattern, hcovers⟩ := reCompile_host hd
  have hitems := items_reCompile_ne_nil hd hne
  have hrest : ∀ t, (reCompile d false).rest t := by simp [hpattern]
  have hlen : d.length = (reCompile d false).items.length := by simp [hpattern]
  have hmatch : (reCompile d false).matchAt (d ++ tail) := by
    rw [hpattern, matchAt_iff]
    exact ⟨d, tail, rfl, hcovers, rfl⟩
  generalize reCompile d false = p at *
  have h47 : ∀ x ∈ p.found (urlOf scheme d tail), 47 ∉ x := fun x hx hmem => h x hx 47 hmem (by decide)
  obtain ⟨hsub, hfound⟩ := sub_append_cons hitems full hrest h47
  have h47' : ∀ x ∈ p.found ([] ++ 47 :: (d ++ tail)), 47 ∉ x := by
    intro x hx
    exact h47 x (by rw [urlOf, hfound]; exact List.mem_append_right _ hx)
  obtain ⟨hsub', hfound'⟩ := sub_append_cons hitems full hrest h47'
  rw [List.nil_append] at hsub' hfound'
  rw [urlOf, hsub, hfound, hsub', hfound', sub_append_of_match hlen hne hmatch,
    found_append_of_match hlen hne hmatch]
  exact ⟨rfl, rfl⟩

/-- The result for the host that is put in. -/
theorem touchesHostOnly_iff_forall : TouchesHostOnly c scheme d tail ↔
    ∀ full, c.undoneHost d = some full → ∃ host, EndsNowhere host ∧
      (reCompile d false).sub full (urlOf scheme d tail) = urlOf scheme host tail := by
  rw [TouchesHostOnly, undoRedirect_eq]
  cases c.undoneHost d <;> simp

/-- Where nothing else is found, only the host changes. -/
theorem touchesHostOnly_of_leavesRest (hd : IsHostPort d) (h : LeavesRest c scheme d tail) :
    TouchesHostOnly c scheme d tail := by
  rw [touchesHostOnly_iff_forall]
  intro full hfull
  obtain ⟨hhost, hfree, hself⟩ := h full hfull
  have hne := ne_nil_of_undoneHost hfull
  have hitems := items_reCompile_ne_nil hd hne
  obtain ⟨hsub, -⟩ := sub_urlOf hd hne full hfree
  refine ⟨full, hhost, ?_⟩
  rw [hsub, (sub_eq_self_iff hitems).mpr fun x hx => hself x (List.mem_append_left _ hx),
    (sub_eq_self_iff hitems).mpr fun x hx => hself x (List.mem_append_right _ hx)]

/-- If only the host changes, what is put in is a host and no match reaches over what ends one, unless
both hold what ends a host. -/
theorem endsNowhere_of_touchesHostOnly (hd : IsHostPort d) (h : TouchesHostOnly c scheme d tail)
    (hnot : ¬ ReachesOver c scheme d tail) (hfull : c.undoneHost d = some full) :
    EndsNowhere full ∧ ∀ x ∈ (reCompile d false).found (urlOf scheme d tail), EndsNowhere x := by
  obtain ⟨host, hhost, heq⟩ := touchesHostOnly_iff_forall.mp h full hfull
  have hne := ne_nil_of_undoneHost hfull
  have hitems := items_reCompile_ne_nil hd hne
  have hdfree : EndsNowhere d := fun b hb => authority_free (.inl rfl) hd b hb
  -- what ends a host is as often in the result as in the URL
  have hcount := countP_found hitems full (urlOf scheme d tail) (by
    rw [heq, urlOf, urlOf]
    simp only [List.countP_append, List.countP_cons, countP_endsNowhere.mpr hdfree,
      countP_endsNowhere.mpr hhost])
  by_cases hends : EndsNowhere full
  · rw [countP_endsNowhere.mpr hends, Nat.mul_zero, countP_endsNowhere] at hcount
    exact ⟨hends, endsNowhere_flatten.mp hcount⟩
  · have hfree : ∀ x ∈ (reCompile d false).found (urlOf scheme d tail), EndsNowhere x := by
      intro x hx
      by_contra hx'
      exact hnot ⟨full, hfull, hends, x, hx, hx'⟩
    have hfound : (reCompile d false).found (urlOf scheme d tail) ≠ [] := by
      simp [(sub_urlOf hd hne full hfree).2]
    rw [countP_endsNowhere.mpr (endsNowhere_flatten.mpr hfree), eq_comm, Nat.mul_eq_zero,
      List.length_eq_zero_iff, countP_endsNowhere] at hcount
    exact absurd (hcount.resolve_left hfound) hends

/-- The other way, unless one match may put in what another takes out of the tail. -/
theorem leavesRest_of_touchesHostOnly (hscheme : EndsNowhere scheme) (hd : IsHostPort d)
    (htail : IsTail tail) (h : TouchesHostOnly c scheme d tail)
    (hnot : ¬ ReachesOver c scheme d tail) : LeavesRest c scheme d tail := by
  intro full hfull
  obtain ⟨hends, hfree⟩ := endsNowhere_of_touchesHostOnly hd h hnot hfull
  refine ⟨hends, hfree, ?_⟩
  obtain ⟨host, hhost, heq⟩ := touchesHostOnly_iff_forall.mp h full hfull
  have hne := ne_nil_of_undoneHost hfull
  have hitems := items_reCompile_ne_nil hd hne
  obtain ⟨hsub, hfound⟩ := sub_urlOf hd hne full hfree
  rw [hsub] at heq
  have hscheme' : EndsNowhere ((reCompile d false).sub full scheme) := endsNowhere_sub hends hscheme
  have htail' : IsTail ((reCompile d false).sub full tail) := by
    apply isTail_sub hitems (by simp [(reCompile_host hd).1]) htail
    intro x hx
    apply hfree
    rw [hfound]
    exact List.mem_append_right _ (List.mem_cons_of_mem d hx)
  obtain ⟨h₁, -, h₂⟩ := urlOf_inj hscheme' hscheme hends hhost htail' htail heq
  intro x hx
  rcases List.mem_append.mp hx with hx | hx
  · exact (sub_eq_self_iff hitems).mp h₁ x hx
  · exact (sub_eq_self_iff hitems).mp h₂ x hx

/-- **Scheme and tail are unchanged** if a host is put in, no stretch of the URL that the old host, as
a pattern, is found at reaches over what ends a host, and those in the scheme and in the tail are the
new host already. They are only then, unless both what is put in and such a stretch hold what ends a
host, which is not so where the names in the files are hosts. -/
theorem touchesHostOnly_iff (hc : c = .init sufixo lines) (hscheme : EndsNowhere scheme)
    (hd : IsHostPort d) (htail : IsTail tail) :
    (LeavesRest c scheme d tail → TouchesHostOnly c scheme d tail) ∧
      (TouchesHostOnly c scheme d tail →
        LeavesRest c scheme d tail ∨ ReachesOver c scheme d tail) ∧
      ((∀ line ∈ lines, line.IsHostRule) →
        (TouchesHostOnly c scheme d tail ↔ LeavesRest c scheme d tail)) := by
  refine ⟨touchesHostOnly_of_leavesRest hd, fun h => ?_, fun hlines => ?_⟩
  · by_cases hover : ReachesOver c scheme d tail
    · exact .inr hover
    · exact .inl (leavesRest_of_touchesHostOnly hscheme hd htail h hover)
  · have hnot : ¬ ReachesOver c scheme d tail := by
      rintro ⟨full, hfull, hends, -⟩
      exact hends (endsNowhere_undoneHost hlines hc hd hfull)
    exact ⟨fun h => leavesRest_of_touchesHostOnly hscheme hd htail h hnot,
      touchesHostOnly_of_leavesRest hd⟩

-- the rule `z/a` for the alias `a`: `s//.a.z.a/a.z/a` becomes `s//.z/a.z/a`, with its tail put together anew
example : (ProxyController.init [122, 46, 97] [.proxyDomainRename [122, 47, 97] [97]]).undoRedirect
    (urlOf [115] [46, 97, 46, 122, 46, 97] [47, 97, 46, 122, 47, 97]) [46, 97, 46, 122, 46, 97] =
      some (urlOf [115] [46, 122] [47, 97, 46, 122, 47, 97]) := by decide +kernel

end Undo

theorem isHostRule_iop : ∀ line ∈ renameLines iopRules, line.IsHostRule := by
  intro line hline
  obtain rfl | rfl := by simpa [renameLines, iopRules] using hline
  · exact ⟨⟨_, ⟨by decide, by decide +kernel⟩, .inl rfl⟩, by decide +kernel,
      ⟨by decide, by decide +kernel⟩, by decide +kernel⟩
  · exact ⟨⟨_, ⟨by decide, by decide +kernel⟩, .inl rfl⟩, by decide +kernel,
      ⟨by decide, by decide +kernel⟩, by decide +kernel⟩

/-- `http://www-iop.ez/www` has the host once only. -/
theorem touchesHostOnly_iff_www : TouchesHostOnly (.init [101, 122] (renameLines iopRules))
    [104, 116, 116, 112, 58] [119, 119, 119, 45, 105, 111, 112, 46, 101, 122] [47, 119, 119, 119] := by
  have hd : IsHostPort [119, 119, 119, 45, 105, 111, 112, 46, 101, 122] := by
    unfold IsHostPort
    decide +kernel
  have hundone : (ProxyController.init [101, 122] (renameLines iopRules)).undoneHost
      [119, 119, 119, 45, 105, 111, 112, 46, 101, 122] =
        some [119, 119, 119, 46, 105, 111, 112, 46, 111, 114, 103] := by decide +kernel
  refine (touchesHostOnly_iff rfl (by decide +kernel) hd (by decide +kernel)).1 ?_
  intro full hfull
  rw [hundone, Option.some_inj] at hfull
  subst hfull
  decide +kernel

/-- `http://www-iop.ez/www-iop.ez` has it twice. -/
theorem not_touchesHostOnly_twice : ¬ ∀ sufixo lines scheme d tail,
    (∀ line ∈ lines, line.IsHostRule) → EndsNowhere scheme → IsHostPort d → IsTail tail →
      TouchesHostOnly (.init sufixo lines) scheme d tail := by
  intro h
  have hd : IsHostPort [119, 119, 119, 45, 105, 111, 112, 46, 101, 122] := by
    unfold IsHostPort
    decide +kernel
  have htouches := h [101, 122] (renameLines iopRules) [104, 116, 116, 112, 58] _
    [47, 119, 119, 119, 45, 105, 111, 112, 46, 101, 122] isHostRule_iop (by decide +kernel) hd
    (by decide +kernel)
  have hundo : (ProxyController.init [101, 122] (renameLines iopRules)).undoRedirect
      (urlOf [104, 116, 116, 112, 58] [119, 119, 119, 45, 105, 111, 112, 46, 101, 122]
        [47, 119, 119, 119, 45, 105, 111, 112, 46, 101, 122])
      [119, 119, 119, 45, 105, 111, 112, 46, 101, 122] =
        some (urlOf [104, 116, 116, 112, 58] [119, 119, 119, 46, 105, 111, 112, 46, 111, 114, 103]
          [47, 119, 119, 119, 46, 105, 111, 112, 46, 111, 114, 103]) := by decide +kernel
  obtain ⟨host, hhost, heq⟩ := htouches _ hundo
  obtain ⟨-, -, htail⟩ := urlOf_inj (by decide +kernel) (by decide +kernel) (by decide +kernel) hhost
    (by decide +kernel) (by decide +kernel) heq
  exact absurd htail (by decide +kernel)

end RenaProxy.Squid
