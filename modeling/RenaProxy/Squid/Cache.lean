import RenaProxy.Squid.Controller
import RenaProxy.Lib.Memo

/-!
# The cache of `undo_redirect`

`cache_results` keeps what `undo_redirect` has returned under its arguments, joined with `!`, a byte
that URLs and domains may have. `cacheKey_injective` says that the keys are different nevertheless
where the second argument is the domain of the first one, and `wrapperCalls_eq` that so nobody
notices the cache.
-/
namespace RenaProxy.Squid

/-! ## The decorator -/

section Cache
variable {ε : Type} (func : List UInt8 → List UInt8 → Except ε (Option (List UInt8)))

/-- `cached_results`, in the order in which its keys came. -/
abbrev CachedResults := List (List UInt8 × Option (List UInt8))

/-- `func_wrapper` of `cache_results` for a method of two arguments. `r` is what `randint` returns.
An exception goes through. -/
def funcWrapper (cachedResults : CachedResults) (uri oldDomain : List UInt8) (r : ℕ) :
    Except ε (Option (List UInt8)) × CachedResults :=
  let key := uri ++ [33] ++ oldDomain
  match cachedResults.lookup key with
  | some ret => (.ok ret, cachedResults)
  | none =>
      match func uri oldDomain with
      | .error e => (.error e, cachedResults)
      | .ok ret =>
          let cachedResults :=
            if cachedResults.length > 10 then cachedResults.eraseIdx (r - 1) else cachedResults
          (.ok ret, cachedResults ++ [(key, ret)])

/-- Calls one after the other, with the domain of the URL each, and what `randint` returns. -/
def wrapperCalls : CachedResults → List (List UInt8 × ℕ) → List (Except ε (Option (List UInt8)))
  | _, [] => []
  | cachedResults, (uri, r) :: calls =>
      let (ret, cachedResults) := funcWrapper func cachedResults uri (splitUrl uri).2.1 r
      ret :: wrapperCalls cachedResults calls

end Cache

/-! ## The keys -/

section Keys
variable {s t u w : List UInt8}

theorem find_cons (b : UInt8) (t needle : List UInt8) : find (b :: t) needle =
    if needle.isPrefixOf (b :: t) then some 0 else (find t needle).map (· + 1) := by
  rw [find, List.tails_cons, List.findIdx?_cons, ← find]

/-- The first slashes stay where they are when something is added. -/
theorem find_append_of_some {k : ℕ} (h : find u [47, 47] = some k) (t : List UInt8) :
    find (u ++ t) [47, 47] = some k ∧ k + 2 ≤ u.length := by
  induction u generalizing k with
  | nil => cases h
  | cons b u ih =>
      cases u with
      | nil =>
          have hnone : find [b] [47, 47] = none := by
            rw [find_eq_none_iff]
            exact fun hin => absurd hin.length_le (by simp)
          rw [hnone] at h
          cases h
      | cons c u =>
          rw [find_cons] at h
          rw [List.cons_append, find_cons]
          have hsame : ([47, 47] : List UInt8).isPrefixOf (b :: (c :: u ++ t)) =
              ([47, 47] : List UInt8).isPrefixOf (b :: c :: u) := rfl
          rw [hsame]
          split_ifs at h ⊢
          · obtain rfl := Option.some.inj h
            exact ⟨rfl, by simp⟩
          · obtain ⟨k', hk', rfl⟩ := Option.map_eq_some_iff.mp h
            obtain ⟨hrest, hlen⟩ := ih hk'
            exact ⟨by rw [hrest]; rfl, by rw [List.length_cons]; omega⟩

/-- Behind `!` they may only be all new. -/
theorem find_append_of_none (hu : find u [47, 47] = none) (hw : find w [47, 47] = none) :
    find (u ++ 33 :: w) [47, 47] = none := by
  induction u with
  | nil =>
      rw [List.nil_append, find_cons, hw]
      rfl
  | cons b u ih =>
      rw [find_cons] at hu
      split_ifs at hu with hslashes
      have hfirst : ([47, 47] : List UInt8).isPrefixOf (b :: (u ++ 33 :: w)) = false := by
        cases u with
        | nil => exact Bool.and_false _
        | cons c u => exact Bool.not_eq_true _ ▸ hslashes
      rw [List.cons_append, find_cons, hfirst, ih (Option.map_eq_none_iff.mp hu)]
      rfl

/-- What comes after the scheme. -/
def afterScheme (uri : List UInt8) : List UInt8 :=
  match find uri [47, 47] with
  | some schemeEnd => uri.drop (schemeEnd + 2)
  | none => uri

/-- What comes after a user. -/
def afterUser (domain : List UInt8) : List UInt8 :=
  match find domain [64] with
  | some startDomain => domain.drop (startDomain + 1)
  | none => domain

/-- What comes before the rest of a URL. -/
def beforeTail (t : List UInt8) : List UInt8 := t.takeWhile fun b => b ∉ ([47, 63, 35] : List UInt8)

theorem take_findAnyOf (t : List UInt8) : t.take (findAnyOf [47, 63, 35] t) = beforeTail t := by
  rw [findAnyOf, beforeTail]
  cases hfind : t.findIdx? (· ∈ ([47, 63, 35] : List UInt8)) with
  | none =>
      have hall : ∀ b ∈ t, decide (b ∉ ([47, 63, 35] : List UInt8)) = true := by
        intro b hb
        simpa using List.findIdx?_eq_none_iff.mp hfind b hb
      rw [List.takeWhile_eq_self_iff.mpr hall]
      exact List.take_of_length_le (by dsimp only; omega)
  | some pos =>
      obtain ⟨-, hpos⟩ := List.findIdx?_eq_some_iff_findIdx_eq.mp hfind
      rw [List.takeWhile_eq_take_findIdx_not]
      simp only [decide_not, Bool.not_not]
      rw [hpos]

theorem beforeTail_of_all (h : ∀ b ∈ t, b ∉ ([47, 63, 35] : List UInt8)) : beforeTail t = t :=
  List.takeWhile_eq_self_iff.mpr fun b hb => decide_eq_true (h b hb)

theorem beforeTail_append (h : ∀ b ∈ t, b ∉ ([47, 63, 35] : List UInt8)) :
    beforeTail (t ++ 33 :: w) = t ++ 33 :: beforeTail w := by
  rw [beforeTail, List.takeWhile_append_of_pos fun b hb => decide_eq_true (h b hb),
    List.takeWhile_cons_of_pos (by decide), ← beforeTail]

theorem beforeTail_append_of_not (h : ¬ ∀ b ∈ t, b ∉ ([47, 63, 35] : List UInt8)) :
    beforeTail (t ++ w) = beforeTail t := by
  have hne : (beforeTail t).length ≠ t.length := by
    intro hlen
    have hself := (List.takeWhile_prefix _).eq_of_length hlen
    exact h fun b hb => of_decide_eq_true (List.takeWhile_eq_self_iff.mp hself b hb)
  rw [beforeTail, List.takeWhile_append, ← beforeTail, if_neg hne]

theorem domain_eq (uri : List UInt8) : (splitUrl uri).2.1 = afterUser (beforeTail (afterScheme uri)) := by
  rw [splitUrl, afterScheme, ← take_findAnyOf]
  cases find uri [47, 47] <;> rfl

theorem afterScheme_append (h : find u [47, 47] = none → find w [47, 47] = none) :
    afterScheme (u ++ 33 :: w) = afterScheme u ++ 33 :: w := by
  rw [afterScheme, afterScheme]
  cases hfind : find u [47, 47] with
  | none => rw [find_append_of_none hfind (h hfind)]
  | some k =>
      obtain ⟨happend, hlen⟩ := find_append_of_some hfind (33 :: w)
      rw [happend]
      exact List.drop_append_of_le_length hlen

theorem afterUser_of_not_mem (h : 64 ∉ t) : afterUser t = t := by rw [afterUser, find_eq_none h]

theorem afterUser_append (h : 64 ∈ t) (w : List UInt8) : afterUser (t ++ w) = afterUser t ++ w := by
  cases hfind : t.findIdx? (· = 64) with
  | none => exact absurd (List.findIdx?_eq_none_iff.mp hfind 64 h) (by decide)
  | some k =>
      have hlen := (List.findIdx?_eq_some_iff_findIdx_eq.mp hfind).1
      rw [afterUser, afterUser, find_singleton, find_singleton, List.findIdx?_append, hfind]
      exact List.drop_append_of_le_length hlen

theorem afterUser_suffix (t : List UInt8) : afterUser t <:+ t := by
  rw [afterUser]
  split
  · exact List.drop_suffix _ t
  · exact List.suffix_rfl

theorem afterScheme_suffix (t : List UInt8) : afterScheme t <:+ t := by
  rw [afterScheme]
  split
  · exact List.drop_suffix _ t
  · exact List.suffix_rfl

/-- A URL that goes on with `!` has no domain that would make up for it. -/
theorem domain_append_ne (u w : List UInt8) :
    (splitUrl u).2.1 ≠ w ++ 33 :: (splitUrl (u ++ 33 :: w)).2.1 := by
  intro h
  have hdomain := domain_eq u
  have hin : (splitUrl u).2.1 <:+: u := by
    rw [hdomain]
    exact ((afterUser_suffix _).isInfix.trans (List.takeWhile_prefix _).isInfix).trans
      (afterScheme_suffix u).isInfix
  have hw : find u [47, 47] = none → find w [47, 47] = none := by
    intro hnone
    rw [find_eq_none_iff] at hnone ⊢
    intro hslashes
    apply hnone
    refine (hslashes.trans ?_).trans hin
    rw [h]
    exact (List.prefix_append w _).isInfix
  have hlen := congrArg List.length h
  rw [domain_eq (u ++ 33 :: w), afterScheme_append hw, hdomain] at h hlen
  rw [List.length_append, List.length_cons] at hlen
  by_cases htail : ∀ b ∈ afterScheme u, b ∉ ([47, 63, 35] : List UInt8)
  · have hw' : 64 ∉ w → 64 ∉ beforeTail w := fun hnot hmem =>
      hnot ((List.takeWhile_sublist _).subset hmem)
    rw [beforeTail_append htail, beforeTail_of_all htail] at h hlen
    by_cases huser : 64 ∈ afterScheme u
    · rw [afterUser_append huser, List.length_append] at hlen
      omega
    · rw [afterUser_of_not_mem huser] at h hlen
      have hnot : 64 ∉ w := fun hmem => huser (h ▸ List.mem_append_left _ hmem)
      have hnot' : 64 ∉ afterScheme u ++ 33 :: beforeTail w := by
        intro hmem
        rcases List.mem_append.mp hmem with hmem | hmem
        · exact huser hmem
        · exact hw' hnot (List.mem_of_ne_of_mem (by decide) hmem)
      rw [afterUser_of_not_mem hnot', List.length_append] at hlen
      omega
  · rw [beforeTail_append_of_not htail] at hlen
    omega

/-- **The key tells the URL.** -/
theorem cacheKey_injective : Function.Injective fun uri => uri ++ [33] ++ (splitUrl uri).2.1 := by
  have hlonger : ∀ u v : List UInt8, u ++ 33 :: (splitUrl u).2.1 = v ++ 33 :: (splitUrl v).2.1 →
      u <+: v → u = v := by
    rintro u - h ⟨w, rfl⟩
    cases w with
    | nil => exact (List.append_nil u).symm
    | cons c w =>
        rw [List.append_assoc] at h
        obtain ⟨rfl, hdomain⟩ := List.cons.inj (List.append_cancel_left h)
        exact absurd hdomain (domain_append_ne u w)
  intro u v h
  have h' : u ++ 33 :: (splitUrl u).2.1 = v ++ 33 :: (splitUrl v).2.1 := by simpa using h
  rcases List.prefix_or_prefix_of_prefix ⟨_, h'⟩ (List.prefix_append v _) with huv | hvu
  · exact hlonger u v h' huv
  · exact (hlonger v u h'.symm hvu).symm

end Keys

/-! ## Nobody notices -/

section Calls
variable {ε : Type} (func : List UInt8 → List UInt8 → Except ε (Option (List UInt8)))

/-- What `randint` makes the cache drop. -/
def evict (r : ℕ) (cachedResults : CachedResults) : CachedResults :=
  if cachedResults.length > 10 then cachedResults.eraseIdx (r - 1) else cachedResults

theorem evict_subset (r : ℕ) (cachedResults : CachedResults) :
    evict r cachedResults ⊆ cachedResults := by
  rw [evict]
  split_ifs
  · exact List.eraseIdx_subset
  · exact List.Subset.refl cachedResults

/-- The decorator remembers results under the key. -/
theorem funcWrapper_eq_call (cachedResults : CachedResults) (uri : List UInt8) (r : ℕ) :
    funcWrapper func cachedResults uri (splitUrl uri).2.1 r =
      MemoTable.call (fun uri => func uri (splitUrl uri).2.1)
        (fun uri => uri ++ [33] ++ (splitUrl uri).2.1) (evict r) cachedResults uri := by
  rw [funcWrapper, MemoTable.call]
  cases cachedResults.lookup (uri ++ [33] ++ (splitUrl uri).2.1) with
  | some ret => rfl
  | none => cases func uri (splitUrl uri).2.1 <;> rfl

theorem wrapperCalls_eq_calls (cachedResults : CachedResults) (calls : List (List UInt8 × ℕ)) :
    wrapperCalls func cachedResults calls =
      MemoTable.calls (fun uri => func uri (splitUrl uri).2.1)
        (fun uri => uri ++ [33] ++ (splitUrl uri).2.1) cachedResults
        (calls.map fun c => (c.1, evict c.2)) := by
  induction calls generalizing cachedResults with
  | nil => rfl
  | cons c calls ih =>
      rw [wrapperCalls, List.map_cons, MemoTable.calls, ← funcWrapper_eq_call, ← ih]

/-- **The cache is not noticed**: whatever it drops, each call returns or raises what the function
does for its arguments, if the second one always is the domain of the first one. -/
theorem wrapperCalls_eq (calls : List (List UInt8 × ℕ)) :
    wrapperCalls func [] calls = calls.map fun c => func c.1 (splitUrl c.1).2.1 := by
  have hempty : MemoTable.Sound (fun uri => func uri (splitUrl uri).2.1)
      (fun uri => uri ++ [33] ++ (splitUrl uri).2.1) ([] : CachedResults) :=
    fun _ _ hmem => absurd hmem List.not_mem_nil
  rw [wrapperCalls_eq_calls, MemoTable.calls_eq hempty cacheKey_injective]
  · rw [List.map_map]
    rfl
  · intro c hc t
    obtain ⟨c', -, rfl⟩ := List.mem_map.mp hc
    exact evict_subset c'.2 t

end Calls

end RenaProxy.Squid
