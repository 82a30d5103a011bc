import RenaProxy.CString
import Mathlib.Data.List.TakeWhile
import Mathlib.Data.List.Infix

/-!
# Splitting a URL

`split_url` of the Squid helpers takes a URL apart into the scheme with its colon, the domain and
the rest. `splitUrl_of_parts` is what it does to a URL put together from such parts.
-/
namespace RenaProxy.Squid

/-- `lower` of `bytes`. -/
def lower (s : List UInt8) : List UInt8 := s.map tolower

/-- `find` of `bytes`: the first place where the second one stands in the first. -/
def find (uri needle : List UInt8) : Option ℕ := uri.tails.findIdx? needle.isPrefixOf

/-- `_find_any_of` -/
def findAnyOf (toFind target : List UInt8) : ℕ :=
  match target.findIdx? (· ∈ toFind) with
  | some pos => pos
  | none => target.length - 1 + 1

/-- `split_url` -/
def splitUrl (uri : List UInt8) : List UInt8 × List UInt8 × List UInt8 :=
  let (scheme, uri) :=
    match find uri [47, 47] with
    | some schemeEnd => (lower (uri.take schemeEnd), uri.drop (schemeEnd + 2))
    | none => ([], uri)
  let domainEnd := findAnyOf [47, 63, 35] uri
  let domain := uri.take domainEnd
  let domain :=
    match find domain [64] with
    | some startDomain => domain.drop (startDomain + 1)
    | none => domain
  (scheme, domain, uri.drop domainEnd)

/-- What a domain does not contain: `/?#`, where it ends, and `@`, after which it begins. -/
def IsDomain (domain : List UInt8) : Prop := ∀ b ∈ domain, b ∉ ([47, 63, 35, 64] : List UInt8)

/-- What comes after a domain. -/
def IsTail (tail : List UInt8) : Prop := ∀ b ∈ tail.head?, b ∈ ([47, 63, 35] : List UInt8)

instance : DecidablePred IsTail := fun _ => inferInstanceAs (Decidable (∀ _ ∈ _, _))

section Split
variable {scheme domain tail t : List UInt8}

theorem isTail_cons {b : UInt8} (hb : b ∈ ([47, 63, 35] : List UInt8)) : IsTail (b :: t) := by
  intro b' hb'
  rw [← Option.mem_some.mp hb']
  exact hb

/-- The first place where something stands. -/
theorem findIdx?_of_first {α : Type} {p : α → Bool} {pre post : List α} {a : α}
    (hpre : ∀ b ∈ pre, ¬ p b) (ha : p a) : (pre ++ a :: post).findIdx? p = some pre.length := by
  induction pre with
  | nil =>
      rw [List.nil_append, List.findIdx?_cons, ha]
      rfl
  | cons b pre ih =>
      have hb : p b = false := by simpa using hpre b List.mem_cons_self
      rw [List.cons_append, List.findIdx?_cons, hb, ih fun c hc => hpre c (List.mem_cons_of_mem b hc)]
      rfl

theorem findIdx?_of_none {α : Type} {p : α → Bool} {l : List α} (h : ∀ a ∈ l, ¬ p a) :
    l.findIdx? p = none := by
  rw [List.findIdx?_eq_none_iff]
  intro a ha
  simpa using h a ha

/-- A single byte is found where it is first. -/
theorem find_singleton (c : UInt8) : find t [c] = t.findIdx? (· = c) := by
  induction t with
  | nil => rfl
  | cons b t ih =>
      have hfirst : [c].isPrefixOf (b :: t) = decide (b = c) := by
        rw [List.isPrefixOf_cons_cons, List.isPrefixOf_nil_left, Bool.and_true, Bool.eq_iff_iff,
          beq_iff_eq, decide_eq_true_iff]
        exact eq_comm
      rw [find, List.tails_cons, List.findIdx?_cons, ← find, ih, List.findIdx?_cons, hfirst]

/-- Nothing is found where nothing stands. -/
theorem find_eq_none_iff {needle : List UInt8} : find t needle = none ↔ ¬ needle <:+: t := by
  rw [find, List.findIdx?_eq_none_iff, List.infix_iff_prefix_suffix, not_exists]
  apply forall_congr'
  intro x
  rw [List.mem_tails, not_and, ← Bool.not_eq_true, List.isPrefixOf_iff_prefix]
  exact ⟨fun h hpre hsuf => h hsuf hpre, fun h hsuf hpre => h hpre hsuf⟩

theorem find_eq_none (h : 64 ∉ t) : find t [64] = none := by
  rw [find_singleton]
  apply findIdx?_of_none
  intro b hb hbc
  exact h (of_decide_eq_true hbc ▸ hb)

/-- Two slashes are found behind text in which there are none, not even with one more. -/
theorem find_of_first (h : ¬ [47, 47] <:+: scheme ++ [47]) (t : List UInt8) :
    find (scheme ++ 47 :: 47 :: t) [47, 47] = some scheme.length := by
  induction scheme with
  | nil => rfl
  | cons b scheme ih =>
      have hno : ([47, 47] : List UInt8).isPrefixOf (b :: (scheme ++ 47 :: 47 :: t)) = false := by
        rw [Bool.eq_false_iff, ne_eq, List.isPrefixOf_iff_prefix]
        intro hprefix
        apply h
        apply List.IsPrefix.isInfix
        cases scheme with
        | nil => simpa using hprefix
        | cons c scheme => simpa using hprefix
      rw [find, List.cons_append, List.tails_cons, List.findIdx?_cons, hno, ← find,
        ih fun hin => h (hin.trans (List.suffix_cons b _).isInfix)]
      rfl

/-- So they are behind text without a slash. -/
theorem find_slashes (h : 47 ∉ scheme) (t : List UInt8) :
    find (scheme ++ 47 :: 47 :: t) [47, 47] = some scheme.length := by
  refine find_of_first (fun hin => ?_) t
  have hcount := hin.sublist.count_le 47
  rw [List.count_append, List.count_eq_zero.mpr h] at hcount
  exact absurd hcount (by decide)

theorem IsDomain.free (hdomain : IsDomain domain) : ∀ b ∈ domain, b ∉ ([47, 63, 35] : List UInt8) :=
  fun b hb h => hdomain b hb (List.mem_append_left [64] h)

/-- A domain ends where the tail begins. -/
theorem findAnyOf_of_tail (hdomain : IsDomain domain) (hne : domain ≠ []) (htail : IsTail tail) :
    findAnyOf [47, 63, 35] (domain ++ tail) = domain.length := by
  have hfree : ∀ b ∈ domain, ¬ decide (b ∈ ([47, 63, 35] : List UInt8)) := by
    intro b hb
    rw [decide_eq_true_eq]
    exact hdomain.free b hb
  rw [findAnyOf]
  cases tail with
  | nil =>
      rw [List.append_nil, findIdx?_of_none hfree]
      have := List.length_pos_iff.mpr hne
      dsimp only
      omega
  | cons c tail => rw [findIdx?_of_first hfree (decide_eq_true (htail c rfl))]

/-- **A URL from its parts** is taken apart into them. -/
theorem splitUrl_of_parts (hscheme : 47 ∉ scheme) (hdomain : IsDomain domain) (hne : domain ≠ [])
    (htail : IsTail tail) : splitUrl (scheme ++ 47 :: 47 :: (domain ++ tail)) =
      (lower scheme, domain, tail) := by
  have hat : 64 ∉ domain := fun h => hdomain 64 h (by decide)
  rw [splitUrl, find_slashes hscheme]
  dsimp only
  have hdrop : (scheme ++ 47 :: 47 :: (domain ++ tail)).drop (scheme.length + 2) = domain ++ tail := by
    rw [← List.drop_drop, List.drop_left]
    rfl
  rw [List.take_left, hdrop, findAnyOf_of_tail hdomain hne htail, List.take_left, List.drop_left,
    find_eq_none hat]

end Split

end RenaProxy.Squid
