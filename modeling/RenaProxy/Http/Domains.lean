import RenaProxy.Http.DomainPass
import Mathlib.Data.List.Infix

/-!
# Rewriting cookie domains

`DomainBlock` is a header block taken apart at its `; domain=`, and `DomainBlock.rewrite`
the block that `adjust_domain_property` is to make of it. The copying pass goes on in the
text as it has changed it, behind the place where the old value ended, and stops where
the block ended before. `InStep` says when it meets every `; domain=` nevertheless, and
`adjustDomainProperty_rewrite_iff` that it does its work exactly then.
-/
namespace RenaProxy
open Failure Keyword

/-! ## The keyword -/

/-- `; domain=`, the word in any letter case. -/
def IsDomainKey (key : List UInt8) : Prop :=
  key.take 2 = chars "; " ∧ (key.drop 2).map tolower = chars "domain="

instance (key : List UInt8) : Decidable (IsDomainKey key) := inferInstanceAs (Decidable (_ ∧ _))

theorem length_of_isDomainKey {key : List UInt8} (h : IsDomainKey key) : key.length = 9 := by
  have hfront := congrArg List.length h.1
  have hword := congrArg List.length h.2
  rw [List.length_take] at hfront
  rw [List.length_map, List.length_drop] at hword
  have h₁ : min 2 key.length = 2 := hfront
  have h₂ : key.length - 2 = 7 := hword
  omega

/-- A letter of `dprop` fits either case. -/
theorem eq_toupper_iff {u : UInt8} (h₁ : 65 ≤ u) (h₂ : u ≤ 90) (c : UInt8) :
    u = toupper c ↔ tolower c = u + 32 := by
  have hc := c.toNat_lt
  simp only [UInt8.le_iff_toNat_le, UInt8.reduceToNat] at h₁ h₂
  unfold toupper tolower
  simp only [UInt8.le_iff_toNat_le, ← UInt8.toNat_inj, UInt8.reduceToNat, apply_ite UInt8.toNat,
    UInt8.toNat_sub, UInt8.toNat_add]
  split_ifs <;> omega

theorem equals_eq_toupper_iff (c : UInt8) : 61 = toupper c ↔ tolower c = 61 := by
  have hc := c.toNat_lt
  unfold toupper tolower
  simp only [UInt8.le_iff_toNat_le, ← UInt8.toNat_inj, UInt8.reduceToNat, apply_ite UInt8.toNat,
    UInt8.toNat_sub, UInt8.toNat_add]
  split_ifs <;> omega

/-- The scanner looks for `; domain=`. -/
theorem spells_iff {key : List UInt8} :
    HttpMessage.domainScanner.Spells 0 key ↔ IsDomainKey key := by
  by_cases hlen : key.length = 9
  · match key, hlen with
    | [a, b, c, d, e, f, g, i, j], _ =>
      simp only [Scanner.Spells, HttpMessage.domainScanner, HttpMessage.dpropLen, IsDomainKey]
      simp [HttpMessage.dprop, chars]
      rw [and_assoc]
      exact and_congr eq_comm (and_congr eq_comm
        (and_congr (eq_toupper_iff (by decide) (by decide) c)
        (and_congr (eq_toupper_iff (by decide) (by decide) d)
        (and_congr (eq_toupper_iff (by decide) (by decide) e)
        (and_congr (eq_toupper_iff (by decide) (by decide) f)
        (and_congr (eq_toupper_iff (by decide) (by decide) g)
        (and_congr (eq_toupper_iff (by decide) (by decide) i) (equals_eq_toupper_iff j))))))))
  · refine iff_of_false (fun h => hlen ?_) (fun h => hlen (length_of_isDomainKey h))
    have := Scanner.length_spells h
    rwa [Nat.zero_add] at this

/-! ## The block taken apart -/

/-- What ends a value in a header block. -/
def terminators : List UInt8 := chars ";\r\n"

/-- A `; domain=` with its value, and the text between it and what is in front of it. -/
structure DomainAttribute where
  gap : List UInt8
  key : List UInt8
  value : List UInt8
  isKey : IsDomainKey key

/-- A text from its attributes and what comes behind them. -/
def attributesText : List DomainAttribute → List UInt8 → List UInt8
  | [], trailing => trailing
  | a :: as, trailing => a.gap ++ a.key ++ a.value ++ attributesText as trailing

/-- The same text with `new` for every value. -/
def rewriteValues (new : List UInt8) : List DomainAttribute → List UInt8 → List UInt8
  | [], trailing => trailing
  | a :: as, trailing => a.gap ++ a.key ++ new ++ rewriteValues new as trailing

/-- Where the values start and end, counted from the end of the text. -/
def valuePlaces : List DomainAttribute → List UInt8 → List (ℕ × ℕ)
  | [], _ => []
  | a :: as, trailing =>
      (a.value.length + (attributesText as trailing).length, (attributesText as trailing).length) ::
        valuePlaces as trailing

/-- The attributes are all that there are, and each value goes up to a terminator. -/
def AllAttributes : List DomainAttribute → List UInt8 → Prop
  | [], trailing => ∀ k, IsDomainKey k → ¬ k <:+: trailing
  | a :: as, trailing =>
      (∀ k, IsDomainKey k → ¬ k <:+: a.gap) ∧ (∀ c ∈ a.value, c ∉ terminators) ∧
        (∃ t ∈ terminators, (attributesText as trailing).head? = some t) ∧
        AllAttributes as trailing

/-- A header block with all its `; domain=`. -/
structure DomainBlock where
  attributes : List DomainAttribute
  trailing : List UInt8
  all : AllAttributes attributes trailing

namespace DomainBlock

def text (b : DomainBlock) : List UInt8 := attributesText b.attributes b.trailing

/-- What `adjust_domain_property` is to make of the block. -/
def rewrite (suffix : List UInt8) (b : DomainBlock) : List UInt8 :=
  rewriteValues suffix b.attributes b.trailing

end DomainBlock

theorem attributesText_append (as : List DomainAttribute) (x z : List UInt8) :
    attributesText as (x ++ z) = attributesText as x ++ z := by
  induction as with
  | nil => rfl
  | cons a as ih => simp [attributesText, ih]

/-- The `=` of a keyword ends no value. -/
theorem getLast_isDomainKey {key x : List UInt8} (h : IsDomainKey key) {t : UInt8}
    (hlast : (x ++ key).getLast? = some t) : t ∉ terminators := by
  have hlen := length_of_isDomainKey h
  match key, hlen with
  | [a, b, c, d, e, f, g, i, j], _ =>
      have hj : tolower j = 61 := (congrArg (fun l => l.getD 6 0) h.2).trans (by decide)
      have ht : j = t := by simpa using hlast
      intro hmem
      rw [← ht, show terminators = [59, 13, 10] by decide] at hmem
      simp only [List.mem_cons, List.not_mem_nil, or_false] at hmem
      rcases hmem with rfl | rfl | rfl <;> exact absurd hj (by decide)

/-- Where there is no `;` there is no keyword. -/
theorem not_infix_of_not_mem {x : List UInt8} (h : 59 ∉ x) :
    ∀ k, IsDomainKey k → ¬ k <:+: x := by
  intro k hk hwithin
  have hsemicolon : (59 : UInt8) ∈ k.take 2 := by
    rw [hk.1]
    decide
  exact h (hwithin.subset (List.mem_of_mem_take hsemicolon))

/-- The text up to the first keyword. -/
theorem exists_first_key {x : List UInt8} (hkey : ∃ k, IsDomainKey k ∧ k <:+: x) :
    ∃ gap k y, x = gap ++ k ++ y ∧ IsDomainKey k ∧ ∀ k', IsDomainKey k' → ¬ k' <:+: gap := by
  classical
  have hex : ∃ i, ∃ gap k y, x = gap ++ k ++ y ∧ IsDomainKey k ∧ gap.length = i := by
    obtain ⟨k, hk, gap, y, hx⟩ := hkey
    exact ⟨gap.length, gap, k, y, hx.symm, hk, rfl⟩
  obtain ⟨gap, k, y, hx, hk, hlen⟩ := Nat.find_spec hex
  refine ⟨gap, k, y, hx, hk, ?_⟩
  rintro k' hk' ⟨g, g', hgap⟩
  have hlt : g.length < Nat.find hex := by
    rw [← hlen, ← hgap, List.length_append, List.length_append, length_of_isDomainKey hk']
    omega
  exact Nat.find_min hex hlt ⟨g, k', g' ++ k ++ y, by rw [hx, ← hgap]; simp, hk', rfl⟩

/-- Every text that ends with a terminator is one of these blocks. -/
theorem exists_domainBlock {x : List UInt8} {t : UInt8} (ht : t ∈ terminators)
    (hlast : x.getLast? = some t) : ∃ b : DomainBlock, b.text = x := by
  suffices h : ∃ as trailing, AllAttributes as trailing ∧ attributesText as trailing = x by
    obtain ⟨as, trailing, hall, htext⟩ := h
    exact ⟨⟨as, trailing, hall⟩, htext⟩
  induction hn : x.length using Nat.strong_induction_on generalizing x with
  | _ n ih =>
      subst hn
      by_cases hkey : ∃ k, IsDomainKey k ∧ k <:+: x
      · obtain ⟨gap, k, y, rfl, hk, hgap⟩ := exists_first_key hkey
        have hy : y ≠ [] := by
          rintro rfl
          rw [List.append_nil] at hlast
          exact getLast_isDomainKey hk hlast ht
        have hylast : y.getLast? = some t := by
          rwa [List.getLast?_append_of_ne_nil _ hy] at hlast
        have hz : y.dropWhile (· ∉ terminators) ≠ [] := by
          intro hz
          have := List.dropWhile_eq_nil_iff.mp hz t (List.mem_of_getLast? hylast)
          exact absurd ht (by simpa using this)
        have hzlast : (y.dropWhile (· ∉ terminators)).getLast? = some t := by
          rw [← List.takeWhile_append_dropWhile (p := (· ∉ terminators)) (l := y),
            List.getLast?_append_of_ne_nil _ hz] at hylast
          exact hylast
        have hshort : (y.dropWhile (· ∉ terminators)).length < (gap ++ k ++ y).length := by
          have := (List.dropWhile_sublist (l := y) (· ∉ terminators)).length_le
          rw [List.length_append, List.length_append, length_of_isDomainKey hk]
          omega
        obtain ⟨as, trailing, hall, htext⟩ := ih _ hshort hzlast rfl
        refine ⟨⟨gap, k, y.takeWhile (· ∉ terminators), hk⟩ :: as, trailing,
          ⟨hgap, ?_, ?_, hall⟩, ?_⟩
        · intro c hc
          simpa using List.mem_takeWhile_imp hc
        · obtain ⟨c, z, hcz⟩ := List.exists_cons_of_ne_nil hz
          refine ⟨c, ?_, by rw [htext, hcz]; rfl⟩
          have hhead := List.head?_dropWhile_not (· ∉ terminators) y
          rw [hcz] at hhead
          simpa using hhead
        · rw [attributesText, htext, List.append_assoc, List.append_assoc,
            List.takeWhile_append_dropWhile, List.append_assoc]
      · exact ⟨[], x, fun k hk hwithin => hkey ⟨k, hk, hwithin⟩, rfl⟩

/-! ## The pass over the block -/

namespace HttpMessage
variable {suffix new x z : List UInt8} {h : HttpMessage} {s stop : ℕ}

/-- The message after `copy_suffix`. -/
def copied (new : List UInt8) (h : HttpMessage) (first last : ℕ) : HttpMessage :=
  { h.splice first last new with payload := h.payload.map fun p => p + new.length - (last - first) }

/-- `n` bytes of a memory from an offset on. -/
def bytesOf (mem : List UInt8) (i n : ℕ) : List UInt8 :=
  (List.range n).map fun k => mem.getD (i + k) 0

/-- Whether the copying pass, at position `s` of a buffer that is done up to `pos`, meets
all attributes that are left before it is at `stop`. It has no part of a keyword matched
at the `;` of the next one, and has not gone past it; there is a value, without a NUL
behind its first byte, and its end is read before `stop`. Then the value makes way for `new`.
In what it reads behind the last one it finds no value. Behind the buffer there may be bytes
of a longer one. -/
def InStep (new : List UInt8) (stop : ℕ) :
    List UInt8 → List UInt8 → ℕ → ℕ → List DomainAttribute → Prop
  | buffer, stale, s, _, [] =>
      domainScanner.firstValue 0 (bytesOf (buffer ++ stale) s (stop - s)) = none
  | buffer, stale, s, pos, a :: as =>
      let key := pos + a.gap.length
      let first := key + a.key.length
      let last := first + a.value.length
      let grown := buffer.take first ++ new ++ buffer.drop last
      (s ≤ key ∧ domainScanner.hits 0 (bytesOf (buffer ++ stale) s (key - s)) = 0) ∧
        (a.value ≠ [] ∧ 0 ∉ a.value.tail) ∧ last < stop ∧
        InStep new stop grown ((buffer ++ stale).drop grown.length) (last + 1)
          (first + new.length) as

instance decidableInStep (new : List UInt8) (stop : ℕ) :
    (buffer stale : List UInt8) → (s pos : ℕ) → (as : List DomainAttribute) →
      Decidable (InStep new stop buffer stale s pos as)
  | _, _, _, _, [] => inferInstanceAs (Decidable (_ = none))
  | buffer, stale, _, pos, a :: as =>
      let first := pos + a.gap.length + a.key.length
      let last := first + a.value.length
      let grown := buffer.take first ++ new ++ buffer.drop last
      have := decidableInStep new stop grown ((buffer ++ stale).drop grown.length) (last + 1)
        (first + new.length) as
      inferInstanceAs (Decidable ((_ ∧ _) ∧ (_ ∧ _) ∧ _ ∧ InStep new stop _ _ _ _ as))

theorem copySuffix_eq (suffix : List UInt8) (h : HttpMessage) (first last : ℕ) (u : Unit) :
    copySuffix suffix h first last u =
      if h.buffer.length < last then .error .negativeMove
      else .ok (h.copied (suffixText suffix) first last, u) := rfl

theorem bytesAt_of_append {l : List UInt8} (hb : h.buffer = x ++ l ++ z) :
    h.bytesAt x.length l.length = l := by
  induction l generalizing x with
  | nil => rfl
  | cons c l ih =>
      have hc : h.byteAt x.length = c := by
        simp [byteAt, mem, hb, List.getD_eq_getElem?_getD]
      have hl := ih (x := x ++ [c]) (by simpa using hb)
      rw [List.length_append, List.length_singleton] at hl
      rw [List.length_cons, bytesAt_succ, hc, hl]

theorem buffer_copied (new : List UInt8) {value : List UInt8} (hb : h.buffer = x ++ value ++ z) :
    (h.copied new x.length (x.length + value.length)).buffer = x ++ new ++ z := by
  have hdrop : (x ++ value ++ z).drop (x.length + value.length) = z := by
    rw [← List.length_append, List.drop_left]
  have htake : (x ++ value ++ z).take x.length = x := by
    rw [List.append_assoc, List.take_left]
  rw [copied, splice, hb]
  dsimp only
  rw [hdrop, htake]

/-- The text with `new` for the value of an attribute. -/
theorem buffer_copied_attribute (new : List UInt8) {a : DomainAttribute}
    (hb : h.buffer = x ++ a.gap ++ a.key ++ a.value ++ z) :
    (h.copied new (x.length + a.gap.length + a.key.length)
      (x.length + a.gap.length + a.key.length + a.value.length)).buffer =
      x ++ a.gap ++ a.key ++ new ++ z := by
  have := buffer_copied new hb
  simpa only [List.length_append] using this

/-- What the pass finds next, when it is at rest at the keyword in front of a value. -/
theorem firstValue_bytesAt {a : DomainAttribute} {t : UInt8}
    (hb : h.buffer = x ++ a.gap ++ a.key ++ a.value ++ t :: z)
    (hv : domainScanner.IsValue a.value t) (hs : s ≤ x.length + a.gap.length)
    (hrest : domainScanner.hits 0 (h.bytesAt s (x.length + a.gap.length - s)) = 0)
    (hstop : x.length + a.gap.length + a.key.length + a.value.length < stop) :
    domainScanner.firstValue 0 (h.bytesAt s (stop - s)) =
      some (x.length + a.gap.length + a.key.length - s,
        x.length + a.gap.length + a.key.length + a.value.length - s) := by
  have hkey := bytesAt_of_append (h := h) (x := x ++ a.gap) (l := a.key) (z := a.value ++ t :: z)
    (by simpa using hb)
  have hvalue := bytesAt_of_append (h := h) (x := x ++ a.gap ++ a.key) (l := a.value)
    (z := t :: z) (by simpa using hb)
  have hend := bytesAt_of_append (h := h) (x := x ++ a.gap ++ a.key ++ a.value) (l := [t])
    (z := z) (by simpa using hb)
  simp only [List.length_append, List.length_singleton] at hkey hvalue hend
  set key := x.length + a.gap.length with hkeydef
  have hsplit : stop - s = (key - s) + (a.key.length + (a.value.length + (1 +
      (stop - (key + a.key.length + a.value.length + 1))))) := by omega
  have hsum : s + (key - s) = key := by omega
  rw [hsplit, bytesAt_add, hsum, bytesAt_add, hkey, bytesAt_add, hvalue, bytesAt_add, hend,
    ← List.append_assoc, ← List.append_assoc, List.singleton_append,
    Scanner.firstValue_eq_some hrest (spells_iff.mpr a.isKey) hv (Nat.succ_pos _), length_bytesAt]
  congr 2 <;> omega

theorem bytesAt_split {l r : List UInt8} {n : ℕ} (h₁ : h.bytesAt s n = l ++ r) :
    h.bytesAt s l.length = l ∧ h.bytesAt (s + l.length) r.length = r := by
  have hlen : l.length + r.length = n := by
    rw [← List.length_append, ← h₁, length_bytesAt]
  rw [← hlen, bytesAt_add] at h₁
  exact List.append_inj h₁ (length_bytesAt _ _ _)

/-- The pass finds the value of an attribute only so. -/
theorem of_firstValue_bytesAt {a : DomainAttribute} {b e : ℕ}
    (hb : h.buffer = x ++ a.gap ++ a.key ++ a.value ++ z)
    (hfound : domainScanner.firstValue 0 (h.bytesAt s (stop - s)) = some (b, e))
    (hfirst : s + b = x.length + a.gap.length + a.key.length)
    (hlast : s + e = x.length + a.gap.length + a.key.length + a.value.length) :
    (s ≤ x.length + a.gap.length ∧
        domainScanner.hits 0 (h.bytesAt s (x.length + a.gap.length - s)) = 0) ∧
      (a.value ≠ [] ∧ ∀ c ∈ a.value.tail, ¬ endsValue c) ∧
      x.length + a.gap.length + a.key.length + a.value.length < stop := by
  obtain ⟨y, key, v, t, w, htext, hrest, hkey, hv, rfl, rfl⟩ :=
    (Scanner.firstValue_eq_some_iff (Nat.succ_pos _)).mp hfound
  have hlen := congrArg List.length htext
  rw [length_bytesAt, List.length_append, List.length_append, List.length_append,
    List.length_cons] at hlen
  have hkeylen : key.length = a.key.length := by
    rw [length_of_isDomainKey (spells_iff.mp hkey), length_of_isDomainKey a.isKey]
  have hvaluelen : v.length = a.value.length := by omega
  have hkeyplace : s + y.length = x.length + a.gap.length := by omega
  have hvalue : v = a.value := by
    have hfound := (bytesAt_split (l := y ++ key ++ v) htext).1
    have hread := (bytesAt_split (l := y ++ key) (r := v) hfound).2
    have htold := bytesAt_of_append (h := h) (x := x ++ a.gap ++ a.key) (l := a.value) hb
    rw [← hread, ← htold, hvaluelen]
    congr 1
    simp only [List.length_append]
    omega
  subst hvalue
  refine ⟨⟨by omega, ?_⟩, ⟨hv.ne_nil, hv.tail⟩, by omega⟩
  have hread := (bytesAt_split (l := y) (r := key ++ a.value ++ t :: w)
    (by rw [htext]; simp)).1
  rw [show x.length + a.gap.length - s = y.length by omega, hread, hrest]

section Copying
variable {a : DomainAttribute} {as : List DomainAttribute} {trailing rest : List UInt8}
  {calls : List DomainCall} {b e : ℕ} {t : UInt8}

/-- The copying pass at the first value that it finds. -/
theorem domainSpan_copied (suffix : List UInt8) (calls : List DomainCall)
    (hlast : s + e ≤ h.buffer.length)
    (hfound : domainScanner.firstValue 0 (h.bytesAt s (stop - s)) = some (b, e)) :
    let after := h.copied (suffixText suffix) (s + b) (s + e)
    domainSpan (logged (copySuffix suffix)) ⟨h, 0, none, (), calls⟩ s (stop - s) =
      domainSpan (logged (copySuffix suffix))
        ⟨after, 0, none, (), calls ++ [⟨h, s + b, s + e, after⟩]⟩ (s + e + 1)
        (stop - (s + e + 1)) := by
  intro after
  rw [domainSpan_some (Nat.zero_le _) hfound, logged, copySuffix_eq, if_neg (not_lt.mpr hlast),
    bind_ok, bind_ok, Nat.sub_sub, Nat.add_assoc s e 1]

/-- The copying pass, when it is at rest in front of an attribute. -/
theorem domainSpan_attribute (suffix : List UInt8) (calls : List DomainCall)
    (hb : h.buffer = x ++ a.gap ++ a.key ++ a.value ++ t :: z)
    (hv : domainScanner.IsValue a.value t) (hs : s ≤ x.length + a.gap.length)
    (hrest : domainScanner.hits 0 (h.bytesAt s (x.length + a.gap.length - s)) = 0)
    (hstop : x.length + a.gap.length + a.key.length + a.value.length < stop) :
    let first := x.length + a.gap.length + a.key.length
    let last := first + a.value.length
    let after := h.copied (suffixText suffix) first last
    domainSpan (logged (copySuffix suffix)) ⟨h, 0, none, (), calls⟩ s (stop - s) =
      domainSpan (logged (copySuffix suffix))
        ⟨after, 0, none, (), calls ++ [⟨h, first, last, after⟩]⟩ (last + 1)
        (stop - (last + 1)) := by
  intro first last after
  have hfirst : s + (first - s) = first := by omega
  have hlast : s + (last - s) = last := by omega
  have hlength := congrArg List.length hb
  simp only [List.length_append, List.length_cons] at hlength
  have hrun := domainSpan_copied suffix calls (by omega)
    (firstValue_bytesAt hb hv hs hrest hstop)
  rwa [hfirst, hlast] at hrun

/-- Where a call for an attribute is. -/
theorem place_eq (y : HttpMessage) (hb : h.buffer = x ++ a.gap ++ a.key ++ a.value ++ z) :
    DomainCall.place ⟨h, x.length + a.gap.length + a.key.length,
      x.length + a.gap.length + a.key.length + a.value.length, y⟩ =
      (a.value.length + z.length, z.length) := by
  simp only [DomainCall.place, hb, List.length_append]
  congr 1 <;> omega

/-- A call in that place is one for the attribute. -/
theorem of_place_eq {y : HttpMessage} (hb : h.buffer = x ++ a.gap ++ a.key ++ a.value ++ z)
    (hlast : s + e ≤ h.buffer.length)
    (hfound : domainScanner.firstValue 0 (h.bytesAt s (stop - s)) = some (b, e))
    (hplace : DomainCall.place ⟨h, s + b, s + e, y⟩ = (a.value.length + z.length, z.length)) :
    s + b = x.length + a.gap.length + a.key.length ∧
      s + e = x.length + a.gap.length + a.key.length + a.value.length := by
  obtain ⟨hstart, hend⟩ := Prod.mk.inj hplace
  dsimp only at hstart hend
  have hbe : b ≤ e := by
    obtain ⟨y, key, v, t, w, -, -, -, -, -, he⟩ :=
      (Scanner.firstValue_eq_some_iff (Nat.succ_pos _)).mp hfound
    omega
  have hlength := congrArg List.length hb
  simp only [List.length_append] at hlength
  omega

theorem isValue_of_all (hall : AllAttributes (a :: as) trailing) (hne : a.value ≠ [])
    (hnul : 0 ∉ a.value.tail) :
    ∃ t w, attributesText as trailing = t :: w ∧ domainScanner.IsValue a.value t := by
  obtain ⟨-, hvalue, ⟨t, ht, hhead⟩, -⟩ := hall
  obtain ⟨w, hw⟩ := List.head?_eq_some_iff.mp hhead
  refine ⟨t, w, hw, hne, ?_, ?_⟩
  · intro c hc
    have hterm : c ∉ chars ";\r\n" := hvalue c (List.mem_of_mem_tail hc)
    have hzero : c ≠ 0 := fun h => hnul (h ▸ hc)
    simpa [domainScanner, endsValue, hzero] using hterm
  · have hterm : t ∈ chars ";\r\n" := ht
    simp [domainScanner, endsValue, hterm]

theorem attributesText_cons (a : DomainAttribute) (as : List DomainAttribute)
    (hb : h.buffer = x ++ attributesText (a :: as) trailing ++ rest) :
    h.buffer = x ++ a.gap ++ a.key ++ a.value ++ (attributesText as trailing ++ rest) := by
  rw [hb, attributesText]
  simp only [List.append_assoc]

/-- A pass that keeps in step replaces every value, and nothing else. -/
theorem domainSpan_of_inStep (calls : List DomainCall) (hall : AllAttributes as trailing)
    (hb : h.buffer = x ++ attributesText as trailing ++ rest)
    (hp : h.payload = some (x.length + (attributesText as trailing).length))
    (hstep : InStep (suffixText suffix) stop h.buffer h.stale s x.length as) :
    ∃ ds more, domainSpan (logged (copySuffix suffix)) ⟨h, 0, none, (), calls⟩ s (stop - s) =
        .ok ds ∧ ds.user.2 = calls ++ more ∧
      more.map DomainCall.place = valuePlaces as (trailing ++ rest) ∧
      ds.http.buffer = x ++ rewriteValues (suffixText suffix) as trailing ++ rest ∧
      ds.http.payload =
        some (x.length + (rewriteValues (suffixText suffix) as trailing).length) := by
  induction as generalizing h x s calls with
  | nil =>
      obtain ⟨k, start, hrun⟩ := domainSpan_none (f := logged (copySuffix suffix))
        (u := ((), calls)) (Nat.zero_le _) hstep
      exact ⟨_, [], hrun, (List.append_nil _).symm, rfl, hb, hp⟩
  | cons a as ih =>
      obtain ⟨⟨hs, hrest⟩, ⟨hne, hnul⟩, hstop, hlater⟩ := hstep
      obtain ⟨t, w, hw, hv⟩ := isValue_of_all hall hne hnul
      have hb' := attributesText_cons a as hb
      have hrun := domainSpan_attribute suffix calls (z := w ++ rest) (by rw [hb', hw]; rfl) hv hs
        hrest hstop
      have hcall := place_eq (h.copied (suffixText suffix) (x.length + a.gap.length +
        a.key.length) (x.length + a.gap.length + a.key.length + a.value.length)) hb'
      have hbuffer := buffer_copied_attribute (suffixText suffix) hb'
      have hx : (x ++ a.gap ++ a.key ++ suffixText suffix).length =
          x.length + a.gap.length + a.key.length + (suffixText suffix).length := by
        simp only [List.length_append]
      have hpayload : (h.copied (suffixText suffix) (x.length + a.gap.length + a.key.length)
          (x.length + a.gap.length + a.key.length + a.value.length)).payload =
          some ((x ++ a.gap ++ a.key ++ suffixText suffix).length +
            (attributesText as trailing).length) := by
        rw [copied, hp, hx, attributesText]
        simp only [Option.map_some, List.length_append]
        congr 1
        omega
      rw [← List.append_assoc] at hbuffer
      rw [← hx] at hlater
      obtain ⟨ds, more, hds, huser, hplaces, hdsbuffer, hdspayload⟩ :=
        ih _ hall.2.2.2 hbuffer hpayload hlater
      refine ⟨ds, _ :: more, hrun.trans hds, by rw [huser, List.append_assoc]; rfl, ?_, ?_, ?_⟩
      · rw [List.map_cons, hplaces, hcall, valuePlaces, attributesText_append]
      · rw [hdsbuffer, rewriteValues]
        simp only [List.append_assoc]
      · rw [hdspayload, rewriteValues]
        simp only [List.length_append, Nat.add_assoc]

/-- The first call of a copying pass that comes to its end. -/
theorem exists_first_call {ds : DomainScan (Unit × List DomainCall)} {more : List DomainCall}
    (hrun : domainSpan (logged (copySuffix suffix)) ⟨h, 0, none, (), calls⟩ s (stop - s) = .ok ds)
    (huser : ds.user.2 = calls ++ more)
    (hfound : domainScanner.firstValue 0 (h.bytesAt s (stop - s)) = some (b, e)) :
    let after := h.copied (suffixText suffix) (s + b) (s + e)
    s + e ≤ h.buffer.length ∧ ∃ later, more = ⟨h, s + b, s + e, after⟩ :: later ∧
      domainSpan (logged (copySuffix suffix))
        ⟨after, 0, none, (), calls ++ [⟨h, s + b, s + e, after⟩]⟩ (s + e + 1)
        (stop - (s + e + 1)) = .ok ds ∧
      ds.user.2 = calls ++ [⟨h, s + b, s + e, after⟩] ++ later := by
  intro after
  have hlast : s + e ≤ h.buffer.length := by
    by_contra hgt
    rw [domainSpan_some (Nat.zero_le _) hfound, logged, copySuffix_eq, if_pos (not_le.mp hgt)]
      at hrun
    cases hrun
  rw [domainSpan_copied suffix calls hlast hfound] at hrun
  obtain ⟨later, hlater⟩ := exists_calls hrun
  refine ⟨hlast, later, ?_, hrun, hlater⟩
  rw [huser, List.append_assoc] at hlater
  exact List.append_cancel_left hlater

/-- A pass that replaces just the values kept in step. -/
theorem inStep_of_domainSpan {ds : DomainScan (Unit × List DomainCall)} {more : List DomainCall}
    (hb : h.buffer = x ++ attributesText as z)
    (hrun : domainSpan (logged (copySuffix suffix)) ⟨h, 0, none, (), calls⟩ s (stop - s) = .ok ds)
    (huser : ds.user.2 = calls ++ more) (hplaces : more.map DomainCall.place = valuePlaces as z) :
    InStep (suffixText suffix) stop h.buffer h.stale s x.length as := by
  induction as generalizing h x s calls more with
  | nil =>
      cases hfound : domainScanner.firstValue 0 (h.bytesAt s (stop - s)) with
      | none => exact hfound
      | some r =>
          obtain ⟨-, later, rfl, -⟩ := exists_first_call hrun huser hfound
          cases hplaces
  | cons a as ih =>
      cases hfound : domainScanner.firstValue 0 (h.bytesAt s (stop - s)) with
      | none =>
          obtain ⟨k, start, hnone⟩ := domainSpan_none (f := logged (copySuffix suffix))
            (u := ((), calls)) (Nat.zero_le _) hfound
          obtain rfl := Except.ok.inj (hnone.symm.trans hrun)
          obtain rfl : more = [] := List.self_eq_append_right.mp huser
          cases hplaces
      | some r =>
          obtain ⟨b, e⟩ := r
          obtain ⟨hle, later, rfl, hrest, hlater⟩ := exists_first_call hrun huser hfound
          rw [List.map_cons, valuePlaces, List.cons.injEq] at hplaces
          have hb' : h.buffer = x ++ a.gap ++ a.key ++ a.value ++ attributesText as z := by
            rw [hb, attributesText]
            simp only [List.append_assoc]
          obtain ⟨hfirst, hlast⟩ := of_place_eq hb' hle hfound hplaces.1
          obtain ⟨hkey, ⟨hne, htail⟩, hstop⟩ := of_firstValue_bytesAt hb' hfound hfirst hlast
          refine ⟨hkey, ⟨hne, fun hnul => htail 0 hnul (by decide)⟩, hstop, ?_⟩
          rw [hfirst, hlast] at hrest hlater
          have hstep := ih (buffer_copied_attribute (suffixText suffix) hb') hrest hlater hplaces.2
          simp only [List.length_append] at hstep
          exact hstep

end Copying

/-! ## `adjust_domain_property` -/

theorem length_rewriteValues (new : List UInt8) (as : List DomainAttribute) (x : List UInt8) :
    (rewriteValues new as x).length = as.length * new.length + (rewriteValues [] as x).length := by
  induction as with
  | nil => simp [rewriteValues]
  | cons a as ih =>
      simp only [rewriteValues, List.length_append, List.length_cons, List.length_nil, ih,
        Nat.succ_mul]
      omega

/-- The suffix is cut to 4096 bytes, which shows where there is a value. -/
theorem rewriteValues_suffixText {as : List DomainAttribute} :
    rewriteValues (suffixText suffix) as x = rewriteValues suffix as x ↔
      as = [] ∨ suffix.length ≤ 4096 := by
  constructor
  · intro heq
    have hlen := congrArg List.length heq
    rw [length_rewriteValues, length_rewriteValues suffix, Nat.add_right_cancel_iff] at hlen
    rcases as with _ | ⟨a, as⟩
    · exact .inl rfl
    · have := Nat.eq_of_mul_eq_mul_left (Nat.succ_pos _) hlen
      rw [suffixText, List.length_take] at this
      exact .inr (by omega)
  · rintro (rfl | hle)
    · rfl
    · rw [suffixText, List.take_of_length_le hle]

/-- What `adjust_domain_property` is for: in a block that ends at the payload, the suffix
comes in place of every value, payload and end of the buffer move along, and all else
stays. -/
def DomainsRewritten (suffix : List UInt8) (h : HttpMessage) (b : DomainBlock)
    (rest : List UInt8) : Prop :=
  ∃ h', h.adjustDomainProperty suffix = .ok h' ∧ h'.buffer = b.rewrite suffix ++ rest ∧
    h'.payload = some (b.rewrite suffix).length

/-- `copy_suffix` is called for each value, in order, and for nothing else. -/
def ValuesCopied (suffix : List UInt8) (h : HttpMessage) (b : DomainBlock)
    (rest : List UInt8) : Prop :=
  ∃ h' u calls, h.copyingPass suffix = .ok (h', u, calls) ∧
    calls.map DomainCall.place = valuePlaces b.attributes (b.trailing ++ rest)

section
variable {b : DomainBlock} {rest : List UInt8}

theorem copyingPass_of_inStep (hb : h.buffer = b.text ++ rest) (hp : h.payload = some b.text.length)
    (hstep : InStep (suffixText suffix) b.text.length h.buffer h.stale 0 0 b.attributes) :
    ∃ h' u calls, h.copyingPass suffix = .ok (h', u, calls) ∧
      calls.map DomainCall.place = valuePlaces b.attributes (b.trailing ++ rest) ∧
      h'.buffer = b.rewrite (suffixText suffix) ++ rest ∧
      h'.payload = some (b.rewrite (suffixText suffix)).length := by
  obtain ⟨n, hpass⟩ := exists_copyingPass suffix h
  rw [show h.payload.getD 0 = b.text.length by rw [hp]; rfl] at hpass
  obtain ⟨ds, calls, hrun, huser, hplaces, hbuffer, hpayload⟩ :=
    domainSpan_of_inStep (h := { h with totalBlock := n }) (x := []) [] b.all hb
      (by simpa [DomainBlock.text] using hp) hstep
  rw [Nat.sub_zero] at hrun
  rw [hrun, bind_ok] at hpass
  rw [List.nil_append] at huser
  refine ⟨ds.http, ds.user.1, calls, hpass.trans ?_, hplaces, hbuffer, ?_⟩
  · rw [← huser]
  · rw [hpayload, List.length_nil, Nat.zero_add]
    rfl

theorem inStep_of_copyingPass {h' : HttpMessage} {u : Unit} {calls : List DomainCall}
    (hb : h.buffer = b.text ++ rest) (hp : h.payload = some b.text.length)
    (hcopy : h.copyingPass suffix = .ok (h', u, calls))
    (hplaces : calls.map DomainCall.place = valuePlaces b.attributes (b.trailing ++ rest)) :
    InStep (suffixText suffix) b.text.length h.buffer h.stale 0 0 b.attributes := by
  obtain ⟨n, hpass⟩ := exists_copyingPass suffix h
  rw [show h.payload.getD 0 = b.text.length by rw [hp]; rfl, hcopy] at hpass
  obtain ⟨ds, hrun, hds⟩ := bind_eq_ok.mp hpass.symm
  have huser : ds.user.2 = [] ++ calls := congrArg (fun r => r.2.2) (Except.ok.inj hds)
  refine inStep_of_domainSpan (h := { h with totalBlock := n }) (x := []) ?_ hrun huser hplaces
  rw [hb, List.nil_append, attributesText_append]
  rfl

end

/-- **When cookie domains are rewritten.** `adjust_domain_property` puts the suffix in
place of every value, value by value, and leaves all else alone, if and only if the
suffix is not cut and the copying pass keeps in step. -/
theorem adjustDomainProperty_rewrite_iff (suffix : List UInt8) (h : HttpMessage)
    (b : DomainBlock) (rest : List UInt8) (hb : h.buffer = b.text ++ rest)
    (hp : h.payload = some b.text.length) :
    DomainsRewritten suffix h b rest ∧ ValuesCopied suffix h b rest ↔
      (b.attributes = [] ∨ suffix.length ≤ 4096) ∧
        InStep (suffixText suffix) b.text.length h.buffer h.stale 0 0 b.attributes := by
  constructor
  · rintro ⟨⟨h', hadjust, hbuffer, -⟩, h'', u, calls, hcopy, hplaces⟩
    obtain rfl : h' = h'' :=
      Except.ok.inj (hadjust.symm.trans (adjustDomainProperty_of_copyingPass hcopy))
    have hstep := inStep_of_copyingPass hb hp hcopy hplaces
    obtain ⟨h'', u', calls', hcopy', -, hbuffer', -⟩ := copyingPass_of_inStep hb hp hstep
    obtain rfl : h' = h'' := congrArg Prod.fst (Except.ok.inj (hcopy.symm.trans hcopy'))
    have hsame : b.rewrite (suffixText suffix) = b.rewrite suffix :=
      List.append_cancel_right (hbuffer'.symm.trans hbuffer)
    exact ⟨rewriteValues_suffixText.mp hsame, hstep⟩
  · rintro ⟨hsuffix, hstep⟩
    obtain ⟨h', u, calls, hcopy, hplaces, hbuffer, hpayload⟩ :=
      copyingPass_of_inStep hb hp hstep
    have hsame : b.rewrite (suffixText suffix) = b.rewrite suffix :=
      rewriteValues_suffixText.mpr hsuffix
    rw [hsame] at hbuffer hpayload
    exact ⟨⟨h', adjustDomainProperty_of_copyingPass hcopy, hbuffer, hpayload⟩,
      h', u, calls, hcopy, hplaces⟩

/-- A header block with a cookie. -/
def oneCookie : DomainBlock where
  attributes :=
    [⟨chars "HTTP/1.0 200 OK\r\nSet-Cookie: a=1", chars "; Domain=", chars "x", by decide +kernel⟩]
  trailing := chars "\r\n\r\n"
  all := ⟨not_infix_of_not_mem (by decide +kernel), by decide +kernel, ⟨13, by decide +kernel, rfl⟩,
    not_infix_of_not_mem (by decide +kernel)⟩

theorem adjustDomainProperty_rewrite_iff_oneCookie :
    let h : HttpMessage := { HttpMessage.create ⟨[], .null, .null, .null⟩ .victim with
      buffer := oneCookie.text ++ chars "body", payload := some oneCookie.text.length }
    DomainsRewritten (chars "p.net") h oneCookie (chars "body") ∧
      ValuesCopied (chars "p.net") h oneCookie (chars "body") :=
  (adjustDomainProperty_rewrite_iff _ _ oneCookie _ rfl rfl).mpr
    ⟨.inr (by decide +kernel), by decide +kernel⟩

/-- A header block with two cookies. -/
def twoCookies : DomainBlock where
  attributes :=
    [⟨chars "HTTP/1.0 200 OK\r\nSet-Cookie: a=1", chars "; Domain=", chars "x", by decide +kernel⟩,
      ⟨chars "\r\nSet-Cookie: b=2", chars "; Domain=", chars "y", by decide +kernel⟩]
  trailing := chars "\r\n\r\n"
  all := ⟨not_infix_of_not_mem (by decide +kernel), by decide +kernel, ⟨13, by decide +kernel, rfl⟩,
    not_infix_of_not_mem (by decide +kernel), by decide +kernel, ⟨13, by decide +kernel, rfl⟩,
    not_infix_of_not_mem (by decide +kernel)⟩

/-- The end of the second cookie is behind the old end of the block when the first one
has grown by four bytes. -/
theorem not_adjustDomainProperty_rewrite :
    ¬ ∀ (suffix : List UInt8) (h : HttpMessage) (b : DomainBlock) (rest : List UInt8),
      suffix ≠ [] → h.buffer = b.text ++ rest → h.payload = some b.text.length →
        DomainsRewritten suffix h b rest := by
  intro hall
  obtain ⟨h', hok, hbuffer, -⟩ := hall (chars "p.net")
    { HttpMessage.create ⟨[], .null, .null, .null⟩ .victim with
      buffer := twoCookies.text ++ chars "body", payload := some twoCookies.text.length }
    twoCookies (chars "body") (by decide +kernel) rfl rfl
  have hrun := congrArg (fun r => r.toOption.map (·.buffer)) hok
  refine absurd ((hrun.trans (congrArg some hbuffer)) : _ = some _) ?_
  decide +kernel

end HttpMessage

end RenaProxy
