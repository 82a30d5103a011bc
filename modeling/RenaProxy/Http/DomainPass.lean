import RenaProxy.Http.HeaderFrame
import RenaProxy.Lib.Keyword

/-!
# The pass over cookie domains

`apply_on_domain` goes over the header block with a scanner for `; domain=` and hands
every value that it comes to to `fnc`, which may change the text that the pass is still
to read. `domainSpan_none` and `domainSpan_some` take a pass apart at its first
value.
-/
namespace RenaProxy
open Failure Keyword

namespace HttpMessage

/-- What ends a value: a terminator, or the NUL that `strchr` finds as well. -/
def endsValue (c : UInt8) : Bool := c ∈ chars ";\r\n" ∨ c = 0

/-- The scanner of `apply_on_domain`. -/
def domainScanner : Scanner UInt8 where
  length := dpropLen + 1
  fits n c := dprop.getD n 0 = if 1 < n then toupper c else c
  stops := endsValue

variable {h : HttpMessage} {s n k : ℕ}

@[simp] theorem bytesAt_zero (h : HttpMessage) (s : ℕ) : h.bytesAt s 0 = [] := rfl

theorem bytesAt_succ (h : HttpMessage) (s n : ℕ) :
    h.bytesAt s (n + 1) = h.byteAt s :: h.bytesAt (s + 1) n := by
  simp [bytesAt, List.range_succ_eq_map, Nat.add_right_comm, Nat.add_assoc, Function.comp_def]

@[simp] theorem length_bytesAt (h : HttpMessage) (s n : ℕ) : (h.bytesAt s n).length = n := by
  simp [bytesAt]

theorem bytesAt_add (h : HttpMessage) (s m n : ℕ) :
    h.bytesAt s (m + n) = h.bytesAt s m ++ h.bytesAt (s + m) n := by
  induction m generalizing s with
  | zero => simp
  | succ m ih =>
      rw [Nat.add_right_comm, bytesAt_succ, ih, bytesAt_succ, List.cons_append,
        Nat.add_right_comm s 1 m, Nat.add_assoc s m 1]

section Pass
variable {σ : Type} {f : HttpMessage → ℕ → ℕ → σ → Except Fault (HttpMessage × σ)} {u : σ}

/-- The loop of `apply_on_domain` over `n` positions from `s` on. -/
def domainSpan (f : HttpMessage → ℕ → ℕ → σ → Except Fault (HttpMessage × σ))
    (ds : DomainScan σ) (s n : ℕ) : Except Fault (DomainScan σ) :=
  (List.range' s n).foldlM (domainByte f) ds

theorem domainSpan_succ (ds : DomainScan σ) (s n : ℕ) :
    domainSpan f ds s (n + 1) = domainByte f ds s >>= fun ds => domainSpan f ds (s + 1) n := by
  rw [domainSpan, List.range'_succ, List.foldlM_cons]
  rfl

/-- Before all of `dprop` is matched, a round counts the byte. -/
theorem domainByte_next (hk : k < domainScanner.length) :
    domainByte f ⟨h, k, none, u⟩ s =
      .ok ⟨h, domainScanner.next k (h.byteAt s), none, u⟩ := by
  have hlen : ¬ dpropLen < k := by
    change k < dpropLen + 1 at hk
    omega
  have hnext : domainScanner.next k (h.byteAt s) =
      if dprop.getD k 0 = (if 1 < k then toupper (h.byteAt s) else h.byteAt s)
        then k + 1 else 0 := by
    rw [Scanner.next, if_neg (not_le.mpr hk)]
    simp [domainScanner]
  rw [hnext, domainByte]
  simp only [hlen, if_false]
  split <;> rfl

/-- Inside a value, a round looks for its end. -/
theorem domainByte_value {first : ℕ} (hk : domainScanner.length ≤ k) :
    domainByte f ⟨h, k, some first, u⟩ s =
      if endsValue (h.byteAt s) then
        f h first s u >>= fun r => .ok ⟨r.1, 0, none, r.2⟩
      else .ok ⟨h, k, some first, u⟩ := by
  have hlen : dpropLen < k := hk
  simp only [domainByte, hlen, if_true, endsValue, decide_eq_true_eq]
  rfl

theorem domainSpan_value {first : ℕ} (hk : domainScanner.length ≤ k) (n : ℕ) :
    domainSpan f ⟨h, k, some first, u⟩ s n =
      match (h.bytesAt s n).findIdx? domainScanner.stops with
      | none => .ok ⟨h, k, some first, u⟩
      | some e => f h first (s + e) u >>= fun r =>
          domainSpan f ⟨r.1, 0, none, r.2⟩ (s + e + 1) (n - (e + 1)) := by
  induction n generalizing s with
  | zero => rfl
  | succ n ih =>
      rw [domainSpan_succ, domainByte_value hk, bytesAt_succ, List.findIdx?_cons]
      by_cases hend : domainScanner.stops (h.byteAt s)
      · have hend' : endsValue (h.byteAt s) := hend
        rw [if_pos hend, if_pos hend', bind_assoc]
        rfl
      · have hend' : ¬ endsValue (h.byteAt s) := hend
        rw [if_neg hend, if_neg hend', bind_ok, ih]
        cases hfind : (h.bytesAt (s + 1) n).findIdx? domainScanner.stops with
        | none => rfl
        | some e => simp only [Option.map_some, Nat.add_right_comm s 1 e, Nat.add_assoc,
            Nat.add_sub_add_right]

/-- A pass that finds no value only moves its counter. -/
theorem domainSpan_none (hk : k ≤ domainScanner.length)
    (hnone : domainScanner.firstValue k (h.bytesAt s n) = none) :
    ∃ k' start, domainSpan f ⟨h, k, none, u⟩ s n = .ok ⟨h, k', start, u⟩ := by
  induction n generalizing s k with
  | zero => exact ⟨k, none, rfl⟩
  | succ n ih =>
      rw [bytesAt_succ, Scanner.firstValue] at hnone
      rw [domainSpan_succ]
      by_cases hfull : domainScanner.length ≤ k
      · rw [if_pos hfull, Option.map_eq_none_iff] at hnone
        have hstart : domainByte f ⟨h, k, none, u⟩ s = .ok ⟨h, k, some s, u⟩ := if_pos hfull
        rw [hstart, bind_ok, domainSpan_value hfull, hnone]
        exact ⟨k, some s, rfl⟩
      · rw [if_neg hfull, Option.map_eq_none_iff] at hnone
        rw [domainByte_next (not_le.mp hfull), bind_ok]
        exact ih (domainScanner.next_le hk _) hnone

/-- A pass up to the first value that it finds, and from there on. -/
theorem domainSpan_some {b e : ℕ} (hk : k ≤ domainScanner.length)
    (hsome : domainScanner.firstValue k (h.bytesAt s n) = some (b, e)) :
    domainSpan f ⟨h, k, none, u⟩ s n =
      f h (s + b) (s + e) u >>= fun r =>
        domainSpan f ⟨r.1, 0, none, r.2⟩ (s + e + 1) (n - (e + 1)) := by
  induction n generalizing s k b e with
  | zero => cases hsome
  | succ n ih =>
      rw [bytesAt_succ, Scanner.firstValue] at hsome
      rw [domainSpan_succ]
      by_cases hfull : domainScanner.length ≤ k
      · rw [if_pos hfull, Option.map_eq_some_iff] at hsome
        obtain ⟨e, hfind, hbe⟩ := hsome
        obtain ⟨rfl, rfl⟩ := Prod.mk.inj hbe
        have hstart : domainByte f ⟨h, k, none, u⟩ s = .ok ⟨h, k, some s, u⟩ := if_pos hfull
        rw [hstart, bind_ok, domainSpan_value hfull, hfind]
        simp only [Nat.add_zero, Nat.add_right_comm s 1 e, Nat.add_assoc, Nat.add_sub_add_right]
      · rw [if_neg hfull, Option.map_eq_some_iff] at hsome
        obtain ⟨⟨b, e⟩, hrest, hbe⟩ := hsome
        obtain ⟨rfl, rfl⟩ := Prod.mk.inj hbe
        rw [domainByte_next (not_le.mp hfull), bind_ok, ih (domainScanner.next_le hk _) hrest]
        simp only [Nat.add_right_comm s 1, Nat.add_assoc, Nat.add_sub_add_right]

theorem applyOnDomain_eq (h : HttpMessage) (u : σ) :
    h.applyOnDomain f u =
      domainSpan f ⟨h, 0, none, u⟩ 0 (h.payload.getD 0) >>= fun ds => .ok (ds.http, ds.user) := by
  rw [applyOnDomain, List.range_eq_range']
  rfl

end Pass

/-! ## The calls of a pass -/

/-- A call of `fnc`, with the message before and after it. -/
structure DomainCall where
  before : HttpMessage
  first : ℕ
  last : ℕ
  after : HttpMessage

/-- The place of the value, counted from the end of the buffer: edits in front of it do
not move it. -/
def DomainCall.place (c : DomainCall) : ℕ × ℕ :=
  (c.before.buffer.length - c.first, c.before.buffer.length - c.last)

section Logged
variable {σ : Type} {f : HttpMessage → ℕ → ℕ → σ → Except Fault (HttpMessage × σ)} {u : σ}

/-- `fnc` with a log of its calls. -/
def logged (f : HttpMessage → ℕ → ℕ → σ → Except Fault (HttpMessage × σ)) (h : HttpMessage)
    (first last : ℕ) (u : σ × List DomainCall) : Except Fault (HttpMessage × σ × List DomainCall) :=
  f h first last u.1 >>= fun r => .ok (r.1, r.2, u.2 ++ [⟨h, first, last, r.1⟩])

/-- Two passes whose calls are alike are alike. -/
theorem applyOnDomain_alike {τ : Type}
    {g : HttpMessage → ℕ → ℕ → τ → Except Fault (HttpMessage × τ)} {R : HttpMessage → σ → τ → Prop}
    (hfg : ∀ h first last u v, R h u v →
      Alike (fun a b => a.1 = b.1 ∧ R a.1 a.2 b.2) (f h first last u) (g h first last v))
    {h : HttpMessage} {u : σ} {v : τ} (hR : R h u v) :
    Alike (fun a b => a.1 = b.1 ∧ R a.1 a.2 b.2) (h.applyOnDomain f u) (h.applyOnDomain g v) := by
  let S : DomainScan σ → DomainScan τ → Prop :=
    fun a b => a.http = b.http ∧ a.hit = b.hit ∧ a.start = b.start ∧ R a.http a.user b.user
  have hstep : ∀ a b s, S a b → Alike S (domainByte f a s) (domainByte g b s) := by
    rintro ⟨h, k, start, u⟩ ⟨h', k', start', v⟩ s ⟨hh, hk, hs, hu⟩
    dsimp only at hh hk hs hu
    subst hh hk hs
    unfold domainByte
    dsimp only
    by_cases hfull : dpropLen < k
    · rw [if_pos hfull, if_pos hfull]
      cases start with
      | none => exact ⟨rfl, rfl, rfl, hu⟩
      | some first =>
          dsimp only
          by_cases hend : h.byteAt s ∈ chars ";\r\n" ∨ h.byteAt s = 0
          · rw [if_pos hend, if_pos hend]
            exact (hfg h first s u v hu).bind fun a b _ _ hab => ⟨hab.1, rfl, rfl, hab.2⟩
          · rw [if_neg hend, if_neg hend]
            exact ⟨rfl, rfl, rfl, hu⟩
    · rw [if_neg hfull, if_neg hfull]
      by_cases hone : 1 < k
      · rw [if_pos hone, if_pos hone]
        exact ⟨rfl, rfl, rfl, hu⟩
      · rw [if_neg hone, if_neg hone]
        exact ⟨rfl, rfl, rfl, hu⟩
  have hrun := Alike.foldlM hstep (List.range (h.payload.getD 0))
    (s := ⟨h, 0, none, u⟩) (t := ⟨h, 0, none, v⟩) ⟨rfl, rfl, rfl, hR⟩
  exact hrun.bind fun a b _ _ hab => ⟨hab.1, hab.2.2.2⟩

/-- The log does not change what a pass does. -/
theorem applyOnDomain_logged (h : HttpMessage) (u : σ) (calls : List DomainCall) :
    Alike (fun a b => a.1 = b.1 ∧ a.2.1 = b.2) (h.applyOnDomain (logged f) (u, calls))
      (h.applyOnDomain f u) := by
  refine applyOnDomain_alike (R := fun _ (a : σ × List DomainCall) (b : σ) => a.1 = b) ?_ rfl
  rintro h first last ⟨u, calls⟩ _ rfl
  rw [logged]
  cases f h first last u with
  | error e => exact rfl
  | ok r => exact ⟨rfl, rfl⟩

/-- The log only grows. -/
theorem exists_calls {ds : DomainScan (σ × List DomainCall)} {calls : List DomainCall}
    {h : HttpMessage} {k s n : ℕ} {start : Option ℕ}
    (hok : domainSpan (logged f) ⟨h, k, start, u, calls⟩ s n = .ok ds) :
    ∃ more, ds.user.2 = calls ++ more := by
  refine foldlM_invariant (fun ds => ∃ more, ds.user.2 = calls ++ more) ?_
    ⟨[], (List.append_nil _).symm⟩ hok
  rintro ds p ds' ⟨more, hmore⟩ hstep
  rcases domainByte_cases hstep with ⟨-, huser, -⟩ | ⟨first, -, hcall, -⟩
  · exact ⟨more, by rw [huser, hmore]⟩
  · rw [logged, bind_eq_ok] at hcall
    obtain ⟨r, -, hcall⟩ := hcall
    have huser := congrArg (fun x => x.2.2) (Except.ok.inj hcall)
    exact ⟨more ++ [_], by rw [← List.append_assoc, ← hmore]; exact huser.symm⟩

end Logged

/-- The sizing pass, with its calls. -/
def sizingPass (suffix : List UInt8) (h : HttpMessage) :
    Except Fault (HttpMessage × ℕ × List DomainCall) :=
  h.applyOnDomain (logged (sizeNeedForSuffix suffix)) (0, [])

/-- The copying pass, with its calls, in the room that the sizing pass asked for. -/
def copyingPass (suffix : List UInt8) (h : HttpMessage) :
    Except Fault (HttpMessage × Unit × List DomainCall) := do
  let (_, newElements, _) ← h.sizingPass suffix
  let h := if 0 < newElements then h.reallocationProtocol newElements else h
  h.applyOnDomain (logged (copySuffix suffix)) ((), [])

/-- `adjust_domain_property` gives what its copying pass gives. -/
theorem alike_adjustDomainProperty (suffix : List UInt8) (h : HttpMessage) :
    Alike (fun a b => a.1 = b) (h.copyingPass suffix) (h.adjustDomainProperty suffix) := by
  refine (applyOnDomain_logged (f := sizeNeedForSuffix suffix) h 0 []).bind ?_
  rintro ⟨h₁, n, calls⟩ ⟨h₁', n'⟩ - - ⟨-, hn⟩
  dsimp only at hn ⊢
  subst hn
  generalize (if 0 < n then h.reallocationProtocol n else h) = g
  have hpass := applyOnDomain_logged (f := copySuffix suffix) g () []
  cases hlogged : g.applyOnDomain (logged (copySuffix suffix)) ((), []) <;>
    cases hplain : g.applyOnDomain (copySuffix suffix) () <;>
    rw [hlogged, hplain] at hpass
  · exact hpass
  · exact hpass.elim
  · exact hpass.elim
  · exact hpass.1

theorem adjustDomainProperty_of_copyingPass {suffix : List UInt8} {h h' : HttpMessage} {u : Unit}
    {calls : List DomainCall} (hok : h.copyingPass suffix = .ok (h', u, calls)) :
    h.adjustDomainProperty suffix = .ok h' := by
  have := alike_adjustDomainProperty suffix h
  rw [hok] at this
  cases hadjust : h.adjustDomainProperty suffix with
  | error e => exact (by rw [hadjust] at this; exact this.elim)
  | ok h₁ =>
      rw [hadjust] at this
      exact congrArg Except.ok (Eq.symm this)

/-- The sizing pass changes nothing. -/
theorem exists_sizingPass (suffix : List UInt8) (h : HttpMessage) :
    ∃ n calls, h.sizingPass suffix = .ok (h, n, calls) := by
  cases hpass : h.sizingPass suffix with
  | error e =>
      refine absurd hpass (applyOnDomain_ne_error (fun _ _ _ _ => ?_) _)
      simp [logged, sizeNeedForSuffix, bind_ok]
  | ok r =>
      have hsame := applyOnDomain_invariant (· = h) ?_ rfl hpass
      · exact ⟨r.2.1, r.2.2, by rw [← hsame]⟩
      · intro y b e u y' u' hy hcall
        simp only [logged, sizeNeedForSuffix, bind_ok, Except.ok.injEq, Prod.mk.injEq] at hcall
        rw [← hcall.1, hy]

/-- The copying pass works on the same message in a block that may have grown. -/
theorem exists_copyingPass (suffix : List UInt8) (h : HttpMessage) :
    ∃ n, h.copyingPass suffix =
      domainSpan (logged (copySuffix suffix)) ⟨{ h with totalBlock := n }, 0, none, (), []⟩ 0
        (h.payload.getD 0) >>= fun ds => .ok (ds.http, ds.user) := by
  obtain ⟨n, calls, hsizing⟩ := exists_sizingPass suffix h
  have hgrown : ∃ k, (if 0 < n then h.reallocationProtocol n else h) =
      { h with totalBlock := k } := by
    by_cases hn : 0 < n
    · rw [if_pos hn, reallocationProtocol]
      split
      · exact ⟨_, rfl⟩
      · exact ⟨h.totalBlock, rfl⟩
    · exact ⟨h.totalBlock, if_neg hn⟩
  obtain ⟨k, hk⟩ := hgrown
  refine ⟨k, ?_⟩
  rw [copyingPass, hsizing, bind_ok]
  dsimp only
  rw [hk]
  exact applyOnDomain_eq _ _

end HttpMessage

end RenaProxy
