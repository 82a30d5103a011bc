import RenaProxy.Http.ContentType
import RenaProxy.Lib.Words
import RenaProxy.Http.Dispatch
import Mathlib.Tactic.Ring

/-!
# The values of header fields

`content_length_value` and `get_n_split_hostname` take the value of a field from two
bytes behind its name on: the colon and one byte of white space. `fieldValues_iff` says
for which amounts of white space this is right.
-/
namespace RenaProxy

/-! ## Decimal numbers -/

/-- The number that decimal digits spell. -/
def decimal (digits : List UInt8) : ℕ := digits.foldl (fun n c => 10 * n + (c.toNat - 48)) 0

def IsDigit (c : UInt8) : Prop := 48 ≤ c ∧ c ≤ 57

instance (c : UInt8) : Decidable (IsDigit c) := inferInstanceAs (Decidable (_ ∧ _))

/-- Optional white space. -/
def Blanks (s : List UInt8) : Prop := ∀ c ∈ s, c = 32 ∨ c = 9

instance (s : List UInt8) : Decidable (Blanks s) := inferInstanceAs (Decidable (∀ c ∈ s, _))

section Decimal
variable {pre digits post : List UInt8}

theorem decimal_foldl (n : ℕ) (digits : List UInt8) :
    digits.foldl (fun n c => 10 * n + (c.toNat - 48)) n = n * 10 ^ digits.length + decimal digits := by
  induction digits generalizing n with
  | nil => simp [decimal]
  | cons c cs ih =>
      have hcons : decimal (c :: cs) = (c.toNat - 48) * 10 ^ cs.length + decimal cs := by
        rw [decimal, List.foldl_cons, Nat.mul_zero, Nat.zero_add, ih]
      rw [List.foldl_cons, ih, hcons, List.length_cons]
      ring

theorem decimal_cons (c : UInt8) (digits : List UInt8) :
    decimal (c :: digits) = (c.toNat - 48) * 10 ^ digits.length + decimal digits := by
  rw [decimal, List.foldl_cons, Nat.mul_zero, Nat.zero_add, decimal_foldl]

/-- Only a zero can be left out in front. -/
theorem decimal_eq_tail_iff {c : UInt8} (hc : IsDigit c) (digits : List UInt8) :
    decimal digits = decimal (c :: digits) ↔ c = 48 := by
  have hpos : 0 < 10 ^ digits.length := Nat.pow_pos (by omega)
  have h48 : 48 ≤ c.toNat := hc.1
  rw [decimal_cons, Nat.right_eq_add, Nat.mul_eq_zero, or_iff_left hpos.ne']
  constructor
  · intro h
    exact UInt8.toNat_inj.mp (by simp; omega)
  · rintro rfl
    rfl

theorem foldl_cast (digits : List UInt8) (n : ℕ) :
    digits.foldl (fun (n : ℤ) c => 10 * n + (c.toNat - 48 : ℕ)) (n : ℤ) =
      (digits.foldl (fun n c => 10 * n + (c.toNat - 48)) n : ℕ) := by
  induction digits generalizing n with
  | nil => rfl
  | cons c cs ih =>
      rw [List.foldl_cons, List.foldl_cons, ← ih]
      push_cast
      rfl

theorem toInt32_natCast {n : ℕ} (hn : n < 2 ^ 31) : toInt32 (n : ℤ) = n := by
  rw [toInt32, Int.bmod_eq_of_le (by omega) (by omega)]

/-- A sum of two `int` values that are not negative is an `int` again or wraps to a negative
one. -/
theorem toInt32_eq_natCast_iff {z : ℤ} {n : ℕ} (hz : 0 ≤ z) (hlt : z < 2 ^ 32) (hn : n < 2 ^ 31) :
    toInt32 z = n ↔ z = n := by
  rw [toInt32, Int.bmod_def]
  split_ifs <;> omega

/-- `atoi` skips white space in front and stops behind the digits. -/
theorem atoi_digits (hpre : Blanks pre) (hdigits : ∀ c ∈ digits, IsDigit c) (hpost : Blanks post)
    (hfits : decimal digits < 2 ^ 31) : atoi (pre ++ digits ++ post) = ((decimal digits : ℤ), false) := by
  have hspace : ∀ {s : List UInt8}, Blanks s → ∀ c ∈ s, isspace c = true := by
    intro s hs c hc
    rcases hs c hc with rfl | rfl <;> rfl
  have hvalue : ∀ s : List UInt8, (s.takeWhile fun c => 48 ≤ c ∧ c ≤ 57) = digits →
      s.head? ≠ some 45 → s.head? ≠ some 43 → (pre ++ digits ++ post).dropWhile isspace = s →
      atoi (pre ++ digits ++ post) = ((decimal digits : ℤ), false) := by
    intro s htake hminus hplus hdrop
    have hnumber := foldl_cast digits 0
    simp only [Nat.cast_zero] at hnumber
    unfold atoi
    rw [hdrop]
    simp only [hminus, hplus, or_self, if_false, htake, hnumber]
    rw [if_neg (by change ¬ (2 ^ 63 : ℤ) ≤ ((decimal digits : ℕ) : ℤ); omega),
      if_neg (by change ¬ ((decimal digits : ℕ) : ℤ) < -2 ^ 63; omega)]
    exact congrArg (·, false) (toInt32_natCast hfits)
  have hstop : post.takeWhile (fun c : UInt8 => 48 ≤ c ∧ c ≤ 57) = [] := by
    cases post with
    | nil => rfl
    | cons c cs =>
        have : c = 32 ∨ c = 9 := hpost c List.mem_cons_self
        rcases this with rfl | rfl <;> rfl
  cases digits with
  | nil =>
      refine hvalue [] rfl (by simp) (by simp) ?_
      rw [List.append_nil, List.dropWhile_eq_nil_iff]
      intro c hc
      rcases List.mem_append.mp hc with hc | hc
      · exact hspace hpre c hc
      · exact hspace hpost c hc
  | cons d ds =>
      have hd := hdigits d List.mem_cons_self
      refine hvalue (d :: ds ++ post) ?_ ?_ ?_ ?_
      · rw [List.takeWhile_append_of_pos (by simpa [IsDigit] using hdigits), hstop, List.append_nil]
      · rintro h
        obtain rfl : d = 45 := Option.some.inj h
        exact absurd hd (by decide)
      · rintro h
        obtain rfl : d = 43 := Option.some.inj h
        exact absurd hd (by decide)
      · rw [List.append_assoc, List.dropWhile_append_of_pos (hspace hpre), List.cons_append,
          List.dropWhile_cons_of_neg]
        have : ∀ c, IsDigit c → ¬ isspace c = true := by
          intro c hc hs
          simp only [isspace, decide_eq_true_eq] at hs
          simp only [IsDigit, UInt8.le_iff_toNat_le] at hc hs
          rcases hs with rfl | hs
          · exact absurd hc.1 (by decide)
          · have : (48 : UInt8).toNat ≤ (13 : UInt8).toNat := hc.1.trans hs.2
            exact absurd this (by decide)
        exact this d hd

end Decimal

/-! ## The fields -/

/-- `Content-Length:`, white space, digits, white space. -/
structure LengthField (f : HeaderField) where
  name : List UInt8
  pre : List UInt8
  digits : List UInt8
  post : List UInt8
  line_eq : f.line = name ++ colon :: (pre ++ digits ++ post)
  alone : f.continuations = []
  named : name.map tolower = headerContentLength.map tolower
  pre_blanks : Blanks pre
  post_blanks : Blanks post
  isDigit : ∀ c ∈ digits, IsDigit c
  digits_ne_nil : digits ≠ []

/-- A character of a host name. -/
def IsNameChar (c : UInt8) : Prop :=
  IsDigit c ∨ (65 ≤ c ∧ c ≤ 90) ∨ (97 ≤ c ∧ c ≤ 122) ∨ c = 45 ∨ c = 46

instance (c : UInt8) : Decidable (IsNameChar c) := inferInstanceAs (Decidable (_ ∨ _))

/-- A port with the colon in front of it, if there is one. -/
def portText : Option (List UInt8) → List UInt8
  | none => []
  | some port => colon :: port

/-- `Host:`, white space, a name and maybe a port, white space. -/
structure HostField (f : HeaderField) where
  name : List UInt8
  pre : List UInt8
  host : List UInt8
  port : Option (List UInt8)
  post : List UInt8
  line_eq : f.line = name ++ colon :: (pre ++ host ++ portText port ++ post)
  alone : f.continuations = []
  named : name.map tolower = headerHost.map tolower
  pre_blanks : Blanks pre
  post_blanks : Blanks post
  isNameChar : ∀ c ∈ host, IsNameChar c
  host_ne_nil : host ≠ []
  isDigit : ∀ p ∈ port, ∀ c ∈ p, IsDigit c
  port_ne_nil : ∀ p ∈ port, p ≠ []
  port_le : ∀ p ∈ port, decimal p ≤ 65535

theorem host_mem {s : List UInt8} (hs : ∀ c ∈ s, IsNameChar c) :
    0 ∉ s ∧ colon ∉ s ∧ 32 ∉ s ∧ 9 ∉ s :=
  ⟨fun h0 => absurd (hs 0 h0) (by decide), fun h0 => absurd (hs colon h0) (by decide),
    fun h0 => absurd (hs 32 h0) (by decide), fun h0 => absurd (hs 9 h0) (by decide)⟩

namespace HostField
variable {f : HeaderField} (v : HostField f)

theorem colon_notMem : colon ∉ (v.pre ++ v.host).drop 1 := by
  intro hmem
  rcases List.mem_append.mp (List.mem_of_mem_drop hmem) with h0 | h0
  · exact absurd (v.pre_blanks colon h0) (by decide)
  · exact (host_mem v.isNameChar).2.1 h0

/-- Without the byte behind the colon the name is whole if this byte was the only blank. -/
theorem drop_one_eq_iff : (v.pre ++ v.host).drop 1 = v.host ↔ v.pre.length = 1 := by
  have hpos := List.length_pos_of_ne_nil v.host_ne_nil
  constructor
  · intro h
    have := congrArg List.length h
    rw [List.length_drop, List.length_append] at this
    omega
  · intro hpre
    obtain ⟨c, hc⟩ := List.length_eq_one_iff.mp hpre
    rw [hc]
    rfl

/-- Blanks behind it would be characters of the name. -/
theorem drop_one_append_eq_iff :
    (v.pre ++ v.host).drop 1 ++ v.post = v.host ↔ v.pre.length = 1 ∧ v.post = [] := by
  rw [← v.drop_one_eq_iff]
  constructor
  · intro h
    have hpost : v.post = [] := by
      by_contra hne
      obtain ⟨b, bs, hpost⟩ := List.exists_cons_of_ne_nil hne
      have hb : b ∈ v.host := by
        rw [← h, hpost]
        simp
      obtain ⟨-, -, h32, h9⟩ := host_mem v.isNameChar
      rcases v.post_blanks b (by rw [hpost]; exact List.mem_cons_self) with rfl | rfl
      · exact h32 hb
      · exact h9 hb
    rw [hpost, List.append_nil] at h
    exact ⟨h, hpost⟩
  · rintro ⟨h, hpost⟩
    rw [h, hpost, List.append_nil]

end HostField

namespace HttpMessage
variable {h : HttpMessage} {firstLine body key name value : List UInt8} {l r : List HeaderField}
  {f : HeaderField}

/-- What `get_n_split_hostname` returns: -1 without a header, and 1 when the port is no
number that fits. -/
def getNSplitHostnameRet (h : HttpMessage) : ℤ :=
  match h.findHeader headerHost with
  | none => -1
  | some hr =>
      match ((h.copyHeader hr).drop (headerHost.length + 2)).dropWhile (· ≠ colon) with
      | [] => 0
      | _ :: modifiedPort => if (atoi modifiedPort).2 then 1 else 0

/-- The first header with a name is found and copied, and what is taken for its value
starts behind the colon and one byte. -/
theorem Parsed.copied (H : Parsed h firstLine (l ++ f :: r) body) (hkey : PlainLine key ∧ 0 ∉ key)
    (hl : ∀ g ∈ l, ¬ g.HasName key) (hline : f.line = name ++ colon :: value)
    (halone : f.continuations = []) (hnamed : name.map tolower = key.map tolower)
    (hvalue : 0 ∉ value) :
    h.findHeader key = some l.length ∧
      (h.copyHeader l.length).drop (key.length + 2) = value.drop 1 := by
  have hlen : name.length = key.length := by
    have := congrArg List.length hnamed
    simpa using this
  have hname : f.HasName key := by
    constructor
    · rw [hline, List.take_left' hlen, hnamed]
    · rw [hline, ← hlen]
      simp
  have htext : f.text = name ++ colon :: value := by
    rw [HeaderField.text, joinLines, halone, hline]
    simp
  have hstring : 0 ∉ f.text := by
    have hzero : (0 : UInt8) ∉ name := by
      intro h0
      have : tolower 0 ∈ key.map tolower := hnamed ▸ List.mem_map_of_mem h0
      obtain ⟨c, hc, hlow⟩ := List.mem_map.mp this
      have hc0 : c = 0 := by
        unfold tolower at hlow
        split at hlow <;> simp at hlow <;> grind
      exact hkey.2 (hc0 ▸ hc)
    rw [htext]
    simp [hzero, hvalue, colon]
  have hentry := H.header_append
  have hbytes : h.bytesAt (firstLine.length + 2 + (fieldsText l).length) f.text.length = f.text := by
    have hbuffer : h.buffer = (firstLine ++ delim ++ fieldsText l) ++ f.text ++
        (delim ++ fieldsText r ++ delim ++ body) := by
      rw [H.buffer]
      simp [fieldsText]
    have := bytesAt_of_append hbuffer
    rwa [List.length_append, List.length_append] at this
  refine ⟨H.findHeader_append hkey.1 hl hname, ?_⟩
  rw [copyHeader, hentry, hbytes, cstr_of_notMem hstring, htext, ← hlen,
    show name.length + 2 = (name ++ [colon]).length + 1 by simp, ← List.drop_drop,
    show name ++ colon :: value = (name ++ [colon]) ++ value by simp, List.drop_left]

theorem plain_of_blanks {s : List UInt8} (hs : Blanks s) : 0 ∉ s :=
  fun h0 => absurd (hs 0 h0) (by decide)

theorem not_mem_of_isDigit {s : List UInt8} (hs : ∀ c ∈ s, IsDigit c) : 0 ∉ s ∧ colon ∉ s :=
  ⟨fun h0 => absurd (hs 0 h0) (by decide), fun h0 => absurd (hs colon h0) (by decide)⟩

/-- White space and digits without the byte in front: the number is the same when this is
white space or a zero. -/
theorem drop_one_digits {pre digits : List UInt8} (post : List UInt8) (hpre : Blanks pre)
    (hdigits : ∀ c ∈ digits, IsDigit c) (hne : digits ≠ []) :
    ∃ pre' digits', (pre ++ digits ++ post).drop 1 = pre' ++ digits' ++ post ∧ Blanks pre' ∧
      (∀ c ∈ digits', IsDigit c) ∧ decimal digits' ≤ decimal digits ∧
      (decimal digits' = decimal digits ↔ pre ≠ [] ∨ digits.head? = some 48) := by
  cases pre with
  | cons c pre =>
      exact ⟨pre, digits, rfl, fun b hb => hpre b (List.mem_cons_of_mem _ hb), hdigits, le_rfl,
        by simp⟩
  | nil =>
      obtain ⟨d, ds, rfl⟩ := List.exists_cons_of_ne_nil hne
      have hd := hdigits d List.mem_cons_self
      refine ⟨[], ds, rfl, hpre, fun b hb => hdigits b (List.mem_cons_of_mem _ hb), ?_, ?_⟩
      · rw [decimal_cons]
        exact Nat.le_add_left _ _
      · rw [decimal_eq_tail_iff hd]
        simp

/-- What `content_length_value` leaves, when nothing was expected before and when something
was. -/
theorem contentLengthValue_of_announced {i p n : ℕ}
    (hfind : h.findHeader headerContentLength = some i) (hannounced : h.announced i = (n : ℤ))
    (hp : h.payload = some p) :
    ∃ e, h.contentLengthValue = .ok ({ h with expectedPayload := e }, e) ∧
      e = toInt32 ((if h.expectedPayload < 0 then (n : ℤ) else h.expectedPayload) + p) := by
  refine ⟨_, ?_, rfl⟩
  rw [contentLengthValue, hfind]
  dsimp only
  rw [hannounced, hp]
  split_ifs <;> first | omega | rfl

/-- The content length is read off right when there is white space behind the colon. -/
theorem contentLengthValue_iff (H : Parsed h firstLine (l ++ f :: r) body) (v : LengthField f)
    (hl : ∀ g ∈ l, ¬ g.HasName headerContentLength) (hint : h.expectedPayload < 2 ^ 31) {p : ℕ}
    (hp : h.payload = some p) (hfits : decimal v.digits + p < 2 ^ 31) :
    (∃ h' clv, h.contentLengthValue = .ok (h', clv) ∧
        h'.expectedPayload = (decimal v.digits + p : ℕ)) ↔
      (h.expectedPayload < 0 ∧ (v.pre ≠ [] ∨ v.digits.head? = some 48)) ∨
        h.expectedPayload = decimal v.digits := by
  have hzero : 0 ∉ v.pre ++ v.digits ++ v.post := by
    simp [plain_of_blanks v.pre_blanks, plain_of_blanks v.post_blanks,
      (not_mem_of_isDigit v.isDigit).1]
  obtain ⟨hfind, hcopy⟩ := H.copied (by decide +kernel) hl v.line_eq v.alone v.named hzero
  obtain ⟨pre, digits, hdrop, hpre, hdigits, hle, hsame⟩ :=
    drop_one_digits v.post v.pre_blanks v.isDigit v.digits_ne_nil
  have hannounced : h.announced l.length = (decimal digits : ℤ) := by
    rw [announced, hcopy, hdrop, atoi_digits hpre hdigits v.post_blanks (by omega)]
    rfl
  obtain ⟨e, hvalue, he⟩ := contentLengthValue_of_announced hfind hannounced hp
  have hiff : (∃ h' clv, h.contentLengthValue = .ok (h', clv) ∧
      h'.expectedPayload = (decimal v.digits + p : ℕ)) ↔ e = (decimal v.digits + p : ℕ) := by
    constructor
    · rintro ⟨h', clv, hok, hexpected⟩
      rw [hvalue] at hok
      obtain ⟨rfl, -⟩ := Prod.mk.inj (Except.ok.inj hok)
      exact hexpected
    · exact fun h => ⟨_, _, hvalue, h⟩
  rw [hiff, he, ← hsame]
  split_ifs with hfresh
  · rw [toInt32_eq_natCast_iff (by omega) (by omega) hfits]
    omega
  · rw [toInt32_eq_natCast_iff (by omega) (by omega) hfits]
    omega

section Split
variable {i : ℕ} {x y : List UInt8} {p : ℤ}

/-- A value with a colon is split there. -/
theorem getNSplitHostname_of_colon (hfind : h.findHeader headerHost = some i)
    (hvalue : (h.copyHeader i).drop (headerHost.length + 2) = x ++ colon :: y) (hx : colon ∉ x)
    (hport : atoi y = (p, false)) (port₀ : ℤ) :
    h.getNSplitHostnameRet = 0 ∧ h.getNSplitHostname port₀ = some (x, p) := by
  obtain ⟨hfirst, hrest⟩ := Words.span_eq (p := (· ≠ colon)) (w := x) (r := colon :: y)
    (fun c hc => decide_eq_true fun h0 => hx (h0 ▸ hc)) (by simp)
  constructor
  · rw [getNSplitHostnameRet, hfind]
    simp only [hvalue, hrest, hport, Bool.false_eq_true, if_false]
  · unfold getNSplitHostname
    rw [hfind, Option.map_some]
    simp only [hvalue, hrest, hfirst, hport, Bool.false_eq_true, if_false]

/-- One without a colon is the host, and the port stays as it was. -/
theorem getNSplitHostname_of_noColon (hfind : h.findHeader headerHost = some i)
    (hvalue : (h.copyHeader i).drop (headerHost.length + 2) = x) (hx : colon ∉ x) (port₀ : ℤ) :
    h.getNSplitHostnameRet = 0 ∧ h.getNSplitHostname port₀ = some (x, port₀) := by
  have hrest : x.dropWhile (· ≠ colon) = [] := by
    rw [List.dropWhile_eq_nil_iff]
    exact fun c hc => decide_eq_true fun h0 => hx (h0 ▸ hc)
  constructor
  · rw [getNSplitHostnameRet, hfind]
    simp only [hvalue, hrest]
  · unfold getNSplitHostname
    rw [hfind, Option.map_some]
    simp only [hvalue, hrest]

end Split

/-- The value of a host field, copied without the byte behind the colon. -/
theorem Parsed.copied_host (v : HostField f) (H : Parsed h firstLine (l ++ f :: r) body)
    (hl : ∀ g ∈ l, ¬ g.HasName headerHost) : h.findHeader headerHost = some l.length ∧
      (h.copyHeader l.length).drop (headerHost.length + 2) =
        (v.pre ++ v.host).drop 1 ++ (portText v.port ++ v.post) := by
  have hporttext : 0 ∉ portText v.port := by
    cases hp : v.port with
    | none => exact List.not_mem_nil
    | some p => simp [portText, colon, (not_mem_of_isDigit (v.isDigit p hp)).1]
  have hzero : 0 ∉ v.pre ++ v.host ++ portText v.port ++ v.post := by
    simp [plain_of_blanks v.pre_blanks, plain_of_blanks v.post_blanks,
      (host_mem v.isNameChar).1, hporttext]
  obtain ⟨hfind, hcopy⟩ := H.copied (by decide +kernel) hl v.line_eq v.alone v.named hzero
  refine ⟨hfind, ?_⟩
  have hpos := List.length_pos_of_ne_nil v.host_ne_nil
  rw [hcopy, List.append_assoc _ (portText v.port)]
  exact List.drop_append_of_le_length (by rw [List.length_append]; omega)

/-- The host is read off right when there is one blank in front of it and, unless a port
follows, none behind. -/
theorem getNSplitHostname_iff (H : Parsed h firstLine (l ++ f :: r) body) (v : HostField f)
    (hl : ∀ g ∈ l, ¬ g.HasName headerHost) (port₀ : ℤ) :
    (h.getNSplitHostnameRet = 0 ∧ ∃ port, h.getNSplitHostname port₀ = some (v.host, port) ∧
        ∀ p ∈ v.port, port = decimal p) ↔
      v.pre.length = 1 ∧ (v.port.isSome ∨ v.post = []) := by
  obtain ⟨hfind, hvalue⟩ := H.copied_host v hl
  cases hp : v.port with
  | some p =>
      -- what is taken for the port starts behind the colon
      rw [hp, portText, List.cons_append] at hvalue
      have hport : atoi (p ++ v.post) = ((decimal p : ℤ), false) := by
        have hle := v.port_le p hp
        have hnone : Blanks [] := fun _ h0 => absurd h0 List.not_mem_nil
        exact atoi_digits hnone (v.isDigit p hp) v.post_blanks (by omega)
      obtain ⟨hret, hresult⟩ := getNSplitHostname_of_colon hfind hvalue v.colon_notMem hport port₀
      rw [hresult, hret, ← v.drop_one_eq_iff]
      constructor
      · rintro ⟨-, port, heq, -⟩
        exact ⟨(Prod.mk.inj (Option.some.inj heq)).1, .inl rfl⟩
      · rintro ⟨hhost, -⟩
        exact ⟨rfl, decimal p, by rw [hhost], by simp⟩
  | none =>
      rw [hp, portText, List.nil_append] at hvalue
      have hcolon : colon ∉ (v.pre ++ v.host).drop 1 ++ v.post := by
        intro hmem
        rcases List.mem_append.mp hmem with h0 | h0
        · exact v.colon_notMem h0
        · exact absurd (v.post_blanks colon h0) (by decide)
      obtain ⟨hret, hresult⟩ := getNSplitHostname_of_noColon hfind hvalue hcolon port₀
      rw [hresult, hret]
      constructor
      · rintro ⟨-, port, heq, -⟩
        obtain ⟨hpre, hpost⟩ :=
          v.drop_one_append_eq_iff.mp (Prod.mk.inj (Option.some.inj heq)).1
        exact ⟨hpre, .inr hpost⟩
      · rintro ⟨hpre, hpost⟩
        have hhost := v.drop_one_append_eq_iff.mpr ⟨hpre, by simpa using hpost⟩
        exact ⟨rfl, port₀, by rw [hhost], by simp⟩

/-- **Which white space the values are read behind.** In a parsed block whose first header
with the name is one of these fields, the content length is read off right exactly when
there is white space behind the colon or the number starts with a zero, or when it was
expected before, and the host exactly when one blank stands in front of it and, unless a
port follows, none behind. -/
theorem fieldValues_iff (h : HttpMessage) (firstLine : List UInt8) (l r : List HeaderField)
    (f : HeaderField) (body : List UInt8) (H : Parsed h firstLine (l ++ f :: r) body) :
    (∀ v : LengthField f, (∀ g ∈ l, ¬ g.HasName headerContentLength) → h.expectedPayload < 2 ^ 31 →
      ∀ p, h.payload = some p → decimal v.digits + p < 2 ^ 31 →
      ((∃ h' clv, h.contentLengthValue = .ok (h', clv) ∧
          h'.expectedPayload = (decimal v.digits + p : ℕ)) ↔
        (h.expectedPayload < 0 ∧ (v.pre ≠ [] ∨ v.digits.head? = some 48)) ∨
          h.expectedPayload = decimal v.digits)) ∧
    ∀ v : HostField f, (∀ g ∈ l, ¬ g.HasName headerHost) → ∀ port₀ : ℤ,
      ((h.getNSplitHostnameRet = 0 ∧ ∃ port, h.getNSplitHostname port₀ = some (v.host, port) ∧
          ∀ p ∈ v.port, port = decimal p) ↔
        v.pre.length = 1 ∧ (v.port.isSome ∨ v.post = [])) :=
  ⟨fun v hl hint _ hp hfits => contentLengthValue_iff H v hl hint hp hfits,
    fun v hl port₀ => getNSplitHostname_iff H v hl port₀⟩

theorem line_bareLength : chars "Content-Length:57" ≠ [] ∧ PlainLine (chars "Content-Length:57") ∧
    ¬ Indented (chars "Content-Length:57") := by
  decide +kernel

theorem plain_nil : ∀ l ∈ ([] : List (List UInt8)), PlainLine l := fun _ h =>
  absurd h List.not_mem_nil

theorem indented_nil : ∀ l ∈ ([] : List (List UInt8)), Indented l := fun _ h =>
  absurd h List.not_mem_nil

/-- A content length right behind the colon. -/
def bareLength : HeaderField :=
  ⟨chars "Content-Length:57", [], line_bareLength.1, line_bareLength.2.1, line_bareLength.2.2,
    plain_nil, indented_nil⟩

def bareLengthField : LengthField bareLength :=
  ⟨chars "Content-Length", [], chars "57", [], by decide +kernel, rfl, by decide +kernel,
    by decide +kernel, by decide +kernel, by decide +kernel, by decide +kernel⟩

/-- A request with it. -/
def bareLengthParsed : HttpMessage :=
  { HttpMessage.create ⟨[], .null, .null, .null⟩ .requester with
    buffer := chars "PUT / HTTP/1.0" ++ delim ++ fieldsText [bareLength] ++ delim
    headers := some [(16, 17)], headersUsed := 1, payload := some 37 }

theorem parsed_bareLength : Parsed bareLengthParsed (chars "PUT / HTTP/1.0") [bareLength] [] :=
  ⟨by decide +kernel, by decide +kernel, rfl, by decide +kernel⟩

theorem line_hostPort : chars "host: moo:81 " ≠ [] ∧ PlainLine (chars "host: moo:81 ") ∧
    ¬ Indented (chars "host: moo:81 ") := by
  decide +kernel

/-- A host with a port, and white space behind it. -/
def hostPort : HeaderField :=
  ⟨chars "host: moo:81 ", [], line_hostPort.1, line_hostPort.2.1, line_hostPort.2.2,
    plain_nil, indented_nil⟩

def hostPortField : HostField hostPort :=
  ⟨chars "host", [32], chars "moo", some (chars "81"), [32], by decide +kernel, rfl,
    by decide +kernel, by decide +kernel, by decide +kernel, by decide +kernel, by decide +kernel,
    by decide +kernel, by decide +kernel, by decide +kernel⟩

/-- A request with it, behind the content length. -/
def hostPortParsed : HttpMessage :=
  { HttpMessage.create ⟨[], .null, .null, .null⟩ .requester with
    buffer := chars "PUT / HTTP/1.0" ++ delim ++ fieldsText [bareLength, hostPort] ++ delim
    headers := some [(16, 17), (35, 13)], headersUsed := 2, payload := some 52 }

theorem parsed_hostPort : Parsed hostPortParsed (chars "PUT / HTTP/1.0") [bareLength, hostPort] [] :=
  ⟨by decide +kernel, by decide +kernel, rfl, by decide +kernel⟩

/-- In one block the host is read off right and the content length is not. -/
theorem fieldValues_iff_hostPort :
    (¬ ∃ h' clv, hostPortParsed.contentLengthValue = .ok (h', clv) ∧
      h'.expectedPayload = (decimal (chars "57") + 52 : ℕ)) ∧
    hostPortParsed.getNSplitHostnameRet = 0 ∧
    ∃ port, hostPortParsed.getNSplitHostname 80 = some (chars "moo", port) ∧
      ∀ p ∈ some (chars "81"), port = decimal p :=
  ⟨mt ((fieldValues_iff hostPortParsed _ [] [hostPort] bareLength [] parsed_hostPort).1
      bareLengthField (by simp) (by decide +kernel) 52 rfl (by decide +kernel)).mp
      (by decide +kernel),
    ((fieldValues_iff hostPortParsed _ [bareLength] [] hostPort [] parsed_hostPort).2
      hostPortField (by decide +kernel) 80).mpr (by decide +kernel)⟩

/-- Of the number 57 the first digit is taken for the blank behind the colon. -/
theorem not_fieldValues :
    ¬ ∀ (h : HttpMessage) (firstLine : List UInt8) (l r : List HeaderField) (f : HeaderField)
      (body : List UInt8), Parsed h firstLine (l ++ f :: r) body →
      ∀ v : LengthField f, (∀ g ∈ l, ¬ g.HasName headerContentLength) → h.expectedPayload < 0 →
      ∀ p, h.payload = some p → decimal v.digits + p < 2 ^ 31 →
      ∃ h' clv, h.contentLengthValue = .ok (h', clv) ∧
        h'.expectedPayload = (decimal v.digits + p : ℕ) := by
  intro hall
  obtain ⟨h', clv, hok, hexpected⟩ := hall bareLengthParsed _ [] [] bareLength []
    parsed_bareLength bareLengthField (by simp) (by decide +kernel) 37 rfl (by decide +kernel)
  have hvalue : (bareLengthParsed.contentLengthValue.toOption.map fun r => r.2) = some 44 ∧
      (bareLengthParsed.contentLengthValue.toOption.map fun r => r.1.expectedPayload) = some 44 := by
    decide +kernel
  rw [hok] at hvalue
  have hfour : h'.expectedPayload = 44 := Option.some.inj hvalue.2
  rw [hfour] at hexpected
  exact absurd hexpected (by decide +kernel)

end HttpMessage

end RenaProxy
