import RenaProxy.Http.Headers
import Mathlib.Data.List.TakeDrop

/-!
# Header blocks

The text that `process_headers_and_get_payload` is written for: a first line, header
lines that may be continued, and a blank line, each ended by CR LF. On such a text the
scan hands every header to `fnc` once and finds the payload behind the blank line
(`processHeadersAndGetPayload_block`). It takes more than these texts: any two
delimiters end a line, and the first line may be short.
-/
namespace RenaProxy

/-- A line as it stands between two line ends. -/
def PlainLine (l : List UInt8) : Prop := ∀ b ∈ l, b ∉ delim

instance (l : List UInt8) : Decidable (PlainLine l) := inferInstanceAs (Decidable (∀ b ∈ l, _))

/-- A line that starts with a blank. -/
def Indented (l : List UInt8) : Prop := l.head? = some 9 ∨ l.head? = some 32

instance (l : List UInt8) : Decidable (Indented l) := inferInstanceAs (Decidable (_ ∨ _))

/-- A header: its line and those that continue it. -/
structure HeaderField where
  line : List UInt8
  continuations : List (List UInt8)
  line_ne_nil : line ≠ []
  line_plain : PlainLine line
  not_indented : ¬ Indented line
  continuations_plain : ∀ l ∈ continuations, PlainLine l
  indented : ∀ l ∈ continuations, Indented l

/-- The lines of a header with the line ends between them. -/
def joinLines (line : List UInt8) (continuations : List (List UInt8)) : List UInt8 :=
  line ++ continuations.flatMap (delim ++ ·)

def HeaderField.text (f : HeaderField) : List UInt8 := joinLines f.line f.continuations

/-- A header block: the first line, room for a version in it, and at least one header. -/
structure HeaderBlock where
  firstLine : List UInt8
  fields : List HeaderField
  plain : PlainLine firstLine
  eight_le : 8 ≤ firstLine.length
  fields_ne_nil : fields ≠ []

/-- Headers, each with its line end. -/
def fieldsText (fs : List HeaderField) : List UInt8 := fs.flatMap fun f => f.text ++ delim

namespace HeaderBlock

/-- All bytes of the block, the blank line included. -/
def text (b : HeaderBlock) : List UInt8 := b.firstLine ++ delim ++ fieldsText b.fields ++ delim

/-- Offset and length of headers that follow each other from `start` on. -/
def entriesFrom (start : ℕ) : List HeaderField → List (ℕ × ℕ)
  | [] => []
  | f :: fs => (start, f.text.length) :: entriesFrom (start + f.text.length + 2) fs

/-- Offset and length of each header. -/
def entries (b : HeaderBlock) : List (ℕ × ℕ) := entriesFrom (b.firstLine.length + 2) b.fields

end HeaderBlock

/-- A first line with the sixth and the eighth of its last eight bytes changed, if
these start with `HTTP/1`. -/
def downgradeLine (l : List UInt8) : List UInt8 :=
  let version := l.drop (l.length - 8)
  if version.take 6 = chars "HTTP/1" then
    l.take (l.length - 8) ++ (version.set 5 49).set 7 48
  else l

@[simp] theorem length_downgradeLine (l : List UInt8) : (downgradeLine l).length = l.length := by
  unfold downgradeLine
  dsimp only
  split
  · simp only [List.length_append, List.length_take, List.length_set, List.length_drop]
    omega
  · rfl

theorem plainLine_downgradeLine {l : List UInt8} (h : PlainLine l) :
    PlainLine (downgradeLine l) := by
  unfold downgradeLine
  dsimp only
  split
  · intro b hb
    rcases List.mem_append.mp hb with hb | hb
    · exact h b (List.mem_of_mem_take hb)
    · rcases List.mem_or_eq_of_mem_set hb with hb | rfl
      · rcases List.mem_or_eq_of_mem_set hb with hb | rfl
        · exact h b (List.mem_of_mem_drop hb)
        · decide
      · decide
  · exact h

theorem downgradeLine_downgradeLine (l : List UInt8) :
    downgradeLine (downgradeLine l) = downgradeLine l := by
  by_cases hv : (l.drop (l.length - 8)).take 6 = chars "HTTP/1"
  · have heq : downgradeLine l =
        l.take (l.length - 8) ++ ((l.drop (l.length - 8)).set 5 49).set 7 48 := if_pos hv
    have htake : (l.take (l.length - 8)).length = l.length - 8 := by
      rw [List.length_take]
      omega
    have hset : ∀ v : List UInt8, (((v.set 5 49).set 7 48).set 5 49).set 7 48 =
        (v.set 5 49).set 7 48 := by
      intro v
      rw [List.set_comm (i := 7) (j := 5) 48 49 (by decide), List.set_set, List.set_set]
    rw [downgradeLine, length_downgradeLine, heq, List.drop_left' htake, List.take_left' htake,
      hset]
    exact ite_self _
  · have heq : downgradeLine l = l := if_neg hv
    rw [heq, heq]

/-- The block with the version on its first line downgraded. -/
def HeaderBlock.downgrade (b : HeaderBlock) : HeaderBlock where
  firstLine := downgradeLine b.firstLine
  fields := b.fields
  plain := plainLine_downgradeLine b.plain
  eight_le := by
    rw [length_downgradeLine]
    exact b.eight_le
  fields_ne_nil := b.fields_ne_nil

theorem HeaderBlock.downgrade_downgrade (b : HeaderBlock) : b.downgrade.downgrade = b.downgrade := by
  simp only [HeaderBlock.downgrade, downgradeLine_downgradeLine]

@[simp] theorem HeaderBlock.entries_downgrade (b : HeaderBlock) :
    b.downgrade.entries = b.entries := by
  simp only [HeaderBlock.entries, HeaderBlock.downgrade, length_downgradeLine]

@[simp] theorem HeaderBlock.length_text_downgrade (b : HeaderBlock) :
    b.downgrade.text.length = b.text.length := by
  simp only [HeaderBlock.text, HeaderBlock.downgrade, List.length_append, length_downgradeLine]

/-! ## The scan -/

namespace HttpMessage
variable {h : HttpMessage} {s : Scan} {x z : List UInt8}

/-- The scan of `n` positions from `p` on. -/
def scanSpan (r : HttpMessage × Scan) (p n : ℕ) : HttpMessage × Scan :=
  (List.range' p n).foldl scanByte r

theorem scanSpan_add (r : HttpMessage × Scan) (p m n : ℕ) :
    scanSpan r p (m + n) = scanSpan (scanSpan r p m) (p + m) n := by
  rw [scanSpan, ← List.range'_append_1, List.foldl_append]
  rfl

theorem scanSpan_one (r : HttpMessage × Scan) (p : ℕ) : scanSpan r p 1 = scanByte r p := rfl

theorem scanSpan_two (r : HttpMessage × Scan) (p : ℕ) :
    scanSpan r p 2 = scanByte (scanByte r p) (p + 1) := rfl

theorem processHeadersAndGetPayload_eq (h : HttpMessage) :
    h.processHeadersAndGetPayload = scanSpan (h, .start) 0 h.buffer.length := by
  rw [processHeadersAndGetPayload, List.range_eq_range']
  rfl

theorem getD_of_append {c : UInt8} (hb : h.buffer = x ++ c :: z) :
    h.buffer.getD x.length 0 = c := by
  simp [hb, List.getD_eq_getElem?_getD]

theorem byteAt_of_append {c : UInt8} (hb : h.buffer = x ++ c :: z) :
    h.byteAt x.length = c := by
  simp [byteAt, mem, hb, List.getD_eq_getElem?_getD]

/-- Over the bytes of a line the scan goes without a change. -/
theorem scanSpan_plain {l : List UInt8} (hl : PlainLine l) (hb : h.buffer = x ++ l ++ z) :
    scanSpan (h, s) x.length l.length = (h, s) := by
  induction l generalizing x with
  | nil => rfl
  | cons c l ih =>
      have hc : h.buffer.getD x.length 0 = c := getD_of_append (by simpa using hb)
      have hstep : scanByte (h, s) x.length = (h, s) := by
        have hcd : c ∉ delim := hl c List.mem_cons_self
        simp only [scanByte, hc, hcd, if_false, ite_self]
      rw [List.length_cons, Nat.add_comm, scanSpan_add, scanSpan_one, hstep]
      have hrest := ih (x := x ++ [c]) (fun b hb' => hl b (List.mem_cons_of_mem _ hb'))
        (by simpa using hb)
      rwa [List.length_append, List.length_singleton] at hrest

theorem scanByte_delim {c : UInt8} (hc : c ∈ delim) (hb : h.buffer = x ++ c :: z)
    (hp : s.payload = none) :
    scanByte (h, s) x.length = h.scanDelim s x.length := by
  simp only [scanByte, getD_of_append hb, hp, hc, Option.isSome_none, Bool.false_eq_true, if_false,
    if_true]

theorem scanSpan_done (hp : s.payload.isSome) (p n : ℕ) : scanSpan (h, s) p n = (h, s) := by
  induction n with
  | zero => rfl
  | succ n ih =>
      rw [scanSpan_add, ih, scanSpan_one]
      simp only [scanByte, hp, if_true]

/-- The end of a header line, told apart by the byte behind it. -/
theorem scanSpan_line {line : List UInt8} {c : UInt8} (hl : PlainLine line)
    (hb : h.buffer = x ++ line ++ 13 :: 10 :: c :: z) (hs : s.state = .headerFirstDelim)
    (hp : s.payload = none) :
    let stop := x.length + line.length + 2
    scanSpan (h, s) x.length (line.length + 2) =
      if c = 9 ∨ c = 32 then (h, s)
      else (h, { s with
        headers := s.headers ++ [(s.oldPositionBuf, stop - s.oldPositionBuf - 2)]
        oldPositionBuf := stop
        state := if c ∈ delim then .headerThirdDelim else .headerFirstDelim }) := by
  have hcr := scanByte_delim (h := h) (s := s) (x := x ++ line) (c := 13) (by decide) hb hp
  have hlf := scanByte_delim (h := h) (s := { s with state := .headerSecondDelim })
    (x := x ++ line ++ [13]) (c := 10) (z := c :: z) (by decide) (by simpa using hb) hp
  have hnext : h.byteAt (x.length + line.length + 1 + 1) = c := by
    have := byteAt_of_append (h := h) (x := x ++ line ++ [13, 10]) (c := c) (z := z)
      (by simpa using hb)
    simpa [Nat.add_assoc] using this
  simp only [List.length_append, List.length_singleton] at hcr hlf
  dsimp only
  rw [scanSpan_add, scanSpan_plain hl (by simpa using hb), scanSpan_two, hcr]
  simp only [scanDelim, hs]
  rw [hlf]
  simp only [scanDelim, hnext]
  by_cases hblank : c = 9 ∨ c = 32
  · have hcd : c ∉ delim := by
      rcases hblank with rfl | rfl <;> decide
    simp only [hblank, if_true, hcd, if_false]
    rw [← hs]
  · simp only [hblank, if_false]

/-- A header is handed over at its last line end, with all lines that continue it. -/
theorem scanSpan_joinLines {line : List UInt8} {continuations : List (List UInt8)} {c : UInt8}
    (hl : PlainLine line) (hplain : ∀ l ∈ continuations, PlainLine l)
    (hindent : ∀ l ∈ continuations, Indented l) (hc : ¬ (c = 9 ∨ c = 32))
    (hb : h.buffer = x ++ joinLines line continuations ++ 13 :: 10 :: c :: z)
    (hs : s.state = .headerFirstDelim) (hp : s.payload = none) :
    let stop := x.length + (joinLines line continuations).length + 2
    scanSpan (h, s) x.length ((joinLines line continuations).length + 2) =
      (h, { s with
        headers := s.headers ++ [(s.oldPositionBuf, stop - s.oldPositionBuf - 2)]
        oldPositionBuf := stop
        state := if c ∈ delim then .headerThirdDelim else .headerFirstDelim }) := by
  induction continuations generalizing line x with
  | nil =>
      simp only [joinLines, List.flatMap_nil, List.append_nil] at hb ⊢
      rw [scanSpan_line hl hb hs hp, if_neg hc]
  | cons l ls ih =>
      obtain ⟨hlplain, hls⟩ := List.forall_mem_cons.mp hplain
      obtain ⟨hlindent, hlsindent⟩ := List.forall_mem_cons.mp hindent
      have hjoin : joinLines line (l :: ls) = line ++ delim ++ joinLines l ls := by
        simp [joinLines]
      rw [hjoin] at hb ⊢
      have hrest := ih (x := x ++ line ++ delim) hlplain hls hlsindent (by simpa using hb)
      -- the first byte of the next line is the blank that the scan looks for
      have hfirst : scanSpan (h, s) x.length (line.length + 2) = (h, s) := by
        cases l with
        | nil => simp [Indented] at hlindent
        | cons a l =>
            have ha : a = 9 ∨ a = 32 := by simpa [Indented] using hlindent
            have := scanSpan_line (s := s) hl (h := h) (x := x) (c := a)
              (z := l ++ ls.flatMap (delim ++ ·) ++ 13 :: 10 :: c :: z)
              (by simpa [joinLines, delim] using hb) hs hp
            simpa only [ha, if_true] using this
      have hjoined : (line ++ delim ++ joinLines l ls).length =
          line.length + 2 + (joinLines l ls).length := by
        rw [List.length_append, List.length_append]
        rfl
      have hstart : (x ++ line ++ delim).length = x.length + (line.length + 2) := by
        rw [List.length_append, List.length_append]
        rfl
      have hstop : x.length + (line.length + 2 + (joinLines l ls).length) + 2 =
          (x ++ line ++ delim).length + (joinLines l ls).length + 2 := by
        rw [hstart]
        omega
      dsimp only
      rw [hjoined, hstop, Nat.add_assoc (line.length + 2), scanSpan_add, hfirst, ← hstart]
      exact hrest

/-- The entry that the scan makes for a header. -/
theorem scanSpan_field (f : HeaderField) {c : UInt8} (hc : ¬ (c = 9 ∨ c = 32))
    (hb : h.buffer = x ++ f.text ++ 13 :: 10 :: c :: z) (hs : s.state = .headerFirstDelim)
    (hp : s.payload = none) (hold : s.oldPositionBuf = x.length) :
    scanSpan (h, s) x.length (f.text.length + 2) =
      (h, { s with
        headers := s.headers ++ [(x.length, f.text.length)]
        oldPositionBuf := x.length + f.text.length + 2
        state := if c ∈ delim then .headerThirdDelim else .headerFirstDelim }) := by
  have hlength : x.length + f.text.length + 2 - x.length - 2 = f.text.length := by omega
  have := scanSpan_joinLines f.line_plain f.continuations_plain f.indented hc hb hs hp
  dsimp only at this
  rwa [hold, show joinLines f.line f.continuations = f.text from rfl, hlength] at this

/-- All headers are handed over in order, and the scan waits for the rest of the blank
line. -/
theorem scanSpan_fields {fs : List HeaderField} (hne : fs ≠ [])
    (hb : h.buffer = x ++ fieldsText fs ++ 13 :: z) (hs : s.state = .headerFirstDelim)
    (hp : s.payload = none) (hold : s.oldPositionBuf = x.length) :
    scanSpan (h, s) x.length (fieldsText fs).length =
      (h, { s with
        headers := s.headers ++ HeaderBlock.entriesFrom x.length fs
        oldPositionBuf := x.length + (fieldsText fs).length
        state := .headerThirdDelim }) := by
  induction fs generalizing x s with
  | nil => exact absurd rfl hne
  | cons f fs ih =>
      have hcons : fieldsText (f :: fs) = f.text ++ delim ++ fieldsText fs := by
        simp [fieldsText]
      have hlen : (fieldsText (f :: fs)).length = f.text.length + 2 + (fieldsText fs).length := by
        rw [hcons, List.length_append, List.length_append]
        rfl
      cases fs with
      | nil =>
          have hfield := scanSpan_field f (s := s) (c := 13) (by decide)
            (by simpa [hcons, delim, fieldsText] using hb) hs hp hold
          rw [hlen, show (fieldsText []).length = 0 from rfl, Nat.add_zero, hfield]
          simp [HeaderBlock.entriesFrom, delim, Nat.add_assoc]
      | cons g gs =>
          obtain ⟨c, line, hline⟩ := List.exists_cons_of_ne_nil g.line_ne_nil
          have hc : ¬ (c = 9 ∨ c = 32) := by
            have := g.not_indented
            simpa [Indented, hline] using this
          have hcd : c ∉ delim := g.line_plain c (by rw [hline]; exact List.mem_cons_self)
          have hfield := scanSpan_field f (s := s) (h := h) (c := c)
            (z := line ++ g.continuations.flatMap (delim ++ ·) ++ delim ++ fieldsText gs ++
              13 :: z) hc
            (by simpa [fieldsText, HeaderField.text, joinLines, hline, delim] using hb) hs hp hold
          rw [if_neg hcd] at hfield
          have hstart : (x ++ f.text ++ delim).length = x.length + (f.text.length + 2) := by
            rw [List.length_append, List.length_append]
            rfl
          have hrest := ih (x := x ++ f.text ++ delim)
            (s := { s with
              headers := s.headers ++ [(x.length, f.text.length)]
              oldPositionBuf := x.length + f.text.length + 2 })
            (by simp) (by simpa [fieldsText] using hb) hs hp (by rw [hstart, Nat.add_assoc])
          rw [hstart] at hrest
          have hentries : HeaderBlock.entriesFrom x.length (f :: g :: gs) =
              (x.length, f.text.length) ::
                HeaderBlock.entriesFrom (x.length + (f.text.length + 2)) (g :: gs) := rfl
          rw [hlen, scanSpan_add, hfield, ← hs, hrest, hentries]
          simp [Nat.add_assoc]

theorem downgrade_firstLine {l : List UInt8} (hlen : 8 ≤ l.length)
    (hb : h.buffer = l ++ 13 :: 10 :: z) :
    h.downgrade (l.length + 2) = { h with buffer := downgradeLine l ++ 13 :: 10 :: z } := by
  have hversion : (h.buffer.drop (l.length + 2 - 10)).take 6 = (l.drop (l.length - 8)).take 6 := by
    rw [hb, show l.length + 2 - 10 = l.length - 8 by omega,
      List.drop_append_of_le_length (by omega), List.take_append_of_le_length]
    rw [List.length_drop]
    omega
  rw [downgrade, hversion, downgradeLine]
  by_cases hv : (l.drop (l.length - 8)).take 6 = chars "HTTP/1"
  · have htake : (l.take (l.length - 8)).length = l.length - 8 := by
      rw [List.length_take]
      omega
    have hdrop : (l.drop (l.length - 8)).length = 8 := by
      rw [List.length_drop]
      omega
    have hset : ∀ (v : List UInt8) (i : ℕ) (a : UInt8), v.length = 8 → i < 8 →
        (l.take (l.length - 8) ++ (v ++ 13 :: 10 :: z)).set (l.length - 8 + i) a =
          l.take (l.length - 8) ++ (v.set i a ++ 13 :: 10 :: z) := by
      intro v i a hv hi
      rw [List.set_append_right _ _ (by omega), htake, Nat.add_sub_cancel_left,
        List.set_append_left _ _ (by omega)]
    have hbuffer : h.buffer =
        l.take (l.length - 8) ++ (l.drop (l.length - 8) ++ 13 :: 10 :: z) := by
      rw [← List.append_assoc, List.take_append_drop, hb]
    rw [if_pos ⟨by omega, hv⟩, if_pos hv, hbuffer,
      show l.length + 2 - 5 = l.length - 8 + 5 by omega,
      show l.length + 2 - 3 = l.length - 8 + 7 by omega, hset _ _ _ hdrop (by decide),
      hset _ _ _ (by rw [List.length_set, hdrop]) (by decide), List.append_assoc]
  · simp only [hv, and_false, if_false, ← hb]

/-- The first line, on which the version is downgraded. -/
theorem scanSpan_firstLine {l : List UInt8} (hl : PlainLine l) (hlen : 8 ≤ l.length)
    (hb : h.buffer = l ++ 13 :: 10 :: z) :
    scanSpan (h, .start) 0 (l.length + 2) =
      ({ h with buffer := downgradeLine l ++ 13 :: 10 :: z },
        { Scan.start with state := .headerFirstDelim, oldPositionBuf := l.length + 2 }) := by
  have hcr := scanByte_delim (h := h) (s := .start) (x := l) (c := 13) (by decide) hb rfl
  have hlf := scanByte_delim (h := h) (s := { Scan.start with state := .firstLineSecondDelim })
    (x := l ++ [13]) (c := 10) (z := z) (by decide) (by simpa using hb) rfl
  have hline := scanSpan_plain (s := .start) (x := []) hl (by simpa using hb)
  rw [List.length_nil] at hline
  rw [List.length_append, List.length_singleton] at hlf
  rw [scanSpan_add, hline, scanSpan_two, Nat.zero_add, hcr]
  simp only [scanDelim, Scan.start] at hlf ⊢
  rw [hlf, downgrade_firstLine hlen hb]

/-- The two delimiters of the blank line. -/
theorem scanSpan_blankLine (hb : h.buffer = x ++ 13 :: 10 :: z)
    (hs : s.state = .headerThirdDelim) (hp : s.payload = none) :
    scanSpan (h, s) x.length 2 =
      (h, { s with state := .headerDone, payload := some (x.length + 2) }) := by
  have hcr := scanByte_delim (c := 13) (by decide) hb hp
  have hlf := scanByte_delim (h := h) (s := { s with state := .headerDone }) (x := x ++ [13])
    (c := 10) (z := z) (by decide) (by simpa using hb) hp
  rw [List.length_append, List.length_singleton] at hlf
  rw [scanSpan_two, hcr]
  simp only [scanDelim, hs]
  rw [hlf]
  rfl

/-- What the scan comes to on a header block. -/
theorem processHeadersAndGetPayload_of_block (block : HeaderBlock) {rest : List UInt8}
    (hb : h.buffer = block.text ++ rest) :
    h.processHeadersAndGetPayload = ({ h with buffer := block.downgrade.text ++ rest },
      ⟨.headerDone, block.text.length - 2, block.entries, some block.text.length⟩) := by
  set n := block.firstLine.length + 2 with hn
  set k := (fieldsText block.fields).length with hk
  set h₁ : HttpMessage := { h with buffer := block.downgrade.text ++ rest } with hh₁
  have htext : block.text.length = n + k + 2 := by
    simp only [HeaderBlock.text, List.length_append]
    rfl
  have hlen : h.buffer.length = n + (k + (2 + rest.length)) := by
    rw [hb, List.length_append, htext]
    omega
  have hpre : (downgradeLine block.firstLine ++ delim).length = n := by
    rw [List.length_append, length_downgradeLine]
    rfl
  have hbuffer : h₁.buffer =
      downgradeLine block.firstLine ++ delim ++ fieldsText block.fields ++ 13 :: 10 :: rest := by
    simp [hh₁, HeaderBlock.text, HeaderBlock.downgrade, delim]
  have hfirst : scanSpan (h, .start) 0 n = (h₁, ⟨.headerFirstDelim, n, [], none⟩) := by
    have := scanSpan_firstLine (h := h) (z := fieldsText block.fields ++ delim ++ rest)
      block.plain block.eight_le (by simp [hb, HeaderBlock.text, delim])
    rw [this, show downgradeLine block.firstLine ++
      13 :: 10 :: (fieldsText block.fields ++ delim ++ rest) = h₁.buffer by simp [hbuffer, delim]]
    rfl
  have hfields : scanSpan (h₁, ⟨.headerFirstDelim, n, [], none⟩) n k =
      (h₁, ⟨.headerThirdDelim, n + k, block.entries, none⟩) := by
    have := scanSpan_fields (h := h₁) (s := ⟨.headerFirstDelim, n, [], none⟩)
      block.fields_ne_nil hbuffer rfl rfl hpre.symm
    rwa [hpre] at this
  have hblank : scanSpan (h₁, ⟨.headerThirdDelim, n + k, block.entries, none⟩) (n + k) 2 =
      (h₁, ⟨.headerDone, n + k, block.entries, some (n + k + 2)⟩) := by
    have := scanSpan_blankLine (h := h₁) (s := ⟨.headerThirdDelim, n + k, block.entries, none⟩)
      hbuffer rfl rfl
    rwa [List.length_append, hpre] at this
  rw [processHeadersAndGetPayload_eq, hlen, scanSpan_add, hfirst, scanSpan_add, Nat.zero_add,
    hfields, scanSpan_add, hblank, scanSpan_done rfl, htext]
  rfl

/-- **On a header block the scan finds every header and the payload.** Each header is
handed to `fnc` once, in order, with its offset and length; the payload starts behind the
blank line; the version on the first line is all that changes. The scan that saves the
headers finds what the one that counted them found. -/
theorem processHeadersAndGetPayload_block (h : HttpMessage) (block : HeaderBlock)
    (rest : List UInt8) (hb : h.buffer = block.text ++ rest) :
    h.processHeadersAndGetPayload.2.headers = block.entries ∧
      h.processHeadersAndGetPayload.2.payload = some block.text.length ∧
      h.processHeadersAndGetPayload.1 = { h with buffer := block.downgrade.text ++ rest } ∧
      h.processHeadersAndGetPayload.1.processHeadersAndGetPayload =
        h.processHeadersAndGetPayload := by
  have hscan := processHeadersAndGetPayload_of_block block hb
  have hagain := processHeadersAndGetPayload_of_block
    (h := { h with buffer := block.downgrade.text ++ rest }) block.downgrade rfl
  rw [HeaderBlock.downgrade_downgrade, HeaderBlock.entries_downgrade,
    HeaderBlock.length_text_downgrade] at hagain
  rw [hscan]
  exact ⟨rfl, rfl, rfl, hagain⟩

theorem processHeadersAndGetPayload_block_get :
    let h : HttpMessage := { HttpMessage.create ⟨[], .null, .null, .null⟩ .requester with
      buffer := chars "GET / HTTP/1.1\r\nHost: a\r\n b\r\n\r\nxyz" }
    h.processHeadersAndGetPayload.2.headers = [(16, 11)] ∧
      h.processHeadersAndGetPayload.2.payload = some 31 ∧
      h.processHeadersAndGetPayload.1 =
        { h with buffer := chars "GET / HTTP/1.0\r\nHost: a\r\n b\r\n\r\nxyz" } ∧
      h.processHeadersAndGetPayload.1.processHeadersAndGetPayload =
        h.processHeadersAndGetPayload :=
  processHeadersAndGetPayload_block _
    ⟨chars "GET / HTTP/1.1",
      [⟨chars "Host: a", [chars " b"], by decide +kernel, by decide +kernel, by decide +kernel,
        by decide +kernel, by decide +kernel⟩],
      by decide +kernel, by decide +kernel, List.cons_ne_nil _ _⟩
    (chars "xyz") (by decide +kernel)

end HttpMessage

end RenaProxy
