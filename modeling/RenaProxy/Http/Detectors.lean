import RenaProxy.Http.Grammar
import RenaProxy.Http.HeaderFrame

/-!
# Two detectors of the end of the header block

`check_delimiter_header` counts delimiters that follow each other, as the bytes come in;
`process_headers_and_get_payload` pairs the delimiters of the whole buffer into line
ends. `payload_of_blankLine` says where the second one sees the end, and
`detectors_agree_iff` on which texts this is where the first one reports it.
-/
namespace RenaProxy

/-- The delimiters in a text. -/
def lineEnds (s : List UInt8) : ℕ := s.countP (· ∈ delim)

@[simp] theorem lineEnds_append (s t : List UInt8) :
    lineEnds (s ++ t) = lineEnds s + lineEnds t := List.countP_append

theorem lineEnds_singleton (c : UInt8) : lineEnds [c] = if c ∈ delim then 1 else 0 := by
  simp [lineEnds, List.countP_cons]

/-- A delimiter behind `x` is the second one of a header line. -/
def EndsHeader (x : List UInt8) : Prop := 3 ≤ lineEnds x ∧ lineEnds x % 2 = 1

/-- No header line of a text has a delimiter directly behind its two. -/
def NoBlankLine (s : List UInt8) : Prop :=
  ∀ x a b y, s = x ++ a :: b :: y → a ∈ delim → b ∈ delim → ¬ EndsHeader x

theorem NoBlankLine.of_append {s t : List UInt8} (h : NoBlankLine (s ++ t)) : NoBlankLine s :=
  fun x a b y hs => h x a b (y ++ t) (by simp [hs])

theorem noBlankLine_of_length {s : List UInt8} (h : s.length < 2) : NoBlankLine s := by
  rintro x a b y rfl - - -
  simp at h
  omega

/-- One byte more makes a blank line with the byte before it or not at all. -/
theorem NoBlankLine.concat {s : List UInt8} {c : UInt8} (h : NoBlankLine s)
    (hlast : ∀ x a, s = x ++ [a] → a ∈ delim → c ∈ delim → ¬ EndsHeader x) :
    NoBlankLine (s ++ [c]) := by
  intro x a b y hs ha hb
  rcases List.eq_nil_or_concat y with rfl | ⟨y, d, rfl⟩
  · have hsplit : s ++ [c] = (x ++ [a]) ++ [b] := by simpa using hs
    obtain ⟨hx, hcb⟩ := List.append_inj' hsplit rfl
    exact hlast x a hx ha (by rw [List.cons.inj hcb |>.1]; exact hb)
  · have hsplit : s ++ [c] = (x ++ a :: b :: y) ++ [d] := by simpa using hs
    exact h x a b y (List.append_inj' hsplit rfl).1 ha hb

/-- A text has no blank line, or it has a first one. -/
theorem noBlankLine_or (s : List UInt8) : NoBlankLine s ∨
    ∃ x a b y, s = x ++ a :: b :: y ∧ a ∈ delim ∧ b ∈ delim ∧ EndsHeader x ∧
      NoBlankLine (x ++ [a]) := by
  induction s using List.reverseRecOn with
  | nil => exact .inl (noBlankLine_of_length (by simp))
  | append_singleton s c ih =>
      rcases ih with hno | ⟨x, a, b, y, rfl, ha, hb, hx, hno⟩
      · by_cases h : ∃ x a, s = x ++ [a] ∧ a ∈ delim ∧ c ∈ delim ∧ EndsHeader x
        · obtain ⟨x, a, rfl, ha, hc, hx⟩ := h
          exact .inr ⟨x, a, c, [], by simp, ha, hc, hx, hno⟩
        · refine .inl (hno.concat fun x a hs ha hc hx => h ⟨x, a, hs, ha, hc, hx⟩)
      · exact .inr ⟨x, a, b, y ++ [c], by simp, ha, hb, hx, hno⟩

namespace HttpMessage

/-! ## The lines of the buffer -/

section Lines
variable {h m : HttpMessage} {sc : Scan} {x y z : List UInt8} {a b c : UInt8}

/-- The state of the scan behind `n` delimiters. -/
def stateAfter (n : ℕ) : ScanState :=
  if n = 0 then .firstLineFirstDelim
  else if n = 1 then .firstLineSecondDelim
  else if n % 2 = 0 then .headerFirstDelim
  else .headerSecondDelim

/-- How the scan of `x ++ z` stands behind `x`. What it has changed lies in `x`. -/
structure Stands (h : HttpMessage) (state : ScanState) (x z : List UInt8) (m : HttpMessage)
    (sc : Scan) : Prop where
  run : scanSpan (h, .start) 0 x.length = (m, sc)
  buffer : ∃ x', x'.length = x.length ∧ m.buffer = x' ++ z
  stale : m.stale = []
  state_eq : sc.state = state
  payload : sc.payload = none

theorem Stands.scan {state : ScanState} (H : Stands h state x (c :: z) m sc) (hc : c ∈ delim) :
    scanSpan (h, .start) 0 (x ++ [c]).length = m.scanDelim sc x.length := by
  obtain ⟨x', hlen, hb⟩ := H.buffer
  rw [List.length_append, List.length_singleton, scanSpan_add, H.run, Nat.zero_add, scanSpan_one,
    ← hlen]
  exact scanByte_delim hc hb H.payload

/-- Bytes of a line change nothing. -/
theorem Stands.plain {state : ScanState} (H : Stands h state x (y ++ z) m sc) (hy : PlainLine y) :
    Stands h state (x ++ y) z m sc := by
  obtain ⟨x', hlen, hb⟩ := H.buffer
  refine ⟨?_, ⟨x' ++ y, by simp [hlen], by simpa using hb⟩, H.stale, H.state_eq, H.payload⟩
  rw [List.length_append, scanSpan_add, H.run, Nat.zero_add, ← hlen]
  exact scanSpan_plain hy (by simpa using hb)

/-- The state behind a delimiter, which the byte after it has a part in. -/
def nextState (state : ScanState) (next : UInt8) : ScanState :=
  match state with
  | .firstLineFirstDelim => .firstLineSecondDelim
  | .firstLineSecondDelim => .headerFirstDelim
  | .headerFirstDelim => .headerSecondDelim
  | .headerSecondDelim => if next ∈ delim then .headerThirdDelim else .headerFirstDelim
  | .headerThirdDelim => .headerDone
  | .headerDone => .headerDone

theorem scanDelim_cases (m : HttpMessage) (sc : Scan) (p : ℕ) :
    ((m.scanDelim sc p).1 = m ∨ (m.scanDelim sc p).1 = m.downgrade (p + 1)) ∧
      (m.scanDelim sc p).2.state = nextState sc.state (m.byteAt (p + 1)) ∧
      (sc.state ≠ .headerDone → (m.scanDelim sc p).2.payload = sc.payload) := by
  cases hs : sc.state with
  | headerSecondDelim =>
      simp only [scanDelim, hs, nextState]
      refine ⟨.inl trivial, trivial, fun _ => ?_⟩
      split <;> rfl
  | firstLineFirstDelim => simp [scanDelim, hs, nextState]
  | firstLineSecondDelim => simp [scanDelim, hs, nextState]
  | headerFirstDelim => simp [scanDelim, hs, nextState]
  | headerThirdDelim => simp [scanDelim, hs, nextState]
  | headerDone => simp [scanDelim, hs, nextState]

theorem downgrade_append {u : List UInt8} (hb : m.buffer = u ++ z) (old : ℕ) (hold : old = u.length) :
    (∃ u', u'.length = u.length ∧ (m.downgrade old).buffer = u' ++ z) ∧
      (m.downgrade old).stale = m.stale := by
  unfold downgrade
  split
  · refine ⟨⟨(u.set (old - 5) 49).set (old - 3) 48, by simp, ?_⟩, rfl⟩
    rw [hb, List.set_append_left _ _ (by omega), List.set_append_left _ _ (by simp; omega)]
  · exact ⟨⟨u, rfl, hb⟩, rfl⟩

/-- A delimiter before the last one. -/
theorem Stands.delimiter {state : ScanState} (H : Stands h state x (c :: z) m sc) (hc : c ∈ delim)
    (hdone : state ≠ .headerDone) :
    ∃ m' sc', Stands h (nextState state (m.byteAt (x.length + 1))) (x ++ [c]) z m' sc' := by
  have hscan := H.scan hc
  obtain ⟨hfst, hstate, hpay⟩ := scanDelim_cases m sc x.length
  generalize m.scanDelim sc x.length = r at hscan hfst hstate hpay
  obtain ⟨m', sc'⟩ := r
  obtain ⟨x', hlen, hb⟩ := H.buffer
  have hbuf : m.buffer = (x' ++ [c]) ++ z := by simpa using hb
  have hlen' : (x' ++ [c]).length = (x ++ [c]).length := by simp [hlen]
  obtain ⟨⟨u, hu, hdown⟩, hstale⟩ := downgrade_append hbuf (x.length + 1) (by simp [hlen])
  refine ⟨m', sc', hscan, ?_, ?_, by rwa [← H.state_eq], ?_⟩
  · rcases hfst with rfl | rfl
    · exact ⟨x' ++ [c], hlen', hbuf⟩
    · exact ⟨u, hu.trans hlen', hdown⟩
  · rcases hfst with rfl | rfl
    · exact H.stale
    · exact hstale.trans H.stale
  · rw [hpay (by rwa [H.state_eq]), H.payload]

/-- The byte that the scan looks at behind a delimiter. -/
theorem Stands.byteAt_next {state : ScanState} (H : Stands h state x (c :: z) m sc) :
    m.byteAt (x.length + 1) = z.headD 0 := by
  obtain ⟨x', hlen, hb⟩ := H.buffer
  cases z with
  | nil => simp [byteAt, mem, hb, H.stale, List.getD_eq_getElem?_getD, hlen]
  | cons d z =>
      have := byteAt_of_append (h := m) (x := x' ++ [c]) (c := d) (z := z) (by simpa using hb)
      simpa [hlen] using this

theorem stateAfter_ne_headerDone (n : ℕ) : stateAfter n ≠ .headerDone := by
  unfold stateAfter
  split_ifs <;> simp

theorem stateAfter_eq_headerSecondDelim (hx : EndsHeader x) :
    stateAfter (lineEnds x) = .headerSecondDelim := by
  obtain ⟨hthree, hodd⟩ := hx
  rw [stateAfter, if_neg (by omega), if_neg (by omega), if_neg (by omega)]

/-- Counting one delimiter more, unless it ends a header line in front of another one. -/
theorem nextState_stateAfter {next : UInt8} (hnext : EndsHeader x → next ∉ delim) :
    nextState (stateAfter (lineEnds x)) next = stateAfter (lineEnds x + 1) := by
  by_cases hx : EndsHeader x
  · rw [stateAfter_eq_headerSecondDelim hx, nextState, if_neg (hnext hx)]
    obtain ⟨hthree, hodd⟩ := hx
    rw [stateAfter, if_neg (by omega), if_neg (by omega), if_pos (by omega)]
  · rw [EndsHeader, not_and_or] at hx
    rcases Nat.lt_or_ge (lineEnds x) 2 with hfew | hmany
    · obtain hn | hn : lineEnds x = 0 ∨ lineEnds x = 1 := by omega
      · rw [hn]
        rfl
      · rw [hn]
        rfl
    · rw [stateAfter, if_neg (by omega), if_neg (by omega), if_pos (by omega), nextState,
        stateAfter, if_neg (by omega), if_neg (by omega), if_neg (by omega)]

/-- **Until a blank line the state of the scan is the number of delimiters.** -/
theorem stands_of_noBlankLine (hb : h.buffer = x ++ z) (hstale : h.stale = [])
    (hno : NoBlankLine (x ++ z.take 1)) :
    ∃ m sc, Stands h (stateAfter (lineEnds x)) x z m sc := by
  induction x using List.reverseRecOn generalizing z with
  | nil => exact ⟨h, .start, rfl, ⟨[], rfl, hb⟩, hstale, rfl, rfl⟩
  | append_singleton x c ih =>
      obtain ⟨m, sc, H⟩ := ih (z := c :: z) (by simpa using hb) (by simpa using hno.of_append)
      rw [lineEnds_append, lineEnds_singleton]
      by_cases hc : c ∈ delim
      · have hnext : EndsHeader x → m.byteAt (x.length + 1) ∉ delim := by
          intro hx
          rw [H.byteAt_next]
          cases z with
          | nil => decide
          | cons d z => exact fun hd => hno x c d [] (by simp) hc hd hx
        rw [if_pos hc, ← nextState_stateAfter hnext]
        exact H.delimiter hc (stateAfter_ne_headerDone _)
      · rw [if_neg hc]
        exact ⟨m, sc, H.plain (y := [c]) (by simpa [PlainLine] using hc)⟩

/-- The two delimiters of a header line and the one directly behind them. -/
theorem stands_of_blankLine (hbuf : h.buffer = x ++ a :: b :: z) (hstale : h.stale = [])
    (ha : a ∈ delim) (hb : b ∈ delim) (hx : EndsHeader x) (hno : NoBlankLine (x ++ [a])) :
    ∃ m sc, Stands h .headerDone (x ++ [a, b]) z m sc := by
  obtain ⟨m, sc, H⟩ := stands_of_noBlankLine hbuf hstale hno
  have hsecond := H.delimiter ha (stateAfter_ne_headerDone _)
  rw [stateAfter_eq_headerSecondDelim hx, H.byteAt_next, List.headD_cons, nextState,
    if_pos hb] at hsecond
  obtain ⟨m', sc', hthird⟩ := hsecond
  obtain ⟨m'', sc'', hdone⟩ := hthird.delimiter hb (by simp)
  exact ⟨m'', sc'', by simpa [nextState] using hdone⟩

/-- Without a blank line there is no payload. -/
theorem payload_of_noBlankLine (hstale : h.stale = []) (hno : NoBlankLine h.buffer) :
    h.processHeadersAndGetPayload.2.payload = none := by
  obtain ⟨m, sc, H⟩ := stands_of_noBlankLine (x := h.buffer) (z := []) (List.append_nil _).symm
    hstale (by simpa using hno)
  rw [processHeadersAndGetPayload_eq, H.run]
  exact H.payload

/-- **The payload starts behind the delimiter after the first blank line**, if there is
one. -/
theorem payload_of_blankLine (hbuf : h.buffer = x ++ a :: b :: z) (hstale : h.stale = [])
    (ha : a ∈ delim) (hb : b ∈ delim) (hx : EndsHeader x) (hno : NoBlankLine (x ++ [a])) :
    (PlainLine z → h.processHeadersAndGetPayload.2.payload = none) ∧
    ∀ l c rest, z = l ++ c :: rest → PlainLine l → c ∈ delim →
      h.processHeadersAndGetPayload.2.payload = some (x.length + l.length + 3) := by
  obtain ⟨m, sc, H⟩ := stands_of_blankLine hbuf hstale ha hb hx hno
  constructor
  · intro hz
    have hall := Stands.plain (y := z) (z := []) (by simpa using H) hz
    rw [processHeadersAndGetPayload_eq, hbuf,
      show (x ++ a :: b :: z).length = (x ++ [a, b] ++ z).length by simp, hall.run]
    exact hall.payload
  · rintro l c rest rfl hl hc
    have hline := H.plain hl
    have hlast := hline.scan hc
    simp only [scanDelim, hline.state_eq] at hlast
    have hlen : h.buffer.length = (x ++ [a, b] ++ l ++ [c]).length + rest.length := by
      rw [hbuf]
      simp
      omega
    rw [processHeadersAndGetPayload_eq, hlen, scanSpan_add, hlast, scanSpan_done rfl]
    simp
    omega

end Lines

/-! ## The detector that counts -/

section Counting
variable {rena : Rena} {type : ClientType} {s : List UInt8} {c : UInt8}

/-- Growing the buffer touches no counter and no byte. -/
theorem reallocationProtocol_frame (h : HttpMessage) (olen : ℕ) :
    (h.reallocationProtocol olen).foundDelimiters = h.foundDelimiters ∧
      (h.reallocationProtocol olen).lastFoundDelimiters = h.lastFoundDelimiters ∧
      (h.reallocationProtocol olen).stale = h.stale := by
  unfold reallocationProtocol
  dsimp only
  split <;> exact ⟨rfl, rfl, rfl⟩

@[simp] theorem foundDelimiters_forceOntoBuffer (h : HttpMessage) (o : List UInt8) :
    (h.forceOntoBuffer o).foundDelimiters = h.foundDelimiters :=
  (reallocationProtocol_frame h o.length).1

@[simp] theorem lastFoundDelimiters_forceOntoBuffer (h : HttpMessage) (o : List UInt8) :
    (h.forceOntoBuffer o).lastFoundDelimiters = h.lastFoundDelimiters :=
  (reallocationProtocol_frame h o.length).2.1

@[simp] theorem stale_forceOntoBuffer (h : HttpMessage) (o : List UInt8) :
    (h.forceOntoBuffer o).stale = h.stale.drop o.length :=
  congrArg (List.drop o.length) (reallocationProtocol_frame h o.length).2.2

/-- A byte goes to the buffer as it is, and `check_delimiter_header` is told. -/
def appendChecked (h : HttpMessage) (c : UInt8) : HttpMessage × Bool :=
  (h.forceOntoBuffer [c]).checkDelimiterHeader c

/-- The struct behind a text that nothing in was rewritten. -/
def received (rena : Rena) (type : ClientType) (s : List UInt8) : HttpMessage :=
  s.foldl (fun h c => (h.appendChecked c).1) (create rena type)

theorem received_concat (s : List UInt8) (c : UInt8) :
    received rena type (s ++ [c]) = ((received rena type s).appendChecked c).1 := by
  simp [received]

/-- The delimiters at the end of a text, the last one first. -/
def trailingRun (s : List UInt8) : List UInt8 := s.reverse.takeWhile (· ∈ delim)

theorem trailingRun_concat (s : List UInt8) (c : UInt8) :
    trailingRun (s ++ [c]) = if c ∈ delim then c :: trailingRun s else [] := by
  simp only [trailingRun, List.reverse_append, List.reverse_singleton, List.singleton_append,
    List.takeWhile_cons, decide_eq_true_eq]

/-- A text is its trailing run behind something that ends in no delimiter. -/
theorem exists_trailingRun (s : List UInt8) : ∃ head, s = head ++ (trailingRun s).reverse ∧
    (∀ b ∈ trailingRun s, b ∈ delim) ∧ ∀ x d, head = x ++ [d] → d ∉ delim := by
  refine ⟨(s.reverse.dropWhile (· ∈ delim)).reverse, ?_, ?_, ?_⟩
  · rw [trailingRun, ← List.reverse_append, List.takeWhile_append_dropWhile, List.reverse_reverse]
  · exact fun b hb => by simpa using List.mem_takeWhile_imp hb
  · intro x d hx hd
    have hhead : s.reverse.dropWhile (· ∈ delim) = d :: x.reverse := by
      rw [← List.reverse_reverse (s.reverse.dropWhile _), hx]
      simp
    have := List.dropWhile_get_zero_not (fun b => decide (b ∈ delim)) s.reverse
      (by rw [hhead]; exact Nat.succ_pos _)
    simp [hhead, hd] at this

/-- What `check_delimiter_header` remembers of a text. -/
theorem received_eq (rena : Rena) (type : ClientType) (s : List UInt8) :
    (received rena type s).buffer = s ∧ (received rena type s).stale = [] ∧
      (received rena type s).payload = none ∧
      (received rena type s).foundDelimiters = UInt8.ofNat (trailingRun s).length ∧
      (received rena type s).lastFoundDelimiters = (trailingRun s).headD 0 := by
  induction s using List.reverseRecOn with
  | nil => exact ⟨rfl, rfl, rfl, rfl, rfl⟩
  | append_singleton s c ih =>
      obtain ⟨hbuffer, hstale, hpay, hfound, hlast⟩ := ih
      rw [received_concat, trailingRun_concat, appendChecked, checkDelimiterHeader]
      have hforced : ((received rena type s).forceOntoBuffer [c]).buffer = s ++ [c] := by
        rw [buffer_forceOntoBuffer, hbuffer]
      have hrest : ((received rena type s).forceOntoBuffer [c]).stale = [] := by
        rw [stale_forceOntoBuffer, hstale, List.drop_nil]
      by_cases hc : c ∈ delim
      · simp only [payload_forceOntoBuffer, hpay, Option.isSome_none, Bool.false_eq_true, if_false,
          hc, if_true, hforced, hrest, foundDelimiters_forceOntoBuffer, hfound, List.length_cons,
          UInt8.ofNat_add, List.headD_cons]
        exact ⟨trivial, trivial, trivial, rfl, trivial⟩
      · simp only [payload_forceOntoBuffer, hpay, Option.isSome_none, Bool.false_eq_true, if_false,
          hc, hforced, hrest, List.length_nil, List.headD_nil]
        exact ⟨trivial, trivial, trivial, rfl, trivial⟩

/-- `check_delimiter_header` returns 1 on `c` behind `s`. -/
def Reports (rena : Rena) (type : ClientType) (s : List UInt8) (c : UInt8) : Prop :=
  ((received rena type s).appendChecked c).2 = true

instance (rena : Rena) (type : ClientType) (s : List UInt8) (c : UInt8) :
    Decidable (Reports rena type s c) := inferInstanceAs (Decidable (_ = true))

theorem reports_iff : Reports rena type s c ↔ c ∈ delim ∧
    (UInt8.ofNat ((trailingRun s).length + 1) = 4 ∨
      (c = (trailingRun s).headD 0 ∧ UInt8.ofNat ((trailingRun s).length + 1) = 2)) := by
  obtain ⟨hbuffer, hstale, hpay, hfound, hlast⟩ := received_eq rena type s
  rw [Reports, appendChecked, checkDelimiterHeader]
  by_cases hc : c ∈ delim
  · simp only [payload_forceOntoBuffer, hpay, Option.isSome_none, Bool.false_eq_true, if_false, hc,
      if_true, true_and, foundDelimiters_forceOntoBuffer, lastFoundDelimiters_forceOntoBuffer,
      hfound, hlast, UInt8.ofNat_add, decide_eq_true_eq]
    rfl
  · simp only [payload_forceOntoBuffer, hpay, Option.isSome_none, Bool.false_eq_true, if_false, hc,
      false_and, decide_eq_true_eq]
    simp

/-- While nothing is reported the run stays short. -/
theorem length_trailingRun_lt (hquiet : ∀ x d y, s = x ++ d :: y → ¬ Reports rena type x d) :
    (trailingRun s).length < 4 := by
  induction s using List.reverseRecOn with
  | nil => decide
  | append_singleton s c ih =>
      have hs := ih fun x d y h => hquiet x d (y ++ [c]) (by simp [h])
      have hc := hquiet s c [] rfl
      rw [reports_iff] at hc
      rw [trailingRun_concat]
      split
      · rename_i hdelim
        rw [List.length_cons]
        by_contra hfour
        have hthree : (trailingRun s).length = 3 := by omega
        exact hc ⟨hdelim, .inl (by rw [hthree]; rfl)⟩
      · simp

/-- The end that `check_delimiter_header` reports first is four delimiters in a row, or one
delimiter twice. -/
theorem trailingRun_of_first (hquiet : ∀ x d y, s = x ++ d :: y → ¬ Reports rena type x d)
    (hreports : Reports rena type s c) :
    (trailingRun (s ++ [c])).length = 4 ∨ trailingRun (s ++ [c]) = [c, c] := by
  have hshort := length_trailingRun_lt hquiet
  obtain ⟨hc, hreports⟩ := reports_iff.mp hreports
  rw [trailingRun_concat, if_pos hc]
  generalize trailingRun s = run at hshort hreports
  match run with
  | [] => simp at hreports
  | [d] =>
      right
      rcases hreports with h | ⟨rfl, -⟩
      · simp at h
      · rfl
  | [_, _] => simp at hreports
  | [_, _, _] => exact .inl rfl

end Counting

/-! ## Where they agree -/

/-- A text that ends in four delimiters, behind at least one line end of two and only lines
that are not followed by a blank one. -/
def EndsPaired (s : List UInt8) : Prop :=
  ∃ head run, s = head ++ run ∧ run.length = 4 ∧ (∀ b ∈ run, b ∈ delim) ∧
    2 ≤ lineEnds head ∧ lineEnds head % 2 = 0 ∧ NoBlankLine head

section Agreement
variable {rena : Rena} {type : ClientType} {s : List UInt8} {c : UInt8}

/-- Behind four delimiters that end a text of paired lines the payload starts. -/
theorem payload_of_endsPaired {h : HttpMessage} (hstale : h.stale = [])
    (hshort : (trailingRun h.buffer).length ≤ 4) (hpaired : EndsPaired h.buffer) :
    h.processHeadersAndGetPayload.2.payload = some h.buffer.length := by
  obtain ⟨head, run, hs, hfour, hrun, htwo, heven, hno⟩ := hpaired
  match run with
  | [a, b, d, e] =>
      simp only [List.forall_mem_cons] at hrun
      obtain ⟨ha, hb, hd, he, -⟩ := hrun
      have hhead : trailingRun head = [] := by
        have hrun : trailingRun h.buffer = e :: d :: b :: a :: trailingRun head := by
          rw [hs, show head ++ [a, b, d, e] = head ++ [a] ++ [b] ++ [d] ++ [e] by simp]
          simp only [trailingRun_concat, ha, hb, hd, he, if_true]
        rw [hrun] at hshort
        simp only [List.length_cons] at hshort
        exact List.length_eq_zero_iff.mp (by omega)
      have hends : EndsHeader (head ++ [a]) := by
        rw [EndsHeader, lineEnds_append, lineEnds_singleton, if_pos ha]
        omega
      have hbefore : NoBlankLine (head ++ [a]) := by
        refine hno.concat fun x q hx hq _ _ => ?_
        rw [hx, trailingRun_concat, if_pos hq] at hhead
        cases hhead
      have hblank : NoBlankLine (head ++ [a] ++ [b]) := by
        refine hbefore.concat fun x q hx _ _ hends => ?_
        obtain ⟨rfl, -⟩ := List.append_inj' hx rfl
        exact absurd hends.2 (by omega)
      have hpay := (payload_of_blankLine (z := [e]) (by simp [hs]) hstale hb hd hends hblank).2
        [] e [] rfl (fun _ hb => absurd hb List.not_mem_nil) he
      rw [hpay, hs]
      simp

/-- The payload starts at the end of a text only behind paired lines, if the text ends in
four delimiters or twice in one. -/
theorem endsPaired_of_payload {h : HttpMessage} (hstale : h.stale = [])
    (hshape : (trailingRun h.buffer).length = 4 ∨ trailingRun h.buffer = [c, c])
    (hpay : h.processHeadersAndGetPayload.2.payload = some h.buffer.length) :
    EndsPaired h.buffer := by
  rcases noBlankLine_or h.buffer with hno | ⟨x, a, b, y, hs, ha, hb, hx, hno⟩
  · rw [payload_of_noBlankLine hstale hno] at hpay
    cases hpay
  · obtain ⟨hnone, hsome⟩ := payload_of_blankLine hs hstale ha hb hx hno
    cases hfind : y.find? (· ∈ delim) with
    | none =>
        have hy : PlainLine y := by simpa [PlainLine] using hfind
        rw [hnone hy] at hpay
        cases hpay
    | some d =>
      obtain ⟨hd, l, rest, rfl, hl⟩ := List.find?_eq_some_iff_append.mp hfind
      replace hd : d ∈ delim := by simpa using hd
      replace hl : PlainLine l := by simpa [PlainLine] using hl
      rw [hsome l d rest rfl hl hd, hs] at hpay
      have hrest : rest = [] := by
        have := Option.some.inj hpay
        simp only [List.length_append, List.length_cons] at this
        exact List.eq_nil_of_length_eq_zero (by omega)
      subst hrest
      -- a byte between the blank line and the last delimiter would end the run
      have hline : l = [] := by
        rcases List.eq_nil_or_concat l with rfl | ⟨l, q, rfl⟩
        · rfl
        · have hq : q ∉ delim := hl q (by simp)
          have hrun : trailingRun h.buffer = [d] := by
            rw [hs, show x ++ a :: b :: (l.concat q ++ [d]) = x ++ a :: b :: l ++ [q] ++ [d] by simp,
              trailingRun_concat, trailingRun_concat, if_pos hd, if_neg hq]
          simp [hrun] at hshape
      subst hline
      have hrun : trailingRun h.buffer = d :: b :: a :: trailingRun x := by
        rw [hs, show x ++ a :: b :: ([] ++ [d]) = x ++ [a] ++ [b] ++ [d] by simp]
        simp only [trailingRun_concat, ha, hb, hd, if_true]
      obtain ⟨q, hq⟩ : ∃ q, trailingRun x = [q] := by
        refine List.length_eq_one_iff.mp ?_
        rw [hrun] at hshape
        simpa using hshape
      obtain ⟨head, hx', hdelims, -⟩ := exists_trailingRun x
      rw [hq] at hx' hdelims
      simp only [List.reverse_singleton] at hx'
      have hqd : q ∈ delim := hdelims q (by simp)
      rw [hx', EndsHeader, lineEnds_append, lineEnds_singleton, if_pos hqd] at hx
      refine ⟨head, [q, a, b, d], by simp [hs, hx'], rfl, by simp [hqd, ha, hb, hd], by omega,
        by omega, ?_⟩
      rw [hx', List.append_assoc] at hno
      exact hno.of_append

/-- **When the two detectors agree.** At the first byte on which `check_delimiter_header`
returns 1, `process_headers_and_get_payload` returns the position behind it exactly when
the text ends in four delimiters behind lines ended by two each. Behind one delimiter
twice, and behind a first line alone, it never does. -/
theorem detectors_agree_iff (rena : Rena) (type : ClientType) (s : List UInt8) (c : UInt8)
    (hreports : Reports rena type s c)
    (hquiet : ∀ x d y, s = x ++ d :: y → ¬ Reports rena type x d) :
    ((received rena type s).appendChecked c).1.processHeadersAndGetPayload.2.payload =
      some (s.length + 1) ↔ EndsPaired (s ++ [c]) := by
  obtain ⟨hbuffer, hstale, -⟩ := received_eq rena type (s ++ [c])
  have hshape := trailingRun_of_first hquiet hreports
  have hlen : s.length + 1 = (received rena type (s ++ [c])).buffer.length := by simp [hbuffer]
  rw [← hbuffer] at hshape
  have hends : EndsPaired (s ++ [c]) ↔ EndsPaired (received rena type (s ++ [c])).buffer := by
    rw [hbuffer]
  rw [← received_concat, hlen, hends]
  constructor
  · exact endsPaired_of_payload hstale hshape
  · refine payload_of_endsPaired hstale ?_
    rcases hshape with hfour | htwo
    · exact hfour.le
    · simp [htwo]

theorem quiet_of_getD (h : ∀ i < s.length, ¬ Reports rena type (s.take i) (s.getD i 0)) :
    ∀ x d y, s = x ++ d :: y → ¬ Reports rena type x d := by
  rintro x d y rfl
  simpa [List.getD_eq_getElem?_getD] using h x.length (by simp)

theorem detectors_agree_get :
    ((received ⟨[], .null, .null, .null⟩ .requester
        (chars "GET / HTTP/1.0\r\nHost: a\r\n\r")).appendChecked 10).1
          |>.processHeadersAndGetPayload.2.payload =
      some ((chars "GET / HTTP/1.0\r\nHost: a\r\n\r").length + 1) ↔
      EndsPaired (chars "GET / HTTP/1.0\r\nHost: a\r\n\r" ++ [10]) :=
  detectors_agree_iff _ _ _ _ (by decide +kernel) (quiet_of_getD (by decide +kernel))

/-- A request whose lines end in single LFs is reported complete, and no payload is found. -/
theorem not_detectors_agree :
    ¬ ∀ (rena : Rena) (type : ClientType) (s : List UInt8) (c : UInt8),
      Reports rena type s c → (∀ x d y, s = x ++ d :: y → ¬ Reports rena type x d) →
      ((received rena type s).appendChecked c).1.processHeadersAndGetPayload.2.payload =
        some (s.length + 1) := by
  intro h
  have := h ⟨[], .null, .null, .null⟩ .requester (chars "GET / HTTP/1.0\nHost: a\n") 10
    (by decide +kernel) (quiet_of_getD (by decide +kernel))
  exact absurd this (by decide +kernel)

end Agreement

end HttpMessage

end RenaProxy
