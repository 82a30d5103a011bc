import RenaProxy.Http.Grammar
import RenaProxy.Http.Edits
import RenaProxy.Http.DomainPass

/-!
# Removing headers

`find_and_remove_header` closes the gap that a header leaves in the buffer and moves
what points behind it. `Parsed` says that the table of headers and the payload describe
the buffer; the removal takes one header out of such a message and keeps all others
(`findAndRemoveHeader_parsed`). `remove_headers` calls it once for a name, so that a
header which is there twice stays (`removeHeaders_forbidden_iff`).
-/
namespace RenaProxy
open Failure

/-- A header has a name in any letter case if its line starts with it and a colon. -/
def HeaderField.HasName (f : HeaderField) (name : List UInt8) : Prop :=
  (f.line.take name.length).map tolower = name.map tolower ∧ f.line[name.length]? = some colon

instance (f : HeaderField) (name : List UInt8) : Decidable (f.HasName name) :=
  inferInstanceAs (Decidable (_ ∧ _))

theorem tolower_eq_of_delim {c d : UInt8} (hd : d ∈ delim) (h : tolower c = tolower d) : c = d := by
  unfold tolower at h
  rcases List.mem_cons.mp hd with rfl | hd
  · split at h <;> simp at h <;> grind
  · obtain rfl := List.mem_singleton.mp hd
    split at h <;> simp at h <;> grind

/-- Names without a colon that one header has are the same. -/
theorem HeaderField.HasName.eq {f : HeaderField} {n m : List UInt8} (hn : f.HasName n)
    (hm : f.HasName m) (hncolon : colon ∉ n) (hmcolon : colon ∉ m) :
    n.map tolower = m.map tolower := by
  have key : ∀ {n m : List UInt8}, f.HasName n → f.HasName m → colon ∉ m → ¬ n.length < m.length := by
    intro n m hn hm hcolon hlt
    have hat : (m.map tolower)[n.length]? = some (tolower colon) := by
      rw [← hm.1, List.getElem?_map, List.getElem?_take, if_pos hlt, hn.2]
      rfl
    rw [List.getElem?_map, List.getElem?_eq_getElem hlt, Option.map_some, Option.some.injEq] at hat
    have hback : ∀ c : UInt8, tolower c = tolower colon → c = colon := by
      intro c hc
      unfold tolower colon at hc
      unfold colon
      split at hc <;> simp at hc <;> grind
    exact hcolon (by rw [← hback _ hat]; exact List.getElem_mem hlt)
  have hlen : n.length = m.length := by
    have := key hn hm hmcolon
    have := key hm hn hncolon
    omega
  rw [← hn.1, ← hm.1, hlen]

namespace HeaderBlock

theorem entriesFrom_append (start : ℕ) (fs gs : List HeaderField) :
    entriesFrom start (fs ++ gs) =
      entriesFrom start fs ++ entriesFrom (start + (fieldsText fs).length) gs := by
  induction fs generalizing start with
  | nil => rfl
  | cons f fs ih =>
      have hlen : start + (fieldsText (f :: fs)).length =
          start + f.text.length + 2 + (fieldsText fs).length := by
        simp [fieldsText, delim]
        omega
      rw [List.cons_append, entriesFrom, ih, entriesFrom, List.cons_append, hlen]

@[simp] theorem length_entriesFrom (start : ℕ) (fs : List HeaderField) :
    (entriesFrom start fs).length = fs.length := by
  induction fs generalizing start with
  | nil => rfl
  | cons f fs ih => rw [entriesFrom, List.length_cons, ih, List.length_cons]

/-- Headers that move back together. -/
theorem map_entriesFrom_sub (start d : ℕ) (fs : List HeaderField) :
    (entriesFrom (start + d) fs).map (fun e => (e.1 - d, e.2)) = entriesFrom start fs := by
  induction fs generalizing start with
  | nil => rfl
  | cons f fs ih =>
      have hmove : start + d + f.text.length + 2 = start + f.text.length + 2 + d := by omega
      rw [entriesFrom, entriesFrom, List.map_cons, hmove, ih, Nat.add_sub_cancel]

end HeaderBlock

namespace HttpMessage
open HeaderBlock
variable {h : HttpMessage} {firstLine body name x z : List UInt8} {fields : List HeaderField}

/-- The table of headers and the payload of a message describe its buffer: a first line,
header fields with a CR LF behind each, a blank line and a body. -/
structure Parsed (h : HttpMessage) (firstLine : List UInt8) (fields : List HeaderField)
    (body : List UInt8) : Prop where
  buffer : h.buffer = firstLine ++ delim ++ fieldsText fields ++ delim ++ body
  headers : h.headers = some (entriesFrom (firstLine.length + 2) fields)
  headersUsed : h.headersUsed = fields.length
  payload : h.payload = some (firstLine.length + 2 + (fieldsText fields).length + 2)

/-- The texts that the table of headers points at. -/
def headerTexts (h : HttpMessage) : List (List UInt8) :=
  ((h.headers.getD []).take h.headersUsed).map fun e => (h.buffer.drop e.1).take e.2

theorem texts_entriesFrom {buffer : List UInt8} (hb : buffer = x ++ fieldsText fields ++ z) :
    (entriesFrom x.length fields).map (fun e => (buffer.drop e.1).take e.2) =
      fields.map HeaderField.text := by
  induction fields generalizing x with
  | nil => rfl
  | cons f fs ih =>
      have hcons : buffer = x ++ f.text ++ delim ++ fieldsText fs ++ z := by
        rw [hb]
        simp [fieldsText]
      have hstart : x.length + f.text.length + 2 = (x ++ f.text ++ delim).length := by
        simp [delim, Nat.add_assoc]
      rw [entriesFrom, List.map_cons, List.map_cons, hstart, ih (by rw [hcons])]
      congr 1
      rw [hcons]
      simp

/-- The table points at the headers, in order, and the payload at the body. -/
theorem Parsed.texts (H : Parsed h firstLine fields body) :
    h.headerTexts = fields.map HeaderField.text ∧ ∀ p ∈ h.payload, h.buffer.drop p = body := by
  constructor
  · have hlen : firstLine.length + 2 = (firstLine ++ delim).length := by simp [delim]
    rw [headerTexts, H.headers, H.headersUsed, Option.getD_some, List.take_of_length_le (by simp),
      hlen]
    exact texts_entriesFrom (z := delim ++ body) (by rw [H.buffer]; simp)
  · rw [H.payload]
    rintro p ⟨⟩
    rw [H.buffer]
    refine List.drop_left' ?_
    simp [delim]
    omega

/-! ## Finding -/

/-- A comparison with the bytes of a line sees whether its header has the name. -/
theorem hasName_iff (f : HeaderField) (hname : PlainLine name) (hb : h.buffer = x ++ f.text ++ delim ++ z) :
    (h.byteAt (x.length + name.length) = colon ∧
      (h.bytesAt x.length name.length).map tolower = name.map tolower) ↔ f.HasName name := by
  obtain ⟨z', hline⟩ : ∃ z', h.buffer = x ++ f.line ++ 13 :: z' := by
    rw [hb, HeaderField.text, joinLines]
    cases f.continuations with
    | nil => exact ⟨10 :: z, by simp [delim]⟩
    | cons l ls => exact ⟨10 :: (l ++ ls.flatMap (delim ++ ·) ++ delim ++ z), by simp [delim]⟩
  have hbyte : ∀ i, i ≤ f.line.length → h.byteAt (x.length + i) = (f.line ++ [13]).getD i 0 := by
    intro i hi
    simp only [byteAt, mem, hline, List.getD_eq_getElem?_getD]
    rw [List.append_assoc, List.append_assoc, List.getElem?_append_right (by omega),
      Nat.add_sub_cancel_left]
    rcases Nat.lt_or_ge i f.line.length with hlt | hge
    · rw [List.getElem?_append_left hlt, List.getElem?_append_left hlt]
    · obtain rfl : i = f.line.length := by omega
      simp
  rcases Nat.lt_or_ge name.length f.line.length with hlt | hge
  · have hat : h.byteAt (x.length + name.length) = f.line[name.length] := by
      rw [hbyte _ hlt.le, List.getD_eq_getElem?_getD, List.getElem?_append_left hlt]
      simp [hlt]
    have hbytes : h.bytesAt x.length name.length = f.line.take name.length := by
      refine List.ext_getElem (by simp; omega) fun i hi hi' => ?_
      rw [length_bytesAt] at hi
      have := hbyte i (by omega)
      rw [List.getD_eq_getElem?_getD, List.getElem?_append_left (by omega)] at this
      simpa [bytesAt, show i < f.line.length by omega] using this
    rw [hat, hbytes, HeaderField.HasName, List.getElem?_eq_getElem hlt, Option.some.injEq, and_comm]
  · refine iff_of_false ?_ fun hn => ?_
    · rintro ⟨hcolon, hbytes⟩
      rcases Nat.lt_or_ge f.line.length name.length with hlong | hsame
      · -- the comparison comes to the CR of the line end
        have hcr : name[f.line.length] = 13 := by
          have hat := congrArg (fun l => l[f.line.length]?) hbytes
          simp only [List.getElem?_map, List.getElem?_eq_getElem hlong, Option.map_some] at hat
          have hb13 : (h.bytesAt x.length name.length)[f.line.length]? = some 13 := by
            rw [List.getElem?_eq_getElem (by simpa using hlong)]
            have := hbyte f.line.length le_rfl
            simpa [bytesAt, List.getD_eq_getElem?_getD] using this
          rw [hb13, Option.map_some, Option.some.injEq] at hat
          exact tolower_eq_of_delim (by decide) hat.symm
        exact hname _ (List.getElem_mem hlong) (by rw [hcr]; decide)
      · have : h.byteAt (x.length + name.length) = 13 := by
          rw [hbyte _ hsame, show name.length = f.line.length by omega]
          simp [List.getD_eq_getElem?_getD]
        rw [this] at hcolon
        exact absurd hcolon (by decide)
    · have := hn.2
      rw [List.getElem?_eq_none hge] at this
      cases this

theorem findIdx_entriesFrom (hname : PlainLine name) (hb : h.buffer = x ++ fieldsText fields ++ z) :
    ((entriesFrom x.length fields).findIdx? fun e =>
      h.byteAt (e.1 + name.length) = colon ∧
        (h.bytesAt e.1 name.length).map tolower = name.map tolower) =
      fields.findIdx? fun f => f.HasName name := by
  induction fields generalizing x with
  | nil => rfl
  | cons f fs ih =>
      have hcons : h.buffer = x ++ f.text ++ delim ++ (fieldsText fs ++ z) := by
        rw [hb]
        simp [fieldsText]
      have hstart : x.length + f.text.length + 2 = (x ++ f.text ++ delim).length := by
        simp [delim, Nat.add_assoc]
      rw [entriesFrom, List.findIdx?_cons, List.findIdx?_cons, hstart,
        ih (x := x ++ f.text ++ delim) (by rw [hcons]; simp only [List.append_assoc])]
      simp only [hasName_iff f hname hcons]

/-- `find_header` finds the first header with the name. -/
theorem Parsed.findHeader (H : Parsed h firstLine fields body) (hname : PlainLine name) :
    h.findHeader name = fields.findIdx? fun f => f.HasName name := by
  have hlen : firstLine.length + 2 = (firstLine ++ delim).length := by simp [delim]
  rw [HttpMessage.findHeader, H.headers, H.headersUsed, Option.getD_some,
    List.take_of_length_le (by simp), hlen]
  exact findIdx_entriesFrom (z := delim ++ body) hname (by rw [H.buffer]; simp)

theorem Parsed.findHeader_append {l r : List HeaderField} {f : HeaderField}
    (H : Parsed h firstLine (l ++ f :: r) body) (hname : PlainLine name)
    (hl : ∀ g ∈ l, ¬ g.HasName name) (hf : f.HasName name) :
    h.findHeader name = some l.length := by
  rw [H.findHeader hname, List.findIdx?_append,
    List.findIdx?_eq_none_iff.mpr fun g hg => by simpa using hl g hg, List.findIdx?_cons,
    if_pos (decide_eq_true hf)]
  simp

/-- The entry of a header behind some others. -/
theorem Parsed.header_append {l r : List HeaderField} {f : HeaderField}
    (H : Parsed h firstLine (l ++ f :: r) body) :
    h.header l.length = (firstLine.length + 2 + (fieldsText l).length, f.text.length) := by
  rw [header, H.headers, Option.getD_some, entriesFrom_append, entriesFrom,
    List.getD_eq_getElem?_getD, List.getElem?_append_right (by simp), length_entriesFrom]
  simp

/-! ## Removing -/

/-- The table with one header picked out. -/
theorem entriesFrom_pick (p : ℕ) (l r : List HeaderField) (f : HeaderField) :
    entriesFrom p (l ++ f :: r) = entriesFrom p l ++
      (p + (fieldsText l).length, f.text.length) ::
        entriesFrom (p + (fieldsText l).length + (f.text.length + 2)) r := by
  rw [entriesFrom_append, entriesFrom, Nat.add_assoc (p + (fieldsText l).length)]

/-- A header ends where the next one begins or, behind the last one, where the blank line
does. -/
theorem Parsed.nextHeader {l r : List HeaderField} {f : HeaderField}
    (H : Parsed h firstLine (l ++ f :: r) body) :
    h.nextHeader l.length
        (firstLine.length + 2 + (fieldsText l).length + (f.text.length + 2) +
          (fieldsText r).length + 2) =
      firstLine.length + 2 + (fieldsText l).length + (f.text.length + 2) := by
  unfold HttpMessage.nextHeader
  rw [H.headersUsed]
  cases r with
  | nil =>
      rw [if_pos (by simp)]
      simp [fieldsText]
  | cons g r =>
      rw [if_neg (by simp), header, H.headers, Option.getD_some, entriesFrom_pick,
        List.getD_eq_getElem?_getD, List.getElem?_append_right (by simp), length_entriesFrom,
        Nat.add_sub_cancel_left, List.getElem?_cons_succ, entriesFrom]
      rfl

/-- The header between two others goes, with its line end. -/
theorem Parsed.remove {l r : List HeaderField} {f : HeaderField}
    (H : Parsed h firstLine (l ++ f :: r) body) (hfound : h.findHeader name = some l.length) :
    ∃ h', h.findAndRemoveHeader name = .ok h' ∧ Parsed h' firstLine (l ++ r) body := by
  have hentries := entriesFrom_pick (firstLine.length + 2) l r f
  have hnext := H.nextHeader
  set start := firstLine.length + 2 + (fieldsText l).length with hstart
  set diff := f.text.length + 2 with hdiff
  have hfields : fieldsText (l ++ f :: r) = fieldsText l ++ (f.text ++ delim) ++ fieldsText r := by
    simp [fieldsText]
  have hlen : (f.text ++ delim).length = diff := by simp [delim, hdiff]
  have hhead : (firstLine ++ delim ++ fieldsText l).length = start := by
    rw [List.length_append, List.length_append]
    rfl
  have hbuffer : h.buffer = (firstLine ++ delim ++ fieldsText l) ++
      ((f.text ++ delim) ++ (fieldsText r ++ delim ++ body)) := by
    rw [H.buffer, hfields]
    simp only [List.append_assoc]
  have hentry : h.header l.length = (start, f.text.length) := H.header_append
  have hpayload : h.payload = some (start + diff + (fieldsText r).length + 2) := by
    rw [H.payload, hfields]
    simp only [List.length_append, hlen]
    congr 1
    omega
  have htotal : h.buffer.length = start + (diff + ((fieldsText r).length + 2 + body.length)) := by
    rw [hbuffer, List.length_append, hhead, List.length_append, hlen, List.length_append,
      List.length_append]
    rfl
  have hok : h.findAndRemoveHeader name = .ok { h.splice start (start + diff) [] with
      headers := h.headers.map fun hs =>
        hs.take l.length ++ (hs.drop (l.length + 1)).map fun e => (e.1 - diff, e.2)
      headersUsed := h.headersUsed - 1
      payload := some (start + diff + (fieldsText r).length + 2 - diff) } := by
    rw [findAndRemoveHeader, hfound, hpayload]
    dsimp only
    rw [hnext, hentry, Nat.add_sub_cancel_left, if_neg (by omega), if_neg (by omega)]
  refine ⟨_, hok, ?buffer, ?headers, ?headersUsed, ?payload⟩
  case buffer =>
    simp only [splice, List.append_nil]
    rw [hbuffer, List.take_left' hhead, ← List.append_assoc _ (f.text ++ delim),
      List.drop_left' (by rw [List.length_append, hhead, hlen])]
    simp [fieldsText]
  case headers =>
    have hdrop : (entriesFrom (firstLine.length + 2) l ++
        (start, f.text.length) :: entriesFrom (start + diff) r).drop (l.length + 1) =
        entriesFrom (start + diff) r := by
      rw [List.drop_append, length_entriesFrom, List.drop_of_length_le (by simp)]
      simp
    rw [H.headers, Option.map_some, hentries, List.take_left' (by simp), hdrop,
      map_entriesFrom_sub, entriesFrom_append]
  case headersUsed =>
    dsimp only
    rw [H.headersUsed]
    simp
  case payload =>
    dsimp only
    have hrest : (fieldsText (l ++ r)).length = (fieldsText l).length + (fieldsText r).length := by
      simp [fieldsText]
    rw [hrest]
    congr 1
    omega

/-- **Removing a header leaves the rest intact and the table consistent.** The first header
with the name goes, with its continuation lines and line end; the table points at the
other headers, in order, and the payload at the same body. Without such a header nothing
happens. -/
theorem findAndRemoveHeader_parsed (h : HttpMessage) (firstLine : List UInt8)
    (fields : List HeaderField) (body name : List UInt8) (H : Parsed h firstLine fields body)
    (hname : PlainLine name) :
    ∃ h', h.findAndRemoveHeader name = .ok h' ∧
      Parsed h' firstLine (fields.eraseP fun f => f.HasName name) body ∧
      h'.headerTexts = (fields.eraseP fun f => f.HasName name).map HeaderField.text ∧
      (∀ p ∈ h'.payload, h'.buffer.drop p = body) ∧
      ((∀ f ∈ fields, ¬ f.HasName name) → h' = h) := by
  suffices hremoved : ∃ h', h.findAndRemoveHeader name = .ok h' ∧
      Parsed h' firstLine (fields.eraseP fun f => f.HasName name) body ∧
      ((∀ f ∈ fields, ¬ f.HasName name) → h' = h) by
    obtain ⟨h', hok, H', hsame⟩ := hremoved
    exact ⟨h', hok, H', H'.texts.1, H'.texts.2, hsame⟩
  rcases List.exists_or_eq_self_of_eraseP (fun f : HeaderField => decide (f.HasName name)) fields with
    hnone | ⟨f, l, r, hl, hf, rfl, herase⟩
  · have habsent : ∀ f ∈ fields, ¬ f.HasName name := by
      simpa using List.eraseP_eq_self_iff.mp hnone
    have hidx : (fields.findIdx? fun f => f.HasName name) = none := by
      simpa [List.findIdx?_eq_none_iff] using habsent
    refine ⟨h, ?_, by rwa [hnone], fun _ => rfl⟩
    rw [findAndRemoveHeader, H.findHeader hname, hidx]
  · have hfound := H.findHeader_append hname (by simpa using hl) (by simpa using hf)
    obtain ⟨h', hok, H'⟩ := H.remove hfound
    exact ⟨h', hok, by rwa [herase], fun habsent => absurd (by simpa using hf)
      (habsent f (by simp))⟩

/-- A block with a header twice, the first time over two lines. -/
def twice : List HeaderField :=
  [⟨chars "Connection: close", [chars " x"], by decide +kernel, by decide +kernel,
    by decide +kernel, by decide +kernel, by decide +kernel⟩,
  ⟨chars "connection: close", [], by decide +kernel, by decide +kernel, by decide +kernel,
    by decide +kernel, by decide +kernel⟩]

/-- It as a message that was read. -/
def twiceParsed : HttpMessage :=
  { HttpMessage.create ⟨[], .null, .null, .null⟩ .requester with
    buffer := chars "GET / HTTP/1.0" ++ delim ++ fieldsText twice ++ delim ++ chars "body"
    headers := some [(16, 21), (39, 17)], headersUsed := 2, payload := some 60 }

theorem parsed_twice : Parsed twiceParsed (chars "GET / HTTP/1.0") twice (chars "body") :=
  ⟨rfl, by decide +kernel, rfl, by decide +kernel⟩

theorem findAndRemoveHeader_parsed_twice :
    let name := chars "CONNECTION"
    ∃ h', twiceParsed.findAndRemoveHeader name = .ok h' ∧
      Parsed h' (chars "GET / HTTP/1.0") (twice.eraseP fun f => f.HasName name) (chars "body") ∧
      h'.headerTexts = (twice.eraseP fun f => f.HasName name).map HeaderField.text ∧
      (∀ p ∈ h'.payload, h'.buffer.drop p = chars "body") ∧
      ((∀ f ∈ twice, ¬ f.HasName name) → h' = twiceParsed) :=
  findAndRemoveHeader_parsed _ _ _ _ _ parsed_twice (by decide +kernel)

/-! ## Forbidden headers -/

/-- The fields without the first one for each of some names. -/
def strip (names : List (List UInt8)) (fields : List HeaderField) : List HeaderField :=
  names.foldl (fun fs name => fs.eraseP fun f => f.HasName name) fields

theorem removeHeaders_parsed (type : ClientType) (H : Parsed h firstLine fields body) :
    ∃ h', h.removeHeaders type = .ok h' ∧
      Parsed h' firstLine (strip (removedHeaders type) fields) body := by
  have hplain : ∀ name ∈ removedHeaders type, PlainLine name := by
    cases type <;> decide +kernel
  rw [removeHeaders_eq]
  generalize removedHeaders type = names at hplain
  induction names generalizing h fields with
  | nil => exact ⟨h, rfl, H⟩
  | cons name names ih =>
      obtain ⟨hname, hnames⟩ := List.forall_mem_cons.mp hplain
      obtain ⟨h₁, hok, H₁, -⟩ := findAndRemoveHeader_parsed h firstLine fields body name H hname
      obtain ⟨h', hrest, H'⟩ := ih H₁ hnames
      exact ⟨h', by rw [List.foldlM_cons, hok, bind_ok, hrest], H'⟩

section Count
variable {α : Type} {p q : α → Bool} {l : List α}

theorem countP_eraseP_self : (l.eraseP p).countP p = l.countP p - 1 := by
  rcases List.exists_or_eq_self_of_eraseP p l with hnone | ⟨a, x, y, -, ha, rfl, herase⟩
  · have hzero : l.countP p = 0 :=
      List.countP_eq_zero.mpr (by simpa using List.eraseP_eq_self_iff.mp hnone)
    rw [hnone, hzero]
  · rw [herase, List.countP_append, List.countP_append, List.countP_cons_of_pos ha]
    omega

theorem countP_eraseP_of_disjoint (h : ∀ a, p a → ¬ q a) : (l.eraseP p).countP q = l.countP q := by
  rcases List.exists_or_eq_self_of_eraseP p l with hnone | ⟨a, x, y, -, ha, rfl, herase⟩
  · rw [hnone]
  · rw [herase, List.countP_append, List.countP_append, List.countP_cons_of_neg (h a ha)]

end Count

/-- **When the forbidden headers are gone.** `remove_headers` leaves none of them exactly
when the block has each at most once. -/
theorem removeHeaders_forbidden_iff (type : ClientType) (h : HttpMessage) (firstLine : List UInt8)
    (fields : List HeaderField) (body : List UInt8) (H : Parsed h firstLine fields body) :
    ∃ h', h.removeHeaders type = .ok h' ∧
      Parsed h' firstLine (strip (removedHeaders type) fields) body ∧
      ((∀ name ∈ removedHeaders type, ∀ f ∈ strip (removedHeaders type) fields, ¬ f.HasName name) ↔
        ∀ name ∈ removedHeaders type, (fields.countP fun f => f.HasName name) ≤ 1) := by
  obtain ⟨h', hok, H'⟩ := removeHeaders_parsed type H
  refine ⟨h', hok, H', ?_⟩
  obtain ⟨a, b, hab, hne, hcolon⟩ : ∃ a b, removedHeaders type = [a, b] ∧
      a.map tolower ≠ b.map tolower ∧ colon ∉ a ∧ colon ∉ b := by
    cases type
    · exact ⟨_, _, rfl, by decide +kernel⟩
    · exact ⟨_, _, rfl, by decide +kernel⟩
  -- no header is removed for a name and counted for the other one
  have hdisjoint : ∀ f : HeaderField, f.HasName a → ¬ f.HasName b :=
    fun f ha hb => hne (ha.eq hb hcolon.1 hcolon.2)
  have hcount : ∀ name, (∀ f ∈ strip [a, b] fields, ¬ f.HasName name) ↔
      ((strip [a, b] fields).countP fun f => f.HasName name) = 0 := by
    intro name
    simp [List.countP_eq_zero]
  have hfirst : ((strip [a, b] fields).countP fun f => f.HasName a) =
      (fields.countP fun f => f.HasName a) - 1 := by
    rw [strip, List.foldl_cons, List.foldl_cons, List.foldl_nil,
      countP_eraseP_of_disjoint fun f => ?_, countP_eraseP_self]
    simpa using fun hb ha => hdisjoint f ha hb
  have hsecond : ((strip [a, b] fields).countP fun f => f.HasName b) =
      (fields.countP fun f => f.HasName b) - 1 := by
    rw [strip, List.foldl_cons, List.foldl_cons, List.foldl_nil, countP_eraseP_self,
      countP_eraseP_of_disjoint fun f => ?_]
    simpa using hdisjoint f
  rw [hab]
  simp only [List.forall_mem_cons, List.not_mem_nil, false_implies, implies_true, and_true, hcount,
    hfirst, hsecond, Nat.sub_eq_zero_iff_le]

theorem removeHeaders_forbidden_iff_twice :
    ∃ h', twiceParsed.removeHeaders .requester = .ok h' ∧
      Parsed h' (chars "GET / HTTP/1.0") (strip (removedHeaders .requester) twice) (chars "body") ∧
      ((∀ name ∈ removedHeaders .requester, ∀ f ∈ strip (removedHeaders .requester) twice,
          ¬ f.HasName name) ↔
        ∀ name ∈ removedHeaders .requester, (twice.countP fun f => f.HasName name) ≤ 1) :=
  removeHeaders_forbidden_iff _ _ _ _ _ parsed_twice

/-- Of two `Connection` headers the second one is still found afterwards. -/
theorem not_removeHeaders_forbidden :
    ¬ ∀ (type : ClientType) (h : HttpMessage) (firstLine : List UInt8)
      (fields : List HeaderField) (body : List UInt8), Parsed h firstLine fields body →
      ∃ h', h.removeHeaders type = .ok h' ∧
        ∀ name ∈ removedHeaders type, h'.findHeader name = none := by
  intro hall
  obtain ⟨h', hok, hnone⟩ := hall .requester _ _ _ _ parsed_twice
  have hfound : ((twiceParsed.removeHeaders .requester).toOption.bind
      fun h' => h'.findHeader headerConnection) = some 0 := by
    decide +kernel
  rw [hok] at hfound
  have := hnone headerConnection (by simp [removedHeaders])
  rw [show (Except.ok h' : Except Fault HttpMessage).toOption = some h' from rfl, Option.bind_some,
    this] at hfound
  cases hfound

end HttpMessage

end RenaProxy
