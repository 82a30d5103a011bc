import RenaProxy.FaProxy.Loader
import RenaProxy.Lib.Transducer

/-!
# Where the head of a message ends

Until the head of a message has been read, `http_payload_loader` takes it apart into lines.
Of two line ends next to each other it counts the first only, and it finds out that they are
next to each other by an index of the buffer that it is given. The index of the last line end
that was counted stays when the next buffer comes, where it means nothing any more.

`Head.reads_two` and `Head.reads_four` say what a row of line ends does, wherever it is cut.
-/
namespace RenaProxy.FaProxy
open TreeNode StreamTransducer

/-- `html_state_e` -/
inductive HtmlState
  | initialization
  | receivedHost
  | body
  deriving DecidableEq, Repr

/-- The part of `http_module_t` that the head is read into. The last of the `lines` is a field
of its own: there always is one. -/
structure Head where
  stage : HtmlState
  earlier : List (List UInt8)
  line : List UInt8
  lastCharAt : ℕ
  breaks : ℕ
  interesting : Bool
  deriving DecidableEq, Repr

namespace Head

/-- The field `lines`. -/
def lines (h : Head) : List (List UInt8) := h.earlier ++ [h.line]

/-- The field `n_lines`. -/
def nLines (h : Head) : ℕ := h.earlier.length + 1

/-- What `http_payload_init` sets, `last_char_at` to `SIZE_MAX - 5`. -/
def init : Head := ⟨.initialization, [], [], 2 ^ 64 - 1 - 5, 0, true⟩

/-- `add_line` -/
def addLine (h : Head) : Head :=
  if h.line = [] then h else { h with earlier := h.earlier ++ [h.line], line := [] }

/-- `check_content_type`, which reads on behind the line: `memory` is what is there. -/
def checkContentType (memory : List UInt8) (h : Head) : Bool :=
  let value := h.line
  if value.length < 12 ∨ (value.take 12).map tolower ≠ (chars "Content-Type").map tolower then
    h.interesting
  else
    -- `strchr` also finds the NUL of the characters to skip
    let value := ((value ++ memory).drop 12).dropWhile fun c => c ∈ chars ": \t" ∨ c = 0
    match value with
    | [] => false
    | c :: _ => c ∈ chars "tTjJxXaA" ∧
        ["text/", "javascript", "xml", "application/octet-stream"].any fun phrase =>
          strcasestr (cstr value) (chars phrase)

/-- What `strchr` finds in `seps`: the two characters and the NUL. -/
def IsSep (c : UInt8) : Prop := c ∈ chars "\r\n" ∨ c = 0

instance : DecidablePred IsSep := fun c => inferInstanceAs (Decidable (c ∈ chars "\r\n" ∨ c = 0))

/-- A line end that is counted. -/
def lineEnd (memory : List (List UInt8) → List UInt8) (h : Head) (u : ℕ) : Head :=
  let h := addLine { h with interesting := h.checkContentType (memory h.lines) }
  { h with
    lastCharAt := u
    breaks := h.breaks + 1
    stage := if h.breaks + 1 > 1 then .body else h.stage }

/-- What `http_payload_loader` does with the head at the byte at the index `u` of its buffer. -/
def read (memory : List (List UInt8) → List UInt8) (h : Head) (p : UInt8 × ℕ) : Head :=
  if h.stage ≠ .body then
    if IsSep p.1 then
      if (h.lastCharAt + 1) % 2 ^ 64 ≠ p.2 then h.lineEnd memory p.2 else h
    else { h with line := h.line ++ [p.1], breaks := 0 }
  else h

end Head

/-- The part of `http_module_t` that is not the output. -/
structure Reading where
  head : Head
  holding : List UInt8
  dbLookup : DiLookup
  deriving DecidableEq, Repr

namespace Reading

/-- `http_payload_init` -/
def init (db : Database) (side : Side) : Reading := ⟨.init, [], databaseTransformHandler db side⟩

/-- What the lookup says about a byte, if it is asked. -/
def lookup (r : Reading) (input : UInt8) : Option (DiLookup × LookupResult) :=
  if r.head.nLines > 1 then
    if r.head.interesting then some (databaseTransformLookup r.dbLookup input)
    else some (r.dbLookup, .notHold)
  else none

/-- What `http_payload_loader` does with a byte after the head has seen it, and what it puts
out. The number of held bytes that stay must not become negative. -/
def pass (r : Reading) (input : UInt8) : Except Fault (Reading × List UInt8) :=
  match r.lookup input with
  | none => .ok (r, [input])
  | some (db, .notHold) => .ok (⟨r.head, [], db⟩, r.holding ++ [input])
  | some (db, .feedMeAndHold) => .ok (⟨r.head, r.holding ++ [input], db⟩, [])
  | some (db, .transformOk expanded consumed) =>
      if r.holding.length > 0 ∧ r.holding.length < consumed - 1 then .error .overrun
      else .ok (⟨r.head, [], db⟩, r.holding.take (r.holding.length - (consumed - 1)) ++ expanded)

/-- One round of the loop of `http_payload_loader`. -/
def loadByte (memory : List (List UInt8) → List UInt8) (r : Reading) (p : UInt8 × ℕ) :
    Except Fault (Reading × List UInt8) :=
  pass { r with head := r.head.read memory p } p.1

/-- The loop of `http_payload_loader` over a buffer. -/
def load (memory : List (List UInt8) → List UInt8) (r : Reading) (buffer : List UInt8) :
    Except Fault (Reading × List UInt8) :=
  run (loadByte memory) r buffer.zipIdx

/-- The loops of one call after the other. -/
def loads (memory : List (List UInt8) → List UInt8) (r : Reading) (buffers : List (List UInt8)) :
    Except Fault (Reading × List UInt8) :=
  run (load memory) r buffers

end Reading

theorem StrT.string_of_append {s s' : StrT} {val : List UInt8} (h : s.strAppendStr val = some s') :
    s'.string = s.string ++ val := by
  rw [StrT.strAppendStr] at h
  split_ifs at h
  obtain rfl := Option.some.inj h
  rfl

theorem string_of_letGo {output holding : StrT} {cut : ℕ} {p : StrT × StrT}
    (h : letGo output holding cut = some p) :
    p.1.string = output.string ++ holding.string.take (holding.size - cut) ∧ p.2.string = [] ∧
      ¬ (holding.size > 0 ∧ holding.size < cut) := by
  rw [letGo] at h
  split_ifs at h with hpos hcut
  · obtain ⟨output', happend, rfl⟩ := Option.map_eq_some_iff.mp h
    exact ⟨StrT.string_of_append happend, rfl, fun h => absurd hcut (Nat.not_le.mpr h.2)⟩
  · obtain rfl := Option.some.inj h
    have hnil : holding.string = [] := List.length_eq_zero_iff.mp (Nat.eq_zero_of_not_pos hpos)
    exact ⟨by rw [hnil, List.take_nil, List.append_nil], hnil, fun h => hpos h.1⟩

/-- Where there is room for a byte in the memory that `loadByte` counts, it does what is done
here, where memory is not counted. -/
theorem Reading.pass_of_loadByte {h h' : HttpModule} {r : Reading} {c : UInt8}
    (hload : FaProxy.loadByte h c = some h') (hlines : r.head.nLines > 1)
    (hinteresting : r.head.interesting) (hholding : r.holding = h.holding.string)
    (hdb : r.dbLookup = h.dbLookup) : ∃ out,
      r.pass c = .ok (⟨r.head, h'.holding.string, h'.dbLookup⟩, out) ∧
        h'.output.string = h.output.string ++ out := by
  obtain ⟨db, res, hval⟩ : ∃ d res, databaseTransformLookup h.dbLookup c = (d, res) := ⟨_, _, rfl⟩
  rw [Reading.pass, Reading.lookup, if_pos hlines, if_pos hinteresting, hdb, hval, hholding]
  rw [FaProxy.loadByte, hval] at hload
  cases res with
  | notHold =>
      obtain ⟨p, hletGo, hload⟩ := Option.bind_eq_some_iff.mp hload
      obtain ⟨output, happend, rfl⟩ := Option.map_eq_some_iff.mp hload
      obtain ⟨houtput, hnil, -⟩ := string_of_letGo hletGo
      refine ⟨_, by rw [hnil], ?_⟩
      rw [StrT.string_of_append happend, houtput, Nat.sub_zero, StrT.size, List.take_length,
        List.append_assoc]
      rfl
  | feedMeAndHold =>
      obtain ⟨holding, happend, rfl⟩ := Option.map_eq_some_iff.mp hload
      exact ⟨[], by rw [StrT.string_of_append happend], (List.append_nil _).symm⟩
  | transformOk expanded consumed =>
      obtain ⟨p, hletGo, hload⟩ := Option.bind_eq_some_iff.mp hload
      obtain ⟨houtput, hnil, hcut⟩ := string_of_letGo hletGo
      refine ⟨h.holding.string.take (h.holding.size - (consumed - 1)) ++ expanded, ?_⟩
      dsimp only
      rw [← StrT.size, if_neg hcut]
      split_ifs at hload with hpos
      · obtain ⟨output, happend, rfl⟩ := Option.map_eq_some_iff.mp hload
        refine ⟨by rw [hnil], ?_⟩
        rw [StrT.string_of_append happend, houtput, List.append_assoc]
        rfl
      · obtain rfl := Option.some.inj hload
        have hempty : expanded = [] := List.length_eq_zero_iff.mp (Nat.eq_zero_of_not_pos hpos)
        refine ⟨by rw [hnil], ?_⟩
        rw [houtput, hempty, List.append_nil]
        rfl

/-! ## The head alone -/

namespace Head
variable {memory : List (List UInt8) → List UInt8} {h h' : Head} {p q : UInt8 × ℕ}

/-- Heads that were read alike: they differ in the index and the counter at most. -/
structure Same (h h' : Head) : Prop where
  stage : h.stage = h'.stage
  earlier : h.earlier = h'.earlier
  line : h.line = h'.line
  interesting : h.interesting = h'.interesting

/-- The head after some bytes at their indices. -/
def reads (memory : List (List UInt8) → List UInt8) (h : Head) (ps : List (UInt8 × ℕ)) : Head :=
  ps.foldl (read memory) h

@[simp] theorem reads_nil : h.reads memory [] = h := rfl

@[simp] theorem reads_cons (ps : List (UInt8 × ℕ)) :
    h.reads memory (p :: ps) = (h.read memory p).reads memory ps := rfl

theorem reads_append (ps qs : List (UInt8 × ℕ)) :
    h.reads memory (ps ++ qs) = (h.reads memory ps).reads memory qs := List.foldl_append

theorem read_of_body (hstage : h.stage = .body) : h.read memory p = h := by
  rw [read, if_neg (not_not.mpr hstage)]

variable (memory) in
theorem read_of_not_isSep (hstage : h.stage ≠ .body) (hp : ¬ IsSep p.1) :
    h.read memory p = { h with line := h.line ++ [p.1], breaks := 0 } := by
  rw [read, if_pos hstage, if_neg hp]

theorem read_of_ne (hstage : h.stage ≠ .body) (hp : IsSep p.1)
    (hu : (h.lastCharAt + 1) % 2 ^ 64 ≠ p.2) : h.read memory p = h.lineEnd memory p.2 := by
  rw [read, if_pos hstage, if_pos hp, if_pos hu]

theorem read_of_eq (hp : IsSep p.1) (hu : (h.lastCharAt + 1) % 2 ^ 64 = p.2) :
    h.read memory p = h := by
  rw [read]
  split_ifs with h1 h2
  · exact absurd hu h2
  · rfl
  · rfl

theorem reads_of_body (ps : List (UInt8 × ℕ)) (hstage : h.stage = .body) :
    h.reads memory ps = h := by
  induction ps with
  | nil => rfl
  | cons p ps ih => rw [reads_cons, read_of_body hstage, ih]

/-- A text without line ends. -/
theorem reads_of_not_isSep {ps : List (UInt8 × ℕ)} (hstage : h.stage ≠ .body)
    (hps : ∀ p ∈ ps, ¬ IsSep p.1) : h.reads memory ps =
      { h with line := h.line ++ ps.map Prod.fst, breaks := if ps = [] then h.breaks else 0 } := by
  induction ps generalizing h with
  | nil => simp
  | cons p ps ih =>
      rw [reads_cons, read_of_not_isSep memory hstage (hps p List.mem_cons_self)]
      refine (ih ?_ ?_).trans ?_
      · exact hstage
      · intro q hq
        exact hps q (List.mem_cons_of_mem p hq)
      · simp

/-- The first line end after a line with something in it. -/
theorem lineEnd_first (hline : h.line ≠ []) (hbreaks : h.breaks = 0) (u : ℕ) :
    h.lineEnd memory u = ⟨h.stage, h.earlier ++ [h.line], [], u, 1,
      h.checkContentType (memory h.lines)⟩ := by
  rw [lineEnd, addLine, if_neg hline, hbreaks]
  rfl

/-- A line end on an empty line. -/
theorem lineEnd_empty (hline : h.line = []) (u : ℕ) : h.lineEnd memory u =
    { h with
      lastCharAt := u
      breaks := h.breaks + 1
      stage := if h.breaks + 1 > 1 then .body else h.stage } := by
  have hkeep : h.checkContentType (memory h.lines) = h.interesting := by
    rw [checkContentType, hline, if_pos (Or.inl (by decide))]
  rw [lineEnd, addLine, if_pos hline, hkeep]

theorem Same.symm (S : h.Same h') : h'.Same h :=
  ⟨S.stage.symm, S.earlier.symm, S.line.symm, S.interesting.symm⟩

theorem Same.trans {h'' : Head} (S : h.Same h') (S' : h'.Same h'') : h.Same h'' :=
  ⟨S.stage.trans S'.stage, S.earlier.trans S'.earlier, S.line.trans S'.line,
    S.interesting.trans S'.interesting⟩

theorem Same.read_of_not_isSep (S : h.Same h') (hp : ¬ IsSep p.1) (hpq : p.1 = q.1) :
    (h.read memory p).Same (h'.read memory q) := by
  by_cases hstage : h.stage = .body
  · rwa [read_of_body hstage, read_of_body (S.stage ▸ hstage)]
  · rw [Head.read_of_not_isSep memory hstage hp, Head.read_of_not_isSep memory (S.stage ▸ hstage) (hpq ▸ hp)]
    refine ⟨S.stage, S.earlier, ?_, S.interesting⟩
    rw [S.line, hpq]

/-- A head at a line end that was counted, with nothing in its line. -/
structure Ended (u : ℕ) (h : Head) : Prop where
  stage : h.stage ≠ .body
  line : h.line = []
  breaks : h.breaks = 1
  lastCharAt : h.lastCharAt = u

/-- A head in a line with something in it. -/
structure Begun (u : ℕ) (h : Head) : Prop where
  stage : h.stage ≠ .body
  line : h.line ≠ []
  breaks : h.breaks = 0
  lastCharAt : h.lastCharAt = u

variable (memory) in
theorem ended_lineEnd (hstage : h.stage ≠ .body) (hbreaks : h.breaks = 0) (u : ℕ) :
    (h.lineEnd memory u).Ended u := by
  by_cases hline : h.line = []
  · rw [lineEnd_empty hline, hbreaks]
    exact ⟨hstage, hline, rfl, rfl⟩
  · rw [lineEnd_first hline hbreaks]
    exact ⟨hstage, rfl, rfl, rfl⟩

variable (memory) in
/-- A text without line ends after a line end. -/
theorem Ended.begun {u : ℕ} (H : h.Ended u) {ps : List (UInt8 × ℕ)} (hps : ∀ p ∈ ps, ¬ IsSep p.1)
    (hne : ps ≠ []) : (h.reads memory ps).Begun u := by
  rw [reads_of_not_isSep H.stage hps, if_neg hne]
  refine ⟨H.stage, ?_, rfl, H.lastCharAt⟩
  simp [hne]

/-- The indices of two bytes next to each other: in the same buffer, or in one and the next. -/
def Consecutive (p q : UInt8 × ℕ) : Prop := q.2 = p.2 + 1 ∨ q.2 = 0

variable (memory) in
/-- A line end on an empty line with one line end before it. -/
theorem lineEnd_second (hline : h.line = []) (hbreaks : h.breaks = 1) (u : ℕ) :
    (h.lineEnd memory u).Same { h with stage := .body } := by
  rw [lineEnd_empty hline, hbreaks]
  exact ⟨rfl, rfl, rfl, rfl⟩

/-- Two line ends right after one that was counted end the head, as one of them is counted. -/
theorem reads_two {a b : UInt8 × ℕ} (H : h.Ended p.2) (ha : IsSep a.1) (hb : IsSep b.1)
    (hpa : Consecutive p a) (hab : Consecutive a b) (hp : p.2 < 2 ^ 63) :
    (h.reads memory [a, b]).Same { h with stage := .body } := by
  obtain ⟨hstage, hline, hbreaks, hlast⟩ := H
  have hmod : (h.lastCharAt + 1) % 2 ^ 64 = p.2 + 1 := by omega
  rw [reads_cons, reads_cons, reads_nil]
  by_cases hnext : a.2 = p.2 + 1
  · -- the first of them is not counted, and the second is not next to what was
    have hne : (h.lastCharAt + 1) % 2 ^ 64 ≠ b.2 := by
      rcases hab with hab | hab <;> omega
    rw [read_of_eq ha (hmod.trans hnext.symm), read_of_ne hstage hb hne]
    exact lineEnd_second memory hline hbreaks b.2
  · have hzero : a.2 = 0 := hpa.resolve_left hnext
    have hne : (h.lastCharAt + 1) % 2 ^ 64 ≠ a.2 := by omega
    have hsecond := lineEnd_second memory hline hbreaks a.2
    rw [read_of_ne hstage ha hne, read_of_body hsecond.stage]
    exact hsecond

/-- Four line ends after a line end the head, whichever of them are counted. -/
theorem reads_four {u : ℕ} {a b c d : UInt8 × ℕ} (H : h.Begun u) (ha : IsSep a.1)
    (hb : IsSep b.1) (hc : IsSep c.1) (hd : IsSep d.1) (hab : Consecutive a b)
    (hbc : Consecutive b c) (hcd : Consecutive c d) (hsmall : a.2 < 2 ^ 63 ∧ b.2 < 2 ^ 63)
    (hu : u < 2 ^ 63) :
    (h.reads memory [a, b, c, d]).Same ⟨.body, h.earlier ++ [h.line], [], 0, 0,
      h.checkContentType (memory h.lines)⟩ := by
  obtain ⟨hstage, hline, hbreaks, hlast⟩ := H
  have hmod : (h.lastCharAt + 1) % 2 ^ 64 = h.lastCharAt + 1 := Nat.mod_eq_of_lt (by omega)
  have htwo : ∀ p a b : UInt8 × ℕ, IsSep a.1 → IsSep b.1 → Consecutive p a → Consecutive a b →
      p.2 < 2 ^ 63 → ((h.lineEnd memory p.2).reads memory [a, b]).Same
        ⟨.body, h.earlier ++ [h.line], [], 0, 0, h.checkContentType (memory h.lines)⟩ := by
    intro p a b ha hb hpa hab hp
    refine (reads_two (ended_lineEnd memory hstage hbreaks p.2) ha hb hpa hab hp).trans ?_
    rw [lineEnd_first hline hbreaks]
    exact ⟨rfl, rfl, rfl, rfl⟩
  rw [reads_cons]
  by_cases hfirst : h.lastCharAt + 1 = a.2
  · -- the first line end is taken for one next to another, so the second is counted
    have hne : (h.lastCharAt + 1) % 2 ^ 64 ≠ b.2 := by
      rcases hab with hab | hab <;> omega
    rw [read_of_eq ha (hmod.trans hfirst), reads_cons, read_of_ne hstage hb hne]
    exact htwo b c d hc hd hbc hcd hsmall.2
  · have hne : (h.lastCharAt + 1) % 2 ^ 64 ≠ a.2 := by omega
    have hthree := htwo a b c hb hc hab hbc hsmall.1
    have happend : ∀ h : Head, h.reads memory [b, c, d] = (h.reads memory [b, c]).reads memory [d] :=
      fun _ => reads_append [b, c] [d]
    rw [read_of_ne hstage ha hne, happend, reads_of_body [d] hthree.stage]
    exact hthree

end Head

/-! ## Keys without line ends -/

/-- No node below holds the character. -/
def TreeNode.Avoids (c : UInt8) : TreeNode → Prop
  | null => True
  | node v ch s _ => v ≠ c ∧ Avoids c ch ∧ Avoids c s

section Avoids
variable {c : UInt8} {use : TreeNode → TreeNode} {val : UInt8}

theorem avoids_create (hval : val ≠ c) : Avoids c (treeCreateNode val) :=
  ⟨hval, trivial, trivial⟩

theorem avoids_addSiblingFrom (huse : ∀ t, Avoids c t → Avoids c (use t)) (hval : val ≠ c)
    (t : TreeNode) (ht : Avoids c t) : Avoids c (treeAddSiblingFrom use t val) := by
  induction t with
  | null => exact huse _ (avoids_create hval)
  | node v ch s a _ ih =>
      rw [treeAddSiblingFrom]
      split_ifs
      · exact ⟨ht.1, ht.2.1, ih ht.2.2⟩
      · exact huse _ ht
      · exact huse _ ⟨hval, trivial, ht⟩

theorem avoids_insertFrom (stored : List UInt8) (bs : List UInt8) (hbs : ∀ b ∈ bs, tolower b ≠ c) :
    ∀ t, Avoids c t → Avoids c (treeInsertFrom stored bs t) := by
  induction bs with
  | nil =>
      intro t ht
      cases t with
      | null => trivial
      | node v ch s a => exact ht
  | cons b bs ih =>
      intro t ht
      have huse := ih fun b' hb' => hbs b' (List.mem_cons_of_mem b hb')
      cases t with
      | null => trivial
      | node v ch s a =>
          rw [treeInsertFrom, treeAddChild_eq]
          exact ⟨ht.1, avoids_addSiblingFrom huse (hbs b List.mem_cons_self) ch ht.2.1, ht.2.2⟩

/-- An insertion brings the characters of its key into the tree and no others. -/
theorem avoids_insert {root : TreeNode} (hroot : Avoids c root) {v : List UInt8} (hv : v ≠ [])
    (hvc : ∀ b ∈ v, tolower b ≠ c) (adapted suffix : List UInt8) :
    Avoids c (treeInsert root v adapted suffix) := by
  obtain ⟨b, bs, rfl⟩ := List.exists_cons_of_ne_nil hv
  have huse := avoids_insertFrom ((adapted ++ suffix).take (maxStr - 1)) bs
    fun b' hb' => hvc b' (List.mem_cons_of_mem b hb')
  rw [treeInsert_eq]
  exact avoids_addSiblingFrom huse (hvc b List.mem_cons_self) root hroot

theorem avoids_getSiblingFrom {t : TreeNode} (ht : Avoids c t) (value : UInt8) :
    Avoids c (treeGetSiblingFrom t value) := by
  induction t with
  | null => trivial
  | node v ch s a _ ih =>
      rw [treeGetSiblingFrom]
      split_ifs
      · exact ht
      · exact ih ht.2.2
      · trivial

/-- The character that a tree avoids is not found in it. -/
theorem getSiblingFrom_eq_null {t : TreeNode} (ht : Avoids c t) : treeGetSiblingFrom t c = null := by
  induction t with
  | null => rfl
  | node v ch s a _ ih =>
      rw [treeGetSiblingFrom, if_neg ht.1, ih ht.2.2]
      exact ite_self null

theorem avoids_getChild {t : TreeNode} (ht : Avoids c t) (b : UInt8) :
    Avoids c (treeGetChild t b) := by
  cases t with
  | null => trivial
  | node v ch s a => exact avoids_getSiblingFrom ht.2.1 _

theorem getChild_eq_null (hc : tolower c = c) {t : TreeNode} (ht : Avoids c t) :
    treeGetChild t c = null := by
  cases t with
  | null => rfl
  | node v ch s a =>
      rw [treeGetChild, treeGetSibling, hc]
      exact getSiblingFrom_eq_null ht.2.1

end Avoids

namespace DiLookup
variable {c : UInt8} {cast : DiLookup}

/-- A lookup in trees without the character. -/
structure Avoids (c : UInt8) (cast : DiLookup) : Prop where
  never : TreeNode.Avoids c cast.neverRef
  other : TreeNode.Avoids c cast.otherRef
  lookups : ∀ lup ∈ cast.lookups, TreeNode.Avoids c lup.subtree

/-- The lookup with nothing begun. -/
def cleared (cast : DiLookup) : DiLookup := { cast with lookups := [] }

theorem Avoids.cleared (A : cast.Avoids c) : cast.cleared.Avoids c :=
  ⟨A.never, A.other, fun _ h => absurd h List.not_mem_nil⟩

theorem Avoids.beginLookups (A : cast.Avoids c) (input : UInt8) {lookups : List TreeLookup}
    (hlookups : ∀ lup ∈ lookups, TreeNode.Avoids c lup.subtree) :
    ∀ lup ∈ beginLookups cast input lookups, TreeNode.Avoids c lup.subtree := by
  have hinsert : ∀ t : TreeNode, TreeNode.Avoids c t → ∀ l : List TreeLookup,
      (∀ lup ∈ l, TreeNode.Avoids c lup.subtree) →
      ∀ lup ∈ arrayInsertBasedOnDepth l ⟨t, 1⟩, TreeNode.Avoids c lup.subtree := by
    intro t ht l hl lup hlup
    rcases List.mem_append.mp hlup with hlup | hlup
    · exact hl lup hlup
    · rw [List.mem_singleton.mp hlup]
      exact ht
  rw [FaProxy.beginLookups]
  dsimp only
  split_ifs
  · exact hlookups
  · exact hinsert _ (avoids_getSiblingFrom A.other _) _
      (hinsert _ (avoids_getSiblingFrom A.never _) _ hlookups)
  · exact hinsert _ (avoids_getSiblingFrom A.other _) _ hlookups
  · exact hinsert _ (avoids_getSiblingFrom A.never _) _ hlookups
  · exact hlookups

theorem Avoids.filterMap_advance (A : cast.Avoids c) (input : UInt8) :
    ∀ lup ∈ cast.lookups.filterMap (advance input), TreeNode.Avoids c lup.subtree := by
  intro lup hlup
  obtain ⟨lup', hlup', hadvance⟩ := List.mem_filterMap.mp hlup
  have hchild := avoids_getChild (A.lookups lup' hlup') input
  rw [advance] at hadvance
  cases hget : treeGetChild lup'.subtree input with
  | null =>
      rw [hget] at hadvance
      cases hadvance
  | node v ch s a =>
      rw [hget] at hadvance hchild
      obtain rfl := Option.some.inj hadvance
      exact hchild

/-- What the lookup has begun stays in the trees. -/
theorem Avoids.lookup (A : cast.Avoids c) (input : UInt8) :
    (databaseTransformLookup cast input).1.Avoids c := by
  rw [databaseTransformLookup, transformLoop_zero]
  cases (cast.lookups.filterMap (advance input)).find? (·.subtree.stored ≠ []) with
  | some lup => exact ⟨A.never, A.other, fun _ h => absurd h List.not_mem_nil⟩
  | none => exact ⟨A.never, A.other, A.beginLookups input (A.filterMap_advance input)⟩

/-- At a character that no key has, nothing that was begun goes on and nothing begins. -/
theorem Avoids.lookup_self (A : cast.Avoids c) (hc : tolower c = c) (hlow : schar c ≤ schar 32) :
    databaseTransformLookup cast c = (cast.cleared, .notHold) := by
  have hnone : cast.lookups.filterMap (advance c) = [] := by
    rw [List.filterMap_eq_nil_iff]
    intro lup hlup
    rw [advance, getChild_eq_null hc (A.lookups lup hlup)]
  rw [databaseTransformLookup, transformLoop_zero, hnone]
  dsimp only [List.find?_nil]
  rw [FaProxy.beginLookups, if_pos hlow]
  rfl

end DiLookup

/-- What `%s` reads. -/
def IsWord (s : List UInt8) : Prop := s ≠ [] ∧ ∀ b ∈ s, isspace b = false ∧ b ≠ 0

/-- A rule whose names were read with `%s`. -/
def Rule.Words : Rule → Prop
  | .noProxy domain => IsWord domain
  | .proxyDomainRename server client => IsWord server ∧ IsWord client

section Words
variable {c : UInt8}

theorem isSep_iff : Head.IsSep c ↔ c = 13 ∨ c = 10 ∨ c = 0 := by
  have hseps : chars "\r\n" = [13, 10] := by decide
  rw [Head.IsSep, hseps, List.mem_cons, List.mem_singleton, or_assoc]

theorem tolower_of_isSep (hc : Head.IsSep c) : tolower c = c := by
  rcases isSep_iff.mp hc with rfl | rfl | rfl <;> decide

theorem schar_of_isSep (hc : Head.IsSep c) : schar c ≤ schar 32 := by
  rcases isSep_iff.mp hc with rfl | rfl | rfl <;> decide

/-- No character of a word is a line end, in either letter case. -/
theorem IsWord.tolower_ne {s : List UInt8} (hs : IsWord s) (hc : Head.IsSep c) {b : UInt8}
    (hb : b ∈ s) : tolower b ≠ c := by
  rintro rfl
  obtain ⟨hspace, hzero⟩ := hs.2 b hb
  have hlow : (tolower b).toNat ≤ 13 := by
    rcases isSep_iff.mp hc with h | h | h <;> rw [h] <;> decide
  have hsame : tolower b = b := by
    apply UInt8.toNat_inj.mp
    have := toNat_tolower b
    split_ifs at this
    · omega
    · exact this
  rw [hsame] at hc
  rcases isSep_iff.mp hc with rfl | rfl | rfl
  · exact absurd hspace (by decide)
  · exact absurd hspace (by decide)
  · exact hzero rfl

/-- The trees for the answers of a server hold no line end. -/
theorem avoids_handler {rules : List Rule} (hrules : ∀ r ∈ rules, r.Words) (suffix : List UInt8)
    (hc : Head.IsSep c) :
    (databaseTransformHandler (databaseSetUp suffix rules) .server).Avoids c := by
  have htrees : ∀ db : Database, TreeNode.Avoids c db.neverProxyTree →
      TreeNode.Avoids c db.renameFromServer →
      TreeNode.Avoids c (rules.foldl (insertRule suffix) db).neverProxyTree ∧
        TreeNode.Avoids c (rules.foldl (insertRule suffix) db).renameFromServer := by
    induction rules with
    | nil => exact fun _ hnever hserver => ⟨hnever, hserver⟩
    | cons r rules ih =>
        intro db hnever hserver
        have hr := hrules r List.mem_cons_self
        apply ih fun r' hr' => hrules r' (List.mem_cons_of_mem r hr')
        · cases r with
          | noProxy domain => exact avoids_insert hnever hr.1 (fun b hb => hr.tolower_ne hc hb) _ _
          | proxyDomainRename server client => exact hnever
        · cases r with
          | noProxy domain => exact hserver
          | proxyDomainRename server client =>
              exact avoids_insert hserver hr.1.1 (fun b hb => hr.1.tolower_ne hc hb) _ _
  obtain ⟨hnever, hserver⟩ := htrees .empty trivial trivial
  exact ⟨hnever, hserver, fun _ h => absurd h List.not_mem_nil⟩

end Words

end RenaProxy.FaProxy
