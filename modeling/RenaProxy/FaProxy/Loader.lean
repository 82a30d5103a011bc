import RenaProxy.FaProxy.Lookup

/-!
# Holding back and letting go

`http_payload_loader` asks the lookup about every byte. It holds back what may become a key,
and lets go of it into the output when it does not, or up to the key when it does. Both are
`str_t`s, which `str_resize` makes larger.

`str_resize` makes a `str_t` larger by one step, however much is to be appended.
`emitted_eq_reference_iff` says of which texts this is enough: for these the output is the
text with its keys replaced, and for the others bytes are written past the allocation.
-/
namespace RenaProxy.FaProxy
open TreeNode StreamMatcher StreamTransducer EarliestMatch

/-- `RESERVE_OFFSET` -/
def reserveOffset : ℕ := 1024

/-- `str_t`: the bytes in use, of the `reserve` ones that are allocated. -/
structure StrT where
  string : List UInt8
  reserve : ℕ
  size_le : string.length ≤ reserve

namespace StrT

/-- The field `size`. -/
def size (s : StrT) : ℕ := s.string.length

/-- What `calloc` leaves in a `str_t`. -/
def zeroed : StrT := ⟨[], 0, le_rfl⟩

/-- `s->size = 0` -/
def cleared (s : StrT) : StrT := ⟨[], s.reserve, Nat.zero_le _⟩

/-- What `str_resize` sets the field `reserve` to. -/
def resized (s : StrT) (mod : ℕ) : ℕ :=
  if mod + s.size < s.reserve then s.reserve else s.reserve + reserveOffset

theorem le_resized (s : StrT) (mod : ℕ) : s.reserve ≤ s.resized mod := by
  rw [resized]
  split_ifs <;> omega

/-- `str_resize`, where `realloc` does not fail. -/
def strResize (s : StrT) (mod : ℕ) : StrT :=
  ⟨s.string, s.resized mod, s.size_le.trans (s.le_resized mod)⟩

/-- `str_append_str`, or `none` if it writes past what is allocated. -/
def strAppendStr (s : StrT) (val : List UInt8) : Option StrT :=
  if h : (s.string ++ val).length ≤ s.resized val.length then
    some ⟨s.string ++ val, s.resized val.length, h⟩
  else none

/-- `str_append_char` -/
def strAppendChar (s : StrT) (val : UInt8) : Option StrT := s.strAppendStr [val]

variable {s : StrT} {val : List UInt8} {mod : ℕ}

theorem strAppendStr_eq_none_iff :
    s.strAppendStr val = none ↔ s.resized val.length < s.size + val.length := by
  have hlen : (s.string ++ val).length = s.size + val.length := List.length_append
  rw [strAppendStr]
  split_ifs with h
  · exact iff_of_false id (by omega)
  · exact iff_of_true rfl (by omega)

/-- What is not longer than one step can be appended. -/
theorem strAppendStr_of_le (h : val.length ≤ reserveOffset) :
    ∃ s', s.strAppendStr val = some s' ∧ s'.string = s.string ++ val := by
  have hroom : (s.string ++ val).length ≤ s.resized val.length := by
    rw [List.length_append, resized, size]
    have := s.size_le
    split_ifs <;> omega
  exact ⟨_, dif_pos hroom, rfl⟩

theorem strAppendChar_eq (s : StrT) (c : UInt8) :
    ∃ s', s.strAppendChar c = some s' ∧ s'.string = s.string ++ [c] :=
  strAppendStr_of_le (Nat.le_of_ble_eq_true rfl)

variable (s) in
/-- Appending after a resize that asks for as much at least: two steps are enough or not. -/
theorem strAppendStr_strResize (hmod : val.length ≤ mod) :
    if s.size + val.length ≤ s.reserve + 2 * reserveOffset then
      ∃ s', (s.strResize mod).strAppendStr val = some s' ∧ s'.string = s.string ++ val
    else (s.strResize mod).strAppendStr val = none := by
  have hsize : (s.strResize mod).size = s.size := rfl
  have hreserve : (s.strResize mod).reserve = s.resized mod := rfl
  split_ifs with h
  · have hroom : ((s.strResize mod).string ++ val).length ≤ (s.strResize mod).resized val.length := by
      rw [List.length_append, ← size, resized, hsize, hreserve, resized]
      split_ifs <;> omega
    exact ⟨_, dif_pos hroom, rfl⟩
  · rw [strAppendStr_eq_none_iff, resized, hsize, hreserve, resized]
    split_ifs <;> omega

end StrT

/-! ## The loader -/

/-- The part of `http_module_t` that the rewriting uses. -/
structure HttpModule where
  output : StrT
  holding : StrT
  dbLookup : DiLookup

/-- `http_payload_init` -/
def httpPayloadInit (db : Database) (side : Side) : HttpModule :=
  ⟨.zeroed, .zeroed, databaseTransformHandler db side⟩

/-- What the loader does with what is held, but for the last `cut` bytes: it is appended to the
output, and nothing is held any more. -/
def letGo (output holding : StrT) (cut : ℕ) : Option (StrT × StrT) :=
  if holding.size > 0 then
    if cut ≤ holding.size then
      (output.strAppendStr (holding.string.take (holding.size - cut))).map (·, holding.cleared)
    else none
  else some (output, holding)

/-- What `http_payload_loader` does with one byte after the first line. -/
def loadByte (h : HttpModule) (input : UInt8) : Option HttpModule :=
  match databaseTransformLookup h.dbLookup input with
  | (dbLookup, .notHold) =>
      (letGo (h.output.strResize (h.holding.size + 1)) h.holding 0).bind fun p =>
        (p.1.strAppendChar input).map (⟨·, p.2, dbLookup⟩)
  | (dbLookup, .feedMeAndHold) => (h.holding.strAppendChar input).map (⟨h.output, ·, dbLookup⟩)
  | (dbLookup, .transformOk expanded consumed) =>
      (letGo (h.output.strResize (h.holding.size + expanded.length)) h.holding (consumed - 1)).bind
        fun p =>
          if expanded.length > 0 then (p.1.strAppendStr expanded).map (⟨·, p.2, dbLookup⟩)
          else some ⟨p.1, p.2, dbLookup⟩

/-- The loop of `http_payload_loader` over a text. -/
def httpPayloadLoader (h : HttpModule) (text : List UInt8) : Option HttpModule :=
  text.foldlM loadByte h

/-- What was put out, and what is still held. -/
def HttpModule.emitted (h : HttpModule) : List UInt8 := h.output.string ++ h.holding.string

/-- How many held bytes an input lets go. -/
def released (h : HttpModule) (input : UInt8) : ℕ :=
  match (databaseTransformLookup h.dbLookup input).2 with
  | .notHold => h.holding.size
  | .feedMeAndHold => 0
  | .transformOk _ consumed => h.holding.size - (consumed - 1)

/-- Two steps of the allocation make room for what an input lets go. -/
def Fits (h : HttpModule) (input : UInt8) : Prop :=
  h.output.size + released h input ≤ h.output.reserve + 2 * reserveOffset

instance (h : HttpModule) (input : UInt8) : Decidable (Fits h input) :=
  inferInstanceAs (Decidable (_ ≤ _))

/-- There is room at every byte of a text. -/
def FitsRun : HttpModule → List UInt8 → Prop
  | _, [] => True
  | h, input :: text => Fits h input ∧ ∀ h' ∈ loadByte h input, FitsRun h' text

/-! ## One byte -/

/-- The loader holds and follows what the general matcher holds and has seen. -/
structure Simulates (B : RuleBase) (side : Side) (h : HttpModule) (s : Rules.State UInt8) : Prop where
  follows : B.Follows side h.dbLookup s.seen
  holding : h.holding.string = s.held

section Step
variable {B : RuleBase} {side : Side} {h : HttpModule} {s : Rules.State UInt8} {input : UInt8}

/-- `letGo` after the resize. -/
theorem letGo_strResize (output holding : StrT) {cut mod : ℕ} (hcut : cut ≤ holding.size)
    (hmod : holding.size ≤ mod) :
    if output.size + (holding.size - cut) ≤ output.reserve + 2 * reserveOffset then
      ∃ p, letGo (output.strResize mod) holding cut = some p ∧
        p.1.string = output.string ++ holding.string.take (holding.size - cut) ∧ p.2.string = []
    else letGo (output.strResize mod) holding cut = none := by
  by_cases hpos : holding.size > 0
  · have hlen : (holding.string.take (holding.size - cut)).length = holding.size - cut := by
      rw [List.length_take, ← StrT.size, Nat.min_eq_left (Nat.sub_le _ _)]
    have hle : (holding.string.take (holding.size - cut)).length ≤ mod := by omega
    have happend := StrT.strAppendStr_strResize output hle
    rw [hlen] at happend
    rw [letGo, if_pos hpos, if_pos hcut]
    split_ifs at happend ⊢ with hroom
    · obtain ⟨output', heq, hstring⟩ := happend
      rw [heq]
      exact ⟨_, rfl, hstring, rfl⟩
    · rw [happend, Option.map_none]
  · have hnil : holding.string = [] := List.length_eq_zero_iff.mp (Nat.eq_zero_of_not_pos hpos)
    have hzero : holding.size = 0 := Nat.eq_zero_of_not_pos hpos
    have hroom := output.size_le
    rw [← StrT.size] at hroom
    rw [letGo, if_neg hpos, if_pos (by omega), hnil, List.take_nil, List.append_nil]
    exact ⟨_, rfl, rfl, hnil⟩

theorem loadByte_feedMeAndHold {dbLookup : DiLookup}
    (hval : databaseTransformLookup h.dbLookup input = (dbLookup, .feedMeAndHold)) :
    ∃ holding, loadByte h input = some ⟨h.output, holding, dbLookup⟩ ∧
      holding.string = h.holding.string ++ [input] := by
  obtain ⟨holding, happend, hstring⟩ := StrT.strAppendChar_eq h.holding input
  rw [loadByte, hval]
  dsimp only
  rw [happend]
  exact ⟨holding, rfl, hstring⟩

/-- **One byte.** Where there is room, the loader does what the general matcher does; where
there is not, it writes past what is allocated. -/
theorem loadByte_spec (S : Simulates B side h s) (W : (B.matcher side).Waiting s) (input : UInt8) :
    if Fits h input then
      ∃ h', loadByte h input = some h' ∧
        Simulates B side h' ((B.matcher side).step tolower s input).1 ∧
        h'.output.string = h.output.string ++ ((B.matcher side).step tolower s input).2
    else loadByte h input = none := by
  have hlookup := RuleBase.databaseTransformLookup_spec S.follows input
  have hheld : h.holding.size = s.held.length := congrArg List.length S.holding
  change if h.output.size + released h input ≤ h.output.reserve + 2 * reserveOffset then _ else _
  rw [released, loadByte, Rules.step]
  obtain ⟨dbLookup, res, hval⟩ : ∃ d r, databaseTransformLookup h.dbLookup input = (d, r) :=
    ⟨_, _, rfl⟩
  rw [hval] at hlookup ⊢
  have hlexicon : (B.matcher side).lexicon = B.lexicon side := rfl
  have hrepl : (B.matcher side).repl = B.replacement side := rfl
  rw [hlexicon, hrepl]
  split at hlookup
  · -- a key is complete
    rename_i p hfind
    obtain ⟨hres, hfollows⟩ := hlookup
    subst hres
    have hcut : p.2.length + 1 - 1 ≤ h.holding.size := hheld ▸ W.held p (List.mem_of_find?_eq_some hfind)
    have hkey := List.find?_some (p := fun p : Kind × List UInt8 =>
      (B.lexicon side p.1).key (p.2 ++ [tolower input])) hfind
    obtain ⟨hnonempty, hshort⟩ := RuleBase.replacement_proper hkey
    have hletGo := letGo_strResize h.output h.holding hcut
      (Nat.le_add_right _ (B.replacement side p.1 (p.2 ++ [tolower input])).length)
    rw [hfind]
    dsimp only
    by_cases hroom : h.output.size + (h.holding.size - (p.2.length + 1 - 1)) ≤
        h.output.reserve + 2 * reserveOffset
    · rw [if_pos hroom] at hletGo ⊢
      obtain ⟨q, heq, houtput, hholding⟩ := hletGo
      obtain ⟨output, happend, hstring⟩ := StrT.strAppendStr_of_le (s := q.1) hshort.le
      rw [heq, Option.bind_some, if_pos (List.length_pos_iff.mpr hnonempty), happend]
      refine ⟨_, rfl, ⟨hfollows, hholding⟩, ?_⟩
      rw [hstring, houtput, hheld, S.holding, Nat.add_sub_cancel, List.append_assoc]
    · rw [if_neg hroom] at hletGo ⊢
      rw [hletGo, Option.bind_none]
  · rename_i hfind
    obtain ⟨hres, hfollows⟩ := hlookup
    rw [hfind]
    dsimp only
    by_cases hlive : ((B.matcher side).live (s.seen ++ [tolower input])).isEmpty
    · -- nothing is alive any more
      rw [if_pos hlive] at hres ⊢
      subst hres
      have hletGo := letGo_strResize h.output h.holding (Nat.zero_le _) (Nat.le_add_right _ 1)
      dsimp only
      rw [Nat.sub_zero] at hletGo
      split_ifs at hletGo ⊢ with hroom
      · obtain ⟨q, heq, houtput, hholding⟩ := hletGo
        obtain ⟨output, happend, hstring⟩ := StrT.strAppendChar_eq q.1 input
        rw [heq, Option.bind_some, happend]
        refine ⟨_, rfl, ⟨hfollows, hholding⟩, ?_⟩
        rw [hstring, houtput, hheld, S.holding, List.take_length, List.append_assoc]
      · rw [hletGo, Option.bind_none]
    · -- the byte is held as well
      rw [if_neg hlive] at hres ⊢
      subst hres
      have hroom := h.output.size_le
      obtain ⟨holding, hload, hstring⟩ := loadByte_feedMeAndHold hval
      rw [loadByte, hval] at hload
      rw [if_pos (by rw [StrT.size]; dsimp only; omega)]
      refine ⟨_, hload, ⟨hfollows, ?_⟩, ?_⟩
      · rw [hstring, S.holding]
      · rw [List.append_nil]

end Step

/-! ## The run -/

/-- The run over a text. -/
theorem httpPayloadLoader_spec {B : RuleBase} {side : Side} (text : List UInt8) {h : HttpModule}
    {s : Rules.State UInt8} (S : Simulates B side h s) (W : (B.matcher side).Waiting s) :
    (FitsRun h text → ∃ h', httpPayloadLoader h text = some h' ∧
      let r := trace ((B.matcher side).step tolower) s text
      h'.emitted = h.output.string ++ (r.2 ++ r.1.held)) ∧
    (¬ FitsRun h text → httpPayloadLoader h text = none) := by
  induction text generalizing h s with
  | nil =>
      refine ⟨?_, ?_⟩
      · intro _
        refine ⟨h, rfl, ?_⟩
        rw [HttpModule.emitted, S.holding]
        rfl
      · intro hnot
        exact absurd trivial hnot
  | cons input text ih =>
      have hbyte := loadByte_spec S W input
      rw [FitsRun, httpPayloadLoader, List.foldlM_cons, trace_cons]
      split_ifs at hbyte with hfits
      · obtain ⟨h', heq, S', houtput⟩ := hbyte
        obtain ⟨hrun, hnone⟩ := ih S' (W.step input)
        rw [heq]
        refine ⟨?_, ?_⟩
        · intro hall
          obtain ⟨h'', hload, hemitted⟩ := hrun (hall.2 h' rfl)
          refine ⟨h'', hload, ?_⟩
          dsimp only at hemitted ⊢
          rw [hemitted, houtput, List.append_assoc, List.append_assoc]
        · intro hnot
          apply hnone
          intro hrest
          apply hnot
          refine ⟨hfits, ?_⟩
          intro h'' h''eq
          exact Option.some.inj h''eq ▸ hrest
      · rw [hbyte]
        refine ⟨?_, ?_⟩
        · intro hall
          exact absurd hall.1 hfits
        · intro _
          rfl

theorem simulates_init (B : RuleBase) (side : Side) :
    Simulates B side (httpPayloadInit B.database side) ⟨[], []⟩ :=
  ⟨B.follows_handler side, rfl⟩

/-- **The loader puts out the text with its keys replaced** if and only if there is room at every
byte: the bytes that it lets go are no more than two steps of the allocation hold. -/
theorem emitted_eq_reference_iff (B : RuleBase) (side : Side) (text : List UInt8) :
    (∃ h, httpPayloadLoader (httpPayloadInit B.database side) text = some h ∧
      h.emitted = (B.matcher side).reference tolower text) ↔
    FitsRun (httpPayloadInit B.database side) text := by
  obtain ⟨hrun, hnone⟩ := httpPayloadLoader_spec text (simulates_init B side)
    (B.matcher side).waiting_nil
  constructor
  · intro hall
    by_contra hnot
    obtain ⟨h, hload, -⟩ := hall
    rw [hnone hnot] at hload
    cases hload
  · intro hfits
    obtain ⟨h, hload, hemitted⟩ := hrun hfits
    refine ⟨h, hload, ?_⟩
    rw [← Rules.emit_eq_reference, hemitted]
    rfl

/-! ## A run that is let go of too late -/

theorem httpPayloadLoader_append_singleton (h : HttpModule) (text : List UInt8) (input : UInt8) :
    httpPayloadLoader h (text ++ [input]) = (httpPayloadLoader h text).bind (loadByte · input) := by
  rw [httpPayloadLoader, List.foldlM_append, ← httpPayloadLoader]
  cases httpPayloadLoader h text with
  | none => rfl
  | some h' =>
      change (loadByte h' input).bind some = _
      rw [Option.bind_some, Option.bind_fun_some]

/-- One rule, which takes `ab` to `cd`. -/
def oneRule : RuleBase := ⟨[], [.proxyDomainRename [97, 98] [99, 100]], by decide +kernel⟩

/-- The lookup after any number of `a`s. -/
def afterA : DiLookup :=
  let db := databaseTransformHandler oneRule.database .server
  { db with lookups := [⟨treeGetSibling db.otherRef 97, 1⟩] }

theorem lookup_first :
    databaseTransformLookup (databaseTransformHandler oneRule.database .server) 97 =
      (afterA, .feedMeAndHold) := by
  rw [databaseTransformLookup, transformLoop_zero]
  decide

theorem lookup_afterA : databaseTransformLookup afterA 97 = (afterA, .feedMeAndHold) := by
  rw [databaseTransformLookup, transformLoop_zero]
  decide

theorem lookup_afterA_other : (databaseTransformLookup afterA 120).2 = .notHold := by
  rw [databaseTransformLookup, transformLoop_zero]
  decide

/-- Every `a` is held. -/
theorem httpPayloadLoader_replicate (n : ℕ) : ∃ h,
    httpPayloadLoader (httpPayloadInit oneRule.database .server) (List.replicate (n + 1) 97) = some h ∧
      h.output = .zeroed ∧ h.holding.string = List.replicate (n + 1) 97 ∧ h.dbLookup = afterA := by
  induction n with
  | zero =>
      obtain ⟨holding, hload, hstring⟩ := loadByte_feedMeAndHold
        (h := httpPayloadInit oneRule.database .server) lookup_first
      refine ⟨⟨.zeroed, holding, afterA⟩, ?_, rfl, hstring, rfl⟩
      rw [httpPayloadLoader, List.replicate_one, List.foldlM_cons, hload]
      rfl
  | succ n ih =>
      obtain ⟨h, hload, houtput, hheld, hlookup⟩ := ih
      have hval : databaseTransformLookup h.dbLookup 97 = (afterA, .feedMeAndHold) := by
        rw [hlookup, lookup_afterA]
      obtain ⟨holding, hnext, hstring⟩ := loadByte_feedMeAndHold hval
      refine ⟨⟨h.output, holding, afterA⟩, ?_, houtput, ?_, rfl⟩
      · rw [List.replicate_succ', httpPayloadLoader_append_singleton, hload, Option.bind_some, hnext]
      · rw [hstring, hheld]
        exact List.replicate_succ'.symm

/-- After three thousand `a`s, another byte has them all appended to an output that has room for
two thousand and forty-eight. -/
theorem not_emitted_eq_reference_replicate : ¬ ∃ h,
    httpPayloadLoader (httpPayloadInit oneRule.database .server) (List.replicate 3000 97 ++ [120]) =
      some h ∧
    h.emitted = (oneRule.matcher .server).reference tolower (List.replicate 3000 97 ++ [120]) := by
  rintro ⟨h', hrun, -⟩
  obtain ⟨h, hload, houtput, hheld, hlookup⟩ := httpPayloadLoader_replicate 2999
  have hsize : h.holding.size = 3000 := by rw [StrT.size, hheld, List.length_replicate]
  have hletGo := letGo_strResize h.output h.holding (Nat.zero_le _) (Nat.le_add_right _ 1)
  have hfull : ¬ StrT.zeroed.size + (3000 - 0) ≤ StrT.zeroed.reserve + 2 * reserveOffset := by decide
  rw [houtput, hsize, if_neg hfull] at hletGo
  have hlast : loadByte h 120 = none := by
    obtain ⟨dbLookup, hval⟩ : ∃ d, databaseTransformLookup h.dbLookup 120 = (d, .notHold) :=
      ⟨_, Prod.ext rfl (hlookup ▸ lookup_afterA_other)⟩
    rw [loadByte, hval]
    dsimp only
    rw [houtput, hsize, hletGo, Option.bind_none]
  rw [httpPayloadLoader_append_singleton, hload, Option.bind_some, hlast] at hrun
  cases hrun

end RenaProxy.FaProxy
