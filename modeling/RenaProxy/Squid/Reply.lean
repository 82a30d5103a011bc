import RenaProxy.Squid.Controller
import RenaProxy.Lib.Rewriting
import RenaProxy.Lib.Transducer
import RenaProxy.Lib.Failure

/-!
# Adapting the body of a reply

Squid hands the body of a reply over in parts. Of a page, `adapt_body` collects 512 bytes before
it reads them with a parser of five states, which hands the values of attributes and the words
between tags to `do_all_redirects`. Anything else is collected and handed over as a whole by
`adapt_end`.

`changes_adaptReply` says of a page that nothing is lost, put out twice or in another order.
`adaptReply_handed_iff` says which other bodies are not lost.
-/
namespace RenaProxy.Squid
open StreamTransducer StreamRewriting

/-- The `ADP_ST_` constants. -/
inductive Adaptation
  | unknown
  | outsideTag
  | insideTag
  | insideAttribute
  | insideComment
  deriving DecidableEq, Repr

/-- What `state` holds of a reply. There is a `stage` from the first comment on only, which is where
it is read; `adaptation_wait` may be absent. -/
structure Reply where
  html : Bool
  ignoreText : Bool
  adaptation : Adaptation
  buffer : List UInt8
  contextAtrb : List UInt8
  contextText : List UInt8
  accum : List UInt8
  accumLimit : ℕ
  stage : ℕ
  adaptationWait : Option (List UInt8)
  deriving DecidableEq, Repr

/-- `adapt_begin` -/
def adaptBegin : Reply where
  html := false
  ignoreText := true
  adaptation := .unknown
  buffer := []
  contextAtrb := []
  contextText := []
  accum := []
  accumLimit := 512
  stage := 0
  adaptationWait := none

section Parser
variable {ε : Type} (doAllRedirects : List UInt8 → Except ε (List UInt8))

/-- `mailto:` -/
def mailto : List UInt8 := [109, 97, 105, 108, 116, 111, 58]

/-- `partial_change`. `do_all_redirects` may raise an exception. -/
def partialChange (chunk : List UInt8) (ignore : Bool) : Except ε (Option (List UInt8)) :=
  if ignore then .ok none
  else if mailto <+: chunk then .ok none
  else if chunk = [] then .ok none
  else (doAllRedirects chunk).map some

/-- What the parsers put into the buffer: what was changed, unless it is nothing, or the context. -/
def changedOr (ab : Option (List UInt8)) (context : List UInt8) : List UInt8 :=
  match ab with
  | some (c :: text) => c :: text
  | _ => context

/-- `outside_parser` -/
def outsideParser (s : Reply) (head : UInt8) : Except ε Reply :=
  if head ∈ ([32, 9, 11, 10, 13, 12, 60] : List UInt8) then do
    let ab ← partialChange doAllRedirects s.contextText s.ignoreText
    let s := { s with buffer := s.buffer ++ changedOr ab s.contextText ++ [head], contextText := [] }
    pure (if head = 60 then { s with ignoreText := true, adaptation := .insideTag } else s)
  else pure { s with contextText := s.contextText ++ [head] }

/-- `inside_parser`. The byte before the last one is compared with a string, so that it never is a
backslash. -/
def insideParser (s : Reply) (head : UInt8) : Reply :=
  let s := { s with buffer := s.buffer ++ [head] }
  let lsb := s.buffer.length
  if head = 45 ∧ lsb ≥ 3 ∧ s.buffer[lsb - 2]? = some 45 ∧ s.buffer[lsb - 3]? = some 33 then
    { s with adaptation := .insideComment, stage := 0 }
  else if head = 62 then { s with adaptation := .outsideTag }
  else if head = 61 then { s with adaptation := .insideAttribute }
  else s

/-- `ignore_comment` -/
def ignoreComment (s : Reply) (head : UInt8) : Reply :=
  let s := { s with buffer := s.buffer ++ [head] }
  if s.stage ≤ 1 ∧ head = 45 then { s with stage := s.stage + 1 }
  else if s.stage = 2 ∧ head = 62 then { s with adaptation := .outsideTag }
  else s

/-- What ends a value that is not in quotes. -/
def delim : List UInt8 := [32, 9, 11, 10, 13, 12, 62]

/-- `attribute_parser`. Here, too, nothing is a backslash. -/
def attributeParser (s : Reply) (head : UInt8) : Except ε Reply :=
  let waiting := s.adaptationWait.getD delim
  if head ∈ waiting then do
    let ab ← partialChange doAllRedirects s.contextAtrb false
    pure { s with
      buffer := s.buffer ++ changedOr ab s.contextAtrb ++ [head]
      ignoreText := if ab.getD [] ≠ [] then false else s.ignoreText
      contextAtrb := []
      adaptation := .insideTag
      adaptationWait := none }
  else
    let s := { s with contextAtrb := s.contextAtrb ++ [head] }
    if s.adaptationWait = none ∧ s.contextAtrb.length = 1 then
      let wait := if head ∈ ([39, 34] : List UInt8) then s.contextAtrb else delim
      pure { s with adaptationWait := some wait }
    else pure s

/-- The function that `adaptation_functions` has for the state. -/
def adaptationFunction (s : Reply) (head : UInt8) : Except ε Reply :=
  match s.adaptation with
  | .unknown => outsideParser doAllRedirects s head
  | .outsideTag => outsideParser doAllRedirects s head
  | .insideTag => pure (insideParser s head)
  | .insideComment => pure (ignoreComment s head)
  | .insideAttribute => attributeParser doAllRedirects s head

/-- The loop of `incremental_adaptation`: the state, and whether no exception ended it. An exception
leaves the state as it was before the byte. -/
def incrementalAdaptation : Reply → List UInt8 → Reply × Bool
  | s, [] => (s, true)
  | s, head :: bodyText =>
      match adaptationFunction doAllRedirects s head with
      | .ok s' => incrementalAdaptation s' bodyText
      | .error _ => (s, false)

/-- `adapt_body`, which returns `None` after an exception. -/
def adaptBody (s : Reply) (bodyText : List UInt8) (force : Bool) : Reply × Option (List UInt8) :=
  let s := { s with accum := s.accum ++ bodyText }
  if ¬ s.html then
    if ¬ force then (s, some [])
    else
      match partialChange doAllRedirects s.accum false with
      | .ok ret => ({ s with buffer := [], accum := [] }, ret)
      | .error _ => (s, none)
  else if ¬ force ∧ s.accum.length < s.accumLimit then (s, some [])
  else
    match incrementalAdaptation doAllRedirects s s.accum with
    | (s', true) => ({ s' with buffer := [], accum := [] }, some s'.buffer)
    | (s', false) => (s', none)

/-- `adapt_end`. It cannot append to the `None` of `adapt_body` and returns `None` then. -/
def adaptEnd (s : Reply) : Option (List UInt8) :=
  if s.accum ≠ [] then
    match adaptBody doAllRedirects { s with accum := [] } s.accum true with
    | (s', some ret) =>
        let ret := ret ++ s'.contextAtrb ++ s'.contextText
        if ret ≠ [] then some ret else none
    | (_, none) => none
  else
    let ret := s.contextAtrb ++ s.contextText
    if ret ≠ [] then some ret else none

/-- What `adapt_body` returns for the parts of a body, put together; `None` puts nothing out. -/
def adaptBodies : Reply → List (List UInt8) → Reply × List UInt8 :=
  trace fun s bodyText =>
    let r := adaptBody doAllRedirects s bodyText false
    (r.1, r.2.getD [])

/-- What becomes of a body that comes in these parts. -/
def adaptReply (html : Bool) (parts : List (List UInt8)) : List UInt8 :=
  let r := adaptBodies doAllRedirects { adaptBegin with html := html } parts
  r.2 ++ (adaptEnd doAllRedirects r.1).getD []

end Parser

/-! ## Nothing is lost of a page -/

section Page
variable {R : List UInt8 → List UInt8} {s : Reply} {head : UInt8} {text : List UInt8}

/-- A function in the place of `do_all_redirects` that raises no exception. -/
def total (R : List UInt8 → List UInt8) : List UInt8 → Except Empty (List UInt8) := fun chunk => .ok (R chunk)

/-- The text is put out with some parts of it replaced. -/
def Changes (R : List UInt8 → List UInt8) : List UInt8 → List UInt8 → Prop :=
  Rewrites id (fun _ => True) R

theorem changes_self (R : List UInt8 → List UInt8) (t : List UInt8) : Changes R t t := Rewrites.refl t

theorem changes_whole (R : List UInt8 → List UInt8) (t : List UInt8) : Changes R t (R t) := by
  have h : Rewrites id (fun _ => True) R t (R (t.map id)) := .swap trivial
  rwa [List.map_id] at h

/-- A chunk is handed over or stays as it is. -/
theorem partialChange_total (chunk : List UInt8) (ignore : Bool) :
    ∃ ab, partialChange (total R) chunk ignore = .ok ab ∧ Changes R chunk (changedOr ab chunk) := by
  have hkeep : Changes R chunk (changedOr none chunk) := changes_self R chunk
  rw [partialChange]
  split_ifs
  · exact ⟨none, rfl, hkeep⟩
  · exact ⟨none, rfl, hkeep⟩
  · exact ⟨none, rfl, hkeep⟩
  · refine ⟨some (R chunk), rfl, ?_⟩
    cases h : R chunk with
    | nil => exact hkeep
    | cons c text => exact (h ▸ changes_whole R chunk : Changes R chunk (c :: text))

namespace Reply

/-- What was read and is not in the buffer. -/
def pending (s : Reply) : List UInt8 := s.contextAtrb ++ s.contextText

/-- Of the two contexts only the one of the parser at work holds something, and only inside an
attribute its end is known. -/
structure Shaped (s : Reply) : Prop where
  wait : s.adaptation ≠ .insideAttribute → s.adaptationWait = none
  atrb : s.adaptation ≠ .insideAttribute → s.contextAtrb = []
  text : s.adaptation = .insideTag ∨ s.adaptation = .insideAttribute ∨
    s.adaptation = .insideComment → s.contextText = []

/-- What the parser of the state does not touch. -/
structure Kept (s s' : Reply) : Prop where
  html : s'.html = s.html
  accum : s'.accum = s.accum
  accumLimit : s'.accumLimit = s.accumLimit

/-- What a parser does with a byte: it keeps it for later, or puts it out behind what it kept. -/
inductive Step (R : List UInt8 → List UInt8) (s s' : Reply) (head : UInt8) : Prop
  | keep (buffer : s'.buffer = s.buffer) (pending : s'.pending = s.pending ++ [head])
  | put (text : List UInt8) (changes : Changes R s.pending text)
      (buffer : s'.buffer = s.buffer ++ text ++ [head]) (pending : s'.pending = [])

end Reply

theorem outsideParser_total (S : s.Shaped)
    (hout : s.adaptation = .unknown ∨ s.adaptation = .outsideTag) :
    ∃ s', outsideParser (total R) s head = .ok s' ∧ s'.Shaped ∧ s.Kept s' ∧ s.Step R s' head := by
  have hne : s.adaptation ≠ .insideAttribute := by rcases hout with h | h <;> simp [h]
  have hatrb := S.atrb hne
  have hwait := S.wait hne
  obtain ⟨ab, hab, hchanges⟩ := partialChange_total (R := R) s.contextText s.ignoreText
  have hpending : s.pending = s.contextText := by rw [Reply.pending, hatrb, List.nil_append]
  have hnil : s.contextAtrb ++ [] = [] := by rw [hatrb, List.append_nil]
  rw [outsideParser, hab]
  split_ifs with hmem hlt
  · exact ⟨_, rfl, ⟨fun _ => hwait, fun _ => hatrb, fun _ => rfl⟩, ⟨rfl, rfl, rfl⟩,
      .put _ (hpending ▸ hchanges) rfl hnil⟩
  · exact ⟨_, rfl, ⟨fun _ => hwait, fun _ => hatrb, fun _ => rfl⟩, ⟨rfl, rfl, rfl⟩,
      .put _ (hpending ▸ hchanges) rfl hnil⟩
  · refine ⟨_, rfl, ⟨fun _ => hwait, fun _ => hatrb, ?_⟩, ⟨rfl, rfl, rfl⟩,
      .keep rfl (List.append_assoc _ _ _).symm⟩
    intro h
    rcases hout with hout | hout
    · exact absurd h (by simp [hout])
    · exact absurd h (by simp [hout])

theorem attributeParser_total (htext : s.contextText = []) (hin : s.adaptation = .insideAttribute) :
    ∃ s', attributeParser (total R) s head = .ok s' ∧ s'.Shaped ∧ s.Kept s' ∧ s.Step R s' head := by
  obtain ⟨ab, hab, hchanges⟩ := partialChange_total (R := R) s.contextAtrb false
  have hpending : s.pending = s.contextAtrb := by rw [Reply.pending, htext, List.append_nil]
  have hkeep : s.contextAtrb ++ [head] ++ s.contextText = s.pending ++ [head] := by
    rw [hpending, htext, List.append_nil]
  rw [attributeParser, hab]
  dsimp only
  split_ifs with hmem hwait
  · exact ⟨_, rfl, ⟨fun _ => rfl, fun _ => rfl, fun _ => htext⟩, ⟨rfl, rfl, rfl⟩,
      .put _ (hpending ▸ hchanges) rfl htext⟩
  · exact ⟨_, rfl, ⟨fun h => absurd hin h, fun h => absurd hin h, fun _ => htext⟩, ⟨rfl, rfl, rfl⟩,
      .keep rfl hkeep⟩
  · exact ⟨_, rfl, ⟨fun h => absurd hin h, fun h => absurd hin h, fun _ => htext⟩, ⟨rfl, rfl, rfl⟩,
      .keep rfl hkeep⟩
  · exact ⟨_, rfl, ⟨fun h => absurd hin h, fun h => absurd hin h, fun _ => htext⟩, ⟨rfl, rfl, rfl⟩,
      .keep rfl hkeep⟩

/-- The parsers without a context of their own put every byte out. -/
theorem put_of_buffer {s' : Reply} (S : s.Shaped)
    (hin : s.adaptation = .insideTag ∨ s.adaptation = .insideComment)
    (hbuffer : s'.buffer = s.buffer ++ [head]) (hatrb : s'.contextAtrb = s.contextAtrb)
    (htext : s'.contextText = s.contextText) (hwait : s'.adaptationWait = s.adaptationWait) :
    s'.Shaped ∧ s.Step R s' head := by
  have hne : s.adaptation ≠ .insideAttribute := by rcases hin with h | h <;> simp [h]
  have hatrb' := hatrb.trans (S.atrb hne)
  have htext' := htext.trans (S.text (hin.imp_right .inr))
  have hpending : s.pending = [] := by rw [Reply.pending, ← hatrb, ← htext, hatrb', htext']; rfl
  refine ⟨⟨fun _ => hwait.trans (S.wait hne), fun _ => hatrb', fun _ => htext'⟩, .put [] ?_ ?_ ?_⟩
  · exact hpending ▸ changes_self R []
  · rw [hbuffer, List.append_nil]
  · rw [Reply.pending, hatrb', htext']
    rfl

theorem insideParser_kept (s : Reply) (head : UInt8) : s.Kept (insideParser s head) ∧
    (insideParser s head).buffer = s.buffer ++ [head] ∧
    (insideParser s head).contextAtrb = s.contextAtrb ∧
    (insideParser s head).contextText = s.contextText ∧
    (insideParser s head).adaptationWait = s.adaptationWait := by
  rw [insideParser]
  split_ifs <;> exact ⟨⟨rfl, rfl, rfl⟩, rfl, rfl, rfl, rfl⟩

theorem ignoreComment_kept (s : Reply) (head : UInt8) : s.Kept (ignoreComment s head) ∧
    (ignoreComment s head).buffer = s.buffer ++ [head] ∧
    (ignoreComment s head).contextAtrb = s.contextAtrb ∧
    (ignoreComment s head).contextText = s.contextText ∧
    (ignoreComment s head).adaptationWait = s.adaptationWait := by
  rw [ignoreComment]
  dsimp only
  split_ifs <;> exact ⟨⟨rfl, rfl, rfl⟩, rfl, rfl, rfl, rfl⟩

/-- **What a byte does**: it is kept for later or put out behind what was kept. -/
theorem adaptationFunction_total (S : s.Shaped) (head : UInt8) :
    ∃ s', adaptationFunction (total R) s head = .ok s' ∧
    s'.Shaped ∧ s.Kept s' ∧ s.Step R s' head := by
  cases hs : s.adaptation with
  | unknown =>
      rw [adaptationFunction, hs]
      exact outsideParser_total S (.inl hs)
  | outsideTag =>
      rw [adaptationFunction, hs]
      exact outsideParser_total S (.inr hs)
  | insideTag =>
      obtain ⟨hkept, hbuffer, hatrb, htext, hwait⟩ := insideParser_kept s head
      obtain ⟨hshaped, hstep⟩ := put_of_buffer (R := R) S (.inl hs) hbuffer hatrb htext hwait
      exact ⟨_, by rw [adaptationFunction, hs]; rfl, hshaped, hkept, hstep⟩
  | insideAttribute =>
      rw [adaptationFunction, hs]
      exact attributeParser_total (S.text (.inr (.inl hs))) hs
  | insideComment =>
      obtain ⟨hkept, hbuffer, hatrb, htext, hwait⟩ := ignoreComment_kept s head
      obtain ⟨hshaped, hstep⟩ := put_of_buffer (R := R) S (.inr hs) hbuffer hatrb htext hwait
      exact ⟨_, by rw [adaptationFunction, hs]; rfl, hshaped, hkept, hstep⟩

/-- What every step keeps is kept by all of them. -/
theorem incremental_of_step {ε : Type} {f : List UInt8 → Except ε (List UInt8)} {P : List UInt8 → Reply → Prop}
    (read : List UInt8)
    (hstep : ∀ read s head, P read s → ∃ s', adaptationFunction f s head = .ok s' ∧ P (read ++ [head]) s')
    (h : P read s) (text : List UInt8) :
    ∃ s', incrementalAdaptation f s text = (s', true) ∧ P (read ++ text) s' := by
  induction text generalizing s read with
  | nil => exact ⟨s, rfl, by rwa [List.append_nil]⟩
  | cons head text ih =>
      obtain ⟨s₁, hfirst, h₁⟩ := hstep read s head h
      obtain ⟨s', hrest, h'⟩ := ih _ h₁
      refine ⟨s', ?_, by rwa [List.append_assoc] at h'⟩
      rw [incrementalAdaptation, hfirst]
      exact hrest

theorem Reply.Kept.trans {s₁ s₂ s₃ : Reply} (h : s₁.Kept s₂) (h' : s₂.Kept s₃) : s₁.Kept s₃ :=
  ⟨h'.html.trans h.html, h'.accum.trans h.accum, h'.accumLimit.trans h.accumLimit⟩

/-- The state after some text. -/
def after (R : List UInt8 → List UInt8) (s : Reply) (text : List UInt8) : Reply :=
  (incrementalAdaptation (total R) s text).1

/-- Nothing ends the loop early. -/
theorem incremental_total (S : s.Shaped) (text : List UInt8) :
    incrementalAdaptation (total R) s text = (after R s text, true) ∧
      (after R s text).Shaped ∧ s.Kept (after R s text) := by
  have hstep : ∀ (read : List UInt8) (s₁ : Reply) (head : UInt8), s₁.Shaped ∧ s.Kept s₁ →
      ∃ s₂, adaptationFunction (total R) s₁ head = .ok s₂ ∧ s₂.Shaped ∧ s.Kept s₂ := by
    rintro - s₁ head ⟨S₁, hkept⟩
    obtain ⟨s₂, hstep, hshaped, hkept', -⟩ := adaptationFunction_total (R := R) S₁ head
    exact ⟨s₂, hstep, hshaped, hkept.trans hkept'⟩
  obtain ⟨s', hrun, h⟩ := incremental_of_step [] hstep ⟨S, rfl, rfl, rfl⟩ text
  rw [after, hrun]
  exact ⟨rfl, h⟩

/-- A call of `adapt_body` collects its part, or reads all that was collected. -/
theorem adaptBody_total (S : s.Shaped) (hhtml : s.html = true) (part : List UInt8) :
    adaptBody (total R) s part false =
      if (s.accum ++ part).length < s.accumLimit then ({ s with accum := s.accum ++ part }, some [])
      else
        let s' := after R { s with accum := s.accum ++ part } (s.accum ++ part)
        ({ s' with buffer := [], accum := [] }, some s'.buffer) := by
  have S' : ({ s with accum := s.accum ++ part } : Reply).Shaped := ⟨S.wait, S.atrb, S.text⟩
  rw [adaptBody]
  dsimp only
  rw [if_neg (not_not.mpr hhtml)]
  by_cases hlimit : (s.accum ++ part).length < s.accumLimit
  · rw [if_pos ⟨Bool.false_ne_true, hlimit⟩, if_pos hlimit]
  · rw [if_neg fun h => hlimit h.2, if_neg hlimit, (incremental_total S' _).1]

theorem getD_ite_ne_nil (ret : List UInt8) : (if ret ≠ [] then some ret else none).getD [] = ret := by
  split_ifs with h
  · rfl
  · exact (not_not.mp h).symm

/-- `adapt_end` reads what is left and puts out what is pending. -/
theorem adaptEnd_total (S : s.Shaped) (hhtml : s.html = true) (hbuffer : s.buffer = []) :
    (adaptEnd (total R) s).getD [] = (after R s s.accum).buffer ++ (after R s s.accum).pending := by
  rw [adaptEnd]
  by_cases haccum : s.accum = []
  · rw [if_neg (not_not.mpr haccum), getD_ite_ne_nil, haccum]
    change s.pending = s.buffer ++ s.pending
    rw [hbuffer, List.nil_append]
  · have hforce : adaptBody (total R) { s with accum := [] } s.accum true =
        ({ after R s s.accum with buffer := [], accum := [] }, some (after R s s.accum).buffer) := by
      have hself : ({ s with accum := [] ++ s.accum } : Reply) = s := rfl
      rw [adaptBody]
      dsimp only
      rw [if_neg (not_not.mpr hhtml), if_neg fun h => h.1 rfl, hself, List.nil_append,
        (incremental_total S _).1]
    rw [if_pos haccum, hforce]
    dsimp only
    rw [getD_ite_ne_nil, List.append_assoc]
    rfl

/-- Of what was read everything is put out, in the buffer or pending. -/
structure Accounts (R : List UInt8 → List UInt8) (out read : List UInt8) (s : Reply) : Prop where
  shaped : s.Shaped
  changes : ∃ done, read = done ++ s.pending ∧ Changes R done (out ++ s.buffer)

variable {s' : Reply} {out read : List UInt8}

theorem Accounts.step (A : Accounts R out read s) (hshaped : s'.Shaped) (hstep : s.Step R s' head) :
    Accounts R out (read ++ [head]) s' := by
  obtain ⟨done, rfl, hchanges⟩ := A.changes
  refine ⟨hshaped, ?_⟩
  cases hstep with
  | keep hbuffer hpending =>
      exact ⟨done, by rw [hpending, List.append_assoc], by rw [hbuffer]; exact hchanges⟩
  | put text htext hbuffer hpending =>
      refine ⟨done ++ s.pending ++ [head], by rw [hpending, List.append_nil], ?_⟩
      rw [hbuffer, ← List.append_assoc, ← List.append_assoc]
      exact (hchanges.append htext).append (changes_self R [head])

theorem Accounts.after (A : Accounts R out read s) (text : List UInt8) :
    Accounts R out (read ++ text) (after R s text) := by
  have hstep : ∀ read s₁ head, Accounts R out read s₁ →
      ∃ s₂, adaptationFunction (total R) s₁ head = .ok s₂ ∧ Accounts R out (read ++ [head]) s₂ := by
    intro read s₁ head A₁
    obtain ⟨s₂, hstep, hshaped, -, h⟩ := adaptationFunction_total A₁.shaped head
    exact ⟨s₂, hstep, A₁.step hshaped h⟩
  obtain ⟨s', hrun, A'⟩ := incremental_of_step read hstep A text
  rw [Squid.after, hrun]
  exact A'

/-- Between two calls: what came is read or collected. -/
structure Between (R : List UInt8 → List UInt8) (out body : List UInt8) (s : Reply) : Prop where
  html : s.html = true
  buffer : s.buffer = []
  accounts : ∃ read, body = read ++ s.accum ∧ Accounts R out read s

theorem between_adaptBegin (R : List UInt8 → List UInt8) :
    Between R [] [] { adaptBegin with html := true } :=
  ⟨rfl, rfl, [], rfl, ⟨fun _ => rfl, fun _ => rfl, fun _ => rfl⟩, [], rfl, changes_self R []⟩

variable {body : List UInt8}

theorem Between.adaptBody (B : Between R out body s) (part : List UInt8) :
    Between R (out ++ (adaptBody (total R) s part false).2.getD []) (body ++ part)
      (adaptBody (total R) s part false).1 := by
  obtain ⟨read, rfl, A⟩ := B.accounts
  have A' : Accounts R out read { s with accum := s.accum ++ part } :=
    ⟨⟨A.shaped.wait, A.shaped.atrb, A.shaped.text⟩, A.changes⟩
  rw [adaptBody_total A.shaped B.html, List.append_assoc]
  split_ifs with hlimit
  · rw [Option.getD_some, List.append_nil]
    exact ⟨B.html, B.buffer, read, rfl, A'⟩
  · have hkept := (incremental_total (R := R) A'.shaped (s.accum ++ part)).2.2
    have A'' := A'.after (s.accum ++ part)
    obtain ⟨done, hdone, hchanges⟩ := A''.changes
    refine ⟨hkept.html.trans B.html, rfl, _, (List.append_nil _).symm,
      ⟨A''.shaped.wait, A''.shaped.atrb, A''.shaped.text⟩, done, hdone, ?_⟩
    dsimp only
    rwa [Option.getD_some, List.append_nil]

theorem Between.adaptBodies (B : Between R out body s) (parts : List (List UInt8)) :
    Between R (out ++ (adaptBodies (total R) s parts).2) (body ++ parts.flatten)
      (adaptBodies (total R) s parts).1 := by
  induction parts generalizing s out body with
  | nil => simpa [Squid.adaptBodies] using B
  | cons part parts ih =>
      have hrest := ih (B.adaptBody part)
      rw [List.append_assoc, List.append_assoc] at hrest
      exact hrest

/-- What is left at the end comes behind everything else. -/
theorem Between.adaptEnd (B : Between R out body s) :
    Changes R body (out ++ (adaptEnd (total R) s).getD []) := by
  obtain ⟨read, rfl, A⟩ := B.accounts
  obtain ⟨done, hdone, hchanges⟩ := (A.after s.accum).changes
  rw [adaptEnd_total A.shaped B.html B.buffer, ← List.append_assoc, hdone]
  exact hchanges.append (changes_self R _)

/-- **A page is put out with some parts of it replaced**, whatever the function in the place of
`do_all_redirects` is and in whatever parts the page comes. -/
theorem changes_adaptReply (R : List UInt8 → List UInt8) (parts : List (List UInt8)) :
    Rewrites id (fun _ => True) R parts.flatten (adaptReply (total R) true parts) := by
  have B := (between_adaptBegin R).adaptBodies parts
  exact B.adaptEnd

end Page

/-! ## What is lost of another body -/

section Text
variable {ε : Type} {doAllRedirects : List UInt8 → Except ε (List UInt8)} {s : Reply}

/-- What is asked of the adapter for a body that is not a page: it is changed as a whole, or stays
as it is where `partial_change` is not meant to change it. -/
def Handed (doAllRedirects : List UInt8 → Except ε (List UInt8)) (body out : List UInt8) : Prop :=
  if mailto <+: body ∨ body = [] then out = body else doAllRedirects body = .ok out

/-- All of the body is collected. -/
theorem adaptBodies_text (hhtml : s.html = false) (parts : List (List UInt8)) :
    adaptBodies doAllRedirects s parts = ({ s with accum := s.accum ++ parts.flatten }, []) := by
  induction parts generalizing s with
  | nil =>
      rw [List.flatten_nil, List.append_nil]
      rfl
  | cons part parts ih =>
      have hpart : adaptBody doAllRedirects s part false = ({ s with accum := s.accum ++ part }, some []) := by
        rw [adaptBody, if_pos (by simp [hhtml]), if_pos Bool.false_ne_true]
      have hrest := ih (s := { s with accum := s.accum ++ part }) hhtml
      rw [adaptBodies, trace_cons, hpart, ← adaptBodies]
      dsimp only at hrest ⊢
      rw [hrest, List.flatten_cons, List.append_assoc]
      rfl

/-- What becomes of it at the end. -/
theorem adaptReply_text (parts : List (List UInt8)) : adaptReply doAllRedirects false parts =
    (match partialChange doAllRedirects parts.flatten false with
      | .ok (some ret) => ret
      | _ => []) := by
  rw [adaptReply, adaptBodies_text rfl]
  dsimp only
  rw [List.nil_append, adaptEnd]
  by_cases hnil : parts.flatten = []
  · have hempty : partialChange doAllRedirects [] false = .ok none := rfl
    rw [hnil, hempty]
    rfl
  · rw [if_pos (by simpa [adaptBegin] using hnil), adaptBody]
    dsimp only [adaptBegin]
    rw [if_pos Bool.false_ne_true, if_neg (not_not.mpr rfl), List.nil_append, List.nil_append]
    cases partialChange doAllRedirects parts.flatten false with
    | error e => rfl
    | ok ab =>
        cases ab with
        | none => rfl
        | some ret =>
            dsimp only
            rw [List.append_nil, List.append_nil, getD_ite_ne_nil]

/-- **A body that is not a page is handed over**, in whatever parts it comes, unless it begins with
`mailto:` or `do_all_redirects` raises an exception. -/
theorem adaptReply_handed_iff (doAllRedirects : List UInt8 → Except ε (List UInt8))
    (parts : List (List UInt8)) :
    Handed doAllRedirects parts.flatten (adaptReply doAllRedirects false parts) ↔
      ¬ mailto <+: parts.flatten ∧
        (parts.flatten ≠ [] → ∃ new, doAllRedirects parts.flatten = .ok new) := by
  rw [adaptReply_text, Handed, partialChange, if_neg Bool.false_ne_true]
  by_cases hmailto : mailto <+: parts.flatten
  · have hne : [] ≠ parts.flatten := fun hnil => absurd (hnil ▸ hmailto) (by decide)
    rw [if_pos (.inl hmailto), if_pos hmailto]
    exact iff_of_false hne fun h => h.1 hmailto
  by_cases hnil : parts.flatten = []
  · rw [if_pos (.inr hnil), if_neg hmailto, if_pos hnil]
    exact iff_of_true hnil.symm ⟨hmailto, fun h => absurd hnil h⟩
  rw [if_neg (not_or.mpr ⟨hmailto, hnil⟩), if_neg hmailto, if_neg hnil]
  cases hredirect : doAllRedirects parts.flatten with
  | error e =>
      refine iff_of_false (by simp) ?_
      rintro ⟨-, h⟩
      obtain ⟨new, hnew⟩ := h hnil
      cases hnew
  | ok new => exact iff_of_true rfl ⟨hmailto, fun _ => ⟨new, rfl⟩⟩

/-- A text that only seems to be a link to an address is lost. -/
theorem not_adaptReply_handed : ¬ Handed
    (total (ProxyController.init [101, 122] []).doAllRedirects) (mailto ++ [97])
    (adaptReply (total (ProxyController.init [101, 122] []).doAllRedirects) false
      [mailto ++ [97]]) := by
  intro h
  rw [Handed, if_pos (.inl (List.prefix_append mailto [97]))] at h
  exact absurd h (by decide +kernel)

end Text

end RenaProxy.Squid
