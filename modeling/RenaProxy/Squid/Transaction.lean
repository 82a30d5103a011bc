import RenaProxy.Squid.HeaderVisitor
import RenaProxy.Lib.History
import RenaProxy.Lib.Failure

/-!
# The transaction of a message

A transaction stands between the host and the logic that adapts a message. The host calls it when
there is more of the virgin body, when there is no more, and to read of the adapted one, in an order
of its own; the transaction calls the host back. What it has adapted and the host has not yet taken
is in its buffer.

`Past` says what a transaction does by the calls that came before, without a state of its own:
`describes` is the refinement, `transact_eq_ok_iff` says it of whole runs.
-/
namespace RenaProxy.Squid
open StreamTransducer

/-- What a module of adaptation provides. Its functions catch their exceptions. -/
structure Logic (σ : Type) where
  adaptBegin : σ
  adaptHeader : σ → List UInt8 → List UInt8 → σ × ℤ × Option (List UInt8)
  adaptBody : σ → List UInt8 → σ × Option (List UInt8)
  adaptEnd : σ → Option (List UInt8)

/-- `OperationState` -/
inductive OperationState
  | undecided
  | on
  | complete
  | never
  deriving DecidableEq, Repr

/-- A message: the header, and whether there is a body. -/
structure Message (H : Type) where
  header : H
  body : Bool
  deriving DecidableEq, Repr

/-- `Xaction`. Of the host it knows the virgin message; `internal` is `NULL` before `start` and
after the end of the body. -/
@[ext] structure Xaction (σ H : Type) where
  hostx : Option (Message H)
  buffer : List UInt8
  internal : Option σ
  receivingVb : OperationState
  sendingAb : OperationState
  deriving DecidableEq, Repr

/-- What ends a call early: a `Must` that does not hold, an offset behind the end of the buffer, or
a call through `hostx` when it is `NULL`. -/
inductive Fault
  | must
  | outOfRange
  | null
  deriving DecidableEq, Repr

/-- What comes out of a call: the calls of the host, and what `abContent` returns. -/
inductive Effect (H : Type)
  | vbMake
  | vbMakeMore
  | vbContent
  | vbContentShift (size : ℕ)
  | vbStopMaking
  | useAdapted (adapted : Message H)
  | noteAbContentAvailable
  | noteAbContentDone (atEnd : Bool)
  | area (content : List UInt8)
  deriving DecidableEq, Repr

/-- The calls of a started transaction. With `noteVbContentAvailable` goes what the host returns for
`vbContent`. -/
inductive Call
  | stop
  | abDiscard
  | abMake
  | abMakeMore
  | abStopMaking
  | abContent (offset size : ℕ)
  | abContentShift (size : ℕ)
  | noteVbContentDone (atEnd : Bool)
  | noteVbContentAvailable (vb : List UInt8)
  deriving DecidableEq, Repr

/-! ## The service -/

namespace Logic
variable {σ : Type} (L : Logic σ)

/-- `BaseService::adaptBody`. What Python has no new value for stays as it is, and so does what is
handed over without a state, which cannot be made an argument. -/
def baseAdaptBody (internal : Option σ) (vb output : List UInt8) : Option σ × List UInt8 :=
  match internal with
  | none => (none, output ++ vb)
  | some state =>
      let (state, ab) := L.adaptBody state vb
      (some state, output ++ ab.getD vb)

/-- `BaseService::adaptEnd`, which drops the state. -/
def baseAdaptEnd (internal : Option σ) (output : List UInt8) : Option σ × List UInt8 :=
  match internal with
  | none => (none, output)
  | some state => (none, output ++ (L.adaptEnd state).getD [])

end Logic

/-! ## The calls -/

namespace Xaction
variable {σ H : Type} (L : Logic σ) (x : Xaction σ H)

/-- The constructor. -/
def new (hostx : Message H) : Xaction σ H where
  hostx := some hostx
  buffer := []
  internal := none
  receivingVb := .undecided
  sendingAb := .undecided

/-- `Must` -/
def must (condition : Prop) [Decidable condition] : Except Fault Unit :=
  if condition then .ok () else .error .must

/-- The host, for a call. -/
def host : Except Fault (Message H) :=
  match x.hostx with
  | some msg => .ok msg
  | none => .error .null

/-- `stopVb` -/
def stopVb : Except Fault (Xaction σ H × List (Effect H)) :=
  if x.receivingVb = .on then do
    let _ ← x.host
    pure ({ x with receivingVb := .complete }, [.vbStopMaking])
  else do
    must (x.receivingVb ≠ .undecided)
    pure (x, [])

/-- `abDiscard` -/
def abDiscard : Except Fault (Xaction σ H × List (Effect H)) := do
  must (x.sendingAb = .undecided)
  stopVb { x with sendingAb := .never }

/-- `abMake` -/
def abMake : Except Fault (Xaction σ H × List (Effect H)) := do
  must (x.sendingAb = .undecided)
  let virgin ← x.host
  must (virgin.body = true)
  must (x.receivingVb = .on ∨ x.receivingVb = .complete)
  pure ({ x with sendingAb := .on }, if x.buffer ≠ [] then [.noteAbContentAvailable] else [])

/-- `abMakeMore` -/
def abMakeMore : Except Fault (Xaction σ H × List (Effect H)) := do
  must (x.receivingVb = .on)
  let _ ← x.host
  pure (x, [.vbMakeMore])

/-- `abStopMaking` -/
def abStopMaking : Except Fault (Xaction σ H × List (Effect H)) :=
  stopVb { x with sendingAb := .complete }

/-- `abContent` -/
def abContent (offset size : ℕ) : Except Fault (Xaction σ H × List (Effect H)) := do
  must (x.sendingAb = .on ∨ x.sendingAb = .complete)
  if offset ≤ x.buffer.length then pure (x, [.area ((x.buffer.drop offset).take size)])
  else .error .outOfRange

/-- `abContentShift` -/
def abContentShift (size : ℕ) : Except Fault (Xaction σ H × List (Effect H)) := do
  must (x.sendingAb = .on ∨ x.sendingAb = .complete)
  pure ({ x with buffer := x.buffer.drop size }, [])

/-- `notifyAdaptContent` -/
def notifyAdaptContent (atEnd isFinal : Bool) : Except Fault (List (Effect H)) :=
  if x.sendingAb = .on then do
    let _ ← x.host
    pure [if isFinal = false then .noteAbContentAvailable else .noteAbContentDone atEnd]
  else pure []

/-- `noteVbContentDone` -/
def noteVbContentDone (atEnd : Bool) : Except Fault (Xaction σ H × List (Effect H)) := do
  must (x.receivingVb = .on)
  if x.sendingAb = .on then
    let (internal, buffer) := L.baseAdaptEnd x.internal x.buffer
    let x := { x with internal := internal, buffer := buffer }
    let notes ← x.notifyAdaptContent atEnd true
    let (x, stops) ← stopVb { x with sendingAb := .complete }
    pure (x, notes ++ stops)
  else x.stopVb

/-- `noteVbContentAvailable` -/
def noteVbContentAvailable (vb : List UInt8) : Except Fault (Xaction σ H × List (Effect H)) := do
  must (x.receivingVb = .on)
  let _ ← x.host
  let (internal, buffer) := L.baseAdaptBody x.internal vb x.buffer
  let x := { x with internal := internal, buffer := buffer }
  let notes ← x.notifyAdaptContent false false
  pure (x, .vbContent :: .vbContentShift vb.length :: notes)

/-- The call itself. -/
def step (x : Xaction σ H) : Call → Except Fault (Xaction σ H × List (Effect H))
  | .stop => .ok ({ x with hostx := none }, [])
  | .abDiscard => x.abDiscard
  | .abMake => x.abMake
  | .abMakeMore => x.abMakeMore
  | .abStopMaking => x.abStopMaking
  | .abContent offset size => x.abContent offset size
  | .abContentShift size => x.abContentShift size
  | .noteVbContentDone atEnd => x.noteVbContentDone L atEnd
  | .noteVbContentAvailable vb => x.noteVbContentAvailable L vb

section Start
variable (E : EcapHeader H) (uri : List UInt8)

/-- The visit of the headers. -/
def headerVisitor (header : H) : HeaderVisitor σ :=
  (E.fields header).foldl (fun hv f => hv.visit L.adaptHeader f.1 f.2) ⟨∅, ∅, L.adaptBegin⟩

/-- `X-Ecap` -/
def xEcap : List UInt8 := [88, 45, 69, 99, 97, 112]

/-- The adapted message, whose last field names the host. -/
def adapted (virgin : Message H) : Message H :=
  { virgin with
    header := E.add ((headerVisitor L E virgin.header).applyChanges E virgin.header) xEcap
      (.fromTempString uri) }

/-- `start` -/
def start : Except Fault (Xaction σ H × List (Effect H)) := do
  match x.hostx with
  | none => .error .must
  | some virgin =>
      let x := { x with internal := some (headerVisitor L E virgin.header).state }
      let adapted := adapted L E uri virgin
      if virgin.body then
        pure ({ x with receivingVb := .on }, [.vbMake, .useAdapted adapted])
      else
        pure ({ x with receivingVb := .never, sendingAb := .never, hostx := none },
          [.useAdapted adapted])

end Start

end Xaction

/-! ## The calls that came before -/

/-- The calls so far, the last of them first. -/
abbrev Past := List Call

/-- The adapted text of the parts of a body: what `adaptBody` has no value for stays as it is. -/
def Logic.bodies {σ : Type} (L : Logic σ) : σ → List (List UInt8) → σ × List UInt8 :=
  trace fun state vb => ((L.adaptBody state vb).1, (L.adaptBody state vb).2.getD vb)

namespace Past

/-- No more of the virgin body comes after this call. -/
def closes : Call → Bool
  | .abDiscard => true
  | .abStopMaking => true
  | .noteVbContentDone _ => true
  | _ => false

/-- No more of the virgin body comes. -/
def closed (h : Past) : Bool := h.any closes

/-- The host has said whether it wants the adapted body. -/
def Decided (h : Past) : Prop := .abMake ∈ h ∨ .abDiscard ∈ h ∨ .abStopMaking ∈ h

/-- The host may read. It may, too, after it has said that it wants no more. -/
def Offered (h : Past) : Prop := .abMake ∈ h ∨ .abStopMaking ∈ h

/-- The parts of the virgin body, the first of them first. -/
def parts : Past → List (List UInt8)
  | [] => []
  | .noteVbContentAvailable vb :: h => parts h ++ [vb]
  | _ :: h => parts h

/-- The end of the virgin body came when the adapted body was wanted. -/
def ended : Past → Bool
  | [] => false
  | .noteVbContentDone _ :: h => decide (.abMake ∈ h) || ended h
  | _ :: h => ended h

instance (h : Past) : Decidable h.Decided := inferInstanceAs (Decidable (_ ∨ _))

instance (h : Past) : Decidable h.Offered := inferInstanceAs (Decidable (_ ∨ _))

section Text
variable {σ : Type} (L : Logic σ) (s₀ : σ)

/-- All of the adapted body that there is so far. -/
def made (h : Past) : List UInt8 :=
  (L.bodies s₀ h.parts).2 ++
    if h.ended then (L.adaptEnd (L.bodies s₀ h.parts).1).getD [] else []

/-- How much of it the host has taken. -/
def taken : Past → ℕ
  | [] => 0
  | .abContentShift size :: h => min (taken h + size) (made L s₀ h).length
  | _ :: h => taken h

/-- The rest. -/
def remaining (h : Past) : List UInt8 := (made L s₀ h).drop (taken L s₀ h)

/-- **The calls that a transaction does not fail at**, after those before. -/
def permitted (h : Past) : Call → Prop
  | .stop => True
  | .abDiscard => ¬ h.Decided ∧ (h.closed ∨ .stop ∉ h)
  | .abMake => ¬ h.Decided ∧ .stop ∉ h
  | .abMakeMore => ¬ h.closed ∧ .stop ∉ h
  | .abStopMaking => h.closed ∨ .stop ∉ h
  | .abContent offset _ => h.Offered ∧ offset ≤ (remaining L s₀ h).length
  | .abContentShift _ => h.Offered
  | .noteVbContentDone _ => ¬ h.closed ∧ .stop ∉ h
  | .noteVbContentAvailable _ => ¬ h.closed ∧ .stop ∉ h

instance (h : Past) : ∀ c, Decidable (permitted L s₀ h c)
  | .stop => isTrue trivial
  | .abDiscard => inferInstanceAs (Decidable (_ ∧ _))
  | .abMake => inferInstanceAs (Decidable (_ ∧ _))
  | .abMakeMore => inferInstanceAs (Decidable (_ ∧ _))
  | .abStopMaking => inferInstanceAs (Decidable (_ ∨ _))
  | .abContent _ _ => inferInstanceAs (Decidable (_ ∧ _))
  | .abContentShift _ => inferInstanceAs (Decidable (h.Offered))
  | .noteVbContentDone _ => inferInstanceAs (Decidable (_ ∧ _))
  | .noteVbContentAvailable _ => inferInstanceAs (Decidable (_ ∧ _))

/-- **What comes out of a call**, after those before. -/
def answer {H : Type} (h : Past) : Call → List (Effect H)
  | .stop => []
  | .abDiscard => if h.closed then [] else [.vbStopMaking]
  | .abMake => if remaining L s₀ h ≠ [] then [.noteAbContentAvailable] else []
  | .abMakeMore => [.vbMakeMore]
  | .abStopMaking => if h.closed then [] else [.vbStopMaking]
  | .abContent offset size => [.area (((remaining L s₀ h).drop offset).take size)]
  | .abContentShift _ => []
  | .noteVbContentDone atEnd =>
      (if .abMake ∈ h then [.noteAbContentDone atEnd] else []) ++ [.vbStopMaking]
  | .noteVbContentAvailable vb =>
      [.vbContent, .vbContentShift vb.length] ++
        if .abMake ∈ h then [.noteAbContentAvailable] else []

/-- How far the adapted body is. -/
def sending (h : Past) : OperationState :=
  if .abStopMaking ∈ h then .complete
  else if .abDiscard ∈ h then .never
  else if h.ended then .complete
  else if .abMake ∈ h then .on
  else .undecided

/-- The transaction that the calls lead to. -/
def xaction {H : Type} (virgin : Message H) (h : Past) : Xaction σ H where
  hostx := if .stop ∈ h then none else some virgin
  buffer := remaining L s₀ h
  internal := if h.ended then none else some (L.bodies s₀ h.parts).1
  receivingVb := if h.closed then .complete else .on
  sendingAb := h.sending

/-- What permitted calls keep. -/
structure Lawful (h : Past) : Prop where
  taken_le : taken L s₀ h ≤ (made L s₀ h).length
  not_discard : .abMake ∈ h → .abDiscard ∉ h

end Text

/-! ## The refinement -/

section Refinement
variable {σ H : Type} {L : Logic σ} {s₀ : σ} {virgin : Message H} {h : Past}

theorem abMake_mem_of_ended (hended : h.ended) : .abMake ∈ h := by
  induction h with
  | nil => cases hended
  | cons c h ih =>
      cases c with
      | noteVbContentDone atEnd =>
          rw [ended, Bool.or_eq_true, decide_eq_true_eq] at hended
          exact List.mem_cons_of_mem _ (hended.elim id ih)
      | _ => exact List.mem_cons_of_mem _ (ih hended)

theorem closed_of_ended (hended : h.ended) : h.closed := by
  induction h with
  | nil => cases hended
  | cons c h ih =>
      rw [closed, List.any_cons, Bool.or_eq_true]
      cases c with
      | noteVbContentDone atEnd => exact .inl rfl
      | _ => exact .inr (ih hended)

theorem ended_eq_false (hopen : ¬ h.closed) : h.ended = false := by
  by_contra hended
  exact hopen (closed_of_ended (by simpa using hended))

theorem not_mem_of_closes {c : Call} (hopen : ¬ h.closed) (hc : closes c) : c ∉ h := by
  intro hmem
  exact hopen (List.any_eq_true.mpr ⟨c, hmem, hc⟩)

theorem sending_eq_undecided_iff : h.sending = .undecided ↔ ¬ h.Decided := by
  have hended := abMake_mem_of_ended (h := h)
  rw [sending, Decided]
  split_ifs with h₁ h₂ h₃ h₄
  · simp [h₁]
  · simp [h₂]
  · simp [hended h₃]
  · simp [h₄]
  · simp [h₁, h₂, h₄]

theorem sending_offered_iff (K : h.Lawful L s₀) :
    h.sending = .on ∨ h.sending = .complete ↔ h.Offered := by
  have hended := abMake_mem_of_ended (h := h)
  have hdiscard := K.not_discard
  rw [sending, Offered]
  split_ifs with h₁ h₂ h₃ h₄
  · simp [h₁]
  · simp [h₁, show Call.abMake ∉ h from fun h' => hdiscard h' h₂]
  · simp [hended h₃]
  · simp [h₄]
  · simp [h₁, h₄]

/-- While more of the virgin body may come, the adapted one is on when it was asked for. -/
theorem sending_of_not_closed (hopen : ¬ h.closed) :
    h.sending = if .abMake ∈ h then .on else .undecided := by
  rw [sending, if_neg (not_mem_of_closes hopen rfl), if_neg (not_mem_of_closes hopen rfl),
    if_neg fun hended => hopen (closed_of_ended hended)]

theorem must_bind {α : Type} (condition : Prop) [Decidable condition] (f : Unit → Except Fault α) :
    (Xaction.must condition >>= f) = if condition then f () else .error .must := by
  rw [Xaction.must]
  split_ifs
  · rfl
  · rfl

theorem host_bind {α : Type} {x : Xaction σ H}
    (hhost : x.hostx = if .stop ∈ h then none else some virgin) (f : Message H → Except Fault α) :
    (x.host >>= f) = if .stop ∈ h then .error .null else f virgin := by
  rw [Xaction.host, hhost]
  split_ifs
  · rfl
  · rfl

theorem stopVb_eq (h : Past) (virgin : Message H) {x : Xaction σ H}
    (hhost : x.hostx = if .stop ∈ h then none else some virgin)
    (hreceiving : x.receivingVb = if h.closed then .complete else .on) :
    x.stopVb = if h.closed ∨ .stop ∉ h then
        .ok ({ x with receivingVb := .complete }, if h.closed then [] else [.vbStopMaking])
      else .error .null := by
  rw [Xaction.stopVb, host_bind hhost, must_bind]
  cases hclosed : h.closed with
  | true =>
      have hcomplete : x.receivingVb = .complete := by rw [hreceiving, hclosed]; rfl
      have hx : ({ x with receivingVb := .complete } : Xaction σ H) = x := by rw [← hcomplete]
      rw [hx, hcomplete]
      rfl
  | false =>
      rw [hreceiving, hclosed]
      by_cases hstop : Call.stop ∈ h
      · simp [hstop]
      · simp [hstop]
        rfl

theorem receivingVb_xaction :
    (xaction L s₀ virgin h).receivingVb = if h.closed then .complete else .on := rfl

theorem receivingVb_eq_on_iff : (xaction L s₀ virgin h).receivingVb = .on ↔ ¬ h.closed := by
  rw [receivingVb_xaction]
  cases h.closed with
  | true => simp
  | false => simp

/-- The host stays until it says otherwise. -/
theorem hostx_cons {c : Call} (hc : c ≠ .stop) :
    (xaction L s₀ virgin (c :: h)).hostx = (xaction L s₀ virgin h).hostx := by
  simp [xaction, hc.symm]

/-- What is asked of the transaction: that it succeeds at the permitted calls, with the answer
described, and fails at the others. -/
def Follows (L : Logic σ) (s₀ : σ) (virgin : Message H) (h : Past) (c : Call) : Prop :=
  (permitted L s₀ h c → (xaction L s₀ virgin h).step L c =
    .ok (xaction L s₀ virgin (c :: h), answer L s₀ h c)) ∧
  (¬ permitted L s₀ h c → ∃ e, (xaction L s₀ virgin h).step L c = .error e)

theorem follows_abDiscard : Follows L s₀ virgin h .abDiscard := by
  have hstep : (xaction L s₀ virgin h).step L .abDiscard =
      if ¬ h.Decided then Xaction.stopVb { xaction L s₀ virgin h with sendingAb := .never }
      else .error .must := by
    rw [Xaction.step, Xaction.abDiscard, must_bind]
    exact if_congr sending_eq_undecided_iff rfl rfl
  rw [Follows, hstep,
    stopVb_eq h virgin (x := { xaction L s₀ virgin h with sendingAb := .never }) rfl rfl]
  constructor
  · rintro ⟨hundecided, hhost⟩
    have hstop : .abStopMaking ∉ h := fun hmem => hundecided (.inr (.inr hmem))
    have hsending : sending (.abDiscard :: h) = .never := by simp [sending, hstop]
    have hnext : xaction L s₀ virgin (.abDiscard :: h) =
        { xaction L s₀ virgin h with receivingVb := .complete, sendingAb := .never } :=
      Xaction.ext (hostx_cons (by simp)) rfl rfl rfl hsending
    rw [if_pos hundecided, if_pos hhost, hnext]
    rfl
  · intro hnot
    by_cases hundecided : h.Decided
    · exact ⟨.must, by rw [if_neg (not_not.mpr hundecided)]⟩
    · exact ⟨.null, by rw [if_pos hundecided, if_neg fun hhost => hnot ⟨hundecided, hhost⟩]⟩

theorem follows_abStopMaking : Follows L s₀ virgin h .abStopMaking := by
  have hsending : sending (.abStopMaking :: h) = .complete := by simp [sending]
  have hnext : xaction L s₀ virgin (.abStopMaking :: h) =
      { xaction L s₀ virgin h with receivingVb := .complete, sendingAb := .complete } :=
    Xaction.ext (hostx_cons (by simp)) rfl rfl rfl hsending
  rw [Follows, Xaction.step, Xaction.abStopMaking,
    stopVb_eq h virgin (x := { xaction L s₀ virgin h with sendingAb := .complete }) rfl rfl, hnext]
  constructor
  · exact fun hhost => if_pos hhost
  · exact fun hhost => ⟨.null, if_neg hhost⟩

theorem follows_abMake (hbody : virgin.body = true) : Follows L s₀ virgin h .abMake := by
  have hreceiving : (xaction L s₀ virgin h).receivingVb = .on ∨
      (xaction L s₀ virgin h).receivingVb = .complete := by
    rw [receivingVb_xaction]
    cases h.closed with
    | true => exact .inr rfl
    | false => exact .inl rfl
  have hstep : (xaction L s₀ virgin h).step L .abMake =
      if ¬ h.Decided then
        if .stop ∈ h then .error .null
        else .ok ({ xaction L s₀ virgin h with sendingAb := .on }, answer L s₀ h .abMake)
      else .error .must := by
    rw [Xaction.step, Xaction.abMake, must_bind, host_bind rfl, must_bind, if_pos hbody, must_bind,
      if_pos hreceiving]
    exact if_congr sending_eq_undecided_iff rfl rfl
  rw [Follows, hstep]
  constructor
  · rintro ⟨hundecided, hhost⟩
    have hstop : .abStopMaking ∉ h := fun hmem => hundecided (.inr (.inr hmem))
    have hdiscard : .abDiscard ∉ h := fun hmem => hundecided (.inr (.inl hmem))
    have hended : h.ended = false := by
      by_contra hended
      exact hundecided (.inl (abMake_mem_of_ended (by simpa using hended)))
    have hsending : sending (.abMake :: h) = .on := by
      simp [sending, hstop, hdiscard, ended, hended]
    have hnext : xaction L s₀ virgin (.abMake :: h) =
        { xaction L s₀ virgin h with sendingAb := .on } :=
      Xaction.ext (hostx_cons (by simp)) rfl rfl rfl hsending
    rw [if_pos hundecided, if_neg hhost, hnext]
  · intro hnot
    by_cases hundecided : h.Decided
    · exact ⟨.must, by rw [if_neg (not_not.mpr hundecided)]⟩
    · refine ⟨.null, ?_⟩
      rw [if_pos hundecided, if_pos (not_not.mp fun hhost => hnot ⟨hundecided, hhost⟩)]

/-- Where more of the virgin body may come. -/
theorem follows_of_open {c : Call} {r : Except Fault (Xaction σ H × List (Effect H))}
    (hpermitted : permitted L s₀ h c ↔ ¬ h.closed ∧ .stop ∉ h)
    (hstep : (xaction L s₀ virgin h).step L c =
      if ¬ h.closed then if .stop ∈ h then .error .null else r else .error .must)
    (hnext : ¬ h.closed → .stop ∉ h → r = .ok (xaction L s₀ virgin (c :: h), answer L s₀ h c)) :
    Follows L s₀ virgin h c := by
  rw [Follows, hpermitted, hstep]
  constructor
  · rintro ⟨hopen, hhost⟩
    rw [if_pos hopen, if_neg hhost, hnext hopen hhost]
  · intro hnot
    by_cases hclosed : h.closed
    · exact ⟨.must, by rw [if_neg (not_not.mpr hclosed)]⟩
    · exact ⟨.null, by rw [if_pos hclosed, if_pos (not_not.mp fun hhost => hnot ⟨hclosed, hhost⟩)]⟩

theorem follows_abMakeMore : Follows L s₀ virgin h .abMakeMore := by
  refine follows_of_open (r := .ok (xaction L s₀ virgin h, [.vbMakeMore])) Iff.rfl ?_ fun _ _ => ?_
  · rw [Xaction.step, Xaction.abMakeMore, must_bind, host_bind rfl]
    exact if_congr receivingVb_eq_on_iff rfl rfl
  · have hsending : sending (.abMakeMore :: h) = h.sending := by simp [sending, ended]
    have hnext : xaction L s₀ virgin (.abMakeMore :: h) = xaction L s₀ virgin h :=
      Xaction.ext (hostx_cons (by simp)) rfl rfl rfl hsending
    rw [hnext]
    rfl

theorem notifyAdaptContent_eq (h : Past) (virgin : Message H) {x : Xaction σ H}
    (hhost : x.hostx = some virgin)
    (hsending : x.sendingAb = if .abMake ∈ h then .on else .undecided) (atEnd isFinal : Bool) :
    x.notifyAdaptContent atEnd isFinal = .ok (if .abMake ∈ h then
      [if isFinal = false then .noteAbContentAvailable else .noteAbContentDone atEnd] else []) := by
  rw [Xaction.notifyAdaptContent, Xaction.host, hhost, hsending]
  by_cases hmake : Call.abMake ∈ h
  · rw [if_pos hmake, if_pos rfl, if_pos hmake]
    rfl
  · rw [if_neg hmake, if_neg (by simp), if_neg hmake]
    rfl

/-- What a part adds, while more may come. -/
theorem remaining_part (K : h.Lawful L s₀) (hopen : ¬ h.closed) (vb : List UInt8) :
    remaining L s₀ (.noteVbContentAvailable vb :: h) =
      remaining L s₀ h ++ (L.adaptBody (L.bodies s₀ h.parts).1 vb).2.getD vb := by
  have hended := ended_eq_false hopen
  have hmade : made L s₀ (.noteVbContentAvailable vb :: h) =
      made L s₀ h ++ (L.adaptBody (L.bodies s₀ h.parts).1 vb).2.getD vb := by
    simp only [made, parts, ended, hended, Logic.bodies, trace_concat, Bool.false_eq_true, if_false,
      List.append_nil]
  rw [remaining, hmade]
  exact List.drop_append_of_le_length K.taken_le

theorem follows_noteVbContentAvailable (K : h.Lawful L s₀) (vb : List UInt8) :
    Follows L s₀ virgin h (.noteVbContentAvailable vb) := by
  refine follows_of_open (r := (do
    let (internal, buffer) := L.baseAdaptBody (xaction L s₀ virgin h).internal vb
      (xaction L s₀ virgin h).buffer
    let x := { xaction L s₀ virgin h with internal := internal, buffer := buffer }
    let notes ← x.notifyAdaptContent false false
    pure (x, .vbContent :: .vbContentShift vb.length :: notes))) Iff.rfl ?_ fun hopen hhost => ?_
  · rw [Xaction.step, Xaction.noteVbContentAvailable, must_bind, host_bind rfl]
    exact if_congr receivingVb_eq_on_iff rfl rfl
  · have hended := ended_eq_false hopen
    have hsending : sending (.noteVbContentAvailable vb :: h) = h.sending := by
      simp [sending, ended]
    have hinternal : (xaction L s₀ virgin (.noteVbContentAvailable vb :: h)).internal =
        some (L.adaptBody (L.bodies s₀ h.parts).1 vb).1 := by
      simp only [xaction, ended, hended, parts, Logic.bodies, trace_concat, Bool.false_eq_true,
        if_false]
    have hnext : xaction L s₀ virgin (.noteVbContentAvailable vb :: h) =
        { xaction L s₀ virgin h with
          internal := some (L.adaptBody (L.bodies s₀ h.parts).1 vb).1
          buffer := remaining L s₀ h ++ (L.adaptBody (L.bodies s₀ h.parts).1 vb).2.getD vb } :=
      Xaction.ext (hostx_cons (by simp)) (remaining_part K hopen vb) hinternal rfl hsending
    have hbase : L.baseAdaptBody (xaction L s₀ virgin h).internal vb
        (xaction L s₀ virgin h).buffer = (some (L.adaptBody (L.bodies s₀ h.parts).1 vb).1,
          remaining L s₀ h ++ (L.adaptBody (L.bodies s₀ h.parts).1 vb).2.getD vb) := by
      simp only [xaction, hended, Bool.false_eq_true, if_false, Logic.baseAdaptBody]
    rw [hbase]
    dsimp only
    rw [notifyAdaptContent_eq h virgin (if_neg hhost) (sending_of_not_closed hopen), hnext]
    rfl

/-- What the end adds, if the adapted body is wanted. -/
theorem remaining_end (K : h.Lawful L s₀) (hopen : ¬ h.closed) (hmake : .abMake ∈ h)
    (atEnd : Bool) : remaining L s₀ (.noteVbContentDone atEnd :: h) =
      remaining L s₀ h ++ (L.adaptEnd (L.bodies s₀ h.parts).1).getD [] := by
  have hended := ended_eq_false hopen
  have hmade : made L s₀ (.noteVbContentDone atEnd :: h) =
      made L s₀ h ++ (L.adaptEnd (L.bodies s₀ h.parts).1).getD [] := by
    simp [made, parts, ended, hended, hmake]
  rw [remaining, hmade]
  exact List.drop_append_of_le_length K.taken_le

/-- The end of the virgin body when the adapted one is wanted. -/
theorem noteVbContentDone_wanted (K : h.Lawful L s₀) (hopen : ¬ h.closed) (hhost : .stop ∉ h)
    (hmake : .abMake ∈ h) (atEnd : Bool) :
    (xaction L s₀ virgin h).noteVbContentDone L atEnd =
      .ok (xaction L s₀ virgin (.noteVbContentDone atEnd :: h),
        [.noteAbContentDone atEnd, .vbStopMaking]) := by
  have hended := ended_eq_false hopen
  have hon : (xaction L s₀ virgin h).sendingAb = .on :=
    (sending_of_not_closed hopen).trans (if_pos hmake)
  have hstop : .abStopMaking ∉ h := not_mem_of_closes hopen rfl
  have hdiscard : .abDiscard ∉ h := not_mem_of_closes hopen rfl
  have hsending : sending (.noteVbContentDone atEnd :: h) = .complete := by
    simp [sending, ended, hmake, hstop, hdiscard]
  have hinternal : (xaction L s₀ virgin (.noteVbContentDone atEnd :: h)).internal = none := by
    simp [xaction, ended, hmake]
  have hnext : xaction L s₀ virgin (.noteVbContentDone atEnd :: h) =
      { xaction L s₀ virgin h with
        internal := none
        buffer := remaining L s₀ h ++ (L.adaptEnd (L.bodies s₀ h.parts).1).getD []
        receivingVb := .complete
        sendingAb := .complete } :=
    Xaction.ext (hostx_cons (by simp)) (remaining_end K hopen hmake atEnd) hinternal rfl hsending
  have hbase : L.baseAdaptEnd (xaction L s₀ virgin h).internal (xaction L s₀ virgin h).buffer =
      (none, remaining L s₀ h ++ (L.adaptEnd (L.bodies s₀ h.parts).1).getD []) := by
    simp only [xaction, hended, Bool.false_eq_true, if_false, Logic.baseAdaptEnd]
  rw [Xaction.noteVbContentDone, must_bind, if_pos (receivingVb_eq_on_iff.mpr hopen), if_pos hon,
    hbase]
  dsimp only
  rw [notifyAdaptContent_eq h virgin (if_neg hhost) (sending_of_not_closed hopen), if_pos hmake,
    hnext]
  simp only [bind, Except.bind]
  rw [stopVb_eq h virgin rfl rfl, if_pos (.inr hhost), if_neg hopen]
  rfl

/-- Without a host the note cannot be made. -/
theorem noteVbContentDone_stopped (hopen : ¬ h.closed) (hhost : .stop ∈ h) (hmake : .abMake ∈ h)
    (atEnd : Bool) : (xaction L s₀ virgin h).noteVbContentDone L atEnd = .error .null := by
  have hon : (xaction L s₀ virgin h).sendingAb = .on :=
    (sending_of_not_closed hopen).trans (if_pos hmake)
  have hnull : (xaction L s₀ virgin h).hostx = none := if_pos hhost
  rw [Xaction.noteVbContentDone, must_bind, if_pos (receivingVb_eq_on_iff.mpr hopen), if_pos hon]
  simp only [Xaction.notifyAdaptContent, hon, if_true, Xaction.host, hnull]
  rfl

/-- The end of the virgin body when the adapted one is not, or not yet, wanted. -/
theorem noteVbContentDone_unwanted (hopen : ¬ h.closed) (hmake : .abMake ∉ h) (atEnd : Bool) :
    (xaction L s₀ virgin h).noteVbContentDone L atEnd =
      if .stop ∈ h then .error .null
      else .ok (xaction L s₀ virgin (.noteVbContentDone atEnd :: h), [.vbStopMaking]) := by
  have hnot : (xaction L s₀ virgin h).sendingAb ≠ .on := by
    rw [show (xaction L s₀ virgin h).sendingAb = .undecided from
      (sending_of_not_closed hopen).trans (if_neg hmake)]
    simp
  have hended : ended (.noteVbContentDone atEnd :: h) = h.ended := by simp [ended, hmake]
  have hsending : sending (.noteVbContentDone atEnd :: h) = h.sending := by
    simp [sending, hended]
  have hbuffer : remaining L s₀ (.noteVbContentDone atEnd :: h) = remaining L s₀ h := by
    simp [remaining, made, taken, parts, hended]
  have hinternal : (xaction L s₀ virgin (.noteVbContentDone atEnd :: h)).internal =
      (xaction L s₀ virgin h).internal := by
    simp [xaction, hended, parts]
  have hnext : xaction L s₀ virgin (.noteVbContentDone atEnd :: h) =
      { xaction L s₀ virgin h with receivingVb := .complete } :=
    Xaction.ext (hostx_cons (by simp)) hbuffer hinternal rfl hsending
  rw [Xaction.noteVbContentDone, must_bind, if_pos (receivingVb_eq_on_iff.mpr hopen), if_neg hnot,
    stopVb_eq h virgin rfl rfl, hnext, if_neg hopen]
  by_cases hhost : Call.stop ∈ h
  · rw [if_neg (by simp [hopen, hhost]), if_pos hhost]
  · rw [if_pos (.inr hhost), if_neg hhost]

theorem follows_noteVbContentDone (K : h.Lawful L s₀) (atEnd : Bool) :
    Follows L s₀ virgin h (.noteVbContentDone atEnd) := by
  refine follows_of_open (r := .ok (xaction L s₀ virgin (.noteVbContentDone atEnd :: h),
    answer L s₀ h (.noteVbContentDone atEnd))) Iff.rfl ?_ fun _ _ => rfl
  rw [Xaction.step, answer]
  by_cases hopen : ¬ h.closed
  · rw [if_pos hopen]
    by_cases hmake : Call.abMake ∈ h
    · by_cases hhost : Call.stop ∈ h
      · rw [if_pos hhost, noteVbContentDone_stopped hopen hhost hmake]
      · rw [noteVbContentDone_wanted K hopen hhost hmake, if_neg hhost, if_pos hmake]
        rfl
    · rw [noteVbContentDone_unwanted hopen hmake, if_neg hmake]
      rfl
  · rw [Xaction.noteVbContentDone, must_bind, if_neg hopen,
      if_neg fun hreceiving => hopen (receivingVb_eq_on_iff.mp hreceiving)]

theorem follows_abContent (K : h.Lawful L s₀) (offset size : ℕ) :
    Follows L s₀ virgin h (.abContent offset size) := by
  have hsending : sending (.abContent offset size :: h) = h.sending := by simp [sending, ended]
  have hnext : xaction L s₀ virgin (.abContent offset size :: h) = xaction L s₀ virgin h :=
    Xaction.ext (hostx_cons (by simp)) rfl rfl rfl hsending
  have hstep : (xaction L s₀ virgin h).step L (.abContent offset size) =
      if h.Offered then
        if offset ≤ (remaining L s₀ h).length then
          .ok (xaction L s₀ virgin h, answer L s₀ h (.abContent offset size))
        else .error .outOfRange
      else .error .must := by
    rw [Xaction.step, Xaction.abContent, must_bind]
    exact if_congr (sending_offered_iff K) rfl rfl
  rw [Follows, hstep, hnext]
  constructor
  · rintro ⟨hoffered, hle⟩
    rw [if_pos hoffered, if_pos hle]
  · intro hnot
    by_cases hoffered : h.Offered
    · exact ⟨.outOfRange, by rw [if_pos hoffered, if_neg fun hle => hnot ⟨hoffered, hle⟩]⟩
    · exact ⟨.must, if_neg hoffered⟩

theorem follows_abContentShift (K : h.Lawful L s₀) (size : ℕ) :
    Follows L s₀ virgin h (.abContentShift size) := by
  have hsending : sending (.abContentShift size :: h) = h.sending := by simp [sending, ended]
  have hdrop : (remaining L s₀ h).drop size = remaining L s₀ (.abContentShift size :: h) := by
    change _ = (made L s₀ h).drop (min (taken L s₀ h + size) (made L s₀ h).length)
    rw [remaining, List.drop_drop]
    by_cases hle : taken L s₀ h + size ≤ (made L s₀ h).length
    · rw [Nat.min_eq_left hle]
    · rw [Nat.min_eq_right (by omega), List.drop_eq_nil_of_le (by omega), List.drop_length]
  have hnext : xaction L s₀ virgin (.abContentShift size :: h) =
      { xaction L s₀ virgin h with buffer := (xaction L s₀ virgin h).buffer.drop size } :=
    Xaction.ext (hostx_cons (by simp)) hdrop.symm rfl rfl hsending
  have hstep : (xaction L s₀ virgin h).step L (.abContentShift size) =
      if h.Offered then
        .ok ({ xaction L s₀ virgin h with buffer := (xaction L s₀ virgin h).buffer.drop size }, [])
      else .error .must := by
    rw [Xaction.step, Xaction.abContentShift, must_bind]
    exact if_congr (sending_offered_iff K) rfl rfl
  rw [Follows, hstep, hnext]
  exact ⟨fun hoffered => if_pos hoffered, fun hoffered => ⟨.must, if_neg hoffered⟩⟩

theorem follows_stop : Follows L s₀ virgin h .stop := by
  have hsending : sending (.stop :: h) = h.sending := by simp [sending, ended]
  have hnext : xaction L s₀ virgin (.stop :: h) = { xaction L s₀ virgin h with hostx := none } :=
    Xaction.ext (by simp [xaction]) rfl rfl rfl hsending
  rw [Follows, hnext]
  exact ⟨fun _ => rfl, fun hnot => absurd trivial hnot⟩

/-- Nothing that was made is taken back. -/
theorem made_prefix_cons {c : Call} (hc : permitted L s₀ h c) :
    made L s₀ h <+: made L s₀ (c :: h) := by
  cases c with
  | noteVbContentAvailable vb =>
      have hended := ended_eq_false hc.1
      simp only [made, parts, ended, hended, Logic.bodies, trace_concat, Bool.false_eq_true,
        if_false, List.append_nil]
      exact List.prefix_append _ _
  | noteVbContentDone atEnd =>
      have hended := ended_eq_false hc.1
      simp only [made, parts, hended, Bool.false_eq_true, if_false, List.append_nil]
      exact List.prefix_append _ _
  | _ => exact List.prefix_rfl

theorem lawful_nil : Lawful L s₀ [] := ⟨Nat.zero_le _, fun hmem => absurd hmem List.not_mem_nil⟩

theorem Lawful.cons (K : h.Lawful L s₀) {c : Call} (hc : permitted L s₀ h c) :
    Lawful L s₀ (c :: h) := by
  constructor
  · have hle := (made_prefix_cons hc).length_le
    cases c with
    | abContentShift size => exact Nat.min_le_right _ _
    | _ => exact K.taken_le.trans hle
  · intro hmake hdiscard
    rcases List.mem_cons.mp hmake with rfl | hmem
    · rcases List.mem_cons.mp hdiscard with hne | hmem
      · cases hne
      · exact hc.1 (.inr (.inl hmem))
    · rcases List.mem_cons.mp hdiscard with rfl | hmem'
      · exact hc.1 (.inl hmem)
      · exact K.not_discard hmem hmem'

theorem follows (hbody : virgin.body = true) (K : h.Lawful L s₀) (c : Call) :
    Follows L s₀ virgin h c := by
  cases c with
  | stop => exact follows_stop
  | abDiscard => exact follows_abDiscard
  | abMake => exact follows_abMake hbody
  | abMakeMore => exact follows_abMakeMore
  | abStopMaking => exact follows_abStopMaking
  | abContent offset size => exact follows_abContent K offset size
  | abContentShift size => exact follows_abContentShift K size
  | noteVbContentDone atEnd => exact follows_noteVbContentDone K atEnd
  | noteVbContentAvailable vb => exact follows_noteVbContentAvailable K vb

/-- **The refinement**: what a transaction does follows from the calls before. -/
theorem describes (L : Logic σ) (s₀ : σ) (virgin : Message H) (hbody : virgin.body = true) :
    Describes (Xaction.step L) (permitted L s₀) (answer L s₀)
      fun h (x : Xaction σ H) => x = xaction L s₀ virgin h ∧ Lawful L s₀ h where
  ok := by
    rintro h _ c ⟨rfl, K⟩ hc
    exact ⟨_, (follows hbody K c).1 hc, rfl, K.cons hc⟩
  error := by
    rintro h _ c ⟨rfl, K⟩ hc
    exact (follows hbody K c).2 hc

end Refinement

end Past

/-! ## Whole runs -/

section Runs
variable {σ H : Type} {L : Logic σ} {E : EcapHeader H} {uri : List UInt8} {virgin : Message H}
  {calls : List Call}

/-- A transaction from its start on. -/
def transact (L : Logic σ) (E : EcapHeader H) (uri : List UInt8) (virgin : Message H)
    (calls : List Call) : Except Fault (Xaction σ H × List (Effect H)) := do
  let (x, first) ← (Xaction.new virgin).start L E uri
  let (x, out) ← run (Xaction.step L) x calls
  pure (x, first ++ out)

/-- The state of the logic after the header. -/
def headerState (L : Logic σ) (E : EcapHeader H) (virgin : Message H) : σ :=
  (Xaction.headerVisitor L E virgin.header).state

theorem transact_eq (hbody : virgin.body = true) :
    transact L E uri virgin calls =
      run (Xaction.step L) (Past.xaction L (headerState L E virgin) virgin []) calls >>= fun r =>
        pure (r.1, .vbMake :: .useAdapted (Xaction.adapted L E uri virgin) :: r.2) := by
  rw [transact, Xaction.start, Xaction.new]
  simp only [hbody, if_true]
  rfl

/-- What is known of a transaction that did not fail. -/
theorem of_transact {x : Xaction σ H} {out : List (Effect H)} (hbody : virgin.body = true)
    (hrun : transact L E uri virgin calls = .ok (x, out)) :
    Obeys (Past.permitted L (headerState L E virgin)) [] calls ∧
      x = Past.xaction L (headerState L E virgin) virgin calls.reverse ∧
      out = .vbMake :: .useAdapted (Xaction.adapted L E uri virgin) ::
        transcript (Past.answer L (headerState L E virgin)) [] calls := by
  have D := Past.describes L (headerState L E virgin) virgin hbody
  rw [transact_eq hbody] at hrun
  obtain ⟨⟨x', rest⟩, hrest, hlast⟩ := Failure.bind_eq_ok.mp hrun
  obtain ⟨rfl, rfl⟩ := Prod.mk.inj (Except.ok.inj hlast)
  obtain ⟨hobeys, rfl⟩ := (D.run_eq_ok_iff ⟨rfl, Past.lawful_nil⟩).mp ⟨x', hrest⟩
  obtain ⟨hx, -⟩ := D.reached_of_run ⟨rfl, Past.lawful_nil⟩ hrest
  rw [List.append_nil] at hx
  exact ⟨hobeys, hx, rfl⟩

/-- Permitted calls are all answered. -/
theorem exists_transact (hbody : virgin.body = true)
    (hobeys : Obeys (Past.permitted L (headerState L E virgin)) [] calls) :
    ∃ x, transact L E uri virgin calls =
      .ok (x, .vbMake :: .useAdapted (Xaction.adapted L E uri virgin) ::
        transcript (Past.answer L (headerState L E virgin)) [] calls) := by
  obtain ⟨x, hrun, -⟩ := (Past.describes L (headerState L E virgin) virgin
    hbody).run_of_obeys ⟨rfl, Past.lawful_nil⟩ hobeys
  rw [transact_eq hbody, hrun]
  exact ⟨x, rfl⟩

/-- **Which orders of calls a transaction does not fail at, and what the host gets for them**, said
by the calls alone. -/
theorem transact_eq_ok_iff (L : Logic σ) (E : EcapHeader H) (uri : List UInt8) (virgin : Message H)
    (hbody : virgin.body = true) (calls : List Call) (out : List (Effect H)) :
    (∃ x, transact L E uri virgin calls = .ok (x, out)) ↔
      Obeys (Past.permitted L (headerState L E virgin)) [] calls ∧
      out = .vbMake :: .useAdapted (Xaction.adapted L E uri virgin) ::
        transcript (Past.answer L (headerState L E virgin)) [] calls := by
  constructor
  · rintro ⟨x, hrun⟩
    obtain ⟨hobeys, -, hout⟩ := of_transact hbody hrun
    exact ⟨hobeys, hout⟩
  · rintro ⟨hobeys, rfl⟩
    exact exists_transact hbody hobeys

/-- A body of one byte, which the host asks for late and reads at the end. -/
theorem transact_late :
    let L : Logic Unit := ⟨(), fun _ _ _ => ((), 0, none), fun _ _ => ((), none), fun _ => none⟩
    let virgin : Message (List Field) := ⟨[], true⟩
    ∃ x, transact L .ofList [104] virgin
        [.noteVbContentAvailable [97], .abMake, .noteVbContentDone true, .abContent 0 9] =
      .ok (x, [.vbMake, .useAdapted (Xaction.adapted L .ofList [104] virgin), .vbContent,
        .vbContentShift 1, .noteAbContentAvailable, .noteAbContentDone true, .vbStopMaking,
        .area [97]]) := by
  intro L virgin
  exact (transact_eq_ok_iff L .ofList [104] virgin rfl _ _).mpr ⟨by decide, by decide⟩

end Runs

end RenaProxy.Squid
