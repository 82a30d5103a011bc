import RenaProxy.Squid.Transaction

/-!
# What the host gets of a transaction

Two consequences of the refinement, for every order of calls that a transaction does not fail at.
`pairwise_transact`: nothing is asked about a virgin body that was refused or is over, and nothing
is said of an adapted one whose end was announced. `delivered_append_buffer`: what the host shifted
away, with the buffer behind it, is all that was adapted, each part once and in its order, and every
reading has its place in it.
-/
namespace RenaProxy.Squid
open StreamTransducer

/-! ## The order of the calls of the host -/

namespace Effect
variable {H : Type}

/-- A call about the virgin body. -/
def ofVirgin : Effect H → Bool
  | .vbMake => true
  | .vbMakeMore => true
  | .vbContent => true
  | .vbContentShift _ => true
  | .vbStopMaking => true
  | _ => false

/-- A note about the adapted body. -/
def isNote : Effect H → Bool
  | .noteAbContentAvailable => true
  | .noteAbContentDone _ => true
  | _ => false

/-- The last note. -/
def isDone : Effect H → Bool
  | .noteAbContentDone _ => true
  | _ => false

/-- What may come after what: nothing about the virgin body after `vbStopMaking`, and no note after
`noteAbContentDone`. -/
def MayPrecede (e e' : Effect H) : Prop :=
  (e = .vbStopMaking → e'.ofVirgin = false) ∧ (e.isDone → e'.isNote = false)

end Effect

section Order
variable {σ H : Type} {L : Logic σ} {s₀ : σ} {h : Past} {c : Call} {e : Effect H}

/-- What is put out at a permitted call, and what is then known of the calls before. -/
structure Timely (h : Past) (c : Call) (e : Effect H) : Prop where
  closed : e = .vbStopMaking → Past.closed (c :: h)
  ended : e.isDone → Past.ended (c :: h)
  opened : e.ofVirgin → ¬ h.closed
  unended : e.isNote → h.ended = false

theorem timely_vbStopMaking (hclosed : Past.closed (c :: h)) (hopen : ¬ h.closed) :
    Timely h c (.vbStopMaking : Effect H) where
  closed _ := hclosed
  ended := by simp [Effect.isDone]
  opened _ := hopen
  unended := by simp [Effect.isNote]

/-- The other calls about the virgin body. -/
theorem timely_ofVirgin (hvirgin : e.ofVirgin) (hstop : e ≠ .vbStopMaking) (hopen : ¬ h.closed) :
    Timely h c e where
  closed he := absurd he hstop
  ended := by cases e <;> simp_all [Effect.isDone, Effect.ofVirgin]
  opened _ := hopen
  unended := by cases e <;> simp_all [Effect.isNote, Effect.ofVirgin]

theorem timely_noteAbContentAvailable (hended : h.ended = false) :
    Timely h c (.noteAbContentAvailable : Effect H) where
  closed := by simp
  ended := by simp [Effect.isDone]
  opened := by simp [Effect.ofVirgin]
  unended _ := hended

theorem timely_answer (hc : Past.permitted L s₀ h c) (he : e ∈ Past.answer L s₀ h c) :
    Timely h c e := by
  cases c with
  | stop => cases he
  | abDiscard =>
      rw [Past.answer] at he
      split_ifs at he with hclosed
      · cases he
      · obtain rfl := List.mem_singleton.mp he
        exact timely_vbStopMaking rfl hclosed
  | abMake =>
      rw [Past.answer] at he
      split_ifs at he with hremaining
      · obtain rfl := List.mem_singleton.mp he
        refine timely_noteAbContentAvailable ?_
        by_contra hended
        exact hc.1 (.inl (Past.abMake_mem_of_ended (by simpa using hended)))
      · cases he
  | abMakeMore =>
      obtain rfl := List.mem_singleton.mp he
      exact timely_ofVirgin rfl (by simp) hc.1
  | abStopMaking =>
      rw [Past.answer] at he
      split_ifs at he with hclosed
      · cases he
      · obtain rfl := List.mem_singleton.mp he
        exact timely_vbStopMaking rfl hclosed
  | abContent offset size =>
      obtain rfl := List.mem_singleton.mp he
      exact ⟨by simp, by simp [Effect.isDone], by simp [Effect.ofVirgin],
        by simp [Effect.isNote]⟩
  | abContentShift size => cases he
  | noteVbContentDone atEnd =>
      rcases List.mem_append.mp he with he | he
      · split_ifs at he with hmake
        · obtain rfl := List.mem_singleton.mp he
          exact ⟨by simp, fun _ => by simp [Past.ended, hmake], by simp [Effect.ofVirgin],
            fun _ => Past.ended_eq_false hc.1⟩
        · cases he
      · obtain rfl := List.mem_singleton.mp he
        exact timely_vbStopMaking rfl hc.1
  | noteVbContentAvailable vb =>
      rcases List.mem_append.mp he with he | he
      · rcases List.mem_pair.mp he with rfl | rfl
        · exact timely_ofVirgin rfl (by simp) hc.1
        · exact timely_ofVirgin rfl (by simp) hc.1
      · split_ifs at he with hmake
        · obtain rfl := List.mem_singleton.mp he
          exact timely_noteAbContentAvailable (Past.ended_eq_false hc.1)
        · cases he

theorem ended_cons (hended : h.ended) : Past.ended (c :: h) := by
  cases c with
  | noteVbContentDone atEnd => simp [Past.ended, hended]
  | _ => exact hended

theorem closed_cons (hclosed : h.closed) : Past.closed (c :: h) := by
  rw [Past.closed, List.any_cons, Bool.or_eq_true]
  exact .inr hclosed

theorem pairwise_answer (h : Past) (c : Call) :
    (Past.answer L s₀ h c : List (Effect H)).Pairwise Effect.MayPrecede := by
  cases c with
  | noteVbContentDone atEnd =>
      rw [Past.answer]
      split_ifs
      · simp [Effect.MayPrecede, Effect.isNote]
      · simp
  | noteVbContentAvailable vb =>
      rw [Past.answer]
      split_ifs
      · simp [Effect.MayPrecede, Effect.isDone]
      · simp [Effect.MayPrecede, Effect.isDone]
  | abDiscard =>
      rw [Past.answer]
      split_ifs
      · exact .nil
      · exact List.pairwise_singleton _ _
  | abMake =>
      rw [Past.answer]
      split_ifs
      · exact List.pairwise_singleton _ _
      · exact .nil
  | abStopMaking =>
      rw [Past.answer]
      split_ifs
      · exact .nil
      · exact List.pairwise_singleton _ _
  | stop => exact .nil
  | abMakeMore => exact List.pairwise_singleton _ _
  | abContent offset size => exact List.pairwise_singleton _ _
  | abContentShift size => exact .nil

/-- **The order of what is put out**, whatever the order of the calls. -/
theorem pairwise_transcript_answer (L : Logic σ) (s₀ : σ) {calls : List Call}
    (hobeys : Obeys (Past.permitted L s₀) [] calls) :
    (transcript (Past.answer L s₀) [] calls : List (Effect H)).Pairwise Effect.MayPrecede := by
  refine pairwise_transcript (Q := fun h e =>
    (e = .vbStopMaking → Past.closed h) ∧ (e.isDone → Past.ended h)) ?_ ?_ ?_ ?_ hobeys
  · exact fun h c _ => pairwise_answer h c
  · intro h c e hc he
    have T := timely_answer hc he
    exact ⟨T.closed, T.ended⟩
  · rintro h c e ⟨hclosed, hended⟩
    exact ⟨fun he => closed_cons (hclosed he), fun he => ended_cons (hended he)⟩
  · rintro h c e e' ⟨hclosed, hended⟩ hc he'
    have T := timely_answer hc he'
    constructor
    · intro he
      by_contra hvirgin
      exact T.opened (by simpa using hvirgin) (hclosed he)
    · intro he
      by_contra hnote
      have hnot := T.unended (by simpa using hnote)
      exact absurd (hended he) (by simp [hnot])

end Order

section Runs
variable {σ H : Type}

/-- **Nothing more is asked about a virgin body that was refused or is over, and nothing more is
said of an adapted one whose end was announced**, whatever the host calls. -/
theorem pairwise_transact (L : Logic σ) (E : EcapHeader H) (uri : List UInt8) (virgin : Message H)
    (hbody : virgin.body = true) (calls : List Call) (x : Xaction σ H) (out : List (Effect H))
    (hrun : transact L E uri virgin calls = .ok (x, out)) : out.Pairwise Effect.MayPrecede := by
  obtain ⟨hobeys, -, rfl⟩ := of_transact hbody hrun
  refine .cons ?_ (.cons ?_ (pairwise_transcript_answer L _ hobeys))
  · exact fun e _ => ⟨by simp, by simp [Effect.isDone]⟩
  · exact fun e _ => ⟨by simp, by simp [Effect.isDone]⟩

/-- The end is announced, and the host goes on to read. -/
theorem pairwise_transact_of_reading :
    let L : Logic Unit := ⟨(), fun _ _ _ => ((), 0, none), fun _ _ => ((), none), fun _ => none⟩
    ∃ x out, transact L .ofList [104] ⟨[], true⟩
        [.abMake, .noteVbContentAvailable [97], .noteVbContentDone true, .abContent 0 9] =
      .ok (x, out) ∧ out.Pairwise Effect.MayPrecede := by
  intro L
  obtain ⟨⟨x, out⟩, hrun, -⟩ := Failure.exists_ok_of_check (p := fun _ => true)
    (x := transact L .ofList [104] ⟨[], true⟩
      [.abMake, .noteVbContentAvailable [97], .noteVbContentDone true, .abContent 0 9]) (by decide)
  exact ⟨x, out, hrun, pairwise_transact L .ofList [104] ⟨[], true⟩ rfl _ x out hrun⟩

end Runs

/-! ## What the host has got -/

namespace Past
variable {σ : Type} (L : Logic σ) (s₀ : σ)

/-- What the host shifted away, each time the beginning of what it could read. -/
def delivered : Past → List UInt8
  | [] => []
  | .abContentShift size :: h => delivered h ++ (remaining L s₀ h).take size
  | _ :: h => delivered h

variable {L s₀} {h : Past} {c : Call}

/-- What was delivered is the beginning of what was made. -/
theorem delivered_cons (K : Lawful L s₀ h) (hc : permitted L s₀ h c)
    (hdelivered : delivered L s₀ h = (made L s₀ h).take (taken L s₀ h)) :
    delivered L s₀ (c :: h) = (made L s₀ (c :: h)).take (taken L s₀ (c :: h)) := by
  obtain ⟨more, hmore⟩ := made_prefix_cons hc
  have hsame : delivered L s₀ h = (made L s₀ (c :: h)).take (taken L s₀ h) := by
    rw [← hmore, List.take_append_of_le_length K.taken_le, hdelivered]
  cases c with
  | abContentShift size =>
      change delivered L s₀ h ++ ((made L s₀ h).drop (taken L s₀ h)).take size =
        (made L s₀ h).take (min (taken L s₀ h + size) (made L s₀ h).length)
      rw [hdelivered, ← List.take_add, ← List.take_take, List.take_length]
  | _ => exact hsame

theorem delivered_eq_take (hobeys : Obeys (permitted L s₀) [] calls) :
    Lawful L s₀ calls.reverse ∧
      delivered L s₀ calls.reverse = (made L s₀ calls.reverse).take (taken L s₀ calls.reverse) := by
  have hall := Obeys.invariant (P := fun h => Lawful L s₀ h ∧
    delivered L s₀ h = (made L s₀ h).take (taken L s₀ h))
    (fun h c hP hc => ⟨hP.1.cons hc, delivered_cons hP.1 hc hP.2⟩) ⟨lawful_nil, rfl⟩ hobeys
  rwa [List.append_nil] at hall

/-- What was made stays at its place. -/
theorem made_prefix {post pre : List Call} (hobeys : Obeys (permitted L s₀) [] (pre ++ post)) :
    made L s₀ pre.reverse <+: made L s₀ (pre ++ post).reverse := by
  rw [obeys_append, List.append_nil] at hobeys
  rw [List.reverse_append]
  exact Obeys.invariant (P := fun h => made L s₀ pre.reverse <+: made L s₀ h)
    (fun h c hP hc => hP.trans (made_prefix_cons hc)) List.prefix_rfl hobeys.2

end Past

section Delivery
variable {σ H : Type} {L : Logic σ} {E : EcapHeader H} {uri : List UInt8}
  {virgin : Message H} {calls : List Call} {x : Xaction σ H} {out : List (Effect H)}

theorem delivered_append_of_transact (hbody : virgin.body = true)
    (hrun : transact L E uri virgin calls = .ok (x, out)) :
    Past.delivered L (headerState L E virgin) calls.reverse ++ x.buffer =
      Past.made L (headerState L E virgin) calls.reverse := by
  obtain ⟨hobeys, rfl, -⟩ := of_transact hbody hrun
  rw [(Past.delivered_eq_take hobeys).2]
  exact List.take_append_drop _ _

/-- **What the host shifted away and what is still in the buffer** is what was made of the body, all
of it, once and in its order; what it reads in between, answered behind the answers to the calls
before, is found there, behind what it had shifted away by then. -/
theorem delivered_append_buffer (L : Logic σ) (E : EcapHeader H) (uri : List UInt8)
    (virgin : Message H) (hbody : virgin.body = true) (calls : List Call) (x : Xaction σ H)
    (out : List (Effect H)) (hrun : transact L E uri virgin calls = .ok (x, out)) :
    Past.delivered L (headerState L E virgin) calls.reverse ++ x.buffer =
        Past.made L (headerState L E virgin) calls.reverse ∧
      ∀ pre offset size post, calls = pre ++ .abContent offset size :: post →
        ∃ content before after, out = before ++ .area content :: after ∧
          (∃ x', transact L E uri virgin pre = .ok (x', before)) ∧
          content.length =
            min size ((Past.remaining L (headerState L E virgin) pre.reverse).length - offset) ∧
          content <+: (Past.made L (headerState L E virgin) calls.reverse).drop
            ((Past.delivered L (headerState L E virgin) pre.reverse).length + offset) := by
  refine ⟨delivered_append_of_transact hbody hrun, ?_⟩
  · obtain ⟨hobeys, rfl, rfl⟩ := of_transact hbody hrun
    rintro pre offset size post rfl
    have hpre := obeys_append.mp hobeys
    obtain ⟨K, hdelivered⟩ := Past.delivered_eq_take hpre.1
    obtain ⟨more, hmore⟩ := Past.made_prefix hobeys
    -- the area is the answer to this call, behind the answers to those before
    refine ⟨((Past.remaining L (headerState L E virgin) pre.reverse).drop offset).take size,
      .vbMake :: .useAdapted (Xaction.adapted L E uri virgin) ::
        transcript (Past.answer L (headerState L E virgin)) [] pre,
      transcript (Past.answer L (headerState L E virgin)) (.abContent offset size :: pre.reverse)
        post, ?_, exists_transact hbody hpre.1, ?_, ?_⟩
    · rw [transcript_append, List.append_nil]
      rfl
    · rw [List.length_take, List.length_drop]
    · have hoffset := hpre.2.1.2
      rw [List.append_nil, Past.remaining, List.length_drop] at hoffset
      have hle := K.taken_le
      rw [hdelivered, List.length_take_of_le hle, ← hmore, List.drop_append_of_le_length (by omega),
        Past.remaining, List.drop_drop]
      exact (List.take_prefix _ _).trans (List.prefix_append _ _)

/-- Of two bytes one is shifted away, the other is read, then there is one more. -/
theorem delivered_append_buffer_of_three :
    let L : Logic Unit := ⟨(), fun _ _ _ => ((), 0, none), fun _ _ => ((), none), fun _ => none⟩
    let before : List Call := [.abMake, .noteVbContentAvailable [97, 98], .abContentShift 1]
    let calls := before ++ .abContent 0 9 :: [.noteVbContentAvailable [99]]
    ∃ x out, transact L .ofList [104] ⟨[], true⟩ calls = .ok (x, out) ∧
      [97] ++ x.buffer = [97, 98, 99] ∧
      ∃ content out₁ out₂, out = out₁ ++ .area content :: out₂ ∧
        (∃ x₁, transact L .ofList [104] ⟨[], true⟩ before = .ok (x₁, out₁)) ∧
        content.length = 1 ∧ content <+: [98, 99] := by
  intro L before calls
  obtain ⟨⟨x, out⟩, hrun, -⟩ := Failure.exists_ok_of_check (p := fun _ => true)
    (x := transact L .ofList [104] ⟨[], true⟩ calls) (by decide)
  obtain ⟨hall, hread⟩ := delivered_append_buffer L .ofList [104] ⟨[], true⟩ rfl calls x out hrun
  exact ⟨x, out, hrun, hall, hread before 0 9 _ rfl⟩

/-- The host was told that there is no more of the adapted body. -/
def Told (out : List (Effect H)) : Prop := ∃ atEnd, .noteAbContentDone atEnd ∈ out

theorem told_append {out out' : List (Effect H)} : Told (out ++ out') ↔ Told out ∨ Told out' := by
  simp only [Told, List.mem_append, exists_or]

theorem told_answer_iff (L : Logic σ) (s₀ : σ) (h : Past) (c : Call) :
    Told (Past.answer L s₀ h c : List (Effect H)) ∨ Past.ended h ↔ Past.ended (c :: h) := by
  have hnot : ∀ es : List (Effect H), (∀ e ∈ es, e.isDone = false) → ¬ Told es := by
    rintro es hes ⟨atEnd, hmem⟩
    exact absurd (hes _ hmem) (by simp [Effect.isDone])
  cases c with
  | noteVbContentDone atEnd =>
      rw [Past.answer, Past.ended, Bool.or_eq_true, decide_eq_true_eq]
      refine or_congr_left ?_
      split_ifs with hmake
      · exact iff_of_true ⟨atEnd, by simp⟩ hmake
      · exact iff_of_false (hnot _ (by simp [Effect.isDone])) hmake
  | noteVbContentAvailable vb =>
      refine or_iff_right (hnot _ ?_)
      rw [Past.answer]
      split_ifs
      · simp [Effect.isDone]
      · simp [Effect.isDone]
  | abDiscard =>
      refine or_iff_right (hnot _ ?_)
      rw [Past.answer]
      split_ifs
      · simp
      · simp [Effect.isDone]
  | abMake =>
      refine or_iff_right (hnot _ ?_)
      rw [Past.answer]
      split_ifs
      · simp [Effect.isDone]
      · simp
  | abStopMaking =>
      refine or_iff_right (hnot _ ?_)
      rw [Past.answer]
      split_ifs
      · simp
      · simp [Effect.isDone]
  | _ => exact or_iff_right (hnot _ (by simp [Past.answer, Effect.isDone]))

theorem told_transcript_iff (L : Logic σ) (s₀ : σ) (h : Past) (calls : List Call) :
    Told (transcript (Past.answer L s₀) h calls : List (Effect H)) ∨ Past.ended h ↔
      Past.ended (calls.reverse ++ h) := by
  induction calls generalizing h with
  | nil => exact or_iff_right (fun hnil => by simp [Told, transcript] at hnil)
  | cons c calls ih =>
      rw [transcript, told_append, List.reverse_cons, List.append_assoc, List.singleton_append,
        ← ih, ← told_answer_iff (H := H) L s₀ h c]
      tauto

/-- It is told so when the end of the virgin body comes after it asked for the adapted one. -/
theorem told_iff (hbody : virgin.body = true)
    (hrun : transact L E uri virgin calls = .ok (x, out)) :
    Told out ↔ Past.ended calls.reverse := by
  obtain ⟨-, -, rfl⟩ := of_transact hbody hrun
  have hall := told_transcript_iff (H := H) L (headerState L E virgin) [] calls
  rw [List.append_nil] at hall
  rw [← hall]
  simp [Told, Past.ended]

end Delivery

end RenaProxy.Squid
