import RenaProxy.Squid.HostCalls
import RenaProxy.Squid.Reply

/-!
# Adapting a whole message

The two logics that a transaction works for. That of requests leaves every body as it is. That of
replies reads a body as a page if a field with the name `content-type`, in small letters, says so,
and takes out the fields with the name `content-length`; names in other letters say nothing.

`page_transact` and `text_transact` put the transaction and the logic of replies together: what the
host gets of a page is at every moment a rewriting of a beginning of it; of another body it gets
nothing before the end. `request_transact` is the same of requests.
-/
namespace RenaProxy.Squid
open StreamTransducer

/-! ## The headers -/

/-- `content-length` -/
def contentLength : List UInt8 :=
  [99, 111, 110, 116, 101, 110, 116, 45, 108, 101, 110, 103, 116, 104]

/-- `content-type` -/
def contentType : List UInt8 := [99, 111, 110, 116, 101, 110, 116, 45, 116, 121, 112, 101]

/-- `html` -/
def html : List UInt8 := [104, 116, 109, 108]

/-- `domain=` -/
def domainIs : List UInt8 := [100, 111, 109, 97, 105, 110, 61]

/-- `Referer` -/
def referer : List UInt8 := [82, 101, 102, 101, 114, 101, 114]

/-- How many bytes `hdr_domain_match` matches at the beginning: `domain=`, a value on one line, the
semicolon and a space behind it. -/
def domainMatch (text : List UInt8) : Option ℕ :=
  if (text.take 7).map tolower = domainIs then
    let value := (text.drop 7).takeWhile fun c => c ≠ 59 ∧ c ≠ 10
    match (text.drop 7).drop value.length with
    | 59 :: 32 :: _ => some (7 + value.length + 2)
    | 59 :: _ => some (7 + value.length + 1)
    | _ => none
  else none

/-- `hdr_domain_match.search`, as a truth value. -/
def domainSearch (value : List UInt8) : Bool :=
  value.tails.any fun text => (domainMatch text).isSome

/-- `hdr_domain_match.sub`. The first bytes are of a match that was replaced. -/
def domainSubFrom (repl : List UInt8) : ℕ → List UInt8 → List UInt8
  | _, [] => []
  | skip + 1, _ :: text => domainSubFrom repl skip text
  | 0, c :: text =>
      match domainMatch (c :: text) with
      | some n => repl ++ domainSubFrom repl (n - 1) text
      | none => c :: domainSubFrom repl 0 text

/-- `adapt_header` of replies -/
def replyAdaptHeader (pc : ProxyController) (state : Reply) (name value : List UInt8) :
    Reply × ℤ × Option (List UInt8) :=
  if name = contentLength then (state, 1, none)
  else if name = contentType then
    (if find (lower value) html ≠ none then { state with html := true } else state, 0, none)
  else if domainSearch value then
    (state, 1, some (domainSubFrom (domainIs ++ pc.suffix ++ [59]) 0 value))
  else
    match pc.doRedirect value with
    | (true, url) => (state, 1, some url)
    | (false, _) => (state, 0, none)

/-- `adapt_header` of requests. The cache of `undo_redirect` is left out. -/
def requestAdaptHeader (pc : ProxyController) (state : Unit) (name value : List UInt8) :
    Unit × ℤ × Option (List UInt8) :=
  if name = referer then
    match pc.undoRedirect value (splitUrl value).2.1 with
    | some (c :: url) => (state, 1, some (c :: url))
    | _ => (state, 0, none)
  else (state, 0, none)

/-- `ecap_logic_reply` -/
def ecapLogicReply (pc : ProxyController) : Logic Reply where
  adaptBegin := adaptBegin
  adaptHeader := replyAdaptHeader pc
  adaptBody state bodyText := adaptBody (total pc.doAllRedirects) state bodyText false
  adaptEnd := adaptEnd (total pc.doAllRedirects)

/-- `ecap_logic_request` -/
def ecapLogicRequest (pc : ProxyController) : Logic Unit where
  adaptBegin := ()
  adaptHeader := requestAdaptHeader pc
  adaptBody _ _ := ((), none)
  adaptEnd _ := none

section Headers
variable {σ H : Type} {pc : ProxyController} {state : Reply}

theorem state_visit (py : σ → List UInt8 → List UInt8 → σ × ℤ × Option (List UInt8))
    (v : HeaderVisitor σ) (name : List UInt8) (value : Area) :
    (v.visit py name value).state = (py v.state (cstr name) value.bytes).1 := by
  have hstate : (adaptHeader py v.state name value).1 =
      (py v.state (cstr name) value.bytes).1 := rfl
  rw [HeaderVisitor.visit, ← hstate]
  generalize adaptHeader py v.state name value = r
  obtain ⟨state, ret⟩ := r
  cases ret with
  | none => rfl
  | some ret => rfl

/-- The field says that the body is a page. -/
def IsHtml (f : Field) : Prop := cstr f.1 = contentType ∧ find (lower f.2.bytes) html ≠ none

instance : DecidablePred IsHtml := fun _ => inferInstanceAs (Decidable (_ ∧ _))

/-- What a field does to the state. -/
theorem replyAdaptHeader_state (pc : ProxyController) (state : Reply) (f : Field) :
    (replyAdaptHeader pc state (cstr f.1) f.2.bytes).1 =
      { state with html := state.html || decide (IsHtml f) } := by
  have hne : contentType ≠ contentLength := by decide
  have hsame : ∀ s : Reply, { s with html := s.html || false } = s := by simp
  rw [replyAdaptHeader]
  by_cases htype : cstr f.1 = contentType
  · rw [if_neg (htype ▸ hne), if_pos htype]
    by_cases hhtml : find (lower f.2.bytes) html = none
    · rw [if_neg (not_not.mpr hhtml), decide_eq_false (fun h => h.2 hhtml), hsame]
    · rw [if_pos hhtml, decide_eq_true ⟨htype, hhtml⟩, Bool.or_true]
  · rw [decide_eq_false (fun h => htype h.1), hsame, if_neg htype]
    split_ifs
    · rfl
    · rfl
    · split
      · rfl
      · rfl

/-- **Whether a body is read as a page.** -/
theorem headerState_ecapLogicReply (pc : ProxyController) (E : EcapHeader H) (virgin : Message H) :
    headerState (ecapLogicReply pc) E virgin =
      { adaptBegin with html := (E.fields virgin.header).any fun f => decide (IsHtml f) } := by
  have hall : ∀ (fs : List Field) (v : HeaderVisitor Reply),
      (fs.foldl (fun hv f => hv.visit (replyAdaptHeader pc) f.1 f.2) v).state =
        { v.state with html := v.state.html || fs.any fun f => decide (IsHtml f) } := by
    intro fs
    induction fs with
    | nil => simp
    | cons f fs ih =>
        intro v
        rw [List.foldl_cons, ih, state_visit, replyAdaptHeader_state, List.any_cons, Bool.or_assoc]
  exact hall _ _

end Headers

/-! ## The body of a reply -/

section Body
variable {R : List UInt8 → List UInt8} {pc : ProxyController} {s : Reply}

/-- There is always something for a part of a body. -/
theorem adaptBody_some (S : s.Shaped) (part : List UInt8) :
    ∃ s' ret, adaptBody (total R) s part false = (s', some ret) ∧ s'.Shaped := by
  by_cases hhtml : s.html = true
  · rw [adaptBody_total S hhtml]
    have S' : ({ s with accum := s.accum ++ part } : Reply).Shaped := ⟨S.wait, S.atrb, S.text⟩
    have A := (incremental_total (R := R) S' (s.accum ++ part)).2.1
    split_ifs
    · exact ⟨_, _, rfl, S'⟩
    · exact ⟨_, _, rfl, A.wait, A.atrb, A.text⟩
  · refine ⟨{ s with accum := s.accum ++ part }, [], ?_, S.wait, S.atrb, S.text⟩
    rw [adaptBody]
    dsimp only
    rw [if_pos hhtml, if_pos Bool.false_ne_true]

theorem bodies_ecapLogicReply (S : s.Shaped) (parts : List (List UInt8)) :
    (ecapLogicReply pc).bodies s parts = adaptBodies (total pc.doAllRedirects) s parts := by
  induction parts generalizing s with
  | nil => rfl
  | cons part parts ih =>
      obtain ⟨s', ret, hpart, S'⟩ := adaptBody_some (R := pc.doAllRedirects) S part
      have hrest := ih S'
      rw [Logic.bodies] at hrest ⊢
      rw [adaptBodies] at hrest ⊢
      rw [trace_cons, trace_cons]
      simp only [ecapLogicReply, hpart, Option.getD_some] at hrest ⊢
      rw [hrest]

/-- What was made of a reply, said by the functions of its logic. -/
theorem made_ecapLogicReply (html : Bool) (h : Past) :
    Past.made (ecapLogicReply pc) { adaptBegin with html := html } h =
      if h.ended then adaptReply (total pc.doAllRedirects) html h.parts
      else (adaptBodies (total pc.doAllRedirects) { adaptBegin with html := html } h.parts).2 := by
  have S : ({ adaptBegin with html := html } : Reply).Shaped :=
    ⟨fun _ => rfl, fun _ => rfl, fun _ => rfl⟩
  rw [Past.made, bodies_ecapLogicReply S]
  split_ifs
  · rfl
  · exact List.append_nil _

end Body

/-! ## What the host gets of a reply -/

section Replies
variable {H : Type} {pc : ProxyController} {E : EcapHeader H} {uri : List UInt8}
  {virgin : Message H} {calls : List Call} {x : Xaction Reply H} {out : List (Effect H)}

/-- What was delivered and what is in the buffer, said by the functions of the logic. -/
theorem text_of_transact (hbody : virgin.body = true)
    (hrun : transact (ecapLogicReply pc) E uri virgin calls = .ok (x, out)) (html : Bool)
    (hhtml : (E.fields virgin.header).any (fun f => decide (IsHtml f)) = html) :
    Past.delivered (ecapLogicReply pc) { adaptBegin with html := html } calls.reverse ++ x.buffer =
      if Past.ended calls.reverse then
        adaptReply (total pc.doAllRedirects) html (Past.parts calls.reverse)
      else (adaptBodies (total pc.doAllRedirects) { adaptBegin with html := html }
        (Past.parts calls.reverse)).2 := by
  have htext := delivered_append_of_transact hbody hrun
  rwa [headerState_ecapLogicReply, hhtml, made_ecapLogicReply] at htext

/-- **What the host gets of a page**, in whatever order it calls: at every moment a beginning of the
virgin body with some parts replaced, and all of it when it is told that there is no more. -/
theorem page_transact (pc : ProxyController) (E : EcapHeader H) (uri : List UInt8)
    (virgin : Message H) (hbody : virgin.body = true)
    (hpage : ∃ f ∈ E.fields virgin.header, IsHtml f) (calls : List Call) (x : Xaction Reply H)
    (out : List (Effect H))
    (hrun : transact (ecapLogicReply pc) E uri virgin calls = .ok (x, out)) :
    ∃ done more, (Past.parts calls.reverse).flatten = done ++ more ∧
      Changes pc.doAllRedirects done (Past.delivered (ecapLogicReply pc)
        (headerState (ecapLogicReply pc) E virgin) calls.reverse ++ x.buffer) ∧
      (Told out → more = []) := by
  have hhtml : ((E.fields virgin.header).any fun f => decide (IsHtml f)) = true := by
    obtain ⟨f, hf, hpage⟩ := hpage
    exact List.any_eq_true.mpr ⟨f, hf, decide_eq_true hpage⟩
  have B := (between_adaptBegin pc.doAllRedirects).adaptBodies (Past.parts calls.reverse)
  rw [headerState_ecapLogicReply, hhtml, text_of_transact hbody hrun true hhtml,
    told_iff hbody hrun]
  by_cases hended : Past.ended calls.reverse
  · exact ⟨_, [], (List.append_nil _).symm, by rw [if_pos hended]; exact B.adaptEnd, fun _ => rfl⟩
  · obtain ⟨read, hread, A⟩ := B.accounts
    obtain ⟨done, hdone, hchanges⟩ := A.changes
    rw [B.buffer, List.append_nil] at hchanges
    rw [List.nil_append, hdone, List.append_assoc] at hread
    rw [if_neg hended]
    exact ⟨done, _, hread, hchanges, fun h => absurd h hended⟩

/-- **What the host gets of another body**: nothing until it is told that there is no more, and then
the body handed over as a whole, unless it begins with `mailto:`. -/
theorem text_transact (pc : ProxyController) (E : EcapHeader H) (uri : List UInt8)
    (virgin : Message H) (hbody : virgin.body = true)
    (htext : ∀ f ∈ E.fields virgin.header, ¬ IsHtml f)
    (calls : List Call) (x : Xaction Reply H) (out : List (Effect H))
    (hrun : transact (ecapLogicReply pc) E uri virgin calls = .ok (x, out)) :
    (¬ Told out → Past.delivered (ecapLogicReply pc) (headerState (ecapLogicReply pc) E virgin)
        calls.reverse ++ x.buffer = []) ∧
      (Told out → Past.delivered (ecapLogicReply pc) (headerState (ecapLogicReply pc) E virgin)
        calls.reverse ++ x.buffer =
          if mailto <+: (Past.parts calls.reverse).flatten ∨ (Past.parts calls.reverse).flatten = []
          then [] else pc.doAllRedirects (Past.parts calls.reverse).flatten) := by
  have hhtml : ((E.fields virgin.header).any fun f => decide (IsHtml f)) = false := by
    simpa using htext
  rw [headerState_ecapLogicReply, hhtml, text_of_transact hbody hrun false hhtml,
    told_iff hbody hrun]
  constructor
  · intro hended
    rw [if_neg hended, adaptBodies_text rfl]
  · intro hended
    rw [if_pos hended, adaptReply_text, partialChange]
    by_cases hmailto : mailto <+: (Past.parts calls.reverse).flatten
    · rw [if_neg Bool.false_ne_true, if_pos hmailto, if_pos (.inl hmailto)]
    by_cases hnil : (Past.parts calls.reverse).flatten = []
    · rw [if_neg Bool.false_ne_true, if_neg hmailto, if_pos hnil, if_pos (.inr hnil)]
    · rw [if_neg Bool.false_ne_true, if_neg hmailto, if_neg hnil,
        if_neg (not_or.mpr ⟨hmailto, hnil⟩)]
      rfl

/-- Two parts of a page, of which one link is split. -/
theorem page_transact_of_parts :
    let pc := ProxyController.init [101, 122] [.proxyDomainRename [97, 46, 98] [99]]
    let virgin : Message (List Field) := ⟨[(contentType, ⟨html ++ [0], 4⟩)], true⟩
    let calls : List Call := [.noteVbContentAvailable [60, 97, 61], .abMake,
      .noteVbContentAvailable [97, 46, 98, 62], .noteVbContentDone true, .abContentShift 3]
    ∃ x out, transact (ecapLogicReply pc) .ofList [104] virgin calls = .ok (x, out) ∧
      x.buffer = [99, 46, 101, 122, 62] ∧
      ∃ done more, [60, 97, 61, 97, 46, 98, 62] = done ++ more ∧
        Changes pc.doAllRedirects done (Past.delivered (ecapLogicReply pc)
          (headerState (ecapLogicReply pc) .ofList virgin) calls.reverse ++ x.buffer) ∧
        (Told out → more = []) := by
  intro pc virgin calls
  obtain ⟨⟨x, out⟩, hrun, hbuffer⟩ := Failure.exists_ok_of_check
    (x := transact (ecapLogicReply pc) .ofList [104] virgin calls)
    (p := fun r => r.1.buffer = [99, 46, 101, 122, 62]) (by decide +kernel)
  exact ⟨x, out, hrun, by simpa using hbuffer,
    page_transact pc .ofList [104] virgin rfl (by decide) calls x out hrun⟩

/-- A page whose field is called `Content-Type`, before its end and at it. -/
theorem text_transact_of_contentType :
    let pc := ProxyController.init [101, 122] [.proxyDomainRename [97, 46, 98] [99]]
    let L := ecapLogicReply pc
    let name : List UInt8 := [67, 111, 110, 116, 101, 110, 116, 45, 84, 121, 112, 101]
    let virgin : Message (List Field) := ⟨[(name, ⟨html ++ [0], 4⟩)], true⟩
    let page : List UInt8 := [60, 97, 61, 97, 46, 98, 62]
    let before : List Call := [.abMake, .noteVbContentAvailable page]
    let calls : List Call := before ++ [.noteVbContentDone true]
    (∃ x out, transact L .ofList [104] virgin before = .ok (x, out) ∧
      Past.delivered L (headerState L .ofList virgin) before.reverse ++ x.buffer = []) ∧
    ∃ x out, transact L .ofList [104] virgin calls = .ok (x, out) ∧
      Past.delivered L (headerState L .ofList virgin) calls.reverse ++ x.buffer =
        pc.doAllRedirects page := by
  intro pc L name virgin page before calls
  obtain ⟨⟨x, out⟩, hrun, -⟩ := Failure.exists_ok_of_check (p := fun _ => true)
    (x := transact L .ofList [104] virgin before) (by decide +kernel)
  obtain ⟨⟨x', out'⟩, hrun', -⟩ := Failure.exists_ok_of_check (p := fun _ => true)
    (x := transact L .ofList [104] virgin calls) (by decide +kernel)
  have hnot : ¬ Told out := (told_iff rfl hrun).not.mpr (by decide)
  have htold : Told out' := (told_iff rfl hrun').mpr (by decide)
  refine ⟨⟨x, out, hrun, ?_⟩, x', out', hrun', ?_⟩
  · exact (text_transact pc .ofList [104] virgin rfl (by decide) before x out hrun).1 hnot
  · rw [(text_transact pc .ofList [104] virgin rfl (by decide) calls x' out' hrun').2 htold]
    exact if_neg (by decide)

end Replies

/-! ## What the host gets of a request -/

section Requests
variable {H : Type}

theorem bodies_ecapLogicRequest (pc : ProxyController) (parts : List (List UInt8)) :
    (ecapLogicRequest pc).bodies () parts = ((), parts.flatten) := by
  induction parts with
  | nil => rfl
  | cons part parts ih =>
      rw [Logic.bodies] at ih ⊢
      rw [trace_cons, List.flatten_cons]
      exact congrArg (fun r => (r.1, part ++ r.2)) ih

/-- **The body of a request** passes as it is, in whatever parts and order of calls. -/
theorem request_transact (pc : ProxyController) (E : EcapHeader H) (uri : List UInt8)
    (virgin : Message H) (hbody : virgin.body = true) (calls : List Call) (x : Xaction Unit H)
    (out : List (Effect H))
    (hrun : transact (ecapLogicRequest pc) E uri virgin calls = .ok (x, out)) :
    Past.delivered (ecapLogicRequest pc) () calls.reverse ++ x.buffer =
      (Past.parts calls.reverse).flatten := by
  have hmade : Past.made (ecapLogicRequest pc) () calls.reverse =
      (Past.parts calls.reverse).flatten := by
    rw [Past.made, bodies_ecapLogicRequest]
    split_ifs
    · exact List.append_nil _
    · exact List.append_nil _
  exact (delivered_append_of_transact hbody hrun).trans hmade

/-- A body in two parts, of which a byte was taken. -/
theorem request_transact_of_two :
    let pc := ProxyController.init [101, 122] [.proxyDomainRename [97, 46, 98] [99]]
    ∃ x out, transact (ecapLogicRequest pc) .ofList [104] ⟨[], true⟩
        [.noteVbContentAvailable [97, 46], .abMake, .abContentShift 1,
          .noteVbContentAvailable [98]] = .ok (x, out) ∧ [97] ++ x.buffer = [97, 46, 98] := by
  intro pc
  obtain ⟨⟨x, out⟩, hrun, -⟩ := Failure.exists_ok_of_check (p := fun _ => true)
    (x := transact (ecapLogicRequest pc) .ofList [104] ⟨[], true⟩
      [.noteVbContentAvailable [97, 46], .abMake, .abContentShift 1, .noteVbContentAvailable [98]])
    (by decide)
  exact ⟨x, out, hrun, request_transact pc .ofList [104] ⟨[], true⟩ rfl _ x out hrun⟩

end Requests

end RenaProxy.Squid
