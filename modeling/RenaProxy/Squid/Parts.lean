import RenaProxy.Squid.Reply

/-!
# In whatever parts a page comes

The parser looks back at the last bytes that it has put into the buffer to see whether a comment
begins. The buffer is emptied where 512 bytes have been collected, so that a comment is not seen
to begin if `!--` is cut there.

`adaptReply_parts` says that a page comes out the same in whatever parts it comes otherwise.
-/
namespace RenaProxy.Squid
open StreamTransducer

namespace Reply

/-- The state with more in front of the buffer, and something else collected. -/
def shift (s : Reply) (o accum : List UInt8) : Reply :=
  { s with buffer := o ++ s.buffer, accum := accum }

end Reply

/-- The last bytes before the second hyphen of the opening of a comment. -/
def Opens (buffer : List UInt8) : Prop := [33, 45] <:+ buffer

instance : DecidablePred Opens := fun _ => inferInstanceAs (Decidable (_ <:+ _))

theorem opens_append (l : List UInt8) (x y : UInt8) : Opens (l ++ [x, y]) ↔ x = 33 ∧ y = 45 := by
  constructor
  · rintro ⟨l', h⟩
    have hlast := List.append_inj_right' h rfl
    simp only [List.cons.injEq, and_true] at hlast
    exact ⟨hlast.1.symm, hlast.2.symm⟩
  · rintro ⟨rfl, rfl⟩
    exact List.suffix_append l _

theorem not_opens_of_length_lt {b : List UInt8} (h : b.length < 2) : ¬ Opens b :=
  fun hopens => absurd hopens.length_le (by simpa using h)

theorem not_opens_of_last {b : List UInt8} {c : UInt8} (h : [c] <:+ b) (hc : c ≠ 45) : ¬ Opens b := by
  obtain ⟨l, rfl⟩ := h
  rintro ⟨l', hl⟩
  have hsplit : (l' ++ [33]) ++ [45] = l ++ [c] := by rw [List.append_assoc]; exact hl
  exact hc (List.head_eq_of_cons_eq (List.append_inj' hsplit rfl).2).symm

theorem exists_last_two {b : List UInt8} (h : 2 ≤ b.length) : ∃ l x y, b = l ++ [x, y] := by
  rcases List.eq_nil_or_concat' b with rfl | ⟨b, y, rfl⟩
  · exact absurd h (by simp)
  rcases List.eq_nil_or_concat' b with rfl | ⟨l, x, rfl⟩
  · exact absurd h (by simp)
  · exact ⟨l, x, y, by rw [List.append_assoc]; rfl⟩

/-- Two bytes are enough to see it. -/
theorem opens_of_suffix {w b : List UInt8} (hw : w <:+ b) (hlen : 2 ≤ w.length) : Opens b ↔ Opens w := by
  obtain ⟨l, rfl⟩ := hw
  obtain ⟨w, x, y, rfl⟩ := exists_last_two hlen
  rw [← List.append_assoc, opens_append, opens_append]

/-- What `inside_parser` asks of the buffer. -/
theorem opens_iff {b : List UInt8} {head : UInt8} :
    ((b ++ [head]).length ≥ 3 ∧ (b ++ [head])[(b ++ [head]).length - 2]? = some 45 ∧
      (b ++ [head])[(b ++ [head]).length - 3]? = some 33) ↔ Opens b := by
  by_cases hlen : 2 ≤ b.length
  · obtain ⟨l, x, y, rfl⟩ := exists_last_two hlen
    rw [opens_append]
    simp [and_comm]
  · refine iff_of_false (fun h => hlen ?_) (not_opens_of_length_lt (not_le.mp hlen))
    have hthree := h.1
    rw [List.length_append, List.length_singleton] at hthree
    omega

section Shift
variable {ε : Type} {R : List UInt8 → Except ε (List UInt8)} {s : Reply} {head : UInt8}

theorem insideParser_eq (s : Reply) (head : UInt8) : insideParser s head =
    (if head = 45 ∧ Opens s.buffer then
      { s with buffer := s.buffer ++ [head], adaptation := .insideComment, stage := 0 }
    else if head = 62 then { s with buffer := s.buffer ++ [head], adaptation := .outsideTag }
    else if head = 61 then { s with buffer := s.buffer ++ [head], adaptation := .insideAttribute }
    else { s with buffer := s.buffer ++ [head] }) := by
  rw [insideParser]
  dsimp only
  simp only [opens_iff]

theorem outsideParser_shift (o accum : List UInt8) :
    outsideParser R (s.shift o accum) head = (outsideParser R s head).map (·.shift o accum) := by
  rw [outsideParser, outsideParser]
  by_cases hmem : head ∈ ([32, 9, 11, 10, 13, 12, 60] : List UInt8)
  · rw [if_pos hmem, if_pos hmem]
    change partialChange R s.contextText s.ignoreText >>= _ = _
    cases partialChange R s.contextText s.ignoreText with
    | error e => rfl
    | ok ab =>
        rw [Failure.bind_ok, Failure.bind_ok]
        by_cases hlt : head = 60
        · simp [hlt, Reply.shift, Except.map, pure, Except.pure]
        · simp [hlt, Reply.shift, Except.map, pure, Except.pure]
  · rw [if_neg hmem, if_neg hmem]
    rfl

theorem attributeParser_shift (o accum : List UInt8) :
    attributeParser R (s.shift o accum) head = (attributeParser R s head).map (·.shift o accum) := by
  rw [attributeParser, attributeParser]
  change (if head ∈ s.adaptationWait.getD delim then _ else _) = _
  by_cases hmem : head ∈ s.adaptationWait.getD delim
  · rw [if_pos hmem, if_pos hmem]
    change partialChange R s.contextAtrb false >>= _ = _
    cases partialChange R s.contextAtrb false with
    | error e => rfl
    | ok ab =>
        rw [Failure.bind_ok, Failure.bind_ok]
        simp [Reply.shift, Except.map, pure, Except.pure]
  · rw [if_neg hmem, if_neg hmem]
    change (if s.adaptationWait = none ∧ (s.contextAtrb ++ [head]).length = 1 then _ else _) = _
    by_cases hwait : s.adaptationWait = none ∧ (s.contextAtrb ++ [head]).length = 1
    · rw [if_pos hwait, if_pos hwait]
      rfl
    · rw [if_neg hwait, if_neg hwait]
      rfl

theorem ignoreComment_shift (o accum : List UInt8) :
    ignoreComment (s.shift o accum) head = (ignoreComment s head).shift o accum := by
  have hbuffer : o ++ s.buffer ++ [head] = o ++ (s.buffer ++ [head]) := List.append_assoc _ _ _
  simp only [ignoreComment, Reply.shift, hbuffer]
  split_ifs <;> rfl

theorem insideParser_shift (o accum : List UInt8)
    (hopens : head = 45 → (Opens (o ++ s.buffer) ↔ Opens s.buffer)) :
    insideParser (s.shift o accum) head = (insideParser s head).shift o accum := by
  have hbuffer : o ++ s.buffer ++ [head] = o ++ (s.buffer ++ [head]) := List.append_assoc _ _ _
  have hcomment : head = 45 ∧ Opens (o ++ s.buffer) ↔ head = 45 ∧ Opens s.buffer :=
    and_congr_right hopens
  simp only [insideParser_eq, Reply.shift, hbuffer, hcomment]
  split_ifs <;> rfl

/-- A step looks at the buffer only to see whether a comment begins. -/
theorem adaptationFunction_shift (head : UInt8) (o accum : List UInt8)
    (hopens : s.adaptation = .insideTag → head = 45 → (Opens (o ++ s.buffer) ↔ Opens s.buffer)) :
    adaptationFunction R (s.shift o accum) head =
      (adaptationFunction R s head).map (·.shift o accum) := by
  have hshift : (s.shift o accum).adaptation = s.adaptation := rfl
  rw [adaptationFunction, adaptationFunction, hshift]
  cases hs : s.adaptation with
  | unknown => exact outsideParser_shift o accum
  | outsideTag => exact outsideParser_shift o accum
  | insideTag =>
      dsimp only
      rw [insideParser_shift o accum (hopens hs)]
      rfl
  | insideAttribute => exact attributeParser_shift o accum
  | insideComment =>
      dsimp only
      rw [ignoreComment_shift]
      rfl

end Shift

/-! ## What the buffer ends with inside a tag -/

section Ends
variable {ε : Type} {R : List UInt8 → Except ε (List UInt8)} {s s' : Reply} {head : UInt8}
  {a : Adaptation} {x rest read buffer text : List UInt8}

/-- The text and the buffer end alike: with two bytes, or with one at which no comment begins. -/
def EndAlike (x buffer : List UInt8) : Prop :=
  ∃ w, w <:+ x ∧ w <:+ buffer ∧ (2 ≤ w.length ∨ ∃ c, w = [c] ∧ c ≠ 33 ∧ c ≠ 45)

theorem endAlike_append (h : head ≠ 33 ∧ head ≠ 45) (x buffer : List UInt8) :
    EndAlike (x ++ [head]) (buffer ++ [head]) :=
  ⟨[head], List.suffix_append x _, List.suffix_append buffer _, .inr ⟨head, rfl, h⟩⟩

theorem EndAlike.append (h : EndAlike x buffer) (head : UInt8) :
    EndAlike (x ++ [head]) (buffer ++ [head]) := by
  obtain ⟨w, ⟨l, rfl⟩, ⟨l', rfl⟩, hw⟩ := h
  refine ⟨w ++ [head], ⟨l, (List.append_assoc l w _).symm⟩, ⟨l', (List.append_assoc l' w _).symm⟩, .inl ?_⟩
  rcases hw with hw | ⟨c, rfl, -⟩
  · rw [List.length_append]
    omega
  · exact le_rfl

theorem EndAlike.opens_iff (h : EndAlike x buffer) : Opens x ↔ Opens buffer := by
  obtain ⟨w, hx, hbuffer, hw | ⟨c, rfl, -, hc⟩⟩ := h
  · rw [opens_of_suffix hx hw, opens_of_suffix hbuffer hw]
  · exact iff_of_false (not_opens_of_last hx hc) (not_opens_of_last hbuffer hc)

theorem EndAlike.suffix_iff (h : EndAlike x buffer) : [33] <:+ x ↔ [33] <:+ buffer := by
  obtain ⟨w, ⟨l, rfl⟩, ⟨l', rfl⟩, hw⟩ := h
  have hne : w ≠ [] := by
    rcases hw with hw | ⟨c, rfl, -⟩
    · exact fun hnil => absurd hw (by simp [hnil])
    · exact List.cons_ne_nil c []
  rw [List.singleton_suffix_iff_getLast?_eq_some, List.singleton_suffix_iff_getLast?_eq_some,
    List.getLast?_append_of_ne_nil _ hne, List.getLast?_append_of_ne_nil _ hne]

/-- What was read from a point on, where the parser was in state `a` and the buffer was empty: inside
a tag the buffer ends as the text does, or is all of it. -/
structure Reads (a : Adaptation) (read : List UInt8) (s : Reply) : Prop where
  wait : ∀ w ∈ s.adaptationWait, 33 ∉ w ∧ 45 ∉ w
  tag : s.adaptation = .insideTag → (a = .insideTag ∧ s.buffer = read) ∨ EndAlike read s.buffer

theorem Reads.outsideParser (S : Reads a read s) (hs : s.adaptation ≠ .insideTag)
    (h : outsideParser R s head = .ok s') : Reads a (read ++ [head]) s' := by
  rw [Squid.outsideParser] at h
  by_cases hmem : head ∈ ([32, 9, 11, 10, 13, 12, 60] : List UInt8)
  · rw [if_pos hmem] at h
    obtain ⟨ab, -, h⟩ := Failure.bind_eq_ok.mp h
    obtain rfl := Except.ok.inj h
    by_cases hlt : head = 60
    · rw [if_pos hlt]
      exact ⟨S.wait, fun _ => .inr (endAlike_append (hlt ▸ by decide) _ _)⟩
    · rw [if_neg hlt]
      exact ⟨S.wait, fun htag => absurd htag hs⟩
  · rw [if_neg hmem] at h
    obtain rfl := Except.ok.inj h
    exact ⟨S.wait, fun htag => absurd htag hs⟩

theorem Reads.attributeParser (S : Reads a read s) (hs : s.adaptation ≠ .insideTag)
    (h : attributeParser R s head = .ok s') : Reads a (read ++ [head]) s' := by
  have hdelim : (33 : UInt8) ∉ delim ∧ (45 : UInt8) ∉ delim := by decide
  have hwaiting : 33 ∉ s.adaptationWait.getD delim ∧ 45 ∉ s.adaptationWait.getD delim := by
    cases hwait : s.adaptationWait with
    | none => exact hdelim
    | some w => exact S.wait w hwait
  rw [Squid.attributeParser] at h
  dsimp only at h
  by_cases hmem : head ∈ s.adaptationWait.getD delim
  · rw [if_pos hmem] at h
    obtain ⟨ab, -, h⟩ := Failure.bind_eq_ok.mp h
    obtain rfl := Except.ok.inj h
    refine ⟨fun w hw => absurd hw (by simp), fun _ => .inr (endAlike_append ⟨?_, ?_⟩ _ _)⟩
    · exact fun heq => hwaiting.1 (heq ▸ hmem)
    · exact fun heq => hwaiting.2 (heq ▸ hmem)
  · rw [if_neg hmem] at h
    by_cases hone : s.adaptationWait = none ∧ (s.contextAtrb ++ [head]).length = 1
    · rw [if_pos hone] at h
      obtain rfl := Except.ok.inj h
      refine ⟨?_, fun htag => absurd htag hs⟩
      intro w hw
      obtain rfl := Option.some.inj hw
      split_ifs with hquote
      · have hnil : s.contextAtrb = [] := by
          have hlen := hone.2
          rw [List.length_append] at hlen
          exact List.length_eq_zero_iff.mp (by simpa using hlen)
        rw [hnil]
        rcases List.mem_cons.mp hquote with rfl | hquote
        · decide
        · obtain rfl := List.mem_singleton.mp hquote
          decide
      · exact hdelim
    · rw [if_neg hone] at h
      obtain rfl := Except.ok.inj h
      exact ⟨S.wait, fun htag => absurd htag hs⟩

theorem Reads.insideParser (S : Reads a read s) (hs : s.adaptation = .insideTag) :
    Reads a (read ++ [head]) (insideParser s head) := by
  have htag : (a = .insideTag ∧ s.buffer ++ [head] = read ++ [head]) ∨
      EndAlike (read ++ [head]) (s.buffer ++ [head]) := by
    rcases S.tag hs with ⟨ha, hbuffer⟩ | halike
    · exact .inl ⟨ha, by rw [hbuffer]⟩
    · exact .inr (halike.append head)
  rw [insideParser_eq]
  split_ifs
  · exact ⟨S.wait, fun h => absurd h (by simp)⟩
  · exact ⟨S.wait, fun h => absurd h (by simp)⟩
  · exact ⟨S.wait, fun h => absurd h (by simp)⟩
  · exact ⟨S.wait, fun _ => htag⟩

theorem Reads.ignoreComment (S : Reads a read s) (hs : s.adaptation ≠ .insideTag) :
    Reads a (read ++ [head]) (ignoreComment s head) := by
  rw [Squid.ignoreComment]
  dsimp only
  split_ifs
  · exact ⟨S.wait, fun h => absurd h hs⟩
  · exact ⟨S.wait, fun h => absurd h (by simp)⟩
  · exact ⟨S.wait, fun h => absurd h hs⟩

theorem Reads.step (S : Reads a read s) (h : adaptationFunction R s head = .ok s') :
    Reads a (read ++ [head]) s' := by
  cases hs : s.adaptation with
  | unknown =>
      rw [adaptationFunction, hs] at h
      exact S.outsideParser (by simp [hs]) h
  | outsideTag =>
      rw [adaptationFunction, hs] at h
      exact S.outsideParser (by simp [hs]) h
  | insideTag =>
      rw [adaptationFunction, hs] at h
      obtain rfl := Except.ok.inj h
      exact S.insideParser hs
  | insideAttribute =>
      rw [adaptationFunction, hs] at h
      exact S.attributeParser (by simp [hs]) h
  | insideComment =>
      rw [adaptationFunction, hs] at h
      obtain rfl := Except.ok.inj h
      exact S.ignoreComment (by simp [hs])

/-- A text may be cut between `!` and the second hyphen behind it. -/
def Straddles (x rest : List UInt8) : Prop :=
  ([33] <:+ x ∧ [45, 45] <+: rest) ∨ ([33, 45] <:+ x ∧ [45] <+: rest)

/-- Where no opening is cut, it is seen in what came after the cut. -/
theorem Reads.opens_iff {o : List UInt8} (S : Reads a read s) (hs : s.adaptation = .insideTag)
    (h : a = .insideTag → ¬ Straddles o (read ++ [45])) : Opens (o ++ s.buffer) ↔ Opens s.buffer := by
  rcases S.tag hs with ⟨ha, hbuffer⟩ | halike
  · have hnot := not_or.mp (h ha)
    by_cases hlen : 2 ≤ s.buffer.length
    · exact opens_of_suffix (List.suffix_append o _) hlen
    refine iff_of_false ?_ (not_opens_of_length_lt (not_le.mp hlen))
    rw [hbuffer] at hlen ⊢
    cases read with
    | nil =>
        rw [List.append_nil]
        exact fun hopens => hnot.2 ⟨hopens, List.prefix_rfl⟩
    | cons c read =>
        obtain rfl : read = [] := List.length_eq_zero_iff.mp (by rw [List.length_cons] at hlen; omega)
        rintro ⟨l, hl⟩
        have hsplit : (l ++ [33]) ++ [45] = o ++ [c] := by rw [List.append_assoc]; exact hl
        obtain ⟨rfl, hc⟩ := List.append_inj' hsplit rfl
        obtain rfl := List.head_eq_of_cons_eq hc
        exact hnot.1 ⟨List.suffix_append l _, List.prefix_rfl⟩
  · obtain ⟨w, -, hw, hends⟩ := halike
    have halike' : EndAlike (o ++ s.buffer) s.buffer :=
      ⟨w, hw.trans (List.suffix_append o _), hw, hends⟩
    exact halike'.opens_iff

theorem Straddles.mono {x rest rest' : List UInt8} (h : Straddles x rest) (hrest : rest <+: rest') :
    Straddles x rest' :=
  h.imp (fun h => ⟨h.1, h.2.trans hrest⟩) fun h => ⟨h.1, h.2.trans hrest⟩

/-- What is in front of the buffer does not matter where no opening is cut. -/
theorem Reads.incremental_shift (S : Reads a read s) (text o accum : List UInt8)
    (h : a = .insideTag → ¬ Straddles o (read ++ text)) :
    incrementalAdaptation R (s.shift o accum) text =
      ((incrementalAdaptation R s text).1.shift o accum, (incrementalAdaptation R s text).2) := by
  induction text generalizing s read with
  | nil => rfl
  | cons head text ih =>
      have hshift := adaptationFunction_shift (R := R) (s := s) head o accum (by
        rintro hs rfl
        refine S.opens_iff hs fun ha hstraddles => h ha (hstraddles.mono ?_)
        exact ⟨text, by rw [List.append_assoc]; rfl⟩)
      rw [incrementalAdaptation, incrementalAdaptation, hshift]
      cases hstep : adaptationFunction R s head with
      | error e => rfl
      | ok s' =>
          have hrest := ih (S.step hstep) fun ha => by rw [List.append_assoc]; exact h ha
          exact hrest

end Ends

/-! ## The parser does not depend on what is put in -/

section Control
variable {R R' : List UInt8 → List UInt8} {s s' t t' : Reply} {head : UInt8} {x : List UInt8}

/-- The state in which a page begins. -/
def page : Reply := { adaptBegin with html := true }

theorem Reads.after {a : Adaptation} {read : List UInt8} (S : s.Shaped) (S' : Reads a read s)
    (text : List UInt8) : Reads a (read ++ text) (after R s text) := by
  have hstep : ∀ (read : List UInt8) (s₁ : Reply) (head : UInt8), s₁.Shaped ∧ Reads a read s₁ →
      ∃ s₂, adaptationFunction (total R) s₁ head = .ok s₂ ∧ s₂.Shaped ∧ Reads a (read ++ [head]) s₂ := by
    rintro read s₁ head ⟨S₁, S₁'⟩
    obtain ⟨s₂, hstep, hshaped, -, -⟩ := adaptationFunction_total (R := R) S₁ head
    exact ⟨s₂, hstep, hshaped, S₁'.step hstep⟩
  obtain ⟨s', hrun, -, h⟩ := incremental_of_step read hstep ⟨S, S'⟩ text
  rw [Squid.after, hrun]
  exact h

theorem shaped_page : page.Shaped := ⟨fun _ => rfl, fun _ => rfl, fun _ => rfl⟩

/-- The page up to some place. -/
theorem reads_page (R : List UInt8 → List UInt8) (x : List UInt8) : Reads .unknown x (after R page x) := by
  have hpage : Reads .unknown [] page := by
    refine ⟨fun w hw => ?_, fun htag => ?_⟩
    · cases hw
    · cases htag
  exact hpage.after shaped_page x

theorem after_append (S : s.Shaped) (x text : List UInt8) :
    after R s (x ++ text) = after R (after R s x) text := by
  induction x generalizing s with
  | nil => rfl
  | cons head x ih =>
      obtain ⟨s', hstep, hshaped, -, -⟩ := adaptationFunction_total (R := R) S head
      have hafter : ∀ text, after R s (head :: text) = after R s' text := by
        intro text
        rw [after, incrementalAdaptation, hstep]
        rfl
      rw [List.cons_append, hafter, hafter, ih hshaped]

/-- What decides which parser reads on, and what it takes together. -/
structure SameControl (s t : Reply) : Prop where
  adaptation : s.adaptation = t.adaptation
  contextAtrb : s.contextAtrb = t.contextAtrb
  contextText : s.contextText = t.contextText
  stage : s.stage = t.stage
  adaptationWait : s.adaptationWait = t.adaptationWait

theorem SameControl.outsideParser (C : SameControl s t) (h : outsideParser (total R) s head = .ok s')
    (h' : outsideParser (total R') t head = .ok t') : SameControl s' t' := by
  rw [Squid.outsideParser] at h h'
  by_cases hmem : head ∈ ([32, 9, 11, 10, 13, 12, 60] : List UInt8)
  · rw [if_pos hmem] at h h'
    obtain ⟨ab, -, h⟩ := Failure.bind_eq_ok.mp h
    obtain ⟨ab', -, h'⟩ := Failure.bind_eq_ok.mp h'
    obtain rfl := Except.ok.inj h
    obtain rfl := Except.ok.inj h'
    by_cases hlt : head = 60
    · rw [if_pos hlt, if_pos hlt]
      exact ⟨rfl, C.contextAtrb, rfl, C.stage, C.adaptationWait⟩
    · rw [if_neg hlt, if_neg hlt]
      exact ⟨C.adaptation, C.contextAtrb, rfl, C.stage, C.adaptationWait⟩
  · rw [if_neg hmem] at h h'
    obtain rfl := Except.ok.inj h
    obtain rfl := Except.ok.inj h'
    exact ⟨C.adaptation, C.contextAtrb, congrArg (· ++ [head]) C.contextText, C.stage, C.adaptationWait⟩

theorem SameControl.attributeParser (C : SameControl s t) (h : attributeParser (total R) s head = .ok s')
    (h' : attributeParser (total R') t head = .ok t') : SameControl s' t' := by
  rw [Squid.attributeParser] at h h'
  dsimp only at h h'
  rw [← C.adaptationWait, ← C.contextAtrb] at h'
  by_cases hmem : head ∈ s.adaptationWait.getD delim
  · rw [if_pos hmem] at h h'
    obtain ⟨ab, -, h⟩ := Failure.bind_eq_ok.mp h
    obtain ⟨ab', -, h'⟩ := Failure.bind_eq_ok.mp h'
    obtain rfl := Except.ok.inj h
    obtain rfl := Except.ok.inj h'
    exact ⟨rfl, rfl, C.contextText, C.stage, rfl⟩
  · rw [if_neg hmem] at h h'
    by_cases hone : s.adaptationWait = none ∧ (s.contextAtrb ++ [head]).length = 1
    · rw [if_pos hone] at h h'
      obtain rfl := Except.ok.inj h
      obtain rfl := Except.ok.inj h'
      exact ⟨C.adaptation, rfl, C.contextText, C.stage, rfl⟩
    · rw [if_neg hone] at h h'
      obtain rfl := Except.ok.inj h
      obtain rfl := Except.ok.inj h'
      exact ⟨C.adaptation, rfl, C.contextText, C.stage, rfl⟩

theorem SameControl.insideParser (C : SameControl s t) (hopens : Opens s.buffer ↔ Opens t.buffer) :
    SameControl (insideParser s head) (insideParser t head) := by
  rw [insideParser_eq, insideParser_eq]
  simp only [hopens]
  split_ifs
  · exact ⟨rfl, C.contextAtrb, C.contextText, rfl, C.adaptationWait⟩
  · exact ⟨rfl, C.contextAtrb, C.contextText, C.stage, C.adaptationWait⟩
  · exact ⟨rfl, C.contextAtrb, C.contextText, C.stage, C.adaptationWait⟩
  · exact ⟨C.adaptation, C.contextAtrb, C.contextText, C.stage, C.adaptationWait⟩

theorem SameControl.ignoreComment (C : SameControl s t) :
    SameControl (ignoreComment s head) (ignoreComment t head) := by
  rw [Squid.ignoreComment, Squid.ignoreComment]
  simp only [C.stage]
  split_ifs
  · exact ⟨C.adaptation, C.contextAtrb, C.contextText, rfl, C.adaptationWait⟩
  · exact ⟨rfl, C.contextAtrb, C.contextText, rfl, C.adaptationWait⟩
  · exact ⟨C.adaptation, C.contextAtrb, C.contextText, rfl, C.adaptationWait⟩

/-- Inside a tag of a page the buffer tells as much as the page. -/
theorem Reads.opens_page (S : Reads .unknown x s) (hs : s.adaptation = .insideTag) :
    Opens x ↔ Opens s.buffer := by
  rcases S.tag hs with ⟨ha, -⟩ | halike
  · cases ha
  · exact halike.opens_iff

theorem SameControl.step (C : SameControl s t) (S : Reads .unknown x s) (T : Reads .unknown x t)
    (h : adaptationFunction (total R) s head = .ok s')
    (h' : adaptationFunction (total R') t head = .ok t') : SameControl s' t' := by
  have ht : t.adaptation = s.adaptation := C.adaptation.symm
  rw [adaptationFunction] at h h'
  rw [ht] at h'
  cases hs : s.adaptation with
  | unknown =>
      rw [hs] at h h'
      exact C.outsideParser h h'
  | outsideTag =>
      rw [hs] at h h'
      exact C.outsideParser h h'
  | insideTag =>
      rw [hs] at h h'
      obtain rfl := Except.ok.inj h
      obtain rfl := Except.ok.inj h'
      exact C.insideParser ((S.opens_page hs).symm.trans (T.opens_page (ht.trans hs)))
  | insideAttribute =>
      rw [hs] at h h'
      exact C.attributeParser h h'
  | insideComment =>
      rw [hs] at h h'
      obtain rfl := Except.ok.inj h
      obtain rfl := Except.ok.inj h'
      exact C.ignoreComment

/-- Which parser reads on does not depend on what is put in. -/
theorem sameControl_page (R R' : List UInt8 → List UInt8) (x : List UInt8) :
    SameControl (after R page x) (after R' page x) := by
  induction x using List.reverseRecOn with
  | nil => exact ⟨rfl, rfl, rfl, rfl, rfl⟩
  | append_singleton x head ih =>
      obtain ⟨s', hstep, -⟩ := adaptationFunction_total (R := R) (incremental_total shaped_page x).2.1 head
      obtain ⟨t', hstep', -⟩ := adaptationFunction_total (R := R') (incremental_total shaped_page x).2.1 head
      have hone : ∀ {R : List UInt8 → List UInt8} {s s' : Reply},
          adaptationFunction (total R) s head = .ok s' → after R s [head] = s' := by
        intro R s s' h
        rw [after, incrementalAdaptation, h]
        rfl
      rw [after_append shaped_page, after_append shaped_page, hone hstep, hone hstep']
      exact ih.step (reads_page R x) (reads_page R' x) hstep hstep'

end Control

/-! ## The blocks that are read at once -/

/-- What is collected before it is read, and what is left at the end. -/
def blocks : List UInt8 → List (List UInt8) → List (List UInt8)
  | accum, [] => [accum]
  | accum, part :: parts =>
      if (accum ++ part).length < 512 then blocks (accum ++ part) parts
      else (accum ++ part) :: blocks [] parts

theorem blocks_ne_nil (accum : List UInt8) (parts : List (List UInt8)) : blocks accum parts ≠ [] := by
  induction parts generalizing accum with
  | nil => exact List.cons_ne_nil accum []
  | cons part parts ih =>
      rw [blocks]
      split_ifs
      · exact ih _
      · exact List.cons_ne_nil _ _

theorem flatten_blocks (accum : List UInt8) (parts : List (List UInt8)) :
    (blocks accum parts).flatten = accum ++ parts.flatten := by
  induction parts generalizing accum with
  | nil => simp [blocks]
  | cons part parts ih =>
      rw [blocks]
      split_ifs
      · rw [ih, List.flatten_cons, List.append_assoc]
      · rw [List.flatten_cons, ih, List.nil_append, List.flatten_cons, List.append_assoc]

section Blocks
variable (R : List UInt8 → List UInt8)

/-- What is put out for blocks: the buffer of each, and at the end what is pending. -/
def readBlocks : Reply → List (List UInt8) → List UInt8
  | s, [] => s.pending
  | s, block :: bs =>
      let s' := after R { s with accum := block } block
      s'.buffer ++ readBlocks { s' with buffer := [], accum := [] } bs

/-- After `x` the parser is inside a tag, and `x` ends within the opening of a comment. -/
def Cut (x rest : List UInt8) : Prop := (after id page x).adaptation = .insideTag ∧ Straddles x rest

/-- No end of a block cuts the opening of a comment. -/
def Uncut : List UInt8 → List (List UInt8) → Prop
  | _, [] => True
  | x, block :: bs => ¬ Cut x (block :: bs).flatten ∧ Uncut (x ++ block) bs

variable {R} {s : Reply} {text x : List UInt8}

/-- What ends a page that was read as far as its parser goes. -/
theorem straddles_of_reads {o rest : List UInt8} (S : Reads .unknown x s) (hs : s.adaptation = .insideTag)
    (ho : s.buffer = o) (h : Straddles o rest) : Straddles x rest := by
  rcases S.tag hs with ⟨ha, -⟩ | halike
  · cases ha
  · subst ho
    exact h.imp (fun h => ⟨halike.suffix_iff.mpr h.1, h.2⟩) fun h => ⟨halike.opens_iff.mpr h.1, h.2⟩

/-- **A page in blocks**: where no opening is cut it comes out as if it was read at once. -/
theorem readBlocks_eq {o accum : List UInt8} (hbuffer : s.buffer = [])
    (hs : after R page x = s.shift o accum) {bs : List (List UInt8)} (h : Uncut x bs) :
    o ++ readBlocks R s bs =
      (after R page (x ++ bs.flatten)).buffer ++ (after R page (x ++ bs.flatten)).pending := by
  induction bs generalizing s x o accum with
  | nil =>
      rw [List.flatten_nil, List.append_nil, hs, readBlocks]
      rw [Reply.shift, hbuffer, List.append_nil]
      rfl
  | cons block bs ih =>
      obtain ⟨hcut, huncut⟩ := h
      have S : Reads .unknown x (s.shift o accum) := hs ▸ reads_page R x
      have hread : Reads s.adaptation [] { s with accum := block } :=
        ⟨S.wait, fun htag => .inl ⟨htag, hbuffer⟩⟩
      have hshift := hread.incremental_shift (R := total R) block o accum (by
        intro htag hstraddles
        have ho : (s.shift o accum).buffer = o := by rw [Reply.shift, hbuffer, List.append_nil]
        have hx := straddles_of_reads S htag ho hstraddles
        have hcontrol := (sameControl_page id R x).adaptation
        exact hcut ⟨hcontrol.trans (hs ▸ htag), hx.mono ⟨bs.flatten, by rw [List.nil_append, List.flatten_cons]⟩⟩)
      have hafter : after R page (x ++ block) = (after R { s with accum := block } block).shift o accum := by
        rw [after_append shaped_page, hs, after]
        exact congrArg Prod.fst hshift
      have hnext : after R page (x ++ block) =
          ({ after R { s with accum := block } block with buffer := [], accum := [] } : Reply).shift
            (o ++ (after R { s with accum := block } block).buffer) accum := by
        rw [hafter, Reply.shift, Reply.shift, List.append_nil]
      have hrest := ih rfl hnext huncut
      rw [List.flatten_cons, ← List.append_assoc x, ← hrest, readBlocks, List.append_assoc]

theorem readBlocks_accum {accum : List UInt8} {bs : List (List UInt8)} (h : bs ≠ []) :
    readBlocks R { s with accum := accum } bs = readBlocks R s bs := by
  cases bs with
  | nil => exact absurd rfl h
  | cons block bs => rfl

/-- The calls of `adapt_body` and `adapt_end` read the page in blocks. -/
theorem adaptBodies_blocks (S : s.Shaped) (hhtml : s.html = true) (hlimit : s.accumLimit = 512)
    (hbuffer : s.buffer = []) (parts : List (List UInt8)) :
    (adaptBodies (total R) s parts).2 ++
      (adaptEnd (total R) (adaptBodies (total R) s parts).1).getD [] =
    readBlocks R s (blocks s.accum parts) := by
  induction parts generalizing s with
  | nil =>
      have haccum : ({ s with accum := s.accum } : Reply) = s := rfl
      rw [adaptBodies, trace_nil, List.nil_append, adaptEnd_total S hhtml hbuffer, blocks, readBlocks, haccum]
      rfl
  | cons part parts ih =>
      have S' : ({ s with accum := s.accum ++ part } : Reply).Shaped := ⟨S.wait, S.atrb, S.text⟩
      rw [adaptBodies, trace_cons, adaptBody_total S hhtml part, ← adaptBodies, blocks, ← hlimit]
      split_ifs
      · have hrest := ih S' hhtml hlimit hbuffer
        rw [readBlocks_accum (blocks_ne_nil _ parts)] at hrest
        exact hrest
      · obtain ⟨-, hshaped, hkept⟩ := incremental_total (R := R) S' (s.accum ++ part)
        have hrest := ih
          (s := { after R { s with accum := s.accum ++ part } (s.accum ++ part) with buffer := [], accum := [] })
          ⟨hshaped.wait, hshaped.atrb, hshaped.text⟩ (hkept.html.trans hhtml)
          (hkept.accumLimit.trans hlimit) rfl
        dsimp only at hrest ⊢
        rw [readBlocks, ← hrest, Option.getD_some, List.append_assoc]

theorem adaptReply_blocks (parts : List (List UInt8)) :
    adaptReply (total R) true parts = readBlocks R page (blocks [] parts) :=
  adaptBodies_blocks shaped_page rfl rfl rfl parts

/-- A page whose openings are not cut comes out as if it was read at once. -/
theorem adaptReply_uncut {parts : List (List UInt8)} (h : Uncut [] (blocks [] parts)) :
    adaptReply (total R) true parts =
      (after R page parts.flatten).buffer ++ (after R page parts.flatten).pending := by
  have hbegin : after R page [] = page.shift [] [] := rfl
  have hread := readBlocks_eq rfl hbegin h
  rw [List.nil_append, List.nil_append, flatten_blocks, List.nil_append] at hread
  rw [adaptReply_blocks, hread]

end Blocks

/-! ## Which places do not matter -/

section Within
variable {x rest : List UInt8}

/-- After `x` the parser is inside a tag, right behind `!` or `!-`. -/
def Within (x : List UInt8) : Prop :=
  (after id page x).adaptation = .insideTag ∧ ([33] <:+ x ∨ [33, 45] <:+ x)

theorem Cut.within (h : Cut x rest) : Within x := ⟨h.1, h.2.imp And.left And.left⟩

theorem not_cut_nil (x : List UInt8) : ¬ Cut x [] := by
  rintro ⟨-, ⟨-, h⟩ | ⟨-, h⟩⟩
  · exact absurd h (by decide)
  · exact absurd h (by decide)

theorem not_cut_begin (rest : List UInt8) : ¬ Cut [] rest := fun h => absurd h.1 (by decide)

/-- `=a>`, which is an attribute in a tag and nothing in a comment. -/
def assigned : List UInt8 := [61, 97, 62]

/-- Puts `!` in the place of everything. -/
def shout : List UInt8 → List UInt8 := fun _ => [33]

/-- What is read of it in a comment, with all fields of the state. -/
theorem after_comment (html ignoreText : Bool) (b accum : List UInt8) (limit : ℕ) :
    (after shout ⟨html, ignoreText, .insideComment, b, [], [], accum, limit, 0, none⟩ assigned).buffer =
      b ++ assigned ∧
    (after shout ⟨html, ignoreText, .insideComment, b, [], [], accum, limit, 0, none⟩ assigned).pending = [] := by
  simp [after, assigned, incrementalAdaptation, adaptationFunction, ignoreComment, pure, Except.pure,
    Reply.pending]

/-- A hyphen in a tag. -/
theorem after_hyphen (html ignoreText : Bool) (b accum rest : List UInt8) (limit stage : ℕ) :
    after shout ⟨html, ignoreText, .insideTag, b, [], [], accum, limit, stage, none⟩ (45 :: rest) =
      if Opens b then
        after shout ⟨html, ignoreText, .insideComment, b ++ [45], [], [], accum, limit, 0, none⟩ rest
      else after shout ⟨html, ignoreText, .insideTag, b ++ [45], [], [], accum, limit, stage, none⟩ rest := by
  have hstep : ∀ s : Reply, s.adaptation = .insideTag →
      after shout s (45 :: rest) = after shout (insideParser s 45) rest := by
    intro s hs
    rw [after, incrementalAdaptation, adaptationFunction, hs]
    rfl
  have hnot : ¬ (45 : UInt8) = 62 ∧ ¬ (45 : UInt8) = 61 := by decide
  by_cases hopens : Opens b
  · rw [if_pos hopens, hstep _ rfl, insideParser_eq, if_pos ⟨rfl, hopens⟩]
  · rw [if_neg hopens, hstep _ rfl, insideParser_eq, if_neg fun h => hopens h.2, if_neg hnot.1,
      if_neg hnot.2]

/-- `--=a>` where the opening is cut: it is an attribute. -/
theorem after_cut (html ignoreText : Bool) (accum : List UInt8) (limit stage : ℕ) (hyphens : List UInt8)
    (h : hyphens = [45] ∨ hyphens = [45, 45]) :
    (after shout ⟨html, ignoreText, .insideTag, [], [], [], accum, limit, stage, none⟩
      (hyphens ++ assigned)).buffer = hyphens ++ [61, 33, 62] ∧
    (after shout ⟨html, ignoreText, .insideTag, [], [], [], accum, limit, stage, none⟩
      (hyphens ++ assigned)).pending = [] := by
  rcases h with rfl | rfl
  · exact ⟨rfl, rfl⟩
  · exact ⟨rfl, rfl⟩

/-- Cut where it matters, `--=a>` comes out in another way. -/
theorem exists_apart_within (h : Within x) : ∃ rest, rest.length < 512 ∧
    readBlocks shout page [x, rest] ≠
      (after shout page (x ++ rest)).buffer ++ (after shout page (x ++ rest)).pending := by
  obtain ⟨-, S, -⟩ := incremental_total (R := shout) shaped_page x
  have hs := (sameControl_page shout id x).adaptation.trans h.1
  have hlast : ([33] <:+ x ↔ [33] <:+ (after shout page x).buffer) ∧
      (Opens x ↔ Opens (after shout page x).buffer) := by
    rcases (reads_page shout x).tag hs with ⟨ha, -⟩ | halike
    · cases ha
    · exact ⟨halike.suffix_iff, halike.opens_iff⟩
  have hatrb := S.atrb (by simp [hs])
  have htext := S.text (.inl hs)
  have hwait := S.wait (by simp [hs])
  have hpage : Reads .unknown [] page := reads_page shout []
  have haccum := congrArg Prod.fst (hpage.incremental_shift (R := total shout) x [] x
    fun ha => by cases ha)
  change after shout { page with accum := x } x = (after shout page x).shift [] x at haccum
  have hread : ∀ rest, readBlocks shout page [x, rest] = (after shout page x).buffer ++
      ((after shout { after shout page x with buffer := [], accum := rest } rest).buffer ++
        (after shout { after shout page x with buffer := [], accum := rest } rest).pending) := by
    intro rest
    rw [readBlocks, haccum]
    rfl
  simp only [hread, after_append shaped_page]
  generalize after shout page x = s at hs hlast hatrb htext hwait ⊢
  obtain ⟨html, ignoreText, adaptation, b, atrb, text, accum, limit, stage, wait⟩ := s
  dsimp only at hs hlast hatrb htext hwait ⊢
  subst hs hatrb htext hwait
  have hcut := fun accum hyphens => after_cut html ignoreText accum limit stage hyphens
  rcases h.2 with h33 | hopens
  · -- both hyphens come after the cut
    refine ⟨[45, 45] ++ assigned, by decide, ?_⟩
    obtain ⟨hbuffer, hpending⟩ := hcut ([45, 45] ++ assigned) [45, 45] (.inr rfl)
    obtain ⟨l, rfl⟩ := hlast.1.mp h33
    have hclosed : ¬ Opens (l ++ [33]) := not_opens_of_last (List.suffix_append l _) (by decide)
    have hopens : Opens (l ++ [33] ++ [45]) := ⟨l, by rw [List.append_assoc]; rfl⟩
    have hcons : ([45, 45] : List UInt8) ++ assigned = 45 :: 45 :: assigned := rfl
    obtain ⟨hbuffer', hpending'⟩ := after_comment html ignoreText (l ++ [33] ++ [45] ++ [45]) accum limit
    rw [hbuffer, hpending, hcons, after_hyphen, if_neg hclosed, after_hyphen, if_pos hopens, hbuffer',
      hpending']
    simp [assigned]
  · -- the first hyphen comes before the cut
    refine ⟨[45] ++ assigned, by decide, ?_⟩
    obtain ⟨hbuffer, hpending⟩ := hcut ([45] ++ assigned) [45] (.inl rfl)
    have hcons : ([45] : List UInt8) ++ assigned = 45 :: assigned := rfl
    obtain ⟨hbuffer', hpending'⟩ := after_comment html ignoreText (b ++ [45]) accum limit
    rw [hbuffer, hpending, hcons, after_hyphen, if_pos (hlast.2.mp hopens), hbuffer', hpending']
    simp [assigned]

theorem blocks_pair (hx : 512 ≤ x.length) (rest : List UInt8) :
    blocks [] [x, rest] = x :: blocks [] [rest] := by
  rw [blocks, List.nil_append, if_neg (not_lt.mpr hx)]

theorem uncut_last (h : ¬ Within x) (rest : List UInt8) : Uncut x (blocks [] [rest]) := by
  have hcut : ∀ rest, ¬ Cut x rest := fun rest hcut => h hcut.within
  rw [blocks, List.nil_append]
  split_ifs
  · exact ⟨hcut _, trivial⟩
  · exact ⟨hcut _, not_cut_nil _, trivial⟩

/-- **A page comes out the same** in whatever parts it comes, unless the end of a block cuts the
opening of a comment. Where a page is cut behind `x` this holds for all that may follow, and all that
may be put in, exactly if that is not within an opening. -/
theorem adaptReply_parts (parts parts' : List (List UInt8)) (x : List UInt8) :
    (parts.flatten = parts'.flatten → Uncut [] (blocks [] parts) → Uncut [] (blocks [] parts') →
      ∀ R : List UInt8 → List UInt8,
        adaptReply (total R) true parts = adaptReply (total R) true parts') ∧
    (512 ≤ x.length → ((∀ (R : List UInt8 → List UInt8) (rest : List UInt8),
      adaptReply (total R) true [x, rest] = adaptReply (total R) true [x ++ rest]) ↔ ¬ Within x)) := by
  refine ⟨?_, ?_⟩
  · intro hsame h h' R
    rw [adaptReply_uncut h, adaptReply_uncut h', hsame]
  intro hx
  have hwhole : ∀ rest : List UInt8, Uncut [] (blocks [] [x ++ rest]) := by
    intro rest
    have hlen : ¬ (x ++ rest).length < 512 := by
      rw [List.length_append]
      omega
    rw [blocks, List.nil_append, if_neg hlen]
    exact ⟨not_cut_begin _, not_cut_nil _, trivial⟩
  constructor
  · intro hall hwithin
    obtain ⟨rest, hrest, hne⟩ := exists_apart_within hwithin
    have hsame := hall shout rest
    have hlast : blocks [] [rest] = [rest] := by rw [blocks, List.nil_append, if_pos hrest]; rfl
    rw [adaptReply_blocks, blocks_pair hx, hlast, adaptReply_uncut (hwhole rest), List.flatten_singleton]
      at hsame
    exact hne hsame
  · intro hwithin R rest
    have hcut : Uncut [] (blocks [] [x, rest]) := by
      rw [blocks_pair hx]
      exact ⟨not_cut_begin _, uncut_last hwithin rest⟩
    rw [adaptReply_uncut hcut, adaptReply_uncut (hwhole rest)]
    simp

/-- One rule, which puts `x` in the place of `iop`. -/
def iopController : ProxyController := .init [101, 122] [.proxyDomainRename [105, 111, 112] [120]]

/-- 512 bytes, of which the last two open a tag and begin the opening of a comment. -/
def opening : List UInt8 := List.replicate 510 97 ++ [60, 33]

/-- The comment `<!--=iop>` cut behind `<!`, and in one part. -/
theorem not_adaptReply_parts : ¬ ∀ parts parts' : List (List UInt8), parts.flatten = parts'.flatten →
    adaptReply (total iopController.doAllRedirects) true parts =
      adaptReply (total iopController.doAllRedirects) true parts' := by
  intro hall
  have hsame := hall [opening, [45, 45, 61, 105, 111, 112, 62]] [opening ++ [45, 45, 61, 105, 111, 112, 62]]
    (by simp)
  exact absurd hsame (by decide +kernel)

end Within

end RenaProxy.Squid
