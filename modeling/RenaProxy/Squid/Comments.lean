import RenaProxy.Squid.Parts

/-!
# Comments in a page

`inside_parser` lets a comment begin behind `<!--`, and `ignore_comment` looks for its end. That
counts hyphens and never begins again, so that two hyphens anywhere in a comment let the next `>`
end it. `keepsComment_iff` says which comments are left alone.
-/
namespace RenaProxy.Squid

/-- A comment, `text` being what is in it. -/
def comment (text : List UInt8) : List UInt8 := [60, 33, 45, 45] ++ text ++ [45, 45, 62]

section Statement
variable {ε : Type} (doAllRedirects : List UInt8 → Except ε (List UInt8))

/-- A forced call with this document, so far: the state, and whether no exception ended it. -/
def forcedAt (document read : List UInt8) : Reply × Bool :=
  incrementalAdaptation doAllRedirects { page with accum := document } read

/-- The parser gets to the `<` behind this part of the document, and is outside of tags there. -/
structure Meets (document before : List UInt8) : Prop where
  outside : (forcedAt doAllRedirects document before).1.adaptation = .unknown ∨
    (forcedAt doAllRedirects document before).1.adaptation = .outsideTag
  reads : (forcedAt doAllRedirects document (before ++ [60])).2 = true

/-- In this document the comment behind `before` is put out as it is, nothing of it is handed over,
at once or later, and it ends with its last byte. -/
structure KeepsComment (document before text : List UInt8) : Prop where
  verbatim : ∀ ret, (adaptBody doAllRedirects page document true).2 = some ret →
    ∃ x, (forcedAt doAllRedirects document (before ++ [60])).1.buffer = x ++ [60] ∧
      x ++ comment text <+: ret
  notHanded :
    incrementalAdaptation (fun _ => Except.error ())
        (forcedAt doAllRedirects document (before ++ [60])).1 (comment text).tail =
      forcedAt doAllRedirects document (before ++ comment text)
  nothingLeft : (forcedAt doAllRedirects document (before ++ comment text)).1.pending = []
  outside_iff : ∀ n, 0 < n → n ≤ (comment text).length →
    ((forcedAt doAllRedirects document (before ++ (comment text).take n)).1.adaptation =
      .outsideTag ↔ n = (comment text).length)

end Statement

/-! ## The run -/

section Run
variable {ε : Type} {f : List UInt8 → Except ε (List UInt8)} {s s' : Reply} {head : UInt8}
  {text rest read : List UInt8} {k : ℕ}

/-- The first exception ends a call, and else the rest is read from where the first part led. -/
theorem incremental_append_eq (text rest : List UInt8) :
    incrementalAdaptation f s (text ++ rest) =
      if (incrementalAdaptation f s text).2 then
        incrementalAdaptation f (incrementalAdaptation f s text).1 rest
      else incrementalAdaptation f s text := by
  induction text generalizing s with
  | nil => rfl
  | cons head text ih =>
      rw [List.cons_append, incrementalAdaptation, incrementalAdaptation]
      cases adaptationFunction f s head with
      | error e => rfl
      | ok s₁ => exact ih

theorem incremental_append (h : incrementalAdaptation f s text = (s', true)) (rest : List UInt8) :
    incrementalAdaptation f s (text ++ rest) = incrementalAdaptation f s' rest := by
  rw [incremental_append_eq, h, if_pos rfl]

/-- What was read up to some place was read without an exception if more was. -/
theorem incremental_of_append (h : (incrementalAdaptation f s (text ++ rest)).2 = true) :
    (incrementalAdaptation f s text).2 = true := by
  by_contra hends
  rw [incremental_append_eq, if_neg hends] at h
  exact hends h

theorem Reply.Shaped.outsideParser (S : s.Shaped)
    (hs : s.adaptation = .unknown ∨ s.adaptation = .outsideTag)
    (h : outsideParser f s head = .ok s') : s'.Shaped ∧ s.buffer <+: s'.buffer := by
  have hne : s.adaptation ≠ .insideAttribute := by rcases hs with hs | hs <;> simp [hs]
  rw [Squid.outsideParser] at h
  by_cases hmem : head ∈ ([32, 9, 11, 10, 13, 12, 60] : List UInt8)
  · rw [if_pos hmem] at h
    obtain ⟨ab, -, h⟩ := Failure.bind_eq_ok.mp h
    obtain rfl := Except.ok.inj h
    have hshaped (t : Reply) (hwait : t.adaptationWait = s.adaptationWait)
        (hatrb : t.contextAtrb = s.contextAtrb) (htext : t.contextText = []) : t.Shaped :=
      ⟨fun _ => hwait.trans (S.wait hne), fun _ => hatrb.trans (S.atrb hne), fun _ => htext⟩
    by_cases hlt : head = 60
    · rw [if_pos hlt]
      exact ⟨hshaped _ rfl rfl rfl, by simp [List.append_assoc]⟩
    · rw [if_neg hlt]
      exact ⟨hshaped _ rfl rfl rfl, by simp [List.append_assoc]⟩
  · rw [if_neg hmem] at h
    obtain rfl := Except.ok.inj h
    refine ⟨⟨fun _ => S.wait hne, fun _ => S.atrb hne, fun hin => ?_⟩, List.prefix_rfl⟩
    rcases hs with hs | hs
    · simp [hs] at hin
    · simp [hs] at hin

theorem Reply.Shaped.attributeParser (S : s.Shaped) (hs : s.adaptation = .insideAttribute)
    (h : attributeParser f s head = .ok s') : s'.Shaped ∧ s.buffer <+: s'.buffer := by
  have htext : s.contextText = [] := S.text (.inr (.inl hs))
  have hinside (t : Reply) (ht : t.adaptation = .insideAttribute) (htext : t.contextText = []) :
      t.Shaped := ⟨fun hne => absurd ht hne, fun hne => absurd ht hne, fun _ => htext⟩
  rw [Squid.attributeParser] at h
  dsimp only at h
  split_ifs at h with hmem hwait
  · obtain ⟨ab, -, h⟩ := Failure.bind_eq_ok.mp h
    obtain rfl := Except.ok.inj h
    exact ⟨⟨fun _ => rfl, fun _ => rfl, fun _ => htext⟩, by simp [List.append_assoc]⟩
  · obtain rfl := Except.ok.inj h
    exact ⟨hinside _ hs htext, List.prefix_rfl⟩
  · obtain rfl := Except.ok.inj h
    exact ⟨hinside _ hs htext, List.prefix_rfl⟩
  · obtain rfl := Except.ok.inj h
    exact ⟨hinside _ hs htext, List.prefix_rfl⟩

/-- What is in the buffer stays there. -/
theorem Reply.Shaped.step (S : s.Shaped) (h : adaptationFunction f s head = .ok s') :
    s'.Shaped ∧ s.buffer <+: s'.buffer := by
  cases hs : s.adaptation with
  | unknown =>
      rw [adaptationFunction, hs] at h
      exact S.outsideParser (.inl hs) h
  | outsideTag =>
      rw [adaptationFunction, hs] at h
      exact S.outsideParser (.inr hs) h
  | insideTag =>
      rw [adaptationFunction, hs] at h
      obtain rfl := Except.ok.inj h
      obtain ⟨-, hbuffer, hatrb, htext, hwait⟩ := insideParser_kept s head
      exact ⟨(put_of_buffer (R := id) S (.inl hs) hbuffer hatrb htext hwait).1, by simp [hbuffer]⟩
  | insideAttribute =>
      rw [adaptationFunction, hs] at h
      exact S.attributeParser hs h
  | insideComment =>
      rw [adaptationFunction, hs] at h
      obtain rfl := Except.ok.inj h
      obtain ⟨-, hbuffer, hatrb, htext, hwait⟩ := ignoreComment_kept s head
      exact ⟨(put_of_buffer (R := id) S (.inr hs) hbuffer hatrb htext hwait).1, by simp [hbuffer]⟩

theorem Reply.Shaped.incremental (S : s.Shaped) (h : incrementalAdaptation f s text = (s', true)) :
    s'.Shaped ∧ s.buffer <+: s'.buffer := by
  induction text generalizing s with
  | nil =>
      obtain ⟨rfl, -⟩ := Prod.mk.inj h
      exact ⟨S, List.prefix_rfl⟩
  | cons head text ih =>
      rw [incrementalAdaptation] at h
      cases hstep : adaptationFunction f s head with
      | error e => simp [hstep] at h
      | ok s₁ =>
          rw [hstep] at h
          obtain ⟨S₁, hfirst⟩ := S.step hstep
          obtain ⟨S', hrest⟩ := ih S₁ h
          exact ⟨S', hfirst.trans hrest⟩

/-! ## Inside a comment -/

/-- The state in a comment behind some bytes of it, with so many hyphens counted. -/
def Reply.commenting (s : Reply) (stage : ℕ) (read : List UInt8) : Reply :=
  { s with buffer := s.buffer ++ read, adaptation := .insideComment, stage := stage }

theorem incremental_commenting (k : ℕ) (read text : List UInt8) (head : UInt8) :
    incrementalAdaptation f (s.commenting k read) (head :: text) =
      incrementalAdaptation f (ignoreComment (s.commenting k read) head) text := rfl

/-- Two hyphens let the next `>` end the comment, wherever they were. -/
theorem ignoreComment_close :
    ignoreComment (s.commenting 2 read) 62 =
      { s.commenting 2 (read ++ [62]) with adaptation := .outsideTag } := by
  simp [ignoreComment, Reply.commenting]

theorem ignoreComment_open (hk : k ≤ 2) (hclose : head = 62 → k ≠ 2) :
    ignoreComment (s.commenting k read) head =
      s.commenting (min 2 (k + [head].count 45)) (read ++ [head]) := by
  by_cases hcounts : k ≤ 1 ∧ head = 45
  · obtain ⟨hk1, rfl⟩ := hcounts
    simp [ignoreComment, Reply.commenting, hk1]
  · have hends : ¬ (k = 2 ∧ head = 62) := fun h => hclose h.2 h.1
    have hmin : min 2 (k + [head].count 45) = k := by
      by_cases hhyphen : head = 45
      · have hk2 : ¬ k ≤ 1 := fun hk1 => hcounts ⟨hk1, hhyphen⟩
        rw [hhyphen, List.count_singleton_self]
        omega
      · rw [List.count_eq_zero.mpr (by simpa using Ne.symm hhyphen), Nat.add_zero,
          Nat.min_eq_right hk]
    simp only [ignoreComment, Reply.commenting, if_neg hcounts, if_neg hends, hmin,
      List.append_assoc]

/-- No `>` comes behind two hyphens, of which `k` were counted before. -/
def StaysOpen (k : ℕ) (text : List UInt8) : Prop := ∀ u v, text = u ++ 62 :: v → k + u.count 45 ≤ 1

theorem StaysOpen.of_prefix (h : StaysOpen k text) (hread : read <+: text) : StaysOpen k read := by
  rintro u v rfl
  obtain ⟨rest, rfl⟩ := hread
  exact h u (v ++ rest) (by simp)

/-- Two hyphens are as many as all. -/
theorem staysOpen_min : StaysOpen (min 2 k) text ↔ StaysOpen k text := by
  have hcount (u : List UInt8) : min 2 k + u.count 45 ≤ 1 ↔ k + u.count 45 ≤ 1 := by omega
  simp only [StaysOpen, hcount]

theorem staysOpen_cons : StaysOpen k (head :: text) ↔
    (head = 62 → k ≤ 1) ∧ StaysOpen (k + [head].count 45) text := by
  have hcount (u : List UInt8) : k + (head :: u).count 45 = k + [head].count 45 + u.count 45 := by
    rw [Nat.add_assoc, ← List.count_append, List.singleton_append]
  constructor
  · intro h
    refine ⟨fun heq => by simpa using h [] text (by rw [heq]; rfl), fun u v huv => ?_⟩
    rw [← hcount]
    exact h (head :: u) v (by rw [huv]; rfl)
  · rintro ⟨hhead, h⟩ u v huv
    cases u with
    | nil => simpa using hhead (List.head_eq_of_cons_eq huv)
    | cons c u =>
        obtain ⟨rfl, htext⟩ := List.cons.inj huv
        rw [hcount]
        exact h u v htext

/-- **While the comment stays open** it is put out, and its hyphens are counted up to two. -/
theorem incremental_staysOpen (read : List UInt8) (hk : k ≤ 2) (h : StaysOpen k text) :
    incrementalAdaptation f (s.commenting k read) text =
      (s.commenting (min 2 (k + text.count 45)) (read ++ text), true) := by
  induction text generalizing k read with
  | nil => simp [incrementalAdaptation, hk]
  | cons head text ih =>
      obtain ⟨hhead, hrest⟩ := staysOpen_cons.mp h
      have hclose : head = 62 → k ≠ 2 := fun heq => by
        have := hhead heq
        omega
      have hcount : (head :: text).count 45 = [head].count 45 + text.count 45 := by
        rw [← List.count_append, List.singleton_append]
      have hmin : min 2 (min 2 (k + [head].count 45) + text.count 45) =
          min 2 (k + (head :: text).count 45) := by omega
      rw [incremental_commenting, ignoreComment_open hk hclose,
        ih (read ++ [head]) (Nat.min_le_left _ _) (staysOpen_min.mpr hrest), hmin,
        List.append_assoc, List.singleton_append]

/-- **Where it does not stay open** the parser is outside of it behind a byte of the text. -/
theorem exists_outside_of_not_staysOpen (read : List UInt8) (hk : k ≤ 2) (h : ¬ StaysOpen k text) :
    ∃ n, n ≤ text.length ∧
      (incrementalAdaptation f (s.commenting k read) (text.take n)).1.adaptation = .outsideTag := by
  induction text generalizing k read with
  | nil => exact absurd (fun u v huv => by simp at huv) h
  | cons head text ih =>
      by_cases hclose : head = 62 ∧ k = 2
      · obtain ⟨rfl, rfl⟩ := hclose
        refine ⟨1, by simp, ?_⟩
        rw [List.take_succ_cons, List.take_zero, incremental_commenting, ignoreComment_close]
        rfl
      · rw [not_and] at hclose
        rw [staysOpen_cons, not_and] at h
        have hrest := h fun heq => by
          have := hclose heq
          omega
        obtain ⟨n, hn, hout⟩ := ih (read ++ [head]) (Nat.min_le_left _ _)
          (mt staysOpen_min.mp hrest)
        refine ⟨n + 1, by simpa using hn, ?_⟩
        rwa [List.take_succ_cons, incremental_commenting, ignoreComment_open hk hclose]

/-! ## A whole comment -/

theorem incremental_opening {x : List UInt8} (htag : s.adaptation = .insideTag)
    (hbuffer : s.buffer = x ++ [60]) :
    incrementalAdaptation f s [33, 45, 45] = (s.commenting 0 [33, 45, 45], true) ∧
      ∀ n < 3, (incrementalAdaptation f s (([33, 45, 45] : List UInt8).take n)).1.adaptation =
        .insideTag := by
  have hbang : insideParser s 33 = { s with buffer := s.buffer ++ [33] } := by simp [insideParser]
  have hhyphen : insideParser { s with buffer := s.buffer ++ [33] } 45 =
      { s with buffer := s.buffer ++ [33, 45] } := by
    simp [insideParser, hbuffer]
  have hopen : insideParser { s with buffer := s.buffer ++ [33, 45] } 45 =
      s.commenting 0 [33, 45, 45] := by
    simp [insideParser, Reply.commenting, hbuffer]
  have hstep (t : Reply) (head : UInt8) (rest : List UInt8) (ht : t.adaptation = .insideTag) :
      incrementalAdaptation f t (head :: rest) =
        incrementalAdaptation f (insideParser t head) rest := by
    rw [incrementalAdaptation, adaptationFunction, ht]
    rfl
  have hfirst (rest : List UInt8) : incrementalAdaptation f s (33 :: rest) =
      incrementalAdaptation f { s with buffer := s.buffer ++ [33] } rest := by
    rw [hstep s 33 rest htag, hbang]
  have hsecond (rest : List UInt8) :
      incrementalAdaptation f { s with buffer := s.buffer ++ [33] } (45 :: rest) =
        incrementalAdaptation f { s with buffer := s.buffer ++ [33, 45] } rest := by
    rw [hstep { s with buffer := s.buffer ++ [33] } 45 rest htag, hhyphen]
  constructor
  · rw [hfirst, hsecond, hstep { s with buffer := s.buffer ++ [33, 45] } 45 [] htag, hopen]
    rfl
  · intro n hn
    obtain rfl | rfl | rfl : n = 0 ∨ n = 1 ∨ n = 2 := by omega
    · exact htag
    · rw [List.take_succ_cons, List.take_zero, hfirst]
      exact htag
    · rw [List.take_succ_cons, List.take_succ_cons, List.take_zero, hfirst, hsecond]
      exact htag

/-- The hyphens of the end do not matter. -/
theorem StaysOpen.closing (h : StaysOpen 0 text) : StaysOpen 0 (text ++ [45, 45]) := by
  intro u v huv
  have hmem : u ++ [62] <+: text := by
    rcases List.append_eq_append_iff.mp huv with ⟨w, rfl, hw⟩ | ⟨w, rfl, hw⟩
    · have : (62 : UInt8) ∈ ([45, 45] : List UInt8) := hw ▸ by simp
      simp at this
    · cases w with
      | nil => simp at hw
      | cons c w =>
          obtain rfl := List.head_eq_of_cons_eq hw
          exact ⟨w, by simp⟩
  obtain ⟨v', hv'⟩ := hmem
  exact h u v' (by rw [← hv']; simp)

theorem comment_tail (text : List UInt8) :
    (comment text).tail = [33, 45, 45] ++ (text ++ [45, 45] ++ [62]) := by simp [comment]

/-- A comment that stays open is put out and left behind. -/
theorem incremental_comment {x : List UInt8} (htag : s.adaptation = .insideTag)
    (hbuffer : s.buffer = x ++ [60]) (h : StaysOpen 0 text) :
    incrementalAdaptation f s (comment text).tail =
      ({ s.commenting 2 (comment text).tail with adaptation := .outsideTag }, true) := by
  have hclosing := incremental_staysOpen (f := f) (s := s) [33, 45, 45] (Nat.zero_le 2) h.closing
  have htwo : min 2 (0 + (text ++ [45, 45]).count 45) = 2 := by simp
  rw [htwo] at hclosing
  rw [comment_tail, incremental_append (incremental_opening htag hbuffer).1,
    incremental_append hclosing, incremental_commenting, ignoreComment_close,
    List.append_assoc [33, 45, 45]]
  rfl

/-- Before its last byte the parser is in it. -/
theorem not_outside_of_lt {x : List UInt8} (htag : s.adaptation = .insideTag)
    (hbuffer : s.buffer = x ++ [60]) (h : StaysOpen 0 text) {m : ℕ}
    (hm : m < (comment text).tail.length) :
    (incrementalAdaptation f s ((comment text).tail.take m)).1.adaptation ≠ .outsideTag := by
  obtain ⟨hopening, hshort⟩ := incremental_opening (f := f) htag hbuffer
  rw [comment_tail] at hm ⊢
  by_cases hm3 : m < 3
  · rw [List.take_append_of_le_length (by simpa using hm3.le), hshort m hm3]
    simp
  · obtain ⟨j, rfl⟩ := Nat.exists_eq_add_of_le (not_lt.mp hm3)
    have hj : j ≤ (text ++ [45, 45]).length := by
      simp only [List.length_append, List.length_cons, List.length_nil] at hm ⊢
      omega
    have hread := incremental_staysOpen (f := f) (s := s) [33, 45, 45] (Nat.zero_le 2)
      (h.closing.of_prefix (List.take_prefix j _))
    have htake : ([33, 45, 45] ++ (text ++ [45, 45] ++ [62])).take (3 + j) =
        [33, 45, 45] ++ (text ++ [45, 45]).take j := by
      rw [show (3 : ℕ) = ([33, 45, 45] : List UInt8).length from rfl, List.take_length_add_append,
        List.take_append_of_le_length hj]
    rw [htake, incremental_append hopening, hread]
    simp [Reply.commenting]

theorem shaped_forced (document : List UInt8) : ({ page with accum := document } : Reply).Shaped :=
  ⟨shaped_page.wait, shaped_page.atrb, shaped_page.text⟩

/-- The state behind the `<` of the comment. -/
theorem Meets.spec {document before : List UInt8} (M : Meets f document before) :
    ∃ s x, forcedAt f document (before ++ [60]) = (s, true) ∧ s.adaptation = .insideTag ∧
      s.buffer = x ++ [60] ∧ s.pending = [] := by
  obtain ⟨s₀, hs₀⟩ : ∃ s₀, forcedAt f document before = (s₀, true) :=
    ⟨_, Prod.ext rfl (incremental_of_append M.reads)⟩
  have hout := M.outside
  have hreads := M.reads
  rw [hs₀] at hout
  dsimp only at hout
  have S₀ : s₀.Shaped := ((shaped_forced document).incremental hs₀).1
  have hne : s₀.adaptation ≠ .insideAttribute := by rcases hout with hout | hout <;> simp [hout]
  have hfirst : adaptationFunction f s₀ 60 = outsideParser f s₀ 60 := by
    rcases hout with hout | hout <;> rw [adaptationFunction, hout]
  rw [forcedAt, incremental_append hs₀, incrementalAdaptation, hfirst, outsideParser,
    if_pos (by simp)] at hreads ⊢
  cases hab : partialChange f s₀.contextText s₀.ignoreText with
  | error e => simp [hab, bind, Except.bind] at hreads
  | ok ab => exact ⟨_, _, rfl, rfl, rfl, by simp [Reply.pending, S₀.atrb hne]⟩

/-- What a forced call returns. -/
theorem adaptBody_forced (document : List UInt8) : (adaptBody f page document true).2 =
    if (forcedAt f document document).2 then some (forcedAt f document document).1.buffer
    else none := by
  rw [adaptBody]
  dsimp only
  rw [if_neg (not_not.mpr (show page.html = true from rfl)), if_neg fun h => h.1 rfl,
    show page.accum ++ document = document from rfl, ← forcedAt]
  obtain ⟨s', b⟩ := forcedAt f document document
  cases b with
  | false => rfl
  | true => rfl

variable {before behind : List UInt8}

theorem keepsComment_of_staysOpen (h : Meets f (before ++ comment text ++ behind) before)
    (hopen : StaysOpen 0 text) : KeepsComment f (before ++ comment text ++ behind) before text := by
  obtain ⟨s, x, hs, htag, hbuffer, hpending⟩ := h.spec
  -- the document matters only as what the call has collected
  generalize hdocument : before ++ comment text ++ behind = document at hs ⊢
  have hcomment : comment text = [60] ++ (comment text).tail := rfl
  have hread (w : List UInt8) :
      forcedAt f document (before ++ ([60] ++ w)) = incrementalAdaptation f s w := by
    rw [← List.append_assoc]
    exact incremental_append hs w
  have hlast := hread (comment text).tail
  rw [← hcomment] at hlast
  have hwhole := hlast.trans (incremental_comment htag hbuffer hopen)
  refine ⟨fun ret hret => ⟨x, by rw [hs]; exact hbuffer, ?_⟩, ?_, ?_, fun n hpos hn => ?_⟩
  · rw [adaptBody_forced] at hret
    split_ifs at hret with hok
    obtain rfl := Option.some.inj hret
    have hall : forcedAt f document document = ((forcedAt f document document).1, true) :=
      Prod.ext rfl hok
    have hrest := (incremental_append hwhole behind).symm.trans
      ((congrArg (forcedAt f document) hdocument).trans hall)
    have hgrows := (((shaped_forced document).incremental hwhole).1.incremental hrest).2
    rw [Reply.commenting, hbuffer] at hgrows
    rwa [hcomment, ← List.append_assoc]
  · rw [hs, hwhole]
    exact incremental_comment htag hbuffer hopen
  · rw [hwhole]
    exact hpending
  · obtain ⟨m, rfl⟩ := Nat.exists_eq_succ_of_ne_zero hpos.ne'
    rw [show (comment text).take (m + 1) = [60] ++ (comment text).tail.take m from rfl, hread]
    have hlength : (comment text).length = (comment text).tail.length + 1 := rfl
    rw [hlength] at hn ⊢
    rcases Nat.lt_or_eq_of_le (Nat.le_of_succ_le_succ hn) with hlt | rfl
    · exact iff_of_false (not_outside_of_lt htag hbuffer hopen hlt) (by omega)
    · rw [List.take_length, incremental_comment htag hbuffer hopen]
      exact iff_of_true rfl rfl

/-- **A comment is left alone** when no `>` in it comes behind two hyphens. -/
theorem keepsComment_iff (f : List UInt8 → Except ε (List UInt8)) (before text behind : List UInt8)
    (h : Meets f (before ++ comment text ++ behind) before) :
    KeepsComment f (before ++ comment text ++ behind) before text ↔
      ∀ u v, text = u ++ 62 :: v → u.count 45 ≤ 1 := by
  have hopen_iff : StaysOpen 0 text ↔ ∀ u v, text = u ++ 62 :: v → u.count 45 ≤ 1 := by
    simp [StaysOpen]
  rw [← hopen_iff]
  refine ⟨fun hkeeps => ?_, keepsComment_of_staysOpen h⟩
  by_contra hopen
  obtain ⟨s, x, hs, htag, hbuffer, -⟩ := h.spec
  obtain ⟨n, hn, hout⟩ := exists_outside_of_not_staysOpen (f := f) (s := s) [33, 45, 45]
    (Nat.zero_le 2) hopen
  have htake : (comment text).take (n + 4) = [60] ++ ([33, 45, 45] ++ text.take n) := by
    simp [comment, List.take_append_of_le_length hn]
  have hlength : (comment text).length = text.length + 7 := by simp [comment]
  have hend := (hkeeps.outside_iff (n + 4) (by omega) (by omega)).mp (by
    rw [htake, ← List.append_assoc, forcedAt, incremental_append hs,
      incremental_append (incremental_opening htag hbuffer).1]
    exact hout)
  omega

/-- `<!--a-b-->` behind a tag. -/
theorem keepsComment_iff_hyphen :
    KeepsComment (total id) ([60, 112, 62] ++ comment [97, 45, 98] ++ []) [60, 112, 62]
      [97, 45, 98] ↔ ∀ u v, ([97, 45, 98] : List UInt8) = u ++ 62 :: v → u.count 45 ≤ 1 :=
  keepsComment_iff (total id) [60, 112, 62] [97, 45, 98] []
    ⟨.inr (by decide +kernel), by decide +kernel⟩

/-- With `iop` renamed to `x.ez`, the markup in `<!--<a-b-c><p q=iop>-->` is changed. -/
theorem not_keepsComment_markup :
    let c := ProxyController.init [101, 122] [.proxyDomainRename [105, 111, 112] [120]]
    let text := [60, 97, 45, 98, 45, 99, 62, 60, 112, 32, 113, 61, 105, 111, 112, 62]
    Meets (total c.doAllRedirects) ([] ++ comment text ++ []) [] ∧ ¬ [45, 45, 62] <:+: text ∧
      ¬ KeepsComment (total c.doAllRedirects) ([] ++ comment text ++ []) [] text := by
  intro c text
  refine ⟨⟨.inl (by decide +kernel), by decide +kernel⟩, by decide +kernel, fun h => ?_⟩
  have hret : (adaptBody (total c.doAllRedirects) page ([] ++ comment text ++ []) true).2 =
      some ([60, 33, 45, 45, 60, 97, 45, 98, 45, 99, 62, 60, 112, 32, 113, 61] ++
        [120, 46, 101, 122] ++ [62, 45, 45, 62]) := by decide +kernel
  obtain ⟨x, -, y, hy⟩ := h.verbatim _ hret
  have hinfix : comment text <:+: _ := ⟨x, y, hy⟩
  exact absurd hinfix (by decide +kernel)

end Run

end RenaProxy.Squid
