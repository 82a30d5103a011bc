import RenaProxy.Context
import RenaProxy.Lib.Mealy

/-!
# Markup and the HTML context

A document is a sequence of texts, comments and tags. `followsMarkup_iff` says for
which documents the automaton of `context_html.c` keeps in step with it: the tags
must not end directly behind an unquoted value, because there the closing `>` is taken
for the end of the value alone.
-/
namespace RenaProxy.Html
open HtmlStage

/-! ## Documents -/

/-- A name: of a tag, or of an attribute. -/
def Name := {n : List UInt8 // n ≠ [] ∧ ∀ b ∈ n, b ∉ blanks ∧ b ≠ equals ∧ b ≠ gt}

/-- Blanks between the parts of a tag. -/
def Gap := {g : List UInt8 // g ≠ [] ∧ ∀ b ∈ g, b ∈ blanks}

/-- A value without quotes around it. -/
def Unquoted := {v : List UInt8 // ∀ b ∈ v, b ∉ blanks ∧ b ≠ quote ∧ b ≠ doubleQuote ∧
  b ≠ backslash ∧ b ≠ gt}

/-- The bytes between two quotes `q`, each with the choice to protect it. -/
def Quoted (q : UInt8) := {v : List (UInt8 × Bool) // ∀ c ∈ v, c.2 = false →
  c.1 ≠ q ∧ c.1 ≠ backslash}

/-- A byte between quotes as it is written. -/
def protect (c : UInt8 × Bool) : List UInt8 :=
  if c.2 then [backslash, c.1] else [c.1]

inductive Value
  | unquoted (v : Unquoted)
  | single (v : Quoted quote)
  | double (v : Quoted doubleQuote)

def Value.bytes : Value → List UInt8
  | unquoted v => v.1
  | single v => quote :: v.1.flatMap protect ++ [quote]
  | double v => doubleQuote :: v.1.flatMap protect ++ [doubleQuote]

/-- An attribute, with the blanks that set it apart from what is before it. -/
structure Attribute where
  gap : Gap
  name : Name
  value : Value

def Attribute.bytes (a : Attribute) : List UInt8 :=
  a.gap.1 ++ a.name.1 ++ equals :: a.value.bytes

/-- How a tag ends. -/
inductive TagEnd
  /-- `>` -/
  | bare
  /-- `" />"` -/
  | slashed

def TagEnd.bytes : TagEnd → List UInt8
  | bare => [gt]
  | slashed => [32, 47, gt]

structure Tag where
  name : Name
  /-- What begins with `<!--` is a comment. -/
  noComment : ¬ [bang, dash, dash] <+: name.1
  attributes : List Attribute
  tagEnd : TagEnd

def Tag.bytes (t : Tag) : List UInt8 :=
  lt :: t.name.1 ++ t.attributes.flatMap Attribute.bytes ++ t.tagEnd.bytes

/-- The last of some attributes has a value without quotes. -/
def LastUnquoted (as : List Attribute) : Prop :=
  ∃ v, as.getLast?.map Attribute.value = some (.unquoted v)

/-- The last attribute of the tag has an unquoted value, and `>` follows it directly. -/
def Tag.EndsInValue (t : Tag) : Prop := t.tagEnd = .bare ∧ LastUnquoted t.attributes

/-- The inside of a comment. -/
def Comment := {c : List UInt8 // ¬ [dash, dash, gt] <:+: c}

/-- `<!--` -/
def commentOpen : List UInt8 := [lt, bang, dash, dash]

/-- `-->` -/
def commentClose : List UInt8 := [dash, dash, gt]

inductive Markup
  | text (t : {t : List UInt8 // lt ∉ t})
  | comment (c : Comment)
  | tag (t : Tag)

def Markup.bytes : Markup → List UInt8
  | text t => t.1
  | comment c => commentOpen ++ c.1 ++ commentClose
  | tag t => t.bytes

/-- The bytes of a document. -/
def document (ms : List Markup) : List UInt8 := ms.flatMap Markup.bytes

/-! ## The property -/

/-- One byte, with the stage and the ignore flag before it and after it. -/
def step (s : HtmlStage × Bool) (input : UInt8) : (HtmlStage × Bool) × Bool :=
  let r := evaluate input s.1 s.2
  ((r.1, r.2.1), r.2.2)

/-- The stage and the ignore flag after some bytes. -/
def stateAfter (bytes : List UInt8) : HtmlStage × Bool := Mealy.after step (unknown, true) bytes

/-- The automaton follows a piece of markup, read behind other bytes: it is outside of
tags after a tag or a comment, and forbids what is inside a comment. -/
def Markup.Followed (before : List UInt8) : Markup → Prop
  | text _ => True
  | tag t => (stateAfter (before ++ t.bytes)).1 = outsideTag
  | comment c =>
      (stateAfter (before ++ (commentOpen ++ c.1 ++ commentClose))).1 = outsideTag ∧
        ∀ x b y, c.1 = x ++ b :: y →
          (step (stateAfter (before ++ (commentOpen ++ x))) b).2 = false

def FollowsMarkup (ms : List Markup) : Prop :=
  ∀ pre m post, ms = pre ++ m :: post → m.Followed (document pre)

/-! ## Inside a tag -/

/-- The stages alone, which move without the flag. -/
def stageStep (s : HtmlStage) (input : UInt8) : HtmlStage × Unit := ((evaluate input s true).1, ())

theorem stateAfter_append (xs ys : List UInt8) :
    stateAfter (xs ++ ys) = Mealy.after step (stateAfter xs) ys :=
  Mealy.after_append _ _ _ _

theorem after_step_stage (s : HtmlStage × Bool) (xs : List UInt8) :
    (Mealy.after step s xs).1 = Mealy.after stageStep s.1 xs := by
  refine Mealy.after_projection step Prod.fst ?_ s xs
  rintro ⟨s, ignore⟩ b
  cases s <;> simp only [step, stageStep, evaluate, insideTagStep, insideAttributeStep,
    insideCommentStep, outsideTagStep]
  all_goals split_ifs <;> rfl

/-- Between two pieces of markup. -/
def Between (s : HtmlStage) : Prop := s = unknown ∨ s = outsideTag

/-- In a tag, and not in a value. -/
def InTag (s : HtmlStage) : Prop := s = insideTag ∨ s = insideTag1 ∨ s = insideTag2

/-- In a value without quotes. -/
def InValue (s : HtmlStage) : Prop := s = insideAttrib0 ∨ s = insideAttrib

variable {s : HtmlStage}

theorem after_text {t : List UInt8} (hs : Between s) (ht : lt ∉ t) :
    Mealy.after stageStep s t = s := by
  refine Mealy.after_eq_self stageStep fun b hb => ?_
  have hne : b ≠ lt := fun h => ht (h ▸ hb)
  rcases hs with rfl | rfl <;> simp [stageStep, evaluate, outsideTagStep, hne]

theorem after_lt (hs : Between s) : (stageStep s lt).1 = insideTag0 := by
  rcases hs with rfl | rfl <;> rfl

/-- Bytes that neither end a tag nor begin a value. -/
theorem stageStep_insideTag {b : UInt8} (h : b ≠ equals ∧ b ≠ gt) :
    (stageStep insideTag b).1 = insideTag := by
  simp [stageStep, evaluate, insideTagStep, h.1, h.2]

theorem after_insideTag {xs : List UInt8} (h : ∀ b ∈ xs, b ≠ equals ∧ b ≠ gt) :
    Mealy.after stageStep insideTag xs = insideTag :=
  Mealy.after_eq_self stageStep fun b hb => stageStep_insideTag (h b hb)

theorem blank_ne {b : UInt8} (h : b ∈ blanks) : b ≠ equals ∧ b ≠ gt ∧ b ≠ bang ∧ b ≠ dash := by
  simp only [blanks, List.mem_cons, List.not_mem_nil, or_false] at h
  rcases h with rfl | rfl | rfl | rfl | rfl | rfl <;> decide

/-- A blank ends a value without quotes, and the search for a comment. -/
theorem stageStep_blank {b : UInt8} (hs : InTag s ∨ InValue s) (hb : b ∈ blanks) :
    (stageStep s b).1 = insideTag := by
  obtain ⟨heq, hgt, -, hdash⟩ := blank_ne hb
  have hquote : b ≠ quote := fun h => absurd (h ▸ hb) (by decide)
  have hdouble : b ≠ doubleQuote := fun h => absurd (h ▸ hb) (by decide)
  have hslash : b ≠ backslash := fun h => absurd (h ▸ hb) (by decide)
  rcases hs with (rfl | rfl | rfl) | rfl | rfl <;>
    simp [stageStep, evaluate, insideTagStep, insideAttributeStep, *]

theorem after_gap (g : Gap) (hs : InTag s ∨ InValue s) :
    Mealy.after stageStep s g.1 = insideTag := by
  obtain ⟨g, hne, hb⟩ := g
  cases g with
  | nil => exact absurd rfl hne
  | cons b g =>
      rw [Mealy.after_cons, stageStep_blank hs (hb b (by simp))]
      refine after_insideTag fun b' hb' => ?_
      obtain ⟨heq, hgt, -⟩ := blank_ne (hb b' (by simp [hb']))
      exact ⟨heq, hgt⟩

/-- Behind `<!-`, a dash would begin a comment. -/
theorem after_insideTag2 {n : List UInt8} (hfree : ∀ b ∈ n, b ≠ equals ∧ b ≠ gt)
    (hn : ¬ [dash] <+: n) : InTag (Mealy.after stageStep insideTag2 n) := by
  cases n with
  | nil => exact .inr (.inr rfl)
  | cons b n =>
      obtain ⟨heq, hgt⟩ := hfree b (by simp)
      have hdash : b ≠ dash := by
        rintro rfl
        exact hn (by simp)
      have h : (stageStep insideTag2 b).1 = insideTag := by
        simp [stageStep, evaluate, insideTagStep, heq, hgt, hdash]
      rw [Mealy.after_cons, h]
      exact .inl (after_insideTag fun b' hb' => hfree b' (by simp [hb']))

/-- Behind `<!`, two of them would. -/
theorem after_insideTag1 {n : List UInt8} (hfree : ∀ b ∈ n, b ≠ equals ∧ b ≠ gt)
    (hn : ¬ [dash, dash] <+: n) : InTag (Mealy.after stageStep insideTag1 n) := by
  cases n with
  | nil => exact .inr (.inl rfl)
  | cons b n =>
      obtain ⟨heq, hgt⟩ := hfree b (by simp)
      have hrest : ∀ b ∈ n, b ≠ equals ∧ b ≠ gt := fun b' hb' => hfree b' (by simp [hb'])
      rw [Mealy.after_cons]
      by_cases hdash : b = dash
      · subst hdash
        exact after_insideTag2 hrest fun h => hn (by simpa using h)
      · have h : (stageStep insideTag1 b).1 = insideTag := by
          simp [stageStep, evaluate, insideTagStep, heq, hgt, hdash]
        rw [h]
        exact .inl (after_insideTag hrest)

/-- The name of a tag, which is not the opening of a comment. -/
theorem after_tagName (n : Name) (hn : ¬ [bang, dash, dash] <+: n.1) :
    InTag (Mealy.after stageStep insideTag0 n.1) := by
  obtain ⟨n, hne, hb⟩ := n
  cases n with
  | nil => exact absurd rfl hne
  | cons b n =>
      obtain ⟨-, heq, hgt⟩ := hb b (by simp)
      have hrest : ∀ b ∈ n, b ≠ equals ∧ b ≠ gt := fun b' hb' => (hb b' (by simp [hb'])).2
      rw [Mealy.after_cons]
      by_cases hbang : b = bang
      · subst hbang
        exact after_insideTag1 hrest fun h => hn (by simpa using h)
      · have h : (stageStep insideTag0 b).1 = insideTag := by
          simp [stageStep, evaluate, insideTagStep, heq, hgt, hbang]
        rw [h]
        exact .inl (after_insideTag hrest)

/-! ## Values and attributes -/

theorem after_unquoted (v : Unquoted) : InValue (Mealy.after stageStep insideAttrib0 v.1) := by
  refine Mealy.after_invariant stageStep (fun s b hb hs => ?_) (.inl rfl)
  obtain ⟨hblank, hquote, hdouble, hslash, hgt⟩ := v.2 b hb
  rcases hs with rfl | rfl <;>
    simp [stageStep, evaluate, insideAttributeStep, InValue, *]

/-- A protected byte is passed over, and others stay in the value. -/
theorem after_quoted {q : UInt8} (v : Quoted q)
    (hs : s = insideAttribS ∧ q = quote ∨ s = insideAttribD ∧ q = doubleQuote) :
    Mealy.after stageStep s (v.1.flatMap protect ++ [q]) = insideTag := by
  have hchar : ∀ c ∈ v.1, Mealy.after stageStep s (protect c) = s := by
    intro c hc
    obtain ⟨b, chosen⟩ := c
    cases chosen with
    | true => rcases hs with ⟨rfl, -⟩ | ⟨rfl, -⟩ <;> rfl
    | false =>
        obtain ⟨hq, hslash⟩ := v.2 _ hc rfl
        rcases hs with ⟨rfl, rfl⟩ | ⟨rfl, rfl⟩ <;>
          simp [protect, stageStep, evaluate, insideAttributeStep, *]
  rw [Mealy.after_append, Mealy.after_flatMap_eq_self stageStep hchar]
  rcases hs with ⟨rfl, rfl⟩ | ⟨rfl, rfl⟩ <;> rfl

/-- The stage behind some attributes: in the last value, if it has no quotes. -/
def Behind (as : List Attribute) (s : HtmlStage) : Prop :=
  (LastUnquoted as ∧ InValue s) ∨ (¬ LastUnquoted as ∧ InTag s)

theorem behind_attribute (as : List Attribute) (a : Attribute) (hs : InTag s ∨ InValue s) :
    Behind (as ++ [a]) (Mealy.after stageStep s a.bytes) := by
  have hname : ∀ b ∈ a.name.1, b ≠ equals ∧ b ≠ gt := fun b hb => (a.name.2.2 b hb).2
  have hvalue : Mealy.after stageStep s a.bytes =
      Mealy.after stageStep insideAttrib0 a.value.bytes := by
    rw [Attribute.bytes, Mealy.after_append, Mealy.after_append, after_gap a.gap hs,
      after_insideTag hname, Mealy.after_cons]
    rfl
  rw [hvalue]
  cases hv : a.value with
  | unquoted v => exact .inl ⟨⟨v, by simp [hv]⟩, after_unquoted v⟩
  | single v => exact .inr ⟨by simp [LastUnquoted, hv], .inl (after_quoted v (.inl ⟨rfl, rfl⟩))⟩
  | double v => exact .inr ⟨by simp [LastUnquoted, hv], .inl (after_quoted v (.inr ⟨rfl, rfl⟩))⟩

theorem Behind.inTag_or_inValue {as : List Attribute} (h : Behind as s) : InTag s ∨ InValue s := by
  obtain ⟨-, h⟩ | ⟨-, h⟩ := h
  · exact .inr h
  · exact .inl h

theorem behind_attributes (as : List Attribute) (hs : InTag s) :
    Behind as (Mealy.after stageStep s (as.flatMap Attribute.bytes)) := by
  induction as using List.reverseRecOn with
  | nil => exact .inr ⟨by simp [LastUnquoted], hs⟩
  | append_singleton as a ih =>
      rw [List.flatMap_append, List.flatMap_singleton, Mealy.after_append]
      exact behind_attribute as a ih.inTag_or_inValue

/-- A tag leads outside of tags unless its `>` is taken for the end of a value only. -/
theorem after_tag_eq_iff (t : Tag) (hs : Between s) :
    Mealy.after stageStep s t.bytes = outsideTag ↔ ¬ t.EndsInValue := by
  have hbehind := behind_attributes t.attributes (after_tagName t.name t.noComment)
  rw [Tag.bytes, List.cons_append, List.cons_append, Mealy.after_cons, after_lt hs,
    Mealy.after_append, Mealy.after_append, Tag.EndsInValue]
  generalize Mealy.after stageStep _ (t.attributes.flatMap Attribute.bytes) = s' at hbehind
  cases t.tagEnd with
  | bare =>
      obtain ⟨hlast, rfl | rfl⟩ | ⟨hlast, rfl | rfl | rfl⟩ := hbehind
      · exact ⟨fun h => absurd h (by decide), fun h => absurd ⟨rfl, hlast⟩ h⟩
      · exact ⟨fun h => absurd h (by decide), fun h => absurd ⟨rfl, hlast⟩ h⟩
      all_goals exact ⟨fun _ h => hlast h.2, fun _ => rfl⟩
  | slashed =>
      have hblank : (stageStep s' 32).1 = insideTag :=
        stageStep_blank hbehind.inTag_or_inValue (by decide)
      rw [TagEnd.bytes, Mealy.after_cons, hblank]
      exact ⟨fun _ h => TagEnd.noConfusion h.1, fun _ => rfl⟩

/-! ## Comments -/

/-- The stage inside a comment, by the dashes read last. -/
def commentStage (x : List UInt8) : HtmlStage :=
  if [dash, dash] <:+ x then insideComm2 else if [dash] <:+ x then insideComm1 else insideComm0

theorem commentStage_cases (x : List UInt8) :
    commentStage x = insideComm0 ∨ commentStage x = insideComm1 ∨ commentStage x = insideComm2 := by
  rw [commentStage]
  split_ifs <;> simp

theorem after_commentOpen {s : HtmlStage × Bool} (hs : Between s.1) :
    Mealy.after step s commentOpen = (insideComm0, true) := by
  obtain ⟨s, ignore⟩ := s
  rcases hs with rfl | rfl <;> rfl

theorem commentStage_concat (x : List UInt8) (b : UInt8) :
    commentStage (x ++ [b]) =
      if b = dash then if [dash] <:+ x then insideComm2 else insideComm1 else insideComm0 := by
  by_cases hb : b = dash
  · subst hb
    have h : [dash] ++ [dash] <:+ x ++ [dash] ↔ [dash] <:+ x := List.suffix_append_self_iff
    rw [List.cons_append, List.nil_append] at h
    simp [commentStage, h]
  · have h₁ : ¬ [dash] <:+ x ++ [b] := fun h =>
      hb (List.singleton_suffix_append_singleton_iff.mp h).symm
    have h₂ : ¬ [dash, dash] <:+ x ++ [b] := fun h => h₁ ((List.suffix_cons dash [dash]).trans h)
    rw [commentStage, if_neg h₂, if_neg h₁, if_neg hb]

/-- The automaton counts the dashes, up to two. -/
theorem after_inside {x : List UInt8} (hx : ¬ [dash, dash, gt] <:+: x) :
    Mealy.after step (insideComm0, true) x = (commentStage x, true) := by
  induction x using List.reverseRecOn with
  | nil => rfl
  | append_singleton x b ih =>
      have ih := ih fun h => hx (h.trans (List.infix_append' [] x [b]))
      have hclose : [dash, dash] <:+ x → b ≠ gt := by
        rintro hd rfl
        exact hx (List.suffix_append_self_iff.mpr hd).isInfix
      have hlast : [dash, dash] <:+ x → [dash] <:+ x := (List.suffix_cons dash [dash]).trans
      have hgt : gt ≠ dash := by decide
      rw [Mealy.after_append, ih, commentStage_concat, commentStage]
      split_ifs with h₂ h₁ h h₁ h h <;>
        simp_all [step, evaluate, insideCommentStep]

theorem after_commentClose (x : List UInt8) :
    Mealy.after step (commentStage x, true) commentClose = (outsideTag, true) := by
  rcases commentStage_cases x with h | h | h <;> rw [h] <;> rfl

/-- A comment keeps the flag up, so that nothing inside is allowed. -/
theorem followed_comment {before : List UInt8} (c : Comment)
    (h : Between (stateAfter before).1) : (Markup.comment c).Followed before := by
  have hopen : ∀ x, stateAfter (before ++ (commentOpen ++ x)) =
      Mealy.after step (insideComm0, true) x := by
    intro x
    rw [stateAfter_append, Mealy.after_append, after_commentOpen h]
  constructor
  · rw [List.append_assoc, hopen, Mealy.after_append, after_inside c.2, after_commentClose]
  · intro x b y hx
    have hfree : ¬ [dash, dash, gt] <:+: x := fun hin =>
      c.2 (hin.trans (hx ▸ (List.prefix_append x (b :: y)).isInfix))
    rw [hopen, after_inside hfree]
    rcases commentStage_cases x with h | h | h <;> rw [h] <;> rfl

/-! ## Documents as a whole -/

/-- Read between two pieces, a piece is followed unless it is a tag that ends in a value,
and the automaton is between two pieces again if it is followed. -/
theorem followed_iff {before : List UInt8} {m : Markup} (h : Between (stateAfter before).1) :
    (m.Followed before ↔ ∀ t, m = .tag t → ¬ t.EndsInValue) ∧
      (m.Followed before → Between (stateAfter (before ++ m.bytes)).1) := by
  cases m with
  | text t =>
      refine ⟨⟨fun _ _ h => Markup.noConfusion h, fun _ => trivial⟩, fun _ => ?_⟩
      rw [stateAfter_append, after_step_stage, Markup.bytes, after_text h t.2]
      exact h
  | comment c =>
      have hc := followed_comment c h
      exact ⟨⟨fun _ _ h => Markup.noConfusion h, fun _ => hc⟩, fun _ => .inr hc.1⟩
  | tag t =>
      refine ⟨?_, .inr⟩
      rw [Markup.Followed, stateAfter_append, after_step_stage, after_tag_eq_iff t h]
      simp

/-- While it follows a document the automaton is between two pieces after each of them. -/
theorem between_document {ms : List Markup}
    (h : ∀ pre m post, ms = pre ++ m :: post → Between (stateAfter (document pre)).1 →
      m.Followed (document pre)) {pre post : List Markup} (hms : ms = pre ++ post) :
    Between (stateAfter (document pre)).1 := by
  induction pre using List.reverseRecOn generalizing post with
  | nil => exact .inl rfl
  | append_singleton pre m ih =>
      have hms : ms = pre ++ m :: post := by simpa using hms
      have hpre := ih hms
      have := (followed_iff hpre).2 (h pre m post hms hpre)
      simpa [document] using this

/-- The automaton follows a document exactly if no tag ends directly behind a value without
quotes. -/
theorem followsMarkup_iff (ms : List Markup) :
    FollowsMarkup ms ↔ ∀ t, Markup.tag t ∈ ms → ¬ t.EndsInValue := by
  constructor
  · intro h t ht
    obtain ⟨pre, post, hms⟩ := List.append_of_mem ht
    have hpre := between_document (fun pre m post hms _ => h pre m post hms) hms
    exact (followed_iff hpre).1.mp (h pre _ post hms) t rfl
  · intro h
    have hstep : ∀ pre m post, ms = pre ++ m :: post → Between (stateAfter (document pre)).1 →
        m.Followed (document pre) := by
      rintro pre m post rfl hpre
      exact (followed_iff hpre).1.mpr fun t ht => h t (by simp [ht])
    intro pre m post hms
    exact hstep pre m post hms (between_document hstep hms)

/-- `<a b=c>` leaves the automaton inside of the tag. -/
theorem not_followsMarkup :
    ¬ FollowsMarkup [.tag ⟨⟨chars "a", by decide +kernel⟩, by decide +kernel,
      [⟨⟨[32], by decide +kernel⟩, ⟨chars "b", by decide +kernel⟩,
        .unquoted ⟨chars "c", by decide +kernel⟩⟩], .bare⟩] := by
  intro h
  have hout : (stateAfter (chars "<a b=c>")).1 = outsideTag := h [] _ [] rfl
  exact absurd hout (by decide)

end RenaProxy.Html
