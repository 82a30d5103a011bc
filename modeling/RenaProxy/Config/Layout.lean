import RenaProxy.Config.Ini

/-!
# The layout of the configuration file

A file that is read to its end is made of gaps (blank lines and comments), headers of sections and
pairs, each with its conditions as fields. `readSections_eq_ok_iff` says that these are all such
files, and what is read of them; by `readSections_eq_overread_iff` a `[` at the very end, where a
header could stand, makes the reader go on behind the file.
-/
namespace RenaProxy

/-! ## The parts of a file -/

/-- Blank lines and comments, up to the beginning of a line. -/
inductive IsGap : List UInt8 → Prop
  | nil : IsGap []
  | cr {g : List UInt8} (h : IsGap g) : IsGap (13 :: g)
  | lf {g : List UInt8} (h : IsGap g) : IsGap (10 :: g)
  | comment {text g : List UInt8} (htext : 10 ∉ text) (h : IsGap g) :
      IsGap (35 :: (text ++ 10 :: g))

/-- At the end of the file the last comment needs no newline. -/
inductive IsLastGap : List UInt8 → Prop
  | gap {g : List UInt8} (h : IsGap g) : IsLastGap g
  | comment {g text : List UInt8} (h : IsGap g) (htext : 10 ∉ text) : IsLastGap (g ++ 35 :: text)

/-- What neither a gap nor a comment begins with. -/
def Begins (c : UInt8) : Prop := c ≠ 13 ∧ c ≠ 10 ∧ c ≠ 35

instance : DecidablePred Begins := fun _ => inferInstanceAs (Decidable (_ ∧ _))

/-- A pair on its line. Its key has a first byte that is free to be `=`. -/
structure PairText where
  first : UInt8
  key : List UInt8
  afterKey : List UInt8
  beforeValue : List UInt8
  value : List UInt8
  cr : Bool
  begins : Begins first ∧ first ≠ 91
  key_ne : ∀ c ∈ key, c ≠ 61 ∧ c ≠ 10
  key_last : ∀ c ∈ key.getLast?, isBlank c = false
  afterKey_blank : ∀ c ∈ afterKey, isBlank c
  beforeValue_blank : ∀ c ∈ beforeValue, isBlank c
  value_first : ∀ c ∈ value.head?, isBlank c = false
  value_ne : 10 ∉ value
  value_last : cr = false → value.getLast? ≠ some 13

/-- The header of a section. -/
structure HeaderText where
  first : UInt8
  name : List UInt8
  name_ne : ∀ c ∈ name, c ≠ 93 ∧ c ≠ 10

def PairText.text (p : PairText) : List UInt8 :=
  p.first :: (p.key ++ p.afterKey ++
    61 :: (p.beforeValue ++ p.value ++ (if p.cr then [13] else []) ++ [10]))

def HeaderText.text (h : HeaderText) : List UInt8 := 91 :: h.first :: (h.name ++ [93])

/-- A pair with the gap before it. -/
abbrev GappedPair := {g : List UInt8 // IsGap g} × PairText

/-- A section, up to the next one or to the end of the file. -/
structure SectionText where
  header : HeaderText
  pairs : List GappedPair
  gap : List UInt8

def pairsText (pairs : List GappedPair) : List UInt8 := pairs.flatMap fun p => p.1.1 ++ p.2.text

def SectionText.text (s : SectionText) : List UInt8 := s.header.text ++ (pairsText s.pairs ++ s.gap)

def sectionsText (sections : List SectionText) : List UInt8 := sections.flatMap SectionText.text

/-- Sections up to the end of the file. -/
inductive AreSections : List SectionText → Prop
  | last {s : SectionText} (h : IsLastGap s.gap) : AreSections [s]
  | cons {s : SectionText} {sections : List SectionText} (h : IsGap s.gap)
      (hrest : AreSections sections) : AreSections (s :: sections)

/-- The entries of a section that is open, behind this much of the file. -/
def pairEntries (name before : List UInt8) : List GappedPair → List IniEntry
  | [] => []
  | (g, p) :: pairs =>
      ⟨name, p.first :: p.key, p.value, 1 + (before ++ g.1).count 10⟩ ::
        pairEntries name (before ++ g.1 ++ p.text) pairs

/-- The entries of a file, behind this much of it. -/
def sectionEntries (before : List UInt8) : List SectionText → List IniEntry
  | [] => []
  | s :: sections =>
      pairEntries (s.header.first :: s.header.name) (before ++ s.header.text) s.pairs ++
        sectionEntries (before ++ s.text) sections

/-! ## Gaps -/

section Gaps
variable {g text rest : List UInt8}

/-- What is behind a gap: something that is none, or the end of the file. -/
def Ends (g rest : List UInt8) : Prop :=
  (IsGap g ∧ ∃ c text, rest = c :: text ∧ Begins c) ∨ (rest = [] ∧ IsLastGap g)

theorem skipCommentsFrom_comment (htext : 10 ∉ text) (rest : List UInt8) :
    skipCommentsFrom true (text ++ rest) = skipCommentsFrom true rest := by
  induction text with
  | nil => rfl
  | cons c text ih =>
      have hc : c ≠ 10 := fun h => htext (h ▸ List.mem_cons_self)
      rw [List.cons_append, skipCommentsFrom, decide_eq_true hc]
      exact ih fun h => htext (List.mem_cons_of_mem c h)

theorem skipCommentsFrom_gap (hg : IsGap g) (rest : List UInt8) :
    skipCommentsFrom false (g ++ rest) = skipCommentsFrom false rest := by
  induction hg with
  | nil => rfl
  | cr h ih => exact ih
  | lf h ih => exact ih
  | comment htext h ih =>
      rw [List.cons_append, List.append_assoc]
      change skipCommentsFrom true _ = _
      rw [skipCommentsFrom_comment htext]
      exact ih

/-- The gap is skipped. -/
theorem skipCommentsFrom_of_ends (h : Ends g rest) : skipCommentsFrom false (g ++ rest) = rest := by
  rcases h with ⟨hg, c, text, rfl, hc⟩ | ⟨rfl, hg⟩
  · rw [skipCommentsFrom_gap hg, skipCommentsFrom, if_neg (not_or.mpr ⟨hc.1, hc.2.1⟩),
      if_neg hc.2.2]
  · rw [List.append_nil]
    cases hg with
    | gap hg =>
        have hskip := skipCommentsFrom_gap hg []
        rwa [List.append_nil] at hskip
    | @comment g text hg htext =>
        rw [skipCommentsFrom_gap hg]
        change skipCommentsFrom true text = []
        have hskip := skipCommentsFrom_comment htext []
        rwa [List.append_nil] at hskip

/-- A gap goes on with a further line. -/
theorem Ends.line (line : List UInt8) (hline : ∀ g, IsGap g → IsGap (line ++ g)) (h : Ends g rest) :
    Ends (line ++ g) rest := by
  rcases h with ⟨hg, hrest⟩ | ⟨hrest, hg⟩
  · exact .inl ⟨hline g hg, hrest⟩
  · refine .inr ⟨hrest, ?_⟩
    cases hg with
    | gap hg => exact .gap (hline _ hg)
    | comment hg htext =>
        rw [← List.append_assoc]
        exact .comment (hline _ hg) htext

/-- What is skipped is a gap; what is skipped of a comment ends with its newline and a gap, or with
the file. -/
theorem exists_ends_and (text : List UInt8) :
    (∃ g, text = g ++ skipCommentsFrom false text ∧ Ends g (skipCommentsFrom false text)) ∧
      ∃ body g, text = body ++ g ++ skipCommentsFrom true text ∧ 10 ∉ body ∧
        (g = [] ∧ skipCommentsFrom true text = [] ∨
          ∃ g', g = 10 :: g' ∧ Ends g' (skipCommentsFrom true text)) := by
  induction text with
  | nil =>
      exact ⟨⟨[], rfl, .inr ⟨rfl, .gap .nil⟩⟩, [], [], rfl, List.not_mem_nil, .inl ⟨rfl, rfl⟩⟩
  | cons c text ih =>
      obtain ⟨⟨g, htext, hends⟩, body, g₁, hbody, hmem, hrest⟩ := ih
      constructor
      · rw [skipCommentsFrom]
        split_ifs with hline hcomment
        · refine ⟨c :: g, by rw [List.cons_append, ← htext], ?_⟩
          rcases hline with rfl | rfl
          · exact hends.line [13] fun _ => .cr
          · exact hends.line [10] fun _ => .lf
        · subst hcomment
          refine ⟨35 :: (body ++ g₁), by rw [List.cons_append, ← hbody], ?_⟩
          rcases hrest with ⟨rfl, hnil⟩ | ⟨g', rfl, hends'⟩
          · rw [List.append_nil]
            exact .inr ⟨hnil, .comment .nil hmem⟩
          · have hends'' := hends'.line (35 :: (body ++ [10])) fun g hg => by
              rw [List.cons_append, List.append_assoc]
              exact .comment hmem hg
            rwa [List.cons_append, List.append_assoc] at hends''
        · exact ⟨[], rfl, .inl ⟨.nil, c, text, rfl, fun h => hline (.inl h),
            fun h => hline (.inr h), hcomment⟩⟩
      · rw [skipCommentsFrom]
        by_cases hc : c = 10
        · subst hc
          rw [decide_eq_false (not_not.mpr rfl)]
          exact ⟨[], 10 :: g, by rw [List.nil_append, List.cons_append, ← htext], List.not_mem_nil,
            .inr ⟨g, rfl, hends⟩⟩
        · rw [decide_eq_true hc]
          exact ⟨c :: body, g₁, by rw [List.cons_append, List.cons_append, ← hbody],
            by simp [hmem, Ne.symm hc], hrest⟩

theorem exists_ends (text : List UInt8) :
    ∃ g, text = g ++ skipCommentsFrom false text ∧ Ends g (skipCommentsFrom false text) :=
  (exists_ends_and text).1

end Gaps

/-! ## Headers and pairs -/

section Items
variable {c : UInt8} {p : UInt8 → Bool} {text body rest key value : List UInt8}

theorem span_of_stop (hbody : ∀ b ∈ body, p b) (hc : p c = false) (rest : List UInt8) :
    (body ++ c :: rest).takeWhile p = body ∧ (body ++ c :: rest).dropWhile p = c :: rest := by
  have hstop : ¬ p c = true := by simp [hc]
  rw [List.takeWhile_append_of_pos hbody, List.dropWhile_append_of_pos hbody,
    List.takeWhile_cons_of_neg hstop, List.append_nil, List.dropWhile_cons_of_neg hstop]
  exact ⟨rfl, rfl⟩

theorem of_dropWhile_eq_cons (h : text.dropWhile p = c :: rest) :
    text = text.takeWhile p ++ c :: rest ∧ (∀ b ∈ text.takeWhile p, p b) ∧ p c = false := by
  refine ⟨?_, fun b hb => List.mem_takeWhile_imp hb, ?_⟩
  · rw [← h, List.takeWhile_append_dropWhile]
  · have hhead := List.head?_dropWhile_not p text
    rwa [h, List.head?_cons] at hhead

theorem nameFrom_eq_ok_iff {name : List UInt8} : INI.nameFrom text = .ok (name, rest) ↔
    ∃ h : HeaderText, 91 :: text = h.text ++ rest ∧ name = h.first :: h.name := by
  constructor
  · intro hok
    cases text with
    | nil => cases hok
    | cons c text =>
        rw [INI.nameFrom] at hok
        split at hok
        · rename_i rest' hdrop
          obtain ⟨htext, hname, -⟩ := of_dropWhile_eq_cons hdrop
          obtain ⟨rfl, rfl⟩ := Prod.mk.inj (Except.ok.inj hok)
          refine ⟨⟨c, _, fun b hb => by simpa using hname b hb⟩, ?_, rfl⟩
          rw [HeaderText.text, List.cons_append, List.cons_append, List.append_assoc]
          exact congrArg (fun t => 91 :: c :: t) htext
        · cases hok
  · rintro ⟨h, htext, rfl⟩
    have htext : text = h.first :: (h.name ++ 93 :: rest) := by
      simpa [HeaderText.text] using htext
    obtain ⟨htake, hdrop⟩ := span_of_stop (p := fun b => b ≠ 93 ∧ b ≠ 10) (c := 93)
      (fun b hb => decide_eq_true (h.name_ne b hb)) rfl rest
    subst htext
    rw [INI.nameFrom, hdrop, htake]
    rfl

/-- A carriage return at the end is told apart from the value. -/
theorem dropCr_append_cr (v : List UInt8) :
    v = dropCr v ++ (if v.getLast? = some 13 then [13] else []) := by
  rw [dropCr]
  split_ifs with hcr
  · exact (List.dropLast_append_getLast? 13 hcr).symm
  · exact (List.append_nil v).symm

theorem dropCr_of_append {v : List UInt8} {cr : Bool} (hlast : cr = false → v.getLast? ≠ some 13) :
    dropCr (v ++ if cr then [13] else []) = v := by
  cases cr with
  | true => simp [dropCr]
  | false => simp [dropCr, hlast rfl]

theorem rdropWhile_append {after : List UInt8} (hafter : ∀ b ∈ after, isBlank b)
    (hkey : ∀ b ∈ key.getLast?, isBlank b = false) : (key ++ after).rdropWhile isBlank = key := by
  have hall : ∀ b ∈ after.reverse, isBlank b := fun b hb => hafter b (List.mem_reverse.mp hb)
  have hself : key.rdropWhile isBlank = key := by
    rw [List.rdropWhile_eq_self_iff]
    intro hne
    simp [hkey _ (List.getLast?_eq_some_getLast hne)]
  rw [List.rdropWhile, List.reverse_append, List.dropWhile_append_of_pos hall]
  exact hself

/-- What is left after the blanks does not begin with one. -/
theorem dropWhile_blanks {before : List UInt8} (hbefore : ∀ b ∈ before, isBlank b)
    (hrest : ∀ b ∈ rest.head?, isBlank b = false) : (before ++ rest).dropWhile isBlank = rest := by
  rw [List.dropWhile_append_of_pos hbefore]
  cases rest with
  | nil => rfl
  | cons b rest => exact List.dropWhile_cons_of_neg (by simp [hrest b rfl])

theorem head?_dropCr {v : List UInt8} (hfirst : ∀ b ∈ v.head?, isBlank b = false) :
    ∀ b ∈ (dropCr v).head?, isBlank b = false := by
  intro b hb
  refine hfirst b ?_
  rw [dropCr_append_cr v]
  cases h : dropCr v with
  | nil => rw [h] at hb; cases hb
  | cons d v' => rw [h] at hb; exact hb

/-- The pair that a line is read as. -/
theorem exists_pair {before line : List UInt8} (hc : Begins c ∧ c ≠ 91)
    (hkey : ∀ b ∈ key, b ≠ 61 ∧ b ≠ 10) (hbefore : ∀ b ∈ before, isBlank b)
    (hline : 10 ∉ line) (hfirst : ∀ b ∈ line.head?, isBlank b = false) :
    ∃ p : PairText, p.first :: p.key = c :: key.rdropWhile isBlank ∧ p.value = dropCr line ∧
      p.text = c :: (key ++ 61 :: (before ++ line ++ [10])) := by
  have hlast : ∀ b ∈ (key.rdropWhile isBlank).getLast?, isBlank b = false := by
    intro b hb
    obtain ⟨hne, rfl⟩ := List.mem_getLast?_eq_getLast hb
    simpa using List.rdropWhile_last_not isBlank key hne
  have hcr : decide (line.getLast? = some 13) = false → (dropCr line).getLast? ≠ some 13 := by
    intro hcr
    have hnot := of_decide_eq_false hcr
    rwa [dropCr, if_neg hnot]
  refine ⟨⟨c, key.rdropWhile isBlank, key.rtakeWhile isBlank, before, dropCr line,
    decide (line.getLast? = some 13), hc,
    fun b hb => hkey b ((List.rdropWhile_prefix isBlank key).subset hb), hlast,
    fun b hb => List.mem_rtakeWhile_imp hb, hbefore, head?_dropCr hfirst,
    fun h => hline ?_, hcr⟩, rfl, rfl, ?_⟩
  · rw [dropCr_append_cr line]
    exact List.mem_append_left _ h
  · rw [PairText.text]
    simp only [decide_eq_true_eq]
    rw [List.rdropWhile_append_rtakeWhile, List.append_assoc before, ← dropCr_append_cr,
      List.append_assoc]

theorem pairFrom_eq_ok_iff (hc : Begins c ∧ c ≠ 91) :
    INI.pairFrom c text = .ok (key, value, rest) ↔
      ∃ p : PairText, c :: text = p.text ++ rest ∧ key = p.first :: p.key ∧ value = p.value := by
  constructor
  · intro hok
    rw [INI.pairFrom] at hok
    dsimp only at hok
    split at hok
    · rename_i after hkey
      split at hok
      · rename_i b rest' hvalue
        obtain ⟨rfl, hvalue'⟩ := Prod.mk.inj (Except.ok.inj hok)
        obtain ⟨rfl, rfl⟩ := Prod.mk.inj hvalue'
        obtain ⟨htext, hne, -⟩ := of_dropWhile_eq_cons hkey
        obtain ⟨hafter, hline, hstop⟩ := of_dropWhile_eq_cons hvalue
        obtain rfl : b = 10 := by simpa using hstop
        have hblanks := List.takeWhile_append_dropWhile (p := isBlank) (l := after)
        have hfirst : ∀ d ∈ ((after.dropWhile isBlank).takeWhile (· ≠ 10)).head?,
            isBlank d = false := by
          intro d hd
          obtain ⟨line, hline'⟩ := List.head?_eq_some_iff.mp (Option.mem_def.mp hd)
          rw [hline', List.cons_append] at hafter
          exact (of_dropWhile_eq_cons hafter).2.2
        obtain ⟨p, hp, hpvalue, hptext⟩ := exists_pair hc (fun b hb => by simpa using hne b hb)
          (fun b hb => List.mem_takeWhile_imp hb) (fun hmem => by simpa using hline 10 hmem) hfirst
        refine ⟨p, ?_, hp.symm, hpvalue.symm⟩
        rw [hptext, List.cons_append, List.append_assoc, List.cons_append, List.append_assoc,
          List.append_assoc, List.singleton_append, ← hafter, hblanks, ← htext]
      · cases hok
    · cases hok
  · rintro ⟨p, htext, rfl, rfl⟩
    have hkey : ∀ b ∈ p.key ++ p.afterKey, (decide (b ≠ 61 ∧ b ≠ 10)) = true := by
      intro b hb
      rcases List.mem_append.mp hb with hb | hb
      · exact decide_eq_true (p.key_ne b hb)
      · have hblank := p.afterKey_blank b hb
        rw [isBlank, decide_eq_true_eq] at hblank
        rcases hblank with rfl | rfl <;> decide
    have hline : ∀ b ∈ p.value ++ (if p.cr then [13] else []), (decide (b ≠ 10)) = true := by
      intro b hb
      rcases List.mem_append.mp hb with hb | hb
      · exact decide_eq_true fun h => p.value_ne (h ▸ hb)
      · split_ifs at hb
        · obtain rfl := List.mem_singleton.mp hb
          rfl
        · cases hb
    have hfirst : ∀ b ∈ (p.value ++ (if p.cr then [13] else []) ++ 10 :: rest).head?,
        isBlank b = false := by
      have hvalue := p.value_first
      cases h : p.value with
      | cons d value =>
          rw [h] at hvalue
          exact hvalue
      | nil =>
          split_ifs
          · exact fun b hb => Option.mem_some.mp hb ▸ rfl
          · exact fun b hb => Option.mem_some.mp hb ▸ rfl
    obtain ⟨rfl, rfl⟩ : c = p.first ∧ text = p.key ++ p.afterKey ++ 61 :: (p.beforeValue ++
        (p.value ++ (if p.cr then [13] else []) ++ 10 :: rest)) := by
      simpa [PairText.text] using htext
    obtain ⟨htake, hdrop⟩ := span_of_stop (c := 61) hkey rfl
      (p.beforeValue ++ (p.value ++ (if p.cr then [13] else []) ++ 10 :: rest))
    obtain ⟨hvalue, hrest⟩ := span_of_stop (c := 10) hline rfl rest
    simp only [INI.pairFrom, hdrop, htake, dropWhile_blanks p.beforeValue_blank hfirst, hrest,
      hvalue, rdropWhile_append p.afterKey_blank p.key_last, dropCr_of_append p.value_last]

end Items

/-! ## Reading pairs -/

section Pairs
variable {σ : Type} {entry : σ → IniEntry → σ} {ini ini' : INI} {s s' : σ} {n : ℕ}
  {g rest name : List UInt8}

theorem advance_eq (ini : INI) (h : ini.rest = g ++ rest) : ini.advance rest = ⟨ini.before ++ g, rest⟩ := by
  rw [INI.advance, h, List.length_append, Nat.add_sub_cancel, List.take_left']
  rfl

theorem skipComments_eq (h : ini.rest = g ++ rest) (hends : Ends g rest) :
    ini.skipComments = ⟨ini.before ++ g, rest⟩ := by
  rw [INI.skipComments, h, skipCommentsFrom_of_ends hends, advance_eq ini h]

/-- What is behind the pairs of a section. -/
def Stops (g rest : List UInt8) : Prop :=
  (IsGap g ∧ ∃ text, rest = 91 :: text) ∨ (rest = [] ∧ IsLastGap g)

theorem Stops.ends (h : Stops g rest) : Ends g rest := by
  rcases h with ⟨hg, text, rfl⟩ | h
  · exact .inl ⟨hg, 91, text, rfl, by decide⟩
  · exact .inr h

theorem readPair_stops (h : ini.rest = g ++ rest) (hstops : Stops g rest) :
    ini.readPair = .ok (none, ⟨ini.before ++ g, rest⟩) := by
  rw [INI.readPair, skipComments_eq h hstops.ends]
  rcases hstops with ⟨-, text, rfl⟩ | ⟨rfl, -⟩
  · rfl
  · rfl

theorem readPair_pair (hg : IsGap g) (p : PairText) (h : ini.rest = g ++ (p.text ++ rest)) :
    ini.readPair = .ok (some ⟨p.first :: p.key, (ini.before ++ g).length, p.value⟩,
      ⟨ini.before ++ g ++ p.text, rest⟩) := by
  obtain ⟨text, htext⟩ : ∃ text, p.text ++ rest = p.first :: text := ⟨_, rfl⟩
  have hpair := (pairFrom_eq_ok_iff p.begins).mpr ⟨p, htext.symm, rfl, rfl⟩
  have hends : Ends g (p.first :: text) := .inl ⟨hg, _, _, rfl, p.begins.1⟩
  rw [htext] at h
  rw [INI.readPair, skipComments_eq h hends]
  dsimp only
  rw [if_neg p.begins.2, hpair, Failure.bind_ok]
  dsimp only
  rw [advance_eq ⟨ini.before ++ g, p.first :: text⟩ htext.symm]
  rfl

/-- All that `ini_read_pair` does not fail at. -/
theorem readPair_cases {pair : Option IniPair} (h : ini.readPair = .ok (pair, ini')) :
    (∃ g rest, ini.rest = g ++ rest ∧ Stops g rest ∧ pair = none ∧ ini' = ⟨ini.before ++ g, rest⟩) ∨
      ∃ (g : List UInt8) (p : PairText) (rest : List UInt8), IsGap g ∧
        ini.rest = g ++ (p.text ++ rest) ∧
        pair = some ⟨p.first :: p.key, (ini.before ++ g).length, p.value⟩ ∧
        ini' = ⟨ini.before ++ g ++ p.text, rest⟩ := by
  obtain ⟨g, hrest, hends⟩ := exists_ends ini.rest
  generalize skipCommentsFrom false ini.rest = rest at hrest hends
  have hskip := skipComments_eq hrest hends
  rcases hends with ⟨hg, c, text, rfl, hc⟩ | ⟨rfl, hg⟩
  · by_cases hbracket : c = 91
    · subst hbracket
      left
      have hstops : Stops g (91 :: text) := .inl ⟨hg, text, rfl⟩
      rw [readPair_stops hrest hstops] at h
      obtain ⟨rfl, rfl⟩ := Prod.mk.inj (Except.ok.inj h)
      exact ⟨g, _, hrest, hstops, rfl, rfl⟩
    · right
      obtain ⟨p, rest, htext⟩ :
          ∃ (p : PairText) (rest : List UInt8), c :: text = p.text ++ rest := by
        rw [INI.readPair, hskip] at h
        dsimp only at h
        rw [if_neg hbracket] at h
        obtain ⟨⟨key, value, rest⟩, hpair, -⟩ := Failure.bind_eq_ok.mp h
        obtain ⟨p, htext, -, -⟩ := (pairFrom_eq_ok_iff ⟨hc, hbracket⟩).mp hpair
        exact ⟨p, rest, htext⟩
      rw [htext] at hrest
      rw [readPair_pair hg p hrest] at h
      obtain ⟨rfl, rfl⟩ := Prod.mk.inj (Except.ok.inj h)
      exact ⟨g, p, rest, hg, hrest, rfl, rfl⟩
  · left
    have hstops : Stops g [] := .inr ⟨rfl, hg⟩
    rw [readPair_stops hrest hstops] at h
    obtain ⟨rfl, rfl⟩ := Prod.mk.inj (Except.ok.inj h)
    exact ⟨g, _, hrest, hstops, rfl, rfl⟩

theorem pairsText_cons (p : GappedPair) (pairs : List GappedPair) :
    pairsText (p :: pairs) = p.1.1 ++ p.2.text ++ pairsText pairs := rfl

theorem readPairs_stops (h : ini.rest = g ++ rest) (hstops : Stops g rest) :
    readPairs entry name (n + 1) ini s = .ok (⟨ini.before ++ g, rest⟩, s) := by
  rw [readPairs, readPair_stops h hstops]
  rfl

/-- A round of the inner loop. The line is counted up to the key. -/
theorem readPairs_pair (hg : IsGap g) (p : PairText) (h : ini.rest = g ++ (p.text ++ rest)) :
    readPairs entry name (n + 1) ini s =
      readPairs entry name n ⟨ini.before ++ g ++ p.text, rest⟩
        (entry s ⟨name, p.first :: p.key, p.value, 1 + (ini.before ++ g).count 10⟩) := by
  have hline : INI.lineNumber ⟨ini.before ++ g ++ p.text, rest⟩ (ini.before ++ g).length =
      1 + (ini.before ++ g).count 10 := by
    rw [INI.lineNumber, List.append_assoc, List.take_left']
    rfl
  rw [readPairs, readPair_pair hg p h, Failure.bind_ok]
  dsimp only
  rw [hline]

theorem readPairs_sound (h : readPairs entry name n ini s = .ok (ini', s')) :
    ∃ pairs g, ini.rest = pairsText pairs ++ (g ++ ini'.rest) ∧ Stops g ini'.rest ∧
      ini'.before = ini.before ++ (pairsText pairs ++ g) ∧
      s' = (pairEntries name ini.before pairs).foldl entry s := by
  induction n generalizing ini s with
  | zero => cases h
  | succ n ih =>
      obtain ⟨⟨pair, ini₁⟩, hread, -⟩ := Failure.bind_eq_ok.mp h
      rcases readPair_cases hread with ⟨g, rest, hrest, hstops, -, -⟩ |
        ⟨g, p, rest, hg, hrest, -, -⟩
      · rw [readPairs_stops hrest hstops] at h
        obtain ⟨rfl, rfl⟩ := Prod.mk.inj (Except.ok.inj h)
        exact ⟨[], g, hrest, hstops, rfl, rfl⟩
      · rw [readPairs_pair hg p hrest] at h
        obtain ⟨pairs, g', hrest', hstops, hbefore, rfl⟩ := ih h
        dsimp only at hrest' hbefore
        refine ⟨(⟨g, hg⟩, p) :: pairs, g', ?_, hstops, ?_, rfl⟩
        · rw [hrest, hrest', pairsText_cons, List.append_assoc, List.append_assoc]
        · rw [hbefore, pairsText_cons]
          simp only [List.append_assoc]

theorem readPairs_complete (pairs : List GappedPair) (hn : pairs.length < n)
    (h : ini.rest = pairsText pairs ++ (g ++ rest)) (hstops : Stops g rest) :
    readPairs entry name n ini s = .ok (⟨ini.before ++ (pairsText pairs ++ g), rest⟩,
      (pairEntries name ini.before pairs).foldl entry s) := by
  induction pairs generalizing n ini s with
  | nil =>
      obtain ⟨n, rfl⟩ := Nat.exists_eq_add_one_of_ne_zero (Nat.ne_of_gt hn)
      exact readPairs_stops h hstops
  | cons p pairs ih =>
      obtain ⟨n, rfl⟩ := Nat.exists_eq_add_one_of_ne_zero (Nat.ne_of_gt (Nat.zero_lt_of_lt hn))
      rw [pairsText_cons, List.append_assoc, List.append_assoc] at h
      have hbefore : ini.before ++ p.1.1 ++ p.2.text ++ (pairsText pairs ++ g) =
          ini.before ++ (pairsText (p :: pairs) ++ g) := by
        rw [pairsText_cons]
        simp only [List.append_assoc]
      rw [readPairs_pair p.1.2 p.2 h, ih (by simpa using hn) rfl, hbefore]
      rfl

theorem length_text_pos (p : PairText) : 0 < p.text.length := Nat.succ_pos _

theorem length_le_pairsText (pairs : List GappedPair) :
    pairs.length ≤ (pairsText pairs).length := by
  induction pairs with
  | nil => exact Nat.le_refl 0
  | cons p pairs ih =>
      have := length_text_pos p.2
      rw [pairsText_cons, List.length_append, List.length_append, List.length_cons]
      omega

/-- Only `-EIO` comes out of `ini_read_pair` otherwise. -/
theorem readPair_error {e : IniError} (h : ini.readPair = .error e) : e = .eio := by
  have hpair : ∀ c text, INI.pairFrom c text = .error e → e = .eio := by
    intro c text herror
    rw [INI.pairFrom] at herror
    dsimp only at herror
    split at herror
    · split at herror
      · cases herror
      · exact (Except.error.inj herror).symm
    · exact (Except.error.inj herror).symm
  rw [INI.readPair] at h
  dsimp only at h
  split at h
  · cases h
  · rename_i c text _
    split_ifs at h
    · cases h
    · cases hok : INI.pairFrom c text with
      | error e' =>
          rw [hok] at h
          obtain rfl : e' = e := Except.error.inj h
          exact hpair c text hok
      | ok r =>
          rw [hok] at h
          cases h

theorem readPairs_error {e : IniError} (hn : ini.rest.length < n)
    (h : readPairs entry name n ini s = .error e) : e = .eio := by
  induction n generalizing ini s with
  | zero => cases hn
  | succ n ih =>
      cases hread : ini.readPair with
      | error e' =>
          rw [readPairs, hread] at h
          obtain rfl : e' = e := Except.error.inj h
          exact readPair_error hread
      | ok r =>
          obtain ⟨pair, ini₁⟩ := r
          rcases readPair_cases hread with ⟨g, rest, hrest, hstops, -, -⟩ |
            ⟨g, p, rest, hg, hrest, -, -⟩
          · rw [readPairs_stops hrest hstops] at h
            cases h
          · rw [readPairs_pair hg p hrest] at h
            have := length_text_pos p
            rw [hrest, List.length_append, List.length_append] at hn
            exact ih (by dsimp only; omega) h

end Pairs

/-! ## Reading sections -/

section Sections
variable {σ : Type} {entry : σ → IniEntry → σ} {ini ini' : INI} {s s' : σ} {n : ℕ}
  {g rest text : List UInt8}

/-- Where `ini_next_section` is called. -/
def AtSection (ini : INI) : Prop := ini.before ≠ [] → ini.rest = [] ∨ ∃ text, ini.rest = 91 :: text

/-- A gap before a header is skipped at the beginning of the file only. -/
def Leads (ini : INI) (g : List UInt8) : Prop := IsGap g ∧ (ini.before ≠ [] → g = [])

theorem nextSection_of_leads (hg : Leads ini g) (h : ini.rest = g ++ 91 :: text) :
    ini.nextSection = INI.nameFrom text >>= fun r =>
      pure (some r.1, (⟨ini.before ++ g, 91 :: text⟩ : INI).advance r.2) := by
  have hne : ini.rest ≠ [] := by
    rw [h]
    exact List.append_ne_nil_of_right_ne_nil g (List.cons_ne_nil _ _)
  rw [INI.nextSection, if_neg hne]
  by_cases hbefore : ini.before = []
  · have hskip := skipComments_eq h (.inl ⟨hg.1, 91, text, rfl, by decide⟩)
    rw [if_pos hbefore, hskip]
    rfl
  · obtain rfl := hg.2 hbefore
    have hskip : skipLines true ini.rest = .ok (91 :: text) := by
      rw [h]
      rfl
    rw [if_neg hbefore, hskip]
    dsimp only [Except.map]
    rw [advance_eq _ h]
    rfl

theorem nextSection_header (hg : Leads ini g) (header : HeaderText)
    (h : ini.rest = g ++ (header.text ++ rest)) : ini.nextSection =
      .ok (some (header.first :: header.name), ⟨ini.before ++ g ++ header.text, rest⟩) := by
  obtain ⟨text, htext⟩ : ∃ text, header.text ++ rest = 91 :: text := ⟨_, rfl⟩
  have hname := nameFrom_eq_ok_iff.mpr ⟨header, htext.symm, rfl⟩
  rw [htext] at h
  rw [nextSection_of_leads hg h, hname, Failure.bind_ok]
  dsimp only
  rw [advance_eq ⟨ini.before ++ g, 91 :: text⟩ htext.symm]
  rfl

theorem nextSection_nil (h : ini.rest = []) : ini.nextSection = .ok (none, ini) := by
  rw [INI.nextSection, if_pos h]
  rfl

/-- Elsewhere there is nothing to read, or `-EIO`. -/
theorem leads_or (hsection : AtSection ini) : ini.rest = [] ∨
    (∃ g text, Leads ini g ∧ ini.rest = g ++ 91 :: text) ∨ ini.nextSection = .error .eio := by
  by_cases hbefore : ini.before = []
  · by_cases hrest : ini.rest = []
    · exact .inl hrest
    · right
      obtain ⟨g, heq, hends⟩ := exists_ends ini.rest
      by_cases hhead : ini.skipComments.rest.head? = some 91
      · obtain ⟨text, htext⟩ := List.head?_eq_some_iff.mp hhead
        have htext : skipCommentsFrom false ini.rest = 91 :: text := htext
        rw [htext] at heq hends
        rcases hends with ⟨hg, -⟩ | ⟨hnil, -⟩
        · exact .inl ⟨g, text, ⟨hg, fun h => absurd hbefore h⟩, heq⟩
        · cases hnil
      · right
        rw [INI.nextSection, if_neg hrest, if_pos hbefore, if_neg hhead]
        rfl
  · rcases hsection hbefore with hrest | ⟨text, hrest⟩
    · exact .inl hrest
    · exact .inr (.inl ⟨[], text, ⟨.nil, fun _ => rfl⟩, hrest⟩)

theorem nameFrom_error {e : IniError} (h : INI.nameFrom text = .error e) :
    e = .eio ∨ e = .overread ∧ text = [] := by
  cases text with
  | nil => exact .inr ⟨(Except.error.inj h).symm, rfl⟩
  | cons c text =>
      rw [INI.nameFrom] at h
      split at h
      · cases h
      · exact .inl (Except.error.inj h).symm

/-- What `ini_next_section` makes of a file. -/
theorem nextSection_cases (hsection : AtSection ini) : ini.rest = [] ∨
    (∃ (g : List UInt8) (header : HeaderText) (rest : List UInt8), Leads ini g ∧
      ini.rest = g ++ (header.text ++ rest)) ∨
    ini.nextSection = .error .eio ∨
    ini.nextSection = .error .overread ∧ ∃ g, Leads ini g ∧ ini.rest = g ++ [91] := by
  rcases leads_or hsection with hrest | ⟨g, text, hg, hrest⟩ | hnext
  · exact .inl hrest
  · right
    have hnext := nextSection_of_leads hg hrest
    cases hname : INI.nameFrom text with
    | ok r =>
        obtain ⟨name, rest⟩ := r
        obtain ⟨header, htext, -⟩ := nameFrom_eq_ok_iff.mp hname
        rw [htext] at hrest
        exact .inl ⟨g, header, rest, hg, hrest⟩
    | error e =>
        right
        rw [hname] at hnext
        rcases nameFrom_error hname with rfl | ⟨rfl, rfl⟩
        · exact .inl hnext
        · exact .inr ⟨hnext, g, hg, hrest⟩
  · exact .inr (.inr (.inl hnext))

theorem nextSection_overread (hg : Leads ini g) (h : ini.rest = g ++ [91]) :
    ini.nextSection = .error .overread := by
  rw [nextSection_of_leads hg h]
  rfl

/-- A round of the outer loop. -/
theorem readSections_header (hg : Leads ini g) (header : HeaderText)
    (h : ini.rest = g ++ (header.text ++ rest)) : readSections entry (n + 1) ini s =
      readPairs entry (header.first :: header.name) (n + 1)
        ⟨ini.before ++ g ++ header.text, rest⟩ s >>= fun r => readSections entry n r.1 r.2 := by
  rw [readSections, nextSection_header hg header h]
  rfl

theorem readSections_nil (h : ini.rest = []) : readSections entry (n + 1) ini s = .ok s := by
  rw [readSections, nextSection_nil h]
  rfl

theorem readSections_error {e : IniError} (h : ini.nextSection = .error e) :
    readSections entry (n + 1) ini s = .error e := by
  rw [readSections, h]
  rfl

theorem Stops.atSection (h : Stops g ini.rest) : AtSection ini := by
  intro _
  rcases h with ⟨-, h⟩ | ⟨h, -⟩
  · exact .inr h
  · exact .inl h

theorem length_text_le {sec : SectionText} (h : ini.rest = g ++ (sec.text ++ rest)) :
    rest.length + 1 ≤ ini.rest.length ∧ sec.pairs.length < ini.rest.length := by
  have hpairs := length_le_pairsText sec.pairs
  rw [h, SectionText.text, HeaderText.text]
  simp only [List.length_append, List.length_cons]
  omega

/-- A section is read in one round. -/
theorem readSections_section (hg : Leads ini g) {sec : SectionText}
    (hn : ini.rest.length < n + 1) (h : ini.rest = g ++ (sec.text ++ rest))
    (hstops : Stops sec.gap rest) : readSections entry (n + 1) ini s =
      readSections entry n ⟨ini.before ++ g ++ sec.text, rest⟩
        ((pairEntries (sec.header.first :: sec.header.name) (ini.before ++ g ++ sec.header.text)
          sec.pairs).foldl entry s) := by
  have hlength := length_text_le h
  have hrest : sec.text ++ rest =
      sec.header.text ++ (pairsText sec.pairs ++ (sec.gap ++ rest)) := by
    rw [SectionText.text, List.append_assoc, List.append_assoc]
  rw [hrest] at h
  rw [readSections_header hg sec.header h,
    readPairs_complete sec.pairs (Nat.lt_trans hlength.2 hn) rfl hstops, Failure.bind_ok,
    List.append_assoc (ini.before ++ g)]
  rfl

/-- What a round makes of a file. -/
theorem readSections_cases (hsection : AtSection ini) (hn : ini.rest.length < n + 1) (s : σ) :
    ini.rest = [] ∨
    (∃ (g : List UInt8) (sec : SectionText) (rest : List UInt8), Leads ini g ∧
      ini.rest = g ++ (sec.text ++ rest) ∧ Stops sec.gap rest) ∨
    readSections entry (n + 1) ini s = .error .eio ∨
    readSections entry (n + 1) ini s = .error .overread ∧
      ∃ g, Leads ini g ∧ ini.rest = g ++ [91] := by
  rcases nextSection_cases hsection with hnil | ⟨g, header, rest, hg, hrest⟩ | hnext | ⟨hnext, hend⟩
  · exact .inl hnil
  · right
    rw [readSections_header hg header hrest]
    cases hpairs : readPairs entry (header.first :: header.name) (n + 1)
        ⟨ini.before ++ g ++ header.text, rest⟩ s with
    | ok r =>
        obtain ⟨pairs, gap, htext, hstops, -, -⟩ := readPairs_sound hpairs
        refine .inl ⟨g, ⟨header, pairs, gap⟩, r.1.rest, hg, ?_, hstops⟩
        rw [hrest, SectionText.text, List.append_assoc, List.append_assoc, ← htext]
    | error e =>
        have hlength : rest.length < n + 1 := by
          rw [hrest, List.length_append, List.length_append] at hn
          omega
        obtain rfl := readPairs_error hlength hpairs
        exact .inr (.inl rfl)
  · exact .inr (.inr (.inl (readSections_error hnext)))
  · exact .inr (.inr (.inr ⟨readSections_error hnext, hend⟩))

/-- Sections that are followed by another. -/
def AreClosed (sections : List SectionText) : Prop := ∀ sec ∈ sections, IsGap sec.gap

theorem sectionsText_cons (sec : SectionText) (sections : List SectionText) :
    sectionsText (sec :: sections) = sec.text ++ sectionsText sections := rfl

theorem exists_sectionsText (sections : List SectionText) (rest : List UInt8) :
    ∃ text, sectionsText sections ++ 91 :: rest = 91 :: text := by
  cases sections with
  | nil => exact ⟨rest, rfl⟩
  | cons sec sections => exact ⟨_, rfl⟩

theorem AreSections.exists_text {sections : List SectionText} (h : AreSections sections) :
    ∃ text, sectionsText sections = 91 :: text := by
  cases h with
  | last h => exact ⟨_, rfl⟩
  | cons h hrest => exact ⟨_, rfl⟩

theorem leads_nil (ini : INI) : Leads ini [] := ⟨.nil, fun _ => rfl⟩

/-- What is left behind a section is not at the beginning of the file. -/
theorem Leads.eq_nil {before : List UInt8} {sec : SectionText}
    (h : Leads ⟨before ++ sec.text, rest⟩ g) : g = [] :=
  h.2 (List.append_ne_nil_of_right_ne_nil before (List.cons_ne_nil _ _))

theorem readSections_complete {sections : List SectionText} (hsections : AreSections sections)
    (hg : Leads ini g) (hn : ini.rest.length < n) (h : ini.rest = g ++ sectionsText sections) :
    readSections entry n ini s =
      .ok ((sectionEntries (ini.before ++ g) sections).foldl entry s) := by
  induction hsections generalizing ini g n s with
  | @last sec hgap =>
      obtain ⟨n, rfl⟩ := Nat.exists_eq_add_one.mpr (Nat.zero_lt_of_lt hn)
      rw [sectionsText_cons] at h
      have hlength := length_text_le h
      have hread : readSections entry (n + 1) ini s = _ :=
        readSections_section hg hn h (.inr ⟨rfl, hgap⟩)
      obtain ⟨n, rfl⟩ := Nat.exists_eq_add_one.mpr (show 0 < n by omega)
      rw [hread, readSections_nil rfl, sectionEntries, sectionEntries, List.append_nil]
  | @cons sec sections hgap hsections ih =>
      obtain ⟨n, rfl⟩ := Nat.exists_eq_add_one.mpr (Nat.zero_lt_of_lt hn)
      rw [sectionsText_cons] at h
      have hlength := length_text_le h
      rw [readSections_section hg hn h (.inl ⟨hgap, hsections.exists_text⟩),
        ih (leads_nil _) (by dsimp only; omega) rfl, sectionEntries, List.foldl_append,
        List.append_nil, List.append_assoc ini.before]

theorem readSections_overread {sections : List SectionText} (hsections : AreClosed sections)
    (hg : Leads ini g) (hn : ini.rest.length < n)
    (h : ini.rest = g ++ (sectionsText sections ++ [91])) :
    readSections entry n ini s = .error .overread := by
  induction sections generalizing ini g n s with
  | nil =>
      obtain ⟨n, rfl⟩ := Nat.exists_eq_add_one.mpr (Nat.zero_lt_of_lt hn)
      exact readSections_error (nextSection_overread hg h)
  | cons sec sections ih =>
      obtain ⟨n, rfl⟩ := Nat.exists_eq_add_one.mpr (Nat.zero_lt_of_lt hn)
      rw [sectionsText_cons, List.append_assoc] at h
      have hlength := length_text_le h
      have hgap := hsections sec List.mem_cons_self
      rw [readSections_section hg hn h (.inl ⟨hgap, exists_sectionsText sections []⟩)]
      exact ih (fun sec' hsec => hsections sec' (List.mem_cons_of_mem sec hsec))
        (leads_nil _) (by dsimp only; omega) rfl

theorem isGap_of_stops {sec : SectionText} (hstops : Stops sec.gap (91 :: rest)) :
    IsGap sec.gap := by
  rcases hstops with ⟨hgap, -⟩ | ⟨hnil, -⟩
  · exact hgap
  · cases hnil

/-- The three ends that reading a file can have. -/
theorem readSections_outcome (entry : σ → IniEntry → σ) (hsection : AtSection ini)
    (hn : ini.rest.length < n) (s : σ) :
    (ini.rest = [] ∨ ∃ g sections, Leads ini g ∧ AreSections sections ∧
      ini.rest = g ++ sectionsText sections) ∨
    readSections entry n ini s = .error .eio ∨
    ∃ g sections, Leads ini g ∧ AreClosed sections ∧
      ini.rest = g ++ (sectionsText sections ++ [91]) := by
  induction n generalizing ini s with
  | zero => cases hn
  | succ n ih =>
      rcases readSections_cases hsection hn s with hnil | ⟨g, sec, rest, hg, hrest, hstops⟩ |
        heio | ⟨-, g, hg, hrest⟩
      · exact .inl (.inl hnil)
      · have hlength := length_text_le hrest
        rw [readSections_section hg hn hrest hstops]
        rcases @ih ⟨ini.before ++ g ++ sec.text, rest⟩ hstops.atSection
            (by dsimp only; omega) _ with (hnil | ⟨g', sections, hg', hsections, hrest'⟩) | heio |
            ⟨g', sections, hg', hclosed, hrest'⟩
        · obtain rfl : rest = [] := hnil
          rcases hstops with ⟨-, text, htext⟩ | ⟨-, hgap⟩
          · cases htext
          · refine .inl (.inr ⟨g, [sec], hg, .last hgap, ?_⟩)
            rw [hrest]
            rfl
        · obtain rfl := hg'.eq_nil
          obtain ⟨text, htext⟩ := hsections.exists_text
          obtain rfl : rest = sectionsText sections := hrest'
          rw [htext] at hstops
          exact .inl (.inr ⟨g, sec :: sections, hg, .cons (isGap_of_stops hstops) hsections,
            hrest⟩)
        · exact .inr (.inl heio)
        · obtain rfl := hg'.eq_nil
          obtain ⟨text, htext⟩ := exists_sectionsText sections []
          obtain rfl : rest = sectionsText sections ++ [91] := hrest'
          rw [htext] at hstops
          refine .inr (.inr ⟨g, sec :: sections, hg,
            List.forall_mem_cons.mpr ⟨isGap_of_stops hstops, hclosed⟩, ?_⟩)
          rw [hrest, sectionsText_cons, List.append_assoc]
      · exact .inr (.inl heio)
      · exact .inr (.inr ⟨g, [], hg, List.forall_mem_nil _, hrest⟩)

end Sections

/-! ## Whole files -/

section Files
variable {σ : Type} {entry : σ → IniEntry → σ} {buf g : List UInt8} {s s' : σ}

theorem leads_iff : Leads ⟨[], buf⟩ g ↔ IsGap g :=
  ⟨fun h => h.1, fun h => ⟨h, fun hne => absurd rfl hne⟩⟩

theorem atSection (buf : List UInt8) : AtSection ⟨[], buf⟩ := fun hne => absurd rfl hne

variable (entry s) in
/-- The files that are read to their end, and what is read of them. -/
theorem readSections_eq_ok_iff (hbuf : buf ≠ []) :
    readSections entry (buf.length + 1) ⟨[], buf⟩ s = .ok s' ↔
      ∃ g sections, IsGap g ∧ AreSections sections ∧ buf = g ++ sectionsText sections ∧
        s' = (sectionEntries g sections).foldl entry s := by
  have hn := Nat.lt_add_one buf.length
  constructor
  · intro hok
    rcases readSections_outcome entry (atSection buf) hn s with
      (hnil | ⟨g, sections, hg, hsections, hbuf'⟩) | heio | ⟨g, sections, hg, hclosed, hbuf'⟩
    · exact absurd hnil hbuf
    · rw [readSections_complete hsections hg hn hbuf'] at hok
      exact ⟨g, sections, leads_iff.mp hg, hsections, hbuf', (Except.ok.inj hok).symm⟩
    · cases heio.symm.trans hok
    · cases (readSections_overread hclosed hg hn hbuf').symm.trans hok
  · rintro ⟨g, sections, hg, hsections, hbuf', rfl⟩
    exact readSections_complete hsections (leads_iff.mpr hg) hn hbuf'

variable (entry s) in
/-- A `[` at the very end is read as the beginning of a header, whose name is not in the file. -/
theorem readSections_eq_overread_iff (hbuf : buf ≠ []) :
    readSections entry (buf.length + 1) ⟨[], buf⟩ s = .error .overread ↔
      ∃ g sections, IsGap g ∧ AreClosed sections ∧ buf = g ++ (sectionsText sections ++ [91]) := by
  have hn := Nat.lt_add_one buf.length
  constructor
  · intro herror
    rcases readSections_outcome entry (atSection buf) hn s with
      (hnil | ⟨g, sections, hg, hsections, hbuf'⟩) | heio | ⟨g, sections, hg, hclosed, hbuf'⟩
    · exact absurd hnil hbuf
    · cases (readSections_complete hsections hg hn hbuf').symm.trans herror
    · cases heio.symm.trans herror
    · exact ⟨g, sections, leads_iff.mp hg, hclosed, hbuf'⟩
  · rintro ⟨g, sections, hg, hclosed, hbuf'⟩
    exact readSections_overread hclosed (leads_iff.mpr hg) hn hbuf'

/-- The bound on the rounds is never reached. -/
theorem readSections_ne_rounds (hbuf : buf ≠ []) :
    readSections entry (buf.length + 1) ⟨[], buf⟩ s ≠ .error .rounds := by
  have hn := Nat.lt_add_one buf.length
  intro herror
  rcases readSections_outcome entry (atSection buf) hn s with
    (hnil | ⟨g, sections, hg, hsections, hbuf'⟩) | heio | ⟨g, sections, hg, hclosed, hbuf'⟩
  · exact hbuf hnil
  · cases (readSections_complete hsections hg hn hbuf').symm.trans herror
  · cases heio.symm.trans herror
  · cases (readSections_overread hclosed hg hn hbuf').symm.trans herror

end Files

end RenaProxy
