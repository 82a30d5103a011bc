import RenaProxy.Database.RoundTrip
import RenaProxy.Squid.Controller
import RenaProxy.Lib.Words

/-!
# Rule lines

Two programs read the rule files: `database_reader.c` with `read_line` of `database.c`,
and the helpers of squid. The helpers cut a line at its runs of blanks. `rename_domain`
cuts what follows the keyword at the first two spaces, whatever else is around them,
and never asks whether there are two names. `lineCalls_eq_iff` says for which lines it puts
in what the line says.
-/
namespace RenaProxy
open TreeNode

/-! ## The reader -/

/-- `fscanf` with `" %ms %m[^\n]"`, where both strings are read, and what is left. -/
def scanLine (file : List UInt8) : Option (List UInt8 × List UInt8 × List UInt8) :=
  let line := file.dropWhile isspace
  let head := line.takeWhile (!isspace ·)
  let rest := (line.dropWhile (!isspace ·)).dropWhile isspace
  let tail := rest.takeWhile (· ≠ 10)
  if head = [] ∨ tail = [] then none else some (head, tail, rest.dropWhile (· ≠ 10))

theorem scanLine_length {file head tail rest : List UInt8}
    (h : scanLine file = some (head, tail, rest)) : rest.length < file.length := by
  simp only [scanLine] at h
  split_ifs at h with hne
  simp only [Option.some.injEq, Prod.mk.injEq] at h
  obtain ⟨rfl, -, rfl⟩ := h
  rw [not_or] at hne
  have hle : ∀ (p : UInt8 → Bool) (bs : List UInt8), (bs.dropWhile p).length ≤ bs.length :=
    fun p bs => (List.dropWhile_sublist p).length_le
  have hsplit := congrArg List.length (List.takeWhile_append_dropWhile
    (p := (!isspace ·)) (l := file.dropWhile isspace))
  have hpos := List.length_pos_of_ne_nil hne.1
  rw [List.length_append] at hsplit
  calc _ ≤ _ := hle _ _
    _ ≤ _ := hle _ _
    _ < (file.dropWhile isspace).length := by omega
    _ ≤ file.length := hle _ _

/-- `database_reader_file`, with the `read_line` of its handler. -/
def databaseReaderFile {σ : Type} (readLine : σ → List UInt8 → List UInt8 → σ) (modules : σ)
    (file : List UInt8) : σ :=
  match _h : scanLine file with
  | none => modules
  | some (head, tail, rest) => databaseReaderFile readLine (readLine modules head tail) rest
termination_by file.length
decreasing_by exact scanLine_length _h

/-- `no_proxy` -/
def noProxy (db : Database) (params : List UInt8) : Database :=
  { db with noProxy := treeInsert db.noProxy (params.takeWhile (· ≠ 32)) none }

/-- The table of `read_line`. -/
def lineHandlers : List (List UInt8 × (Database → List UInt8 → Database)) :=
  [(chars "proxy_domain_rename", renameDomain), (chars "ProxyHostnameEdit", renameDomain),
    (chars "NeverProxy", noProxy), (chars "no_proxy", noProxy)]

/-- `read_line` -/
def readLine (db : Database) (head tail : List UInt8) : Database :=
  match lineHandlers.find? fun h => cstr head = h.1 with
  | some h => h.2 db (cstr tail)
  | none => db

/-! ## The calls of `tree_insert` -/

/-- The tree of `struct database` that is changed. -/
inductive RuleTree
  | noProxy | toServer | fromServer
  deriving DecidableEq, Repr

/-- A call of `tree_insert`. -/
structure InsertCall where
  tree : RuleTree
  key : List UInt8
  adapted : Option (List UInt8)
  deriving DecidableEq, Repr

namespace Database

/-- What a call makes of the trees. -/
def insert (db : Database) (c : InsertCall) : Database :=
  match c.tree with
  | .noProxy => { db with noProxy := treeInsert db.noProxy c.key c.adapted }
  | .toServer => { db with toServer := treeInsert db.toServer c.key c.adapted }
  | .fromServer => { db with fromServer := treeInsert db.fromServer c.key c.adapted }

end Database

/-- The first parameter and the victim of `rename_domain`. -/
def renameParams (suffix params : List UInt8) : List UInt8 × List UInt8 :=
  let secondParam :=
    match params.dropWhile (· ≠ 32) with
    | [] => chars "(null)"
    | _ :: rest => rest.takeWhile (· ≠ 32)
  (params.takeWhile (· ≠ 32), (secondParam ++ suffix).take (maxStr - 1))

/-- The two calls that put a rule in. -/
def ruleCalls (name victim : List UInt8) : List InsertCall :=
  [⟨.toServer, victim, some name⟩, ⟨.fromServer, name, some victim⟩]

/-- The calls that `read_line` makes. -/
def readLineCalls (suffix head tail : List UInt8) : List InsertCall :=
  if cstr head = chars "proxy_domain_rename" ∨ cstr head = chars "ProxyHostnameEdit" then
    ruleCalls (renameParams suffix (cstr tail)).1 (renameParams suffix (cstr tail)).2
  else if cstr head = chars "NeverProxy" ∨ cstr head = chars "no_proxy" then
    [⟨.noProxy, (cstr tail).takeWhile (· ≠ 32), none⟩]
  else []

theorem readLine_eq (db : Database) (head tail : List UInt8) :
    readLine db head tail = (readLineCalls db.suffix head tail).foldl Database.insert db := by
  have hrename : ∀ params, renameDomain db params =
      (ruleCalls (renameParams db.suffix params).1 (renameParams db.suffix params).2).foldl
        Database.insert db := fun _ => rfl
  simp only [readLine, lineHandlers, readLineCalls, List.find?_cons]
  generalize cstr head = k, chars "proxy_domain_rename" = a, chars "ProxyHostnameEdit" = b,
    chars "NeverProxy" = c, chars "no_proxy" = d
  by_cases ha : k = a
  · simp [ha, hrename]
  by_cases hb : k = b
  · subst hb
    simp [ha, hrename]
  by_cases hc : k = c
  · subst hc
    simp [ha, hb, noProxy, Database.insert]
  by_cases hd : k = d
  · subst hd
    simp [ha, hb, hc, noProxy, Database.insert]
  · simp [ha, hb, hc, hd]

/-- The calls that the line at the beginning of a file leads to. -/
def lineCalls (suffix file : List UInt8) : List InsertCall :=
  match scanLine file with
  | none => []
  | some (head, tail, _) => readLineCalls suffix head tail

/-! ## Rename lines -/

/-- A name without blanks. -/
def RuleName := {n : List UInt8 // n ≠ [] ∧ ∀ b ∈ n, b ≠ 0 ∧ isspace b = false}

/-- Spaces and tabs before a name. -/
def RuleGap := {g : List UInt8 // g ≠ [] ∧ ∀ b ∈ g, b = 32 ∨ b = 9}

/-- What may follow the names of a line. -/
def RuleTrail := {t : List UInt8 // ∀ b ∈ t, b = 32 ∨ b = 9 ∨ b = 13}

/-- A line with the keyword `proxy_domain_rename` and up to two names. -/
structure RenameRule where
  names : List (RuleGap × RuleName)
  trailing : RuleTrail
  le_two : names.length ≤ 2

/-- What follows a line: the end of the file, or a line end and the rest. -/
def lineEnd : Option (List UInt8) → List UInt8
  | none => []
  | some rest => 10 :: rest

namespace RenameRule
variable (l : RenameRule)

def keyword : List UInt8 := chars "proxy_domain_rename"

def bytes : List UInt8 :=
  keyword ++ (l.names.flatMap fun n => n.1.1 ++ n.2.1) ++ l.trailing.1

/-- The calls that the line asks for. -/
def calls (suffix : List UInt8) : List InsertCall :=
  match l.names with
  | [a, b] => ruleCalls a.2.1 (b.2.1 ++ suffix)
  | _ => []

/-- The blanks that end up in the second name: those before the next space. -/
def stray : List UInt8 := l.trailing.1.takeWhile (· ≠ 32)

/-- The lines that are read as they are meant. -/
def Regular (suffix : List UInt8) (after : Option (List UInt8)) : Prop :=
  match l.names with
  | [] => ∀ b ∈ lineEnd after, isspace b = true
  | [_, (gap, name)] => gap.1 = [32] ∧
      (l.stray = [] ∨ (name.1 ++ suffix).length = maxStr - 1 ∧ suffix <+: l.stray ++ suffix)
  | _ => False

end RenameRule

/-! ## Reading a line -/

theorem isspace_gap {b : UInt8} (h : b = 32 ∨ b = 9 ∨ b = 13) : isspace b = true ∧ b ≠ 10 := by
  rcases h with rfl | rfl | rfl <;> exact ⟨rfl, by decide⟩

/-- The keyword is scanned, and then a parameter wherever the next one begins. -/
theorem scanLine_keyword {rest : List UInt8} (hrest : ∀ b ∈ rest.head?, isspace b = true) :
    scanLine (RenameRule.keyword ++ rest) =
      if (rest.dropWhile isspace).takeWhile (· ≠ 10) = [] then none
      else some (RenameRule.keyword, (rest.dropWhile isspace).takeWhile (· ≠ 10),
        (rest.dropWhile isspace).dropWhile (· ≠ 10)) := by
  have hdrop : (RenameRule.keyword ++ rest).dropWhile isspace = RenameRule.keyword ++ rest := rfl
  obtain ⟨htake, hdropWord⟩ := Words.span_eq (p := (!isspace ·)) (w := RenameRule.keyword)
    (r := rest) (by decide +kernel) (by simpa using hrest)
  have hne : RenameRule.keyword ≠ [] := by decide
  simp only [scanLine, hdrop, htake, hdropWord, hne, false_or]

theorem readLineCalls_keyword (suffix tail : List UInt8) :
    readLineCalls suffix RenameRule.keyword tail =
      ruleCalls (renameParams suffix (cstr tail)).1 (renameParams suffix (cstr tail)).2 :=
  if_pos (.inl (cstr_of_notMem (by decide)))

namespace RenameRule
variable {l : RenameRule} {suffix : List UInt8} {after : Option (List UInt8)}

/-- What follows the first name up to the line end. -/
def params (l : RenameRule) (name : RuleName) (names : List (RuleGap × RuleName)) : List UInt8 :=
  name.1 ++ (names.flatMap fun n => n.1.1 ++ n.2.1) ++ l.trailing.1

/-- Neither a NUL nor a line end is in it. -/
theorem of_mem_params {name : RuleName} {names : List (RuleGap × RuleName)} {b : UInt8}
    (hb : b ∈ l.params name names) : b ≠ 0 ∧ b ≠ 10 := by
  have hname : ∀ n : RuleName, b ∈ n.1 → b ≠ 0 ∧ b ≠ 10 := by
    intro n hn
    obtain ⟨h0, hspace⟩ := n.2.2 b hn
    refine ⟨h0, ?_⟩
    rintro rfl
    exact absurd hspace (by decide)
  have hblank : (b = 32 ∨ b = 9 ∨ b = 13) → b ≠ 0 ∧ b ≠ 10 := by
    rintro (rfl | rfl | rfl) <;> decide
  simp only [params, List.mem_append, List.mem_flatMap] at hb
  rcases hb with (hb | ⟨n, -, hb | hb⟩) | hb
  · exact hname name hb
  · exact hblank ((n.1.2.2 b hb).imp_right .inl)
  · exact hname n.2 hb
  · exact hblank (l.trailing.2 b hb)

/-- A line with a name leads to a call of `rename_domain` with what follows the keyword. -/
theorem scanLine_of_name {gap : RuleGap} {name : RuleName} {names : List (RuleGap × RuleName)}
    (h : l.names = (gap, name) :: names) :
    scanLine (l.bytes ++ lineEnd after) = some (keyword, l.params name names, lineEnd after) := by
  have hbytes : l.bytes ++ lineEnd after =
      keyword ++ (gap.1 ++ (l.params name names ++ lineEnd after)) := by
    simp [bytes, params, h]
  have hgap : ∀ b ∈ gap.1, isspace b = true := fun b hb =>
    (isspace_gap ((gap.2.2 b hb).imp_right .inl)).1
  have hhead : ∀ b ∈ (gap.1 ++ (l.params name names ++ lineEnd after)).head?, isspace b = true := by
    rw [List.head?_append_of_ne_nil _ gap.2.1]
    exact fun b hb => hgap b (List.mem_of_mem_head? hb)
  have hparams : ∀ b ∈ (l.params name names ++ lineEnd after).head?, isspace b = false := by
    rw [params, List.append_assoc, List.append_assoc, List.head?_append_of_ne_nil _ name.2.1]
    exact fun b hb => (name.2.2 b (List.mem_of_mem_head? hb)).2
  obtain ⟨-, hdrop⟩ := Words.span_eq hgap hparams
  obtain ⟨htake, hrest⟩ := Words.span_eq (p := (· ≠ 10)) (w := l.params name names)
    (r := lineEnd after) (fun b hb => by simpa using (of_mem_params hb).2)
    (by cases after <;> simp [lineEnd])
  have hne : l.params name names ≠ [] := by simp [params, name.2.1]
  rw [hbytes, scanLine_keyword hhead, hdrop, htake, hrest, if_neg hne]

theorem lineCalls_of_name {gap : RuleGap} {name : RuleName} {names : List (RuleGap × RuleName)}
    (h : l.names = (gap, name) :: names) :
    lineCalls suffix (l.bytes ++ lineEnd after) =
      ruleCalls (renameParams suffix (l.params name names)).1
        (renameParams suffix (l.params name names)).2 := by
  rw [lineCalls, scanLine_of_name h]
  dsimp only
  rw [readLineCalls_keyword, cstr_of_notMem fun h0 => (of_mem_params h0).1 rfl]

/-- A line without a name takes what comes next for its parameters, if anything does. -/
theorem scanLine_of_noName (h : l.names = []) :
    scanLine (l.bytes ++ lineEnd after) =
      if ((lineEnd after).dropWhile isspace).takeWhile (· ≠ 10) = [] then none
      else some (keyword, ((lineEnd after).dropWhile isspace).takeWhile (· ≠ 10),
        ((lineEnd after).dropWhile isspace).dropWhile (· ≠ 10)) := by
  have hbytes : l.bytes ++ lineEnd after = keyword ++ (l.trailing.1 ++ lineEnd after) := by
    simp [bytes, h]
  have htrail : ∀ b ∈ l.trailing.1, isspace b = true := fun b hb =>
    (isspace_gap (l.trailing.2 b hb)).1
  have hhead : ∀ b ∈ (l.trailing.1 ++ lineEnd after).head?, isspace b = true := by
    intro b hb
    cases ht : l.trailing.1 with
    | cons c t => exact htrail b (List.mem_of_mem_head? (by simpa [ht] using hb))
    | nil =>
        cases after with
        | none => simp [ht, lineEnd] at hb
        | some rest =>
            obtain rfl : 10 = b := by simpa [ht, lineEnd] using hb
            rfl
  rw [hbytes, scanLine_keyword hhead, List.dropWhile_append_of_pos htrail]

theorem lineCalls_eq_nil_iff (h : l.names = []) :
    lineCalls suffix (l.bytes ++ lineEnd after) = [] ↔
      ∀ b ∈ lineEnd after, isspace b = true := by
  rw [lineCalls, scanLine_of_noName h, ← List.dropWhile_eq_nil_iff]
  cases hrest : (lineEnd after).dropWhile isspace with
  | nil => simp
  | cons c rest =>
      have hc : c ≠ 10 := by
        rintro rfl
        have h := List.head?_dropWhile_not isspace (lineEnd after)
        rw [hrest] at h
        exact absurd (show isspace 10 = false from h) (by decide)
      simp [hc, readLineCalls_keyword, ruleCalls]

/-- Two rules go in by the same calls only if they are the same. -/
theorem ruleCalls_inj {name name' victim victim' : List UInt8} :
    ruleCalls name victim = ruleCalls name' victim' ↔ name = name' ∧ victim = victim' := by
  simp [ruleCalls]
  tauto

theorem notMem_space (name : RuleName) : 32 ∉ name.1 := fun h =>
  absurd (name.2.2 32 h).2 (by decide)

/-- The victim is cut off where the buffer ends, which can undo what is wrong with it. -/
theorem take_victim_eq_iff {name w : List UInt8} (hlen : (name ++ suffix).length < maxStr) :
    (name ++ w ++ suffix).take (maxStr - 1) = name ++ suffix ↔
      w = [] ∨ (name ++ suffix).length = maxStr - 1 ∧ suffix <+: w ++ suffix := by
  rw [List.length_append] at hlen
  have htake : (name ++ w ++ suffix).take (maxStr - 1) =
      name ++ (w ++ suffix).take (maxStr - 1 - name.length) := by
    rw [List.append_assoc, List.take_append, List.take_of_length_le (by omega)]
  rw [htake, List.append_cancel_left_eq, List.length_append]
  constructor
  · intro h
    by_cases hw : w = []
    · exact .inl hw
    · have hpos := List.length_pos_of_ne_nil hw
      have hm := congrArg List.length h
      rw [List.length_take, List.length_append] at hm
      have hprefix := List.take_prefix (maxStr - 1 - name.length) (w ++ suffix)
      rw [h] at hprefix
      exact .inr ⟨by omega, hprefix⟩
  · rintro (rfl | ⟨hm, hprefix⟩)
    · exact List.take_of_length_le (by simp; omega)
    · rw [show maxStr - 1 - name.length = suffix.length by omega]
      exact (List.prefix_iff_eq_take.mp hprefix).symm

/-- What `rename_domain` makes of two names is the rule they stand for only behind a single
space and without stray blanks. -/
theorem renameParams_eq_iff {a b : RuleName} {gap₁ gap₂ : RuleGap}
    (hlen : (b.1 ++ suffix).length < maxStr) (h : l.names = [(gap₁, a), (gap₂, b)]) :
    renameParams suffix (l.params a [(gap₂, b)]) = (a.1, b.1 ++ suffix) ↔
      l.Regular suffix after := by
  obtain ⟨g, hgne, hg⟩ := gap₂
  simp only [Regular, h]
  cases g with
  | nil => exact absurd rfl hgne
  | cons c g =>
      have hparams : l.params a [(⟨c :: g, hgne, hg⟩, b)] =
          a.1 ++ c :: (g ++ (b.1 ++ l.trailing.1)) := by
        simp [params]
      rw [hparams]
      obtain rfl | rfl := hg c (by simp)
      · obtain ⟨hfirst, hrest⟩ :=
          RenameFile.takeWhile_name (g ++ (b.1 ++ l.trailing.1)) (notMem_space a)
        rw [renameParams, hfirst, hrest, Prod.mk.injEq, eq_self_iff_true, true_and]
        dsimp only
        cases g with
        | nil =>
            have hall : ∀ x ∈ b.1, decide (x ≠ 32) = true := fun x hx =>
              decide_eq_true fun h => notMem_space b (h ▸ hx)
            rw [List.nil_append, List.takeWhile_append_of_pos hall]
            exact (take_victim_eq_iff hlen).trans (by simp [stray])
        | cons c g =>
            refine iff_of_false ?_ fun h => absurd h.1 (by simp)
            have hb := List.length_pos_of_ne_nil b.2.1
            obtain rfl | rfl := hg c (by simp)
            · -- the second name is empty
              intro heq
              have := congrArg List.length heq
              simp at this
              omega
            · -- the second name begins with a tab
              intro heq
              obtain ⟨b₀, bs, hbs⟩ := List.exists_cons_of_ne_nil b.2.1
              have hhead := congrArg List.head? heq
              simp only [hbs, maxStr] at hhead
              have h9 : b₀ = 9 := by simpa using hhead.symm
              have := (b.2.2 b₀ (by simp [hbs])).2
              rw [h9] at this
              exact absurd this (by decide)
      · -- a tab stays in the first name
        have hfirst : (renameParams suffix (a.1 ++ 9 :: (g ++ (b.1 ++ l.trailing.1)))).1 ≠ a.1 := by
          have hall : ∀ x ∈ a.1, decide (x ≠ 32) = true := fun x hx =>
            decide_eq_true fun h => notMem_space a (h ▸ hx)
          rw [renameParams, List.takeWhile_append_of_pos hall]
          simp
        refine iff_of_false (fun heq => hfirst (congrArg Prod.fst heq)) ?_
        rintro ⟨hgap, -⟩
        exact absurd hgap (by simp)

end RenameRule

/-- A rename line leads to the calls that it asks for exactly if it is regular: its two names
are a single space apart and nothing but a space follows the second, or it has no name and
only blanks come after it. -/
theorem lineCalls_eq_iff (l : RenameRule) (suffix : List UInt8) (after : Option (List UInt8))
    (hlen : ∀ a b, l.names = [a, b] → (b.2.1 ++ suffix).length < maxStr) :
    lineCalls suffix (l.bytes ++ lineEnd after) = l.calls suffix ↔ l.Regular suffix after := by
  match h : l.names with
  | [] =>
      rw [RenameRule.calls, RenameRule.Regular, h]
      exact RenameRule.lineCalls_eq_nil_iff h
  | [(gap, name)] =>
      rw [RenameRule.lineCalls_of_name h]
      simp [RenameRule.calls, RenameRule.Regular, h, ruleCalls]
  | [(gap₁, a), (gap₂, b)] =>
      have hvictim := hlen _ _ h
      rw [RenameRule.lineCalls_of_name h, ← RenameRule.renameParams_eq_iff hvictim h]
      simp only [RenameRule.calls, h, RenameRule.ruleCalls_inj, Prod.ext_iff]
  | a :: b :: c :: names =>
      have := l.le_two
      simp [h] at this

/-- A line with two names, with what is between them and behind them. -/
def bolLine (gap : RuleGap) (trailing : RuleTrail) : RenameRule where
  names := [(⟨[32], by decide +kernel⟩, ⟨chars "www.bol.com", by decide +kernel⟩),
    (gap, ⟨chars "www-bol-com", by decide +kernel⟩)]
  trailing := trailing
  le_two := le_rfl

/-- A carriage return behind a space is no part of the second name. -/
theorem lineCalls_eq_iff_space :
    let l := bolLine ⟨[32], by decide +kernel⟩ ⟨[32, 13], by decide +kernel⟩
    lineCalls (chars ".proxy") (l.bytes ++ lineEnd none) = l.calls (chars ".proxy") := by
  refine (lineCalls_eq_iff _ _ _ ?_).mpr ⟨rfl, .inl rfl⟩
  intro a b h
  obtain ⟨-, rfl⟩ : _ ∧ _ = b := by simpa [bolLine] using h
  decide +kernel

/-- A tab between the names makes the first one longer and leaves nothing of the second one. -/
theorem not_lineCalls_eq :
    ¬ ∀ (l : RenameRule) (suffix : List UInt8) (after : Option (List UInt8)),
      (∀ a b, l.names = [a, b] → (b.2.1 ++ suffix).length < maxStr) →
        lineCalls suffix (l.bytes ++ lineEnd after) = l.calls suffix := by
  intro h
  have hlen : ∀ a b, (bolLine ⟨[9, 32, 32, 32], by decide +kernel⟩
      ⟨[13], by decide +kernel⟩).names = [a, b] → (b.2.1 ++ chars ".proxy").length < maxStr := by
    intro a b h
    obtain ⟨-, rfl⟩ : _ ∧ _ = b := by simpa [bolLine] using h
    decide +kernel
  exact absurd (h _ (chars ".proxy") none hlen) (by decide +kernel)

/-! ## The helpers of squid -/

/-- `split_buffer` -/
def splitBuffer (buf : List UInt8) : List (List UInt8) :=
  let array := Words.cut isspace buf
  if array.getLast? = some [] then array.dropLast else array

/-- `RenameDomainParser.accept` -/
def RenameDomainParser.accept (heading : List UInt8) : Bool :=
  heading = chars "proxy_domain_rename"

/-- `RenameDomainParser.visit`. Where it raises there is no model afterwards. -/
def RenameDomainParser.visit (visitor : Squid.ProxyModel) (args : List (List UInt8)) :
    Option Squid.ProxyModel :=
  match args with
  | [_, oldDomain, newDomain] => some (visitor.visitRenameDomain oldDomain newDomain)
  | _ => none

/-- What `traverse` makes of a line with this parser. -/
def RenameDomainParser.traverseLine (m : Squid.ProxyModel) (line : List UInt8) :
    Option Squid.ProxyModel :=
  match splitBuffer line with
  | [] => none
  | heading :: args => if accept heading then visit m (heading :: args) else some m

/-- The helpers find the names of a line, whatever blanks are around them. -/
theorem splitBuffer_bytes (l : RenameRule) (eol : List UInt8) (heol : eol = [] ∨ eol = [10]) :
    splitBuffer (l.bytes ++ eol) = RenameRule.keyword :: l.names.map fun n => n.2.1 := by
  have hblank : ∀ b ∈ l.trailing.1 ++ eol, isspace b = true := by
    intro b hb
    rcases List.mem_append.mp hb with hb | hb
    · exact (isspace_gap (l.trailing.2 b hb)).1
    · obtain rfl | rfl := heol
      · exact absurd hb List.not_mem_nil
      · obtain rfl := List.mem_singleton.mp hb
        rfl
  have hcut : Words.cut isspace (l.bytes ++ eol) =
      RenameRule.keyword :: (l.names.map fun n => n.2.1) ++
        if l.trailing.1 ++ eol = [] then [] else [[]] := by
    have hbytes : l.bytes ++ eol = RenameRule.keyword ++
        ((l.names.map fun n => (n.1.1, n.2.1)).flatMap (fun x => x.1 ++ x.2) ++
          (l.trailing.1 ++ eol)) := by
      simp [RenameRule.bytes, List.flatMap_map]
    have hword : ∀ b ∈ RenameRule.keyword, isspace b = false := by decide +kernel
    rw [hbytes, Words.cut, Words.cutFrom_word [] _ false hword (by decide), List.nil_append,
      Words.cutFrom_words _ _ _ hblank]
    · simp
    · intro x hx
      obtain ⟨n, -, rfl⟩ := List.mem_map.mp hx
      exact ⟨⟨n.1.2.1, fun b hb => (isspace_gap ((n.1.2.2 b hb).imp_right .inl)).1⟩, n.2.2.1,
        fun b hb => (n.2.2.2 b hb).2⟩
  rw [splitBuffer, hcut]
  by_cases htrail : l.trailing.1 ++ eol = []
  · rw [if_pos htrail, List.append_nil]
    refine if_neg fun hlast => ?_
    rcases List.mem_cons.mp (List.mem_of_getLast? hlast) with h | h
    · exact absurd h (by decide)
    · obtain ⟨n, -, hn⟩ := List.mem_map.mp h
      exact n.2.2.1 hn
  · rw [if_neg htrail, List.getLast?_concat, if_pos rfl, List.dropLast_concat]

/-- They take a line with two names for the rule that it asks for, and stop at others. -/
theorem traverseLine_bytes (l : RenameRule) (m : Squid.ProxyModel) (eol : List UInt8)
    (heol : eol = [] ∨ eol = [10]) :
    RenameDomainParser.traverseLine m (l.bytes ++ eol) =
      match l.names with
      | [a, b] => some (m.visitRenameDomain a.2.1 b.2.1)
      | _ => none := by
  have haccept : RenameDomainParser.accept RenameRule.keyword = true := decide_eq_true rfl
  rw [RenameDomainParser.traverseLine, splitBuffer_bytes l eol heol]
  dsimp only
  rw [if_pos haccept]
  match l.names with
  | [] => rfl
  | [_] => rfl
  | [_, _] => rfl
  | _ :: _ :: _ :: _ => rfl

/-! ## Whole files -/

section Reader
variable {σ τ : Type} {f : σ → List UInt8 → List UInt8 → σ} {g : τ → List UInt8 → List UInt8 → τ}
  {file head tail rest : List UInt8}

theorem databaseReaderFile_none (s : σ) (h : scanLine file = none) :
    databaseReaderFile f s file = s := by
  rw [databaseReaderFile]
  split
  · rfl
  · simp_all

theorem databaseReaderFile_some (s : σ) (h : scanLine file = some (head, tail, rest)) :
    databaseReaderFile f s file = databaseReaderFile f (f s head tail) rest := by
  rw [databaseReaderFile]
  split
  · simp_all
  · simp_all

/-- Blanks before a line are skipped. -/
theorem databaseReaderFile_newline (s : σ) (file : List UInt8) :
    databaseReaderFile f s (10 :: file) = databaseReaderFile f s file := by
  have hscan : scanLine (10 :: file) = scanLine file := rfl
  cases h : scanLine file with
  | none => rw [databaseReaderFile_none s h, databaseReaderFile_none s (hscan.trans h)]
  | some r => rw [databaseReaderFile_some s h, databaseReaderFile_some s (hscan.trans h)]

/-- Handlers that keep a relation read a whole file related. -/
theorem databaseReaderFile_relates {R : σ → τ → Prop}
    (hstep : ∀ s t head tail, R s t → R (f s head tail) (g t head tail)) {s : σ} {t : τ}
    (hR : R s t) (file : List UInt8) :
    R (databaseReaderFile f s file) (databaseReaderFile g t file) := by
  fun_induction databaseReaderFile f s file generalizing t with
  | case1 s file h =>
      rw [databaseReaderFile_none t h]
      exact hR
  | case2 s file head tail rest h ih =>
      rw [databaseReaderFile_some t h]
      exact ih (hstep s t head tail hR)

end Reader

/-- The calls that a whole file leads to. -/
def fileCalls (suffix file : List UInt8) : List InsertCall :=
  databaseReaderFile (fun calls head tail => calls ++ readLineCalls suffix head tail) [] file

theorem databaseReaderFile_readLine (db : Database) (file : List UInt8) :
    databaseReaderFile readLine db file = (fileCalls db.suffix file).foldl Database.insert db := by
  have hsuffix : ∀ (calls : List InsertCall) (db : Database),
      (calls.foldl Database.insert db).suffix = db.suffix := by
    intro calls db
    refine List.foldlRecOn (motive := fun db' : Database => db'.suffix = db.suffix) _ _ rfl ?_
    intro db' h c _
    rw [Database.insert]
    cases c.tree with
    | noProxy => exact h
    | toServer => exact h
    | fromServer => exact h
  have hstep : ∀ (s : Database) (calls : List InsertCall) (head tail : List UInt8),
      s = calls.foldl Database.insert db → readLine s head tail =
        (calls ++ readLineCalls db.suffix head tail).foldl Database.insert db := by
    rintro _ calls head tail rfl
    rw [readLine_eq, hsuffix, List.foldl_append]
  exact databaseReaderFile_relates hstep (t := []) rfl file

theorem scanLine_blanks {file : List UInt8} (h : ∀ b ∈ file, isspace b = true) :
    scanLine file = none := by
  simp [scanLine, List.dropWhile_eq_nil_iff.mpr h]

/-- The lines of a file. -/
def fileOf (lines : List RenameRule) : List UInt8 := lines.flatMap fun l => l.bytes ++ [10]

/-- A file whose lines are all regular leads to what its lines ask for, one after the other. -/
theorem fileCalls_of_regular {suffix : List UInt8} {lines : List RenameRule}
    (h : ∀ pre l post, lines = pre ++ l :: post →
      (∀ a b, l.names = [a, b] → (b.2.1 ++ suffix).length < maxStr) ∧
        l.Regular suffix (some (fileOf post))) :
    fileCalls suffix (fileOf lines) = lines.flatMap fun l => l.calls suffix := by
  have main : ∀ calls, databaseReaderFile
      (fun calls head tail => calls ++ readLineCalls suffix head tail) calls (fileOf lines) =
        calls ++ lines.flatMap fun l => l.calls suffix := by
    induction lines with
    | nil => exact fun calls => (databaseReaderFile_none calls rfl).trans (by simp)
    | cons l lines ih =>
        intro calls
        obtain ⟨hlen, hregular⟩ := h [] l lines rfl
        have ih := ih fun pre l' post hsplit => h (l :: pre) l' post (by simp [hsplit])
        have hcalls := (lineCalls_eq_iff l suffix _ hlen).mpr hregular
        have hfile : fileOf (l :: lines) = l.bytes ++ lineEnd (some (fileOf lines)) := by
          simp [fileOf, lineEnd]
        rw [List.flatMap_cons, ← List.append_assoc, ← ih, hfile, ← hcalls, lineCalls]
        cases hnames : l.names with
        | nil =>
            rw [RenameRule.Regular, hnames] at hregular
            have hend := List.dropWhile_eq_nil_iff.mpr hregular
            have hscan : scanLine (l.bytes ++ lineEnd (some (fileOf lines))) = none := by
              simp [RenameRule.scanLine_of_noName hnames, hend]
            have hblank : scanLine (fileOf lines) = none :=
              scanLine_blanks fun b hb => hregular b (List.mem_cons_of_mem _ hb)
            rw [hscan, databaseReaderFile_none _ hscan, databaseReaderFile_none _ hblank]
            exact (List.append_nil calls).symm
        | cons n names =>
            have hscan : scanLine (l.bytes ++ lineEnd (some (fileOf lines))) = some _ :=
              RenameRule.scanLine_of_name hnames
            rw [hscan, databaseReaderFile_some _ hscan]
            exact databaseReaderFile_newline _ _
  exact main []

end RenaProxy
