import RenaProxy.CString
import RenaProxy.Lib.Failure
import Mathlib.Data.List.DropRight

/-!
# Reading the configuration file

The reader of the file keeps a pointer to where it stands. It goes from section to section and,
within one, from pair to pair; what it returns are pieces of the file. The two loops of
`config_load` around it are here, too.
-/
namespace RenaProxy

/-- `struct INI`: what lies before `curr`, and what from there on. -/
structure INI where
  before : List UInt8
  rest : List UInt8
  deriving DecidableEq, Repr

/-- What goes wrong: `-EIO`, a byte behind the end that is read. The loops below have a bound on
their rounds, which is never reached. -/
inductive IniError
  | eio
  | overread
  | rounds
  deriving DecidableEq, Repr

/-- What `ini_read_pair` returns. The key is also known by its place in the file. -/
structure IniPair where
  key : List UInt8
  keyAt : ℕ
  value : List UInt8
  deriving DecidableEq, Repr

/-- A space or a tab. -/
def isBlank (c : UInt8) : Bool := c = 32 ∨ c = 9

/-- What `skip_comments` leaves. A comment lasts up to the newline, which is skipped as one. -/
def skipCommentsFrom : Bool → List UInt8 → List UInt8
  | _, [] => []
  | true, c :: text => skipCommentsFrom (c ≠ 10) text
  | false, c :: text =>
      if c = 13 ∨ c = 10 then skipCommentsFrom false text
      else if c = 35 then skipCommentsFrom true text
      else c :: text

/-- `*ini->curr != '[' && !skip_line(ini)`, in a loop. A line that ends with the file is not
followed by another; behind the last newline there is no byte to look at. -/
def skipLines : Bool → List UInt8 → Except IniError (List UInt8)
  | true, [] => .error .overread
  | false, [] => .ok []
  | true, c :: text => if c = 91 then .ok (c :: text) else skipLines (c = 10) text
  | false, c :: text => skipLines (c = 10) text

/-- A carriage return at the end belongs to the end of the line. -/
def dropCr (value : List UInt8) : List UInt8 :=
  if value.getLast? = some 13 then value.dropLast else value

namespace INI

/-- `curr` goes to where this is left. -/
def advance (ini : INI) (rest : List UInt8) : INI :=
  ⟨ini.before ++ ini.rest.take (ini.rest.length - rest.length), rest⟩

/-- `skip_comments` -/
def skipComments (ini : INI) : INI := ini.advance (skipCommentsFrom false ini.rest)

/-- The name behind a `[`, and what is left behind the `]`. The first byte of a name is not looked
at. -/
def nameFrom : List UInt8 → Except IniError (List UInt8 × List UInt8)
  | [] => .error .overread
  | c :: text =>
      match text.dropWhile fun b => b ≠ 93 ∧ b ≠ 10 with
      | 93 :: rest => .ok (c :: text.takeWhile fun b => b ≠ 93 ∧ b ≠ 10, rest)
      | _ => .error .eio

/-- `ini_next_section` -/
def nextSection (ini : INI) : Except IniError (Option (List UInt8) × INI) := do
  if ini.rest = [] then pure (none, ini)
  else
    let ini ←
      if ini.before = [] then
        if ini.skipComments.rest.head? = some 91 then pure ini.skipComments else .error .eio
      else (skipLines true ini.rest).map ini.advance
    match ini.rest with
    | [] => pure (none, ini)
    | _ :: text =>
        let (name, rest) ← nameFrom text
        pure (some name, ini.advance rest)

/-- The key and the value of a pair, and what is left behind its line. The first byte of a key is
not looked at, either, and stays. -/
def pairFrom (c : UInt8) (text : List UInt8) :
    Except IniError (List UInt8 × List UInt8 × List UInt8) :=
  let key := text.takeWhile fun b => b ≠ 61 ∧ b ≠ 10
  match text.dropWhile fun b => b ≠ 61 ∧ b ≠ 10 with
  | 61 :: text =>
      let text := text.dropWhile isBlank
      match text.dropWhile (· ≠ 10) with
      | _ :: rest => .ok (c :: key.rdropWhile isBlank, dropCr (text.takeWhile (· ≠ 10)), rest)
      | [] => .error .eio
  | _ => .error .eio

/-- `ini_read_pair` -/
def readPair (ini : INI) : Except IniError (Option IniPair × INI) := do
  let ini := ini.skipComments
  match ini.rest with
  | [] => pure (none, ini)
  | c :: text =>
      if c = 91 then pure (none, ini)
      else
        let (key, value, rest) ← pairFrom c text
        pure (some ⟨key, ini.before.length, value⟩, ini.advance rest)

/-- `ini_get_line_number`, of a place in the file. -/
def lineNumber (ini : INI) (pointer : ℕ) : ℕ :=
  1 + ((ini.before ++ ini.rest).take pointer).count 10

end INI

/-- A pair, the section it is in and its line. -/
structure IniEntry where
  sec : List UInt8
  key : List UInt8
  value : List UInt8
  line : ℕ
  deriving DecidableEq, Repr

section Loops
variable {σ : Type} (entry : σ → IniEntry → σ)

/-- The inner loop of `config_load`. -/
def readPairs (name : List UInt8) : ℕ → INI → σ → Except IniError (INI × σ)
  | 0, _, _ => .error .rounds
  | rounds + 1, ini, s => do
      let (pair, ini) ← ini.readPair
      match pair with
      | none => pure (ini, s)
      | some p =>
          readPairs name rounds ini (entry s ⟨name, p.key, p.value, ini.lineNumber p.keyAt⟩)

/-- The outer loop. -/
def readSections : ℕ → INI → σ → Except IniError σ
  | 0, _, _ => .error .rounds
  | rounds + 1, ini, s => do
      let (name, ini) ← ini.nextSection
      match name with
      | none => pure s
      | some name =>
          let (ini, s) ← readPairs entry name (rounds + 1) ini s
          readSections rounds ini s

end Loops

end RenaProxy
