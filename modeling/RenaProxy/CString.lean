import Mathlib.Data.UInt
import Mathlib.Data.List.TakeWhile
import Mathlib.Data.Int.Order.Basic
import Mathlib.Tactic.SplitIfs

/-!
# Characters, strings and faults of C

A `char` is a byte; where the source compares two of them, the comparison is that
of signed numbers, `schar`. A string is the list of its bytes before the final
NUL. Literals of the source are written as Lean strings and read with `chars`.
A function that can run into one of the faults below returns an `Except Fault`.
-/
namespace RenaProxy

/-- What a run of the proxy does not survive: its own calls of `abort`, and places
where it leaves the memory that it owns. -/
inductive Fault
  /-- `abort` in `consume_input` -/
  | consumeInput
  /-- `abort` in `find_and_remove_header` -/
  | emptyBuffer
  /-- `abort` in `recover_address_from_hostname` -/
  | noFirstSpace
  /-- a `memmove` of a negative number of bytes -/
  | negativeMove
  /-- pointer arithmetic with a `payload` that is `NULL` -/
  | nullPayload
  /-- a header table whose entries are not those that were counted -/
  | headerTable
  /-- `copy_header` for a header that was not found -/
  | missingHeader
  /-- `http_evaluate` without a protocol -/
  | nullProtocol
  /-- bytes that are written behind the block of the buffer, or read from behind its end -/
  | overrun
  /-- the use of a block that was freed -/
  | freedBlock
  deriving DecidableEq, Repr

/-- `MAX_STR` -/
def maxStr : ℕ := 1024

/-- The bytes of an ASCII literal. -/
def chars (s : String) : List UInt8 := s.toList.map Char.toUInt8

/-- The number that a `char` is on the platforms of the proxy, where it is signed. -/
def schar (c : UInt8) : ℤ := c.toBitVec.toInt

theorem schar_inj {a b : UInt8} : schar a = schar b ↔ a = b := by
  simp [schar, BitVec.toInt_inj, UInt8.toBitVec_inj]

/-- `tolower` in the C locale. -/
def tolower (c : UInt8) : UInt8 := if 65 ≤ c ∧ c ≤ 90 then c + 32 else c

/-- `toupper` in the C locale. -/
def toupper (c : UInt8) : UInt8 := if 97 ≤ c ∧ c ≤ 122 then c - 32 else c

/-- `isspace` in the C locale. -/
def isspace (c : UInt8) : Bool := c = 32 ∨ (9 ≤ c ∧ c ≤ 13)

/-- Whether `strcasestr` finds the second string in the first. -/
def strcasestr (haystack needle : List UInt8) : Bool :=
  haystack.tails.any fun v => (needle.map tolower).isPrefixOf (v.map tolower)

@[simp] theorem tolower_tolower (c : UInt8) : tolower (tolower c) = tolower c := by
  unfold tolower
  split
  · rename_i h
    rw [if_neg]
    simp [UInt8.le_iff_toNat_le] at h ⊢
    omega
  · rfl

@[simp] theorem map_tolower_tolower (s : List UInt8) :
    (s.map tolower).map tolower = s.map tolower := by
  simp

theorem toNat_tolower (c : UInt8) : (tolower c).toNat =
    if 65 ≤ c.toNat ∧ c.toNat ≤ 90 then c.toNat + 32 else c.toNat := by
  have hiff : (65 ≤ c ∧ c ≤ 90) ↔ 65 ≤ c.toNat ∧ c.toNat ≤ 90 := by
    rw [UInt8.le_iff_toNat_le, UInt8.le_iff_toNat_le]
    rfl
  rw [tolower]
  by_cases h : 65 ≤ c ∧ c ≤ 90
  · rw [if_pos h, if_pos (hiff.mp h), UInt8.toNat_add]
    have := (hiff.mp h).2
    exact Nat.mod_eq_of_lt (by change c.toNat + 32 < 256; omega)
  · rw [if_neg h, if_neg (hiff.not.mp h)]

/-- The string that starts at the first of these bytes: what precedes the NUL. -/
def cstr (bs : List UInt8) : List UInt8 := bs.takeWhile (· ≠ 0)

theorem cstr_of_notMem {bs : List UInt8} (h : 0 ∉ bs) : cstr bs = bs := by
  rw [cstr, List.takeWhile_eq_self_iff]
  intro b hb
  have : b ≠ 0 := fun h0 => h (h0 ▸ hb)
  simpa using this

end RenaProxy
