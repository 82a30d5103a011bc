import RenaProxy.Database
import Mathlib.Data.List.Infix

/-!
# The protocol state of a connection

`struct http` of `http.c` keeps all that was read from a socket, rewritten, in one
growing buffer, with the offsets of the headers and of the payload in it. Header
processing reads and writes everything but the two counters of what was sent and
received, so `HttpMessage` is the struct without them.

Pointers into the buffer are offsets. Allocations succeed, and sizes are natural
numbers: nothing here comes near the width of a `size_t`.
-/
namespace RenaProxy

/-- `sizeof(struct http)`, `MAX_STR` of it for the buffer. -/
def sizeofHttp : ℕ := 1104

/-- Which side of the proxy a client is on. -/
inductive ClientType
  | requester
  | victim
  deriving DecidableEq, Repr

/-- What the proxy was configured with: the suffix of the names it goes by, and the
three rule trees. -/
structure Rena where
  suffix : List UInt8
  neverRules : TreeNode
  toServer : TreeNode
  fromServer : TreeNode

/-- `struct http` apart from `buffer_sent` and `buffer_recv`. `buffer` has the
`buffer_used` bytes in use and `stale` what is left in memory after them, where all
further bytes are zero. -/
structure HttpMessage where
  lookupTree : DatabaseObject Context
  headersUsed : ℕ
  headers : Option (List (ℕ × ℕ))
  expectedPayload : ℤ
  foundDelimiters : UInt8
  lastFoundDelimiters : UInt8
  payload : Option ℕ
  totalBlock : ℕ
  buffer : List UInt8
  stale : List UInt8
  deriving DecidableEq, Repr

/-- `struct http` -/
structure Http extends HttpMessage where
  bufferSent : ℕ
  bufferRecv : ℕ
  deriving DecidableEq, Repr

/-- `database_instance_create` picks the rules by side. -/
def Rena.lookupTree (rena : Rena) : ClientType → DatabaseObject Context
  | .requester => .create rena.neverRules rena.toServer
  | .victim => .create rena.neverRules rena.fromServer

/-- `http_create`, without the counters. -/
def HttpMessage.create (rena : Rena) (type : ClientType) : HttpMessage where
  lookupTree := rena.lookupTree type
  headersUsed := 0
  headers := none
  expectedPayload := -1
  foundDelimiters := 0
  lastFoundDelimiters := 0
  payload := none
  totalBlock := sizeofHttp
  buffer := []
  stale := []

/-- `http_create` -/
def Http.create (rena : Rena) (type : ClientType) : Http :=
  { HttpMessage.create rena type with bufferSent := 0, bufferRecv := 0 }

/-- `delim` -/
def delim : List UInt8 := [13, 10]

namespace HttpMessage

/-- The memory of the buffer. -/
def mem (h : HttpMessage) : List UInt8 := h.buffer ++ h.stale

/-- The byte at an offset. -/
def byteAt (h : HttpMessage) (i : ℕ) : UInt8 := h.mem.getD i 0

/-- `n` bytes from an offset on. -/
def bytesAt (h : HttpMessage) (i n : ℕ) : List UInt8 := (List.range n).map fun k => h.byteAt (i + k)

/-- The bytes from `b` up to `e` make way for `new`; `buffer_used` follows. -/
def splice (h : HttpMessage) (b e : ℕ) (new : List UInt8) : HttpMessage :=
  let buffer := h.buffer.take b ++ new ++ h.buffer.drop e
  { h with buffer := buffer, stale := h.mem.drop buffer.length }

/-! ## Growth -/

/-- The room that the block has for the buffer. -/
def capacity (h : HttpMessage) : ℕ := h.totalBlock - sizeofHttp + maxStr

/-- `reallocation_protocol`. All offsets stay what they are. -/
def reallocationProtocol (h : HttpMessage) (olen : ℕ) : HttpMessage :=
  let newSize := h.buffer.length + olen
  if newSize ≥ h.capacity then
    { h with totalBlock := h.totalBlock + sizeofHttp * (newSize / h.capacity + 1) }
  else h

/-- `force_onto_buffer` with room for `o` (`Room`). The source writes without a look at the size
of the block; where there is no room, the read that this is part of is an overrun
(`clientDoRead`). -/
def forceOntoBuffer (h : HttpMessage) (o : List UInt8) : HttpMessage :=
  let h := h.reallocationProtocol o.length
  { h with buffer := h.buffer ++ o, stale := h.stale.drop o.length }

/-! ## The end of the header block -/

/-- `check_delimiter_header` -/
def checkDelimiterHeader (h : HttpMessage) (ch : UInt8) : HttpMessage × Bool :=
  if h.payload.isSome then (h, false)
  else
    let rep := ch ∈ delim ∧ ch = h.lastFoundDelimiters
    let h :=
      if ch ∈ delim then
        { h with foundDelimiters := h.foundDelimiters + 1, lastFoundDelimiters := ch }
      else { h with foundDelimiters := 0, lastFoundDelimiters := 0 }
    (h, h.foundDelimiters = 4 ∨ (rep ∧ h.foundDelimiters = 2))

end HttpMessage

/-! ## Whether the growing buffer has room -/

section Growth
open HttpMessage

/-- A buffer of capacity `c` that is to hold `n` bytes is large enough already, or large
enough after it has grown. -/
def Fits (c n : ℕ) : Prop := n < c ∨ n ≤ c + sizeofHttp * (n / c + 1)

instance (c n : ℕ) : Decidable (Fits c n) := inferInstanceAs (Decidable (_ ∨ _))

theorem capacity_reallocationProtocol {h : HttpMessage} (hblock : sizeofHttp ≤ h.totalBlock)
    (olen : ℕ) :
    (h.reallocationProtocol olen).capacity =
      if h.buffer.length + olen < h.capacity then h.capacity
      else h.capacity + sizeofHttp * ((h.buffer.length + olen) / h.capacity + 1) := by
  simp only [reallocationProtocol, ge_iff_le]
  by_cases hlt : h.buffer.length + olen < h.capacity
  · rw [if_neg (not_le.mpr hlt), if_pos hlt]
  · rw [if_pos (not_lt.mp hlt), if_neg hlt]
    simp only [capacity]
    omega

theorem totalBlock_forceOntoBuffer (h : HttpMessage) (o : List UInt8) :
    h.totalBlock ≤ (h.forceOntoBuffer o).totalBlock := by
  simp only [forceOntoBuffer, reallocationProtocol]
  split <;> simp

@[simp] theorem buffer_reallocationProtocol (h : HttpMessage) (olen : ℕ) :
    (h.reallocationProtocol olen).buffer = h.buffer := by
  unfold reallocationProtocol
  dsimp only
  split <;> rfl

theorem capacity_forceOntoBuffer (h : HttpMessage) (o : List UInt8) :
    (h.forceOntoBuffer o).capacity = (h.reallocationProtocol o.length).capacity := rfl

theorem buffer_forceOntoBuffer (h : HttpMessage) (o : List UInt8) :
    (h.forceOntoBuffer o).buffer = h.buffer ++ o := by
  simp [forceOntoBuffer]

/-- There is room for `o` when it is about to be written. -/
def Room (h : HttpMessage) (o : List UInt8) : Prop :=
  h.buffer.length + o.length ≤ (h.reallocationProtocol o.length).capacity

instance (h : HttpMessage) (o : List UInt8) : Decidable (Room h o) :=
  inferInstanceAs (Decidable (_ ≤ _))

theorem room_iff {h : HttpMessage} (hblock : sizeofHttp ≤ h.totalBlock) (o : List UInt8) :
    Room h o ↔ Fits h.capacity (h.buffer.length + o.length) := by
  rw [Room, capacity_reallocationProtocol hblock, Fits]
  split_ifs with hlt
  · simp [hlt, hlt.le]
  · simp [hlt]

/-- The struct after some calls of `force_onto_buffer`. -/
def forcedOnto (h : HttpMessage) (os : List (List UInt8)) : HttpMessage :=
  os.foldl forceOntoBuffer h

theorem sizeofHttp_le_forcedOnto {h : HttpMessage} (hblock : sizeofHttp ≤ h.totalBlock)
    (os : List (List UInt8)) : sizeofHttp ≤ (forcedOnto h os).totalBlock := by
  induction os generalizing h with
  | nil => exact hblock
  | cons o os ih => exact ih (hblock.trans (totalBlock_forceOntoBuffer h o))

/-- **When the buffer never overflows.** In a sequence of calls from a fresh struct on,
there is room at every write and the bytes in use stay within the capacity exactly
when each call finds its `n` bytes, those in use and the new ones, below the capacity
`c` or at most `c + 1104 * (n / c + 1)`. -/
theorem forcedOnto_room_iff (rena : Rena) (type : ClientType) (os : List (List UInt8)) :
    (∀ pre o post, os = pre ++ o :: post →
      Room (forcedOnto (create rena type) pre) o ∧
        (forcedOnto (create rena type) (pre ++ [o])).buffer.length ≤
          (forcedOnto (create rena type) (pre ++ [o])).capacity) ↔
    ∀ pre o post, os = pre ++ o :: post →
      Fits (forcedOnto (create rena type) pre).capacity
        ((forcedOnto (create rena type) pre).buffer.length + o.length) := by
  have hroom : ∀ pre o, Room (forcedOnto (create rena type) pre) o ↔
      Fits (forcedOnto (create rena type) pre).capacity
        ((forcedOnto (create rena type) pre).buffer.length + o.length) :=
    fun pre o => room_iff (sizeofHttp_le_forcedOnto le_rfl pre) o
  have hused : ∀ pre o, Room (forcedOnto (create rena type) pre) o →
      (forcedOnto (create rena type) (pre ++ [o])).buffer.length ≤
        (forcedOnto (create rena type) (pre ++ [o])).capacity := by
    intro pre o h
    have hsucc : forcedOnto (create rena type) (pre ++ [o]) =
        (forcedOnto (create rena type) pre).forceOntoBuffer o := by
      simp [forcedOnto]
    rw [hsucc, buffer_forceOntoBuffer, List.length_append]
    exact h
  constructor
  · intro h pre o post hos
    exact (hroom pre o).mp (h pre o post hos).1
  · intro h pre o post hos
    have := (hroom pre o).mpr (h pre o post hos)
    exact ⟨this, hused pre o this⟩

/-- After a first call with 1024 bytes one with 20000 has no room: 21024 bytes are to
go where there is room for 10960. -/
theorem not_room_second_call :
    ¬ ∀ (rena : Rena) (type : ClientType) (os : List (List UInt8)) pre o post,
      os = pre ++ o :: post → Room (forcedOnto (create rena type) pre) o := by
  intro h
  have := h ⟨[], .null, .null, .null⟩ .victim
    [List.replicate 1024 0, List.replicate 20000 0] [List.replicate 1024 0]
    (List.replicate 20000 0) [] rfl
  rw [room_iff (sizeofHttp_le_forcedOnto le_rfl _), forcedOnto, List.foldl_cons, List.foldl_nil,
    buffer_forceOntoBuffer, capacity_forceOntoBuffer] at this
  simp only [List.length_append, List.length_replicate] at this
  exact absurd this (by decide)

/-- Short appends always find room. -/
theorem room_of_le {h : HttpMessage} (hblock : sizeofHttp ≤ h.totalBlock)
    (hused : h.buffer.length ≤ h.capacity) {o : List UInt8} (ho : o.length ≤ 2 * sizeofHttp) :
    Room h o := by
  rw [room_iff hblock]
  rcases Nat.lt_or_ge (h.buffer.length + o.length) h.capacity with hlt | hge
  · exact .inl hlt
  · have hpos : 0 < h.capacity := by
      simp only [capacity, maxStr]
      omega
    have hquot : 1 ≤ (h.buffer.length + o.length) / h.capacity := (Nat.one_le_div_iff hpos).mpr hge
    refine .inr ?_
    calc
      h.buffer.length + o.length ≤ h.capacity + sizeofHttp * 2 := by omega
      _ ≤ h.capacity + sizeofHttp * ((h.buffer.length + o.length) / h.capacity + 1) :=
        Nat.add_le_add_left (Nat.mul_le_mul_left _ (by omega)) _

end Growth

end RenaProxy
