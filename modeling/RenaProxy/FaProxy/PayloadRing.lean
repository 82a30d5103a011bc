import RenaProxy.FaProxy.Endpoints

/-!
# The payload ring, field by field

A `FaRequest` has a bounded queue where the source has an array with two places and a size. Here are
the fields themselves, and the loops over them. `run_payload` says that for any calls they do what a
queue of `MAX_STR` bytes does, and that no place is outside of the array.
-/
namespace RenaProxy.FaProxy
open BoundedQueue StreamTransducer

/-- The window-buffer of `fa_request_t`. -/
structure PayloadWindow where
  payloadR : ℕ
  payloadW : ℕ
  payloadSize : ℕ
  payload : Vector UInt8 maxStr

/-- A call of one of the three functions. -/
inductive PayloadCall
  | put (buffer : List UInt8)
  | copy (bufferSz : ℕ)
  | consume (bufferSz : ℕ)
  deriving DecidableEq, Repr

/-- What a call returns, and the bytes that it copies. -/
abbrev PayloadAnswer := ℤ × List UInt8

namespace PayloadWindow

/-- What `calloc` gives `fa_request_create`. -/
def zeroed : PayloadWindow := ⟨0, 0, 0, Vector.replicate maxStr 0⟩

/-- One round of the loop of `fa_request_payload_put`. -/
def putByte (fa : PayloadWindow) (b : UInt8) : Except Fault PayloadWindow :=
  if h : fa.payloadW < maxStr then
    .ok { fa with
      payload := fa.payload.set fa.payloadW b h
      payloadW := (fa.payloadW + 1) % maxStr
      payloadSize := fa.payloadSize + 1 }
  else .error .overrun

/-- The loop, which counts the bytes in `u`. -/
def putBytes (fa : PayloadWindow) : List UInt8 → Except Fault (PayloadWindow × ℕ)
  | [] => .ok (fa, 0)
  | b :: buffer =>
      if fa.payloadSize < maxStr then do
        let fa ← fa.putByte b
        let (fa, u) ← fa.putBytes buffer
        pure (fa, u + 1)
      else .ok (fa, 0)

/-- `fa_request_payload_put` -/
def put (fa : PayloadWindow) (buffer : List UInt8) : Except Fault (PayloadWindow × ℤ) :=
  if fa.payloadSize = maxStr then .ok (fa, -1)
  else do
    let (fa, u) ← fa.putBytes buffer
    pure (fa, (u : ℤ))

/-- `payload[read_at]`, for the byte `u` of the copy. -/
def byteAt (fa : PayloadWindow) (u : ℕ) : Except Fault UInt8 :=
  if h : (fa.payloadR + u) % maxStr < maxStr then .ok fa.payload[(fa.payloadR + u) % maxStr]
  else .error .overrun

/-- `fa_request_payload_copy` -/
def copy (fa : PayloadWindow) (bufferSz : ℕ) : Except Fault PayloadAnswer :=
  if fa.payloadSize = 0 then .ok (-1, [])
  else do
    let min := if bufferSz < fa.payloadSize then bufferSz else fa.payloadSize
    let buffer ← (List.range min).mapM fa.byteAt
    pure ((min : ℤ), buffer)

/-- The part of `fa_request_payload_consume` that consumes. -/
def consume (fa : PayloadWindow) (bufferSz : ℕ) : PayloadWindow :=
  if fa.payloadSize = 0 then fa
  else
    let max := if bufferSz < fa.payloadSize then bufferSz else fa.payloadSize
    { fa with payloadR := (fa.payloadR + max) % maxStr, payloadSize := fa.payloadSize - max }

/-- One call. -/
def call (fa : PayloadWindow) : PayloadCall → Except Fault (PayloadWindow × List PayloadAnswer)
  | .put buffer => do
      let (fa, ret) ← fa.put buffer
      pure (fa, [(ret, [])])
  | .copy bufferSz => do
      let answer ← fa.copy bufferSz
      pure (fa, [answer])
  | .consume bufferSz => .ok (fa.consume bufferSz, [(0, [])])

/-- What is in the ring, from `payload_r` on. -/
def queued (fa : PayloadWindow) : List UInt8 :=
  (List.range fa.payloadSize).filterMap fun u => fa.payload[(fa.payloadR + u) % maxStr]?

end PayloadWindow

/-- What the calls are to do to a queue. -/
def queueCall (queue : List UInt8) : PayloadCall → List UInt8 × List PayloadAnswer
  | .put buffer =>
      if queue.length = maxStr then (queue, [(-1, [])])
      else
        let fits := buffer.take (maxStr - queue.length)
        (queue ++ fits, [((fits.length : ℤ), [])])
  | .copy bufferSz =>
      if queue = [] then (queue, [(-1, [])])
      else (queue, [((min bufferSz queue.length : ℕ), queue.take bufferSz)])
  | .consume bufferSz => (queue.drop bufferSz, [(0, [])])

/-! ## What the fields stand for -/

namespace PayloadWindow
variable {fa : PayloadWindow} {q : Buffer UInt8}

/-- The fields are those of this buffer. -/
structure Represents (fa : PayloadWindow) (q : Buffer UInt8) : Prop where
  capacity : q.capacity = maxStr
  size : q.size = fa.payloadSize
  first : q.first = fa.payloadR
  last : q.last = fa.payloadW
  cells : ∀ i, (h : i < maxStr) → fa.payload[i] = q.cells i

theorem maxStr_pos : 0 < maxStr := by decide

theorem represents_zeroed : zeroed.Represents (.empty (fun _ => 0) maxStr maxStr_pos) where
  capacity := rfl
  size := rfl
  first := rfl
  last := rfl
  cells i h := by simp [zeroed, Buffer.empty]

theorem Represents.size_le (h : fa.Represents q) : fa.payloadSize ≤ maxStr := by
  rw [← h.size, ← h.capacity]
  exact q.size_le

theorem Represents.payloadR_lt (h : fa.Represents q) : fa.payloadR < maxStr := by
  rw [← h.first, ← h.capacity]
  exact q.first_lt

theorem Represents.payloadW_lt (h : fa.Represents q) : fa.payloadW < maxStr := by
  rw [← h.last, q.last_eq, h.capacity]
  exact Nat.mod_lt _ maxStr_pos

theorem Represents.byteAt (h : fa.Represents q) (u : ℕ) :
    fa.byteAt u = .ok (q.cells ((q.first + u) % q.capacity)) := by
  rw [PayloadWindow.byteAt, dif_pos (Nat.mod_lt _ maxStr_pos), h.cells, h.first, h.capacity]

theorem Represents.queued (h : fa.Represents q) : fa.queued = q.toList := by
  rw [PayloadWindow.queued, Buffer.toList, h.size, ← List.filterMap_eq_map]
  refine List.filterMap_congr fun u _ => ?_
  have hlt : (fa.payloadR + u) % maxStr < maxStr := Nat.mod_lt _ maxStr_pos
  rw [Vector.getElem?_eq_getElem hlt, h.cells, h.first, h.capacity]
  rfl

theorem Represents.putByte {q' : Buffer UInt8} {b : UInt8} (h : fa.Represents q)
    (hq : q.enqueue b = some q') : ∃ fa', fa.putByte b = .ok fa' ∧ fa'.Represents q' := by
  rw [Buffer.enqueue] at hq
  split_ifs at hq with hroom
  obtain rfl := Option.some.inj hq
  refine ⟨_, dif_pos h.payloadW_lt, h.capacity, congrArg (· + 1) h.size, h.first, ?_,
    fun i hi => ?_⟩
  · simp [h.last, h.capacity]
  · by_cases hlast : fa.payloadW = i
    · simp [hlast, h.last]
    · have hcells : Function.update q.cells q.last b i = q.cells i :=
        Function.update_of_ne (fun heq => hlast (heq.trans h.last).symm) ..
      rw [Vector.getElem_set_ne _ _ hlast, h.cells i hi]
      exact hcells.symm

/-- The loop of `fa_request_payload_put` fills the buffer. -/
theorem Represents.putBytes (h : fa.Represents q) (buffer : List UInt8) :
    ∃ fa', fa.putBytes buffer = .ok (fa', (q.fill buffer).2) ∧
      fa'.Represents (q.fill buffer).1 := by
  induction buffer generalizing fa q with
  | nil => exact ⟨fa, rfl, h⟩
  | cons b buffer ih =>
      rw [PayloadWindow.putBytes, Buffer.fill]
      cases hq : q.enqueue b with
      | none =>
          have hfull := Buffer.enqueue_eq_none_iff.mp hq
          rw [h.size, h.capacity] at hfull
          have hnone : ¬ fa.payloadSize < maxStr := by omega
          exact ⟨fa, if_neg hnone, h⟩
      | some q' =>
          have hroom : fa.payloadSize < maxStr := by
            have hne : ¬ q.enqueue b = none := by simp [hq]
            rw [Buffer.enqueue_eq_none_iff, h.size, h.capacity] at hne
            exact lt_of_le_of_ne h.size_le hne
          obtain ⟨fa₁, hfirst, h₁⟩ := h.putByte hq
          obtain ⟨fa', hrest, h'⟩ := ih h₁
          refine ⟨fa', ?_, h'⟩
          simp [hroom, hfirst, hrest, bind, Except.bind, pure, Except.pure]

/-- **The ring of a request** is what `fa_request_payload_put` works on. -/
theorem Represents.payloadPut {req : FaRequest} (h : fa.Represents req.payload)
    (buffer : List UInt8) : ∃ fa', fa.put buffer = .ok (fa', (req.payloadPut buffer).2) ∧
      fa'.Represents (req.payloadPut buffer).1.payload := by
  rw [PayloadWindow.put, FaRequest.payloadPut, h.size]
  by_cases hfull : fa.payloadSize = maxStr
  · rw [if_pos hfull, if_pos hfull]
    exact ⟨fa, rfl, h⟩
  · obtain ⟨fa', hbytes, h'⟩ := h.putBytes buffer
    rw [if_neg hfull, if_neg hfull]
    exact ⟨fa', by simp [hbytes, bind, Except.bind, pure, Except.pure], h'⟩

theorem min_eq (n m : ℕ) : (if n < m then n else m) = min n m := by
  split_ifs with hlt
  · exact (Nat.min_eq_left hlt.le).symm
  · exact (Nat.min_eq_right (not_lt.mp hlt)).symm

/-- What is copied is what comes out first. -/
theorem Represents.copy (h : fa.Represents q) (bufferSz : ℕ) : fa.copy bufferSz =
    if q.size = 0 then .ok (-1, [])
    else .ok ((min bufferSz q.size : ℕ), q.toList.take bufferSz) := by
  have hbytes : (List.range (min bufferSz q.size)).mapM fa.byteAt =
      .ok (q.toList.take bufferSz) := by
    have hbyte : fa.byteAt = fun u => pure (q.cells ((q.first + u) % q.capacity)) :=
      funext h.byteAt
    rw [hbyte, List.mapM_pure, Buffer.toList, ← List.map_take, List.take_range]
    rfl
  rw [PayloadWindow.copy, ← h.size]
  dsimp only
  rw [min_eq, hbytes]
  rfl

theorem Represents.consume (h : fa.Represents q) (bufferSz : ℕ) :
    (fa.consume bufferSz).Represents (q.skip (min bufferSz q.size) (min_le_right _ _)) := by
  rw [PayloadWindow.consume]
  by_cases hempty : fa.payloadSize = 0
  · rw [if_pos hempty]
    refine ⟨h.capacity, ?_, ?_, h.last, h.cells⟩
    · simp [Buffer.skip, h.size, hempty]
    · have hlt := h.payloadR_lt
      simp [Buffer.skip, h.size, hempty, h.first, h.capacity, Nat.mod_eq_of_lt hlt]
  · rw [if_neg hempty, min_eq]
    refine ⟨h.capacity, ?_, ?_, h.last, h.cells⟩
    · simp [Buffer.skip, h.size]
    · simp [Buffer.skip, h.size, h.first, h.capacity]

/-! ## Any calls -/

/-- The fields stand for this queue. -/
def Holds (fa : PayloadWindow) (queue : List UInt8) : Prop :=
  ∃ q : Buffer UInt8, fa.Represents q ∧ q.toList = queue

/-- **A call does what it is to do to the queue.** -/
theorem Holds.call {queue : List UInt8} (h : fa.Holds queue) (c : PayloadCall) :
    ∃ fa', fa.call c = .ok (fa', (queueCall queue c).2) ∧ fa'.Holds (queueCall queue c).1 := by
  obtain ⟨q, hq, rfl⟩ := h
  have hnil : q.toList = [] ↔ q.size = 0 := by
    rw [← List.length_eq_zero_iff, Buffer.length_toList]
  cases c with
  | put buffer =>
      rw [queueCall, Buffer.length_toList, PayloadWindow.call, PayloadWindow.put, ← hq.size]
      split_ifs with hfull
      · exact ⟨fa, rfl, q, hq, rfl⟩
      · obtain ⟨fa', hbytes, h'⟩ := hq.putBytes buffer
        obtain ⟨hlist, hcount⟩ := q.fill_spec buffer
        rw [hq.capacity] at hcount
        have hfits : (buffer.take (maxStr - q.size)).length = (q.fill buffer).2 := by
          rw [List.length_take, hcount, Nat.min_comm]
        have htake : buffer.take (maxStr - q.size) = buffer.take (q.fill buffer).2 := by
          rw [List.take_eq_take_iff, hcount]
          omega
        refine ⟨fa', ?_, _, h', by rw [hlist, htake]⟩
        simp [hbytes, hfits, bind, Except.bind, pure, Except.pure]
  | copy bufferSz =>
      rw [PayloadWindow.call, hq.copy, queueCall, Buffer.length_toList]
      by_cases hempty : q.size = 0
      · rw [if_pos hempty, if_pos (hnil.mpr hempty)]
        exact ⟨fa, rfl, q, hq, rfl⟩
      · rw [if_neg hempty, if_neg (hnil.not.mpr hempty)]
        exact ⟨fa, rfl, q, hq, rfl⟩
  | consume bufferSz =>
      refine ⟨fa.consume bufferSz, rfl, _, hq.consume bufferSz, ?_⟩
      rw [Buffer.toList_skip, queueCall, List.drop_eq_drop_iff, Buffer.length_toList]
      omega

/-- **For any calls, the ring is a queue of `MAX_STR` bytes**, and no place leaves the array. -/
theorem run_payload (calls : List PayloadCall) :
    ∃ fa, run PayloadWindow.call .zeroed calls = .ok (fa, (trace queueCall [] calls).2) ∧
      fa.queued = (trace queueCall [] calls).1 ∧
      fa.payloadSize = (trace queueCall [] calls).1.length ∧ fa.payloadSize ≤ maxStr ∧
      fa.payloadR < maxStr ∧ fa.payloadW < maxStr := by
  have hzeroed : zeroed.Holds [] := ⟨_, represents_zeroed, rfl⟩
  obtain ⟨fa, hrun, q, hq, hlist⟩ := run_simulates (g := queueCall)
    (fun _ _ => rfl : ∀ x y : List PayloadAnswer, id (x ++ y) = id x ++ id y) rfl
    (fun fa queue c h => h.call c) hzeroed calls
  refine ⟨fa, hrun, ?_, ?_, hq.size_le, hq.payloadR_lt, hq.payloadW_lt⟩
  · rw [hq.queued, hlist]
  · rw [← hlist, Buffer.length_toList, hq.size]

end PayloadWindow

end RenaProxy.FaProxy
