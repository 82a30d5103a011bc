import RenaProxy.FaProxy.Head
import RenaProxy.Lib.BoundedQueue
import RenaProxy.Lib.Failure
import Mathlib.Data.List.Forall2

/-!
# The two ends of a connection

faproxy reads from one end, rewrites, and puts the result into the ring of the other end, from
where it is written. What does not fit stays in the output of the end it was read from.
`Pair.step` has the reads and the writes of both ends in any order.

What stayed is not put where it belongs: after a write `http_payload_fill_output` puts it into the
ring of the end it came from, and `str_shift` keeps the wrong end of it. `placed_append_output` says
what holds as long as neither happens.
-/
namespace RenaProxy.FaProxy
open StreamTransducer BoundedQueue

/-- The end that a request is related to. -/
def Side.other : Side → Side
  | server => client
  | client => server

/-- The part of `fa_request_t` that its bytes go through: the ring of what is to be written, the
`output` of its `http_module_t`, and the rest of this. -/
structure FaRequest where
  payload : Buffer UInt8
  output : List UInt8
  reading : Reading
  capacity_eq : payload.capacity = maxStr

/-- What happens to bytes: they are rewritten from what an end sent, put into the ring of an end,
or written to it. -/
inductive Event
  | rewritten (s : Side) (bytes : List UInt8)
  | placed (s : Side) (bytes : List UInt8)
  | written (s : Side) (bytes : List UInt8)
  deriving DecidableEq, Repr

namespace FaRequest

/-- `fa_request_remain_capacity` -/
def remainCapacity (fa : FaRequest) : ℕ := maxStr - fa.payload.size

/-- `fa_request_payload_put` -/
def payloadPut (fa : FaRequest) (buffer : List UInt8) : FaRequest × ℤ :=
  if fa.payload.size = maxStr then (fa, -1)
  else
    ({ fa with
        payload := (fa.payload.fill buffer).1
        capacity_eq := (Buffer.capacity_fill _ _).trans fa.capacity_eq },
      (fa.payload.fill buffer).2)

/-- What `fa_request_payload_copy` copies. -/
def payloadCopy (fa : FaRequest) (bufferSz : ℕ) : List UInt8 := fa.payload.toList.take bufferSz

end FaRequest

/-- `str_shift`. Without the slow mode nothing is moved: the last bytes are taken off. -/
def strShift (s : List UInt8) (consume : ℤ) (slowMode : Bool) : List UInt8 :=
  if consume > 0 then
    if slowMode then s.drop consume.toNat else s.take (s.length - consume.toNat)
  else s

/-- Two related requests. -/
abbrev Pair : Type := Side → FaRequest

namespace Pair

/-- One of the two requests changes. -/
def set (p : Pair) (s : Side) (fa : FaRequest) : Pair := Function.update p s fa

@[simp] theorem set_self (p : Pair) (s : Side) (fa : FaRequest) : p.set s fa s = fa :=
  Function.update_self ..

@[simp] theorem set_of_ne (p : Pair) {s t : Side} (h : t ≠ s) (fa : FaRequest) :
    p.set s fa t = p t := Function.update_of_ne h ..

/-- The variable `remain` of `accept_output`: how many bytes it puts into the ring. -/
def remain (p : Pair) (req h : Side) (length : ℕ) : ℕ :=
  min (min (p req).remainCapacity (p h).output.length) length

/-- `accept_output`, where the output is that of the end `h`. -/
def acceptOutput (p : Pair) (req h : Side) (length : ℕ) : Pair × List Event :=
  let buffer := (p h).output.take (p.remain req h length)
  let put := if p.remain req h length > 0 then (p req).payloadPut buffer else (p req, 0)
  let output := strShift (p h).output put.2 ((p.remain req h length : ℤ) ≠ put.2 % 2 ^ 64)
  let p := p.set req put.1
  (p.set h { p h with output := output }, [.placed req (buffer.take put.2.toNat)])

/-- `http_payload_fill_output` -/
def httpPayloadFillOutput (p : Pair) (req : Side) (maxToFill : ℕ) : Pair × List Event :=
  p.acceptOutput req req maxToFill

/-- `fa_request_payload_consume` -/
def payloadConsume (p : Pair) (fa : Side) (bufferSz : ℕ) : Pair × List Event :=
  if (p fa).payload.size = 0 then (p, [])
  else
    let q := (p fa).payload.skip (min bufferSz (p fa).payload.size) (min_le_right _ _)
    (p.set fa { p fa with payload := q, capacity_eq := (p fa).capacity_eq }).httpPayloadFillOutput fa
      (maxStr - q.size)

/-- What becomes of the value that `http_payload_loader` returns, at each byte. -/
def returned (ret : ℤ) : Option (DiLookup × LookupResult) → ℤ
  | none => ret
  | some (_, .notHold) => 0
  | some (_, .feedMeAndHold) => if ret < 0 then 1 else ret
  | some (_, .transformOk _ _) => 0

/-- One round of the loop of `http_payload_loader`, with the value to return. -/
def loadRound (memory : List (List UInt8) → List UInt8) (x : Reading × ℤ) (p : UInt8 × ℕ) :
    Except Fault ((Reading × ℤ) × List UInt8) := do
  let y ← x.1.loadByte memory p
  pure ((y.1, returned x.2 ({ x.1 with head := x.1.head.read memory p }.lookup p.1)), y.2)

/-- `http_payload_loader` for a request that is related to another. -/
def httpPayloadLoader (memory : List (List UInt8) → List UInt8) (p : Pair) (req : Side)
    (buffer : List UInt8) : Except Fault ((Pair × ℤ) × List Event) := do
  let x ← run (loadRound memory) ((p req).reading, -1) buffer.zipIdx
  let p := p.set req { p req with output := (p req).output ++ x.2, reading := x.1.1 }
  let y := p.acceptOutput req.other req (2 ^ 64 - 1 - 1)
  pure ((y.1, x.1.2), .rewritten req x.2 :: y.2)

/-- What the loop of events makes one of the two ends do. -/
inductive Action
  /-- Some bytes are read from it. -/
  | read (s : Side) (buffer : List UInt8)
  /-- This many bytes of its ring are written to it. -/
  | write (s : Side) (bytes : ℕ)
  deriving DecidableEq, Repr

/-- The part of `read_action` and `write_action` that handles bytes. -/
def step (memory : List (List UInt8) → List UInt8) (p : Pair) :
    Action → Except Fault (Pair × List Event)
  | .read s buffer => do
      let x ← p.httpPayloadLoader memory s buffer
      pure (x.1.1, x.2)
  | .write s bytes =>
      let x := p.payloadConsume s bytes
      .ok (x.1, .written s ((p s).payloadCopy bytes) :: x.2)

/-- Two ends that have just been related to each other. -/
def start (readings : Side → Reading) : Pair := fun s =>
  ⟨Buffer.empty (fun _ => 0) maxStr (by decide), [], readings s, rfl⟩

/-! ## What the functions do -/

section Spec
variable {memory : List (List UInt8) → List UInt8} {p : Pair} {req h s t : Side} {length : ℕ}

theorem remainCapacity_le (fa : FaRequest) : fa.remainCapacity ≤ maxStr := Nat.sub_le _ _

theorem payloadPut_spec (fa : FaRequest) {buffer : List UInt8} (hpos : 0 < buffer.length)
    (hle : buffer.length ≤ fa.remainCapacity) :
    (fa.payloadPut buffer).2 = buffer.length ∧
      (fa.payloadPut buffer).1.payload.toList = fa.payload.toList ++ buffer ∧
      (fa.payloadPut buffer).1.output = fa.output ∧
      (fa.payloadPut buffer).1.reading = fa.reading := by
  have hroom : ¬ fa.payload.size = maxStr := by
    intro hfull
    rw [FaRequest.remainCapacity, hfull, Nat.sub_self] at hle
    omega
  obtain ⟨hlist, hcount⟩ := Buffer.fill_spec fa.payload buffer
  rw [fa.capacity_eq, ← FaRequest.remainCapacity, Nat.min_eq_left hle] at hcount
  rw [hcount, List.take_length] at hlist
  rw [FaRequest.payloadPut, if_neg hroom]
  exact ⟨congrArg Nat.cast hcount, hlist, rfl, rfl⟩

/-- **What `accept_output` does**: it puts the first bytes of the output into the ring, and takes
as many off at its other end. -/
theorem acceptOutput_spec (p : Pair) (req h : Side) (length : ℕ) :
    (p.acceptOutput req h length).2 =
        [.placed req ((p h).output.take (p.remain req h length))] ∧
      ∀ t, ((p.acceptOutput req h length).1 t).reading = (p t).reading ∧
        ((p.acceptOutput req h length).1 t).output = (if t = h then
          (p h).output.take ((p h).output.length - p.remain req h length) else (p t).output) ∧
        ((p.acceptOutput req h length).1 t).payload.toList = (if t = req then
          (p req).payload.toList ++ (p h).output.take (p.remain req h length)
          else (p t).payload.toList) := by
  have hlen : ((p h).output.take (p.remain req h length)).length = p.remain req h length := by
    rw [List.length_take, remain]
    omega
  obtain ⟨put, hput, hcount, hlist, houtput, hreading⟩ : ∃ put : FaRequest × ℤ,
      put = (if p.remain req h length > 0 then
        (p req).payloadPut ((p h).output.take (p.remain req h length)) else (p req, 0)) ∧
      put.2 = p.remain req h length ∧
      put.1.payload.toList = (p req).payload.toList ++ (p h).output.take (p.remain req h length) ∧
      put.1.output = (p req).output ∧ put.1.reading = (p req).reading := by
    refine ⟨_, rfl, ?_⟩
    split_ifs with hpos
    · have hle : p.remain req h length ≤ (p req).remainCapacity :=
        (Nat.min_le_left _ _).trans (Nat.min_le_left _ _)
      have hspec := payloadPut_spec (p req) (hlen.symm ▸ hpos) (hlen.symm ▸ hle)
      rwa [hlen] at hspec
    · obtain hzero : p.remain req h length = 0 := by omega
      rw [hzero, List.take_zero, List.append_nil]
      exact ⟨rfl, rfl, rfl, rfl⟩
  have hsmall : p.remain req h length < 2 ^ 64 := by
    have hle := (Nat.min_le_left (min (p req).remainCapacity (p h).output.length) length).trans
      ((Nat.min_le_left _ _).trans (remainCapacity_le (p req)))
    exact hle.trans_lt (by decide)
  have hfast : decide ((p.remain req h length : ℤ) ≠ put.2 % 2 ^ 64) = false := by
    rw [hcount, decide_eq_false_iff_not, not_not]
    omega
  have hshift : strShift (p h).output put.2 false =
      (p h).output.take ((p h).output.length - p.remain req h length) := by
    rw [strShift, hcount, Int.toNat_natCast]
    by_cases hpos : (p.remain req h length : ℤ) > 0
    · rw [if_pos hpos, if_neg Bool.false_ne_true]
    · obtain hzero : p.remain req h length = 0 := by omega
      rw [if_neg hpos, hzero, Nat.sub_zero, List.take_length]
  rw [acceptOutput]
  dsimp only
  rw [← hput, hfast, hshift, hcount, Int.toNat_natCast]
  refine ⟨by rw [List.take_take, Nat.min_self], ?_⟩
  intro t
  by_cases hh : t = h
  · subst hh
    by_cases hreq : t = req
    · subst hreq
      rw [set_self, set_self, if_pos rfl, if_pos rfl]
      exact ⟨hreading, rfl, hlist⟩
    · rw [set_self, set_of_ne _ hreq, if_pos rfl, if_neg hreq]
      exact ⟨rfl, rfl, rfl⟩
  · rw [set_of_ne _ hh, if_neg hh]
    by_cases hreq : t = req
    · subst hreq
      rw [set_self, if_pos rfl]
      exact ⟨hreading, houtput, hlist⟩
    · rw [set_of_ne _ hreq, if_neg hreq]
      exact ⟨rfl, rfl, rfl⟩

variable (memory) in
/-- The value to return is computed alongside. -/
theorem run_loadRound (r : Reading) (ret : ℤ) (ps : List (UInt8 × ℕ)) :
    Agree (fun (x : Reading × ℤ) r => x.1 = r) (run (loadRound memory) (r, ret) ps)
      (run (Reading.loadByte memory) r ps) := by
  apply Agree.run (P := Eq) (R := fun (x : Reading × ℤ) r => x.1 = r) _ rfl
    (List.forall₂_eq_eq_eq ▸ rfl)
  rintro x r p q rfl rfl
  rw [loadRound]
  cases x.1.loadByte memory p with
  | error e => exact .error e
  | ok y => exact .ok rfl

theorem other_ne (s : Side) : s.other ≠ s := by
  cases s <;> decide

/-- **A read**, where the ring of the other end is full or has room for everything. -/
theorem step_read {buffer out : List UInt8} {r : Reading}
    (hload : (p s).reading.load memory buffer = .ok (r, out))
    (hroom : (p s.other).remainCapacity = 0 ∨
      (p s).output.length + out.length ≤ (p s.other).remainCapacity) : ∃ p' placed,
    step memory p (.read s buffer) = .ok (p', [.rewritten s out, .placed s.other placed]) ∧
      placed ++ (p' s).output = (p s).output ++ out ∧ (p' s.other).output = (p s.other).output ∧
      (p' s).reading = r ∧ (p' s.other).reading = (p s.other).reading ∧
      (p' s).payload.toList = (p s).payload.toList ∧
      (p' s.other).payload.toList = (p s.other).payload.toList ++ placed := by
  have hround := run_loadRound memory (p s).reading (-1) buffer.zipIdx
  rw [← Reading.load, hload] at hround
  obtain ⟨ret, hrun⟩ : ∃ ret, run (loadRound memory) ((p s).reading, -1) buffer.zipIdx =
      .ok ((r, ret), out) := by
    generalize run (loadRound memory) ((p s).reading, -1) buffer.zipIdx = x at hround
    cases hround with
    | @ok x _ _ hR => exact ⟨x.2, hR ▸ rfl⟩
  have hne := other_ne s
  obtain ⟨p₁, hp₁⟩ : ∃ p₁, p₁ = p.set s { p s with output := (p s).output ++ out, reading := r } :=
    ⟨_, rfl⟩
  have hs : p₁ s = { p s with output := (p s).output ++ out, reading := r } := hp₁ ▸ set_self p s _
  have ht : p₁ s.other = p s.other := hp₁ ▸ set_of_ne p hne _
  obtain ⟨hevents, hends⟩ := acceptOutput_spec p₁ s.other s (2 ^ 64 - 1 - 1)
  obtain ⟨hreading, houtput, hlist⟩ := hends s
  obtain ⟨hreading', houtput', hlist'⟩ := hends s.other
  rw [if_pos rfl] at houtput hlist'
  rw [if_neg hne] at houtput'
  rw [if_neg hne.symm] at hlist
  refine ⟨(p₁.acceptOutput s.other s (2 ^ 64 - 1 - 1)).1,
    (p₁ s).output.take (p₁.remain s.other s (2 ^ 64 - 1 - 1)), ?_, ?_, ?_, ?_, ?_, ?_, ?_⟩
  · rw [step, httpPayloadLoader, hrun]
    simp only [Failure.bind_ok, ← hp₁]
    rw [hevents]
    rfl
  · have hlen : ((p s).output ++ out).length = (p s).output.length + out.length := List.length_append
    have hle := remainCapacity_le (p s.other)
    have hbig : maxStr ≤ 2 ^ 64 - 1 - 1 := by decide
    rw [houtput, hs, remain, ht, hs]
    dsimp only
    rcases hroom with hroom | hroom
    · rw [hroom, Nat.zero_min, Nat.zero_min, List.take_zero, Nat.sub_zero, List.take_length]
      rfl
    · have hall : min (min (p s.other).remainCapacity ((p s).output ++ out).length)
          (2 ^ 64 - 1 - 1) = ((p s).output ++ out).length := by omega
      rw [hall, List.take_length, Nat.sub_self, List.take_zero, List.append_nil]
  · rw [houtput', ht]
  · rw [hreading, hs]
  · rw [hreading', ht]
  · rw [hlist, hs]
  · rw [hlist', ht]

variable (memory) in
/-- **A write**, where nothing that was read from the same end waits to be put anywhere, or
nothing can be put. -/
theorem step_write {n : ℕ} (h : (p s).output = [] ∨ (p s).payload.size = 0 ∨
      n = 0 ∧ (p s).remainCapacity = 0) : ∃ p' events,
    step memory p (.write s n) = .ok (p', .written s ((p s).payload.toList.take n) :: events) ∧
      (∀ e ∈ events, e = .placed s []) ∧
      ∀ t, (p' t).output = (p t).output ∧ (p' t).reading = (p t).reading ∧
        (p' t).payload.toList =
          if t = s then (p s).payload.toList.drop n else (p t).payload.toList := by
  refine ⟨(p.payloadConsume s n).1, (p.payloadConsume s n).2, rfl, ?_⟩
  rw [payloadConsume]
  by_cases hempty : (p s).payload.size = 0
  · have hnil : (p s).payload.toList = [] := by
      rw [← List.length_eq_zero_iff, Buffer.length_toList, hempty]
    rw [if_pos hempty]
    refine ⟨(fun _ h => nomatch h), fun t => ⟨rfl, rfl, ?_⟩⟩
    split_ifs with ht
    · rw [ht, hnil, List.drop_nil]
    · rfl
  · rw [if_neg hempty, httpPayloadFillOutput]
    obtain ⟨q, hq⟩ : ∃ q, q = (p s).payload.skip (min n (p s).payload.size) (min_le_right _ _) :=
      ⟨_, rfl⟩
    have hlist : q.toList = (p s).payload.toList.drop n := by
      rw [hq, Buffer.toList_skip]
      rcases Nat.le_total n (p s).payload.size with hle | hle
      · rw [Nat.min_eq_left hle]
      · rw [Nat.min_eq_right hle, ← Buffer.length_toList, List.drop_length,
          List.drop_eq_nil_of_le (by rwa [Buffer.length_toList])]
    have hcapacity : q.capacity = maxStr := by
      rw [hq]
      exact (p s).capacity_eq
    have hzero : ((p.set s ⟨q, (p s).output, (p s).reading, hcapacity⟩).remain s s
        (maxStr - q.size) = 0) := by
      rw [remain, set_self]
      rcases h with h | h | ⟨rfl, h⟩
      · rw [h, List.length_nil, Nat.min_zero, Nat.zero_min]
      · exact absurd h hempty
      · have hsize : q.size = (p s).payload.size - min 0 (p s).payload.size := hq ▸ rfl
        rw [FaRequest.remainCapacity] at h
        omega
    obtain ⟨hevents, hends⟩ :=
      acceptOutput_spec (p.set s ⟨q, (p s).output, (p s).reading, hcapacity⟩) s s (maxStr - q.size)
    rw [hzero, List.take_zero] at hevents
    simp only [← hq]
    refine ⟨fun e he => ?_, fun t => ?_⟩
    · rw [hevents] at he
      exact List.mem_singleton.mp he
    · obtain ⟨hreading, houtput, hlist'⟩ := hends t
      rw [hzero] at houtput hlist'
      rw [set_self, Nat.sub_zero, List.take_length] at houtput
      rw [set_self, List.take_zero, List.append_nil, hlist] at hlist'
      by_cases ht : t = s
      · subst ht
        rw [if_pos rfl] at houtput hlist' ⊢
        rw [set_self] at hreading
        exact ⟨houtput, hreading, hlist'⟩
      · rw [if_neg ht, set_of_ne p ht] at houtput hlist'
        rw [set_of_ne p ht] at hreading
        rw [if_neg ht]
        exact ⟨houtput, hreading, hlist'⟩

end Spec

end Pair

/-! ## Runs -/

namespace Event

/-- The bytes of an event that were put into the ring of an end. -/
def placedIn (s : Side) : Event → List UInt8
  | placed t bytes => if t = s then bytes else []
  | _ => []

/-- The bytes of an event that were written to an end. -/
def writtenTo (s : Side) : Event → List UInt8
  | written t bytes => if t = s then bytes else []
  | _ => []

end Event

namespace Pair
variable {memory : List (List UInt8) → List UInt8} {p : Pair} {s : Side}

/-- What was put into the ring of an end. -/
def placedIn (s : Side) (events : List Event) : List UInt8 := events.flatMap (Event.placedIn s)

/-- What was written to an end. -/
def writtenTo (s : Side) (events : List Event) : List UInt8 := events.flatMap (Event.writtenTo s)

/-- The buffer that an action reads from an end. -/
def Action.readFrom (s : Side) : Action → List (List UInt8)
  | read t buffer => if t = s then [buffer] else []
  | write _ _ => []

/-- The buffers that were read from an end. -/
def readsFrom (s : Side) (actions : List Action) : List (List UInt8) :=
  actions.flatMap (Action.readFrom s)

/-- No output stays behind where it would be put wrongly. What is read fits into the ring of the
other end with what waits before it, or there is no room there at all; and when bytes were
written and there is room in the ring again, nothing waits that was read from the same end. -/
def Roomy (memory : List (List UInt8) → List UInt8) (p : Pair) : Action → Prop
  | .read s buffer => ∃ r out, (p s).reading.load memory buffer = .ok (r, out) ∧
      ((p s.other).remainCapacity = 0 ∨
        (p s).output.length + out.length ≤ (p s.other).remainCapacity)
  | .write s bytes => (p s).output = [] ∨ (p s).payload.size = 0 ∨
      bytes = 0 ∧ (p s).remainCapacity = 0

/-- Every step of a run has room. -/
def RoomyRun (memory : List (List UInt8) → List UInt8) : Pair → List Action → Prop
  | _, [] => True
  | p, a :: actions => p.Roomy memory a ∧
      ∀ p' events, p.step memory a = .ok (p', events) → RoomyRun memory p' actions

/-- Where the bytes are after some actions: what was put into a ring and what still waits for it
is what was read from the other end, rewritten; and what was put into a ring was written, or is
still in it. -/
structure Conserved (memory : List (List UInt8) → List UInt8) (p p' : Pair) (actions : List Action)
    (events : List Event) : Prop where
  rewritten : ∀ s, ∃ out, (p s).reading.loads memory (readsFrom s actions) =
      .ok ((p' s).reading, out) ∧
    placedIn s.other events ++ (p' s).output = (p s).output ++ out
  ring : ∀ s, writtenTo s events ++ (p' s).payload.toList =
    (p s).payload.toList ++ placedIn s events

theorem conserved_nil (p : Pair) : Conserved memory p p [] [] :=
  ⟨fun _ => ⟨[], rfl, (List.append_nil _).symm⟩, fun _ => (List.append_nil _).symm⟩

theorem Conserved.trans {p' p'' : Pair} {as as' : List Action} {es es' : List Event}
    (h : Conserved memory p p' as es) (h' : Conserved memory p' p'' as' es') :
    Conserved memory p p'' (as ++ as') (es ++ es') := by
  constructor
  · intro s
    obtain ⟨out, hloads, hplaced⟩ := h.rewritten s
    obtain ⟨out', hloads', hplaced'⟩ := h'.rewritten s
    refine ⟨out ++ out', ?_, ?_⟩
    · rw [readsFrom, List.flatMap_append]
      exact run_append_of_ok hloads hloads'
    · rw [placedIn, List.flatMap_append, ← placedIn, ← placedIn, List.append_assoc, hplaced',
        ← List.append_assoc, hplaced, List.append_assoc]
  · intro s
    rw [writtenTo, placedIn, List.flatMap_append, List.flatMap_append, ← writtenTo, ← writtenTo,
      ← placedIn, ← placedIn, List.append_assoc, h'.ring, ← List.append_assoc, h.ring,
      List.append_assoc]

theorem eq_or_eq_other (s t : Side) : t = s ∨ t = s.other := by
  cases s <;> cases t <;> decide

/-- One step. -/
theorem conserved_step {a : Action} (h : p.Roomy memory a) : ∃ p' events,
    p.step memory a = .ok (p', events) ∧ Conserved memory p p' [a] events := by
  cases a with
  | read s buffer =>
      obtain ⟨r, out, hload, hroom⟩ := h
      obtain ⟨p', placed, hstep, h₁, h₂, h₃, h₄, h₅, h₆⟩ := step_read hload hroom
      have hne := other_ne s
      refine ⟨p', _, hstep, ?_, ?_⟩
      · intro t
        rcases eq_or_eq_other s t with rfl | rfl
        · refine ⟨out, ?_, ?_⟩
          · rw [h₃]
            simpa [readsFrom, Action.readFrom, Reading.loads] using run_singleton_of_ok hload
          · simpa [placedIn, Event.placedIn] using h₁
        · refine ⟨[], ?_, ?_⟩
          · rw [h₄]
            simp [readsFrom, Action.readFrom, hne.symm, Reading.loads]
          · have hother : s.other.other = s := by cases s <;> rfl
            rw [hother, h₂]
            simp [placedIn, Event.placedIn, hne]
      · intro t
        rcases eq_or_eq_other s t with rfl | rfl
        · rw [h₅]
          simp [placedIn, writtenTo, Event.placedIn, Event.writtenTo, hne]
        · rw [h₆]
          simp [placedIn, writtenTo, Event.placedIn, Event.writtenTo]
  | write s bytes =>
      obtain ⟨p', events, hstep, hevents, hends⟩ := step_write memory h
      have hplaced : ∀ t, placedIn t events = [] := by
        intro t
        rw [placedIn, List.flatMap_eq_nil_iff]
        intro e he
        rw [hevents e he]
        exact ite_self []
      have hwritten : ∀ t, writtenTo t events = [] := by
        intro t
        rw [writtenTo, List.flatMap_eq_nil_iff]
        intro e he
        rw [hevents e he]
        rfl
      have hnone : ∀ t, placedIn t (.written s ((p s).payload.toList.take bytes) :: events) = [] := by
        intro t
        rw [placedIn, List.flatMap_cons, ← placedIn, hplaced]
        rfl
      refine ⟨p', _, hstep, ?_, ?_⟩
      · intro t
        obtain ⟨houtput, hreading, -⟩ := hends t
        refine ⟨[], ?_, ?_⟩
        · rw [hreading]
          rfl
        · rw [houtput, hnone, List.nil_append, List.append_nil]
      · intro t
        obtain ⟨-, -, hlist⟩ := hends t
        rw [hlist, hnone, writtenTo, List.flatMap_cons, ← writtenTo, hwritten, Event.writtenTo,
          List.append_nil, List.append_nil]
        by_cases ht : t = s
        · rw [if_pos ht, if_pos ht.symm, ht, List.take_append_drop]
        · rw [if_neg ht, if_neg (Ne.symm ht), List.nil_append]

/-- Every run. -/
theorem conserved_run {actions : List Action} (h : RoomyRun memory p actions) : ∃ p' events,
    run (step memory) p actions = .ok (p', events) ∧ Conserved memory p p' actions events := by
  induction actions generalizing p with
  | nil => exact ⟨p, [], rfl, conserved_nil p⟩
  | cons a actions ih =>
      obtain ⟨p₁, events₁, hstep, hfirst⟩ := conserved_step h.1
      obtain ⟨p₂, events₂, hrun, hrest⟩ := ih (h.2 p₁ events₁ hstep)
      refine ⟨p₂, events₁ ++ events₂, ?_, hfirst.trans hrest⟩
      rw [run_cons, hstep, Failure.bind_ok, hrun]
      rfl

end Pair

end RenaProxy.FaProxy
