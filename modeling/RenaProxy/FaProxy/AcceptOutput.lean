import RenaProxy.FaProxy.Endpoints
import RenaProxy.Lib.Runs

/-!
# What `accept_output` leaves in the output

The first bytes of the output go into a ring; `str_shift` takes as many off at the other end of the
output, since its slow mode is never on. `movesFirst_iff` says when this leaves the right bytes, and
what calls that leave them have put into the ring together.
-/
namespace RenaProxy.FaProxy
open BoundedQueue StreamTransducer Runs

section Repeats
variable {α : Type} {k : ℕ} {l : List α}

/-- Every element is the one `k` places further on. -/
def Repeats (k : ℕ) (l : List α) : Prop := ∀ i, i + k < l.length → l[i]? = l[i + k]?

theorem take_eq_drop_iff : l.take (l.length - k) = l.drop k ↔ Repeats k l := by
  constructor
  · intro h i hi
    have hget := congrArg (fun l => l[i]?) h
    have hlt : i < l.length - k := by omega
    simp only [List.getElem?_drop, List.getElem?_take_of_lt hlt] at hget
    rw [hget, Nat.add_comm]
  · intro h
    refine List.ext_getElem? fun i => ?_
    rw [List.getElem?_drop, Nat.add_comm k i]
    by_cases hi : i + k < l.length
    · rw [List.getElem?_take_of_lt (by omega), h i hi]
    · have hshort : (l.take (l.length - k)).length ≤ i := by
        rw [List.length_take]
        omega
      rw [List.getElem?_eq_none hshort, List.getElem?_eq_none (by omega)]

instance (k : ℕ) (l : List α) [DecidableEq α] : Decidable (Repeats k l) :=
  decidable_of_iff _ take_eq_drop_iff

end Repeats

/-- A request with nothing in its ring. -/
def FaRequest.drained (fa : FaRequest) : FaRequest :=
  { fa with
    payload := fa.payload.skip fa.payload.size (Nat.le_refl _), capacity_eq := fa.capacity_eq }

namespace Pair
variable {p : Pair} {req h : Side} {length : ℕ}

/-- The first bytes of the output are put into the ring, and the others stay in the output. -/
def MovesFirst (p : Pair) (req h : Side) (length : ℕ) : Prop :=
  ∃ first, first ++ ((p.acceptOutput req h length).1 h).output = (p h).output ∧
    ((p.acceptOutput req h length).1 req).payload.toList = (p req).payload.toList ++ first

/-- What is put into the ring comes again where the output is cut off. -/
def KeepsEnd (p : Pair) (req h : Side) (length : ℕ) : Prop :=
  Repeats (min (min (p req).remainCapacity (p h).output.length) length) (p h).output

instance (p : Pair) (req h : Side) (length : ℕ) : Decidable (p.KeepsEnd req h length) :=
  inferInstanceAs (Decidable (Repeats _ _))

theorem movesFirst_iff_keepsEnd : p.MovesFirst req h length ↔ p.KeepsEnd req h length := by
  obtain ⟨-, hends⟩ := acceptOutput_spec p req h length
  obtain ⟨-, houtput, -⟩ := hends h
  obtain ⟨-, -, hring⟩ := hends req
  rw [if_pos rfl] at houtput hring
  rw [MovesFirst, houtput, hring, KeepsEnd, ← remain, ← take_eq_drop_iff]
  constructor
  · rintro ⟨first, hfirst, htaken⟩
    obtain rfl := List.append_cancel_left htaken
    exact List.append_cancel_left (hfirst.trans (List.take_append_drop _ _).symm)
  · intro hrest
    exact ⟨_, by rw [hrest, List.take_append_drop], rfl⟩

/-- All that is in the ring is consumed. -/
def drained (p : Pair) (req : Side) : Pair := p.set req (p req).drained

/-- The output is offered to the ring, and then the ring is drained. -/
def offer (req h : Side) (p : Pair) (length : ℕ) : Pair × List UInt8 :=
  let x := p.acceptOutput req h length
  (x.1.drained req, placedIn req x.2)

theorem drained_output (p : Pair) (req s : Side) : (p.drained req s).output = (p s).output := by
  rw [drained]
  by_cases hs : s = req
  · subst hs
    rw [set_self]
    rfl
  · rw [set_of_ne p hs]

theorem remainCapacity_drained (p : Pair) (req : Side) :
    (p.drained req req).remainCapacity = maxStr := by
  simp [drained, FaRequest.drained, FaRequest.remainCapacity, Buffer.skip]

/-- A call that moves the first bytes: what it puts into the ring and what stays. -/
theorem MovesFirst.offer (hmoves : p.MovesFirst req h length) :
    (offer req h p length).2 ++ ((offer req h p length).1 h).output = (p h).output ∧
      (offer req h p length).2.length = p.remain req h length := by
  obtain ⟨first, hfirst, hring⟩ := hmoves
  obtain ⟨hevents, hends⟩ := acceptOutput_spec p req h length
  have htaken := (hends req).2.2
  rw [if_pos rfl, hring] at htaken
  obtain rfl := List.append_cancel_left htaken
  have hplaced : (Pair.offer req h p length).2 = (p h).output.take (p.remain req h length) := by
    simp [Pair.offer, hevents, placedIn, Event.placedIn]
  rw [hplaced]
  refine ⟨by rwa [Pair.offer, drained_output], ?_⟩
  rw [List.length_take, remain]
  omega

/-! ## Calls one after the other -/

/-- Of every call in a row, and of the state before it. -/
def Offers (req h : Side) (P : Pair → ℕ → Prop) : Pair → List ℕ → Prop :=
  Along (fun p length => some (offer req h p length).1) P

/-- **What the calls put into the ring, and what stays, is the output.** -/
theorem offers_append {lengths : List ℕ}
    (hmoves : Offers req h (fun p length => p.MovesFirst req h length) p lengths) :
    (trace (offer req h) p lengths).2 ++ ((trace (offer req h) p lengths).1 h).output =
      (p h).output := by
  induction lengths generalizing p with
  | nil => rfl
  | cons length lengths ih =>
      have hrest := ih (hmoves.2 _ rfl)
      rw [trace_cons, List.append_assoc, hrest]
      exact hmoves.1.offer.1

theorem remainCapacity_offer (p : Pair) (req h : Side) (length : ℕ) :
    ((offer req h p length).1 req).remainCapacity = maxStr := remainCapacity_drained _ _

/-- A drained ring takes a byte at each call, until there is none. -/
theorem offers_all {lengths : List ℕ}
    (hmoves : Offers req h (fun p length => p.MovesFirst req h length) p lengths)
    (hdrained : (p req).remainCapacity = maxStr) (hpos : ∀ length ∈ lengths, 0 < length)
    (hlength : (p h).output.length ≤ lengths.length) :
    ((trace (offer req h) p lengths).1 h).output = [] := by
  induction lengths generalizing p with
  | nil => exact List.length_eq_zero_iff.mp (Nat.le_zero.mp hlength)
  | cons length lengths ih =>
      obtain ⟨hfirst, htaken⟩ := hmoves.1.offer
      have hsum := congrArg List.length hfirst
      have hmax : 0 < maxStr := by decide
      have hone := hpos length List.mem_cons_self
      rw [List.length_append, htaken, remain, hdrained] at hsum
      rw [List.length_cons] at hlength
      rw [trace_cons]
      exact ih (hmoves.2 _ rfl) (remainCapacity_offer p req h length)
        (fun l hl => hpos l (List.mem_cons_of_mem length hl)) (by omega)

/-- **`accept_output` moves the first bytes of the output** when these come again, byte for byte,
where it is cut off instead. Calls that do so transfer the output in order, all of it in time. -/
theorem movesFirst_iff (p : Pair) (req h : Side) :
    (∀ length, p.MovesFirst req h length ↔ p.KeepsEnd req h length) ∧
      ∀ lengths, Offers req h (fun p length => p.KeepsEnd req h length) p lengths →
        (trace (offer req h) p lengths).2 ++ ((trace (offer req h) p lengths).1 h).output =
            (p h).output ∧
          ((∀ length ∈ lengths, 0 < length) → (p h).output.length < lengths.length →
            (trace (offer req h) p lengths).2 = (p h).output) := by
  refine ⟨fun length => movesFirst_iff_keepsEnd, fun lengths hkeeps => ?_⟩
  have hmoves : Offers req h (fun p length => p.MovesFirst req h length) p lengths :=
    (along_congr fun _ _ => movesFirst_iff_keepsEnd).mpr hkeeps
  have happend := offers_append hmoves
  refine ⟨happend, fun hpos hlength => ?_⟩
  cases lengths with
  | nil => exact absurd hlength (by simp)
  | cons length lengths =>
      have hfirst := congrArg List.length hmoves.1.offer.1
      rw [List.length_append] at hfirst
      rw [List.length_cons] at hlength
      have hnone := offers_all (hmoves.2 _ rfl) (remainCapacity_offer p req h length)
        (fun l hl => hpos l (List.mem_cons_of_mem length hl)) (by omega)
      rw [trace_cons] at happend ⊢
      rwa [hnone, List.append_nil] at happend

/-- Of `aaa` a byte at each call. -/
theorem movesFirst_iff_aaa :
    let q : Buffer UInt8 := .empty (fun _ => 0) maxStr (by decide)
    let p : Pair := fun s => ⟨q, [97, 97, 97], .init .empty s, rfl⟩
    (trace (offer .client .server) p [1, 1, 1, 1]).2 = [97, 97, 97] := by
  intro q p
  have hkeeps : Offers .client .server (fun p length => p.KeepsEnd .client .server length) p
      [1, 1, 1, 1] := by
    unfold Offers
    decide +kernel
  exact ((movesFirst_iff p .client .server).2 _ hkeeps).2 (by decide) (by decide)

/-- Of `abc` the ring has room for one byte: `a` goes into it and `ab` stays. -/
theorem not_movesFirst_abc : ∃ p : Pair, (p .server).output = [97, 98, 99] ∧
    (p .client).remainCapacity = 1 ∧ ¬ p.MovesFirst .client .server (2 ^ 64 - 1 - 1) := by
  let q : Buffer UInt8 := ⟨fun _ => 0, maxStr, 1023, 0, 1023, by decide, by decide, by decide⟩
  refine ⟨fun s => ⟨q, [97, 98, 99], .init .empty s, rfl⟩, rfl, rfl, ?_⟩
  rw [movesFirst_iff_keepsEnd]
  intro h
  exact absurd (h 0 (by decide)) (by decide)

end Pair

end RenaProxy.FaProxy
