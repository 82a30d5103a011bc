import RenaProxy.Http.Reads
import RenaProxy.Http.Edits

/-!
# The announced total

Header processing keeps a total with the protocol that `check_payload_length` compares with
the number of bytes received. `announcedTotal` reads it off the header block: the length that
its `Content-Length` announces and the size of the block itself, after rewriting and with the
suffix put in (`expectedPayload_evaluateHeaders`).
-/
namespace RenaProxy
open Failure

namespace HttpMessage
variable {rena : Rena} {type : ClientType} {peer : Option HttpMessage} {h h' : HttpMessage}

/-- The header block as `adjust_expect_payload` finds it: the suffix was put in, and the headers
are recorded. -/
def recorded (suffix : List UInt8) (h : HttpMessage) : Except Fault HttpMessage := do
  let r := h.processHeadersAndGetPayload
  let h ← adjustDomainProperty suffix
    { r.1 with headersUsed := r.2.headers.length, payload := r.2.payload }
  h.recordHeaders

/-- The value of the header `Content-Length`, if there is one. -/
def announcedLength (h : HttpMessage) : Option ℤ :=
  (h.findHeader headerContentLength).map h.announced

/-- The message up to its payload. -/
def headerPart (h : HttpMessage) : HttpMessage :=
  { h with buffer := h.buffer.take (h.payload.getD 0), stale := [] }

/-- The length that the header block announces together with its size, as an `int`. -/
def announcedTotal (h : HttpMessage) : Option ℤ :=
  match h.announcedLength, h.payload with
  | some v, some p => if 0 ≤ v ∧ 0 ≤ toInt32 (v + p) then some (toInt32 (v + p)) else none
  | _, _ => none

/-! ## The expected total -/

/-- The scan works on the buffer alone. -/
theorem processHeadersAndGetPayload_frame (h : HttpMessage) :
    ∃ b, h.processHeadersAndGetPayload.1 = { h with buffer := b } := by
  rw [processHeadersAndGetPayload_fst]
  cases h.firstLineEnd with
  | none => exact ⟨h.buffer, rfl⟩
  | some old =>
      dsimp only [downgrade]
      split
      · exact ⟨_, rfl⟩
      · exact ⟨h.buffer, rfl⟩

theorem expectedPayload_adjustDomainProperty {suffix : List UInt8}
    (hok : h.adjustDomainProperty suffix = .ok h') : h'.expectedPayload = h.expectedPayload := by
  rw [adjustDomainProperty, bind_eq_ok] at hok
  obtain ⟨⟨h₀, n⟩, -, hok⟩ := hok
  rw [bind_eq_ok] at hok
  obtain ⟨⟨h₁, u⟩, hpass, hok⟩ := hok
  obtain rfl := Except.ok.inj hok
  refine applyOnDomain_invariant (fun x => x.expectedPayload = h.expectedPayload) ?_ ?_ hpass
  · intro x b e u x' u' hx hcopy
    unfold copySuffix at hcopy
    split at hcopy
    · cases hcopy
    · obtain ⟨rfl, -⟩ := Prod.mk.inj (Except.ok.inj hcopy)
      exact hx
  · dsimp only [reallocationProtocol]
    split <;> try rfl
    split <;> rfl

theorem expectedPayload_recordHeaders (hok : h.recordHeaders = .ok h') :
    h'.expectedPayload = h.expectedPayload := by
  obtain ⟨b, hb⟩ := h.processHeadersAndGetPayload_frame
  unfold recordHeaders at hok
  split at hok
  · rw [Except.ok.inj hok]
  · dsimp only at hok
    split at hok
    · obtain rfl := Except.ok.inj hok
      rw [hb]
    · cases hok

theorem expectedPayload_removeHeaders (hok : h.removeHeaders type = .ok h') :
    h'.expectedPayload = h.expectedPayload ∧ (h'.payload.isSome ↔ h.payload.isSome) := by
  have hone : ∀ {h h' : HttpMessage} {hdr : List UInt8}, h.findAndRemoveHeader hdr = .ok h' →
      h'.expectedPayload = h.expectedPayload ∧ (h'.payload.isSome ↔ h.payload.isSome) := by
    intro h h' hdr hok
    rcases findAndRemoveHeader_cases hok with ⟨-, rfl⟩ | ⟨found, payload, -, hp, -, -, rfl⟩
    · exact ⟨rfl, Iff.rfl⟩
    · exact ⟨rfl, by simp [hp]⟩
  cases type <;>
  · rw [removeHeaders, bind_eq_ok] at hok
    obtain ⟨h₁, h₁ok, hok⟩ := hok
    exact ⟨(hone hok).1.trans (hone h₁ok).1, (hone hok).2.trans (hone h₁ok).2⟩

theorem expectedPayload_reserve (h : HttpMessage) :
    h.reserve.expectedPayload = h.expectedPayload ∧ h.reserve.payload = h.payload ∧
      h.reserve.buffer = h.buffer := by
  dsimp only [reserve, reallocationProtocol]
  split <;> try exact ⟨rfl, rfl, rfl⟩
  split <;> try exact ⟨rfl, rfl, rfl⟩
  split <;> exact ⟨rfl, rfl, rfl⟩

/-- `adjust_expect_payload` keeps the announced total, where there is none so far. -/
theorem announcedTotal_eq (hneg : h.expectedPayload < 0) (hok : h.adjustExpectPayload = .ok h') :
    h.announcedTotal = if 0 ≤ h'.expectedPayload then some h'.expectedPayload else none := by
  rw [adjustExpectPayload, if_neg hneg.not_gt, bind_eq_ok] at hok
  obtain ⟨⟨h₁, clv⟩, hclv, hok⟩ := hok
  dsimp only at hok
  rw [announcedTotal, announcedLength]
  cases hfind : h.findHeader headerContentLength with
  | none =>
      rw [contentLengthValue, hfind] at hclv
      obtain ⟨rfl, rfl⟩ := Prod.mk.inj (Except.ok.inj hclv)
      have hsame : h' = h := by
        split at hok
        · rw [contentLengthValue, hfind] at hok
          exact (Except.ok.inj hok).symm
        · exact (Except.ok.inj hok).symm
      rw [hsame, if_neg hneg.not_ge]
      rfl
  | some hr =>
      rw [contentLengthValue, hfind] at hclv
      simp only [hneg, if_true] at hclv
      by_cases hv : h.announced hr < 0
      · -- the second call reads the same number
        rw [if_pos hv] at hclv
        obtain ⟨rfl, rfl⟩ := Prod.mk.inj (Except.ok.inj hclv)
        have hagain : contentLengthValue { h with expectedPayload := h.announced hr } =
            .ok ({ h with expectedPayload := h.announced hr }, 0) := by
          have hfind' : findHeader { h with expectedPayload := h.announced hr }
              headerContentLength = some hr := hfind
          have hannounced : announced { h with expectedPayload := h.announced hr } hr =
              h.announced hr := rfl
          rw [contentLengthValue, hfind']
          simp only [hannounced, hv, if_true]
        rw [if_pos ⟨le_rfl, hv.ne'⟩, hagain] at hok
        obtain rfl := Except.ok.inj hok
        dsimp only
        rw [if_neg hv.not_ge]
        cases h.payload with
        | none => rfl
        | some p => exact if_neg fun hpos => hv.not_ge hpos.1
      · rw [if_neg hv] at hclv
        cases hp : h.payload with
        | none => simp [hp] at hclv
        | some p =>
            rw [hp] at hclv
            obtain ⟨rfl, rfl⟩ := Prod.mk.inj (Except.ok.inj hclv)
            rw [if_neg fun hne => hne.2 rfl] at hok
            obtain rfl := Except.ok.inj hok
            simp only [Option.map_some, not_lt.mp hv, true_and]

theorem expectedPayload_create (rena : Rena) (type : ClientType) :
    (create rena type).expectedPayload < 0 := Int.negSucc_lt_zero 0

/-! ## The size of the block -/

/-- The payload begins in the buffer or behind its last byte. -/
def PayloadWithin (h : HttpMessage) : Prop := ∀ p ∈ h.payload, p ≤ h.buffer.length

theorem payloadWithin_scan (h : HttpMessage) :
    ∀ p ∈ h.processHeadersAndGetPayload.2.payload, p ≤ h.buffer.length := by
  have main : ∀ n ≤ h.buffer.length,
      ∀ p ∈ ((List.range n).foldl scanByte (h, .start)).2.payload, p ≤ h.buffer.length := by
    intro n hn
    induction n with
    | zero => simp [Scan.start]
    | succ n ih =>
        have ih := ih (by omega)
        rw [List.range_succ, List.foldl_append, List.foldl_cons, List.foldl_nil]
        generalize (List.range n).foldl scanByte (h, .start) = r at ih ⊢
        unfold scanByte
        split
        · exact ih
        · split
          · cases hs : r.2.state <;> simp only [scanDelim, hs] <;> try exact ih
            · split <;> exact ih
            · simp only [Option.mem_def, Option.some.injEq]
              omega
          · exact ih
  exact main _ le_rfl

theorem length_buffer_scan (h : HttpMessage) :
    h.processHeadersAndGetPayload.1.buffer.length = h.buffer.length := by
  rw [processHeadersAndGetPayload_fst]
  cases h.firstLineEnd with
  | none => rfl
  | some old =>
      dsimp only [downgrade]
      split <;> simp

theorem PayloadWithin.adjustDomainProperty {suffix : List UInt8} (H : h.PayloadWithin)
    (hok : h.adjustDomainProperty suffix = .ok h') : h'.PayloadWithin := by
  rw [HttpMessage.adjustDomainProperty, bind_eq_ok] at hok
  obtain ⟨⟨h₀, n⟩, -, hok⟩ := hok
  rw [bind_eq_ok] at hok
  obtain ⟨⟨h₁, u⟩, hpass, hok⟩ := hok
  obtain rfl := Except.ok.inj hok
  refine applyOnDomain_invariant PayloadWithin ?_ ?_ hpass
  · intro x b e u x' u' hx hcopy
    unfold copySuffix at hcopy
    by_cases hlen : x.buffer.length < e
    · rw [if_pos hlen] at hcopy
      cases hcopy
    · rw [if_neg hlen] at hcopy
      obtain ⟨rfl, -⟩ := Prod.mk.inj (Except.ok.inj hcopy)
      rintro p hp
      obtain ⟨q, hq, rfl⟩ := Option.map_eq_some_iff.mp hp
      have := hx q hq
      simp only [splice, List.length_append, List.length_take, List.length_drop]
      omega
  · split
    · rw [PayloadWithin, payload_reallocationProtocol, buffer_reallocationProtocol]
      exact H
    · exact H

theorem PayloadWithin.recordHeaders (H : h.PayloadWithin) (hok : h.recordHeaders = .ok h') :
    h'.PayloadWithin := by
  unfold HttpMessage.recordHeaders at hok
  split at hok
  · exact Except.ok.inj hok ▸ H
  · dsimp only at hok
    split at hok
    · obtain rfl := Except.ok.inj hok
      intro p hp
      exact (payloadWithin_scan h p hp).trans_eq (length_buffer_scan h).symm
    · cases hok

theorem PayloadWithin.removeHeaders (H : h.PayloadWithin) (hok : h.removeHeaders type = .ok h') :
    h'.PayloadWithin := by
  have hone : ∀ {h h' : HttpMessage} {hdr : List UInt8}, h.PayloadWithin →
      h.findAndRemoveHeader hdr = .ok h' → h'.PayloadWithin := by
    intro h h' hdr H hok
    rcases findAndRemoveHeader_cases hok with ⟨-, rfl⟩ | ⟨found, payload, -, hp, hnext, -, rfl⟩
    · exact H
    · have := H payload hp
      rintro _ ⟨⟩
      simp only [splice, List.length_append, List.length_take, List.length_drop, List.length_nil]
      omega
  cases type <;>
  · rw [HttpMessage.removeHeaders, bind_eq_ok] at hok
    obtain ⟨h₁, h₁ok, hok⟩ := hok
    exact hone (hone H h₁ok) hok

/-- What is appended behind the payload's beginning changes nothing about the header part. -/
theorem announcedLength_headerPart {out : List UInt8} (H : h.PayloadWithin)
    (happ : Appended h h' out) :
    h'.headerPart.announcedLength = h.headerPart.announcedLength := by
  have hbuffer : h'.headerPart.buffer = h.headerPart.buffer := by
    rw [headerPart, headerPart]
    dsimp only
    rw [happ.buffer, happ.payload]
    cases hp : h.payload with
    | none => simp
    | some p => exact List.take_append_of_le_length (H p hp)
  have hmem : h'.headerPart.mem = h.headerPart.mem := congrArg (· ++ []) hbuffer
  have hbyte : h'.headerPart.byteAt = h.headerPart.byteAt := by
    funext i
    rw [byteAt, byteAt, hmem]
  have hbytes : h'.headerPart.bytesAt = h.headerPart.bytesAt := by
    funext i n
    rw [bytesAt, bytesAt, hbyte]
  have hheaders : h'.headerPart.headers = h.headerPart.headers := happ.headers
  have hused : h'.headerPart.headersUsed = h.headerPart.headersUsed := happ.headersUsed
  have hfind : h'.headerPart.findHeader = h.headerPart.findHeader := by
    funext name
    rw [findHeader, findHeader, hheaders, hused, hbyte, hbytes]
  have hannounced : h'.headerPart.announced = h.headerPart.announced := by
    funext hr
    rw [announced, announced, copyHeader, copyHeader, header, header, hheaders, hbytes]
  rw [announcedLength, announcedLength, hfind, hannounced]

/-! ## What header processing comes to -/

/-- **The expected total is the announced one**, or negative if the block announces none. -/
theorem expectedPayload_evaluateHeaders (hnone : h.payload = none) (hneg : h.expectedPayload < 0)
    (hok : h.evaluateHeaders rena type peer = .ok h') (hp : h'.payload.isSome) :
    h'.PayloadWithin ∧ ∃ b, h.recorded rena.suffix = .ok b ∧
      b.announcedTotal = if 0 ≤ h'.expectedPayload then some h'.expectedPayload else none := by
  obtain ⟨t, ht⟩ := h.processHeadersAndGetPayload_frame
  rcases evaluateHeaders_stages hok with ⟨hsome, -⟩ | ⟨-, -, rfl⟩ |
    ⟨-, payload, h₁, h₂, h₃, h₄, hpay, ok₁, ok₂, ok₃, ok₄, hok⟩
  · simp [hnone] at hsome
  · rw [ht] at hp
    simp [hnone] at hp
  · obtain ⟨c, rfl⟩ := checkToDisableTransformations_frame hok
    obtain ⟨hexp₄, -⟩ := expectedPayload_removeHeaders ok₄
    obtain ⟨hexp, hpayload, hbuffer⟩ := h₄.expectedPayload_reserve
    have hneg₂ : h₂.expectedPayload < 0 := by
      rw [expectedPayload_recordHeaders ok₂, expectedPayload_adjustDomainProperty ok₁, ht]
      exact hneg
    refine ⟨?_, h₂, ?_, ?_⟩
    · have hwithin₁ : h₁.PayloadWithin := by
        refine PayloadWithin.adjustDomainProperty ?_ ok₁
        rintro p ⟨⟩
        exact (payloadWithin_scan h _ hpay).trans_eq (length_buffer_scan h).symm
      obtain ⟨e, rfl⟩ := adjustExpectPayload_frame ok₃
      have hwithin₂ : h₂.PayloadWithin := hwithin₁.recordHeaders ok₂
      have hwithin₃ : ({ h₂ with expectedPayload := e } : HttpMessage).PayloadWithin := hwithin₂
      intro p hp
      rw [hbuffer]
      exact hwithin₃.removeHeaders ok₄ p (hpayload ▸ hp)
    · refine bind_eq_ok.mpr ⟨h₁, ?_, ok₂⟩
      rw [hpay]
      exact ok₁
    · rw [announcedTotal_eq hneg₂ ok₃]
      dsimp only
      rw [hexp, hexp₄]

/-- As long as there is no payload, no total is expected. -/
theorem expectedPayload_of_payload_none (hnone : h.payload = none) (hneg : h.expectedPayload < 0)
    (hok : h.evaluateHeaders rena type peer = .ok h') (hnone' : h'.payload = none) :
    h'.expectedPayload < 0 := by
  obtain ⟨t, ht⟩ := h.processHeadersAndGetPayload_frame
  rcases evaluateHeaders_stages hok with ⟨hsome, -⟩ | ⟨-, -, rfl⟩ |
    ⟨-, payload, h₁, h₂, h₃, h₄, hpay, ok₁, ok₂, ok₃, ok₄, hok⟩
  · simp [hnone] at hsome
  · rw [ht]
    exact hneg
  · obtain ⟨c, rfl⟩ := checkToDisableTransformations_frame hok
    obtain ⟨hexp₄, hpay₄⟩ := expectedPayload_removeHeaders ok₄
    obtain ⟨hexp, hpayload, -⟩ := h₄.expectedPayload_reserve
    have hneg₂ : h₂.expectedPayload < 0 := by
      rw [expectedPayload_recordHeaders ok₂, expectedPayload_adjustDomainProperty ok₁, ht]
      exact hneg
    have htotal := announcedTotal_eq hneg₂ ok₃
    obtain ⟨e, rfl⟩ := adjustExpectPayload_frame ok₃
    have hnone₂ : h₂.payload = none := by
      have hnone₄ : h₄.payload = none := hpayload ▸ hnone'
      rw [hnone₄] at hpay₄
      simpa using hpay₄
    dsimp only
    rw [hexp, hexp₄]
    by_contra hge
    rw [announcedTotal, hnone₂] at htotal
    cases h₂.announcedLength <;> simp [not_lt.mp hge] at htotal

/-- A byte that leaves the message without a payload leaves it without an expected total. -/
theorem expectedPayload_pullByte {b : UInt8} (hneg : h.expectedPayload < 0)
    (hok : h.pullByte rena type peer b = .ok h') (hnone : h'.payload = none) :
    h'.expectedPayload < 0 := by
  obtain ⟨d, r, h₁, -, happ, -, hlast⟩ := pullByte_cases hok
  have hneg₁ : h₁.expectedPayload < 0 := happ.expectedPayload ▸ hneg
  rcases hlast with rfl | ⟨hp, heval⟩
  · exact hneg₁
  · exact expectedPayload_of_payload_none (happ.payload.trans hp) hneg₁ heval hnone

/-- The byte that brings a payload has the message with it evaluated. -/
theorem exists_handed {b : UInt8} (hnone : h.payload = none) (hneg : h.expectedPayload < 0)
    (hok : h.pullByte rena type peer b = .ok h') (hp : h'.payload.isSome) :
    ∃ c, h.handed b = some c ∧ c.evaluateHeaders rena type peer = .ok h' ∧ c.payload = none ∧
      c.expectedPayload < 0 := by
  rw [pullByte_eq, bind_eq_ok] at hok
  obtain ⟨⟨d, r⟩, hstep, hok⟩ := hok
  dsimp only at hok
  have happ := (appended_appendReaction { h with lookupTree := d } r).trans
    (appended_checkDelimiterHeader _ (seenByte b r))
  rw [handed, hstep]
  dsimp only
  split at hok
  · rename_i hdone
    rw [if_pos hdone]
    refine ⟨_, rfl, hok, happ.payload.trans hnone, ?_⟩
    rw [happ.expectedPayload]
    exact hneg
  · obtain rfl := Except.ok.inj hok
    rw [happ.payload, hnone] at hp
    cases hp

end HttpMessage

end RenaProxy
