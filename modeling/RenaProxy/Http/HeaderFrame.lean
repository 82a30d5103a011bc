import RenaProxy.Http.Headers
import RenaProxy.Lib.Failure

/-!
# What header processing leaves alone

Header processing works on the buffer and on what points into it. Of the lookup tree
it changes the context and nothing else (`lookupTree_evaluateHeaders`), and the abort
of `consume_input` is none of its faults (`evaluateHeaders_ne_error`).
-/
namespace RenaProxy
open Failure

namespace HttpMessage
variable {h h' : HttpMessage}

@[simp] theorem lookupTree_splice (h : HttpMessage) (b e : ℕ) (new : List UInt8) :
    (h.splice b e new).lookupTree = h.lookupTree := rfl

@[simp] theorem lookupTree_reallocationProtocol (h : HttpMessage) (olen : ℕ) :
    (h.reallocationProtocol olen).lookupTree = h.lookupTree := by
  unfold reallocationProtocol
  dsimp only
  split <;> rfl

@[simp] theorem lookupTree_forceOntoBuffer (h : HttpMessage) (o : List UInt8) :
    (h.forceOntoBuffer o).lookupTree = h.lookupTree :=
  lookupTree_reallocationProtocol h o.length

@[simp] theorem payload_reallocationProtocol (h : HttpMessage) (olen : ℕ) :
    (h.reallocationProtocol olen).payload = h.payload := by
  unfold reallocationProtocol
  dsimp only
  split <;> rfl

@[simp] theorem payload_forceOntoBuffer (h : HttpMessage) (o : List UInt8) :
    (h.forceOntoBuffer o).payload = h.payload := payload_reallocationProtocol h o.length

@[simp] theorem lookupTree_checkDelimiterHeader (h : HttpMessage) (ch : UInt8) :
    (h.checkDelimiterHeader ch).1.lookupTree = h.lookupTree := by
  unfold checkDelimiterHeader
  split
  · rfl
  · dsimp only
    split <;> rfl

@[simp] theorem payload_checkDelimiterHeader (h : HttpMessage) (ch : UInt8) :
    (h.checkDelimiterHeader ch).1.payload = h.payload := by
  unfold checkDelimiterHeader
  split
  · rfl
  · dsimp only
    split <;> rfl

@[simp] theorem buffer_checkDelimiterHeader (h : HttpMessage) (ch : UInt8) :
    (h.checkDelimiterHeader ch).1.buffer = h.buffer := by
  unfold checkDelimiterHeader
  split
  · rfl
  · dsimp only
    split <;> rfl

theorem checkDelimiterHeader_of_payload (hp : h.payload.isSome) (ch : UInt8) :
    h.checkDelimiterHeader ch = (h, false) := by
  rw [checkDelimiterHeader, if_pos hp]

@[simp] theorem lookupTree_downgrade (h : HttpMessage) (old : ℕ) :
    (h.downgrade old).lookupTree = h.lookupTree := by
  unfold downgrade
  split <;> rfl

@[simp] theorem lookupTree_scanDelim (h : HttpMessage) (sc : Scan) (p : ℕ) :
    (h.scanDelim sc p).1.lookupTree = h.lookupTree := by
  cases hs : sc.state <;> simp [scanDelim, hs]

@[simp] theorem lookupTree_scanByte (r : HttpMessage × Scan) (p : ℕ) :
    (scanByte r p).1.lookupTree = r.1.lookupTree := by
  unfold scanByte
  split
  · rfl
  · split <;> simp

@[simp] theorem lookupTree_processHeadersAndGetPayload (h : HttpMessage) :
    h.processHeadersAndGetPayload.1.lookupTree = h.lookupTree := by
  exact List.foldlRecOn (motive := fun r : HttpMessage × Scan => r.1.lookupTree = h.lookupTree) _
    scanByte rfl fun r hr p _ => (lookupTree_scanByte r p).trans hr

section Domain
variable {σ : Type} {fnc : HttpMessage → ℕ → ℕ → σ → Except Fault (HttpMessage × σ)}

/-- A round of the pass over cookie domains applies `fnc` to a value that ends here, or
leaves the message as it is. -/
theorem domainByte_cases {ds ds' : DomainScan σ} {s : ℕ} (h : domainByte fnc ds s = .ok ds') :
    (ds'.http = ds.http ∧ ds'.user = ds.user ∧ (ds'.start = ds.start ∨ ds'.start = some s)) ∨
    ∃ first, ds.start = some first ∧ fnc ds.http first s ds.user = .ok (ds'.http, ds'.user) ∧
      ds'.start = none := by
  unfold domainByte at h
  dsimp only at h
  by_cases hhit : dpropLen < ds.hit
  · rw [if_pos hhit] at h
    cases hstart : ds.start with
    | none =>
        rw [hstart] at h
        obtain rfl := Except.ok.inj h
        exact .inl ⟨rfl, rfl, .inr rfl⟩
    | some first =>
        rw [hstart] at h
        dsimp only at h
        by_cases hend : ds.http.byteAt s ∈ chars ";\r\n" ∨ ds.http.byteAt s = 0
        · rw [if_pos hend, bind_eq_ok] at h
          obtain ⟨r, hr, h⟩ := h
          obtain rfl := Except.ok.inj h
          exact .inr ⟨first, rfl, hr, rfl⟩
        · rw [if_neg hend] at h
          obtain rfl := Except.ok.inj h
          exact .inl ⟨rfl, rfl, .inl hstart⟩
  · rw [if_neg hhit] at h
    by_cases hone : 1 < ds.hit
    · rw [if_pos hone] at h
      obtain rfl := Except.ok.inj h
      exact .inl ⟨rfl, rfl, .inl rfl⟩
    · rw [if_neg hone] at h
      obtain rfl := Except.ok.inj h
      exact .inl ⟨rfl, rfl, .inl rfl⟩

theorem domainByte_ne_error {e : Fault} (hfnc : ∀ h b l u, fnc h b l u ≠ .error e)
    (ds : DomainScan σ) (s : ℕ) : domainByte fnc ds s ≠ .error e := by
  unfold domainByte
  dsimp only
  split
  · split
    · simp
    · split
      · exact bind_ne_error (hfnc _ _ _ _) fun a _ => by simp [pure, Except.pure]
      · simp
  · split <;> simp

/-- The pass over cookie domains keeps what `fnc` keeps. -/
theorem applyOnDomain_invariant (P : HttpMessage → Prop)
    (hfnc : ∀ h b e u h' u', P h → fnc h b e u = .ok (h', u') → P h') {u u' : σ} (hh : P h)
    (hok : h.applyOnDomain fnc u = .ok (h', u')) : P h' := by
  rw [applyOnDomain, bind_eq_ok] at hok
  obtain ⟨ds, hds, hok⟩ := hok
  obtain ⟨rfl, -⟩ := Prod.mk.inj (Except.ok.inj hok)
  refine foldlM_invariant (fun ds => P ds.http) ?_ hh hds
  intro ds s ds' hds hstep
  rcases domainByte_cases hstep with ⟨hsame, -⟩ | ⟨first, -, happ, -⟩
  · rw [hsame]
    exact hds
  · exact hfnc _ _ _ _ _ _ hds happ

theorem applyOnDomain_ne_error {e : Fault} (hfnc : ∀ h b l u, fnc h b l u ≠ .error e) (u : σ) :
    h.applyOnDomain fnc u ≠ .error e := by
  refine bind_ne_error ?_ fun a _ => by simp [pure, Except.pure]
  exact foldlM_ne_error (fun _ => True) (fun _ _ _ _ _ => trivial)
    (fun ds s _ => domainByte_ne_error hfnc ds s) trivial

end Domain

/-! ## The lookup tree -/

section LookupTree
variable {suffix : List UInt8} {rena : Rena} {type : ClientType} {peer : Option HttpMessage}

theorem lookupTree_adjustDomainProperty (hok : h.adjustDomainProperty suffix = .ok h') :
    h'.lookupTree = h.lookupTree := by
  rw [adjustDomainProperty, bind_eq_ok] at hok
  obtain ⟨⟨h₀, n⟩, -, hok⟩ := hok
  rw [bind_eq_ok] at hok
  obtain ⟨⟨h₁, u⟩, hpass, hok⟩ := hok
  obtain rfl := Except.ok.inj hok
  refine applyOnDomain_invariant (fun x => x.lookupTree = h.lookupTree) ?_ ?_ hpass
  · intro x b e u x' u' hx hcopy
    unfold copySuffix at hcopy
    split at hcopy
    · cases hcopy
    · obtain ⟨rfl, -⟩ := Prod.mk.inj (Except.ok.inj hcopy)
      exact hx
  · split <;> simp

theorem lookupTree_recordHeaders (hok : h.recordHeaders = .ok h') :
    h'.lookupTree = h.lookupTree := by
  unfold recordHeaders at hok
  split at hok
  · rw [Except.ok.inj hok]
  · dsimp only at hok
    split at hok
    · obtain rfl := Except.ok.inj hok
      exact lookupTree_processHeadersAndGetPayload h
    · cases hok

theorem contentLengthValue_frame {clv : ℤ} (hok : h.contentLengthValue = .ok (h', clv)) :
    ∃ e, h' = { h with expectedPayload := e } := by
  unfold contentLengthValue at hok
  cases hf : h.findHeader headerContentLength with
  | none =>
      rw [hf] at hok
      obtain ⟨rfl, -⟩ := Prod.mk.inj (Except.ok.inj hok)
      exact ⟨_, rfl⟩
  | some hr =>
      rw [hf] at hok
      dsimp only at hok
      generalize (if h.expectedPayload < 0 then h.announced hr else h.expectedPayload) = e at hok
      by_cases he : e < 0
      · rw [if_pos he] at hok
        obtain ⟨rfl, -⟩ := Prod.mk.inj (Except.ok.inj hok)
        exact ⟨_, rfl⟩
      · rw [if_neg he] at hok
        cases hp : h.payload with
        | none => simp [hp] at hok
        | some payload =>
            rw [hp] at hok
            obtain ⟨rfl, -⟩ := Prod.mk.inj (Except.ok.inj hok)
            exact ⟨_, rfl⟩

/-- Reading the content length changes the expected total and nothing else. -/
theorem adjustExpectPayload_frame (hok : h.adjustExpectPayload = .ok h') :
    ∃ e, h' = { h with expectedPayload := e } := by
  unfold adjustExpectPayload at hok
  split at hok
  · obtain rfl := Except.ok.inj hok
    exact ⟨_, rfl⟩
  · rw [bind_eq_ok] at hok
    obtain ⟨⟨h₁, clv⟩, h₁ok, hok⟩ := hok
    obtain ⟨e₁, rfl⟩ := contentLengthValue_frame h₁ok
    dsimp only at hok
    split at hok
    · rw [bind_eq_ok] at hok
      obtain ⟨⟨h₂, clv₂⟩, h₂ok, hok⟩ := hok
      obtain ⟨e₂, rfl⟩ := contentLengthValue_frame h₂ok
      obtain rfl := Except.ok.inj hok
      exact ⟨e₂, rfl⟩
    · obtain rfl := Except.ok.inj hok
      exact ⟨e₁, rfl⟩

/-- Everything the removal of a header can do. -/
theorem findAndRemoveHeader_cases {hdr : List UInt8} (hok : h.findAndRemoveHeader hdr = .ok h') :
    (h.findHeader hdr = none ∧ h' = h) ∨
    ∃ found payload, h.findHeader hdr = some found ∧ h.payload = some payload ∧
      let next := h.nextHeader found payload
      let diff := next - (h.header found).1
      next ≤ h.buffer.length ∧ diff < h.buffer.length ∧
      h' = { h.splice (h.header found).1 next [] with
        headers := h.headers.map fun hs =>
          hs.take found ++ (hs.drop (found + 1)).map fun e => (e.1 - diff, e.2)
        headersUsed := h.headersUsed - 1
        payload := some (payload - diff) } := by
  unfold findAndRemoveHeader at hok
  cases hf : h.findHeader hdr with
  | none =>
      rw [hf] at hok
      exact .inl ⟨rfl, (Except.ok.inj hok).symm⟩
  | some found =>
      cases hp : h.payload with
      | none => simp [hf, hp] at hok
      | some payload =>
          rw [hf, hp] at hok
          dsimp only at hok
          by_cases hmove : h.buffer.length < h.nextHeader found payload
          · simp [hmove] at hok
          · rw [if_neg hmove] at hok
            by_cases hempty : h.buffer.length ≤ h.nextHeader found payload - (h.header found).1
            · simp [hempty] at hok
            · rw [if_neg hempty] at hok
              exact .inr ⟨found, payload, rfl, rfl, not_lt.mp hmove, not_le.mp hempty,
                (Except.ok.inj hok).symm⟩

theorem lookupTree_findAndRemoveHeader {hdr : List UInt8}
    (hok : h.findAndRemoveHeader hdr = .ok h') : h'.lookupTree = h.lookupTree := by
  rcases findAndRemoveHeader_cases hok with ⟨-, rfl⟩ | ⟨found, payload, -, -, -, -, rfl⟩ <;> rfl

theorem lookupTree_removeHeaders (hok : h.removeHeaders type = .ok h') :
    h'.lookupTree = h.lookupTree := by
  cases type <;>
  · rw [removeHeaders, bind_eq_ok] at hok
    obtain ⟨h₁, h₁ok, hok⟩ := hok
    rw [lookupTree_findAndRemoveHeader hok, lookupTree_findAndRemoveHeader h₁ok]

/-- The payload gets a context, and this is all that happens then. -/
theorem checkToDisableTransformations_frame
    (hok : h.checkToDisableTransformations peer = .ok h') :
    ∃ c, h' = { h with lookupTree := { h.lookupTree with context := some c } } := by
  unfold checkToDisableTransformations at hok
  dsimp only at hok
  split at hok
  · exact ⟨_, (Except.ok.inj hok).symm⟩
  · split at hok
    · exact ⟨_, (Except.ok.inj hok).symm⟩
    · split at hok
      · cases hok
      · exact ⟨_, (Except.ok.inj hok).symm⟩

theorem lookupTree_reserve (h : HttpMessage) : h.reserve.lookupTree = h.lookupTree := by
  unfold reserve
  split
  · dsimp only
    split <;> simp
  · rfl

/-- The stages of header processing, when there is a payload. -/
theorem evaluateHeaders_stages (hok : h.evaluateHeaders rena type peer = .ok h') :
    (h.payload.isSome ∧ h' = h) ∨
    (h.payload = none ∧ h.processHeadersAndGetPayload.2.payload = none ∧
      h' = { h.processHeadersAndGetPayload.1 with
        headersUsed := h.processHeadersAndGetPayload.2.headers.length }) ∨
    (h.payload = none ∧ ∃ payload h₁ h₂ h₃ h₄,
      h.processHeadersAndGetPayload.2.payload = some payload ∧
      adjustDomainProperty rena.suffix { h.processHeadersAndGetPayload.1 with
        headersUsed := h.processHeadersAndGetPayload.2.headers.length
        payload := some payload } = .ok h₁ ∧
      h₁.recordHeaders = .ok h₂ ∧ h₂.adjustExpectPayload = .ok h₃ ∧
      h₃.removeHeaders type = .ok h₄ ∧
      h₄.reserve.checkToDisableTransformations peer = .ok h') := by
  unfold evaluateHeaders at hok
  by_cases hp : h.payload.isSome
  · rw [if_pos hp] at hok
    exact .inl ⟨hp, (Except.ok.inj hok).symm⟩
  · have hnone : h.payload = none := by simpa using hp
    rw [if_neg hp] at hok
    dsimp only at hok
    cases hpay : h.processHeadersAndGetPayload.2.payload with
    | none =>
        rw [hpay] at hok
        exact .inr (.inl ⟨hnone, rfl, (Except.ok.inj hok).symm⟩)
    | some payload =>
        rw [hpay] at hok
        dsimp only at hok
        simp only [bind_eq_ok] at hok
        obtain ⟨h₁, ok₁, h₂, ok₂, h₃, ok₃, h₄, ok₄, hok⟩ := hok
        exact .inr (.inr ⟨hnone, payload, h₁, h₂, h₃, h₄, rfl, ok₁, ok₂, ok₃, ok₄, hok⟩)

/-- **Header processing changes the context of the lookup tree and nothing else of it.** -/
theorem lookupTree_evaluateHeaders (hok : h.evaluateHeaders rena type peer = .ok h') :
    ∃ c, h'.lookupTree = { h.lookupTree with context := c } := by
  rcases evaluateHeaders_stages hok with ⟨-, rfl⟩ | ⟨-, -, rfl⟩ |
    ⟨-, payload, h₁, h₂, h₃, h₄, -, ok₁, ok₂, ok₃, ok₄, hok⟩
  · exact ⟨_, rfl⟩
  · exact ⟨h.lookupTree.context, lookupTree_processHeadersAndGetPayload h⟩
  · obtain ⟨c, rfl⟩ := checkToDisableTransformations_frame hok
    obtain ⟨e, rfl⟩ := adjustExpectPayload_frame ok₃
    have h₄tree : h₄.lookupTree = h.lookupTree := by
      rw [lookupTree_removeHeaders ok₄]
      change h₂.lookupTree = _
      rw [lookupTree_recordHeaders ok₂, lookupTree_adjustDomainProperty ok₁]
      exact lookupTree_processHeadersAndGetPayload h
    exact ⟨some c, by rw [lookupTree_reserve, h₄tree]⟩

end LookupTree

/-! ## The faults -/

section Faults

/-- All that header processing can fail with. -/
def headerFaults : List Fault :=
  [.emptyBuffer, .negativeMove, .nullPayload, .headerTable, .missingHeader]

variable {e : Fault} (he : e ∉ headerFaults)
include he

private theorem contentLengthValue_ne (h : HttpMessage) : h.contentLengthValue ≠ .error e := by
  have hnull : Fault.nullPayload ≠ e := fun h => he (h ▸ by decide)
  unfold contentLengthValue
  cases h.findHeader headerContentLength with
  | none => simp
  | some hr => cases h.payload <;> exact ite_ne_error (by simp) (by simp [hnull])

private theorem findAndRemoveHeader_ne (h : HttpMessage) (hdr : List UInt8) :
    h.findAndRemoveHeader hdr ≠ .error e := by
  have hnull : Fault.nullPayload ≠ e := fun h => he (h ▸ by decide)
  have hmove : Fault.negativeMove ≠ e := fun h => he (h ▸ by decide)
  have hempty : Fault.emptyBuffer ≠ e := fun h => he (h ▸ by decide)
  unfold findAndRemoveHeader
  cases h.findHeader hdr with
  | none => simp
  | some found =>
      cases h.payload with
      | none => simpa using hnull
      | some payload =>
          exact ite_ne_error (by simpa using hmove) (ite_ne_error (by simpa using hempty) (by simp))

private theorem adjustDomainProperty_ne (suffix : List UInt8) (h : HttpMessage) :
    h.adjustDomainProperty suffix ≠ .error e := by
  have hmove : Fault.negativeMove ≠ e := fun h => he (h ▸ by decide)
  refine bind_ne_error (applyOnDomain_ne_error (fun _ _ _ _ => by simp [sizeNeedForSuffix]) _)
    fun _ _ => bind_ne_error (applyOnDomain_ne_error (fun _ _ _ _ => ?_) _) fun _ _ => ?_
  · exact ite_ne_error (by simpa using hmove) (by simp)
  · simp [pure, Except.pure]

private theorem adjustExpectPayload_ne (h : HttpMessage) : h.adjustExpectPayload ≠ .error e := by
  refine ite_ne_error (by simp [pure, Except.pure])
    (bind_ne_error (contentLengthValue_ne he h) ?_)
  intro a _
  exact ite_ne_error
    (bind_ne_error (contentLengthValue_ne he _) fun _ _ => by simp [pure, Except.pure])
    (by simp [pure, Except.pure])

private theorem checkToDisableTransformations_ne (peer : Option HttpMessage) (h : HttpMessage) :
    h.checkToDisableTransformations peer ≠ .error e := by
  have hmissing : Fault.missingHeader ≠ e := fun h => he (h ▸ by decide)
  unfold checkToDisableTransformations
  cases h.findHeader headerContentType with
  | some hr => simp
  | none =>
      cases peer with
      | none => simp
      | some pprot => cases hf : pprot.findHeader headerAccept <;> simp [hf, hmissing]

/-- Neither the abort of the matcher nor an overrun is a fault of header processing. -/
theorem evaluateHeaders_ne_error (rena : Rena) (type : ClientType)
    (peer : Option HttpMessage) (h : HttpMessage) :
    h.evaluateHeaders rena type peer ≠ .error e := by
  have htable : Fault.headerTable ≠ e := fun h => he (h ▸ by decide)
  refine ite_ne_error (by simp [pure, Except.pure]) ?_
  dsimp only
  cases h.processHeadersAndGetPayload.2.payload with
  | none => simp [pure, Except.pure]
  | some payload =>
      refine bind_ne_error (adjustDomainProperty_ne he _ _) fun h₁ _ => bind_ne_error ?_
        fun h₂ _ => bind_ne_error (adjustExpectPayload_ne he h₂) fun h₃ _ => bind_ne_error ?_
        fun h₄ _ => checkToDisableTransformations_ne he _ _
      · exact ite_ne_error (by simp) (ite_ne_error (by simp) (by simpa using htable))
      · cases type <;>
          exact bind_ne_error (findAndRemoveHeader_ne he _ _)
            fun _ _ => findAndRemoveHeader_ne he _ _

end Faults

end HttpMessage

end RenaProxy
