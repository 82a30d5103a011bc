import RenaProxy.Http.Removal
import RenaProxy.Http.Domains
import RenaProxy.Http.Reads

/-!
# Choosing what to transform

`check_to_disable_transformations` reads the content type of a response or, if there is
none, what the request accepts. `checked` is the message that it is called with.
`copyHeaderCalls_iff` says when the headers that it copies are there, and for blocks
without cookie domains this is a matter of their fields.
-/
namespace RenaProxy
open Failure

namespace HttpMessage
open HeaderBlock
variable {h r : HttpMessage} {rena : Rena} {type : ClientType} {peer : Option HttpMessage}
  {firstLine body name rest : List UInt8} {fields : List HeaderField}

/-- The message that `http_evaluate_headers` calls `check_to_disable_transformations` with,
if it comes to that. -/
def checked (rena : Rena) (type : ClientType) (h : HttpMessage) : Option HttpMessage :=
  if h.payload.isSome then none
  else
    let (h, scan) := h.processHeadersAndGetPayload
    scan.payload.bind fun payload =>
      let r : Except Fault HttpMessage := do
        let h ← adjustDomainProperty rena.suffix
          { h with headersUsed := scan.headers.length, payload := some payload }
        let h ← h.recordHeaders
        let h ← h.adjustExpectPayload
        let h ← h.removeHeaders type
        pure h.reserve
      r.toOption

/-- How the message got there. -/
theorem of_checked (hr : h.checked rena type = some r) :
    h.payload = none ∧ ∃ payload h₁ h₂ h₃ h₄,
      h.processHeadersAndGetPayload.2.payload = some payload ∧
      adjustDomainProperty rena.suffix { h.processHeadersAndGetPayload.1 with
        headersUsed := h.processHeadersAndGetPayload.2.headers.length
        payload := some payload } = .ok h₁ ∧
      h₁.recordHeaders = .ok h₂ ∧ h₂.adjustExpectPayload = .ok h₃ ∧
      h₃.removeHeaders type = .ok h₄ ∧ h₄.reserve = r := by
  unfold checked at hr
  split at hr
  · cases hr
  · rename_i hp
    dsimp only at hr
    obtain ⟨payload, hpay, hr⟩ := Option.bind_eq_some_iff.mp hr
    rw [toOption_eq_some] at hr
    simp only [bind_eq_ok] at hr
    obtain ⟨h₁, ok₁, h₂, ok₂, h₃, ok₃, h₄, ok₄, hr⟩ := hr
    exact ⟨by simpa using hp, payload, h₁, h₂, h₃, h₄, hpay, ok₁, ok₂, ok₃, ok₄, Except.ok.inj hr⟩

/-- The choice for the payload is all that follows. -/
theorem evaluateHeaders_of_checked (hr : h.checked rena type = some r) :
    h.evaluateHeaders rena type peer = r.checkToDisableTransformations peer := by
  obtain ⟨hp, payload, h₁, h₂, h₃, h₄, hpay, ok₁, ok₂, ok₃, ok₄, rfl⟩ := of_checked hr
  rw [evaluateHeaders, hp]
  simp only [Option.isSome_none, Bool.false_eq_true, if_false, hpay, ok₁, ok₂, ok₃, ok₄, bind_ok]

/-- The struct and the index of each call of `copy_header` that
`check_to_disable_transformations` makes. -/
def copyHeaderCalls (peer : Option HttpMessage) (h : HttpMessage) : List (HttpMessage × ℤ) :=
  match h.findHeader headerContentType with
  | some hr => [(h, hr)]
  | none =>
      match peer with
      | none => []
      | some pprot =>
          match pprot.findHeader headerAccept with
          | none => [(pprot, -1)]
          | some phr => [(pprot, phr)]

/-- An entry of the table points at a header with the name. -/
def HasHeader (h : HttpMessage) (name : List UInt8) : Prop :=
  ∃ e ∈ (h.headers.getD []).take h.headersUsed,
    (h.bytesAt e.1 name.length).map tolower = name.map tolower ∧
      h.byteAt (e.1 + name.length) = colon

instance (h : HttpMessage) (name : List UInt8) : Decidable (h.HasHeader name) :=
  inferInstanceAs (Decidable (∃ e ∈ _, _))

theorem hasHeader_iff : h.HasHeader name ↔ ∃ i, h.findHeader name = some i := by
  rw [← Option.isSome_iff_exists, findHeader, List.findIdx?_isSome, List.any_eq_true, HasHeader]
  simp only [decide_eq_true_eq, and_comm]

theorem lt_of_findHeader {i : ℕ} (hi : h.findHeader name = some i) : i < h.headersUsed := by
  have hlt : i < ((h.headers.getD []).take h.headersUsed).length :=
    (List.findIdx?_eq_some_iff_findIdx_eq.mp hi).1
  exact hlt.trans_le (List.length_take_le _ _)

/-- The header that a call copies is in the table. -/
def Indexes (c : HttpMessage × ℤ) : Prop := 0 ≤ c.2 ∧ c.2 < c.1.headersUsed

instance (c : HttpMessage × ℤ) : Decidable (Indexes c) := inferInstanceAs (Decidable (_ ∧ _))

theorem indexes_of_findHeader {i : ℕ} (hi : h.findHeader name = some i) : Indexes (h, (i : ℤ)) :=
  ⟨Int.natCast_nonneg i, Int.ofNat_lt.mpr (lt_of_findHeader hi)⟩

/-- Without a peer all is well, and with one it takes one of the two headers. -/
theorem copyHeaderCalls_indexes (peer : Option HttpMessage) (h : HttpMessage) :
    (∀ c ∈ copyHeaderCalls peer h, Indexes c) ↔
      h.HasHeader headerContentType ∨ ∀ pprot ∈ peer, pprot.HasHeader headerAccept := by
  unfold copyHeaderCalls
  cases hf : h.findHeader headerContentType with
  | some i =>
      have hall : ∀ c ∈ [(h, (i : ℤ))], Indexes c := by
        simpa using indexes_of_findHeader hf
      exact iff_of_true hall (.inl (hasHeader_iff.mpr ⟨i, hf⟩))
  | none =>
      have habsent : ¬ h.HasHeader headerContentType := by
        rw [hasHeader_iff, hf]
        simp
      simp only [habsent, false_or]
      cases peer with
      | none => simp
      | some pprot =>
          simp only [Option.mem_def, Option.some.injEq, forall_eq', hasHeader_iff]
          cases hp : pprot.findHeader headerAccept with
          | none => simp [Indexes]
          | some i => simpa using indexes_of_findHeader hp

/-- `check_to_disable_transformations` comes to its end if and only if the headers that its calls
copy are in their tables. -/
theorem exists_checkToDisableTransformations_iff (peer : Option HttpMessage) (h : HttpMessage) :
    (∃ h', h.checkToDisableTransformations peer = .ok h') ↔
      ∀ c ∈ copyHeaderCalls peer h, Indexes c := by
  rw [copyHeaderCalls_indexes, hasHeader_iff]
  unfold checkToDisableTransformations
  cases hf : h.findHeader headerContentType with
  | some i => simp
  | none =>
      cases peer with
      | none => simp
      | some pprot =>
          simp only [Option.mem_def, Option.some.injEq, forall_eq', hasHeader_iff]
          cases pprot.findHeader headerAccept <;> simp

/-! ## Blocks without cookie domains -/

/-- No cookie domain in a block, as it is when the pass over them starts. -/
def NoCookieDomain (b : HeaderBlock) : Prop :=
  ∀ key, IsDomainKey key → ¬ key <:+: b.downgrade.text

theorem firstValue_of_noCookieDomain {x : List UInt8} (h : ∀ key, IsDomainKey key → ¬ key <:+: x) :
    domainScanner.firstValue 0 x = none := by
  cases hf : domainScanner.firstValue 0 x with
  | none => rfl
  | some r =>
      obtain ⟨b, e⟩ := r
      obtain ⟨y, key, v, t, w, hx, -, hkey, -⟩ :=
        (Keyword.Scanner.firstValue_eq_some_iff (Nat.succ_pos _)).mp hf
      exact absurd ⟨y, v ++ t :: w, by rw [hx]; simp⟩ (h key (spells_iff.mp hkey))

/-- Without a cookie domain the two passes leave the message as it is. -/
theorem adjustDomainProperty_of_none {suffix : List UInt8}
    (hnone : domainScanner.firstValue 0 (h.bytesAt 0 (h.payload.getD 0)) = none) :
    h.adjustDomainProperty suffix = .ok h := by
  have hpass : ∀ {σ : Type} (f : HttpMessage → ℕ → ℕ → σ → Except Fault (HttpMessage × σ)) (u : σ),
      h.applyOnDomain f u = .ok (h, u) := by
    intro σ f u
    obtain ⟨k, start, hrun⟩ := domainSpan_none (f := f) (u := u) (Nat.zero_le _) hnone
    rw [applyOnDomain_eq, hrun, bind_ok]
  rw [adjustDomainProperty, hpass, bind_ok]
  dsimp only
  rw [if_neg (lt_irrefl 0), hpass, bind_ok]
  rfl

theorem adjustExpectPayload_of_payload {payload : ℕ} (hp : h.payload = some payload) :
    ∃ e, h.adjustExpectPayload = .ok { h with expectedPayload := e } := by
  have hvalue : ∀ {x : HttpMessage}, x.payload = some payload →
      ∃ e clv, x.contentLengthValue = .ok ({ x with expectedPayload := e }, clv) := by
    intro x hx
    unfold contentLengthValue
    cases x.findHeader headerContentLength with
    | none => exact ⟨x.expectedPayload, -1, rfl⟩
    | some hr =>
        dsimp only
        generalize (if x.expectedPayload < 0 then x.announced hr else x.expectedPayload) = e
        by_cases he : e < 0
        · exact ⟨e, 0, if_pos he⟩
        · rw [if_neg he, hx]
          exact ⟨_, _, rfl⟩
  unfold adjustExpectPayload
  split
  · exact ⟨h.expectedPayload, rfl⟩
  · obtain ⟨e, clv, hok⟩ := hvalue hp
    rw [hok, bind_ok]
    dsimp only
    split
    · obtain ⟨e', clv', hok'⟩ := hvalue (x := { h with expectedPayload := e }) hp
      rw [hok', bind_ok]
      exact ⟨e', rfl⟩
    · exact ⟨e, rfl⟩

theorem reserve_eq (h : HttpMessage) : ∃ n, h.reserve = { h with totalBlock := n } := by
  have hgrow : ∀ olen, ∃ n, h.reallocationProtocol olen = { h with totalBlock := n } := by
    intro olen
    unfold reallocationProtocol
    dsimp only
    split
    · exact ⟨_, rfl⟩
    · exact ⟨h.totalBlock, rfl⟩
  unfold reserve
  split
  · dsimp only
    split
    · exact hgrow _
    · exact ⟨h.totalBlock, rfl⟩
  · exact ⟨h.totalBlock, rfl⟩

/-- A block without cookie domains comes to the check with all its headers but those that
are removed. -/
theorem checked_of_block (b : HeaderBlock) (hb : h.buffer = b.text ++ rest) (hp : h.payload = none)
    (hh : h.headers = none) (hcookie : NoCookieDomain b) :
    ∃ r, h.checked rena type = some r ∧
      Parsed r (downgradeLine b.firstLine) (strip (removedHeaders type) b.fields) rest := by
  have hscan := processHeadersAndGetPayload_of_block b hb
  set h₀ : HttpMessage := { h with
    buffer := b.downgrade.text ++ rest, headersUsed := b.entries.length
    payload := some b.text.length } with hh₀
  have hbuffer : h₀.buffer = b.downgrade.text ++ rest := rfl
  have hagain := processHeadersAndGetPayload_of_block b.downgrade hbuffer
  rw [HeaderBlock.downgrade_downgrade, HeaderBlock.entries_downgrade,
    HeaderBlock.length_text_downgrade] at hagain
  have hdomain : h₀.adjustDomainProperty rena.suffix = .ok h₀ := by
    refine adjustDomainProperty_of_none ?_
    have hbytes : h₀.bytesAt 0 b.text.length = b.downgrade.text := by
      have := bytesAt_of_append (h := h₀) (x := []) (l := b.downgrade.text) (z := rest) rfl
      rwa [HeaderBlock.length_text_downgrade] at this
    exact (congrArg _ hbytes).trans (firstValue_of_noCookieDomain hcookie)
  have hrecord : h₀.recordHeaders = .ok { h₀ with headers := some b.entries } := by
    rw [recordHeaders, if_neg (by simp [hh₀, hh]), hagain]
    exact if_pos rfl
  obtain ⟨e, hexpect⟩ := adjustExpectPayload_of_payload (h := { h₀ with headers := some b.entries })
    (show _ = some b.text.length from rfl)
  have hparsed : Parsed { h₀ with headers := some b.entries, expectedPayload := e }
      (downgradeLine b.firstLine) b.fields rest := by
    refine ⟨rfl, ?_, ?_, ?_⟩
    · rw [length_downgradeLine]
      rfl
    · exact length_entriesFrom _ _
    · rw [length_downgradeLine]
      simp [hh₀, HeaderBlock.text, delim]
      omega
  obtain ⟨h₄, hremove, hparsed₄⟩ := removeHeaders_parsed type hparsed
  obtain ⟨n, hreserve⟩ := reserve_eq h₄
  refine ⟨h₄.reserve, ?_, ?_⟩
  · rw [checked, hp]
    simp only [Option.isSome_none, Bool.false_eq_true, if_false, hscan, Option.bind_some]
    rw [show adjustDomainProperty rena.suffix _ = _ from hdomain, bind_ok, hrecord, bind_ok,
      hexpect, bind_ok, hremove, bind_ok]
    rfl
  · rw [hreserve]
    exact ⟨hparsed₄.buffer, hparsed₄.headers, hparsed₄.headersUsed, hparsed₄.payload⟩

theorem Parsed.hasHeader_iff (H : Parsed h firstLine fields body) (hname : PlainLine name) :
    h.HasHeader name ↔ ∃ f ∈ fields, f.HasName name := by
  rw [HttpMessage.hasHeader_iff, H.findHeader hname, ← Option.isSome_iff_exists,
    List.findIdx?_isSome, List.any_eq_true]
  simp

/-- A name that is none of those removed stays or was not there. -/
theorem mem_strip_iff {names : List (List UInt8)}
    (hother : ∀ n ∈ names, ∀ f : HeaderField, f.HasName n → ¬ f.HasName name) :
    (∃ f ∈ strip names fields, f.HasName name) ↔ ∃ f ∈ fields, f.HasName name := by
  induction names generalizing fields with
  | nil => rfl
  | cons n names ih =>
      obtain ⟨hn, hnames⟩ := List.forall_mem_cons.mp hother
      rw [strip, List.foldl_cons]
      refine (ih hnames).trans ⟨?_, ?_⟩
      · rintro ⟨f, hf, hname⟩
        exact ⟨f, List.mem_of_mem_eraseP hf, hname⟩
      · rintro ⟨f, hf, hname⟩
        exact ⟨f, (List.mem_eraseP_of_neg (by simpa using fun hfn => hn f hfn hname)).mpr hf, hname⟩

theorem hasName_ne {n m : List UInt8} (h : n.map tolower ≠ m.map tolower ∧ colon ∉ n ∧ colon ∉ m)
    (f : HeaderField) (hn : f.HasName n) : ¬ f.HasName m :=
  fun hm => h.1 (hn.eq hm h.2.1 h.2.2)

/-- **When deciding about transformations stays in the tables.** A request is processed
first, with no peer yet; more may be read of it; then a response is processed. All
headers copied are there exactly when the response has a content type or the request
says what it accepts. For blocks without cookie domains these are fields of theirs. -/
theorem copyHeaderCalls_iff (rena : Rena) (req resp r₁ req' p r₂ : HttpMessage)
    (text : List UInt8) (hreq : req.checked rena .requester = some r₁)
    (heval : req.evaluateHeaders rena .requester none = .ok req') (hlater : Appended req' p text)
    (hresp : resp.checked rena .victim = some r₂) :
    ((∀ c ∈ copyHeaderCalls none r₁ ++ copyHeaderCalls (some p) r₂, Indexes c) ↔
      r₂.HasHeader headerContentType ∨ p.HasHeader headerAccept) ∧
    ∀ (b₁ b₂ : HeaderBlock) (rest₁ rest₂ : List UInt8), req.buffer = b₁.text ++ rest₁ →
      resp.buffer = b₂.text ++ rest₂ → req.headers = none → resp.headers = none →
      NoCookieDomain b₁ → NoCookieDomain b₂ →
      ((∀ c ∈ copyHeaderCalls none r₁ ++ copyHeaderCalls (some p) r₂, Indexes c) ↔
        (∃ f ∈ b₂.fields, f.HasName headerContentType) ∨
          ∃ f ∈ b₁.fields, f.HasName headerAccept) := by
  have hcalls : (∀ c ∈ copyHeaderCalls none r₁ ++ copyHeaderCalls (some p) r₂, Indexes c) ↔
      r₂.HasHeader headerContentType ∨ p.HasHeader headerAccept := by
    have hfirst := (copyHeaderCalls_indexes none r₁).mpr (.inr fun _ h => by cases h)
    have hsecond := copyHeaderCalls_indexes (some p) r₂
    simp only [Option.mem_def, Option.some.injEq, forall_eq'] at hsecond
    rw [← hsecond, List.forall_mem_append]
    exact and_iff_right hfirst
  refine ⟨hcalls, ?_⟩
  intro b₁ b₂ rest₁ rest₂ hb₁ hb₂ hh₁ hh₂ hc₁ hc₂
  obtain ⟨r, hr, H₁⟩ : ∃ r, _ = some r ∧ Parsed r _ (strip (removedHeaders .requester) _) _ :=
    checked_of_block b₁ hb₁ (of_checked hreq).1 hh₁ hc₁
  obtain rfl : r = r₁ := Option.some.inj (hr.symm.trans hreq)
  obtain ⟨r', hr', H₂⟩ : ∃ r, _ = some r ∧ Parsed r _ (strip (removedHeaders .victim) _) _ :=
    checked_of_block b₂ hb₂ (of_checked hresp).1 hh₂ hc₂
  obtain rfl : r' = r₂ := Option.some.inj (hr'.symm.trans hresp)
  have hp : Parsed p (downgradeLine b₁.firstLine) (strip (removedHeaders .requester) b₁.fields)
      (rest₁ ++ text) := by
    rw [evaluateHeaders_of_checked hreq] at heval
    obtain ⟨c, rfl⟩ := checkToDisableTransformations_frame heval
    refine ⟨?_, hlater.headers.trans H₁.headers, hlater.headersUsed.trans H₁.headersUsed,
      hlater.payload.trans H₁.payload⟩
    rw [hlater.buffer, ← List.append_assoc]
    exact congrArg (· ++ text) H₁.buffer
  rw [hcalls, H₂.hasHeader_iff (by decide +kernel), hp.hasHeader_iff (by decide +kernel),
    mem_strip_iff, mem_strip_iff]
  · intro n hn
    rcases List.mem_cons.mp hn with rfl | hn
    · exact hasName_ne (by decide +kernel)
    · obtain rfl := List.mem_singleton.mp hn
      exact hasName_ne (by decide +kernel)
  · intro n hn
    rcases List.mem_cons.mp hn with rfl | hn
    · exact hasName_ne (by decide +kernel)
    · obtain rfl := List.mem_singleton.mp hn
      exact hasName_ne (by decide +kernel)

/-- A proxy without rules and suffix. -/
def plainRena : Rena := ⟨[], .null, .null, .null⟩

/-- The struct that a text was read into. -/
def holding (type : ClientType) (text : List UInt8) : HttpMessage :=
  { HttpMessage.create plainRena type with buffer := text }

/-- It when its header block has been processed. -/
def processed (type : ClientType) (text : List UInt8) : HttpMessage :=
  ((holding type text).checked plainRena type).getD (holding type text)

/-- A request that says nothing of what it accepts, and a response without content type. -/
def bareRequest : List UInt8 := chars "GET / HTTP/1.0\r\nHost: a\r\n\r\n"
def bareResponse : List UInt8 := chars "HTTP/1.0 200 OK\r\nServer: s\r\n\r\n"

/-- The request's struct while the response is processed. -/
def bareEvaluated : HttpMessage :=
  ((processed .requester bareRequest).checkToDisableTransformations none).toOption.getD
    (holding .requester bareRequest)

theorem copyHeaderCalls_iff_bare :
    ((∀ c ∈ copyHeaderCalls none (processed .requester bareRequest) ++
        copyHeaderCalls (some bareEvaluated) (processed .victim bareResponse), Indexes c) ↔
      (processed .victim bareResponse).HasHeader headerContentType ∨
        bareEvaluated.HasHeader headerAccept) ∧
    ∀ (b₁ b₂ : HeaderBlock) (rest₁ rest₂ : List UInt8),
      (holding .requester bareRequest).buffer = b₁.text ++ rest₁ →
      (holding .victim bareResponse).buffer = b₂.text ++ rest₂ →
      (holding .requester bareRequest).headers = none →
      (holding .victim bareResponse).headers = none → NoCookieDomain b₁ → NoCookieDomain b₂ →
      ((∀ c ∈ copyHeaderCalls none (processed .requester bareRequest) ++
          copyHeaderCalls (some bareEvaluated) (processed .victim bareResponse), Indexes c) ↔
        (∃ f ∈ b₂.fields, f.HasName headerContentType) ∨
          ∃ f ∈ b₁.fields, f.HasName headerAccept) :=
  copyHeaderCalls_iff plainRena _ _ _ bareEvaluated _ _ [] (by decide +kernel)
    (by decide +kernel) ⟨by simp, rfl, rfl, rfl, rfl⟩ (by decide +kernel)

/-- For these two the index -1 is used with the request's table. -/
theorem not_copyHeaderCalls :
    ¬ ∀ (rena : Rena) (req resp r₁ req' r₂ : HttpMessage),
      req.checked rena .requester = some r₁ →
      req.evaluateHeaders rena .requester none = .ok req' → resp.checked rena .victim = some r₂ →
      ∀ c ∈ copyHeaderCalls none r₁ ++ copyHeaderCalls (some req') r₂, Indexes c := by
  intro h
  have := h plainRena (holding .requester bareRequest) (holding .victim bareResponse)
    (processed .requester bareRequest) bareEvaluated (processed .victim bareResponse)
    (by decide +kernel) (by decide +kernel) (by decide +kernel)
  exact absurd this (by decide +kernel)

end HttpMessage

end RenaProxy
