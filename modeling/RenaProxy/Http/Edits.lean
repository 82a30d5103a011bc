import RenaProxy.Http.HeaderFrame

/-!
# Where header processing edits the buffer

`http_evaluate_headers` changes the version on the first line, puts the suffix in place
of cookie domains and removes headers, all in the buffer that another thread may be
sending. `editPlaces` lists the offsets where these edits start, and
`keeps_evaluateHeaders` says that the bytes before all of them stay.
-/
namespace RenaProxy
open Failure

namespace HttpMessage
variable {h h₁ h₂ : HttpMessage} {k : ℕ}

/-- The first `k` bytes of a buffer are still there in another one. -/
structure Keeps (k : ℕ) (h h' : HttpMessage) : Prop where
  le_length : k ≤ h'.buffer.length
  take_eq : h'.buffer.take k = h.buffer.take k

theorem keeps_refl (hk : k ≤ h.buffer.length) : Keeps k h h := ⟨hk, rfl⟩

theorem keeps_of_buffer_eq (hk : k ≤ h.buffer.length) (hb : h₁.buffer = h.buffer) : Keeps k h h₁ :=
  ⟨by rwa [hb], by rw [hb]⟩

theorem Keeps.trans (a : Keeps k h h₁) (b : Keeps k h₁ h₂) : Keeps k h h₂ :=
  ⟨b.le_length, b.take_eq.trans a.take_eq⟩

theorem Keeps.of_le {n : ℕ} (a : Keeps n h h₁) (hk : k ≤ n) : Keeps k h h₁ := by
  refine ⟨hk.trans a.le_length, ?_⟩
  have := congrArg (List.take k) a.take_eq
  rwa [List.take_take, List.take_take, min_eq_left hk] at this

/-- Bytes that make way from `b` on leave those before `b` alone. -/
theorem keeps_splice (hk : k ≤ h.buffer.length) {b : ℕ} (hb : k ≤ b) (e : ℕ) (new : List UInt8) :
    Keeps k h (h.splice b e new) := by
  have hlen : k ≤ (h.buffer.take b).length := by
    rw [List.length_take]
    omega
  constructor
  · simp only [splice, List.length_append]
    omega
  · simp only [splice]
    rw [List.append_assoc, List.take_append_of_le_length hlen, List.take_take, min_eq_left hb]

/-! ## The version -/

/-- The offsets of the delimiters among the first `n` bytes. -/
def delims (h : HttpMessage) (n : ℕ) : List ℕ :=
  (List.range n).filter fun i => h.buffer.getD i 0 ∈ delim

/-- The end of the first line, behind its second delimiter. -/
def firstLineEnd (h : HttpMessage) : Option ℕ := (h.delims h.buffer.length)[1]?.map (· + 1)

/-- Where the version is changed: at its minor number, unless this is 0 already. -/
def versionPlace (h : HttpMessage) : Option ℕ :=
  h.firstLineEnd.bind fun old =>
    if 10 ≤ old ∧ (h.buffer.drop (old - 10)).take 6 = chars "HTTP/1" ∧
      h.buffer.getD (old - 3) 0 ≠ 48 then some (old - 3) else none

theorem delims_succ (h : HttpMessage) (n : ℕ) :
    h.delims (n + 1) = h.delims n ++ if h.buffer.getD n 0 ∈ delim then [n] else [] := by
  rw [delims, List.range_succ, List.filter_append]
  congr 1
  by_cases hn : h.buffer.getD n 0 ∈ delim <;>
    simp only [List.filter_cons, List.filter_nil, hn, decide_true, decide_false, if_true, if_false,
      Bool.false_eq_true]

/-- Behind the first line the scan changes nothing. -/
private theorem scanByte_later {r : HttpMessage × Scan} (h₁ : r.2.state ≠ .firstLineFirstDelim)
    (h₂ : r.2.state ≠ .firstLineSecondDelim) (p : ℕ) :
    (scanByte r p).1 = r.1 ∧ (scanByte r p).2.state ≠ .firstLineFirstDelim ∧
      (scanByte r p).2.state ≠ .firstLineSecondDelim := by
  obtain ⟨m, sc⟩ := r
  dsimp only at h₁ h₂
  unfold scanByte
  split
  · exact ⟨rfl, h₁, h₂⟩
  · split
    · cases hs : sc.state with
      | firstLineFirstDelim => exact absurd hs h₁
      | firstLineSecondDelim => exact absurd hs h₂
      | headerSecondDelim =>
          simp only [scanDelim, hs]
          refine ⟨trivial, ?_, ?_⟩ <;> split <;> simp
      | headerFirstDelim => simp [scanDelim, hs]
      | headerThirdDelim => simp [scanDelim, hs]
      | headerDone => simp [scanDelim, hs]
    · exact ⟨rfl, h₁, h₂⟩

/-- How the scan stands by the delimiters that it came to. -/
theorem scan_delims (h : HttpMessage) (n : ℕ) : match h.delims n with
    | [] => (List.range n).foldl scanByte (h, .start) = (h, .start)
    | [_] => (List.range n).foldl scanByte (h, .start) =
        (h, { Scan.start with state := .firstLineSecondDelim })
    | _ :: p :: _ =>
        ((List.range n).foldl scanByte (h, .start)).1 = h.downgrade (p + 1) ∧
        ((List.range n).foldl scanByte (h, .start)).2.state ≠ .firstLineFirstDelim ∧
        ((List.range n).foldl scanByte (h, .start)).2.state ≠ .firstLineSecondDelim := by
  induction n with
  | zero => rfl
  | succ n ih =>
      rw [delims_succ, List.range_succ, List.foldl_append]
      generalize (List.range n).foldl scanByte (h, .start) = r at ih ⊢
      rw [List.foldl_cons, List.foldl_nil]
      match hd : h.delims n with
      | [] =>
          rw [hd] at ih
          dsimp only at ih
          subst ih
          by_cases hn : h.buffer.getD n 0 ∈ delim
          · simp only [hn, if_true, List.nil_append, scanByte, scanDelim, Scan.start,
              Option.isSome_none, Bool.false_eq_true, if_false]
          · simp only [hn, if_false, List.nil_append, scanByte, Scan.start,
              Option.isSome_none, Bool.false_eq_true]
      | [p] =>
          rw [hd] at ih
          dsimp only at ih
          subst ih
          by_cases hn : h.buffer.getD n 0 ∈ delim
          · simp only [hn, if_true, List.cons_append, List.nil_append, scanByte, scanDelim,
              Scan.start, Option.isSome_none, Bool.false_eq_true, if_false]
            simp
          · simp only [hn, if_false, List.append_nil, scanByte, Scan.start,
              Option.isSome_none, Bool.false_eq_true]
      | p :: p' :: ps =>
          rw [hd] at ih
          obtain ⟨hfst, hs₁, hs₂⟩ := ih
          obtain ⟨hfst', hlater⟩ := scanByte_later hs₁ hs₂ n
          exact ⟨hfst'.trans hfst, hlater⟩

/-- The scan does to the buffer what it does at the end of the first line. -/
theorem processHeadersAndGetPayload_fst (h : HttpMessage) :
    h.processHeadersAndGetPayload.1 = match h.firstLineEnd with
      | none => h
      | some old => h.downgrade old := by
  have hn := scan_delims h h.buffer.length
  rw [processHeadersAndGetPayload, firstLineEnd]
  match hd : h.delims h.buffer.length with
  | [] =>
      rw [hd] at hn
      exact congrArg Prod.fst hn
  | [p] =>
      rw [hd] at hn
      exact congrArg Prod.fst hn
  | p :: p' :: ps =>
      rw [hd] at hn
      exact hn.1

private theorem set_of_getD {xs : List UInt8} {i : ℕ} {a : UInt8} (ha : xs.getD i 0 = a) :
    xs.set i a = xs := by
  by_cases hi : i < xs.length
  · rw [List.getD_eq_getElem?_getD, List.getElem?_eq_getElem hi, Option.getD_some] at ha
    rw [← ha, List.set_getElem_self]
  · exact List.set_eq_of_length_le (not_lt.mp hi)

/-- The scan leaves the bytes before the version alone. -/
theorem keeps_processHeadersAndGetPayload (hk : k ≤ h.buffer.length)
    (hplace : ∀ p ∈ h.versionPlace, k ≤ p) : Keeps k h h.processHeadersAndGetPayload.1 := by
  rw [processHeadersAndGetPayload_fst]
  cases hold : h.firstLineEnd with
  | none => exact keeps_refl hk
  | some old =>
      dsimp only
      rw [downgrade]
      by_cases hversion : 10 ≤ old ∧ (h.buffer.drop (old - 10)).take 6 = chars "HTTP/1"
      · rw [if_pos hversion]
        have hmajor : h.buffer.getD (old - 5) 0 = 49 := by
          have hsix := (congrArg (fun l => l.getD 5 0) hversion.2).trans
            (show (chars "HTTP/1").getD 5 0 = 49 by decide)
          have hindex : old - 10 + 5 = old - 5 := by omega
          simpa [List.getD_eq_getElem?_getD, List.getElem?_take, List.getElem?_drop, hindex]
            using hsix
        rw [set_of_getD hmajor]
        by_cases hminor : h.buffer.getD (old - 3) 0 = 48
        · rw [set_of_getD hminor]
          exact keeps_refl hk
        · have hle : k ≤ old - 3 := hplace _ (by
            rw [versionPlace, hold, Option.bind_some,
              if_pos ⟨hversion.1, hversion.2, hminor⟩]
            rfl)
          exact ⟨by rwa [List.length_set], List.take_set_of_le hle⟩
      · rw [if_neg hversion]
        exact keeps_refl hk

/-! ## Cookie domains -/

/-- A function for `apply_on_domain` that only keeps where it was called first. -/
def keepFirst (h : HttpMessage) (first _last : ℕ) (u : Option ℕ) :
    Except Fault (HttpMessage × Option ℕ) := .ok (h, u.or (some first))

/-- Where the first cookie domain starts. -/
def domainPlace (h : HttpMessage) : Option ℕ :=
  match h.applyOnDomain keepFirst none with
  | .ok (_, u) => u
  | .error _ => none

/-- Two passes that are at the same point of the same text take the same turn. -/
theorem domainByte_alike {σ τ : Type} {f : HttpMessage → ℕ → ℕ → σ → Except Fault (HttpMessage × σ)}
    {g : HttpMessage → ℕ → ℕ → τ → Except Fault (HttpMessage × τ)} {ds ds' : DomainScan σ}
    {rs : DomainScan τ} {s : ℕ} (hbyte : ds.http.byteAt s = rs.http.byteAt s)
    (hhit : ds.hit = rs.hit) (hstart : ds.start = rs.start) (hok : domainByte f ds s = .ok ds') :
    (ds'.http = ds.http ∧ (ds'.start = ds.start ∨ ds'.start = some s) ∧
      domainByte g rs s = .ok { rs with hit := ds'.hit, start := ds'.start }) ∨
    ∃ first, ds.start = some first ∧ f ds.http first s ds.user = .ok (ds'.http, ds'.user) ∧
      ds'.hit = 0 ∧ ds'.start = none ∧
      domainByte g rs s = g rs.http first s rs.user >>= fun x => .ok ⟨x.1, 0, none, x.2⟩ := by
  unfold domainByte at hok ⊢
  rw [← hbyte, ← hhit, ← hstart]
  dsimp only at hok ⊢
  by_cases hlong : dpropLen < ds.hit
  · rw [if_pos hlong] at hok ⊢
    cases hs : ds.start with
    | none =>
        rw [hs] at hok
        obtain rfl := Except.ok.inj hok
        exact .inl ⟨rfl, .inr rfl, rfl⟩
    | some first =>
        rw [hs] at hok
        dsimp only at hok ⊢
        by_cases hend : ds.http.byteAt s ∈ chars ";\r\n" ∨ ds.http.byteAt s = 0
        · rw [if_pos hend, bind_eq_ok] at hok
          obtain ⟨x, hx, hok⟩ := hok
          obtain rfl := Except.ok.inj hok
          rw [if_pos hend]
          exact .inr ⟨first, rfl, hx, rfl, rfl, rfl⟩
        · rw [if_neg hend] at hok
          obtain rfl := Except.ok.inj hok
          rw [if_neg hend]
          refine .inl ⟨rfl, .inl hs, ?_⟩
          rw [hstart, hhit]
  · rw [if_neg hlong] at hok ⊢
    by_cases hone : 1 < ds.hit
    · rw [if_pos hone] at hok ⊢
      obtain rfl := Except.ok.inj hok
      refine .inl ⟨rfl, .inl rfl, ?_⟩
      rw [hstart]
    · rw [if_neg hone] at hok ⊢
      obtain rfl := Except.ok.inj hok
      refine .inl ⟨rfl, .inl rfl, ?_⟩
      rw [hstart]

theorem keeps_copySuffix {suffix : List UInt8} {first last : ℕ} {u u' : Unit}
    (hk : k ≤ h.buffer.length) (hfirst : k ≤ first)
    (hok : copySuffix suffix h first last u = .ok (h₁, u')) : Keeps k h h₁ := by
  unfold copySuffix at hok
  split at hok
  · cases hok
  · obtain ⟨rfl, -⟩ := Prod.mk.inj (Except.ok.inj hok)
    have hkeeps := keeps_splice hk hfirst last (suffixText suffix)
    exact ⟨hkeeps.le_length, hkeeps.take_eq⟩

theorem le_length_of_copySuffix {suffix : List UInt8} {first last : ℕ} {u u' : Unit}
    (hok : copySuffix suffix h first last u = .ok (h₁, u')) : last ≤ h.buffer.length := by
  by_contra hlt
  simp [copySuffix, not_le.mp hlt] at hok

private theorem domainByte_keepFirst (rs : DomainScan (Option ℕ)) (s : ℕ) :
    ∃ rs', domainByte keepFirst rs s = .ok rs' ∧ ∀ p, rs.user = some p → rs'.user = some p := by
  unfold domainByte
  dsimp only
  by_cases hlong : dpropLen < rs.hit
  · rw [if_pos hlong]
    cases rs.start with
    | none => exact ⟨_, rfl, fun p hp => hp⟩
    | some first =>
        dsimp only
        by_cases hend : rs.http.byteAt s ∈ chars ";\r\n" ∨ rs.http.byteAt s = 0
        · rw [if_pos hend]
          exact ⟨_, rfl, fun p hp => by simp [hp]⟩
        · rw [if_neg hend]
          exact ⟨_, rfl, fun p hp => hp⟩
  · rw [if_neg hlong]
    by_cases hone : 1 < rs.hit
    · rw [if_pos hone]
      exact ⟨_, rfl, fun p hp => hp⟩
    · rw [if_neg hone]
      exact ⟨_, rfl, fun p hp => hp⟩

/-- The pass that edits and the one that only looks, side by side: up to the first domain
they are at the same point, and from there on all edits start behind it. -/
theorem domainPass_alike {suffix : List UInt8} (hbyte : h₁.byteAt = h.byteAt)
    (hbuffer : h₁.buffer = h.buffer) (n : ℕ) {ds : DomainScan Unit}
    (hok : (List.range n).foldlM (domainByte (copySuffix suffix)) ⟨h₁, 0, none, ()⟩ = .ok ds) :
    ∃ rs, (List.range n).foldlM (domainByte keepFirst) ⟨h, 0, none, none⟩ = .ok rs ∧
      (∀ f ∈ ds.start, f ≤ n) ∧
      ((rs.user = none ∧ rs.http = h ∧ ds.hit = rs.hit ∧ ds.start = rs.start ∧
          ds.http.byteAt = h.byteAt ∧ ds.http.buffer = h.buffer) ∨
        ∃ p, rs.user = some p ∧ p ≤ n ∧ Keeps p h ds.http ∧ ∀ f ∈ ds.start, p ≤ f) := by
  induction n generalizing ds with
  | zero =>
      obtain rfl := Except.ok.inj hok
      exact ⟨_, rfl, by simp, .inl ⟨rfl, rfl, rfl, rfl, hbyte, hbuffer⟩⟩
  | succ n ih =>
      rw [List.range_succ, foldlM_concat, bind_eq_ok] at hok
      obtain ⟨ds₁, hds₁, hstep⟩ := hok
      obtain ⟨rs₁, hrs₁, hle, hphase⟩ := ih hds₁
      rw [List.range_succ, foldlM_concat, hrs₁, bind_ok]
      have hstarts : ∀ f ∈ ds.start, f ≤ n := by
        rcases domainByte_cases hstep with ⟨-, -, hst | hst⟩ | ⟨first, -, -, hst⟩
        · rw [hst]
          exact hle
        · rw [hst]
          rintro f ⟨⟩
          exact le_rfl
        · simp [hst]
      have hstarts' : ∀ f ∈ ds.start, f ≤ n + 1 := fun f hf => (hstarts f hf).trans (Nat.le_succ n)
      rcases hphase with ⟨hnone, hhttp, hhit, hstart, hbytes, hbuf⟩ | ⟨p, hp, hpn, hkeeps, hpf⟩
      · have hbyte : ds₁.http.byteAt n = rs₁.http.byteAt n := by rw [hbytes, hhttp]
        rcases domainByte_alike (g := keepFirst) hbyte hhit hstart hstep with
          ⟨hsame, -, hrs⟩ | ⟨first, hfirst, hcopy, -, hstart', hrs⟩
        · exact ⟨_, hrs, hstarts', .inl ⟨hnone, hhttp, rfl, rfl, by rw [hsame, hbytes],
            by rw [hsame, hbuf]⟩⟩
        · -- the first domain ends here
          have hfn : first ≤ n := hle first hfirst
          have hlen := hfn.trans (le_length_of_copySuffix hcopy)
          rw [hrs, keepFirst, bind_ok, hnone]
          refine ⟨_, rfl, hstarts', .inr ⟨first, rfl, hfn.trans (Nat.le_succ n), ?_, ?_⟩⟩
          · exact (keeps_of_buffer_eq (by rwa [← hbuf]) hbuf).trans
              (keeps_copySuffix hlen le_rfl hcopy)
          · simp [hstart']
      · obtain ⟨rs, hrs, huser⟩ := domainByte_keepFirst rs₁ n
        refine ⟨rs, hrs, hstarts', .inr ⟨p, huser p hp, hpn.trans (Nat.le_succ n), ?_, ?_⟩⟩
        · rcases domainByte_cases hstep with ⟨hsame, -⟩ | ⟨first, hfirst, hcopy, -⟩
          · rw [hsame]
            exact hkeeps
          · exact hkeeps.trans (keeps_copySuffix hkeeps.le_length (hpf first hfirst) hcopy)
        · rcases domainByte_cases hstep with ⟨-, -, hst | hst⟩ | ⟨first, -, -, hst⟩
          · rw [hst]
            exact hpf
          · rw [hst]
            rintro f ⟨⟩
            exact hpn
          · simp [hst]

@[simp] theorem byteAt_reallocationProtocol (h : HttpMessage) (olen : ℕ) :
    (h.reallocationProtocol olen).byteAt = h.byteAt := by
  unfold reallocationProtocol
  dsimp only
  split <;> rfl

/-- The suffix goes nowhere before the first cookie domain. -/
theorem keeps_adjustDomainProperty {suffix : List UInt8} (hk : k ≤ h.buffer.length)
    (hplace : ∀ p ∈ h.domainPlace, k ≤ p) (hok : h.adjustDomainProperty suffix = .ok h₁) :
    Keeps k h h₁ := by
  rw [adjustDomainProperty, bind_eq_ok] at hok
  obtain ⟨⟨h₀, more⟩, -, hok⟩ := hok
  dsimp only at hok
  generalize hgrown : (if 0 < more then h.reallocationProtocol more else h) = g at hok
  have hbyte : g.byteAt = h.byteAt := by
    rw [← hgrown]
    split <;> simp
  have hbuffer : g.buffer = h.buffer := by
    rw [← hgrown]
    split <;> simp
  have hpayload : g.payload = h.payload := by
    rw [← hgrown]
    split <;> simp
  rw [bind_eq_ok] at hok
  obtain ⟨⟨h₂, u⟩, hpass, hok⟩ := hok
  obtain rfl := Except.ok.inj hok
  rw [applyOnDomain, bind_eq_ok, hpayload] at hpass
  obtain ⟨ds, hds, hpass⟩ := hpass
  obtain ⟨rfl, -⟩ := Prod.mk.inj (Except.ok.inj hpass)
  obtain ⟨rs, hrs, -, hphase⟩ := domainPass_alike hbyte hbuffer _ hds
  rcases hphase with ⟨-, -, -, -, -, hbuf⟩ | ⟨p, hp, -, hkeeps, -⟩
  · exact keeps_of_buffer_eq hk hbuf
  · refine hkeeps.of_le (hplace p ?_)
    rw [domainPlace, applyOnDomain, hrs]
    exact hp

/-! ## Headers -/

/-- Where the removal of a header starts. -/
def removalPlace (h : HttpMessage) (hdr : List UInt8) : Option ℕ :=
  (h.findHeader hdr).map fun found => (h.header found).1

/-- The headers that `remove_headers` removes. -/
def removedHeaders : ClientType → List (List UInt8)
  | .victim => [headerContentLength, acceptRanges]
  | .requester => [headerConnection, acceptEncoding]

/-- Where the removals of some headers start, one after the other. -/
def removalPlaces (h : HttpMessage) : List (List UInt8) → List ℕ
  | [] => []
  | hdr :: hdrs =>
      (h.removalPlace hdr).toList ++
        match h.findAndRemoveHeader hdr with
        | .ok h => h.removalPlaces hdrs
        | .error _ => []

theorem removeHeaders_eq (type : ClientType) (h : HttpMessage) :
    h.removeHeaders type = (removedHeaders type).foldlM findAndRemoveHeader h := by
  cases type <;> simp [removeHeaders, removedHeaders]

theorem keeps_findAndRemoveHeader {hdr : List UInt8} (hk : k ≤ h.buffer.length)
    (hplace : ∀ p ∈ h.removalPlace hdr, k ≤ p) (hok : h.findAndRemoveHeader hdr = .ok h₁) :
    Keeps k h h₁ := by
  rcases findAndRemoveHeader_cases hok with ⟨-, rfl⟩ | ⟨found, payload, hfound, -, -, -, rfl⟩
  · exact keeps_refl hk
  · have hle : k ≤ (h.header found).1 := hplace _ (by rw [removalPlace, hfound]; rfl)
    have hkeeps := keeps_splice hk hle (h.nextHeader found payload) []
    exact ⟨hkeeps.le_length, hkeeps.take_eq⟩

theorem keeps_removeHeaders {hdrs : List (List UInt8)} (hk : k ≤ h.buffer.length)
    (hplaces : ∀ p ∈ h.removalPlaces hdrs, k ≤ p)
    (hok : hdrs.foldlM findAndRemoveHeader h = .ok h₁) : Keeps k h h₁ := by
  induction hdrs generalizing h with
  | nil =>
      obtain rfl : h = h₁ := Except.ok.inj hok
      exact keeps_refl hk
  | cons hdr hdrs ih =>
      rw [List.foldlM_cons, bind_eq_ok] at hok
      obtain ⟨h₂, hfirst, hok⟩ := hok
      rw [removalPlaces, hfirst] at hplaces
      have hkeeps := keeps_findAndRemoveHeader hk
        (fun p hp => hplaces p (List.mem_append_left _ (Option.mem_toList.mpr hp))) hfirst
      exact hkeeps.trans (ih hkeeps.le_length
        (fun p hp => hplaces p (List.mem_append_right _ hp)) hok)

/-! ## All together -/

/-- Where header processing edits the buffer of the message. -/
def editPlaces (suffix : List UInt8) (type : ClientType) (h : HttpMessage) : List ℕ :=
  let scan := h.processHeadersAndGetPayload
  h.versionPlace.toList ++
    match scan.2.payload with
    | none => []
    | some payload =>
        let h := { scan.1 with headersUsed := scan.2.headers.length, payload := some payload }
        h.domainPlace.toList ++
          match h.adjustDomainProperty suffix with
          | .error _ => []
          | .ok h =>
              h.versionPlace.toList ++
                match h.recordHeaders >>= adjustExpectPayload with
                | .error _ => []
                | .ok h => h.removalPlaces (removedHeaders type)

theorem keeps_recordHeaders (hk : k ≤ h.buffer.length) (hplace : ∀ p ∈ h.versionPlace, k ≤ p)
    (hok : h.recordHeaders = .ok h₁) : Keeps k h h₁ := by
  unfold recordHeaders at hok
  split at hok
  · obtain rfl := Except.ok.inj hok
    exact keeps_refl hk
  · dsimp only at hok
    split at hok
    · obtain rfl := Except.ok.inj hok
      have hkeeps := keeps_processHeadersAndGetPayload hk hplace
      exact ⟨hkeeps.le_length, hkeeps.take_eq⟩
    · cases hok

theorem buffer_reserve (h : HttpMessage) : h.reserve.buffer = h.buffer := by
  unfold reserve
  split
  · dsimp only
    split <;> simp
  · rfl

/-- **Header processing keeps all bytes before its first edit.** -/
theorem keeps_evaluateHeaders {rena : Rena} {type : ClientType} {peer : Option HttpMessage}
    (hk : k ≤ h.buffer.length) (hplaces : ∀ p ∈ h.editPlaces rena.suffix type, k ≤ p)
    (hok : h.evaluateHeaders rena type peer = .ok h₁) : Keeps k h h₁ := by
  rw [editPlaces] at hplaces
  dsimp only at hplaces
  have hscan := keeps_processHeadersAndGetPayload hk
    fun p hp => hplaces p (List.mem_append_left _ (Option.mem_toList.mpr hp))
  rcases evaluateHeaders_stages hok with ⟨-, rfl⟩ | ⟨-, -, rfl⟩ |
    ⟨-, payload, g₁, g₂, g₃, g₄, hpay, ok₁, ok₂, ok₃, ok₄, hok⟩
  · exact keeps_refl hk
  · exact ⟨hscan.le_length, hscan.take_eq⟩
  · rw [hpay] at hplaces
    dsimp only at hplaces
    rw [ok₁] at hplaces
    dsimp only at hplaces
    rw [ok₂, bind_ok, ok₃] at hplaces
    dsimp only at hplaces
    simp only [List.mem_append, Option.mem_toList] at hplaces
    obtain ⟨c, rfl⟩ := checkToDisableTransformations_frame hok
    obtain ⟨e, rfl⟩ := adjustExpectPayload_frame ok₃
    rw [removeHeaders_eq] at ok₄
    have hdomain := keeps_adjustDomainProperty (h := { h.processHeadersAndGetPayload.1 with
        headersUsed := h.processHeadersAndGetPayload.2.headers.length
        payload := some payload }) hscan.le_length
      (fun p hp => hplaces p (.inr (.inl hp))) ok₁
    have hagain := keeps_recordHeaders hdomain.le_length
      (fun p hp => hplaces p (.inr (.inr (.inl hp)))) ok₂
    have hremoved := keeps_removeHeaders (h := { g₂ with expectedPayload := e }) hagain.le_length
      (fun p hp => hplaces p (.inr (.inr (.inr hp)))) ok₄
    have hall := (hscan.trans ⟨hdomain.le_length, hdomain.take_eq⟩).trans (hagain.trans
      ⟨hremoved.le_length, hremoved.take_eq⟩)
    refine ⟨?_, ?_⟩
    · exact hall.le_length.trans_eq (congrArg List.length (buffer_reserve g₄).symm)
    · exact (congrArg (List.take k) (buffer_reserve g₄)).trans hall.take_eq

end HttpMessage

end RenaProxy
