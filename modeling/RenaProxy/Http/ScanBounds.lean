import RenaProxy.Http.Relay

/-!
# Where the scan of the headers looks

`process_headers_and_get_payload` compares the version ten bytes before the end of the
first line and looks at one byte behind the end of a header line. `accesses` lists the
offsets of a scan; none lies behind a buffer with a byte to spare, and one lies in front
of it exactly when the first nine bytes hold two delimiters (`evaluations_inBuffer`).
-/
namespace RenaProxy
open Failure

namespace HttpMessage
variable {h g : HttpMessage} {sc : Scan} {n p old : ℕ} {i : ℤ}

/-! ## The offsets -/

/-- The offsets that `strncmp` reads of the version when the first line ends at `old`: up
to the first byte that differs. What lies in front of the buffer is no version. -/
def versionReads (h : HttpMessage) (old : ℕ) : List ℤ :=
  let same := if old < 10 then 0 else
    (((h.buffer.drop (old - 10)).zip (chars "HTTP/1")).takeWhile fun x => x.1 = x.2).length
  (List.range (min 6 (same + 1))).map fun (j : ℕ) => (old : ℤ) - 10 + j

/-- The offsets that are written when the protocol is downgraded. -/
def versionWrites (h : HttpMessage) (old : ℕ) : List ℤ :=
  if 10 ≤ old ∧ (h.buffer.drop (old - 10)).take 6 = chars "HTTP/1" then
    [(old : ℤ) - 5, (old : ℤ) - 3]
  else []

/-- The offsets that a delimiter at `p` makes the scan read, write or record. -/
def delimAccesses (h : HttpMessage) (sc : Scan) (p : ℕ) : List ℤ :=
  match sc.state with
  | .firstLineSecondDelim => h.versionReads (p + 1) ++ h.versionWrites (p + 1)
  | .headerSecondDelim =>
      let next := h.byteAt (p + 1)
      (p + 1 : ℤ) :: if next = 9 ∨ next = 32 then [] else [(sc.oldPositionBuf : ℤ), (p : ℤ) - 1]
  | _ => []

/-- The offsets that belong to position `p` of the loop. -/
def byteAccesses (r : HttpMessage × Scan) (p : ℕ) : List ℤ :=
  if r.2.payload.isSome then []
  else (p : ℤ) :: if r.1.buffer.getD p 0 ∈ delim then r.1.delimAccesses r.2 p else []

/-- All offsets into the buffer that `process_headers_and_get_payload` uses. -/
def accesses (h : HttpMessage) : List ℤ :=
  (List.range h.buffer.length).flatMap fun p =>
    byteAccesses ((List.range p).foldl scanByte (h, .start)) p

/-- They all lie in the buffer. -/
def InBuffer (h : HttpMessage) : Prop := ∀ i ∈ h.accesses, 0 ≤ i ∧ i < h.capacity

instance (h : HttpMessage) : Decidable h.InBuffer :=
  inferInstanceAs (Decidable (∀ i ∈ h.accesses, _))

theorem mem_accesses : i ∈ h.accesses ↔ ∃ p < h.buffer.length,
    i ∈ byteAccesses ((List.range p).foldl scanByte (h, .start)) p := by
  simp [accesses]

theorem mem_byteAccesses {r : HttpMessage × Scan} (hi : i ∈ byteAccesses r p) :
    i = p ∨ (r.1.buffer.getD p 0 ∈ delim ∧ i ∈ r.1.delimAccesses r.2 p) := by
  unfold byteAccesses at hi
  split at hi
  · cases hi
  · rcases List.mem_cons.mp hi with rfl | hi
    · exact .inl rfl
    · split at hi
      · rename_i hd
        exact .inr ⟨hd, hi⟩
      · cases hi

theorem of_mem_versionReads (hi : i ∈ h.versionReads old) :
    (old : ℤ) - 10 ≤ i ∧ i < old := by
  obtain ⟨j, hj, rfl⟩ := List.mem_map.mp hi
  have := List.mem_range.mp hj
  omega

theorem mem_versionReads (h : HttpMessage) (old : ℕ) : (old : ℤ) - 10 ∈ h.versionReads old :=
  List.mem_map.mpr ⟨0, List.mem_range.mpr (by omega), by simp⟩

theorem of_mem_versionWrites (hi : i ∈ h.versionWrites old) : 5 ≤ i ∧ i < old := by
  unfold versionWrites at hi
  split at hi
  · rename_i hold
    simp only [List.mem_cons, List.not_mem_nil, or_false] at hi
    omega
  · cases hi

/-! ## The delimiters in front -/

theorem delims_add (h : HttpMessage) (n m : ℕ) : h.delims n <+: h.delims (n + m) := by
  induction m with
  | zero => exact List.prefix_rfl
  | succ m ih =>
      rw [← Nat.add_assoc, delims_succ]
      exact ih.trans (List.prefix_append _ _)

/-- In state `FIRST_LINE_SECOND_DELIM` one delimiter lies behind, in the state before none. -/
theorem length_delims_of_state
    (hstate : ((List.range p).foldl scanByte (h, .start)).2.state = .firstLineSecondDelim) :
    (h.delims p).length = 1 := by
  have H := scan_delims h p
  match hd : h.delims p with
  | [] =>
      rw [hd] at H
      rw [H] at hstate
      cases hstate
  | [q] => rfl
  | q :: q' :: qs =>
      rw [hd] at H
      exact absurd hstate H.2.2

/-- A line starts before the delimiter that ends it. -/
theorem oldPositionBuf_le (h : HttpMessage) (n : ℕ) :
    let sc := ((List.range n).foldl scanByte (h, .start)).2
    sc.oldPositionBuf ≤ n ∧ (sc.state = .headerSecondDelim → sc.oldPositionBuf < n) := by
  induction n with
  | zero => exact ⟨le_rfl, by simp [Scan.start]⟩
  | succ n ih =>
      rw [List.range_succ, List.foldl_append]
      generalize (List.range n).foldl scanByte (h, .start) = r at ih ⊢
      obtain ⟨m, sc⟩ := r
      obtain ⟨hle, hlt⟩ := ih
      dsimp only at hle hlt
      rw [List.foldl_cons, List.foldl_nil, scanByte]
      split
      · exact ⟨by dsimp only; omega, fun _ => by dsimp only; omega⟩
      · split
        · cases hs : sc.state with
          | headerSecondDelim =>
              simp only [scanDelim, hs]
              refine ⟨?_, ?_⟩
              · split
                · omega
                · exact le_rfl
              · split <;> simp
          | headerFirstDelim =>
              simp only [scanDelim, hs]
              exact ⟨by omega, fun _ => by omega⟩
          | firstLineFirstDelim => simp [scanDelim, hs]; omega
          | firstLineSecondDelim => simp [scanDelim, hs]
          | headerThirdDelim => simp [scanDelim, hs]; omega
          | headerDone => simp [scanDelim, hs]; omega
        · exact ⟨by dsimp only; omega, fun _ => by dsimp only; omega⟩

/-- The second delimiter of the buffer lies behind the first nine bytes, if they hold at
most one. -/
theorem ten_le_of_firstLine (hnine : (h.delims 9).length ≤ 1)
    (hstate : ((List.range p).foldl scanByte (h, .start)).2.state = .firstLineSecondDelim)
    (hd : h.buffer.getD p 0 ∈ delim) : 10 ≤ p + 1 := by
  by_contra hlt
  have hone := length_delims_of_state hstate
  have htwo : (h.delims (p + 1)).length = 2 := by
    rw [delims_succ, if_pos hd, List.length_append, hone]
    rfl
  have := (delims_add h (p + 1) (9 - (p + 1))).length_le
  rw [Nat.add_sub_cancel' (by omega)] at this
  omega

/-- In state `FIRST_LINE_SECOND_DELIM` the buffer is untouched. -/
theorem fst_of_firstLine
    (hstate : ((List.range p).foldl scanByte (h, .start)).2.state = .firstLineSecondDelim) :
    ((List.range p).foldl scanByte (h, .start)).1 = h := by
  have H := scan_delims h p
  match hd : h.delims p with
  | [] =>
      rw [hd] at H
      rw [H]
  | [q] =>
      rw [hd] at H
      rw [H]
  | q :: q' :: qs =>
      rw [hd] at H
      exact absurd hstate H.2.2

/-- No offset lies in front of the buffer or behind its end by more than one. -/
theorem mem_accesses_bounds (hnine : (h.delims 9).length ≤ 1) (hi : i ∈ h.accesses) :
    0 ≤ i ∧ i ≤ h.buffer.length := by
  obtain ⟨p, hp, hi⟩ := mem_accesses.mp hi
  rcases mem_byteAccesses hi with rfl | ⟨hd, hi⟩
  · omega
  · have hold := oldPositionBuf_le h p
    have hten : _ → 10 ≤ p + 1 := fun hs => ten_le_of_firstLine hnine hs (by
      rwa [fst_of_firstLine hs] at hd)
    generalize (List.range p).foldl scanByte (h, .start) = r at hi hold hten
    obtain ⟨m, sc⟩ := r
    dsimp only at hi hold hten
    unfold delimAccesses at hi
    cases hs : sc.state with
    | firstLineSecondDelim =>
        simp only [hs] at hi
        have hten := hten hs
        rcases List.mem_append.mp hi with hi | hi
        · have := of_mem_versionReads hi
          omega
        · have := of_mem_versionWrites hi
          omega
    | headerSecondDelim =>
        have hlt := hold.2 hs
        simp only [hs] at hi
        rcases List.mem_cons.mp hi with rfl | hi
        · omega
        · split at hi
          · cases hi
          · simp only [List.mem_cons, List.not_mem_nil, or_false] at hi
            omega
    | firstLineFirstDelim => simp [hs] at hi
    | headerFirstDelim => simp [hs] at hi
    | headerThirdDelim => simp [hs] at hi
    | headerDone => simp [hs] at hi

/-- With two delimiters among the first nine bytes the version is looked for in front of
the buffer. -/
theorem exists_neg_access (hnine : 1 < (h.delims 9).length) : ∃ i ∈ h.accesses, i < 0 := by
  -- `p` is the second of them
  obtain ⟨p, hp, hone, hd⟩ : ∃ p < 9, (h.delims p).length = 1 ∧ h.buffer.getD p 0 ∈ delim := by
    by_contra hno
    push Not at hno
    have main : ∀ n ≤ 9, (h.delims n).length ≤ 1 := by
      intro n
      induction n with
      | zero => exact fun _ => Nat.zero_le _
      | succ n ih =>
          intro hn
          rw [delims_succ, List.length_append]
          have hle := ih (by omega)
          by_cases hd : h.buffer.getD n 0 ∈ delim
          · have := mt (hno n (by omega)) (not_not.mpr hd)
            rw [if_pos hd, List.length_singleton]
            omega
          · rw [if_neg hd]
            simpa using hle
    have := main 9 le_rfl
    omega
  have hlt : p < h.buffer.length := by
    by_contra hge
    rw [List.getD_eq_getElem?_getD, List.getElem?_eq_none (not_lt.mp hge)] at hd
    exact absurd hd (by decide)
  refine ⟨((p + 1 : ℕ) : ℤ) - 10, mem_accesses.mpr ⟨p, hlt, ?_⟩, by omega⟩
  have H := scan_delims h p
  match hq : h.delims p with
  | [] => simp [hq] at hone
  | [q] =>
      rw [hq] at H
      rw [H]
      simp only [byteAccesses, Scan.start, Option.isSome_none, Bool.false_eq_true, if_false, hd,
        if_true, delimAccesses]
      exact List.mem_cons_of_mem _ (List.mem_append_left _ (mem_versionReads h (p + 1)))
  | q :: q' :: qs => simp [hq] at hone

/-- **When a scan stays in the buffer**: only if at most one of the first nine bytes is a
delimiter. -/
theorem length_delims_of_inBuffer (hin : h.InBuffer) : (h.delims 9).length ≤ 1 := by
  by_contra hnine
  obtain ⟨i, hi, hneg⟩ := exists_neg_access (not_le.mp hnine)
  exact absurd (hin i hi).1 (not_le.mpr hneg)

/-- With a byte to spare behind the bytes in use this is enough. -/
theorem inBuffer_of_spare (hspare : h.buffer.length < h.capacity)
    (hnine : (h.delims 9).length ≤ 1) : h.InBuffer := by
  intro i hi
  obtain ⟨hpos, hle⟩ := mem_accesses_bounds hnine hi
  exact ⟨hpos, by omega⟩

/-! ## The second scan -/

theorem length_delims_le {h' : HttpMessage}
    (hbytes : ∀ i < n, h'.buffer.getD i 0 ∈ delim → h.buffer.getD i 0 ∈ delim) :
    (h'.delims n).length ≤ (h.delims n).length := by
  induction n with
  | zero => exact le_rfl
  | succ n ih =>
      have hle := ih fun i hi => hbytes i (by omega)
      rw [delims_succ, delims_succ, List.length_append, List.length_append]
      have hlast := hbytes n (Nat.lt_succ_self n)
      by_cases hd : h'.buffer.getD n 0 ∈ delim
      · rw [if_pos hd, if_pos (hlast hd)]
        exact Nat.add_le_add_right hle 1
      · rw [if_neg hd]
        exact Nat.add_le_add hle (Nat.zero_le _)

theorem mem_delim_set {l : List UInt8} {k : ℕ} {a : UInt8} (ha : a ∉ delim) {j : ℕ}
    (hd : (l.set k a).getD j 0 ∈ delim) : l.getD j 0 ∈ delim := by
  by_cases hkj : k = j
  · subst hkj
    rw [List.getD_eq_getElem?_getD, List.getElem?_set_self'] at hd
    cases hk : l[k]? with
    | none => exact absurd (by simpa [hk] using hd) (show (0 : UInt8) ∉ delim by decide)
    | some b => exact absurd (by simpa [hk] using hd) ha
  · rwa [List.getD_eq_getElem?_getD, List.getElem?_set_ne hkj, ← List.getD_eq_getElem?_getD] at hd

/-- The first scan makes no delimiters. -/
theorem length_delims_process (h : HttpMessage) (n : ℕ) :
    (h.processHeadersAndGetPayload.1.delims n).length ≤ (h.delims n).length := by
  rw [processHeadersAndGetPayload_fst]
  cases h.firstLineEnd with
  | none => exact le_rfl
  | some old =>
      refine length_delims_le fun i _ hd => ?_
      dsimp only at hd
      by_cases hv : 10 ≤ old ∧ (h.buffer.drop (old - 10)).take 6 = chars "HTTP/1"
      · rw [downgrade, if_pos hv] at hd
        exact mem_delim_set (show (49 : UInt8) ∉ delim by decide)
          (mem_delim_set (show (48 : UInt8) ∉ delim by decide) hd)
      · rwa [downgrade, if_neg hv] at hd

/-- A pass over cookie domains has matched nine bytes before it comes to a value. -/
theorem nine_le_domainPlace (hp : p ∈ h.domainPlace) : 9 ≤ p := by
  have hstep : ∀ n (ds : DomainScan (Option ℕ)),
      (List.range n).foldlM (domainByte keepFirst) ⟨h, 0, none, none⟩ = .ok ds →
      ds.hit ≤ n ∧ (∀ f ∈ ds.start, 9 ≤ f) ∧ ∀ f ∈ ds.user, 9 ≤ f := by
    intro n
    induction n with
    | zero =>
        rintro ds ⟨⟩
        simp
    | succ n ih =>
        intro ds hok
        rw [List.range_succ, foldlM_concat, bind_eq_ok] at hok
        obtain ⟨ds₁, hrun, hok⟩ := hok
        obtain ⟨hhit, hstart, huser⟩ := ih ds₁ hrun
        unfold domainByte at hok
        dsimp only at hok
        by_cases hlong : dpropLen < ds₁.hit
        · rw [if_pos hlong] at hok
          have hnine : 9 ≤ n := Nat.le_trans hlong hhit
          cases hs : ds₁.start with
          | none =>
              rw [hs] at hok
              obtain rfl := Except.ok.inj hok
              exact ⟨by dsimp only; omega, by simpa using hnine, huser⟩
          | some first =>
              rw [hs] at hok
              dsimp only at hok
              have hfirst := hstart first hs
              split at hok
              · obtain rfl := Except.ok.inj hok
                refine ⟨Nat.zero_le _, by simp, ?_⟩
                cases hu : ds₁.user with
                | none => simpa using hfirst
                | some f => simpa using huser f hu
              · obtain rfl := Except.ok.inj hok
                exact ⟨by omega, hstart, huser⟩
        · rw [if_neg hlong] at hok
          split at hok <;>
          · obtain rfl := Except.ok.inj hok
            refine ⟨?_, hstart, huser⟩
            dsimp only
            split <;> omega
  rw [domainPlace, applyOnDomain] at hp
  cases hrun : (List.range (h.payload.getD 0)).foldlM (domainByte keepFirst) ⟨h, 0, none, none⟩ with
  | error e => simp [hrun, bind, Except.bind] at hp
  | ok ds =>
      rw [hrun, bind_ok] at hp
      exact (hstep _ ds hrun).2.2 p hp

/-- A payload lies behind more than one delimiter. -/
theorem nine_le_length (hnine : (h.delims 9).length ≤ 1)
    (hp : h.processHeadersAndGetPayload.2.payload.isSome) : 9 ≤ h.buffer.length := by
  by_contra hlt
  have hle : (h.delims h.buffer.length).length ≤ 1 := by
    have := (delims_add h h.buffer.length (9 - h.buffer.length)).length_le
    rw [Nat.add_sub_cancel' (by omega)] at this
    omega
  have H := scan_delims h h.buffer.length
  rw [processHeadersAndGetPayload] at hp
  cases hd : h.delims h.buffer.length with
  | nil =>
      rw [hd] at H
      dsimp only at H
      rw [H] at hp
      cases hp
  | cons q qs =>
      rw [hd, List.length_cons] at hle
      obtain rfl : qs = [] := List.length_eq_zero_iff.mp (by omega)
      rw [hd] at H
      dsimp only at H
      rw [H] at hp
      cases hp

theorem delims_of_keeps {h' : HttpMessage} (hk : Keeps n h h') :
    (h'.delims n).length ≤ (h.delims n).length := by
  refine length_delims_le fun i hi hd => ?_
  have hsame : (h'.buffer.take n).getD i 0 = (h.buffer.take n).getD i 0 := by rw [hk.take_eq]
  simp only [List.getD_eq_getElem?_getD, List.getElem?_take, hi, if_true] at hsame hd ⊢
  rwa [← hsame]

/-- The messages that `http_evaluate_headers` has scanned: the one it is called with and,
unless headers are saved already, the one with the suffix in its cookie domains. -/
def scanned (suffix : List UInt8) (h : HttpMessage) : List HttpMessage :=
  h :: match h.processHeadersAndGetPayload.2.payload with
    | none => []
    | some payload =>
        match adjustDomainProperty suffix { h.processHeadersAndGetPayload.1 with
          headersUsed := h.processHeadersAndGetPayload.2.headers.length
          payload := some payload } with
        | .error _ => []
        | .ok h => if h.headers.isSome then [] else [h]

/-- The first nine bytes get no delimiter before the second scan. -/
theorem length_delims_scanned {suffix : List UInt8} (hnine : (h.delims 9).length ≤ 1)
    (hg : g ∈ h.scanned suffix) : (g.delims 9).length ≤ 1 := by
  rcases List.mem_cons.mp hg with rfl | hg
  · exact hnine
  · cases hpay : h.processHeadersAndGetPayload.2.payload with
    | none => simp [hpay] at hg
    | some payload =>
        have hlen := nine_le_length hnine (by rw [hpay]; rfl)
        have hscan := length_delims_process h 9
        have hlength : h.processHeadersAndGetPayload.1.buffer.length = h.buffer.length := by
          rw [processHeadersAndGetPayload_fst]
          cases h.firstLineEnd with
          | none => rfl
          | some old =>
              dsimp only
              unfold downgrade
              split <;> simp
        rw [hpay] at hg
        dsimp only at hg
        split at hg
        · cases hg
        · rename_i h₁ hok
          split at hg
          · cases hg
          · obtain rfl := List.mem_singleton.mp hg
            have hkeeps := keeps_adjustDomainProperty (k := 9)
              (by rw [hlength]; exact hlen) (fun p hp => nine_le_domainPlace hp) hok
            exact ((delims_of_keeps hkeeps).trans hscan).trans hnine

/-! ## A byte to spare -/

/-- The bytes in use are fewer than there is room for. -/
structure Spare (h : HttpMessage) : Prop where
  block : sizeofHttp ≤ h.totalBlock
  lt : h.buffer.length < h.capacity

theorem Spare.of_le (H : Spare h) (hblock : h.totalBlock ≤ g.totalBlock)
    (hlen : g.buffer.length ≤ h.buffer.length) : Spare g := by
  obtain ⟨hb, hlt⟩ := H
  refine ⟨hb.trans hblock, ?_⟩
  simp only [capacity] at hlt ⊢
  omega

/-- A short text leaves a byte. -/
theorem Spare.forceOntoBuffer {o : List UInt8} (H : Spare h) (ho : o.length ≤ 2 * sizeofHttp) :
    Spare (h.forceOntoBuffer o) := by
  obtain ⟨hblock, hlt⟩ := H
  refine ⟨hblock.trans (totalBlock_forceOntoBuffer h o), ?_⟩
  rw [buffer_forceOntoBuffer, List.length_append, capacity_forceOntoBuffer,
    capacity_reallocationProtocol hblock]
  split
  · assumption
  · rename_i hge
    have hpos : 0 < h.capacity := by omega
    have hquot : 1 ≤ (h.buffer.length + o.length) / h.capacity :=
      (Nat.one_le_div_iff hpos).mpr (not_lt.mp hge)
    calc
      h.buffer.length + o.length < h.capacity + sizeofHttp * 2 := by omega
      _ ≤ h.capacity + sizeofHttp * ((h.buffer.length + o.length) / h.capacity + 1) :=
        Nat.add_le_add_left (Nat.mul_le_mul_left _ (by omega)) _

/-- What the matcher puts out at once is short. -/
def ShortReaction : Reaction → Prop
  | .keep => True
  | .put holding transformed =>
      holding.length ≤ 2 * sizeofHttp ∧ ∀ o ∈ transformed, o.length ≤ 2 * sizeofHttp

theorem Spare.appendReaction {r : Reaction} (H : Spare h) (hr : ShortReaction r) :
    Spare (h.appendReaction r) := by
  cases r with
  | keep => exact H
  | put holding transformed =>
      have hheld : Spare (if 0 < holding.length then h.forceOntoBuffer holding else h) := by
        split
        · exact H.forceOntoBuffer hr.1
        · exact H
      cases transformed with
      | none => exact hheld
      | some o => exact hheld.forceOntoBuffer (hr.2 o rfl)

theorem Spare.checkDelimiterHeader (H : Spare h) (ch : UInt8) :
    Spare (h.checkDelimiterHeader ch).1 := by
  refine H.of_le ?_ (by simp)
  unfold HttpMessage.checkDelimiterHeader
  split
  · exact le_rfl
  · dsimp only
    split <;> exact le_rfl

theorem Spare.processHeadersAndGetPayload (H : Spare h) :
    Spare h.processHeadersAndGetPayload.1 := by
  rw [processHeadersAndGetPayload_fst]
  cases h.firstLineEnd with
  | none => exact H
  | some old =>
      dsimp only
      unfold downgrade
      split
      · exact H.of_le le_rfl (by simp)
      · exact H

section Pull
variable {rena : Rena} {type : ClientType} {peer : Option HttpMessage} {m m₁ m' : HttpMessage}
  {b : UInt8}

theorem spare_handed (H : Spare m)
    (hshort : ∀ x, databaseStep m.lookupTree b = .ok x → ShortReaction x.2)
    (hh : m.handed b = some m₁) : Spare m₁ := by
  unfold handed at hh
  split at hh
  · cases hh
  · rename_i d r hstep
    dsimp only at hh
    split at hh
    · obtain rfl := Option.some.inj hh
      have hd : Spare { m with lookupTree := d } := ⟨H.block, H.lt⟩
      exact (hd.appendReaction (hshort _ hstep)).checkDelimiterHeader _
    · cases hh

/-- Until a header block is complete, short texts leave a byte to spare. -/
theorem spare_pullByte (H : Spare m)
    (hshort : ∀ x, databaseStep m.lookupTree b = .ok x → ShortReaction x.2)
    (hnone : ∀ m₁ ∈ m.handed b, m₁.processHeadersAndGetPayload.2.payload = none)
    (hok : m.pullByte rena type peer b = .ok m') : Spare m' := by
  rw [pullByte_eq, bind_eq_ok] at hok
  obtain ⟨⟨d, r⟩, hstep, hok⟩ := hok
  dsimp only at hok
  have hd : Spare { m with lookupTree := d } := ⟨H.block, H.lt⟩
  have hseen := (hd.appendReaction (hshort _ hstep)).checkDelimiterHeader (seenByte b r)
  split at hok
  · rename_i hdone
    have hhanded : m.handed b = some
        (({ m with lookupTree := d }.appendReaction r).checkDelimiterHeader (seenByte b r)).1 := by
      rw [handed, hstep]
      exact if_pos hdone
    have hpay := hnone _ hhanded
    rcases evaluateHeaders_stages hok with ⟨-, rfl⟩ | ⟨-, -, rfl⟩ | ⟨-, payload, _, _, _, _, hsome, -⟩
    · exact hseen
    · have hscan := hseen.processHeadersAndGetPayload
      exact ⟨hscan.block, hscan.lt⟩
    · rw [hpay] at hsome
      cases hsome
  · obtain rfl := Except.ok.inj hok
    exact hseen

end Pull

/-! ## Runs -/

/-- The messages that `http_evaluate_headers` is called with while bytes are read, each
next to the protocol that the peer has then. -/
def evaluations (rena : Rena) (type : ClientType) :
    HttpMessage → List (Option HttpMessage × UInt8) → List HttpMessage
  | _, [] => []
  | m, (peer, b) :: xs =>
      (m.handed b).toList ++ match m.pullByte rena type peer b with
        | .ok m => evaluations rena type m xs
        | .error _ => []

/-- **When header processing stays inside the buffer.** All offsets of all scans lie in it
only if no evaluation finds two delimiters among the first nine bytes, and while no scan
starts with the buffer full this is enough. -/
theorem evaluations_inBuffer (rena : Rena) (type : ClientType)
    (xs : List (Option HttpMessage × UInt8)) :
    ((∀ m ∈ evaluations rena type (create rena type) xs, ∀ g ∈ m.scanned rena.suffix, g.InBuffer) →
      ∀ m ∈ evaluations rena type (create rena type) xs, (m.delims 9).length ≤ 1) ∧
    ((∀ m ∈ evaluations rena type (create rena type) xs, (m.delims 9).length ≤ 1 ∧
        ∀ g ∈ m.scanned rena.suffix, g.buffer.length < g.capacity) →
      ∀ m ∈ evaluations rena type (create rena type) xs, ∀ g ∈ m.scanned rena.suffix, g.InBuffer) := by
  constructor
  · intro hin m hm
    exact length_delims_of_inBuffer (hin m hm m List.mem_cons_self)
  · intro h m hm g hg
    obtain ⟨hnine, hspare⟩ := h m hm
    exact inBuffer_of_spare (hspare g hg) (length_delims_scanned hnine hg)

/-- For a request line without a version the comparison starts three bytes in front of the
buffer. -/
theorem not_evaluations_inBuffer :
    ¬ ∀ (rena : Rena) (type : ClientType) (xs : List (Option HttpMessage × UInt8)),
      ∀ m ∈ evaluations rena type (create rena type) xs, ∀ g ∈ m.scanned rena.suffix,
        g.InBuffer := by
  intro h
  have := h ⟨[], .null, .null, .null⟩ .requester
    ((chars "GET /\r\n\r\n").map fun b => ((none : Option HttpMessage), b))
  exact absurd this (by decide +kernel)

end HttpMessage

end RenaProxy
