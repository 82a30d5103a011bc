import RenaProxy.Http.Domains
import RenaProxy.Http.Transfer

/-!
# Room for the suffix

The sizing pass reads the text that the copying pass is going to change, and counts the
bytes by which the suffix is longer than the values that it comes to. `ReadBlock` is a
header block taken apart the way this pass reads it. The copying pass stays in the room
that was counted when it comes to no other values; `Resumes` says when that is so, and
`roomSuffices_iff` that the two passes agree exactly then. `domainsFit_of_resumes` says when
it stays in the block.
-/
namespace RenaProxy
open Failure Keyword

namespace HttpMessage
variable {suffix new x z : List UInt8} {h : HttpMessage} {s stop n : ℕ}
  {as : List DomainAttribute} {trailing rest : List UInt8}

/-! ## The block as it is read -/

/-- How a pass that changes nothing reads a text, but for its first `n` bytes: it is at
rest in front of each keyword, and behind the last value it finds none. The byte that
ends a value is not looked at again. -/
def ReadAs : ℕ → List DomainAttribute → List UInt8 → Prop
  | n, [], trailing => domainScanner.firstValue 0 (trailing.drop n) = none
  | n, a :: as, trailing =>
      (n ≤ a.gap.length ∧ domainScanner.hits 0 (a.gap.drop n) = 0) ∧
        (∃ t, domainScanner.IsValue a.value t ∧ (attributesText as trailing).head? = some t) ∧
        ReadAs 1 as trailing

/-- A header block with the values that the sizing pass comes to. -/
structure ReadBlock where
  attributes : List DomainAttribute
  trailing : List UInt8
  read : ReadAs 0 attributes trailing

def ReadBlock.text (b : ReadBlock) : List UInt8 := attributesText b.attributes b.trailing

/-- Every text is read in some way. -/
theorem exists_readBlock (x : List UInt8) : ∃ b : ReadBlock, b.text = x := by
  suffices h : ∀ n, n ≤ x.length → ∃ as trailing, ReadAs n as trailing ∧
      attributesText as trailing = x by
    obtain ⟨as, trailing, hread, htext⟩ := h 0 (Nat.zero_le _)
    exact ⟨⟨as, trailing, hread⟩, htext⟩
  induction hlen : x.length using Nat.strong_induction_on generalizing x with
  | _ k ih =>
      subst hlen
      intro n hn
      cases hfound : domainScanner.firstValue 0 (x.drop n) with
      | none => exact ⟨[], x, hfound, rfl⟩
      | some r =>
          obtain ⟨y, key, v, t, w, hx, hrest, hkey, hv, -⟩ :=
            (Scanner.firstValue_eq_some_iff (Nat.succ_pos _)).mp hfound
          have hsplit : x = x.take n ++ y ++ key ++ v ++ t :: w := by
            calc
              x = x.take n ++ x.drop n := (List.take_append_drop n x).symm
              _ = x.take n ++ y ++ key ++ v ++ t :: w := by rw [hx]; simp only [List.append_assoc]
          have hshort : (t :: w).length < x.length := by
            have := length_of_isDomainKey (spells_iff.mp hkey)
            have := congrArg List.length hsplit
            simp only [List.length_append] at this
            omega
          obtain ⟨as, trailing, hread, htext⟩ := ih _ hshort (t :: w) rfl 1 (by simp)
          have hgap : (x.take n ++ y).drop n = y := by
            exact List.drop_left' (by rw [List.length_take]; omega)
          refine ⟨⟨x.take n ++ y, key, v, spells_iff.mp hkey⟩ :: as, trailing,
            ⟨⟨?_, ?_⟩, ⟨t, hv, by rw [htext]; rfl⟩, hread⟩, ?_⟩
          · rw [List.length_append, List.length_take]
            omega
          · rw [hgap, hrest]
          · rw [attributesText, htext, ← hsplit]

/-! ## The sizing pass -/

/-- The bytes by which a text grows at the values that are shorter than `new`. -/
def growth (new : List UInt8) : List DomainAttribute → ℕ
  | [] => 0
  | a :: as => (new.length - a.value.length) + growth new as

theorem bytesAt_drop {l : List UInt8} (hb : h.buffer = x ++ l ++ z) (n : ℕ) :
    h.bytesAt (x.length + n) (l.length - n) = l.drop n := by
  rcases Nat.le_total n l.length with hn | hn
  · have hl := bytesAt_of_append hb
    rw [← Nat.add_sub_cancel' hn, bytesAt_add] at hl
    nth_rewrite 2 [← hl]
    exact (List.drop_left' (length_bytesAt _ _ _)).symm
  · rw [Nat.sub_eq_zero_of_le hn, List.drop_of_length_le hn]
    rfl

/-- The sizing pass comes to the values of the block and counts what they grow by. -/
theorem domainSpan_sizing (u : ℕ) (calls : List DomainCall) (hread : ReadAs n as trailing)
    (hb : h.buffer = x ++ attributesText as trailing ++ rest)
    (hs : s = x.length + n) (hstop : stop = x.length + (attributesText as trailing).length) :
    ∃ ds more, domainSpan (logged (sizeNeedForSuffix suffix)) ⟨h, 0, none, u, calls⟩ s
        (stop - s) = .ok ds ∧
      ds.user.1 = u + growth (suffixText suffix) as ∧ ds.user.2 = calls ++ more ∧
      more.map DomainCall.place = valuePlaces as (trailing ++ rest) := by
  induction as generalizing x s n u calls with
  | nil =>
      have hbytes : h.bytesAt s (stop - s) = trailing.drop n := by
        rw [← bytesAt_drop (l := trailing) hb n, hs, hstop, Nat.add_sub_add_left]
        rfl
      obtain ⟨k, start, hrun⟩ := domainSpan_none (f := logged (sizeNeedForSuffix suffix))
        (u := (u, calls)) (Nat.zero_le _) ((congrArg _ hbytes).trans hread)
      exact ⟨_, [], hrun, rfl, (List.append_nil _).symm, rfl⟩
  | cons a as ih =>
      obtain ⟨⟨hn, hrest⟩, ⟨t, hv, hhead⟩, hlater⟩ := hread
      obtain ⟨w, hw⟩ := List.head?_eq_some_iff.mp hhead
      have hb' := attributesText_cons a as hb
      have hgap : h.bytesAt s (x.length + a.gap.length - s) = a.gap.drop n := by
        rw [← bytesAt_drop (x := x) (z := a.key ++ a.value ++ (attributesText as trailing ++ rest))
          (by rw [hb']; simp only [List.append_assoc]) n, hs, Nat.add_sub_add_left]
      have hstops : x.length + a.gap.length + a.key.length + a.value.length < stop := by
        rw [hstop, attributesText, hw]
        simp only [List.length_append, List.length_cons]
        omega
      have hfound := firstValue_bytesAt (s := s) (z := w ++ rest) (by rw [hb', hw]; rfl) hv
        (by omega) (by rw [hgap, hrest]) hstops
      have hcall := place_eq h hb'
      set first := x.length + a.gap.length + a.key.length with hfirst
      set last := first + a.value.length with hlast
      have hx : (x ++ a.gap ++ a.key ++ a.value).length = last := by
        simp only [List.length_append, hfirst, hlast]
      obtain ⟨ds, more, hrun, hcount, huser, hplaces⟩ := ih (x := x ++ a.gap ++ a.key ++ a.value)
        (u + ((suffixText suffix).length - (last - first))) (calls ++ [⟨h, first, last, h⟩]) hlater
        (by rw [hb']; simp only [List.append_assoc]) (by rw [hx]) (by
          rw [hstop, hx, attributesText]
          simp only [List.length_append]
          omega)
      refine ⟨ds, _ :: more, ?_, ?_, by rw [huser, List.append_assoc]; rfl, ?_⟩
      · rw [domainSpan_some (Nat.zero_le _) hfound, logged, sizeNeedForSuffix, bind_ok, bind_ok,
          Nat.sub_sub, show s + (first - s) = first by omega,
          show s + (last - s) = last by omega, show s + (last - s + 1) = last + 1 by omega]
        exact hrun
      · rw [hcount, growth, hlast, Nat.add_sub_cancel_left, Nat.add_assoc]
      · rw [List.map_cons, hplaces, hcall, valuePlaces, attributesText_append]

/-! ## The copying pass -/

/-- Whether the copying pass, at position `s` of a buffer that is done up to `pos`, comes to
none but these values before it is at `stop`: it is at rest in front of one of them, from
there on in the changed buffer, or goes past it, and behind the last one finds none. -/
def Resumes (new : List UInt8) (stop : ℕ) :
    List UInt8 → List UInt8 → ℕ → ℕ → List DomainAttribute → Prop
  | buffer, stale, s, _, [] =>
      domainScanner.firstValue 0 (bytesOf (buffer ++ stale) s (stop - s)) = none
  | buffer, stale, s, pos, a :: as =>
      let key := pos + a.gap.length
      let first := key + a.key.length
      let last := first + a.value.length
      let grown := buffer.take first ++ new ++ buffer.drop last
      ((s ≤ key ∧ domainScanner.hits 0 (bytesOf (buffer ++ stale) s (key - s)) = 0) ∧ last < stop ∧
          Resumes new stop grown ((buffer ++ stale).drop grown.length) (last + 1)
            (first + new.length) as) ∨
        Resumes new stop buffer stale s last as

instance decidableResumes (new : List UInt8) (stop : ℕ) :
    (buffer stale : List UInt8) → (s pos : ℕ) → (as : List DomainAttribute) →
      Decidable (Resumes new stop buffer stale s pos as)
  | _, _, _, _, [] => inferInstanceAs (Decidable (_ = none))
  | buffer, stale, s, pos, a :: as =>
      let first := pos + a.gap.length + a.key.length
      let last := first + a.value.length
      let grown := buffer.take first ++ new ++ buffer.drop last
      have := decidableResumes new stop grown ((buffer ++ stale).drop grown.length) (last + 1)
        (first + new.length) as
      have := decidableResumes new stop buffer stale s last as
      inferInstanceAs (Decidable (((_ ∧ _) ∧ _ ∧ Resumes new stop _ _ _ _ as) ∨
        Resumes new stop _ _ _ _ as))

/-- A pass that finds nothing goes past everything. -/
theorem resumes_of_none {pos : ℕ}
    (hnone : domainScanner.firstValue 0 (h.bytesAt s (stop - s)) = none) :
    Resumes new stop h.buffer h.stale s pos as := by
  induction as generalizing pos with
  | nil => exact hnone
  | cons a as ih => exact .inr ih

/-- A copying pass that comes to none but these values stays in the room counted for
them. -/
theorem domainSpan_of_resumes (calls : List DomainCall) (hread : ReadAs n as trailing)
    (hb : h.buffer = x ++ attributesText as trailing ++ rest)
    (hstep : Resumes (suffixText suffix) stop h.buffer h.stale s x.length as) :
    ∃ ds more, domainSpan (logged (copySuffix suffix)) ⟨h, 0, none, (), calls⟩ s (stop - s) =
        .ok ds ∧ ds.user.2 = calls ++ more ∧
      List.Sublist (more.map DomainCall.place) (valuePlaces as (trailing ++ rest)) ∧
      ∀ c ∈ more,
        c.after.buffer.length ≤ h.buffer.length + growth (suffixText suffix) as := by
  induction as generalizing h x s n calls with
  | nil =>
      obtain ⟨k, start, hrun⟩ := domainSpan_none (f := logged (copySuffix suffix))
        (u := ((), calls)) (Nat.zero_le _) hstep
      exact ⟨_, [], hrun, (List.append_nil _).symm, .slnil, by simp⟩
  | cons a as ih =>
      obtain ⟨-, ⟨t, hv, hhead⟩, hlater⟩ := hread
      obtain ⟨w, hw⟩ := List.head?_eq_some_iff.mp hhead
      have hb' := attributesText_cons a as hb
      rcases hstep with ⟨⟨hs, hrest⟩, hstop, hafter⟩ | hpast
      · have hrun := domainSpan_attribute suffix calls (z := w ++ rest) (by rw [hb', hw]; rfl) hv hs
          hrest hstop
        have hcall := place_eq (h.copied (suffixText suffix) (x.length + a.gap.length +
          a.key.length) (x.length + a.gap.length + a.key.length + a.value.length)) hb'
        have hbuffer := buffer_copied_attribute (suffixText suffix) hb'
        have hlength := congrArg List.length hbuffer
        have hlength' := congrArg List.length hb'
        rw [← List.append_assoc] at hbuffer
        simp only [List.length_append] at hlength hlength'
        have hx : (x ++ a.gap ++ a.key ++ suffixText suffix).length =
            x.length + a.gap.length + a.key.length + (suffixText suffix).length := by
          simp only [List.length_append]
        rw [← hx] at hafter
        obtain ⟨ds, more, hds, huser, hplaces, hroom⟩ := ih _ hlater hbuffer hafter
        refine ⟨ds, _ :: more, hrun.trans hds, by rw [huser, List.append_assoc]; rfl, ?_, ?_⟩
        · rw [List.map_cons, hcall, valuePlaces, attributesText_append]
          exact hplaces.cons_cons _
        · rintro c (_ | ⟨_, hc⟩)
          · simp only [growth]
            omega
          · have := hroom c hc
            simp only [growth]
            omega
      · have hx : (x ++ a.gap ++ a.key ++ a.value).length =
            x.length + a.gap.length + a.key.length + a.value.length := by
          simp only [List.length_append]
        obtain ⟨ds, more, hrun, huser, hplaces, hroom⟩ :=
          ih (x := x ++ a.gap ++ a.key ++ a.value) calls hlater
            (by rw [hb']; simp only [List.append_assoc]) (by rwa [hx])
        refine ⟨ds, more, hrun, huser, hplaces.trans (List.sublist_cons_self _ _), ?_⟩
        intro c hc
        exact (hroom c hc).trans (Nat.add_le_add_left (Nat.le_add_left _ _) _)

/-- A copying pass whose calls are among these values comes to none but them. -/
theorem resumes_of_domainSpan {ds : DomainScan (Unit × List DomainCall)}
    {calls more : List DomainCall} (hb : h.buffer = x ++ attributesText as z)
    (hrun : domainSpan (logged (copySuffix suffix)) ⟨h, 0, none, (), calls⟩ s (stop - s) = .ok ds)
    (huser : ds.user.2 = calls ++ more)
    (hplaces : List.Sublist (more.map DomainCall.place) (valuePlaces as z)) :
    Resumes (suffixText suffix) stop h.buffer h.stale s x.length as := by
  induction as generalizing h x s calls more with
  | nil =>
      cases hfound : domainScanner.firstValue 0 (h.bytesAt s (stop - s)) with
      | none => exact hfound
      | some r =>
          obtain ⟨-, later, rfl, -⟩ := exists_first_call hrun huser hfound
          cases hplaces
  | cons a as ih =>
      have hb' : h.buffer = x ++ a.gap ++ a.key ++ a.value ++ attributesText as z := by
        rw [hb, attributesText]
        simp only [List.append_assoc]
      have hpast : List.Sublist (more.map DomainCall.place) (valuePlaces as z) →
          Resumes (suffixText suffix) stop h.buffer h.stale s
            (x.length + a.gap.length + a.key.length + a.value.length) as := by
        intro hlater
        have := ih (x := x ++ a.gap ++ a.key ++ a.value) hb' hrun huser hlater
        simpa only [List.length_append] using this
      cases hfound : domainScanner.firstValue 0 (h.bytesAt s (stop - s)) with
      | none => exact resumes_of_none hfound
      | some r =>
          obtain ⟨b, e⟩ := r
          obtain ⟨hle, later, rfl, hrest, hlater⟩ := exists_first_call hrun huser hfound
          rcases List.sublist_cons_iff.mp hplaces with hskip | ⟨places, hcons, hsub⟩
          · exact .inr (hpast hskip)
          · rw [List.map_cons, List.cons.injEq] at hcons
            obtain ⟨hplace, rfl⟩ := hcons
            obtain ⟨hfirst, hlast⟩ := of_place_eq hb' hle hfound hplace
            obtain ⟨hkey, -, hstop⟩ := of_firstValue_bytesAt hb' hfound hfirst hlast
            rw [hfirst, hlast] at hrest hlater
            have hstep := ih (buffer_copied_attribute (suffixText suffix) hb') hrest hlater hsub
            simp only [List.length_append] at hstep
            exact .inl ⟨hkey, hstop, hstep⟩

/-! ## The two passes -/

/-- The room that the sizing pass asks for is enough after every step of the copying
pass. -/
def RoomSuffices (suffix : List UInt8) (h : HttpMessage) : Prop :=
  ∃ n read h' u calls, h.sizingPass suffix = .ok (h, n, read) ∧
    h.copyingPass suffix = .ok (h', u, calls) ∧
    ∀ c ∈ calls, c.after.buffer.length ≤ h.buffer.length + n

/-- The copying pass comes to no values but those that the sizing pass came to. -/
def PassesAgree (suffix : List UInt8) (h : HttpMessage) : Prop :=
  ∃ n read h' u calls, h.sizingPass suffix = .ok (h, n, read) ∧
    h.copyingPass suffix = .ok (h', u, calls) ∧
    List.Sublist (calls.map DomainCall.place) (read.map DomainCall.place)

section
variable {b : ReadBlock}

theorem sizingPass_eq (suffix : List UInt8) (hb : h.buffer = b.text ++ rest)
    (hp : h.payload = some b.text.length) :
    ∃ read, h.sizingPass suffix = .ok (h, growth (suffixText suffix) b.attributes, read) ∧
      read.map DomainCall.place = valuePlaces b.attributes (b.trailing ++ rest) := by
  obtain ⟨n, read, hsizing⟩ := exists_sizingPass suffix h
  obtain ⟨ds, more, hrun, hcount, huser, hplaces⟩ :=
    domainSpan_sizing (x := []) (s := 0) 0 [] b.read hb rfl
      (show b.text.length = 0 + b.text.length from (Nat.zero_add _).symm)
  have hpass := applyOnDomain_eq (f := logged (sizeNeedForSuffix suffix)) h (0, [])
  rw [show h.payload.getD 0 = b.text.length - 0 by rw [hp]; rfl, hrun, bind_ok] at hpass
  have hresult := Except.ok.inj (hsizing.symm.trans hpass)
  have hn : n = ds.user.1 := congrArg (fun r => r.2.1) hresult
  have hread : read = ds.user.2 := congrArg (fun r => r.2.2) hresult
  rw [Nat.zero_add] at hcount
  rw [List.nil_append] at huser
  refine ⟨read, ?_, by rw [hread, huser, hplaces]⟩
  rw [hsizing, hn, hcount]

/-- **When the sizing and the copying pass agree.** All values that the copying pass
replaces were counted by the sizing pass, and the room made for them is enough after
each, if and only if the copying pass resumes, behind every value that it replaces, where
it comes to such a value or to none. -/
theorem roomSuffices_iff (suffix : List UInt8) (h : HttpMessage) (b : ReadBlock)
    (rest : List UInt8) (hb : h.buffer = b.text ++ rest) (hp : h.payload = some b.text.length) :
    RoomSuffices suffix h ∧ PassesAgree suffix h ↔
      Resumes (suffixText suffix) b.text.length h.buffer h.stale 0 0 b.attributes := by
  obtain ⟨read, hsizing, hread⟩ := sizingPass_eq suffix hb hp
  obtain ⟨n, hpass⟩ := exists_copyingPass suffix h
  rw [show h.payload.getD 0 = b.text.length - 0 by rw [hp]; rfl] at hpass
  constructor
  · rintro ⟨-, m, read', h', u, calls, hsizing', hcopy, hsub⟩
    have hsame := Except.ok.inj (hsizing.symm.trans hsizing')
    have hreads : read = read' := congrArg (fun r => r.2.2) hsame
    rw [hcopy] at hpass
    obtain ⟨ds, hrun, hds⟩ := bind_eq_ok.mp hpass.symm
    have huser : ds.user.2 = [] ++ calls := congrArg (fun r => r.2.2) (Except.ok.inj hds)
    rw [← hreads, hread] at hsub
    refine resumes_of_domainSpan (h := { h with totalBlock := n }) (x := []) ?_ hrun huser hsub
    rw [hb, List.nil_append, attributesText_append]
    rfl
  · intro hresumes
    obtain ⟨ds, calls, hrun, huser, hsub, hroom⟩ :=
      domainSpan_of_resumes (h := { h with totalBlock := n }) (x := []) [] b.read hb
        hresumes
    rw [hrun, bind_ok] at hpass
    have hcopy : h.copyingPass suffix = .ok (ds.http, ds.user.1, calls) := by
      rw [hpass, show calls = ds.user.2 from huser.symm]
    exact ⟨⟨_, read, _, _, calls, hsizing, hcopy, hroom⟩,
      ⟨_, read, _, _, calls, hsizing, hcopy, by rw [hread]; exact hsub⟩⟩

/-- The pass that `DomainsFit` is about, beside the copying pass in the same block `g`. -/
theorem alike_copySuffixWithin (suffix : List UInt8) (g : HttpMessage) :
    Alike (fun (a : HttpMessage × Unit × List DomainCall) (b : HttpMessage × Bool) =>
        a.1 = b.1 ∧ a.1.totalBlock = g.totalBlock ∧
          (b.2 = true ↔ ∀ c ∈ a.2.2, c.after.buffer.length ≤ g.capacity))
      (g.applyOnDomain (logged (copySuffix suffix)) ((), []))
      (g.applyOnDomain (copySuffixWithin suffix) true) := by
  refine applyOnDomain_alike (R := fun (h : HttpMessage) (a : Unit × List DomainCall) (b : Bool) =>
    h.totalBlock = g.totalBlock ∧
      (b = true ↔ ∀ c ∈ a.2, c.after.buffer.length ≤ g.capacity)) ?_ ⟨rfl, by simp⟩
  rintro h first last ⟨u, calls⟩ within ⟨hblock, hwithin⟩
  rw [logged, copySuffixWithin, copySuffix_eq]
  by_cases hlast : h.buffer.length < last
  · rw [if_pos hlast]
    exact rfl
  · have hcapacity : (h.copied (suffixText suffix) first last).capacity = g.capacity :=
      congrArg (fun n => n - sizeofHttp + maxStr) hblock
    rw [if_neg hlast]
    refine ⟨rfl, hblock, ?_⟩
    rw [Bool.and_eq_true, decide_eq_true_eq, hwithin, hcapacity]
    simp [or_imp, forall_and]

/-- **Room in the block.** What the copying pass puts in stays in the block that the message has
after `reallocation_protocol`, if the pass resumes and this block has room for what was counted. -/
theorem domainsFit_of_resumes (hblock : sizeofHttp ≤ h.totalBlock)
    (hused : h.buffer.length ≤ h.capacity) (hb : h.buffer = b.text ++ rest)
    (hp : h.payload = some b.text.length)
    (hfits : Fits h.capacity (h.buffer.length + growth (suffixText suffix) b.attributes))
    (hresumes : Resumes (suffixText suffix) b.text.length h.buffer h.stale 0 0 b.attributes) :
    DomainsFit suffix h := by
  obtain ⟨⟨n, read, h', u, calls, hsizing, hcopy, hroom⟩, -⟩ :=
    (roomSuffices_iff suffix h b rest hb hp).mpr hresumes
  obtain ⟨read', hsizing', -⟩ := sizingPass_eq suffix hb hp
  obtain rfl : n = growth (suffixText suffix) b.attributes :=
    congrArg (fun r => r.2.1) (Except.ok.inj (hsizing.symm.trans hsizing'))
  intro r hr x hx
  have hplain := applyOnDomain_logged (f := sizeNeedForSuffix suffix) h 0 []
  rw [hr, ← sizingPass, hsizing] at hplain
  rw [← show _ = r.2 from hplain.2] at hx
  rw [copyingPass, hsizing, bind_ok] at hcopy
  dsimp only at hcopy
  generalize hg : (if 0 < growth (suffixText suffix) b.attributes then
    h.reallocationProtocol (growth (suffixText suffix) b.attributes) else h) = g at hcopy hx
  have hboth := alike_copySuffixWithin suffix g
  rw [hcopy, hx] at hboth
  refine hboth.2.2.mpr fun c hc => (hroom c hc).trans ?_
  rw [← hg]
  split_ifs with hgrowth
  · rw [capacity_reallocationProtocol hblock]
    rcases hfits with hfits | hfits
    · rw [if_pos hfits]
      exact hfits.le
    · split_ifs with hlt
      · exact hlt.le
      · exact hfits
  · rw [Nat.eq_zero_of_not_pos hgrowth]
    exact hused

end

theorem roomSuffices_iff_oneCookie :
    let h : HttpMessage := { HttpMessage.create ⟨[], .null, .null, .null⟩ .victim with
      buffer := oneCookie.text ++ chars "body", payload := some oneCookie.text.length }
    RoomSuffices (chars "p.net") h ∧ PassesAgree (chars "p.net") h :=
  (roomSuffices_iff _ _ ⟨oneCookie.attributes, oneCookie.trailing,
    ⟨by decide +kernel, by decide +kernel⟩, ⟨13, ⟨by decide +kernel, by decide +kernel, by decide +kernel⟩, rfl⟩,
    (by decide +kernel : domainScanner.firstValue 0 (oneCookie.trailing.drop 1) = none)⟩ _ rfl rfl).mpr
    (by decide +kernel)

/-- For `; domain=x; domain=y` the sizing pass asks for four bytes: the `;` behind the first
value ends it and is not looked at again. The copying pass, which is four bytes behind,
looks at it, and grows by eight. -/
theorem not_roomSuffices :
    ¬ ∀ (suffix : List UInt8) (h : HttpMessage) (b : ReadBlock) (rest : List UInt8),
      h.buffer = b.text ++ rest → h.payload = some b.text.length → RoomSuffices suffix h := by
  intro hall
  let text := chars "HTTP/1.0 200 OK\r\nSet-Cookie: a=1; domain=x; domain=y\r\nServer: s\r\n\r\n"
  let h : HttpMessage := { HttpMessage.create ⟨[], .null, .null, .null⟩ .victim with
    buffer := text, payload := some text.length }
  obtain ⟨b, hb⟩ := exists_readBlock h.buffer
  obtain ⟨n, read, h', u, calls, hsizing, hcopy, hroom⟩ :=
    hall (chars "p.net") h b [] (by rw [hb, List.append_nil]) (by rw [hb])
  have hcount : ((h.sizingPass (chars "p.net")).toOption.map fun r => r.2.1) = some 4 := by
    decide +kernel
  have hgrown : ((h.copyingPass (chars "p.net")).toOption.map fun r =>
      r.2.2.any fun c => h.buffer.length + 4 < c.after.buffer.length) = some true := by
    decide +kernel
  rw [hsizing] at hcount
  rw [hcopy] at hgrown
  obtain rfl : n = 4 := Option.some.inj hcount
  obtain ⟨c, hc, hlt⟩ := List.any_eq_true.mp (Option.some.inj hgrown)
  exact absurd (hroom c hc) (not_le.mpr (of_decide_eq_true hlt))

end HttpMessage

end RenaProxy
