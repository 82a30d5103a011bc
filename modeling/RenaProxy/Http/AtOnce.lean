import RenaProxy.Http.Segmentation

/-!
# Reads that come to one long read

As long as `http_evaluate` forces no held bytes out, a client is left by its reads as one read
of all their bytes would have left it (`atOnce_clientReads`). From there the next read is
followed to its end, be it one that leaves the connection open or the one that finds it closed.
-/
namespace RenaProxy
open Failure DatabaseObject HttpMessage

variable {rena : Rena} {type : ClientType} {peer : Option HttpMessage} {fd : ℤ}
  {m : HttpMessage} {x : List UInt8} {c : ClientInfo} {ev : ReadEvent}

theorem toInt32_add {z : ℤ} {n : ℕ} (h : toInt32 z + n < 2 ^ 31) :
    toInt32 (z + n) = toInt32 z + n := by
  have hle : -2 ^ 31 ≤ toInt32 z := Int.le_bmod (by decide)
  rw [toInt32, toInt32, ← Int.bmod_add_bmod, Int.bmod_eq_of_le]
  all_goals
    rw [toInt32] at h hle
    omega

theorem toInt32_wrap {z : ℤ} {n : ℕ} (h : toInt32 z + n = 2 ^ 31) : toInt32 (z + n) = -2 ^ 31 := by
  rw [toInt32] at h
  rw [toInt32, ← Int.bmod_add_bmod, h]
  decide

namespace HttpMessage

/-- What one long read makes of some bytes. -/
def atOnce (rena : Rena) (type : ClientType) (peer : Option HttpMessage) (x : List UInt8) :
    Except Fault HttpMessage :=
  (create rena type).pullBytes rena type peer x

theorem atOnce_append (rena : Rena) (type : ClientType) (peer : Option HttpMessage)
    (x y : List UInt8) : atOnce rena type peer (x ++ y) =
      atOnce rena type peer x >>= fun m => m.pullBytes rena type peer y :=
  pullBytes_append _ x y

theorem bytesFit_append {h : HttpMessage} {y : List UInt8} :
    BytesFit rena type peer h (x ++ y) ↔ BytesFit rena type peer h x ∧
      OnOk (fun h' => BytesFit rena type peer h' y) (h.pullBytes rena type peer x) := by
  induction x generalizing h with
  | nil =>
      refine ⟨fun hy => ⟨trivial, fun h' hok => ?_⟩, fun hy => hy.2 h rfl⟩
      obtain rfl : h = h' := Except.ok.inj hok
      exact hy
  | cons b x ih =>
      rw [List.cons_append, BytesFit, BytesFit, pullBytes, List.foldlM_cons, and_assoc]
      cases hb : h.pullByte rena type peer b with
      | error e =>
          refine and_congr_right fun _ => ?_
          simp [OnOk, bind, Except.bind]
      | ok h₁ =>
          have hone : ∀ P : HttpMessage → Prop, OnOk P (.ok h₁ : Except Fault HttpMessage) ↔ P h₁ :=
            fun P => ⟨fun hP => hP h₁ rfl, fun hP _ h => Except.ok.inj h ▸ hP⟩
          rw [hone, hone, ih, bind_ok]
          rfl

/-- The total that the protocol expects is in reach of what was received and is held, or it
expects none. -/
def Reached (m : HttpMessage) (received held : ℕ) : Prop :=
  m.payload.isSome ∧
    (0 ≤ m.expectedPayload → m.expectedPayload ≤ toInt32 received + (held : ℤ))

/-- It is in reach only with what is held, which is forced out then. -/
def ReachedByForce (m : HttpMessage) (received : ℕ) : Prop :=
  m.Reached received m.lookupTree.getHoldingSize ∧ 0 ≤ m.expectedPayload ∧
    toInt32 received < m.expectedPayload

end HttpMessage

/-- A requester is dispatched when the expected total is in reach. -/
theorem Http.dispatch_iff (h : Http) (fd : ℤ) :
    (∃ ret freed, h.evaluation .requester fd = .dispatch ret freed) ↔
      h.Reached h.bufferRecv h.lookupTree.getHoldingSize := by
  have hmissing := h.missing_iff
  rw [Http.evaluation, Reached]
  by_cases hp : h.payload.isNone
  · have hsome : ¬ h.payload.isSome := by simpa using hp
    rw [if_pos hp]
    simp [hsome]
  · have hsome : h.payload.isSome := by simpa [Option.isSome_iff_ne_none] using hp
    rw [if_neg hp]
    dsimp only
    by_cases hm : h.checkPayloadLength.1
    · have := hmissing.mp hm
      rw [if_pos hm]
      refine iff_of_false (by simp) fun hreach => ?_
      have := hreach.2 this.1
      omega
    · have := mt hmissing.mpr hm
      rw [if_neg hm]
      refine iff_of_true ⟨_, _, rfl⟩ ⟨hsome, fun hpos => ?_⟩
      omega

theorem Http.forcesFlush_iff_reachedByForce (h : Http) :
    h.forcesFlush ↔ h.ReachedByForce h.bufferRecv := by
  rw [h.forcesFlush_iff, ReachedByForce, Reached]
  constructor
  · rintro ⟨hp, hpos, hlt, hle⟩
    exact ⟨⟨hp, fun _ => hle⟩, hpos, hlt⟩
  · rintro ⟨⟨hp, hle⟩, hpos, hlt⟩
    exact ⟨hp, hpos, hlt, hle hpos⟩

/-- The protocol of an open connection is what one read of `x` makes of it. -/
structure AtOnce (rena : Rena) (type : ClientType) (peer : Option HttpMessage) (fd : ℤ)
    (x : List UInt8) (c : ClientInfo) : Prop where
  fd_eq : c.fd = fd
  message : atOnce rena type peer x = .ok (c.message rena type)
  received : (c.protocol.getD (.create rena type)).bufferRecv = x.length

theorem atOnce_fresh (rena : Rena) (type : ClientType) (peer : Option HttpMessage) (fd : ℤ)
    (ssl : Bool) : AtOnce rena type peer fd [] (.fresh fd ssl) := ⟨rfl, rfl, rfl⟩

namespace AtOnce

theorem pullBytes_message (H : AtOnce rena type peer fd x c) {y : List UInt8}
    (hm : atOnce rena type peer (x ++ y) = .ok m) :
    (c.message rena type).pullBytes rena type peer y = .ok m := by
  rwa [atOnce_append, H.message, bind_ok] at hm

/-- The protocol that the bytes of a read lead to. -/
theorem pullChunk_protocol (H : AtOnce rena type peer fd x c) {y : List UInt8}
    (hm : atOnce rena type peer (x ++ y) = .ok m) :
    ∃ h : Http, h.toHttpMessage = m ∧ h.bufferRecv = (x ++ y).length ∧
      (c.protocol.getD (.create rena type)).pullChunk rena type peer y = .ok h := by
  refine ⟨_, ?_, ?_, bind_eq_ok.mpr ⟨m, H.pullBytes_message hm, rfl⟩⟩
  · rfl
  · simp [H.received]

/-- A read stays in the block if the bytes do so in one read, and what is held at its end finds
room where it is put out. -/
theorem readFits (H : AtOnce rena type peer fd x c)
    (hm : atOnce rena type peer (x ++ ev.chunks.flatten) = .ok m)
    (hfits : BytesFit rena type peer (.create rena type) (x ++ ev.chunks.flatten))
    (hbrings : ev.stop ≠ .closed → ev.chunks ≠ [])
    (hheld : ev.stop = .closed ∨ m.ReachedByForce (x ++ ev.chunks.flatten).length →
      m.HeldFits) : ReadFits rena type peer c fd ev := by
  obtain ⟨h, hh, hrecv, hpull⟩ := H.pullChunk_protocol hm
  intro hfd
  refine ⟨(bytesFit_append.mp hfits).2 _ H.message, fun hstop p hp h' hh' => ?_, ?_⟩
  · by_cases hnone : ev.chunks = []
    · rw [hnone] at hp hm
      obtain rfl : c.protocol = p := Except.ok.inj hp
      rw [List.flatten_nil, List.append_nil, H.message] at hm
      have hmsg := Except.ok.inj hm
      rw [ClientInfo.message, hh'] at hmsg
      rw [Option.getD_some] at hmsg
      rw [hmsg]
      exact hheld (.inl hstop)
    · rw [Http.pullChunks_eq hnone, hpull, bind_ok] at hp
      obtain rfl := Except.ok.inj hp
      obtain rfl : h = h' := Option.some.inj hh'
      rw [hh]
      exact hheld (.inl hstop)
  · rintro ⟨c', ret⟩ hc' hret h' hh' hforce
    by_cases hstop : ev.stop = .closed
    · -- what was held was put out before
      rcases httpPull_cases hc' with ⟨hne, -⟩ | ⟨-, p, -, ⟨-, -, hprot, -⟩ | ⟨hopen, -⟩⟩
      · exact absurd hfd hne
      · obtain ⟨h₀, -, rfl⟩ := Option.map_eq_some_iff.mp (hprot.symm.trans hh')
        have hheld₀ : h₀.flushPendingDataToBuffer.lookupTree.input = [] := by
          simp [Http.flushPendingDataToBuffer, clearInput]
        have := h₀.flushPendingDataToBuffer.forcesFlush_iff.mp hforce
        rw [getHoldingSize, hheld₀, List.length_nil] at this
        omega
      · exact absurd hstop hopen
    · rw [httpPull_open hfd hstop (hbrings hstop), hpull, bind_ok] at hc'
      obtain ⟨rfl, -⟩ := Prod.mk.inj (Except.ok.inj hc')
      obtain rfl : h = h' := Option.some.inj hh'
      have hforced := h.forcesFlush_iff_reachedByForce.mp hforce
      rw [hh, hrecv] at hforced
      rw [hh]
      exact hheld (.inr hforced)

/-- A read that brings bytes and leaves the connection open. -/
theorem read_open (H : AtOnce rena type peer fd x c) (hstop : ev.stop ≠ .closed)
    (hne : ev.chunks ≠ []) (hfit : ReadFits rena type peer c fd ev)
    (hm : atOnce rena type peer (x ++ ev.chunks.flatten) = .ok m) :
    ∃ h : Http, h.toHttpMessage = m ∧ h.bufferRecv = (x ++ ev.chunks.flatten).length ∧
      clientDoRead rena type peer c fd ev =
        .ok ({ c.clearWant with protocol := some h.evaluated }, h.evaluation type fd) := by
  obtain ⟨h, hh, hrecv, hpull⟩ := H.pullChunk_protocol hm
  refine ⟨h, hh, hrecv, ?_⟩
  rw [clientDoRead_open H.fd_eq hstop hne hfit, hpull, bind_ok]

/-- The read that finds the connection closed behind the header block. -/
theorem read_closed (H : AtOnce rena type peer fd x c) (hstop : ev.stop = .closed)
    (hfit : ReadFits rena type peer c fd ev)
    (hm : atOnce rena type peer (x ++ ev.chunks.flatten) = .ok m) (hp : m.payload.isSome) :
    ∃ h : Http, h.toHttpMessage = m ∧ h.bufferRecv = (x ++ ev.chunks.flatten).length ∧
      clientDoRead rena type peer c fd ev =
        .ok ({ c with protocol := some h.flushPendingDataToBuffer, fd := -1 },
          h.flushPendingDataToBuffer.evaluation type (-1)) := by
  obtain ⟨chunks, stop⟩ := ev
  obtain rfl : stop = .closed := hstop
  rw [clientDoRead_closed H.fd_eq chunks hfit]
  by_cases hnone : chunks = []
  · subst hnone
    rw [List.flatten_nil, List.append_nil] at hm ⊢
    have hmsg := Except.ok.inj (H.message.symm.trans hm)
    cases hprot : c.protocol with
    | none =>
        rw [ClientInfo.message, hprot] at hmsg
        rw [← hmsg] at hp
        cases hp
    | some h =>
        rw [ClientInfo.message, hprot] at hmsg
        have hrecv := H.received
        rw [hprot] at hrecv
        exact ⟨h, hmsg, hrecv, rfl⟩
  · obtain ⟨h, hh, hrecv, hpull⟩ := H.pullChunk_protocol hm
    refine ⟨h, hh, hrecv, ?_⟩
    rw [Http.pullChunks_eq hnone, hpull]
    rfl

/-- A read after which nothing is forced out leaves the client as one read would. -/
theorem clientDoRead (H : AtOnce rena type peer fd x c)
    (hopen : ev.stop ≠ .closed ∧ (ev.stop = .retry → ev.chunks ≠ []))
    (hfits : BytesFit rena type peer (.create rena type) (x ++ ev.chunks.flatten))
    (hm : atOnce rena type peer (x ++ ev.chunks.flatten) = .ok m)
    (hquiet : ¬ m.ReachedByForce (x ++ ev.chunks.flatten).length) :
    ∃ c' e, RenaProxy.clientDoRead rena type peer c fd ev = .ok (c', e) ∧
      AtOnce rena type peer fd (x ++ ev.chunks.flatten) c' := by
  obtain ⟨hstop, hretry⟩ := hopen
  have hheld : ev.stop = .closed ∨ m.ReachedByForce (x ++ ev.chunks.flatten).length →
      m.HeldFits := fun h => absurd h (not_or.mpr ⟨hstop, hquiet⟩)
  by_cases hnone : ev.chunks = []
  · cases hs : ev.stop with
    | closed => exact absurd hs hstop
    | retry => exact absurd hnone (hretry hs)
    | want reading =>
        have hfit : ReadFits rena type peer c fd ev := by
          intro _
          rw [hnone, hs]
          refine ⟨trivial, by simp, ?_⟩
          rw [httpPull, if_neg (not_not.mpr H.fd_eq), hnone, hs]
          rintro x hx hret
          obtain rfl := Except.ok.inj hx
          cases reading <;> simp [ttRead, ttWrite] at hret
        refine ⟨_, _, clientDoRead_want H.fd_eq hs hnone hfit, H.fd_eq, ?_, ?_⟩
        · rw [hnone, List.flatten_nil, List.append_nil]
          exact H.message
        · rw [hnone, List.flatten_nil, List.append_nil]
          exact H.received
  · have hfit := H.readFits hm hfits (fun _ => hnone) hheld
    obtain ⟨h, hh, hrecv, hread⟩ := H.read_open hstop hnone hfit hm
    have hforce : h.evaluated = h := by
      rw [Http.evaluated, if_neg]
      rw [h.forcesFlush_iff_reachedByForce, hh, hrecv]
      exact hquiet
    rw [hforce] at hread
    exact ⟨_, _, hread, H.fd_eq, hm.trans (congrArg _ hh.symm), hrecv⟩

end AtOnce

/-- **Reads that force nothing out come to one long read.** -/
theorem atOnce_clientReads {evs : List ReadEvent} (H : AtOnce rena type peer fd x c)
    (hopen : ∀ ev ∈ evs, ev.stop ≠ .closed ∧ (ev.stop = .retry → ev.chunks ≠ []))
    (hfits : BytesFit rena type peer (.create rena type) (x ++ (evs.flatMap (·.chunks)).flatten))
    (hquiet : ∀ y, x ++ y <+: x ++ (evs.flatMap (·.chunks)).flatten →
      ∃ m, atOnce rena type peer (x ++ y) = .ok m ∧ ¬ m.ReachedByForce (x ++ y).length) :
    ∃ c', clientReads rena type peer fd c evs = .ok c' ∧
      AtOnce rena type peer fd (x ++ (evs.flatMap (·.chunks)).flatten) c' := by
  induction evs generalizing x c with
  | nil =>
      refine ⟨c, rfl, ?_⟩
      simpa using H
  | cons ev evs ih =>
      obtain ⟨hev, hopen⟩ := List.forall_mem_cons.mp hopen
      have happ : x ++ ((ev :: evs).flatMap (·.chunks)).flatten =
          x ++ ev.chunks.flatten ++ (evs.flatMap (·.chunks)).flatten := by
        rw [List.flatMap_cons, List.flatten_append, List.append_assoc]
      rw [happ] at hfits hquiet ⊢
      obtain ⟨m, hm, hforce⟩ := hquiet _ (List.prefix_append _ _)
      obtain ⟨c₁, e, hread, H₁⟩ := H.clientDoRead hev (bytesFit_append.mp hfits).1 hm hforce
      obtain ⟨c', hreads, H'⟩ := ih H₁ hopen hfits fun y hy => by
        rw [List.append_assoc] at hy ⊢
        exact hquiet _ hy
      refine ⟨c', ?_, H'⟩
      rw [clientReads_cons, hread, bind_ok]
      exact hreads

end RenaProxy
