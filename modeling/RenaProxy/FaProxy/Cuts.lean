import RenaProxy.FaProxy.Buffers
import RenaProxy.Lib.Failure

/-!
# Where a text may be cut

A server decides into which buffers its answer comes. `recognised_iff` says for which texts this
does not matter to what is recognised as the head and to what is put out: these are few. The
others have two cuts that make a difference, `exists_apart`.
-/
namespace RenaProxy.FaProxy
open StreamTransducer

/-! ## The texts that may be cut -/

/-- After its first line end, such a text has no other; or two others follow right away; or it
has four in a row the next time that it has one. -/
def CutProof (text : List UInt8) : Prop :=
  let after := (text.dropWhile fun c => ¬ Head.IsSep c).tail
  let next := after.dropWhile fun c => ¬ Head.IsSep c
  next = [] ∨ (if next = after then 2 else 4) ≤ (next.takeWhile fun c => Head.IsSep c).length

instance : DecidablePred CutProof := fun _ => inferInstanceAs (Decidable (_ ∨ _))

section Split
open Head (IsSep)

theorem split_at_sep (text : List UInt8) : ∃ t rest, text = t ++ rest ∧ (∀ c ∈ t, ¬ IsSep c) ∧
    ∀ c ∈ rest.head?, IsSep c := by
  refine ⟨text.takeWhile fun c => ¬ IsSep c, text.dropWhile fun c => ¬ IsSep c, ?_, ?_, ?_⟩
  · exact List.takeWhile_append_dropWhile.symm
  · intro c hc
    have := List.mem_takeWhile_imp hc
    simpa using this
  · intro c hc
    have := List.head?_dropWhile_not (fun c => decide (¬ IsSep c)) text
    rw [Option.mem_def.mp hc] at this
    simpa using this

/-- A text up to its second line end. -/
theorem text_cases (text : List UInt8) : (∀ c ∈ text, ¬ IsSep c) ∨ ∃ t₀ n t₁ next,
    text = t₀ ++ n :: (t₁ ++ next) ∧ (∀ c ∈ t₀, ¬ IsSep c) ∧ IsSep n ∧ (∀ c ∈ t₁, ¬ IsSep c) ∧
      ∀ c ∈ next.head?, IsSep c := by
  obtain ⟨t₀, rest, rfl, ht₀, hrest⟩ := split_at_sep text
  cases rest with
  | nil => exact .inl (by simpa using ht₀)
  | cons n after =>
      obtain ⟨t₁, next, rfl, ht₁, hnext⟩ := split_at_sep after
      exact .inr ⟨t₀, n, t₁, next, rfl, ht₀, hrest n rfl, ht₁, hnext⟩

theorem dropWhile_of_split {t rest : List UInt8} (ht : ∀ c ∈ t, ¬ IsSep c)
    (hrest : ∀ c ∈ rest.head?, IsSep c) : ((t ++ rest).dropWhile fun c => ¬ IsSep c) = rest := by
  rw [List.dropWhile_append_of_pos (by simpa using ht)]
  cases rest with
  | nil => rfl
  | cons c rest => exact List.dropWhile_cons_of_neg (by simpa using hrest c rfl)

theorem cutProof_iff {t₀ t₁ next : List UInt8} {n : UInt8} (ht₀ : ∀ c ∈ t₀, ¬ IsSep c) (hn : IsSep n)
    (ht₁ : ∀ c ∈ t₁, ¬ IsSep c) (hnext : ∀ c ∈ next.head?, IsSep c) :
    CutProof (t₀ ++ n :: (t₁ ++ next)) ↔
      next = [] ∨ (if t₁ = [] then 2 else 4) ≤ (next.takeWhile fun c => IsSep c).length := by
  have hfirst : ((t₀ ++ n :: (t₁ ++ next)).dropWhile fun c => ¬ IsSep c) = n :: (t₁ ++ next) :=
    dropWhile_of_split ht₀ (by simpa using hn)
  have hnil : next = t₁ ++ next ↔ t₁ = [] := by simp
  rw [CutProof, hfirst, List.tail_cons, dropWhile_of_split ht₁ hnext]
  simp only [hnil]

/-- The line ends that a text begins with. -/
theorem take_isSep {next : List UInt8} {k : ℕ} (h : k ≤ (next.takeWhile fun c => IsSep c).length) :
    ∀ c ∈ next.take k, IsSep c := by
  intro c hc
  have hends : next.take k = (next.takeWhile fun c => IsSep c).take k := by
    conv_lhs => rw [← List.takeWhile_append_dropWhile (p := fun c => decide (IsSep c)) (l := next)]
    rw [List.take_append_of_le_length h]
  rw [hends] at hc
  have := List.mem_takeWhile_imp (List.mem_of_mem_take hc)
  simpa using this

end Split

/-! ## Their runs agree -/

/-- The indices of bytes that come in buffers. -/
structure Indexed (ps : List (UInt8 × ℕ)) : Prop where
  chain : ps.IsChain Head.Consecutive
  small : ∀ p ∈ ps, p.2 < 2 ^ 63

namespace Reading
open Head (IsSep Consecutive)
variable {memory : List (List UInt8) → List UInt8} {r s t : Reading} {ps qs : List (UInt8 × ℕ)}

theorem same_lineEnd {h h' : Head} (S : h.Same h') (hbreaks : h.breaks = h'.breaks) (u u' : ℕ) :
    (h.lineEnd memory u).Same (h'.lineEnd memory u') := by
  have hlines : h.lines = h'.lines := by rw [Head.lines, Head.lines, S.earlier, S.line]
  have hcheck : h.checkContentType (memory h.lines) = h'.checkContentType (memory h'.lines) := by
    rw [Head.checkContentType, Head.checkContentType, hlines, S.line, S.interesting]
  rw [Head.lineEnd, Head.lineEnd, Head.addLine, Head.addLine, hcheck, ← S.line, ← S.earlier,
    ← S.stage, ← hbreaks]
  dsimp only
  split_ifs <;> exact ⟨rfl, rfl, rfl, rfl⟩

variable (memory) in
/-- Up to the first line end, which is counted. -/
theorem agree_first {p q : UInt8 × ℕ} (hr : r.Sound) (hhead : r.head = .init)
    (hbytes : ps.map Prod.fst = qs.map Prod.fst) (hps : ∀ p ∈ ps, ¬ IsSep p.1)
    (hpq : p.1 = q.1) (hp : IsSep p.1) (hp' : p.2 < 2 ^ 63) (hq' : q.2 < 2 ^ 63) :
    Agree (fun s t => Alike s t ∧ (s.Sound ∧ s.head.Ended p.2) ∧ t.Sound ∧ t.head.Ended q.2)
      (run (loadByte memory) r (ps ++ [p])) (run (loadByte memory) r (qs ++ [q])) := by
  have hqs : ∀ q ∈ qs, ¬ IsSep q.1 := by
    intro q hq
    obtain ⟨p, hp, heq⟩ := List.mem_map.mp (hbytes ▸ List.mem_map_of_mem hq : q.1 ∈ ps.map Prod.fst)
    exact heq ▸ hps p hp
  have A : Alike r r := ⟨⟨rfl, rfl, rfl, rfl⟩, rfl, fun _ => rfl⟩
  apply (tracked hr hr (A.run_of_not_isSep hbytes hps)).append
  intro s t hst
  obtain ⟨hA, ⟨hs, hshead⟩, ht, hthead⟩ := hst
  have hinit : Head.init.stage ≠ .body := by decide
  rw [hhead, Head.reads_of_not_isSep hinit hps] at hshead
  rw [hhead, Head.reads_of_not_isSep hinit hqs] at hthead
  have hsbreaks : s.head.breaks = 0 := hshead ▸ ite_self 0
  have htbreaks : t.head.breaks = 0 := hthead ▸ ite_self 0
  have hsstage : s.head.stage ≠ .body := hshead ▸ hinit
  have htstage : t.head.stage ≠ .body := hthead ▸ hinit
  have hne : ∀ u, u < 2 ^ 63 → (Head.init.lastCharAt + 1) % 2 ^ 64 ≠ u := by
    intro u hu
    have : (Head.init.lastCharAt + 1) % 2 ^ 64 = 2 ^ 64 - 5 := by decide
    omega
  have hsread : s.head.read memory p = s.head.lineEnd memory p.2 :=
    Head.read_of_ne hsstage hp (hshead ▸ hne _ hp')
  have htread : t.head.read memory q = t.head.lineEnd memory q.2 :=
    Head.read_of_ne htstage (hpq ▸ hp) (hthead ▸ hne _ hq')
  have hstep := hA.loadByte memory hpq
    (by rw [hsread, htread]; exact same_lineEnd hA.head (hsbreaks.trans htbreaks.symm) _ _)
  apply (tracked hs ht hstep.singleton).mono
  intro s' t' h
  obtain ⟨hA', ⟨hs', hshead'⟩, ht', hthead'⟩ := h
  rw [Head.reads_cons, hsread, Head.reads_nil] at hshead'
  rw [Head.reads_cons, htread, Head.reads_nil] at hthead'
  exact ⟨hA', ⟨hs', hshead' ▸ Head.ended_lineEnd memory hsstage hsbreaks p.2⟩,
    ht', hthead' ▸ Head.ended_lineEnd memory htstage htbreaks q.2⟩

/-- Line ends that end the head, and the rest of the text. -/
theorem agree_ends {ends rest ends' rest' : List (UInt8 × ℕ)} (A : Alike s t) (hs : s.Sound)
    (ht : t.Sound) (hstage : s.head.stage ≠ .body)
    (hends : ends.map Prod.fst = ends'.map Prod.fst) (hrest : rest.map Prod.fst = rest'.map Prod.fst)
    (hsep : ∀ p ∈ ends, IsSep p.1) {h : Head} (hbody : h.stage = .body)
    (hread : (s.head.reads memory ends).Same h) (hread' : (t.head.reads memory ends').Same h) :
    Agree Alike (run (loadByte memory) s (ends ++ rest))
      (run (loadByte memory) t (ends' ++ rest')) := by
  have hsbody := hread.stage.trans hbody
  apply (tracked hs ht (A.run_of_isSep hs ht hstage hends hsep (hread.trans hread'.symm) hsbody)).append
  intro s' t' h
  exact h.1.run_of_body (h.2.1.2 ▸ hsbody) hrest

theorem exists_two {α : Type} {l : List α} (h : 2 ≤ l.length) :
    ∃ a b rest, l = [a, b] ++ rest := by
  match l, h with
  | a :: b :: rest, _ => exact ⟨a, b, rest, rfl⟩

theorem exists_four {α : Type} {l : List α} (h : 4 ≤ l.length) :
    ∃ a b c d rest, l = [a, b, c, d] ++ rest := by
  match l, h with
  | a :: b :: c :: d :: rest, _ => exact ⟨a, b, c, d, rest, rfl⟩

/-- Two line ends right after the first. -/
theorem agree_two {p q : UInt8 × ℕ} (A : Alike s t) (hs : s.Sound) (ht : t.Sound)
    (hs' : s.head.Ended p.2) (ht' : t.head.Ended q.2) (hps : Indexed (p :: ps))
    (hqs : Indexed (q :: qs)) (hbytes : ps.map Prod.fst = qs.map Prod.fst)
    (hlen : 2 ≤ ps.length) (hsep : ∀ c ∈ (ps.map Prod.fst).take 2, IsSep c) :
    Agree Alike (run (loadByte memory) s ps) (run (loadByte memory) t qs) := by
  have hlen' : ps.length = qs.length := by simpa using congrArg List.length hbytes
  obtain ⟨a, b, rest, rfl⟩ := exists_two hlen
  obtain ⟨a', b', rest', rfl⟩ := exists_two (hlen' ▸ hlen)
  simp only [List.map_cons, List.cons_append, List.nil_append, List.cons.injEq] at hbytes hsep
  obtain ⟨ha, hb, hrest⟩ := hbytes
  have hsepa : IsSep a.1 := hsep a.1 (by simp)
  have hsepb : IsSep b.1 := hsep b.1 (by simp)
  have hchain := hps.chain
  have hchain' := hqs.chain
  simp only [List.cons_append, List.nil_append, List.isChain_cons_cons] at hchain hchain'
  refine agree_ends (h := { s.head with stage := .body }) A hs ht hs'.stage ?_ hrest ?_ rfl ?_ ?_
  · simp [ha, hb]
  · simp [hsepa, hsepb]
  · exact Head.reads_two hs' hsepa hsepb hchain.1 hchain.2.1 (hps.small p List.mem_cons_self)
  · refine (Head.reads_two ht' (ha ▸ hsepa) (hb ▸ hsepb) hchain'.1 hchain'.2.1
      (hqs.small q List.mem_cons_self)).trans ?_
    exact ⟨rfl, A.head.earlier.symm, A.head.line.symm, A.head.interesting.symm⟩

/-- Four line ends after a line with something in it. -/
theorem agree_four {u u' : ℕ} (A : Alike s t) (hs : s.Sound) (ht : t.Sound)
    (hs' : s.head.Begun u) (ht' : t.head.Begun u') (hu : u < 2 ^ 63) (hu' : u' < 2 ^ 63)
    (hps : Indexed ps) (hqs : Indexed qs)
    (hbytes : ps.map Prod.fst = qs.map Prod.fst) (hlen : 4 ≤ ps.length)
    (hsep : ∀ c ∈ (ps.map Prod.fst).take 4, IsSep c) :
    Agree Alike (run (loadByte memory) s ps) (run (loadByte memory) t qs) := by
  have hlen' : ps.length = qs.length := by simpa using congrArg List.length hbytes
  obtain ⟨a, b, c, d, rest, rfl⟩ := exists_four hlen
  obtain ⟨a', b', c', d', rest', rfl⟩ := exists_four (hlen' ▸ hlen)
  simp only [List.map_cons, List.cons_append, List.nil_append, List.cons.injEq] at hbytes hsep
  obtain ⟨ha, hb, hc, hd, hrest⟩ := hbytes
  have hsepa : IsSep a.1 := hsep a.1 (by simp)
  have hsepb : IsSep b.1 := hsep b.1 (by simp)
  have hsepc : IsSep c.1 := hsep c.1 (by simp)
  have hsepd : IsSep d.1 := hsep d.1 (by simp)
  have hchain := hps.chain
  have hchain' := hqs.chain
  simp only [List.cons_append, List.nil_append, List.isChain_cons_cons] at hchain hchain'
  have hlines : s.head.lines = t.head.lines := by
    rw [Head.lines, Head.lines, A.head.earlier, A.head.line]
  have hcheck : s.head.checkContentType (memory s.head.lines) =
      t.head.checkContentType (memory t.head.lines) := by
    rw [Head.checkContentType, Head.checkContentType, hlines, A.head.line, A.head.interesting]
  refine agree_ends A hs ht hs'.stage ?_ hrest ?_ ?_
    (Head.reads_four hs' hsepa hsepb hsepc hsepd hchain.1 hchain.2.1 hchain.2.2.1
      ⟨hps.small a (by simp), hps.small b (by simp)⟩ hu) ?_
  · simp [ha, hb, hc, hd]
  · simp [hsepa, hsepb, hsepc, hsepd]
  · rfl
  · refine (Head.reads_four ht' (ha ▸ hsepa) (hb ▸ hsepb) (hc ▸ hsepc) (hd ▸ hsepd) hchain'.1
      hchain'.2.1 hchain'.2.2.1 ⟨hqs.small a' (by simp), hqs.small b' (by simp)⟩ hu').trans ?_
    rw [A.head.earlier, A.head.line, hcheck]
    exact ⟨rfl, rfl, rfl, rfl⟩

theorem Indexed.of_append (ps qs : List (UInt8 × ℕ)) (h : Indexed (ps ++ qs)) :
    Indexed ps ∧ Indexed qs := by
  obtain ⟨hps, hqs, -⟩ := List.isChain_append.mp h.chain
  exact ⟨⟨hps, fun p hp => h.small p (List.mem_append_left _ hp)⟩,
    ⟨hqs, fun p hp => h.small p (List.mem_append_right _ hp)⟩⟩

/-- **A text that may be cut is read alike** in whatever buffers it comes. -/
theorem agree_of_cutProof {text : List UInt8} (h : CutProof text) (hr : r.Sound)
    (hhead : r.head = .init) (hps : Indexed ps) (hqs : Indexed qs) (hpt : ps.map Prod.fst = text)
    (hqt : qs.map Prod.fst = text) :
    Agree Alike (run (loadByte memory) r ps) (run (loadByte memory) r qs) := by
  have hmem : ∀ {ps : List (UInt8 × ℕ)} {t : List UInt8}, ps.map Prod.fst = t →
      (∀ c ∈ t, ¬ IsSep c) → ∀ p ∈ ps, ¬ IsSep p.1 := by
    intro ps t hpt ht p hp
    exact ht p.1 (hpt ▸ List.mem_map_of_mem hp)
  rcases text_cases text with hnone | ⟨t₀, n, t₁, next, rfl, ht₀, hn, ht₁, hnext⟩
  · have A : Alike r r := ⟨⟨rfl, rfl, rfl, rfl⟩, rfl, fun _ => rfl⟩
    exact A.run_of_not_isSep (hpt.trans hqt.symm) (hmem hpt hnone)
  rw [cutProof_iff ht₀ hn ht₁ hnext] at h
  rw [← List.singleton_append, ← List.append_assoc] at hpt hqt
  obtain ⟨pre, ps₁, rfl, hpre, hps₁⟩ := List.map_eq_append_iff.mp hpt
  obtain ⟨pre', qs₁, rfl, hpre', hqs₁⟩ := List.map_eq_append_iff.mp hqt
  obtain ⟨ps₀, pl, rfl, hps₀, hpl⟩ := List.map_eq_append_iff.mp hpre
  obtain ⟨qs₀, ql, rfl, hqs₀, hql⟩ := List.map_eq_append_iff.mp hpre'
  obtain ⟨p, rfl, hp⟩ := List.map_eq_singleton_iff.mp hpl
  obtain ⟨q, rfl, hq⟩ := List.map_eq_singleton_iff.mp hql
  have hp' : p.2 < 2 ^ 63 := hps.small p (by simp)
  have hq' : q.2 < 2 ^ 63 := hqs.small q (by simp)
  have hfirst := agree_first memory hr hhead (hps₀.trans hqs₀.symm) (hmem hps₀ ht₀)
    (hp.trans hq.symm) (hp ▸ hn) hp' hq'
  apply hfirst.append
  intro s t hst
  obtain ⟨A, ⟨hs, hs'⟩, ht, ht'⟩ := hst
  obtain ⟨-, hps⟩ := Indexed.of_append _ _ (List.append_assoc ps₀ [p] ps₁ ▸ hps)
  obtain ⟨-, hqs⟩ := Indexed.of_append _ _ (List.append_assoc qs₀ [q] qs₁ ▸ hqs)
  have hbytes : ps₁.map Prod.fst = qs₁.map Prod.fst := hps₁.trans hqs₁.symm
  by_cases hnil : t₁ = []
  · subst hnil
    rcases h with rfl | h
    · exact A.run_of_not_isSep hbytes (hmem hps₁ (by simp))
    · rw [if_pos rfl] at h
      have hlen : 2 ≤ ps₁.length := by
        have hle := h.trans (List.takeWhile_prefix _).length_le
        rwa [← List.nil_append next, ← hps₁, List.length_map] at hle
      exact agree_two A hs ht hs' ht' hps hqs hbytes hlen (hps₁ ▸ take_isSep h)
  · obtain ⟨ps₂, ps₃, rfl, hps₂, hps₃⟩ := List.map_eq_append_iff.mp hps₁
    obtain ⟨qs₂, qs₃, rfl, hqs₂, hqs₃⟩ := List.map_eq_append_iff.mp hqs₁
    have hps₂' : ps₂ ≠ [] := fun h => hnil (hps₂ ▸ h ▸ rfl)
    have hqs₂' : qs₂ ≠ [] := fun h => hnil (hqs₂ ▸ h ▸ rfl)
    apply (tracked hs ht (A.run_of_not_isSep (hps₂.trans hqs₂.symm) (hmem hps₂ ht₁))).append
    intro s₁ t₁ hst
    obtain ⟨A₁, ⟨hs₁, hshead⟩, ht₁', hthead⟩ := hst
    rcases h with rfl | h
    · exact A₁.run_of_not_isSep (hps₃.trans hqs₃.symm) (hmem hps₃ (by simp))
    · rw [if_neg hnil] at h
      have hlen : 4 ≤ ps₃.length := by
        have hle := h.trans (List.takeWhile_prefix _).length_le
        rwa [← hps₃, List.length_map] at hle
      exact agree_four A₁ hs₁ ht₁' (hshead ▸ hs'.begun memory (hmem hps₂ ht₁) hps₂')
        (hthead ▸ ht'.begun memory (hmem hqs₂ ht₁) hqs₂') hp' hq'
        (Indexed.of_append (p :: ps₂) ps₃ hps).2 (Indexed.of_append (q :: qs₂) qs₃ hqs).2
        (hps₃.trans hqs₃.symm) hlen (hps₃ ▸ take_isSep h)

end Reading

/-! ## Runs that do not -/

namespace Head
variable {memory : List (List UInt8) → List UInt8} {h g : Head} {p : UInt8 × ℕ}
  {ps : List (UInt8 × ℕ)}

variable (memory) in
theorem read_grows (h : Head) (p : UInt8 × ℕ) :
    ((h.read memory p).earlier = h.earlier ∧ ∃ s, (h.read memory p).line = h.line ++ s) ∨
      (h.read memory p).earlier = h.earlier ++ [h.line] := by
  rw [read]
  split_ifs
  · rw [lineEnd, addLine]
    dsimp only
    split_ifs with hline
    · exact .inl ⟨rfl, [], (List.append_nil _).symm⟩
    · exact .inr rfl
  · exact .inl ⟨rfl, [], (List.append_nil _).symm⟩
  · exact .inl ⟨rfl, _, rfl⟩
  · exact .inl ⟨rfl, [], (List.append_nil _).symm⟩

variable (memory) in
/-- What is in the lines stays there. -/
theorem reads_grows (ps : List (UInt8 × ℕ)) (h : Head) :
    ∃ s rest, (h.reads memory ps).lines = h.earlier ++ (h.line ++ s) :: rest := by
  induction ps generalizing h with
  | nil => exact ⟨[], [], by rw [reads_nil, lines, List.append_nil]⟩
  | cons p ps ih =>
      obtain ⟨s, rest, hlines⟩ := ih (h.read memory p)
      rw [reads_cons, hlines]
      rcases read_grows memory h p with ⟨hearlier, s', hline⟩ | hearlier
      · exact ⟨s' ++ s, rest, by rw [hearlier, hline, List.append_assoc]⟩
      · refine ⟨[], ((h.read memory p).line ++ s) :: rest, ?_⟩
        rw [hearlier, List.append_nil, List.append_assoc, List.singleton_append]

/-- One head is at its end and the other is not, before a text that does not begin with a line
end. -/
theorem reads_ne_of_body (hbody : h.stage = .body) (hstage : g.stage ≠ .body)
    (hearlier : g.earlier = h.earlier) (hline : g.line = []) (hline' : h.line = [])
    (hps : ∀ p ∈ ps.head?, ¬ IsSep p.1) :
    (g.reads memory ps).stage ≠ h.stage ∨ (g.reads memory ps).lines ≠ h.lines := by
  cases ps with
  | nil => exact .inl (hbody ▸ hstage)
  | cons p ps =>
      right
      have hread := read_of_not_isSep memory hstage (hps p rfl)
      obtain ⟨s, rest, hlines⟩ := reads_grows memory ps (g.read memory p)
      rw [reads_cons, hlines, lines, hread, hearlier, hline, hline']
      simp

/-- A line has ended in one head and not in the other, before a text that does not begin with a
line end. -/
theorem reads_ne_of_line {t : List UInt8} (hstage : g.stage ≠ .body) (hline : g.line = t)
    (hearlier : h.earlier = g.earlier ++ [t]) (hps : ∀ p ∈ ps.head?, ¬ IsSep p.1) :
    (g.reads memory ps).lines ≠ (h.reads memory ps).lines := by
  obtain ⟨s', rest', hlines'⟩ := reads_grows memory ps h
  rw [hlines', hearlier]
  cases ps with
  | nil => simp [lines, hline]
  | cons p ps =>
      have hread := read_of_not_isSep memory hstage (hps p rfl)
      obtain ⟨s, rest, hlines⟩ := reads_grows memory ps (g.read memory p)
      rw [reads_cons, hlines, hread, hline]
      simp

end Head

/-- A text in buffers of one byte. -/
def singles (text : List UInt8) : List (List UInt8) := text.map ([·])

/-- The bytes of buffers at their indices. -/
def indexed (buffers : List (List UInt8)) : List (UInt8 × ℕ) := buffers.flatMap fun b => b.zipIdx

theorem indexed_append (bs bs' : List (List UInt8)) :
    indexed (bs ++ bs') = indexed bs ++ indexed bs' := List.flatMap_append

@[simp] theorem indexed_cons (b : List UInt8) (bs : List (List UInt8)) :
    indexed (b :: bs) = b.zipIdx ++ indexed bs := List.flatMap_cons

@[simp] theorem indexed_singles (text : List UInt8) : indexed (singles text) = text.map (·, 0) := by
  induction text with
  | nil => rfl
  | cons c text ih =>
      rw [singles, List.map_cons, ← singles, ← List.singleton_append, indexed_append, ih]
      rfl

section Apart
open Head (IsSep)
variable {memory : List (List UInt8) → List UInt8} {t₀ t₁ next : List UInt8} {n : UInt8} {h : Head}

variable (memory) in
/-- A text up to its first line end, byte by byte. -/
theorem ended_first (ht₀ : ∀ c ∈ t₀, ¬ IsSep c) (hn : IsSep n) :
    (Head.init.reads memory (t₀.map (·, 0) ++ [(n, 0)])).Ended 0 := by
  have hinit : Head.init.stage ≠ .body := by decide
  have hps : ∀ p ∈ t₀.map (·, 0), ¬ IsSep p.1 := by
    intro p hp
    obtain ⟨c, hc, rfl⟩ := List.mem_map.mp hp
    exact ht₀ c hc
  have hread : ∀ h : Head, h.stage ≠ .body → h.lastCharAt = Head.init.lastCharAt → h.breaks = 0 →
      (h.read memory (n, 0)).Ended 0 := by
    intro h hstage hlast hbreaks
    have hne : (h.lastCharAt + 1) % 2 ^ 64 ≠ 0 := by
      rw [hlast]
      decide
    rw [Head.read_of_ne hstage hn hne]
    exact Head.ended_lineEnd memory hstage hbreaks 0
  rw [Head.reads_append, Head.reads_of_not_isSep hinit hps, Head.reads_cons, Head.reads_nil]
  refine hread _ ?_ ?_ ?_
  · exact hinit
  · rfl
  · exact ite_self 0

/-- At the start of a buffer every line end is counted. -/
theorem read_zero {a : UInt8} (hstage : h.stage ≠ .body) (hlast : h.lastCharAt = 0) (ha : IsSep a) :
    h.read memory (a, 0) = h.lineEnd memory 0 := by
  apply Head.read_of_ne hstage ha
  rw [hlast]
  exact Nat.one_ne_zero

/-- At the second byte of a buffer none is, if the last one that was stood at the start of one. -/
theorem reads_one {a : UInt8} (hlast : h.lastCharAt = 0) (ha : IsSep a) (ps : List (UInt8 × ℕ)) :
    h.reads memory ((a, 1) :: ps) = h.reads memory ps := by
  rw [Head.reads_cons, Head.read_of_eq ha (hlast ▸ rfl)]

theorem head?_map {rest : List UInt8} (hrest : ∀ c ∈ rest.head?, ¬ IsSep c) :
    ∀ p ∈ (rest.map (·, 0) : List (UInt8 × ℕ)).head?, ¬ IsSep p.1 := by
  intro p hp
  rw [List.head?_map] at hp
  obtain ⟨c, hc, rfl⟩ := Option.map_eq_some_iff.mp hp
  exact hrest c hc

/-- Two heads that are not at one in what the head of the message was. -/
def Apart (h g : Head) : Prop := g.stage ≠ h.stage ∨ g.lines ≠ h.lines

variable (memory) in
/-- One head ends with a line end that the other one does not count. -/
theorem apart_body {b : UInt8} (ps : List (UInt8 × ℕ)) {rest : List UInt8} (H : h.Ended 0)
    (hb : IsSep b) (hrest : ∀ c ∈ rest.head?, ¬ IsSep c) :
    Apart (h.reads memory ((b, 0) :: ps)) (h.reads memory (rest.map (·, 0))) := by
  have hsecond := Head.lineEnd_second memory H.line H.breaks 0
  rw [Head.reads_cons, read_zero H.stage H.lastCharAt hb, Head.reads_of_body _ hsecond.stage]
  apply Head.reads_ne_of_body hsecond.stage H.stage hsecond.earlier.symm H.line
  · rw [hsecond.line]
    exact H.line
  · exact head?_map hrest

/-- One head ends a line with a line end that the other one does not count. -/
theorem apart_line {a : UInt8} {rest : List UInt8} (H : h.Begun 0) (ha : IsSep a)
    (hrest : ∀ c ∈ rest.head?, ¬ IsSep c) :
    Apart (h.reads memory ((a, 0) :: rest.map (·, 0))) (h.reads memory (rest.map (·, 0))) := by
  rw [Head.reads_cons, read_zero H.stage H.lastCharAt ha, Head.lineEnd_first H.line H.breaks]
  right
  exact Head.reads_ne_of_line H.stage rfl rfl (head?_map hrest)

/-- The bytes of the buffers that a text comes in. -/
structure Buffers (text : List UInt8) (bs : List (List UInt8)) : Prop where
  flatten : bs.flatten = text
  length_lt : ∀ b ∈ bs, b.length < 2 ^ 63

theorem buffers_singles (text : List UInt8) : Buffers text (singles text) := by
  refine ⟨?_, ?_⟩
  · rw [singles, ← List.flatMap_def, List.flatMap_singleton']
  · intro b hb
    obtain ⟨c, -, rfl⟩ := List.mem_map.mp hb
    simp

theorem buffers_append {t t' : List UInt8} {bs bs' : List (List UInt8)} (h : Buffers t bs)
    (h' : Buffers t' bs') : Buffers (t ++ t') (bs ++ bs') := by
  refine ⟨by rw [List.flatten_append, h.flatten, h'.flatten], ?_⟩
  intro b hb
  rcases List.mem_append.mp hb with hb | hb
  · exact h.length_lt b hb
  · exact h'.length_lt b hb

theorem buffers_pair (a b : UInt8) : Buffers [a, b] [[a, b]] :=
  ⟨rfl, by simp⟩

theorem exists_cons_of_head? {rest : List UInt8} (h : ¬ ∀ c ∈ rest.head?, ¬ IsSep c) :
    ∃ c rest', rest = c :: rest' ∧ IsSep c := by
  cases rest with
  | nil => exact absurd (fun _ h => nomatch h) h
  | cons c rest => exact ⟨c, rest, rfl, by simpa using h⟩

theorem head?_of_takeWhile {rest : List UInt8}
    (h : (rest.takeWhile fun c => IsSep c).length = 0) : ∀ c ∈ rest.head?, ¬ IsSep c := by
  cases rest with
  | nil => exact fun _ h => nomatch h
  | cons c rest =>
      rw [List.length_eq_zero_iff] at h
      simpa [List.takeWhile_cons] using h

variable (memory) in
/-- After a line, one, two or three line ends. -/
theorem exists_apart_begun {a : UInt8} {rest : List UInt8} (H : h.Begun 0) (ha : IsSep a)
    (hlt : (rest.takeWhile fun c => IsSep c).length < 3) : ∃ bs, Buffers rest bs ∧
      Apart (h.reads memory ((a, 0) :: rest.map (·, 0))) (h.reads memory ((a, 1) :: indexed bs)) := by
  have hended := Head.ended_lineEnd memory H.stage H.breaks 0
  simp only [reads_one H.lastCharAt ha]
  by_cases hrest : ∀ c ∈ rest.head?, ¬ IsSep c
  · refine ⟨singles rest, buffers_singles rest, ?_⟩
    rw [indexed_singles]
    exact apart_line H ha hrest
  -- the next line end ends the line in one of the runs and the head in the other
  obtain ⟨b, rest, rfl, hb⟩ := exists_cons_of_head? hrest
  rw [List.takeWhile_cons_of_pos (by simpa using hb), List.length_cons] at hlt
  rw [Head.reads_cons, read_zero H.stage H.lastCharAt ha, List.map_cons]
  by_cases hlast : ∀ c ∈ rest.head?, ¬ IsSep c
  · refine ⟨singles (b :: rest), buffers_singles _, ?_⟩
    rw [indexed_singles, List.map_cons, Head.reads_cons (h := h), read_zero H.stage H.lastCharAt hb]
    exact apart_body memory _ hended hb hlast
  · obtain ⟨c, rest, rfl, hc⟩ := exists_cons_of_head? hlast
    rw [List.takeWhile_cons_of_pos (by simpa using hc), List.length_cons] at hlt
    refine ⟨[[b, c]] ++ singles rest, buffers_append (buffers_pair b c) (buffers_singles rest), ?_⟩
    rw [List.singleton_append, indexed_cons, indexed_singles, List.zipIdx_cons, List.cons_append,
      Head.reads_cons (h := h), read_zero H.stage H.lastCharAt hb, List.zipIdx_singleton,
      List.singleton_append, reads_one hended.lastCharAt hc]
    exact apart_body memory _ hended hb (head?_of_takeWhile (by omega))

variable (memory) in
/-- A text that may not be cut everywhere has a cut that is recognised. -/
theorem exists_apart {text : List UInt8} (h : ¬ CutProof text) : ∃ bs bs', Buffers text bs ∧
    Buffers text bs' ∧
      Apart (Head.init.reads memory (indexed bs)) (Head.init.reads memory (indexed bs')) := by
  refine ⟨singles text, ?_⟩
  rcases text_cases text with hnone | ⟨t₀, n, t₁, next, rfl, ht₀, hn, ht₁, hnext⟩
  · have hnil : (text.dropWhile fun c => ¬ IsSep c) = [] := by
      rw [List.dropWhile_eq_nil_iff]
      simpa using hnone
    exact absurd (.inl (by rw [hnil]; rfl)) h
  rw [cutProof_iff ht₀ hn ht₁ hnext, not_or, not_le] at h
  obtain ⟨hne, hlt⟩ := h
  obtain ⟨a, rest, rfl⟩ := List.exists_cons_of_ne_nil hne
  have ha : IsSep a := hnext a rfl
  have hfirst := ended_first memory ht₀ hn
  rw [List.takeWhile_cons_of_pos (by simpa using ha), List.length_cons] at hlt
  rcases List.eq_nil_or_concat' t₁ with rfl | ⟨t, y, rfl⟩
  · -- the first line end and the one after it come together
    rw [if_pos rfl] at hlt
    have hB := buffers_append (buffers_append (buffers_singles t₀) (buffers_pair n a))
      (buffers_singles rest)
    refine ⟨_, buffers_singles _, by simpa using hB, ?_⟩
    have hend : ∀ c ∈ rest.head?, ¬ IsSep c := head?_of_takeWhile (by omega)
    have happart := apart_body memory (rest.map (·, 0)) hfirst ha hend
    rw [← reads_one hfirst.lastCharAt ha (rest.map (·, 0))] at happart
    simpa [indexed_append, Head.reads_append] using happart
  · -- the last byte of the text and the line end after it come together
    rw [if_neg (by simp)] at hlt
    have htext : ∀ p ∈ ((t ++ [y]).map (·, 0) : List (UInt8 × ℕ)), ¬ IsSep p.1 := by
      intro p hp
      obtain ⟨c, hc, rfl⟩ := List.mem_map.mp hp
      exact ht₁ c hc
    have hbegun := hfirst.begun memory htext (by simp)
    obtain ⟨bs, hbs, happart⟩ := exists_apart_begun memory hbegun ha
      (show (rest.takeWhile fun c => IsSep c).length < 3 by omega)
    have hpre := buffers_append (buffers_append (buffers_singles (t₀ ++ [n])) (buffers_singles t))
      (buffers_pair y a)
    refine ⟨_, buffers_singles _, by simpa using buffers_append hpre hbs, ?_⟩
    simpa [indexed_append, Head.reads_append] using happart

end Apart

/-! ## All ways to cut a text -/

theorem indexed_of_buffers {text : List UInt8} {bs : List (List UInt8)} (h : Buffers text bs) :
    (indexed bs).map Prod.fst = text ∧ Indexed (indexed bs) := by
  have hzip : ∀ (b : List UInt8) (k : ℕ), (b.zipIdx k).IsChain Head.Consecutive := by
    intro b
    induction b with
    | nil => exact fun _ => .nil
    | cons c b ih =>
        intro k
        cases b with
        | nil => exact .singleton _
        | cons d b => exact List.isChain_cons_cons.mpr ⟨.inl rfl, ih (k + 1)⟩
  have hhead : ∀ bs : List (List UInt8), ∀ p ∈ (indexed bs).head?, p.2 = 0 := by
    intro bs
    induction bs with
    | nil => exact fun _ h => nomatch h
    | cons b bs ih =>
        cases b with
        | nil => simpa using ih
        | cons c b => simp [List.zipIdx_cons]
  obtain ⟨rfl, hsmall⟩ := h
  induction bs with
  | nil => exact ⟨rfl, .nil, fun _ h => nomatch h⟩
  | cons b bs ih =>
      obtain ⟨hbytes, hchain, hlt⟩ := ih fun b' hb' => hsmall b' (List.mem_cons_of_mem b hb')
      rw [indexed_cons]
      refine ⟨?_, List.isChain_append.mpr ⟨hzip b 0, hchain, ?_⟩, ?_⟩
      · rw [List.map_append, hbytes, List.zipIdx_map_fst, List.flatten_cons]
      · intro p _ q hq
        exact .inr (hhead bs q hq)
      · intro p hp
        rcases List.mem_append.mp hp with hp | hp
        · have hlen := List.snd_lt_of_mem_zipIdx hp
          have hb := hsmall b List.mem_cons_self
          omega
        · exact hlt p hp

/-- What is recognised in a message: the stage, the lines, whether the content is of a type to
change, and everything put out with what is still held. -/
def recognised (x : Except Fault (Reading × List UInt8)) :
    Except Fault (HtmlState × List (List UInt8) × Bool × List UInt8) :=
  x.map fun p => (p.1.head.stage, p.1.head.lines, p.1.head.interesting, p.2 ++ p.1.holding)

theorem recognised_of_agree {x y : Except Fault (Reading × List UInt8)}
    (h : Agree Reading.Alike x y) : recognised x = recognised y := by
  cases h with
  | error e => rfl
  | @ok s t out A =>
      rw [recognised, recognised, Except.map, Except.map, Head.lines, Head.lines, A.head.stage,
        A.head.earlier, A.head.line, A.head.interesting, A.holding]

theorem loads_eq (memory : List (List UInt8) → List UInt8) (r : Reading) (bs : List (List UInt8)) :
    r.loads memory bs = run (Reading.loadByte memory) r (indexed bs) :=
  run_run (Reading.loadByte memory) (fun b : List UInt8 => b.zipIdx) r bs

/-- Without rules everything is let through. -/
theorem run_empty (memory : List (List UInt8) → List UInt8) (suffix : List UInt8)
    (ps : List (UInt8 × ℕ)) (h : Head) :
    run (Reading.loadByte memory)
      ⟨h, [], databaseTransformHandler (databaseSetUp suffix []) .server⟩ ps =
    .ok (⟨h.reads memory ps, [], databaseTransformHandler (databaseSetUp suffix []) .server⟩,
      ps.map Prod.fst) := by
  induction ps generalizing h with
  | nil => rfl
  | cons p ps ih =>
      have hlookup : databaseTransformLookup
          (databaseTransformHandler (databaseSetUp suffix []) .server) p.1 =
          (databaseTransformHandler (databaseSetUp suffix []) .server, .notHold) := by
        rw [databaseTransformLookup, transformLoop_zero]
        have hbegin : beginLookups (databaseTransformHandler (databaseSetUp suffix []) .server) p.1 []
            = [] := by
          rw [beginLookups]
          exact ite_self []
        dsimp only [databaseTransformHandler, List.filterMap_nil, List.find?_nil] at hbegin ⊢
        rw [hbegin]
        rfl
      have hstep : Reading.loadByte memory
          ⟨h, [], databaseTransformHandler (databaseSetUp suffix []) .server⟩ p =
          .ok (⟨h.read memory p, [], databaseTransformHandler (databaseSetUp suffix []) .server⟩,
            [p.1]) := by
        rw [Reading.loadByte, Reading.pass, Reading.lookup]
        by_cases hlines : (h.read memory p).nLines > 1
        · by_cases hinteresting : (h.read memory p).interesting
          · rw [if_pos hlines, if_pos hinteresting, hlookup]
            rfl
          · rw [if_pos hlines, if_neg hinteresting]
            rfl
        · rw [if_neg hlines]
      rw [run_cons, hstep]
      simp only [Failure.bind_ok, ih]
      rfl

/-- **Which texts may be cut anywhere.** However such a text comes from the server, the head is
recognised alike and the same is put out and held, under all rules; and for every other text
there are two ways to cut it that are not recognised alike. -/
theorem recognised_iff (text : List UInt8) :
    (∀ (memory : List (List UInt8) → List UInt8) (suffix : List UInt8) (rules : List Rule),
      (∀ rule ∈ rules, rule.Words) → ∀ bs bs', Buffers text bs → Buffers text bs' →
        recognised ((Reading.init (databaseSetUp suffix rules) .server).loads memory bs) =
          recognised ((Reading.init (databaseSetUp suffix rules) .server).loads memory bs')) ↔
      CutProof text := by
  constructor
  · intro hall
    by_contra hcut
    obtain ⟨bs, bs', hbs, hbs', happart⟩ := exists_apart (fun _ => []) hcut
    have hsame := hall (fun _ => []) [] [] (fun _ h => nomatch h) bs bs' hbs hbs'
    rw [loads_eq, loads_eq, Reading.init, run_empty, run_empty] at hsame
    have hpair := Except.ok.inj hsame
    rcases happart with hstage | hlines
    · exact hstage (Prod.ext_iff.mp hpair).1.symm
    · exact hlines (Prod.ext_iff.mp (Prod.ext_iff.mp hpair).2).1.symm
  · intro hcut memory suffix rules hrules bs bs' hbs hbs'
    obtain ⟨hbytes, hindexed⟩ := indexed_of_buffers hbs
    obtain ⟨hbytes', hindexed'⟩ := indexed_of_buffers hbs'
    rw [loads_eq, loads_eq]
    exact recognised_of_agree (Reading.agree_of_cutProof hcut (Reading.sound_init hrules suffix) rfl
      hindexed hindexed' hbytes hbytes')

/-- The first line of an answer and the beginning of its second, in one buffer and cut between
the two characters of the line end: there the head seems to be over. -/
theorem not_recognised_cut : ¬ ∀ bs bs', Buffers [79, 75, 13, 10, 86] bs →
    Buffers [79, 75, 13, 10, 86] bs' →
      recognised ((Reading.init (databaseSetUp [] []) .server).loads (fun _ => []) bs) =
        recognised ((Reading.init (databaseSetUp [] []) .server).loads (fun _ => []) bs') := by
  intro hall
  have hsame := hall [[79, 75, 13, 10, 86]] [[79, 75, 13], [10, 86]]
    ⟨rfl, by decide⟩ ⟨rfl, by decide⟩
  rw [loads_eq, loads_eq, Reading.init, run_empty, run_empty] at hsame
  exact absurd (Prod.ext_iff.mp (Except.ok.inj hsame)).1 (by decide +kernel)

end RenaProxy.FaProxy
