import RenaProxy.Squid.RewriterThreads

/-!
# The threads of the rewriter with few URLs

`cached_results` only drops something when it has more than ten entries. With at most ten URLs under
the suffix the threads do not notice each other: `written_of_rest` says that they write what
`url_rewriter.py` writes, and which lines stop them.
-/
namespace RenaProxy.Squid
open Crews

/-- The cache has what a thread has found there, and nothing is dropped. -/
def HelperPhase.Safe (h : Helper) (cachedResults : CachedResults) : HelperPhase → Prop
  | found line => cacheKey (lineUrl line) ∈ cachedResults.map Prod.fst
  | choosing _ _ | indexing _ _ _ | dropping _ _ _ => False
  | dead line => h.raises line
  | _ => True

/-- `undo_redirect` is only asked for these URLs. -/
def Helper.AsksOf (h : Helper) (urls : List (List UInt8)) (line : List UInt8) : Prop :=
  h.Asked line → lineUrl line ∈ urls

/-- What holds as long as only these URLs are asked for. -/
structure HelperCrew.Roomy (h : Helper) (urls : List (List UInt8)) (c : HelperCrew) : Prop where
  nodup : (c.shared.cachedResults.map Prod.fst).Nodup
  keys : c.shared.cachedResults.map Prod.fst ⊆ urls.map cacheKey
  queued : ∀ line ∈ c.shared.q, h.AsksOf urls line
  lines : ∀ p ∈ c.workers, ∀ line ∈ p.lines, h.AsksOf urls line
  safe : ∀ p ∈ c.workers, p.Safe h c.shared.cachedResults

section Few
variable {n : ℕ} {h : Helper} {s s' : HelperState} {p p' : HelperPhase} {a : HelperStep}
  {c c' : HelperCrew} {xs : List (ℕ × HelperStep)} {lines urls : List (List UInt8)}
  {line key : List UInt8} {ret : Option (List UInt8)} {cachedResults : CachedResults}

theorem isSome_lookup_iff :
    (cachedResults.lookup key).isSome ↔ key ∈ cachedResults.map Prod.fst := by
  rw [List.lookup_isSome_iff, List.mem_map]
  constructor
  · rintro ⟨entry, hentry, hkey⟩
    exact ⟨entry, hentry, (eq_of_beq hkey).symm⟩
  · rintro ⟨entry, hentry, rfl⟩
    exact ⟨entry, hentry, BEq.rfl⟩

theorem keys_put (cachedResults : CachedResults) (key : List UInt8) (ret : Option (List UInt8)) :
    (cachedResults.put key ret).map Prod.fst =
      if key ∈ cachedResults.map Prod.fst then cachedResults.map Prod.fst
      else cachedResults.map Prod.fst ++ [key] := by
  simp only [CachedResults.put, isSome_lookup_iff]
  split_ifs
  · rw [List.map_map]
    refine List.map_congr_left fun entry _ => ?_
    rw [Function.comp_apply]
    split_ifs with hkey
    · exact hkey.symm
    · rfl
  · rw [List.map_append]
    rfl

theorem asksOf_nil (h : Helper) (urls : List (List UInt8)) : h.AsksOf urls [] :=
  fun hasked => absurd rfl hasked.1

theorem settled_safe (hasked : h.Asked line) (hret : h.undone (lineUrl line) = .ok ret)
    (cachedResults : CachedResults) :
    (Helper.settled line (h.afterUndo (lineUrl line) ret)).Safe h cachedResults := by
  have hreply := lineReply_of_undone hasked hret
  cases hafter : h.afterUndo (lineUrl line) ret with
  | ok reply => trivial
  | error e =>
      rw [hafter] at hreply
      exact raises_iff.mpr ⟨e, hreply⟩

theorem HelperPhase.Safe.mono {cachedResults' : CachedResults} (hp : p.Safe h cachedResults)
    (hkeys : cachedResults.map Prod.fst ⊆ cachedResults'.map Prod.fst) :
    p.Safe h cachedResults' := by
  cases p with
  | found line => exact hkeys hp
  | _ => exact hp

/-- What holds of the lines that come up holds of those that a thread goes on with. -/
theorem lines_move {P : List UInt8 → Prop} (hnil : P []) (hq : ∀ line ∈ s.q, P line)
    (hlines : ∀ line ∈ p.lines, P line) (hmove : HelperMove n h s p a s' p') :
    (∀ line ∈ s'.q, P line) ∧ ∀ line ∈ p'.lines, P line := by
  cases hmove with
  | eof => exact ⟨hq, List.forall_mem_nil _⟩
  | read hline =>
      simp only [HelperPhase.lines, linesRead, List.takeWhile_cons, hline, ne_eq, not_false_eq_true,
        decide_true, if_true, List.forall_mem_cons] at hlines
      exact ⟨List.forall_mem_append.mpr ⟨hq, List.forall_mem_singleton.mpr hlines.1⟩, hlines.2⟩
  | close left =>
      exact ⟨List.forall_mem_append.mpr ⟨hq, List.forall_mem_singleton.mpr hnil⟩, hlines⟩
  | quit hcons =>
      rw [hcons] at hq
      exact ⟨(List.forall_mem_cons.mp hq).2, List.forall_mem_nil _⟩
  | take _ hcons =>
      rw [hcons] at hq
      obtain ⟨hline, hq⟩ := List.forall_mem_cons.mp hq
      exact ⟨hq, List.forall_mem_singleton.mpr hline⟩
  | work line =>
      refine ⟨hq, ?_⟩
      rcases begun_cases (h := h) s.cachedResults line with
        ⟨hp, -⟩ | ⟨hp, -⟩ | ⟨hp, -⟩ | ⟨ret, hp, -⟩ | ⟨reply, hp, -⟩
      · rw [hp]
        exact List.forall_mem_nil _
      all_goals
        rw [hp]
        exact hlines
  | fetch | store =>
      rw [lines_settled]
      exact ⟨hq, hlines⟩
  | answer => exact ⟨hq, List.forall_mem_nil _⟩
  | _ => exact ⟨hq, hlines⟩

section Fields
variable (S : Remembers h s.cachedResults) (hright : p.Right h) (hsafe : p.Safe h s.cachedResults)
  (hmove : HelperMove n h s p a s' p')
include hsafe hmove

/-- The cache stays as it is, or gets an entry for a URL that `undo_redirect` was asked for. -/
theorem cachedResults_move (hright : p.Right h) : s'.cachedResults = s.cachedResults ∨
    ∃ line ∈ p.lines, h.Asked line ∧ ∃ ret,
      s'.cachedResults = s.cachedResults.put (cacheKey (lineUrl line)) ret := by
  cases hmove with
  | drop => exact hsafe.elim
  | store line ret => exact .inr ⟨line, List.mem_singleton_self _, hright.1, ret, rfl⟩
  | _ => exact .inl rfl

include S hright in
theorem safe_move (hroom : s.cachedResults.length ≤ 10) : p'.Safe h s'.cachedResults := by
  cases hmove with
  | work line =>
      rcases begun_cases (h := h) s.cachedResults line with
        ⟨hp, -⟩ | ⟨hp, hraises⟩ | ⟨hp, -, hhit⟩ | ⟨ret, hp, -⟩ | ⟨reply, hp, -⟩
      · rw [hp]
        trivial
      · rw [hp]
        exact hraises
      · rw [hp]
        exact isSome_lookup_iff.mp hhit
      · rw [hp]
        trivial
      · rw [hp]
        trivial
  | fetch hret => exact settled_safe hright (S.undone hret) _
  | gone hret =>
      have hhit := isSome_lookup_iff.mpr hsafe
      rw [hret] at hhit
      cases hhit
  | full hfull => omega
  | store line ret => exact settled_safe hright.1 hright.2 _
  | choose | noChoice | index | noIndex | drop | noKey => exact hsafe.elim
  | _ => trivial

end Fields

theorem HelperCrew.Roomy.length_le (R : c.Roomy h urls) (hurls : urls.length ≤ 10) :
    c.shared.cachedResults.length ≤ 10 := by
  have hle := (R.nodup.subperm R.keys).length_le
  rw [List.length_map, List.length_map] at hle
  exact hle.trans hurls

/-- **One step keeps the cache roomy.** -/
theorem HelperCrew.Roomy.step (R : HelperCrew.Roomy h urls c) (K : HelperCrew.Kept n h c)
    (hurls : urls.length ≤ 10) {x : ℕ × HelperStep} (hstep : step (helperAct n h) c x = some c') :
    HelperCrew.Roomy h urls c' := by
  have hroom := HelperCrew.Roomy.length_le R hurls
  obtain ⟨s, workers⟩ := c
  obtain ⟨before, p, after, s', p', hworkers, -, hact, rfl⟩ := step_eq_some_iff.mp hstep
  dsimp only at hworkers hact hroom
  subst hworkers
  have hmove := helperMove_of_act hact
  have hp : p ∈ before ++ p :: after := List.mem_append_right _ List.mem_cons_self
  have hright := K.right p hp
  obtain ⟨hqueued, hlines⟩ := lines_move (asksOf_nil h urls) R.queued (R.lines p hp) hmove
  have hsafe' := safe_move K.remembers hright (R.safe p hp) hmove hroom
  have hcache := cachedResults_move (R.safe p hp) hmove hright
  have hkeys : s.cachedResults.map Prod.fst ⊆ s'.cachedResults.map Prod.fst ∧
      (s'.cachedResults.map Prod.fst).Nodup ∧
      s'.cachedResults.map Prod.fst ⊆ urls.map cacheKey := by
    rcases hcache with heq | ⟨line, hline, hasked, ret, heq⟩
    · rw [heq]
      exact ⟨List.Subset.refl _, R.nodup, R.keys⟩
    · have hurl := List.mem_map_of_mem (f := cacheKey) (R.lines p hp line hline hasked)
      rw [heq, keys_put]
      split_ifs with hkey
      · exact ⟨List.Subset.refl _, R.nodup, R.keys⟩
      · refine ⟨List.subset_append_left _ _, ?_, ?_⟩
        · exact List.nodup_append.mpr ⟨R.nodup, List.nodup_singleton _, fun key hmem key' hmem' =>
            fun heq' => hkey (List.mem_singleton.mp hmem' ▸ heq' ▸ hmem)⟩
        · exact List.append_subset.mpr ⟨R.keys, List.cons_subset.mpr ⟨hurl, List.nil_subset _⟩⟩
  exact {
    nodup := hkeys.2.1
    keys := hkeys.2.2
    queued := hqueued
    lines := forall_set R.lines hlines
    safe := forall_set (fun q hq => (R.safe q hq).mono hkeys.1) hsafe' }

theorem roomy_start (h : Helper) (n : ℕ) (hlines : ∀ line ∈ linesRead lines, h.AsksOf urls line) :
    (HelperCrew.start n lines).Roomy h urls where
  nodup := List.nodup_nil
  keys := List.nil_subset _
  queued := List.forall_mem_nil _
  lines := fun p hp => by
    rcases List.mem_cons.mp hp with rfl | hp
    · exact hlines
    · rw [List.eq_of_mem_replicate hp]
      exact List.forall_mem_nil _
  safe := fun p hp => by
    rcases List.mem_cons.mp hp with rfl | hp
    · trivial
    · rw [List.eq_of_mem_replicate hp]
      trivial

/-- With few URLs a thread only dies of a line that raises. -/
theorem raises_of_died (hurls : urls.length ≤ 10)
    (hlines : ∀ line ∈ linesRead lines, h.AsksOf urls line)
    (hrun : run (helperAct n h) (HelperCrew.start n lines) xs = some c) :
    ∀ line ∈ c.died, h.raises line := by
  obtain ⟨-, R⟩ := invariant_run
    (I := fun c => HelperCrew.Kept n h c ∧ HelperCrew.Roomy h urls c)
    (fun c x c' hI hstep => ⟨hI.1.step hstep, hI.2.step hI.1 hurls hstep⟩)
    ⟨kept_start h lines, roomy_start h n hlines⟩ hrun
  intro line hline
  obtain ⟨p, hp, hline⟩ := List.mem_flatMap.mp hline
  have hsafe := R.safe p hp
  cases p with
  | dead line' =>
      obtain rfl := List.mem_singleton.mp hline
      exact hsafe
  | _ => cases hline

/-- The message of an outcome. -/
def LineOutcome.message : LineOutcome → Option (List UInt8)
  | written message => some message
  | raised _ => none

/-- The message that a line is answered with, if it is. -/
def Helper.messages (h : Helper) (line : List UInt8) : List (List UInt8) :=
  (h.outcomes line).filterMap LineOutcome.message

theorem filterMap_outcomes (l : List (List UInt8)) :
    (l.flatMap h.outcomes).filterMap LineOutcome.message = l.flatMap h.messages := by
  rw [List.filterMap_flatMap]
  rfl

/-- The lines that raise are counted by their outcomes. -/
theorem countP_outcomes (l : List (List UInt8)) :
    (l.flatMap h.outcomes).countP (·.message.isNone) = l.countP h.raises := by
  induction l with
  | nil => rfl
  | cons line l ih =>
      rw [List.flatMap_cons, List.countP_append, ih, List.countP_cons, Nat.add_comm]
      congr 1
      rw [Helper.outcomes, Helper.raises]
      cases h.lineReply line with
      | ok reply =>
          cases reply with
          | none => rfl
          | some reply => rfl
      | error e => rfl

/-- A line that has an answer. -/
def Helper.answers (h : Helper) (line : List UInt8) : Bool := bytesStrip line ≠ [] ∧ !h.raises line

/-- A message is the channel and what is written for the line alone. -/
theorem messages_eq (line : List UInt8) : h.messages line =
    if h.answers line then [lineChannel line ++ 32 :: lineAnswer h line] else [] := by
  rw [Helper.messages, Helper.outcomes, Helper.answers, lineAnswer, Helper.raises]
  by_cases hblank : bytesStrip line = []
  · rw [Helper.lineReply, if_pos hblank]
    simp [hblank]
  · cases hreply : h.lineReply line with
    | error e => simp [LineOutcome.message]
    | ok reply =>
        cases reply with
        | none =>
            rw [Helper.lineReply, if_neg hblank] at hreply
            cases hurl : (lineFields line)[1]? with
            | none =>
                rw [hurl] at hreply
                cases hreply
            | some url =>
                rw [hurl] at hreply
                dsimp only at hreply
                cases hto : h.replyTo url with
                | ok reply =>
                    rw [hto] at hreply
                    cases hreply
                | error e =>
                    rw [hto] at hreply
                    cases hreply
        | some reply => simp [hblank, LineOutcome.message, channelMessage, answerTo]

theorem flatMap_messages (l : List (List UInt8)) : l.flatMap h.messages =
    (l.filter h.answers).map fun line => lineChannel line ++ 32 :: lineAnswer h line := by
  induction l with
  | nil => rfl
  | cons line l ih =>
      rw [List.flatMap_cons, ih, messages_eq, List.filter_cons]
      split_ifs
      · rfl
      · rfl

/-- **Lines that raise.** With at most ten URLs under the suffix the threads come to rest with an
answer to every line that does not raise, the one of `url_rewriter.py` behind the channel, unless as
many lines raise as there are threads. Then nobody is left. -/
theorem written_of_rest (hurls : urls.length ≤ 10)
    (hlines : ∀ line ∈ linesRead lines, h.AsksOf urls line)
    (hrun : run (helperAct n h) (HelperCrew.start n lines) xs = some c) (hrest : c.AtRest n h) :
    (c.AllDead ↔ n ≤ (linesRead lines).countP h.raises) ∧
    ((linesRead lines).countP h.raises < n →
      c.shared.out.Perm (((linesRead lines).filter h.answers).map fun line =>
        lineChannel line ++ 32 :: lineAnswer h line)) := by
  have K := HelperCrew.kept_run hrun
  have hraises := raises_of_died hurls hlines hrun
  have hdied : c.died.countP h.raises = c.died.length := List.countP_eq_length.mpr hraises
  have hmain := K.main
  rw [amount, Nat.zero_add] at hmain
  have hlength : (c.workers.map fun p => p.main + p.died.length).sum = 1 + c.died.length := by
    rw [List.sum_map_add, hmain, HelperCrew.died, List.length_flatMap]
  have hle : ∀ p ∈ c.workers, p.main + p.died.length ≤ 1 := by
    intro p hp
    rcases K.rest_cases hrest p hp with rfl | rfl | ⟨line, rfl⟩
    · exact Nat.le_refl 1
    · exact Nat.zero_le 1
    · exact Nat.le_refl 1
  have hdead : c.AllDead → n ≤ (linesRead lines).countP h.raises := by
    intro hdead
    have hcount := (perm_outcomes hrun).countP_eq fun outcome => outcome.message.isNone
    rw [List.countP_append, countP_outcomes, countP_outcomes, K.lines_eq_died hrest,
      hdied] at hcount
    have hsum := List.length_le_sum_of_one_le (c.workers.map fun p => p.main + p.died.length)
      fun z hz => by
        obtain ⟨p, hp, rfl⟩ := List.mem_map.mp hz
        cases hp' : p.main with
        | zero =>
            have := List.length_pos_iff.mpr (hdead p hp hp')
            omega
        | succ k => omega
    rw [List.length_map, K.length, hlength] at hsum
    omega
  have halive : .stopped ∈ c.workers → (linesRead lines).countP h.raises < n ∧
      c.shared.out.Perm (((linesRead lines).filter h.answers).map fun line =>
        lineChannel line ++ 32 :: lineAnswer h line) := by
    intro hstopped
    have hperm := perm_of_stopped hrun hrest hstopped
    have hcount := hperm.countP_eq fun outcome => outcome.message.isNone
    have hwritten : (c.shared.out.map LineOutcome.written).countP (·.message.isNone) = 0 := by
      rw [List.countP_map]
      exact List.countP_eq_zero.mpr fun message _ => Bool.false_ne_true
    rw [List.countP_append, countP_outcomes, countP_outcomes, hwritten, hdied] at hcount
    have hlt := sum_lt_length hstopped rfl hle
    rw [hlength, K.length] at hlt
    refine ⟨by omega, ?_⟩
    have hmessages := hperm.filterMap LineOutcome.message
    have hnone : c.died.filter h.answers = [] :=
      List.filter_eq_nil_iff.mpr fun line hline => by simp [Helper.answers, hraises line hline]
    have hsome : LineOutcome.message ∘ LineOutcome.written = some := rfl
    rwa [List.filterMap_append, filterMap_outcomes, filterMap_outcomes, flatMap_messages,
      flatMap_messages, hnone, List.map_nil, List.append_nil, List.filterMap_map, hsome,
      List.filterMap_some] at hmessages
  refine ⟨⟨hdead, fun hmany => ?_⟩, fun hfew => ?_⟩
  · rcases K.allDead_or hrest with hall | hstopped
    · exact hall
    · exact absurd hmany (Nat.not_le_of_lt (halive hstopped).1)
  · rcases K.allDead_or hrest with hall | hstopped
    · exact absurd (hdead hall) (Nat.not_le_of_lt hfew)
    · exact (halive hstopped).2

theorem written_of_rest_twoThreads : ∃ c : HelperCrew,
    run (helperAct 2 renamingHelper) (HelperCrew.start 2 sameLines) twoThreads = some c ∧
    (c.AllDead ↔ 2 ≤ (linesRead sameLines).countP renamingHelper.raises) ∧
    c.shared.out.Perm (((linesRead sameLines).filter renamingHelper.answers).map fun line =>
      lineChannel line ++ 32 :: lineAnswer renamingHelper line) := by
  obtain ⟨c, hrun, hworkers⟩ := exists_run_twoThreads
  have hurls : ∀ line ∈ linesRead sameLines, lineUrl line ∈ [chars "moos.ez/a"] := by decide +kernel
  have hdone : ∀ p ∈ c.workers, p = .closing 0 ∨ p = .stopped := by
    rw [hworkers]
    decide
  obtain ⟨hdead, hanswers⟩ := written_of_rest (by decide) (fun line hline _ => hurls line hline)
    hrun (atRest_of_done hdone)
  exact ⟨c, hrun, hdead, hanswers (by decide +kernel)⟩

end Few

end RenaProxy.Squid
