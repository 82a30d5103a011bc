import RenaProxy.Squid.Rewriters
import RenaProxy.Lib.Crew
import Mathlib.Algebra.Order.Group.Multiset
import Mathlib.Algebra.Order.Group.Nat

/-!
# The rewriter of Squid with threads

`url_rewriter_async.py` puts the lines into a queue for its threads, which share the cache of
`undo_redirect`. Nothing keeps them from dropping what another one has just found there, and an
exception ends a thread.

`answers_of_rest` says what the threads have written when they come to rest, in whatever order they
ran.
-/
namespace RenaProxy.Squid
open Crews

/-! ## Threads -/

/-- What the threads share: the queue `q`, in which an empty line ends a thread, `cached_results`
and what has been written. A message is written at once. -/
structure HelperState where
  q : List (List UInt8)
  cachedResults : CachedResults
  out : List (List UInt8)

/-- Where a thread is. The first two are the main thread's. -/
inductive HelperPhase
  /-- `stdin.readline` -/
  | reading (lines : List (List UInt8))
  /-- so many empty lines to put into the queue, then `join` -/
  | closing (left : ℕ)
  /-- `q.get` -/
  | waiting
  /-- `do_work` with an item -/
  | working (line : List UInt8)
  /-- The key is in `cached_results`. -/
  | found (line : List UInt8)
  /-- `func` has returned. -/
  | computed (line : List UInt8) (ret : Option (List UInt8))
  /-- `randint` -/
  | choosing (line : List UInt8) (ret : Option (List UInt8))
  /-- `list(cached_results.keys())[r - 1]` -/
  | indexing (line : List UInt8) (ret : Option (List UInt8)) (r : ℕ)
  /-- `cached_results.pop` -/
  | dropping (line : List UInt8) (ret : Option (List UInt8)) (toBeRemoved : List UInt8)
  /-- `cached_results[key] = ret` -/
  | storing (line : List UInt8) (ret : Option (List UInt8))
  /-- `send_answer` -/
  | answering (line : List UInt8) (reply : HelperReply)
  | stopped
  /-- An exception has ended the thread. -/
  | dead (line : List UInt8)
  deriving DecidableEq, Repr

/-- A step of a thread. `randint` returns what it likes. -/
inductive HelperStep
  | next
  | random (r : ℕ)
  deriving DecidableEq, Repr

/-- `send_answer`: the channel, and the reply -/
def channelMessage (h : Helper) (line : List UInt8) (reply : HelperReply) : List UInt8 :=
  lineChannel line ++ 32 :: (reply.text h.fallback ++ [10])

/-- `data['URL']` of a line that has one -/
def lineUrl (line : List UInt8) : List UInt8 := ((lineFields line)[1]?).getD []

/-- `cached_results[key] = ret` -/
def CachedResults.put (cachedResults : CachedResults) (key : List UInt8)
    (ret : Option (List UInt8)) : CachedResults :=
  if (cachedResults.lookup key).isSome then
    cachedResults.map fun entry => if entry.1 = key then (key, ret) else entry
  else cachedResults ++ [(key, ret)]

namespace Helper
variable (h : Helper)

/-- The work on a line goes on to its answer, or an exception ends the thread. -/
def settled (line : List UInt8) : Except HelperError HelperReply → HelperPhase
  | .ok reply => .answering line reply
  | .error _ => .dead line

/-- The work on a line up to where `cached_results` has the key, or `func` has returned. -/
def begun (cachedResults : CachedResults) (line : List UInt8) : HelperPhase :=
  if bytesStrip line = [] then .waiting
  else
    match (lineFields line)[1]? with
    | none => .dead line
    | some url =>
        if h.Asks url then
          if (cachedResults.lookup (cacheKey url)).isSome then .found line
          else
            match h.undone url with
            | .ok ret => .computed line ret
            | .error _ => .dead line
        else .answering line (h.normal url)

end Helper

/-- A thread of `url_rewriter_async.py`, with `n` of them beside the main thread -/
def helperAct (n : ℕ) (h : Helper) (s : HelperState) :
    HelperPhase → HelperStep → Option (HelperState × HelperPhase)
  | .reading [], .next => some (s, .closing n)
  | .reading (line :: lines), .next =>
      if line = [] then some (s, .closing n)
      else some ({ s with q := s.q ++ [line] }, .reading lines)
  | .closing (left + 1), .next => some ({ s with q := s.q ++ [[]] }, .closing left)
  | .waiting, .next =>
      match s.q with
      | [] => none
      | line :: q => some ({ s with q := q }, if line = [] then .stopped else .working line)
  | .working line, .next => some (s, h.begun s.cachedResults line)
  | .found line, .next =>
      match s.cachedResults.lookup (cacheKey (lineUrl line)) with
      | some ret => some (s, Helper.settled line (h.afterUndo (lineUrl line) ret))
      | none => some (s, .dead line)
  | .computed line ret, .next =>
      some (s, if s.cachedResults.length > 10 then .choosing line ret else .storing line ret)
  | .choosing line ret, .random r =>
      if s.cachedResults = [] then some (s, .dead line)
      else if 1 ≤ r ∧ r ≤ s.cachedResults.length then some (s, .indexing line ret r)
      else none
  | .indexing line ret r, .next =>
      match s.cachedResults[r - 1]? with
      | some entry => some (s, .dropping line ret entry.1)
      | none => some (s, .dead line)
  | .dropping line ret toBeRemoved, .next =>
      if (s.cachedResults.lookup toBeRemoved).isSome then
        some ({ s with cachedResults := s.cachedResults.filter (·.1 ≠ toBeRemoved) },
          .storing line ret)
      else some (s, .dead line)
  | .storing line ret, .next =>
      some ({ s with cachedResults := s.cachedResults.put (cacheKey (lineUrl line)) ret },
        Helper.settled line (h.afterUndo (lineUrl line) ret))
  | .answering line reply, .next =>
      some ({ s with out := s.out ++ [channelMessage h line reply] }, .waiting)
  | _, _ => none

/-- The threads of the helper, and what they share. -/
abbrev HelperCrew := Crew HelperState HelperPhase

/-- The main thread has made `n` others, and is to read these lines. -/
def HelperCrew.start (n : ℕ) (lines : List (List UInt8)) : HelperCrew :=
  ⟨⟨[], [], []⟩, .reading lines :: List.replicate n .waiting⟩

/-! ## The steps -/

section Moves
variable {n : ℕ} {h : Helper} {s s' : HelperState} {p p' : HelperPhase} {a : HelperStep}

/-- What a thread can do. -/
inductive HelperMove (n : ℕ) (h : Helper) (s : HelperState) :
    HelperPhase → HelperStep → HelperState → HelperPhase → Prop
  | eof {lines : List (List UInt8)} (hlines : linesRead lines = []) :
      HelperMove n h s (.reading lines) .next s (.closing n)
  | read {line : List UInt8} {lines : List (List UInt8)} (hline : line ≠ []) :
      HelperMove n h s (.reading (line :: lines)) .next { s with q := s.q ++ [line] }
        (.reading lines)
  | close (left : ℕ) :
      HelperMove n h s (.closing (left + 1)) .next { s with q := s.q ++ [[]] } (.closing left)
  | quit {q : List (List UInt8)} (hq : s.q = [] :: q) :
      HelperMove n h s .waiting .next { s with q := q } .stopped
  | take {line : List UInt8} {q : List (List UInt8)} (hline : line ≠ []) (hq : s.q = line :: q) :
      HelperMove n h s .waiting .next { s with q := q } (.working line)
  | work (line : List UInt8) :
      HelperMove n h s (.working line) .next s (h.begun s.cachedResults line)
  | fetch {line : List UInt8} {ret : Option (List UInt8)}
      (hret : s.cachedResults.lookup (cacheKey (lineUrl line)) = some ret) :
      HelperMove n h s (.found line) .next s (Helper.settled line (h.afterUndo (lineUrl line) ret))
  | gone {line : List UInt8} (hret : s.cachedResults.lookup (cacheKey (lineUrl line)) = none) :
      HelperMove n h s (.found line) .next s (.dead line)
  | full {line : List UInt8} {ret : Option (List UInt8)} (hfull : 10 < s.cachedResults.length) :
      HelperMove n h s (.computed line ret) .next s (.choosing line ret)
  | room {line : List UInt8} {ret : Option (List UInt8)} (hroom : s.cachedResults.length ≤ 10) :
      HelperMove n h s (.computed line ret) .next s (.storing line ret)
  | choose {line : List UInt8} {ret : Option (List UInt8)} (r : ℕ) :
      HelperMove n h s (.choosing line ret) (.random r) s (.indexing line ret r)
  | noChoice {line : List UInt8} {ret : Option (List UInt8)} (r : ℕ) :
      HelperMove n h s (.choosing line ret) (.random r) s (.dead line)
  | index {line : List UInt8} {ret : Option (List UInt8)} {r : ℕ} (key : List UInt8) :
      HelperMove n h s (.indexing line ret r) .next s (.dropping line ret key)
  | noIndex {line : List UInt8} {ret : Option (List UInt8)} {r : ℕ} :
      HelperMove n h s (.indexing line ret r) .next s (.dead line)
  | drop {line : List UInt8} {ret : Option (List UInt8)} {key : List UInt8} :
      HelperMove n h s (.dropping line ret key) .next
        { s with cachedResults := s.cachedResults.filter (·.1 ≠ key) } (.storing line ret)
  | noKey {line : List UInt8} {ret : Option (List UInt8)} {key : List UInt8} :
      HelperMove n h s (.dropping line ret key) .next s (.dead line)
  | store (line : List UInt8) (ret : Option (List UInt8)) :
      HelperMove n h s (.storing line ret) .next
        { s with cachedResults := s.cachedResults.put (cacheKey (lineUrl line)) ret }
        (Helper.settled line (h.afterUndo (lineUrl line) ret))
  | answer (line : List UInt8) (reply : HelperReply) :
      HelperMove n h s (.answering line reply) .next
        { s with out := s.out ++ [channelMessage h line reply] } .waiting

theorem helperMove_of_act (hact : helperAct n h s p a = some (s', p')) :
    HelperMove n h s p a s' p' := by
  unfold helperAct at hact
  split at hact
  · obtain ⟨rfl, rfl⟩ := Prod.mk.inj (Option.some.inj hact)
    exact .eof rfl
  · split_ifs at hact with hline
    · obtain ⟨rfl, rfl⟩ := Prod.mk.inj (Option.some.inj hact)
      exact .eof (by simp [linesRead, hline])
    · obtain ⟨rfl, rfl⟩ := Prod.mk.inj (Option.some.inj hact)
      exact .read hline
  · obtain ⟨rfl, rfl⟩ := Prod.mk.inj (Option.some.inj hact)
    exact .close _
  · split at hact
    · cases hact
    · rename_i line q hq
      obtain ⟨rfl, rfl⟩ := Prod.mk.inj (Option.some.inj hact)
      split_ifs with hline
      · exact .quit (hline ▸ hq)
      · exact .take hline hq
  · obtain ⟨rfl, rfl⟩ := Prod.mk.inj (Option.some.inj hact)
    exact .work _
  · split at hact
    · rename_i ret hret
      obtain ⟨rfl, rfl⟩ := Prod.mk.inj (Option.some.inj hact)
      exact .fetch hret
    · rename_i hret
      obtain ⟨rfl, rfl⟩ := Prod.mk.inj (Option.some.inj hact)
      exact .gone hret
  · obtain ⟨rfl, rfl⟩ := Prod.mk.inj (Option.some.inj hact)
    split_ifs with hfull
    · exact .full hfull
    · exact .room (Nat.le_of_not_lt hfull)
  · split_ifs at hact with hempty hr
    · obtain ⟨rfl, rfl⟩ := Prod.mk.inj (Option.some.inj hact)
      exact .noChoice _
    · obtain ⟨rfl, rfl⟩ := Prod.mk.inj (Option.some.inj hact)
      exact .choose _
  · split at hact
    · obtain ⟨rfl, rfl⟩ := Prod.mk.inj (Option.some.inj hact)
      exact .index _
    · obtain ⟨rfl, rfl⟩ := Prod.mk.inj (Option.some.inj hact)
      exact .noIndex
  · split_ifs at hact with hkey
    · obtain ⟨rfl, rfl⟩ := Prod.mk.inj (Option.some.inj hact)
      exact .drop
    · obtain ⟨rfl, rfl⟩ := Prod.mk.inj (Option.some.inj hact)
      exact .noKey
  · obtain ⟨rfl, rfl⟩ := Prod.mk.inj (Option.some.inj hact)
    exact .store _ _
  · obtain ⟨rfl, rfl⟩ := Prod.mk.inj (Option.some.inj hact)
    exact .answer _ _
  · cases hact

end Moves

/-! ## What every run keeps -/

/-- A line for whose URL `undo_redirect` is asked. -/
def Helper.Asked (h : Helper) (line : List UInt8) : Prop :=
  bytesStrip line ≠ [] ∧ ∃ url ∈ (lineFields line)[1]?, h.Asks url

instance (h : Helper) : DecidablePred h.Asked := fun _ => inferInstanceAs (Decidable (_ ∧ _))

/-- A line that makes a helper raise, whatever is remembered -/
def Helper.raises (h : Helper) (line : List UInt8) : Bool :=
  match h.lineReply line with
  | .ok _ => false
  | .error _ => true

/-- What a line comes to: a message, or an exception. -/
inductive LineOutcome
  | written (message : List UInt8)
  | raised (line : List UInt8)
  deriving DecidableEq, Repr

/-- What a line is to come to. -/
def Helper.outcomes (h : Helper) (line : List UInt8) : List LineOutcome :=
  match h.lineReply line with
  | .ok none => []
  | .ok (some reply) => [.written (channelMessage h line reply)]
  | .error _ => [.raised line]

namespace HelperPhase

/-- The lines that a thread still has to do with, or has died of. -/
def lines : HelperPhase → List (List UInt8)
  | reading lines => linesRead lines
  | working line | found line | computed line _ | choosing line _ | indexing line _ _
  | dropping line _ _ | storing line _ | answering line _ | dead line => [line]
  | closing _ | waiting | stopped => []

/-- What a thread knows is right. -/
def Right (h : Helper) : HelperPhase → Prop
  | found line => h.Asked line
  | computed line ret | choosing line ret | indexing line ret _ | dropping line ret _
  | storing line ret => h.Asked line ∧ h.undone (lineUrl line) = .ok ret
  | answering line reply => h.lineReply line = .ok (some reply)
  | dead line => h.raises line ∨ h.Asked line
  | _ => True

/-- The main thread -/
def main : HelperPhase → ℕ
  | reading _ | closing _ => 1
  | _ => 0

/-- The empty lines that a thread has to put into the queue, or has got from there. -/
def stops (n : ℕ) : HelperPhase → ℕ
  | reading _ => n
  | closing left => left
  | stopped => 1
  | _ => 0

end HelperPhase

section Kept
variable {n : ℕ} {h : Helper} {s s' : HelperState} {p p' : HelperPhase} {a : HelperStep}
  {c c' : HelperCrew} {x : ℕ × HelperStep} {xs : List (ℕ × HelperStep)} {line url : List UInt8}
  {ret : Option (List UInt8)} {cachedResults : CachedResults} {before after : List HelperPhase}

theorem lineUrl_of_getElem? (hurl : (lineFields line)[1]? = some url) : lineUrl line = url := by
  rw [lineUrl, hurl, Option.getD_some]

/-- The reply to a line for whose URL `undo_redirect` has been asked. -/
theorem lineReply_of_undone (hasked : h.Asked line) (hret : h.undone (lineUrl line) = .ok ret) :
    h.lineReply line = (h.afterUndo (lineUrl line) ret).map some := by
  obtain ⟨hblank, url, hurl, hasks⟩ := hasked
  rw [lineUrl_of_getElem? hurl] at hret ⊢
  rw [Helper.lineReply, if_neg hblank, hurl]
  dsimp only
  rw [Helper.replyTo, if_pos hasks, ← Helper.undone, hret, Failure.bind_ok]

theorem raises_iff : h.raises line ↔ ∃ e, h.lineReply line = .error e := by
  rw [Helper.raises]
  cases h.lineReply line with
  | ok reply => simp
  | error e => simp

/-- An answer or an end that comes of what `undo_redirect` has returned is right. -/
theorem right_settled (hasked : h.Asked line) (hret : h.undone (lineUrl line) = .ok ret) :
    (Helper.settled line (h.afterUndo (lineUrl line) ret)).Right h := by
  have hreply := lineReply_of_undone hasked hret
  cases hafter : h.afterUndo (lineUrl line) ret with
  | ok reply =>
      rw [hafter] at hreply
      exact hreply
  | error e =>
      rw [hafter] at hreply
      exact .inl (raises_iff.mpr ⟨e, hreply⟩)

theorem lines_settled (reply : Except HelperError HelperReply) :
    (Helper.settled line reply).lines = [line] := by
  cases reply with
  | ok reply => rfl
  | error e => rfl

/-- The first look at a line. -/
theorem begun_cases (cachedResults : CachedResults) (line : List UInt8) :
    (h.begun cachedResults line = .waiting ∧ h.lineReply line = .ok none) ∨
    (h.begun cachedResults line = .dead line ∧ h.raises line) ∨
    (h.begun cachedResults line = .found line ∧ h.Asked line ∧
      (cachedResults.lookup (cacheKey (lineUrl line))).isSome) ∨
    (∃ ret, h.begun cachedResults line = .computed line ret ∧ h.Asked line ∧
      h.undone (lineUrl line) = .ok ret) ∨
    ∃ reply, h.begun cachedResults line = .answering line reply ∧
      h.lineReply line = .ok (some reply) := by
  rw [raises_iff, Helper.begun, Helper.lineReply, Helper.Asked]
  by_cases hblank : bytesStrip line = []
  · rw [if_pos hblank, if_pos hblank]
    exact .inl ⟨rfl, rfl⟩
  · rw [if_neg hblank, if_neg hblank]
    cases hurl : (lineFields line)[1]? with
    | none => exact .inr (.inl ⟨rfl, _, rfl⟩)
    | some url =>
        dsimp only
        rw [lineUrl_of_getElem? hurl, Helper.replyTo]
        by_cases hasks : h.Asks url
        · rw [if_pos hasks, if_pos hasks]
          by_cases hhit : (cachedResults.lookup (cacheKey url)).isSome
          · rw [if_pos hhit]
            exact .inr (.inr (.inl ⟨rfl, ⟨hblank, url, rfl, hasks⟩, hhit⟩))
          · rw [if_neg hhit, ← Helper.undone]
            cases hret : h.undone url with
            | ok ret => exact .inr (.inr (.inr (.inl ⟨ret, rfl, ⟨hblank, url, rfl, hasks⟩, rfl⟩)))
            | error e => exact .inr (.inl ⟨rfl, e, rfl⟩)
        · rw [if_neg hasks, if_neg hasks]
          exact .inr (.inr (.inr (.inr ⟨_, rfl, rfl⟩)))

/-- An assignment of what is right keeps what is remembered right. -/
theorem remembers_put (S : Remembers h cachedResults) (hret : h.undone url = .ok ret) :
    Remembers h (cachedResults.put (cacheKey url) ret) := by
  have hnew : ∀ url', cacheKey url' = cacheKey url → h.undone url' = .ok ret := fun url' hkey =>
    cacheKey_injective hkey ▸ hret
  intro key ret' hmem url' hkey
  rw [CachedResults.put] at hmem
  split_ifs at hmem
  · obtain ⟨entry, hentry, heq⟩ := List.mem_map.mp hmem
    split_ifs at heq
    · obtain ⟨rfl, rfl⟩ := Prod.mk.inj heq
      exact hnew url' hkey
    · exact S key ret' (heq ▸ hentry) url' hkey
  · rcases List.mem_append.mp hmem with hmem | hmem
    · exact S key ret' hmem url' hkey
    · obtain ⟨rfl, rfl⟩ := Prod.mk.inj (List.mem_singleton.mp hmem)
      exact hnew url' hkey

theorem Remembers.undone (S : Remembers h cachedResults)
    (hret : cachedResults.lookup (cacheKey url) = some ret) : h.undone url = .ok ret :=
  S _ _ (MemoTable.mem_of_lookup hret) url rfl

/-- What holds in every state that `n` threads come to. -/
structure HelperCrew.Kept (n : ℕ) (h : Helper) (c : HelperCrew) : Prop where
  length : c.workers.length = n + 1
  main : amount (fun _ => 0) HelperPhase.main c = 1
  stops : amount (fun s => s.q.count []) (HelperPhase.stops n) c = n
  ends : c.shared.q.Pairwise fun a b => a = [] → b = []
  stopped : .stopped ∈ c.workers → ∀ line ∈ c.shared.q, line = []
  remembers : Remembers h c.shared.cachedResults
  right : ∀ p ∈ c.workers, p.Right h

theorem kept_start (h : Helper) (lines : List (List UInt8)) :
    (HelperCrew.start n lines).Kept n h where
  length := by simp [HelperCrew.start]
  main := by simp [HelperCrew.start, amount, HelperPhase.main]
  stops := by simp [HelperCrew.start, amount, HelperPhase.stops]
  ends := List.Pairwise.nil
  stopped := fun hmem => by simp [HelperCrew.start] at hmem
  remembers := fun _ _ hmem => absurd hmem List.not_mem_nil
  right := fun p hp => by
    rcases List.mem_cons.mp hp with rfl | hp
    · trivial
    · rw [List.eq_of_mem_replicate hp]
      trivial

theorem main_begun (cachedResults : CachedResults) (line : List UInt8) :
    (h.begun cachedResults line).main = 0 ∧ (h.begun cachedResults line).stops n = 0 ∧
      h.begun cachedResults line ≠ .stopped := by
  rcases begun_cases (h := h) cachedResults line with
    ⟨hp, -⟩ | ⟨hp, -⟩ | ⟨hp, -⟩ | ⟨ret, hp, -⟩ | ⟨reply, hp, -⟩
  all_goals
    rw [hp]
    exact ⟨rfl, rfl, by simp⟩

theorem main_settled (line : List UInt8) (reply : Except HelperError HelperReply) :
    (Helper.settled line reply).main = 0 ∧ (Helper.settled line reply).stops n = 0 ∧
      Helper.settled line reply ≠ .stopped := by
  cases reply with
  | ok reply => exact ⟨rfl, rfl, by simp [Helper.settled]⟩
  | error e => exact ⟨rfl, rfl, by simp [Helper.settled]⟩

theorem main_move (hmove : HelperMove n h s p a s' p') : p'.main = p.main := by
  cases hmove with
  | work line => exact (main_begun (n := n) _ line).1
  | fetch | store => exact (main_settled (n := n) _ _).1
  | _ => rfl

theorem stops_move (hmove : HelperMove n h s p a s' p') :
    s'.q.count [] + p'.stops n = s.q.count [] + p.stops n := by
  cases hmove with
  | read hline => simp [HelperPhase.stops, List.count_append, hline]
  | close left =>
      simp [HelperPhase.stops, List.count_append]
      omega
  | quit hq => simp [HelperPhase.stops, hq]
  | take hline hq => simp [HelperPhase.stops, hq, hline]
  | work line =>
      rw [(main_begun _ line).2.1]
      rfl
  | fetch | store =>
      rw [(main_settled _ _).2.1]
      rfl
  | _ => rfl

theorem right_move (S : Remembers h s.cachedResults) (hright : p.Right h)
    (hmove : HelperMove n h s p a s' p') : p'.Right h := by
  cases hmove with
  | work line =>
      rcases begun_cases (h := h) s.cachedResults line with
        ⟨hp, -⟩ | ⟨hp, hraises⟩ | ⟨hp, hasked, -⟩ | ⟨ret, hp, hasked, hret⟩ | ⟨reply, hp, hreply⟩
      · rw [hp]
        trivial
      · rw [hp]
        exact .inl hraises
      · rw [hp]
        exact hasked
      · rw [hp]
        exact ⟨hasked, hret⟩
      · rw [hp]
        exact hreply
  | fetch hret => exact right_settled hright (S.undone hret)
  | store line ret => exact right_settled hright.1 hright.2
  | gone => exact .inr hright
  | noChoice | noIndex | noKey => exact .inr hright.1
  | full | room | choose | index | drop => exact hright
  | _ => trivial

theorem remembers_move (S : Remembers h s.cachedResults) (hright : p.Right h)
    (hmove : HelperMove n h s p a s' p') : Remembers h s'.cachedResults := by
  cases hmove with
  | drop => exact fun key ret hmem => S key ret (List.mem_of_mem_filter hmem)
  | store line ret => exact remembers_put S hright.2
  | _ => exact S

section Fields
variable (K : HelperCrew.Kept n h ⟨s, before ++ p :: after⟩) (hmove : HelperMove n h s p a s' p')
include K hmove

/-- A line that is read comes before all that end threads. -/
theorem ends_kept : s'.q.Pairwise fun a b => a = [] → b = [] := by
  have hends := K.ends
  cases hmove with
  | read hline =>
      have hstops := K.stops
      rw [amount_mk] at hstops
      have hnone : [] ∉ s.q := by
        rw [← List.count_eq_zero]
        simp only [HelperPhase.stops] at hstops
        omega
      refine List.pairwise_append.mpr ⟨hends, List.pairwise_singleton _ _, ?_⟩
      rintro a ha b - rfl
      exact absurd ha hnone
  | close left =>
      refine List.pairwise_append.mpr ⟨hends, List.pairwise_singleton _ _, ?_⟩
      rintro a - b hb -
      exact List.mem_singleton.mp hb
  | quit hq | take _ hq =>
      dsimp only at hends
      rw [hq] at hends
      exact hends.of_cons
  | _ => exact hends

/-- A thread that stops leaves no line behind. -/
theorem stopped_kept (hstopped : .stopped ∈ before ++ p' :: after) : ∀ line ∈ s'.q, line = [] := by
  have hmem : p' ≠ .stopped → .stopped ∈ before ++ p :: after := by
    intro hne
    rcases List.mem_append.mp hstopped with hmem | hmem
    · exact List.mem_append_left _ hmem
    · rcases List.mem_cons.mp hmem with heq | hmem
      · exact absurd heq.symm hne
      · exact List.mem_append_right _ (List.mem_cons_of_mem _ hmem)
  have hends := K.ends
  have hq : p' ≠ .stopped → ∀ line ∈ s.q, line = [] := fun hne => K.stopped (hmem hne)
  cases hmove with
  | quit hcons =>
      dsimp only at hends
      rw [hcons] at hends
      exact fun line hline => List.rel_of_pairwise_cons hends hline rfl
  | take hline hcons =>
      have hempty := hq (by simp) _ (hcons ▸ List.mem_cons_self)
      exact absurd hempty hline
  | read hline =>
      have hstops := K.stops
      have hother : .stopped ∈ before ++ after := by simpa using hstopped
      have hone := List.single_le_sum (l := (before ++ after).map (HelperPhase.stops n))
        (fun _ _ => Nat.zero_le _) _ (List.mem_map_of_mem hother)
      rw [amount_mk] at hstops
      rw [List.map_append, List.sum_append] at hone
      simp only [HelperPhase.stops] at hstops hone
      omega
  | close left =>
      intro line hline
      rcases List.mem_append.mp hline with hline | hline
      · exact hq (by simp) line hline
      · exact List.mem_singleton.mp hline
  | work line => exact hq (main_begun (n := n) _ line).2.2
  | fetch | store => exact hq (main_settled (n := n) _ _).2.2
  | _ => exact hq (by simp)

end Fields

/-- **One step keeps it.** -/
theorem HelperCrew.Kept.step (K : HelperCrew.Kept n h c)
    (hstep : step (helperAct n h) c x = some c') : HelperCrew.Kept n h c' := by
  obtain ⟨s, workers⟩ := c
  obtain ⟨before, p, after, s', p', hworkers, -, hact, rfl⟩ := step_eq_some_iff.mp hstep
  dsimp only at hworkers hact
  subst hworkers
  have hmove := helperMove_of_act hact
  have hright := K.right p (List.mem_append_right _ List.mem_cons_self)
  exact {
    length := by
      have := K.length
      simpa using this
    main := by
      have hmain := K.main
      rw [amount_mk] at hmain ⊢
      rw [main_move hmove, hmain]
    stops := by
      have hstops := K.stops
      rw [amount_mk] at hstops ⊢
      rw [stops_move hmove, hstops]
    ends := ends_kept K hmove
    stopped := stopped_kept K hmove
    remembers := remembers_move K.remembers hright hmove
    right := forall_set K.right (right_move K.remembers hright hmove) }

theorem HelperCrew.kept_run {lines : List (List UInt8)}
    (hrun : run (helperAct n h) (HelperCrew.start n lines) xs = some c) : HelperCrew.Kept n h c :=
  invariant_run (fun _ _ _ K hstep => K.step hstep) (kept_start h lines) hrun

end Kept

/-! ## The books -/

section Books
variable {n : ℕ} {h : Helper} {s s' : HelperState} {p p' : HelperPhase} {a : HelperStep}
  {c : HelperCrew} {xs : List (ℕ × HelperStep)} {line : List UInt8} {lines : List (List UInt8)}
  {reply : HelperReply}

/-- What is written and what the lines in the queue are to come to. -/
def HelperState.outcomes (h : Helper) (s : HelperState) : Multiset LineOutcome :=
  (s.out.map LineOutcome.written : List LineOutcome) + (s.q.flatMap h.outcomes : List LineOutcome)

/-- What the lines of a thread are to come to. -/
def HelperPhase.outcomes (h : Helper) (p : HelperPhase) : Multiset LineOutcome :=
  (p.lines.flatMap h.outcomes : List LineOutcome)

theorem outcomes_nil : h.outcomes [] = [] := rfl

theorem outcomes_of_reply (hreply : h.lineReply line = .ok (some reply)) :
    h.outcomes line = [.written (channelMessage h line reply)] := by
  rw [Helper.outcomes, hreply]

theorem outcomes_of_blank (hreply : h.lineReply line = .ok none) : h.outcomes line = [] := by
  rw [Helper.outcomes, hreply]

/-- No line comes to something else than it is to, or twice. -/
theorem outcomes_move (hright : p.Right h) (hmove : HelperMove n h s p a s' p') :
    s'.outcomes h + p'.outcomes h = s.outcomes h + p.outcomes h := by
  cases hmove with
  | eof hlines => simp [HelperPhase.outcomes, HelperPhase.lines, hlines]
  | read hline =>
      simp [HelperState.outcomes, HelperPhase.outcomes, HelperPhase.lines, linesRead, hline,
        ← Multiset.coe_add, add_assoc]
  | close left => simp [HelperState.outcomes, HelperPhase.outcomes, HelperPhase.lines, outcomes_nil]
  | quit hq =>
      simp [HelperState.outcomes, HelperPhase.outcomes, HelperPhase.lines, hq, outcomes_nil]
  | take hline hq =>
      simp [HelperState.outcomes, HelperPhase.outcomes, HelperPhase.lines, hq, ← Multiset.coe_add,
        add_assoc, add_comm (h.outcomes _ : Multiset LineOutcome)]
  | work line =>
      rcases begun_cases (h := h) s.cachedResults line with
        ⟨hp, hreply⟩ | ⟨hp, -⟩ | ⟨hp, -⟩ | ⟨ret, hp, -⟩ | ⟨reply, hp, -⟩
      · simp [hp, HelperPhase.outcomes, HelperPhase.lines, outcomes_of_blank hreply]
      all_goals
        rw [hp]
        rfl
  | fetch | store =>
      rw [HelperPhase.outcomes, lines_settled]
      rfl
  | answer line reply =>
      simp [HelperState.outcomes, HelperPhase.outcomes, HelperPhase.lines, outcomes_of_reply hright,
        ← Multiset.coe_add, add_assoc, add_left_comm, add_comm]
  | _ => rfl

/-- **The books of a run.** -/
theorem outcomes_run (hrun : run (helperAct n h) (HelperCrew.start n lines) xs = some c) :
    amount (HelperState.outcomes h) (HelperPhase.outcomes h) c =
      ((linesRead lines).flatMap h.outcomes : List LineOutcome) := by
  have hact : ∀ (c : HelperCrew) (p : HelperPhase) (a : HelperStep) (s' : HelperState)
      (p' : HelperPhase), c.Kept n h → p ∈ c.workers → helperAct n h c.shared p a = some (s', p') →
      s'.outcomes h + p'.outcomes h + 0 = c.shared.outcomes h + p.outcomes h + 0 := by
    intro c p a s' p' K hp hact
    rw [outcomes_move (K.right p hp) (helperMove_of_act hact)]
  have hbooks := amount_run (fun _ _ _ K hstep => K.step hstep) (kept_start h lines) hact hrun
  simpa [amount, HelperCrew.start, HelperState.outcomes, HelperPhase.outcomes, HelperPhase.lines]
    using hbooks

theorem sum_outcomes (l : List HelperPhase) : (l.map (HelperPhase.outcomes h)).sum =
    ((l.flatMap HelperPhase.lines).flatMap h.outcomes : List LineOutcome) := by
  induction l with
  | nil => rfl
  | cons p l ih =>
      rw [List.map_cons, List.sum_cons, ih, HelperPhase.outcomes, List.flatMap_cons,
        List.flatMap_append, Multiset.coe_add]

/-- What has been written, and what is still to come. -/
theorem perm_outcomes (hrun : run (helperAct n h) (HelperCrew.start n lines) xs = some c) :
    ((c.shared.out.map LineOutcome.written ++ c.shared.q.flatMap h.outcomes) ++
      (c.workers.flatMap HelperPhase.lines).flatMap h.outcomes).Perm
      ((linesRead lines).flatMap h.outcomes) := by
  have hbooks := outcomes_run hrun
  rwa [amount, sum_outcomes, HelperState.outcomes, Multiset.coe_add, Multiset.coe_add,
    Multiset.coe_eq_coe] at hbooks

end Books

/-! ## At rest -/

section Rest
variable {n : ℕ} {h : Helper} {s s' : HelperState} {p p' : HelperPhase} {a : HelperStep}
  {c c' : HelperCrew} {xs : List (ℕ × HelperStep)} {lines : List (List UInt8)}

/-- No thread has anything to do. -/
def HelperCrew.AtRest (n : ℕ) (h : Helper) (c : HelperCrew) : Prop :=
  Stuck (helperAct n h) (fun _ => True) c

/-- The line that a thread has died of. -/
def HelperPhase.died : HelperPhase → List (List UInt8)
  | dead line => [line]
  | _ => []

/-- The lines that threads have died of. -/
def HelperCrew.died (c : HelperCrew) : List (List UInt8) := c.workers.flatMap HelperPhase.died

/-- Nobody is left to answer. -/
def HelperCrew.AllDead (c : HelperCrew) : Prop := ∀ p ∈ c.workers, p.main = 0 → p.died ≠ []

/-- The steps that a thread has before it at the most, and those that it makes for others. -/
def HelperPhase.weight (n : ℕ) : HelperPhase → ℕ
  | reading lines => 10 * lines.length + 10 * n + 2
  | closing left => 10 * left + 1
  | waiting => 1
  | working _ => 8
  | found _ | computed _ _ => 7
  | choosing _ _ => 6
  | indexing _ _ _ => 5
  | dropping _ _ _ => 4
  | storing _ _ => 3
  | answering _ _ => 2
  | stopped | dead _ => 0

theorem weight_settled (line : List UInt8) (reply : Except HelperError HelperReply) :
    (Helper.settled line reply).weight n ≤ 2 := by
  cases reply with
  | ok reply => exact Nat.le_refl 2
  | error e => exact Nat.zero_le 2

theorem weight_move (hmove : HelperMove n h s p a s' p') :
    9 * s'.q.length + p'.weight n < 9 * s.q.length + p.weight n := by
  cases hmove with
  | work line =>
      have hlt : (h.begun s.cachedResults line).weight n < 8 := by
        rcases begun_cases (h := h) s.cachedResults line with
          ⟨hp, -⟩ | ⟨hp, -⟩ | ⟨hp, -⟩ | ⟨ret, hp, -⟩ | ⟨reply, hp, -⟩
        all_goals
          rw [hp]
          simp [HelperPhase.weight]
      exact Nat.add_lt_add_left hlt _
  | fetch | store =>
      refine Nat.add_lt_add_left (Nat.lt_of_le_of_lt (weight_settled _ _) ?_) _
      simp [HelperPhase.weight]
  | quit hq | take _ hq =>
      simp only [hq, HelperPhase.weight, List.length_cons]
      omega
  | _ =>
      simp only [HelperPhase.weight, List.length_append, List.length_cons, List.length_nil]
      omega

/-- The threads come to rest. -/
theorem HelperCrew.exists_rest (n : ℕ) (h : Helper) (c : HelperCrew) :
    ∃ ys c', run (helperAct n h) c ys = some c' ∧ HelperCrew.AtRest n h c' := by
  have hact : ∀ (c : HelperCrew) (p : HelperPhase) (a : HelperStep) (s' : HelperState)
      (p' : HelperPhase), True → True → p ∈ c.workers → helperAct n h c.shared p a = some (s', p') →
      9 * s'.q.length + p'.weight n < 9 * c.shared.q.length + p.weight n :=
    fun _ _ _ _ _ _ _ _ hact => weight_move (helperMove_of_act hact)
  obtain ⟨ys, c', -, hrun, hrest⟩ := exists_stuck (I := fun _ => True) (c := c)
    (fun _ _ _ _ _ => trivial) hact trivial
  exact ⟨ys, c', hrun, hrest⟩

/-- Where a thread is that has nothing to do. -/
theorem helperRest_cases (hrest : ∀ a, helperAct n h s p a = none) :
    p = .closing 0 ∨ (p = .waiting ∧ s.q = []) ∨ p = .stopped ∨ ∃ line, p = .dead line := by
  have hnext := hrest .next
  cases p with
  | reading lines =>
      cases lines with
      | nil => cases hnext
      | cons line lines =>
          rw [helperAct] at hnext
          split_ifs at hnext
  | closing left =>
      cases left with
      | zero => exact .inl rfl
      | succ left => cases hnext
  | waiting =>
      refine .inr (.inl ⟨rfl, ?_⟩)
      cases hq : s.q with
      | nil => rfl
      | cons line q =>
          rw [helperAct, hq] at hnext
          cases hnext
  | found line =>
      rw [helperAct] at hnext
      split at hnext <;> cases hnext
  | choosing line ret =>
      have hrandom := hrest (.random 1)
      rw [helperAct] at hrandom
      split_ifs at hrandom with hempty hone
      exact absurd ⟨Nat.le_refl 1, List.length_pos_iff.mpr hempty⟩ hone
  | indexing line ret r =>
      rw [helperAct] at hnext
      split at hnext <;> cases hnext
  | dropping line ret key =>
      rw [helperAct] at hnext
      split_ifs at hnext
  | stopped => exact .inr (.inr (.inl rfl))
  | dead line => exact .inr (.inr (.inr ⟨line, rfl⟩))
  | _ => cases hnext

/-- Threads of which each counts at most for one, and one for nothing. -/
theorem sum_lt_length {g : HelperPhase → ℕ} {l : List HelperPhase} (hp : p ∈ l) (hzero : g p = 0)
    (hle : ∀ q ∈ l, g q ≤ 1) : (l.map g).sum < l.length := by
  obtain ⟨before, after, rfl⟩ := List.append_of_mem hp
  have hbefore := List.sum_le_card_nsmul (before.map g) 1 fun z hz => by
    obtain ⟨q, hq, rfl⟩ := List.mem_map.mp hz
    exact hle q (List.mem_append_left _ hq)
  have hafter := List.sum_le_card_nsmul (after.map g) 1 fun z hz => by
    obtain ⟨q, hq, rfl⟩ := List.mem_map.mp hz
    exact hle q (List.mem_append_right _ (List.mem_cons_of_mem p hq))
  simp only [List.length_map, nsmul_eq_mul, mul_one, Nat.cast_id] at hbefore hafter
  simp only [List.map_append, List.map_cons, List.sum_append, List.sum_cons, List.length_append,
    List.length_cons, hzero]
  omega

/-- Nobody waits at rest: the queue holds an empty line for each thread. -/
theorem HelperCrew.Kept.rest_cases (K : c.Kept n h) (hrest : c.AtRest n h) :
    ∀ p ∈ c.workers, p = .closing 0 ∨ p = .stopped ∨ ∃ line, p = .dead line := by
  have hphases := fun p hp => helperRest_cases fun a => stuck_iff.mp hrest p hp a trivial
  have hawake : .waiting ∉ c.workers := by
    intro hmem
    obtain ⟨-, hempty⟩ : HelperPhase.waiting = .waiting ∧ c.shared.q = [] := by
      simpa using hphases _ hmem
    have hmain := K.main
    have hstops := K.stops
    have hlt := sum_lt_length (g := fun p => p.main + p.stops n) hmem rfl (fun p hp => by
      rcases hphases p hp with rfl | ⟨rfl, -⟩ | rfl | ⟨line, rfl⟩
      · exact Nat.le_refl 1
      · exact Nat.zero_le 1
      · exact Nat.le_refl 1
      · exact Nat.zero_le 1)
    rw [List.sum_map_add, K.length] at hlt
    rw [amount] at hmain hstops
    rw [hempty, List.count_nil] at hstops
    omega
  intro p hp
  rcases hphases p hp with hmain | ⟨rfl, -⟩ | hdone
  · exact .inl hmain
  · exact absurd hp hawake
  · exact .inr hdone

theorem HelperCrew.Kept.lines_eq_died (K : c.Kept n h) (hrest : c.AtRest n h) :
    c.workers.flatMap HelperPhase.lines = c.died := by
  refine List.flatMap_congr fun p hp => ?_
  rcases K.rest_cases hrest p hp with rfl | rfl | ⟨line, rfl⟩
  · rfl
  · rfl
  · rfl

theorem HelperCrew.Kept.allDead_or (K : c.Kept n h) (hrest : c.AtRest n h) :
    c.AllDead ∨ .stopped ∈ c.workers := by
  by_cases hstopped : .stopped ∈ c.workers
  · exact .inr hstopped
  · refine .inl fun p hp hmain => ?_
    rcases K.rest_cases hrest p hp with rfl | rfl | ⟨line, rfl⟩
    · cases hmain
    · exact absurd hp hstopped
    · exact List.cons_ne_nil _ _

theorem HelperCrew.Kept.right_died (K : c.Kept n h) {line : List UInt8} (hline : line ∈ c.died) :
    h.raises line ∨ h.Asked line := by
  obtain ⟨p, hp, hline⟩ := List.mem_flatMap.mp hline
  have hright := K.right p hp
  cases p with
  | dead line' =>
      obtain rfl := List.mem_singleton.mp hline
      exact hright
  | _ => cases hline

/-- Where a thread has stopped, nothing is left in the queue. -/
theorem perm_of_stopped (hrun : run (helperAct n h) (HelperCrew.start n lines) xs = some c)
    (hrest : c.AtRest n h) (hstopped : .stopped ∈ c.workers) :
    (c.shared.out.map LineOutcome.written ++ c.died.flatMap h.outcomes).Perm
      ((linesRead lines).flatMap h.outcomes) := by
  have K := HelperCrew.kept_run hrun
  have hperm := perm_outcomes hrun
  have hq : c.shared.q.flatMap h.outcomes = [] := by
    refine List.flatMap_eq_nil_iff.mpr fun line hline => ?_
    rw [K.stopped hstopped line hline]
    rfl
  rwa [hq, List.append_nil, K.lines_eq_died hrest] at hperm

theorem atRest_of_done (hdone : ∀ p ∈ c.workers, p = .closing 0 ∨ p = .stopped) : c.AtRest n h := by
  refine stuck_iff.mpr fun p hp a _ => ?_
  rcases hdone p hp with rfl | rfl
  · cases a with
    | next => rfl
    | random r => rfl
  · cases a with
    | next => rfl
    | random r => rfl

/-- **In whatever order the threads run**, a line is not answered twice and never wrongly. They come
to rest, and if there is a thread then that nothing has killed, each line has been answered or has
killed one. Those that kill are lines that raise, or that ask `undo_redirect`. -/
theorem answers_of_rest (hrun : run (helperAct n h) (HelperCrew.start n lines) xs = some c) :
    (c.shared.out.map LineOutcome.written).Subperm ((linesRead lines).flatMap h.outcomes) ∧
    (∃ ys c', run (helperAct n h) c ys = some c' ∧ HelperCrew.AtRest n h c') ∧
    (c.AtRest n h → ¬ c.AllDead →
      (c.shared.out.map LineOutcome.written ++ c.died.flatMap h.outcomes).Perm
        ((linesRead lines).flatMap h.outcomes)) ∧
    ∀ line ∈ c.died, h.raises line ∨ h.Asked line := by
  have K := HelperCrew.kept_run hrun
  refine ⟨?_, HelperCrew.exists_rest n h c, ?_, fun line => K.right_died⟩
  · refine List.Subperm.trans (List.Sublist.subperm ?_) (perm_outcomes hrun).subperm
    rw [List.append_assoc]
    exact List.sublist_append_left _ _
  · intro hrest halive
    exact perm_of_stopped hrun hrest ((K.allDead_or hrest).resolve_left halive)

/-- A helper with the suffix `ez` and a rule. -/
def renamingHelper : Helper :=
  ⟨⟨chars "ez", ProxyModel.traverse [.proxyDomainRename (chars "abcd") (chars "moos")]⟩,
    fun _ _ => false, []⟩

/-- One URL under the suffix on two channels -/
def sameLines : List (List UInt8) := [chars "0 moos.ez/a\n", chars "1 moos.ez/a\n"]

/-- Two threads at the same time: neither finds the URL in the cache. -/
def twoThreads : List (ℕ × HelperStep) :=
  [0, 0, 0, 1, 2, 1, 2, 1, 2, 1, 2, 2, 1, 0, 0, 1, 2].map fun i => (i, .next)

theorem exists_run_twoThreads : ∃ c : HelperCrew,
    run (helperAct 2 renamingHelper) (HelperCrew.start 2 sameLines) twoThreads = some c ∧
      c.workers = [.closing 0, .stopped, .stopped] :=
  Option.map_eq_some_iff.mp (by decide +kernel :
    (run (helperAct 2 renamingHelper) (HelperCrew.start 2 sameLines) twoThreads).map
      (fun c => c.workers) = some [.closing 0, .stopped, .stopped])

theorem answers_of_rest_twoThreads : ∃ c : HelperCrew,
    run (helperAct 2 renamingHelper) (HelperCrew.start 2 sameLines) twoThreads = some c ∧
    (c.shared.out.map LineOutcome.written).Subperm
      ((linesRead sameLines).flatMap renamingHelper.outcomes) ∧
    (c.shared.out.map LineOutcome.written ++ c.died.flatMap renamingHelper.outcomes).Perm
      ((linesRead sameLines).flatMap renamingHelper.outcomes) := by
  obtain ⟨c, hrun, hworkers⟩ := exists_run_twoThreads
  obtain ⟨honce, -, hall, -⟩ := answers_of_rest hrun
  refine ⟨c, hrun, honce, hall (atRest_of_done ?_) ?_⟩
  · rw [hworkers]
    decide
  · intro hdead
    exact hdead .stopped (by simp [hworkers]) rfl rfl

end Rest

end RenaProxy.Squid
