import RenaProxy.TaskQueue
import RenaProxy.Lib.Crew
import Mathlib.Tactic.Linarith
import Mathlib.Tactic.Ring

/-!
# The threads of rena

Each of the threads that `task_manager_run` starts either waits for events, as only one does at a
time, or for a task that this one has queued. A signal ends it all: each thread that leaves its loop
queues an empty task for every thread.

`atRest_iff` says that no wake-up is lost before that. `forall_gone_iff` says when the threads are
all gone after it, and `exists_ne_gone` that they never are if there are more than 64.
-/
namespace RenaProxy
open Crews BoundedQueue

/-! ## The model -/

/-- Where a thread is in `task_runner`. -/
inductive RunnerPhase
  /-- `while (rena->forced_exit == 0)` -/
  | loop
  /-- `has_io` is looked at. -/
  | looking
  /-- `has_io` was negative; it is looked at again behind the lock. -/
  | claiming
  /-- `epoll_wait` -/
  | dispatching
  /-- `server_dispatch` with events whose tasks are not queued yet -/
  | pushing (tasks : List Task)
  /-- `task_manager_task_consume` -/
  | consuming
  /-- `task_handling` -/
  | handling (task : Option Task)
  /-- `task_handling` of a client that another thread works on -/
  | repushing (task : Task)
  /-- `task_manager_forced_exit`, with so many empty tasks to come -/
  | leaving (left : ℕ)
  | gone
  deriving DecidableEq, Repr

/-- How the loop of events looks at the signals. -/
inductive SignalWatch
  /-- `server_notify2` has put them there. -/
  | always
  /-- `server_notify` has, which adds `EPOLLONESHOT`. -/
  | once
  | off
  deriving DecidableEq, Repr

/-- What the threads share. -/
structure PoolState where
  hasIo : Bool
  forcedExit : Bool
  queue : TaskQueue
  signals : SignalWatch

/-- A step of a thread. The events that `epoll_wait` returns with are made up by the outside. -/
inductive RunnerStep
  | next
  | consume
  | wake (tasks : List Task)
  /-- The signal is one to end at. -/
  | terminal
  /-- The client of the task is in a working state. -/
  | again
  deriving DecidableEq, Repr

/-- `TT_SIGNAL_READ` -/
def Task.isSignal (t : Task) : Bool := t.type = 7

/-- The tasks of clients, `TT_READ` and `TT_WRITE`. -/
def Task.isOfClient (t : Task) : Bool := 0 < t.type ∧ t.type < 3 ∧ 0 ≤ t.fd

namespace PoolState

/-- Whether `epoll_wait` can return with the events of these tasks, of which there are at most
`MAX`. -/
def Reports (s : PoolState) (tasks : List Task) : Prop :=
  tasks.length ≤ 1024 ∧ tasks.countP Task.isSignal ≤ if s.signals = .off then 0 else 1

instance (s : PoolState) (tasks : List Task) : Decidable (s.Reports tasks) :=
  inferInstanceAs (Decidable (_ ∧ _))

/-- With `EPOLLONESHOT` an event is reported once. -/
def reported (s : PoolState) (tasks : List Task) : PoolState :=
  if s.signals = .once ∧ tasks.any Task.isSignal then { s with signals := .off } else s

/-- `handle_read_signal` reads all signals, and the loop of events looks at them again, once. -/
def handled (s : PoolState) (task : Option Task) : PoolState :=
  if task.any Task.isSignal then { s with signals := .once } else s

end PoolState

/-- `task_runner`, with `n` threads. The signal of `proc_raise` at the end is for the thread that is
leaving, and no other one sees it. -/
def runnerAct (n : ℕ) (s : PoolState) : RunnerPhase → RunnerStep → Option (PoolState × RunnerPhase)
  | .loop, .next => some (s, if s.forcedExit then .leaving n else .looking)
  | .looking, .next => some (s, if s.hasIo then .consuming else .claiming)
  | .claiming, .next =>
      if s.hasIo then some (s, .consuming) else some ({ s with hasIo := true }, .dispatching)
  | .dispatching, .wake tasks =>
      if s.Reports tasks then some (s.reported tasks, .pushing tasks) else none
  | .pushing (t :: tasks), .next =>
      (taskManagerTaskPush s.queue t).map fun q => ({ s with queue := q }, .pushing tasks)
  | .pushing [], .next => some ({ s with hasIo := false }, .loop)
  | .consuming, .consume =>
      (taskManagerTaskConsume s.queue).map fun r => ({ s with queue := r.2 }, .handling r.1)
  | .handling task, .next => some (s.handled task, .loop)
  | .handling (some t), .terminal =>
      if t.isSignal then some ({ s.handled (some t) with forcedExit := true }, .loop) else none
  | .handling (some t), .again => if t.isOfClient then some (s, .repushing t) else none
  | .repushing t, .next =>
      (taskManagerTaskPush s.queue t).map fun q => ({ s with queue := q }, .loop)
  | .leaving (left + 1), .next =>
      (s.queue.enqueue none).map fun q => ({ s with queue := q }, .leaving left)
  | .leaving 0, .next => some (s, .gone)
  | _, _ => none

/-- The threads, and what they share. -/
abbrev Pool := Crew PoolState RunnerPhase

/-- `task_manager_run` has made all threads. -/
def Pool.start (n : ℕ) : Pool := ⟨⟨false, false, queueInit, .always⟩, List.replicate n .loop⟩

/-- The steps that do not wait for something from outside. -/
def RunnerStep.Own : RunnerStep → Prop
  | wake _ => False
  | _ => True

/-! ## The steps -/

section Moves
variable {n : ℕ} {s s' : PoolState} {p p' : RunnerPhase} {a : RunnerStep}

/-- What a thread can do, one line for each place in the source. -/
inductive RunnerMove (n : ℕ) (s : PoolState) :
    RunnerPhase → RunnerStep → PoolState → RunnerPhase → Prop
  | leave (h : s.forcedExit = true) : RunnerMove n s .loop .next s (.leaving n)
  | enter (h : s.forcedExit = false) : RunnerMove n s .loop .next s .looking
  | wait (hio : s.hasIo = true) : RunnerMove n s .looking .next s .consuming
  | claim (hio : s.hasIo = false) : RunnerMove n s .looking .next s .claiming
  | yield (hio : s.hasIo = true) : RunnerMove n s .claiming .next s .consuming
  | dispatch (hio : s.hasIo = false) :
      RunnerMove n s .claiming .next { s with hasIo := true } .dispatching
  | wake {tasks : List Task} (h : s.Reports tasks) :
      RunnerMove n s .dispatching (.wake tasks) (s.reported tasks) (.pushing tasks)
  | push {t : Task} {tasks : List Task} {q : TaskQueue} (h : s.queue.enqueue (some t) = some q) :
      RunnerMove n s (.pushing (t :: tasks)) .next { s with queue := q } (.pushing tasks)
  | release : RunnerMove n s (.pushing []) .next { s with hasIo := false } .loop
  | consume {task : Option Task} {q : TaskQueue} (h : s.queue.dequeue = some (task, q)) :
      RunnerMove n s .consuming .consume { s with queue := q } (.handling task)
  | handle (task : Option Task) : RunnerMove n s (.handling task) .next (s.handled task) .loop
  | terminal {t : Task} (h : t.isSignal = true) :
      RunnerMove n s (.handling (some t)) .terminal
        { s.handled (some t) with forcedExit := true } .loop
  | again {t : Task} (h : t.isOfClient = true) :
      RunnerMove n s (.handling (some t)) .again s (.repushing t)
  | repush {t : Task} {q : TaskQueue} (h : s.queue.enqueue (some t) = some q) :
      RunnerMove n s (.repushing t) .next { s with queue := q } .loop
  | empty {left : ℕ} {q : TaskQueue} (h : s.queue.enqueue none = some q) :
      RunnerMove n s (.leaving (left + 1)) .next { s with queue := q } (.leaving left)
  | raise : RunnerMove n s (.leaving 0) .next s .gone

theorem runnerMove_of_act (h : runnerAct n s p a = some (s', p')) : RunnerMove n s p a s' p' := by
  unfold runnerAct at h
  split at h
  · obtain ⟨rfl, rfl⟩ := Prod.mk.inj (Option.some.inj h)
    split_ifs with hexit
    · exact .leave hexit
    · exact .enter (Bool.eq_false_iff.mpr hexit)
  · obtain ⟨rfl, rfl⟩ := Prod.mk.inj (Option.some.inj h)
    split_ifs with hio
    · exact .wait hio
    · exact .claim (Bool.eq_false_iff.mpr hio)
  · split_ifs at h with hio
    · obtain ⟨rfl, rfl⟩ := Prod.mk.inj (Option.some.inj h)
      exact .yield hio
    · obtain ⟨rfl, rfl⟩ := Prod.mk.inj (Option.some.inj h)
      exact .dispatch (Bool.eq_false_iff.mpr hio)
  · split_ifs at h with hreports
    obtain ⟨rfl, rfl⟩ := Prod.mk.inj (Option.some.inj h)
    exact .wake hreports
  · obtain ⟨q, hq, h⟩ := Option.map_eq_some_iff.mp h
    obtain ⟨rfl, rfl⟩ := Prod.mk.inj h
    exact .push hq
  · obtain ⟨rfl, rfl⟩ := Prod.mk.inj (Option.some.inj h)
    exact .release
  · obtain ⟨⟨task, q⟩, hq, h⟩ := Option.map_eq_some_iff.mp h
    obtain ⟨rfl, rfl⟩ := Prod.mk.inj h
    exact .consume hq
  · obtain ⟨rfl, rfl⟩ := Prod.mk.inj (Option.some.inj h)
    exact .handle _
  · split_ifs at h with hsignal
    obtain ⟨rfl, rfl⟩ := Prod.mk.inj (Option.some.inj h)
    exact .terminal hsignal
  · split_ifs at h with hclient
    obtain ⟨rfl, rfl⟩ := Prod.mk.inj (Option.some.inj h)
    exact .again hclient
  · obtain ⟨q, hq, h⟩ := Option.map_eq_some_iff.mp h
    obtain ⟨rfl, rfl⟩ := Prod.mk.inj h
    exact .repush hq
  · obtain ⟨q, hq, h⟩ := Option.map_eq_some_iff.mp h
    obtain ⟨rfl, rfl⟩ := Prod.mk.inj h
    exact .empty hq
  · obtain ⟨rfl, rfl⟩ := Prod.mk.inj (Option.some.inj h)
    exact .raise
  · cases h

@[simp] theorem queue_handled (task : Option Task) : (s.handled task).queue = s.queue := by
  rw [PoolState.handled]
  split_ifs
  · rfl
  · rfl

@[simp] theorem forcedExit_handled (task : Option Task) :
    (s.handled task).forcedExit = s.forcedExit := by
  rw [PoolState.handled]
  split_ifs
  · rfl
  · rfl

@[simp] theorem hasIo_handled (task : Option Task) : (s.handled task).hasIo = s.hasIo := by
  rw [PoolState.handled]
  split_ifs
  · rfl
  · rfl

@[simp] theorem queue_reported (tasks : List Task) : (s.reported tasks).queue = s.queue := by
  rw [PoolState.reported]
  split_ifs
  · rfl
  · rfl

@[simp] theorem forcedExit_reported (tasks : List Task) :
    (s.reported tasks).forcedExit = s.forcedExit := by
  rw [PoolState.reported]
  split_ifs
  · rfl
  · rfl

@[simp] theorem hasIo_reported (tasks : List Task) : (s.reported tasks).hasIo = s.hasIo := by
  rw [PoolState.reported]
  split_ifs
  · rfl
  · rfl

end Moves

/-! ## What is queued

A thread that is not about to leave will queue an empty task for each of the threads. -/

section Books
variable {n : ℕ} {s s' : PoolState} {p p' : RunnerPhase} {a : RunnerStep} {c c' : Pool}
  {xs : List (ℕ × RunnerStep)}

/-- How many tasks a thread is to queue. -/
def RunnerPhase.toCome (n : ℕ) : RunnerPhase → ℕ
  | pushing tasks => n + tasks.length
  | repushing _ => n + 1
  | leaving left => left
  | gone => 0
  | _ => n

/-- How many more a step makes it queue. -/
def RunnerStep.added : RunnerStep → ℕ
  | wake tasks => tasks.length
  | again => 1
  | _ => 0

def RunnerStep.taken : RunnerStep → ℕ
  | consume => 1
  | _ => 0

/-- What is queued and what is to be queued. -/
def Pool.supply (n : ℕ) : Pool → ℕ := amount (fun s => s.queue.size) (RunnerPhase.toCome n)

theorem toCome_move (h : RunnerMove n s p a s' p') :
    s'.queue.size + p'.toCome n + a.taken = s.queue.size + p.toCome n + a.added := by
  cases h with
  | push hq | repush hq | empty hq =>
      simp only [(Buffer.enqueue_sizes hq).1, RunnerPhase.toCome, RunnerStep.taken,
        RunnerStep.added, List.length_cons]
      omega
  | consume hq =>
      have := (Buffer.dequeue_sizes hq).1
      simp only [RunnerPhase.toCome, RunnerStep.taken, RunnerStep.added]
      omega
  | wake =>
      simp only [RunnerPhase.toCome, RunnerStep.taken, RunnerStep.added, queue_reported]
      omega
  | _ =>
      simp [RunnerPhase.toCome, RunnerStep.taken, RunnerStep.added, Nat.add_assoc]

/-- **The books of the queue.** -/
theorem supply_run (h : run (runnerAct n) c xs = some c') :
    c'.supply n + (xs.map fun x => x.2.taken).sum = c.supply n + (xs.map fun x => x.2.added).sum :=
  amount_run (I := fun _ => True) (fun _ _ _ _ _ => trivial) trivial
    (fun _ _ _ _ _ _ _ hact => toCome_move (runnerMove_of_act hact)) h

end Books

/-! ## What every run keeps -/

section Kept
variable {n : ℕ} {s s' : PoolState} {p p' : RunnerPhase} {a : RunnerStep} {c c' : Pool}
  {x : ℕ × RunnerStep} {xs : List (ℕ × RunnerStep)} {before after : List RunnerPhase}

/-- In `server_dispatch` -/
def RunnerPhase.dispatches : RunnerPhase → ℕ
  | dispatching | pushing _ => 1
  | _ => 0

/-- A thread that may take a task although the end has come. -/
def RunnerPhase.takes : RunnerPhase → ℕ
  | looking | claiming | consuming => 1
  | _ => 0

/-- About to leave when the end has come, or gone. -/
def RunnerPhase.IsOut : RunnerPhase → Prop
  | loop | leaving _ | gone => True
  | _ => False

/-- Not beyond the loop. -/
def RunnerPhase.IsIn : RunnerPhase → Prop
  | leaving _ | gone => False
  | _ => True

/-- Whether nobody dispatches, and who does. -/
def Pool.dispatchers : Pool → ℕ := amount (fun s => (!s.hasIo).toNat) RunnerPhase.dispatches

/-- What will be queued at the least, once the end has come. -/
def Pool.balance (n : ℕ) : Pool → ℤ :=
  amount (fun s => (s.queue.size : ℤ)) fun p => (p.toCome n : ℤ) - p.takes

/-- What holds in every state that `n` threads come to. -/
structure Pool.Kept (n : ℕ) (c : Pool) : Prop where
  length : c.workers.length = n
  capacity : c.shared.queue.capacity = 4096
  dispatchers : c.dispatchers = 1
  awake : ∃ p ∈ c.workers, p ≠ .consuming
  stays : c.shared.forcedExit = false → ∀ p ∈ c.workers, p.IsIn
  leaves : c.shared.forcedExit = true → ∃ p ∈ c.workers, p.IsOut
  balance : c.shared.forcedExit = true → (n * n + 1 : ℤ) ≤ c.balance n + n

theorem dispatches_move (h : RunnerMove n s p a s' p')
    (hone : (!s.hasIo).toNat + p.dispatches ≤ 1) :
    (!s'.hasIo).toNat + p'.dispatches = (!s.hasIo).toNat + p.dispatches := by
  cases h with
  | dispatch hio => simp [RunnerPhase.dispatches, hio]
  | release =>
      cases hio : s.hasIo with
      | true => rfl
      | false => simp [RunnerPhase.dispatches, hio] at hone
  | _ => simp [RunnerPhase.dispatches]

theorem capacity_move (h : RunnerMove n s p a s' p') : s'.queue.capacity = s.queue.capacity := by
  cases h with
  | push hq | repush hq | empty hq => exact (Buffer.enqueue_sizes hq).2
  | consume hq => exact (Buffer.dequeue_sizes hq).2
  | handle | terminal => rw [queue_handled]
  | wake => rw [queue_reported]
  | _ => rfl

/-- The end does not go away. -/
theorem forcedExit_move (h : RunnerMove n s p a s' p') (hexit : s.forcedExit = true) :
    s'.forcedExit = true := by
  cases h with
  | handle => rwa [forcedExit_handled]
  | wake => rwa [forcedExit_reported]
  | terminal => rfl
  | _ => exact hexit

theorem isOut_move (h : RunnerMove n s p a s' p') (hexit : s.forcedExit = true) (hp : p.IsOut) :
    p'.IsOut := by
  cases h with
  | leave | empty | raise => trivial
  | enter h => cases hexit.symm.trans h
  | _ => exact hp.elim

/-- Once the end has come the balance does not get smaller. -/
theorem balance_move (h : RunnerMove n s p a s' p') (hexit : s.forcedExit = true) :
    (s.queue.size : ℤ) + (p.toCome n - p.takes) ≤ s'.queue.size + (p'.toCome n - p'.takes) := by
  have hbooks := toCome_move h
  cases h with
  | enter h => cases hexit.symm.trans h
  | _ =>
      simp only [RunnerPhase.takes, RunnerStep.taken, RunnerStep.added] at hbooks ⊢
      omega

theorem kept_start (hn : 0 < n) : (Pool.start n).Kept n where
  length := List.length_replicate
  capacity := rfl
  dispatchers := by
    rw [Pool.dispatchers, amount, Pool.start, List.map_replicate]
    simp [RunnerPhase.dispatches]
  awake := ⟨.loop, List.mem_replicate.mpr ⟨Nat.ne_of_gt hn, rfl⟩, by decide⟩
  stays := fun _ p hp => by rw [List.eq_of_mem_replicate hp]; trivial
  leaves := fun h => by cases h
  balance := fun h => by cases h

/-- Threads that have not left are to queue an empty task for each thread, and may take one. -/
theorem le_balance_of_isIn {l : List RunnerPhase} (h : ∀ p ∈ l, p.IsIn) :
    (l.length : ℤ) * (n - 1) ≤ (l.map fun p => (p.toCome n : ℤ) - p.takes).sum := by
  have hle : ∀ z ∈ l.map fun p => (p.toCome n : ℤ) - p.takes, (n - 1 : ℤ) ≤ z := by
    intro z hz
    obtain ⟨p, hp, rfl⟩ := List.mem_map.mp hz
    have hin := h p hp
    cases p with
    | leaving left => exact hin.elim
    | gone => exact hin.elim
    | _ =>
        simp only [RunnerPhase.toCome, RunnerPhase.takes]
        omega
  have hsum := List.card_nsmul_le_sum _ _ hle
  rwa [List.length_map, nsmul_eq_mul] at hsum

section Fields
variable (K : Pool.Kept n ⟨s, before ++ p :: after⟩) (h : RunnerMove n s p a s' p')
include K h

theorem dispatchers_kept : Pool.dispatchers ⟨s', before ++ p' :: after⟩ = 1 := by
  have hone := K.dispatchers
  rw [Pool.dispatchers, amount_mk] at hone ⊢
  rw [dispatches_move h (by omega), hone]

/-- A thread only waits for a task when another one dispatches. -/
theorem awake_kept : ∃ q ∈ before ++ p' :: after, q ≠ .consuming := by
  have hone := K.dispatchers
  rw [Pool.dispatchers, amount_mk] at hone
  have hother : s.hasIo = true → p.dispatches = 0 → ∃ q ∈ before ++ after, q ≠ .consuming := by
    intro hio hp
    have hsum : ((before ++ after).map RunnerPhase.dispatches).sum ≠ 0 := by
      rw [List.map_append, List.sum_append]
      simp only [hio, hp, Bool.not_true, Bool.toNat_false] at hone
      omega
    obtain ⟨z, hz, hne⟩ := List.exists_mem_ne_zero_of_sum_ne_zero hsum
    obtain ⟨q, hq, rfl⟩ := List.mem_map.mp hz
    refine ⟨q, hq, fun hq' => hne ?_⟩
    rw [hq']
    rfl
  have hcons : ∀ q ∈ before ++ after, q ∈ before ++ p' :: after := by
    intro q hq
    rcases List.mem_append.mp hq with hq | hq
    · exact List.mem_append_left _ hq
    · exact List.mem_append_right _ (List.mem_cons_of_mem p' hq)
  cases h with
  | wait hio | yield hio =>
      obtain ⟨q, hq, hne⟩ := hother hio rfl
      exact ⟨q, hcons q hq, hne⟩
  | _ => exact exists_set K.awake fun _ => by simp

theorem stays_kept (hexit : s'.forcedExit = false) : ∀ q ∈ before ++ p' :: after, q.IsIn := by
  have hbefore : s.forcedExit = false := by
    cases hs : s.forcedExit with
    | false => rfl
    | true => exact absurd (forcedExit_move h hs) (by rw [hexit]; exact Bool.false_ne_true)
  have hin := K.stays hbefore
  have hp := hin p (List.mem_append_right _ List.mem_cons_self)
  cases h with
  | leave hs => cases hbefore.symm.trans hs
  | empty | raise => exact hp.elim
  | _ => exact forall_set hin trivial

theorem leaves_kept (hexit : s'.forcedExit = true) : ∃ q ∈ before ++ p' :: after, q.IsOut := by
  cases hs : s.forcedExit with
  | true => exact exists_set (K.leaves hs) (isOut_move h hs)
  | false =>
      cases h with
      | terminal => exact ⟨_, List.mem_append_right _ List.mem_cons_self, trivial⟩
      | handle => cases hs.symm.trans ((forcedExit_handled _).symm.trans hexit)
      | wake => cases hs.symm.trans ((forcedExit_reported _).symm.trans hexit)
      | _ => cases hs.symm.trans hexit

/-- When the end comes, the thread that brings it will not take a task any more. -/
theorem balance_kept (hexit : s'.forcedExit = true) :
    (n * n + 1 : ℤ) ≤ Pool.balance n ⟨s', before ++ p' :: after⟩ + n := by
  cases hs : s.forcedExit with
  | true =>
      have hle := balance_move h hs
      have hbalance := K.balance hs
      rw [Pool.balance, amount_mk] at hbalance ⊢
      omega
  | false =>
      cases h with
      | terminal =>
          have hin := K.stays hs
          have hbefore := le_balance_of_isIn (n := n) (l := before) fun q hq =>
            hin q (List.mem_append_left _ hq)
          have hafter := le_balance_of_isIn (n := n) (l := after) fun q hq =>
            hin q (List.mem_append_right _ (List.mem_cons_of_mem _ hq))
          have hlength : (before.length : ℤ) = n - 1 - after.length := by
            have := K.length
            rw [List.length_append, List.length_cons] at this
            omega
          have hothers : ((n - 1 - after.length : ℤ)) * (n - 1) + after.length * (n - 1) =
              n * n - 2 * n + 1 := by
            ring
          have hsize := Int.natCast_nonneg (s.queue.size)
          rw [hlength] at hbefore
          have hloop : (RunnerPhase.toCome n .loop : ℤ) - RunnerPhase.takes .loop = n := by
            simp [RunnerPhase.toCome, RunnerPhase.takes]
          rw [Pool.balance, amount_mk, hloop]
          dsimp only
          rw [queue_handled]
          linarith
      | handle => cases hs.symm.trans ((forcedExit_handled _).symm.trans hexit)
      | wake => cases hs.symm.trans ((forcedExit_reported _).symm.trans hexit)
      | _ => cases hs.symm.trans hexit

end Fields

/-- **One step keeps it.** -/
theorem Pool.Kept.step (K : c.Kept n) (h : step (runnerAct n) c x = some c') : c'.Kept n := by
  obtain ⟨s, workers⟩ := c
  obtain ⟨before, p, after, s', p', hworkers, -, hact, rfl⟩ := step_eq_some_iff.mp h
  dsimp only at hworkers hact
  subst hworkers
  have hmove := runnerMove_of_act hact
  exact {
    length := by
      have := K.length
      simpa using this
    capacity := (capacity_move hmove).trans K.capacity
    dispatchers := dispatchers_kept K hmove
    awake := awake_kept K hmove
    stays := stays_kept K hmove
    leaves := leaves_kept K hmove
    balance := balance_kept K hmove }

theorem kept_run (hn : 0 < n) (h : run (runnerAct n) (Pool.start n) xs = some c) : c.Kept n :=
  invariant_run (fun _ _ _ K hstep => K.step hstep) (kept_start hn) h

end Kept

/-! ## At rest -/

section Rest
variable {n : ℕ} {s : PoolState} {p : RunnerPhase} {c c' : Pool} {xs ys : List (ℕ × RunnerStep)}

/-- A thread that has something to queue. -/
def RunnerPhase.IsBlocked : RunnerPhase → Prop
  | pushing (_ :: _) | repushing _ | leaving (_ + 1) => True
  | _ => False

/-- Nobody goes on without something from outside. -/
def Pool.AtRest (n : ℕ) (c : Pool) : Prop := Stuck (runnerAct n) RunnerStep.Own c

/-- What a thread at rest waits for. -/
theorem rest_cases (h : ∀ a : RunnerStep, a.Own → runnerAct n s p a = none) :
    p = .gone ∨ p = .dispatching ∨ (p = .consuming ∧ s.queue.size = 0) ∨
      (p.IsBlocked ∧ s.queue.size = s.queue.capacity) := by
  have hnext := h .next trivial
  cases p with
  | gone => exact .inl rfl
  | dispatching => exact .inr (.inl rfl)
  | consuming =>
      have hconsume := h .consume trivial
      exact .inr (.inr (.inl ⟨rfl,
        Buffer.dequeue_eq_none_iff.mp (Option.map_eq_none_iff.mp hconsume)⟩))
  | pushing tasks =>
      cases tasks with
      | nil => cases hnext
      | cons t tasks =>
          exact .inr (.inr (.inr ⟨trivial,
            Buffer.enqueue_eq_none_iff.mp (Option.map_eq_none_iff.mp hnext)⟩))
  | repushing t =>
      exact .inr (.inr (.inr ⟨trivial,
        Buffer.enqueue_eq_none_iff.mp (Option.map_eq_none_iff.mp hnext)⟩))
  | leaving left =>
      cases left with
      | zero => cases hnext
      | succ left =>
          exact .inr (.inr (.inr ⟨trivial,
            Buffer.enqueue_eq_none_iff.mp (Option.map_eq_none_iff.mp hnext)⟩))
  | claiming =>
      rw [runnerAct] at hnext
      split_ifs at hnext
  | _ => cases hnext

theorem rest_of_isBlocked (hp : p.IsBlocked) (hfull : s.queue.size = s.queue.capacity)
    (a : RunnerStep) : runnerAct n s p a = none := by
  have hnone : ∀ t, s.queue.enqueue t = none := fun t => Buffer.enqueue_eq_none_iff.mpr hfull
  cases p with
  | pushing tasks =>
      cases tasks with
      | nil => exact hp.elim
      | cons t tasks =>
          cases a with
          | next => exact Option.map_eq_none_iff.mpr (hnone _)
          | _ => rfl
  | repushing t =>
      cases a with
      | next => exact Option.map_eq_none_iff.mpr (hnone _)
      | _ => rfl
  | leaving left =>
      cases left with
      | zero => exact hp.elim
      | succ left =>
          cases a with
          | next => exact Option.map_eq_none_iff.mpr (hnone _)
          | _ => rfl
  | _ => exact hp.elim

theorem rest_of_dispatching {a : RunnerStep} (ha : a.Own) :
    runnerAct n s .dispatching a = none := by
  cases a with
  | wake => exact ha.elim
  | _ => rfl

theorem rest_of_consuming (hempty : s.queue.size = 0) (a : RunnerStep) :
    runnerAct n s .consuming a = none := by
  cases a with
  | consume => exact Option.map_eq_none_iff.mpr (Buffer.dequeue_eq_none_iff.mpr hempty)
  | _ => rfl

/-- Nobody dispatches beside a thread that does. -/
theorem Pool.Kept.ne_dispatching (K : c.Kept n) {before after : List RunnerPhase}
    (hworkers : c.workers = before ++ .dispatching :: after) :
    ∀ q ∈ before ++ after, q ≠ .dispatching := by
  rintro q hq rfl
  obtain ⟨s, workers⟩ := c
  dsimp only at hworkers
  subst hworkers
  have hone := K.dispatchers
  rw [Pool.dispatchers, amount_mk] at hone
  have hle := List.single_le_sum (l := (before ++ after).map RunnerPhase.dispatches)
    (fun _ _ => Nat.zero_le _) _ (List.mem_map_of_mem hq)
  rw [List.map_append, List.sum_append] at hle
  simp only [RunnerPhase.dispatches] at hone hle
  omega

/-- One thread waits for events, and the others for tasks. -/
def Pool.Waiting (c : Pool) : Prop :=
  c.shared.queue.size = 0 ∧ ∃ before after, c.workers = before ++ .dispatching :: after ∧
    ∀ p ∈ before ++ after, p = .consuming

/-- No thread takes tasks, and the queue has no room for those that they have. -/
def Pool.Jammed (c : Pool) : Prop :=
  c.shared.queue.size = 4096 ∧ ∀ p ∈ c.workers, p = .dispatching ∨ p.IsBlocked

/-- **No wake-up is lost.** Before the end the threads are at rest when one waits for events and all
others for tasks, or else when the queue is full and nobody is there to take from it. -/
theorem atRest_iff (hn : 1 < n) (h : run (runnerAct n) (Pool.start n) xs = some c)
    (hexit : c.shared.forcedExit = false) : c.AtRest n ↔ c.Waiting ∨ c.Jammed := by
  have K := kept_run (Nat.lt_of_succ_lt hn) h
  have hin := K.stays hexit
  have hcapacity := K.capacity
  rw [Pool.AtRest, stuck_iff]
  constructor
  · intro hrest
    by_cases hfull : c.shared.queue.size = 4096
    · refine .inr ⟨hfull, fun p hp => ?_⟩
      rcases rest_cases (hrest p hp) with rfl | rfl | ⟨rfl, hempty⟩ | ⟨hblocked, -⟩
      · exact (hin _ hp).elim
      · exact .inl rfl
      · omega
      · exact .inr hblocked
    · have hphases : ∀ p ∈ c.workers, p = .dispatching ∨
          (p = .consuming ∧ c.shared.queue.size = 0) := by
        intro p hp
        rcases rest_cases (hrest p hp) with rfl | rfl | hconsuming | ⟨-, hfull'⟩
        · exact (hin _ hp).elim
        · exact .inl rfl
        · exact .inr hconsuming
        · omega
      obtain ⟨p, hp, hne⟩ := K.awake
      obtain rfl : p = .dispatching := (hphases p hp).resolve_right fun h => hne h.1
      obtain ⟨before, after, hworkers⟩ := List.append_of_mem hp
      obtain ⟨q, hq⟩ : ∃ q, q ∈ before ++ after := by
        refine List.exists_mem_of_length_pos ?_
        have := K.length
        rw [hworkers, List.length_append, List.length_cons] at this
        rw [List.length_append]
        omega
      have hconsuming : ∀ q ∈ before ++ after, q = .consuming ∧ c.shared.queue.size = 0 := by
        intro q hq
        have hworker : q ∈ c.workers := by
          rw [hworkers]
          exact (List.Sublist.append_left (List.sublist_cons_self _ _) _).subset hq
        exact (hphases q hworker).resolve_left (K.ne_dispatching hworkers q hq)
      exact .inl ⟨(hconsuming q hq).2, before, after, hworkers, fun q hq => (hconsuming q hq).1⟩
  · rintro (⟨hempty, before, after, hworkers, hconsuming⟩ | ⟨hfull, hphases⟩) p hp a ha
    · rw [hworkers] at hp
      rcases List.mem_append.mp hp with hp | hp
      · rw [hconsuming p (List.mem_append_left _ hp)]
        exact rest_of_consuming hempty a
      · rcases List.mem_cons.mp hp with rfl | hp
        · exact rest_of_dispatching ha
        · rw [hconsuming p (List.mem_append_right _ hp)]
          exact rest_of_consuming hempty a
    · rcases hphases p hp with rfl | hblocked
      · exact rest_of_dispatching ha
      · exact rest_of_isBlocked hblocked (hfull.trans hcapacity.symm) a

/-- Two threads up to where they wait. -/
def upToWaiting : List (ℕ × RunnerStep) :=
  [(0, .next), (0, .next), (0, .next), (1, .next), (1, .next)]

theorem atRest_iff_upToWaiting : ∃ c : Pool,
    run (runnerAct 2) (Pool.start 2) upToWaiting = some c ∧
      (Pool.AtRest 2 c ↔ Pool.Waiting c ∨ Pool.Jammed c) := by
  have h : run (runnerAct 2) (Pool.start 2) upToWaiting = some _ := rfl
  exact ⟨_, h, atRest_iff (by decide) h rfl⟩

end Rest

/-! ## The end -/

section Exit
variable {n : ℕ} {c c' : Pool} {xs ys : List (ℕ × RunnerStep)}

/-- What a crew owes when one of its threads is gone. -/
theorem balance_le_of_gone {l : List RunnerPhase} (hgone : .gone ∈ l)
    (h : ∀ p ∈ l, (p.toCome n : ℤ) - p.takes ≤ n) :
    (l.map fun p => (p.toCome n : ℤ) - p.takes).sum + n ≤ l.length * n := by
  obtain ⟨before, after, rfl⟩ := List.append_of_mem hgone
  have hle : ∀ z ∈ (before ++ after).map fun p => (p.toCome n : ℤ) - p.takes, z ≤ (n : ℤ) := by
    intro z hz
    obtain ⟨p, hp, rfl⟩ := List.mem_map.mp hz
    exact h p ((List.Sublist.append_left (List.sublist_cons_self _ _) _).subset hp)
  have hsum := List.sum_le_card_nsmul _ _ hle
  rw [List.length_map, nsmul_eq_mul, List.map_append, List.sum_append, List.length_append,
    Nat.cast_add, add_mul] at hsum
  rw [List.map_append, List.map_cons, List.sum_append, List.sum_cons, List.length_append,
    List.length_cons]
  simp only [Nat.cast_add, Nat.cast_one, add_mul, one_mul] at hsum ⊢
  have hself : (RunnerPhase.toCome n .gone : ℤ) - RunnerPhase.takes .gone = 0 := rfl
  rw [hself]
  linarith

/-- **Too many threads.** Each thread queues an empty task for all, and takes at most one itself.
From 65 threads on the queue has no room for them, and the process does not end. -/
theorem exists_ne_gone (hn : 4096 + n ≤ n * n)
    (h : run (runnerAct n) (Pool.start n) xs = some c) : ∃ p ∈ c.workers, p ≠ .gone := by
  by_contra hall
  have hgone : ∀ p ∈ c.workers, p = .gone := fun p hp => by
    by_contra hne
    exact hall ⟨p, hp, hne⟩
  have hpos : 0 < n := Nat.pos_of_ne_zero fun hzero => by simp [hzero] at hn
  have K := kept_run hpos h
  obtain ⟨p, hp, -⟩ := K.awake
  have hexit : c.shared.forcedExit = true := by
    cases hs : c.shared.forcedExit with
    | true => rfl
    | false =>
        have hin := K.stays hs p hp
        rw [hgone p hp] at hin
        exact hin.elim
  have hbalance := K.balance hexit
  have hzero : (c.workers.map fun p => (p.toCome n : ℤ) - p.takes).sum = 0 := by
    refine List.sum_eq_zero fun z hz => ?_
    obtain ⟨q, hq, rfl⟩ := List.mem_map.mp hz
    rw [hgone q hq]
    rfl
  rw [Pool.balance, amount, hzero, add_zero] at hbalance
  have hsize := c.shared.queue.size_le
  rw [K.capacity] at hsize
  have hsize' : (c.shared.queue.size : ℤ) ≤ 4096 := by exact_mod_cast hsize
  have hn' : (4096 + n : ℤ) ≤ n * n := by exact_mod_cast hn
  linarith

/-- Two threads up to the signal. -/
def upToSignal : List (ℕ × RunnerStep) :=
  [(0, .next), (0, .next), (0, .next), (1, .next), (1, .next), (0, .wake [⟨7, 3, none⟩]),
    (0, .next), (0, .next), (1, .consume), (1, .terminal)]

theorem exists_ne_gone_upToSignal : ∃ c : Pool,
    run (runnerAct 65) (Pool.start 65) upToSignal = some c ∧ ∃ p ∈ c.workers, p ≠ .gone := by
  have h : run (runnerAct 65) (Pool.start 65) upToSignal = some _ := rfl
  exact ⟨_, h, exists_ne_gone (by decide) h⟩

/-- How many steps a thread has before it when the end has come, at most. -/
def RunnerPhase.remaining (n : ℕ) : RunnerPhase → ℕ
  | gone => 0
  | leaving left => left + 1
  | loop => n + 2
  | repushing _ => n + 3
  | handling _ => n + 4
  | consuming => n + 5
  | pushing tasks => n + 3 + tasks.length
  | dispatching => n + 1028
  | claiming => n + 1029
  | looking => n + 1030

theorem remaining_move {s s' : PoolState} {p p' : RunnerPhase} {a : RunnerStep}
    (h : RunnerMove n s p a s' p') (hexit : s.forcedExit = true) (ha : a.Own) :
    0 + p'.remaining n < 0 + p.remaining n := by
  cases h with
  | wake => exact ha.elim
  | enter h => cases hexit.symm.trans h
  | _ =>
      simp only [RunnerPhase.remaining, List.length_cons, List.length_nil]
      omega

/-- After the end has come the steps of the threads themselves lead to rest. -/
theorem exists_rest (h : c.shared.forcedExit = true) : ∃ (ys : List (ℕ × RunnerStep)) (c' : Pool),
    (∀ y ∈ ys, y.2.Own) ∧ run (runnerAct n) c ys = some c' ∧ c'.AtRest n := by
  refine exists_stuck (f := fun _ => 0) (g := RunnerPhase.remaining n)
    (I := fun c : Pool => c.shared.forcedExit = true) ?_ ?_ h
  · intro c₁ x c₂ hexit hstep
    obtain ⟨before, p, after, s', p', -, -, hact, rfl⟩ := step_eq_some_iff.mp hstep
    exact forcedExit_move (runnerMove_of_act hact) hexit
  · intro c₁ p a s' p' hexit ha _ hact
    exact remaining_move (runnerMove_of_act hact) hexit ha

/-- Threads at rest with nothing to take, some of them gone, do not wait for tasks. -/
theorem Pool.Kept.ne_consuming (K : c.Kept n) (hexit : c.shared.forcedExit = true)
    (hrest : c.AtRest n) : .consuming ∉ c.workers := by
  intro hconsuming
  have hphases := fun p hp => rest_cases (stuck_iff.mp hrest p hp)
  have hempty : c.shared.queue.size = 0 := by
    rcases hphases _ hconsuming with h | h | ⟨-, h⟩ | ⟨h, -⟩
    · cases h
    · cases h
    · exact h
    · exact h.elim
  have hcapacity := K.capacity
  obtain ⟨p, hp, hout⟩ := K.leaves hexit
  have hgone : p = .gone := by
    rcases hphases p hp with rfl | rfl | ⟨rfl, -⟩ | ⟨-, hfull⟩
    · rfl
    · exact hout.elim
    · exact hout.elim
    · omega
  subst hgone
  have hle : ∀ q ∈ c.workers, (q.toCome n : ℤ) - q.takes ≤ n := by
    intro q hq
    rcases hphases q hq with rfl | rfl | ⟨rfl, -⟩ | ⟨-, hfull⟩
    · exact Int.natCast_nonneg n
    · simp [RunnerPhase.toCome, RunnerPhase.takes]
    · simp [RunnerPhase.toCome, RunnerPhase.takes]
    · omega
  have hsum := balance_le_of_gone hp hle
  have hbalance := K.balance hexit
  rw [Pool.balance, amount, hempty] at hbalance
  rw [K.length] at hsum
  simp only [Nat.cast_zero, zero_add] at hbalance
  linarith

/-- How many tasks a run queues that are not there to end it, and how many it takes. -/
def addedBy (xs : List (ℕ × RunnerStep)) : ℕ := (xs.map fun x => x.2.added).sum

def takenBy (xs : List (ℕ × RunnerStep)) : ℕ := (xs.map fun x => x.2.taken).sum

theorem supply_start (n : ℕ) : (Pool.start n).supply n = n * n := by
  rw [Pool.supply, amount, Pool.start, List.map_replicate, List.sum_replicate]
  exact (Nat.zero_add _).trans rfl

theorem forcedExit_run (hexit : c.shared.forcedExit = true)
    (h : run (runnerAct n) c ys = some c') : c'.shared.forcedExit = true := by
  refine invariant_run (I := fun c : Pool => c.shared.forcedExit = true) ?_ hexit h
  intro c₁ x c₂ hexit hstep
  obtain ⟨before, p, after, s', p', -, -, hact, rfl⟩ := step_eq_some_iff.mp hstep
  exact forcedExit_move (runnerMove_of_act hact) hexit

/-- At rest after the end, a thread that is not gone has no room to queue or is in `epoll_wait`. -/
theorem Pool.Kept.gone_or (K : c.Kept n) (hn : 0 < n) (hexit : c.shared.forcedExit = true)
    (hrest : c.AtRest n) {p : RunnerPhase} (hp : p ∈ c.workers) :
    p = .gone ∨ p = .dispatching ∨ 4096 < c.supply n := by
  have hcapacity := K.capacity
  rcases rest_cases (stuck_iff.mp hrest p hp) with rfl | rfl | ⟨rfl, -⟩ | ⟨hblocked, hfull⟩
  · exact .inl rfl
  · exact .inr (.inl rfl)
  · exact absurd hp (K.ne_consuming hexit hrest)
  · have hone : 1 ≤ p.toCome n := by
      cases p with
      | pushing tasks => exact Nat.le_add_right_of_le hn
      | repushing t => exact Nat.le_add_left 1 n
      | leaving left =>
          cases left with
          | zero => exact hblocked.elim
          | succ left => exact Nat.le_add_left 1 left
      | _ => exact hblocked.elim
    have hle := List.single_le_sum (l := c.workers.map (RunnerPhase.toCome n))
      (fun _ _ => Nat.zero_le _) _ (List.mem_map_of_mem hp)
    rw [Pool.supply, amount]
    omega

theorem Pool.Kept.supply_of_gone (K : c.Kept n) (hgone : ∀ p ∈ c.workers, p = .gone) :
    c.supply n ≤ 4096 := by
  have hzero : (c.workers.map (RunnerPhase.toCome n)).sum = 0 := by
    refine List.sum_eq_zero fun z hz => ?_
    obtain ⟨q, hq, rfl⟩ := List.mem_map.mp hz
    rw [hgone q hq]
    rfl
  have hsize := c.shared.queue.size_le
  rw [K.capacity] at hsize
  rwa [Pool.supply, amount, hzero]

/-- **The end.** The threads come to rest, and there they are all gone if the queue has had room for
all tasks and no thread was left behind in `epoll_wait`. -/
theorem forall_gone_iff (hn : 0 < n) (h : run (runnerAct n) (Pool.start n) xs = some c)
    (hexit : c.shared.forcedExit = true) :
    (∃ ys c', (∀ y ∈ ys, y.2.Own) ∧ run (runnerAct n) c ys = some c' ∧ Pool.AtRest n c') ∧
    ∀ ys c', run (runnerAct n) c ys = some c' → Pool.AtRest n c' →
      ((∀ p ∈ c'.workers, p = .gone) ↔
        n * n + addedBy (xs ++ ys) ≤ 4096 + takenBy (xs ++ ys) ∧ .dispatching ∉ c'.workers) := by
  refine ⟨exists_rest hexit, fun ys c' hys hrest => ?_⟩
  have hrun : run (runnerAct n) (Pool.start n) (xs ++ ys) = some c' := by
    rw [run_append, h]
    exact hys
  have K := kept_run hn hrun
  have hbooks := supply_run hrun
  rw [supply_start, ← takenBy, ← addedBy] at hbooks
  constructor
  · intro hgone
    have hsupply := K.supply_of_gone hgone
    refine ⟨by omega, fun hmem => ?_⟩
    cases hgone _ hmem
  · rintro ⟨hroom, hasleep⟩ p hp
    rcases K.gone_or hn (forcedExit_run hexit hys) hrest hp with rfl | rfl | hsupply
    · rfl
    · exact absurd hp hasleep
    · omega

theorem atRest_of_gone (hgone : ∀ p ∈ c.workers, p = .gone) : c.AtRest n := by
  refine stuck_iff.mpr fun p hp a _ => ?_
  rw [hgone p hp]
  cases a with
  | _ => rfl

/-- From there on to the end -/
def upToEnd : List (ℕ × RunnerStep) :=
  [(1, .next), (0, .next), (0, .next), (1, .next), (1, .next), (1, .next), (0, .next), (0, .next)]

theorem forall_gone_iff_upToSignal : ∃ c : Pool,
    run (runnerAct 2) (Pool.start 2) upToSignal = some c ∧
      (∃ ys c', (∀ y ∈ ys, y.2.Own) ∧ run (runnerAct 2) c ys = some c' ∧ Pool.AtRest 2 c') ∧
      ∃ c', run (runnerAct 2) c upToEnd = some c' ∧ ((∀ p ∈ c'.workers, p = .gone) ↔
        2 * 2 + addedBy (upToSignal ++ upToEnd) ≤ 4096 + takenBy (upToSignal ++ upToEnd) ∧
          .dispatching ∉ c'.workers) := by
  have h : run (runnerAct 2) (Pool.start 2) upToSignal = some _ := rfl
  obtain ⟨hrest, hgone⟩ := forall_gone_iff (by decide) h rfl
  exact ⟨_, h, hrest, _, rfl, hgone upToEnd _ rfl (atRest_of_gone (by decide))⟩

end Exit

end RenaProxy
