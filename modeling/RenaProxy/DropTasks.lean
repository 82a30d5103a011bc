import RenaProxy.TaskQueue
import RenaProxy.Lib.Runs

/-!
# Dropping the tasks of a descriptor

`task_manager_task_drop_fd` goes from the place where tasks come out to the place where they go in.
In a full queue these are the same place, as in an empty one, and it goes nowhere:
`dropsAlong_iff` says after which runs of the queue no task of the descriptor is left.
-/
namespace RenaProxy
open BoundedQueue Runs

/-- What is done with the queue, one thing at a time. `task_manager_forced_exit` queues null
pointers. -/
inductive QueueStep
  | enqueue (ptr : Option Task)
  | dequeue
  | drop (fd : ℕ)

/-- One of them, unless it has to wait for room or for a task. -/
def queueStep (q : TaskQueue) : QueueStep → Option TaskQueue
  | .enqueue ptr => q.enqueue ptr
  | .dequeue => (taskManagerTaskConsume q).map Prod.snd
  | .drop fd => some (taskManagerTaskDropFd q fd)

/-- After dropping no task of the descriptor is queued, and nothing else has changed. -/
def DropsAll (q : TaskQueue) : QueueStep → Prop
  | .drop fd =>
      let q' := taskManagerTaskDropFd q fd
      (∀ t, some t ∈ q'.toList → t.fd ≠ fd) ∧
        List.Forall₂ (fun ptr ptr' => ptr.map (·.fd) ≠ some (fd : ℤ) → ptr' = ptr) q.toList q'.toList ∧
        q'.size = q.size ∧ q'.first = q.first ∧ q'.last = q.last
  | _ => True

/-- The queue is not full, or it has no task of the descriptor. -/
def RoomOrNone (q : TaskQueue) : QueueStep → Prop
  | .drop fd => q.size ≠ q.capacity ∨ ∀ t, some t ∈ q.toList → t.fd ≠ fd
  | _ => True

section Drop
variable {q : TaskQueue} {fd : ℕ}

theorem dropTask_of_ne {ptr : Option Task} (h : ptr.map (·.fd) ≠ some (fd : ℤ)) :
    dropTask fd ptr = ptr := by
  cases ptr with
  | none => rfl
  | some t =>
      have ht : t.fd ≠ fd := by simpa using h
      simp [dropTask, ht]

theorem fd_ne_of_dropTask {ptr : Option Task} {t : Task} (h : dropTask fd ptr = some t) : t.fd ≠ fd := by
  obtain ⟨t', rfl, rfl⟩ := Option.map_eq_some_iff.mp h
  split_ifs with ht
  · change (-1 : ℤ) ≠ fd
    omega
  · exact ht

/-- One drop. -/
theorem dropsAll_iff (s : QueueStep) : DropsAll q s ↔ RoomOrNone q s := by
  cases s with
  | enqueue ptr => rfl
  | dequeue => rfl
  | drop fd =>
      have hlist : (taskManagerTaskDropFd q fd).toList =
          if q.size = q.capacity then q.toList else q.toList.map (dropTask fd) := Buffer.toList_sweep _
      rw [DropsAll, RoomOrNone, hlist]
      by_cases hfull : q.size = q.capacity
      · simp only [hfull, if_true, ne_eq, not_true_eq_false, false_or]
        constructor
        · exact fun h => h.1
        · intro h
          exact ⟨h, List.forall₂_same.mpr fun _ _ _ => rfl, hfull, rfl, rfl⟩
      · simp only [hfull, if_false, ne_eq, not_false_eq_true, true_or, iff_true]
        refine ⟨?_, ?_, rfl, rfl, rfl⟩
        · intro t ht
          obtain ⟨ptr, -, hptr⟩ := List.mem_map.mp ht
          exact fd_ne_of_dropTask hptr
        · rw [List.forall₂_map_right_iff, List.forall₂_same]
          exact fun ptr _ hptr => dropTask_of_ne hptr

end Drop

/-- **No drop leaves a task behind if and only if** each is made while there is room or no task of the
descriptor, in every run of the queue. -/
theorem dropsAlong_iff (steps : List QueueStep) :
    Along queueStep DropsAll queueInit steps ↔ Along queueStep RoomOrNone queueInit steps :=
  along_congr fun _ => dropsAll_iff

/-- As many tasks as there is room for are queued one after the other. -/
theorem along_enqueue {P : TaskQueue → QueueStep → Prop} {q : TaskQueue} {ptrs : List (Option Task)}
    {steps : List QueueStep} (hroom : ptrs.length ≤ q.capacity - q.size)
    (h : Along queueStep P q (ptrs.map .enqueue ++ steps)) :
    Along queueStep P (q.fill ptrs).1 steps := by
  induction ptrs generalizing q with
  | nil => exact h
  | cons ptr ptrs ih =>
      rw [List.length_cons] at hroom
      rw [Buffer.fill]
      cases henqueue : q.enqueue ptr with
      | none =>
          have hfull := Buffer.enqueue_eq_none_iff.mp henqueue
          omega
      | some q' =>
          obtain ⟨hsize, hcapacity⟩ := Buffer.enqueue_sizes henqueue
          exact ih (by omega) (h.2 q' henqueue)

/-- 4096 tasks of the descriptor 5 fill the queue. -/
theorem not_dropsAlong_full : ¬ ∀ steps, Along queueStep DropsAll queueInit steps := by
  intro h
  let t : Task := ⟨ttRead, 5, none⟩
  let ptrs := List.replicate 4096 (some t)
  have hempty : queueInit.toList = [] ∧ queueInit.capacity - queueInit.size = 4096 := ⟨rfl, rfl⟩
  have hroom : ptrs.length ≤ queueInit.capacity - queueInit.size := by
    rw [hempty.2, List.length_replicate]
  obtain ⟨hfill, hmany⟩ := Buffer.fill_spec queueInit ptrs
  have hptrs : (queueInit.fill ptrs).1.toList = ptrs := by
    rw [hfill, hempty.1, List.nil_append, List.take_of_length_le]
    rw [hmany, min_eq_left hroom]
  have hsize : (queueInit.fill ptrs).1.size = 4096 := by
    rw [← Buffer.length_toList, hptrs, List.length_replicate]
  have hdrop : Along queueStep DropsAll (queueInit.fill ptrs).1 [.drop 5] := along_enqueue hroom (h _)
  rcases (dropsAll_iff _).mp hdrop.1 with hnot | hnone
  · exact hnot (hsize.trans (Buffer.capacity_fill queueInit ptrs).symm)
  · refine hnone t ?_ rfl
    rw [hptrs]
    exact List.mem_replicate.mpr ⟨by decide, rfl⟩

end RenaProxy
