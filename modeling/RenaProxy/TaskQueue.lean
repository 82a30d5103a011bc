import RenaProxy.Http.Transfer
import RenaProxy.Lib.BoundedQueue

/-!
# Tasks and descriptor numbers

Events wait in one queue, and a task knows its client by a descriptor number only. The
kernel gives a number away again as soon as it is closed, and the worker that closed it
drops the tasks of that number two steps later. `sparesLive_of_spacedRun`: what is
dropped is never a task of a live client if no event is queued under such a number in
between.
-/
namespace RenaProxy
open BoundedQueue

/-- `task_t`, and which client the event behind it was for. -/
structure Task where
  type : ℤ
  fd : ℤ
  owner : Option ℕ
  deriving DecidableEq, Repr

/-- `queue_internal` with its places, a null pointer is `none`. -/
abbrev TaskQueue := Buffer (Option Task)

/-- `queue_init`, the array has 4096 places. -/
def queueInit : TaskQueue := Buffer.empty (fun _ => none) 4096 (by decide)

/-- What `task_manager_task_drop_fd` does at one place. -/
def dropTask (fd : ℤ) (ptr : Option Task) : Option Task :=
  ptr.map fun t => if t.fd = fd then { t with fd := -1 } else t

/-- `task_manager_task_drop_fd` -/
def taskManagerTaskDropFd (q : TaskQueue) (fd : ℤ) : TaskQueue := q.sweep (dropTask fd)

/-- `task_manager_task_push`, where it does not have to wait for room. -/
def taskManagerTaskPush (q : TaskQueue) (t : Task) : Option TaskQueue := q.enqueue (some t)

/-- `task_manager_task_consume`, where there is something to consume. -/
def taskManagerTaskConsume (q : TaskQueue) : Option (Option Task × TaskQueue) := q.dequeue

/-- A client in the table. `id` tells it from all others there ever were, `node` is the
number of the node that it shares with its peer. -/
structure Entry where
  id : ℕ
  node : ℕ
  type : ClientType
  fd : ℤ
  deriving DecidableEq, Repr

/-- What a worker is in the middle of. -/
inductive Phase
  | idle
  /-- `accept4` has returned `fd`. -/
  | accepted (fd : ℕ)
  /-- `clients_add` is done. -/
  | added (fd : ℕ)
  /-- `http_pull` has closed `fd`, the descriptor of the client `id`. -/
  | closed (fd id : ℕ)
  /-- `clients_del` is done. -/
  | deleted (fd id : ℕ)
  deriving DecidableEq, Repr

/-- The number that a worker has closed and whose tasks it has not dropped yet. -/
def Phase.pending : Phase → Option ℕ
  | closed fd _ | deleted fd _ => some fd
  | _ => none

/-- The process and what the kernel knows of its descriptors: those that are open, and
those with a notification to come. `count` clients were made so far. -/
structure Proxy where
  openFds : List ℕ
  armed : List ℕ
  clients : List Entry
  queue : TaskQueue
  workers : List Phase
  count : ℕ

/-- A step of a worker, by its number, or of the one that dispatches. -/
inductive ProxyStep
  | accept (k : ℕ)
  | add (k : ℕ)
  | register (k : ℕ)
  /-- `dispatch_new_connection` makes a victim for a requester. -/
  | connect (k node : ℕ)
  | dispatch (fd : ℕ) (reading : Bool)
  /-- The first task is handled and its client stays, or it has none. -/
  | serve (k : ℕ)
  /-- The first task is a read that finds the end of the stream. -/
  | close (k : ℕ)
  /-- `clients_del`. `keep` if bytes of a victim are still to be sent. -/
  | delete (k : ℕ) (keep : Bool)
  | drop (k : ℕ)
  deriving DecidableEq, Repr

namespace Proxy

/-- `workers` workers and nothing to do, with the descriptors `base` open. -/
def start (base : List ℕ) (workers : ℕ) : Proxy where
  openFds := base
  armed := []
  clients := []
  queue := queueInit
  workers := List.replicate workers .idle
  count := 0

/-- The lowest number that is not open. -/
def lowestFree (p : Proxy) : ℕ :=
  ((List.range (p.openFds.length + 1)).find? (· ∉ p.openFds)).getD 0

/-- The worker `k` goes on to a phase. -/
def goOn (p : Proxy) (k : ℕ) (phase : Phase) : Proxy :=
  { p with workers := p.workers.set k phase }

/-- The kernel closes descriptors, which ends their notifications. -/
def closeFds (p : Proxy) (closing : List ℕ) : Proxy :=
  { p with
    openFds := p.openFds.filter (· ∉ closing)
    armed := p.armed.filter (· ∉ closing) }

/-- The client that `clients_search` finds. -/
def search (p : Proxy) (fd : ℤ) : Option Entry := p.clients.find? (·.fd = fd)

/-- `http_pull` closes the descriptor of a client and calls `clients_set_fd`. -/
def endOfStream (p : Proxy) (fd : ℕ) (c : Entry) : Proxy :=
  { p.closeFds [fd] with
    clients := p.clients.map fun c' : Entry => if c'.id = c.id then { c' with fd := -1 } else c' }

/-- A new client, before the others as `clients_add` has it. -/
def addClient (p : Proxy) (node : ℕ) (type : ClientType) (fd : ℕ) : Proxy :=
  { p with
    clients := ⟨p.count, node, type, fd⟩ :: p.clients
    count := p.count + 1 }

/-- The peer of a client is to be notified. -/
def notifyPeer (p : Proxy) (c : Entry) : Proxy :=
  { p with armed :=
      ((p.clients.filter fun c' => c'.node = c.node ∧ c'.id ≠ c.id ∧ 0 ≤ c'.fd).map (·.fd.toNat)) ++
        p.armed }

/-- `clients_del` for a client that is still there. -/
def delClient (p : Proxy) (c : Entry) (keep : Bool) : Proxy :=
  match c.type with
  | .requester =>
      { p.closeFds ((p.clients.filter fun c' => c'.node = c.node ∧ 0 ≤ c'.fd).map (·.fd.toNat)) with
        clients := p.clients.filter (·.node ≠ c.node) }
  | .victim =>
      if keep ∧ ∃ r ∈ p.clients, r.node = c.node ∧ r.type = .requester then p
      else { p with clients := p.clients.filter (·.id ≠ c.id) }

/-- One step, if it can be made. -/
def step (p : Proxy) : ProxyStep → Option Proxy
  | .accept k =>
      if p.workers[k]? = some .idle then
        some ({ p with openFds := p.lowestFree :: p.openFds }.goOn k (.accepted p.lowestFree))
      else none
  | .add k =>
      match p.workers[k]? with
      | some (.accepted fd) => some ((p.addClient p.count .requester fd).goOn k (.added fd))
      | _ => none
  | .register k =>
      match p.workers[k]? with
      | some (.added fd) =>
          some ({ p with armed := if fd ∈ p.openFds then fd :: p.armed else p.armed }.goOn k .idle)
      | _ => none
  | .connect k node =>
      if p.workers[k]? = some .idle ∧ (∃ c ∈ p.clients, c.node = node ∧ c.type = .requester) ∧
          ∀ c ∈ p.clients, c.node = node → c.type ≠ .victim then
        some { p.addClient node .victim p.lowestFree with
          openFds := p.lowestFree :: p.openFds
          armed := p.lowestFree :: p.armed }
      else none
  | .dispatch fd reading =>
      if fd ∈ p.armed then do
        let queue ← taskManagerTaskPush p.queue
          ⟨if reading then ttRead else ttWrite, fd, (p.search fd).map (·.id)⟩
        pure { p with queue := queue, armed := p.armed.filter (· ≠ fd) }
      else none
  | .serve k =>
      if p.workers[k]? = some .idle then do
        let (task, queue) ← taskManagerTaskConsume p.queue
        let found := (task.bind fun t => p.search t.fd).filter fun c => 0 ≤ c.fd
        pure { p with queue := queue, armed := (found.map (·.fd.toNat)).toList ++ p.armed }
      else none
  | .close k =>
      if p.workers[k]? = some .idle then do
        let (task, queue) ← taskManagerTaskConsume p.queue
        let task ← task
        if 0 ≤ task.fd then do
          let c ← p.search task.fd
          pure (({ p with queue := queue }.endOfStream task.fd.toNat c).goOn k
            (.closed task.fd.toNat c.id))
        else none
      else none
  | .delete k keep =>
      match p.workers[k]? with
      | some (.closed fd id) =>
          match p.clients.find? (·.id = id) with
          | none => some (p.goOn k .idle)
          | some c => some (((p.notifyPeer c).delClient c keep).goOn k (.deleted fd id))
      | _ => none
  | .drop k =>
      match p.workers[k]? with
      | some (.deleted fd _) =>
          some ({ p with queue := taskManagerTaskDropFd p.queue fd }.goOn k .idle)
      | _ => none

/-- Steps one after the other. -/
def run (p : Proxy) (steps : List ProxyStep) : Option Proxy := steps.foldlM step p

/-- No task that waits for a live client is one that will be ignored. -/
def SparesLive (p : Proxy) : Prop :=
  ∀ t, some t ∈ p.queue.toList → ∀ c ∈ p.clients, 0 ≤ c.fd → t.owner = some c.id → 0 ≤ t.fd

/-- An event is not queued under a number that a worker has closed and whose tasks it has
not dropped yet. -/
def Spaced (p : Proxy) : ProxyStep → Prop
  | .dispatch fd _ => ∀ phase ∈ p.workers, phase.pending ≠ some fd
  | _ => True

/-- Every step of a run is made so. -/
def SpacedRun : Proxy → List ProxyStep → Prop
  | _, [] => True
  | p, s :: ss => p.Spaced s ∧ ∀ p' ∈ p.step s, SpacedRun p' ss

instance (p : Proxy) : (s : ProxyStep) → Decidable (p.Spaced s)
  | .dispatch fd _ => inferInstanceAs (Decidable (∀ phase ∈ p.workers, phase.pending ≠ some fd))
  | .accept _ | .add _ | .register _ | .connect .. | .serve _ | .close _ | .delete .. | .drop _ =>
      isTrue trivial

instance decidableSpacedRun : (ss : List ProxyStep) → (p : Proxy) → Decidable (SpacedRun p ss)
  | [], _ => isTrue trivial
  | s :: ss, p =>
      have := decidableSpacedRun ss
      inferInstanceAs (Decidable (p.Spaced s ∧ ∀ p' ∈ p.step s, SpacedRun p' ss))

/-! ## What every step keeps -/

/-- Clients are told apart by `id`, live ones by descriptor too; a task is queued under the
descriptor of its client; and under a number whose tasks are to be dropped there is no
task of a live client. -/
structure Sane (p : Proxy) : Prop where
  id_lt : ∀ c ∈ p.clients, c.id < p.count
  nodup : (p.clients.map (·.id)).Nodup
  fd_inj : ∀ c ∈ p.clients, ∀ c' ∈ p.clients, 0 ≤ c.fd → c.fd = c'.fd → c = c'
  isOpen : ∀ c ∈ p.clients, ∀ fd : ℕ, c.fd = fd → fd ∈ p.openFds
  accepted : ∀ k fd : ℕ, p.workers[k]? = some (.accepted fd) → fd ∈ p.openFds ∧
    (∀ c ∈ p.clients, c.fd ≠ fd) ∧ ∀ k' : ℕ, p.workers[k']? = some (.accepted fd) → k' = k
  owner_lt : ∀ t, some t ∈ p.queue.toList → ∀ i ∈ t.owner, i < p.count
  owner : ∀ t, some t ∈ p.queue.toList → ∀ c ∈ p.clients, 0 ≤ c.fd → t.owner = some c.id → t.fd = c.fd
  pending : ∀ phase ∈ p.workers, ∀ fd ∈ phase.pending, ∀ t, some t ∈ p.queue.toList → t.fd = fd →
    ∀ c ∈ p.clients, t.owner = some c.id → c.fd < 0

theorem Sane.sparesLive {p : Proxy} (S : Sane p) : SparesLive p := by
  intro t ht c hc hlive howner
  rw [S.owner t ht c hc hlive howner]
  exact hlive

theorem sane_start (base : List ℕ) (workers : ℕ) : Sane (start base workers) where
  id_lt := by simp [start]
  nodup := by simp [start]
  fd_inj := by simp [start]
  isOpen := by simp [start]
  accepted := by
    intro k fd h
    rw [start, List.getElem?_replicate] at h
    split_ifs at h
    cases h
  owner_lt := by simp [start, queueInit, Buffer.toList_empty]
  owner := by simp [start, queueInit, Buffer.toList_empty]
  pending := by simp [start, queueInit, Buffer.toList_empty]

section Steps
variable {p p' : Proxy} {k : ℕ}

theorem lowestFree_notMem (p : Proxy) : p.lowestFree ∉ p.openFds := by
  rw [lowestFree]
  cases h : (List.range (p.openFds.length + 1)).find? (· ∉ p.openFds) with
  | some fd => simpa using List.find?_some h
  | none =>
      rw [List.find?_eq_none] at h
      have hsub : List.range (p.openFds.length + 1) ⊆ p.openFds := by
        intro n hn
        simpa using h n hn
      have hlen := (List.nodup_range.subperm hsub).length_le
      rw [List.length_range] at hlen
      omega

theorem Sane.armed (S : Sane p) (armed : List ℕ) : Sane { p with armed := armed } := ⟨S.1, S.2,
  S.3, S.4, S.5, S.6, S.7, S.8⟩

/-- Tasks that were there before keep everything. -/
theorem Sane.queue (S : Sane p) {queue : TaskQueue} (h : ∀ t ∈ queue.toList, t ∈ p.queue.toList) :
    Sane { p with queue := queue } :=
  ⟨S.1, S.2, S.3, S.4, S.5, fun t ht => S.owner_lt t (h _ ht), fun t ht => S.owner t (h _ ht),
    fun phase hp fd hfd t ht => S.pending phase hp fd hfd t (h _ ht)⟩

/-- A worker goes on, without a new descriptor. -/
theorem Sane.goOn (S : Sane p) {phase : Phase} (hacc : ∀ fd, phase ≠ .accepted fd)
    (hpend : ∀ fd ∈ phase.pending, ∀ t, some t ∈ p.queue.toList → t.fd = fd →
      ∀ c ∈ p.clients, t.owner = some c.id → c.fd < 0) : Sane (p.goOn k phase) := by
  have hold : ∀ k' fd : ℕ, (p.workers.set k phase)[k']? = some (.accepted fd) →
      p.workers[k']? = some (.accepted fd) := by
    intro k' fd h
    rw [List.getElem?_set] at h
    split_ifs at h
    · exact absurd (Option.some.inj h) (hacc fd)
    · exact h
  refine ⟨S.1, S.2, S.3, S.4, ?_, S.6, S.7, ?_⟩
  · intro k' fd h
    obtain ⟨hopen, hfree, huniq⟩ := S.accepted k' fd (hold k' fd h)
    exact ⟨hopen, hfree, fun k'' h' => huniq k'' (hold k'' fd h')⟩
  · intro phase' hmem
    rcases List.mem_or_eq_of_mem_set hmem with hmem | rfl
    · exact S.pending phase' hmem
    · exact hpend

theorem Sane.idle (S : Sane p) : Sane (p.goOn k .idle) :=
  S.goOn (fun _ => nofun) (by simp [Phase.pending])

/-- Clients go or are closed, and their descriptors with them. -/
theorem Sane.shrink (S : Sane p) {clients : List Entry} {closing : List ℕ}
    (hids : (clients.map (·.id)).Sublist (p.clients.map (·.id)))
    (hlive : ∀ c ∈ clients, 0 ≤ c.fd → c ∈ p.clients ∧ c.fd.toNat ∉ closing)
    (hclosing : ∀ fd ∈ closing, ∃ c ∈ p.clients, c.fd = fd) :
    Sane { p.closeFds closing with clients := clients } := by
  have hid : ∀ c ∈ clients, ∃ c' ∈ p.clients, c'.id = c.id := by
    intro c hc
    exact List.mem_map.mp (hids.subset (List.mem_map_of_mem hc))
  refine ⟨?_, hids.nodup S.nodup, ?_, ?_, ?_, S.6, ?_, ?_⟩
  · intro c hc
    obtain ⟨c', hc', hid⟩ := hid c hc
    exact hid ▸ S.id_lt c' hc'
  · intro c hc c' hc' hpos heq
    exact S.fd_inj c (hlive c hc hpos).1 c' (hlive c' hc' (heq ▸ hpos)).1 hpos heq
  · intro c hc fd hfd
    obtain ⟨hmem, hnot⟩ := hlive c hc (by omega)
    rw [hfd, Int.toNat_natCast] at hnot
    simpa [closeFds, hnot] using S.isOpen c hmem fd hfd
  · intro k fd h
    obtain ⟨hopen, hfree, huniq⟩ := S.accepted k fd h
    refine ⟨?_, ?_, huniq⟩
    · have hnot : fd ∉ closing := by
        intro h
        obtain ⟨c, hc, hfd⟩ := hclosing fd h
        exact hfree c hc hfd
      simpa [closeFds, hnot] using hopen
    · intro c hc hfd
      exact hfree c (hlive c hc (by omega)).1 hfd
  · intro t ht c hc hpos
    exact S.owner t ht c (hlive c hc hpos).1 hpos
  · intro phase hp fd hfd t ht htfd c hc howner
    by_contra hpos
    exact hpos (S.pending phase hp fd hfd t ht htfd c (hlive c hc (not_lt.mp hpos)).1 howner)

/-- A client comes with a descriptor that is open and nobody's. -/
theorem Sane.addClient (S : Sane p) {node fd : ℕ} {type : ClientType} (hopen : fd ∈ p.openFds)
    (hfree : ∀ c ∈ p.clients, c.fd ≠ fd)
    (hacc : ∀ k : ℕ, p.workers[k]? ≠ some (.accepted fd)) : Sane (p.addClient node type fd) := by
  refine ⟨?_, ?_, ?_, ?_, ?_, ?_, ?_, ?_⟩
  · intro c hc
    rcases List.mem_cons.mp hc with rfl | hc
    · exact Nat.lt_succ_self _
    · exact (S.id_lt c hc).trans (Nat.lt_succ_self _)
  · rw [Proxy.addClient, List.map_cons, List.nodup_cons]
    refine ⟨?_, S.nodup⟩
    intro h
    obtain ⟨c, hc, hid⟩ := List.mem_map.mp h
    exact absurd (S.id_lt c hc) (by simp [hid])
  · intro c hc c' hc' hpos heq
    rcases List.mem_cons.mp hc with rfl | hc <;> rcases List.mem_cons.mp hc' with rfl | hc'
    · rfl
    · exact absurd heq.symm (hfree c' hc')
    · exact absurd heq (hfree c hc)
    · exact S.fd_inj c hc c' hc' hpos heq
  · intro c hc n hn
    rcases List.mem_cons.mp hc with rfl | hc
    · obtain rfl : fd = n := Int.ofNat_inj.mp hn
      exact hopen
    · exact S.isOpen c hc n hn
  · intro k n h
    obtain ⟨hn, hfree', huniq⟩ := S.accepted k n h
    refine ⟨hn, ?_, huniq⟩
    intro c hc
    rcases List.mem_cons.mp hc with rfl | hc
    · intro heq
      obtain rfl : fd = n := Int.ofNat_inj.mp heq
      exact hacc k h
    · exact hfree' c hc
  · intro t ht i hi
    exact (S.owner_lt t ht i hi).trans (Nat.lt_succ_self _)
  · intro t ht c hc hpos howner
    rcases List.mem_cons.mp hc with rfl | hc
    · exact absurd (S.owner_lt t ht _ howner) (lt_irrefl _)
    · exact S.owner t ht c hc hpos howner
  · intro phase hp n hn t ht htn c hc howner
    rcases List.mem_cons.mp hc with rfl | hc
    · exact absurd (S.owner_lt t ht _ howner) (lt_irrefl _)
    · exact S.pending phase hp n hn t ht htn c hc howner

/-- The lowest free number is no client's and was not accepted. -/
theorem Sane.lowestFree (S : Sane p) :
    (∀ c ∈ p.clients, c.fd ≠ p.lowestFree) ∧ ∀ k : ℕ, p.workers[k]? ≠ some (.accepted p.lowestFree) :=
  ⟨fun c hc h => p.lowestFree_notMem (S.isOpen c hc _ h),
    fun k h => p.lowestFree_notMem (S.accepted k _ h).1⟩

/-- One more descriptor is open. -/
theorem Sane.openFds (S : Sane p) (fd : ℕ) : Sane { p with openFds := fd :: p.openFds } :=
  ⟨S.1, S.2, S.3, fun c hc n hn => List.mem_cons_of_mem _ (S.isOpen c hc n hn),
    fun k n h => ⟨List.mem_cons_of_mem _ (S.accepted k n h).1, (S.accepted k n h).2⟩, S.6, S.7, S.8⟩

private theorem Sane.accept (S : Sane p) :
    Sane ({ p with openFds := p.lowestFree :: p.openFds }.goOn k (.accepted p.lowestFree)) := by
  obtain ⟨hfree, hacc⟩ := S.lowestFree
  have S := S.openFds p.lowestFree
  generalize p.lowestFree = fd at *
  refine ⟨S.1, S.2, S.3, S.4, ?_, S.6, S.7, ?_⟩
  · intro k' n h
    rw [Proxy.goOn, List.getElem?_set] at h
    have hother : ∀ k'' : ℕ, k ≠ k'' → ((p.workers.set k (.accepted fd))[k'']? = some (.accepted n) →
        p.workers[k'']? = some (.accepted n)) := by
      intro k'' hne h
      rwa [List.getElem?_set_ne hne] at h
    split_ifs at h with hk
    · obtain rfl : fd = n := Phase.accepted.inj (Option.some.inj h)
      refine ⟨List.mem_cons_self, hfree, ?_⟩
      intro k'' h''
      by_contra hne
      exact hacc k'' (hother k'' (fun h => hne (hk ▸ h.symm)) h'')
    · obtain ⟨hn, hfree', huniq⟩ := S.accepted k' n h
      refine ⟨hn, hfree', ?_⟩
      intro k'' h''
      by_cases hk'' : k = k''
      · subst hk''
        rw [Proxy.goOn, List.getElem?_set] at h''
        split_ifs at h''
        · obtain rfl : fd = n := Phase.accepted.inj (Option.some.inj h'')
          exact absurd h (hacc k')
        · exact huniq k h''
      · exact huniq k'' (hother k'' hk'' h'')
  · intro phase hmem
    rcases List.mem_or_eq_of_mem_set hmem with hmem | rfl
    · exact S.pending phase hmem
    · simp [Phase.pending]

private theorem search_eq_some {fd : ℤ} {c : Entry} (h : p.search fd = some c) :
    c ∈ p.clients ∧ c.fd = fd :=
  ⟨List.mem_of_find?_eq_some h, by simpa using List.find?_some h⟩

private theorem Sane.id_inj (S : Sane p) {c c' : Entry} (hc : c ∈ p.clients) (hc' : c' ∈ p.clients)
    (h : c.id = c'.id) : c = c' := List.inj_on_of_nodup_map S.nodup hc hc' h

private theorem Sane.dispatch (S : Sane p) {fd : ℕ} {type : ℤ} {queue : TaskQueue}
    (hspaced : ∀ phase ∈ p.workers, phase.pending ≠ some fd)
    (hpush : taskManagerTaskPush p.queue ⟨type, fd, (p.search fd).map (·.id)⟩ = some queue) :
    Sane { p with queue := queue } := by
  have hmem : ∀ t, some t ∈ queue.toList → some t ∈ p.queue.toList ∨
      t = ⟨type, fd, (p.search fd).map (·.id)⟩ := by
    intro t ht
    rw [Buffer.toList_enqueue hpush, List.mem_append, List.mem_singleton] at ht
    exact ht.imp_right Option.some.inj
  refine ⟨S.1, S.2, S.3, S.4, S.5, ?_, ?_, ?_⟩
  · intro t ht i hi
    rcases hmem t ht with ht | rfl
    · exact S.owner_lt t ht i hi
    · obtain ⟨c, hc, rfl⟩ := Option.map_eq_some_iff.mp hi
      exact S.id_lt c (search_eq_some hc).1
  · intro t ht c hc hpos howner
    rcases hmem t ht with ht | rfl
    · exact S.owner t ht c hc hpos howner
    · obtain ⟨c', hc', hid⟩ := Option.map_eq_some_iff.mp howner
      obtain ⟨hmem', hfd⟩ := search_eq_some hc'
      rw [← S.id_inj hmem' hc hid]
      exact hfd.symm
  · intro phase hp n hn t ht htn c hc howner
    rcases hmem t ht with ht | rfl
    · exact S.pending phase hp n hn t ht htn c hc howner
    · obtain rfl : fd = n := Int.ofNat_inj.mp htn
      exact absurd hn (hspaced phase hp)

private theorem Sane.drop (S : Sane p) {fd id : ℕ} (hk : p.workers[k]? = some (.deleted fd id)) :
    Sane { p with queue := taskManagerTaskDropFd p.queue fd } := by
  -- a task of a live client stays what it is
  have hmem : ∀ t, some t ∈ (taskManagerTaskDropFd p.queue fd).toList → ∃ t',
      some t' ∈ p.queue.toList ∧ t.owner = t'.owner ∧ (t.fd = t'.fd ∨ t.fd = -1 ∧ t'.fd = fd) := by
    intro t ht
    rw [taskManagerTaskDropFd, Buffer.toList_sweep] at ht
    split_ifs at ht
    · exact ⟨t, ht, rfl, .inl rfl⟩
    · obtain ⟨ptr, hptr, hdrop⟩ := List.mem_map.mp ht
      obtain ⟨t', rfl, rfl⟩ := Option.map_eq_some_iff.mp hdrop
      refine ⟨t', hptr, ?_⟩
      split_ifs with hfd
      · exact ⟨rfl, .inr ⟨rfl, hfd⟩⟩
      · exact ⟨rfl, .inl rfl⟩
  have hpend := S.pending _ (List.mem_of_getElem? hk) fd rfl
  refine ⟨S.1, S.2, S.3, S.4, S.5, ?_, ?_, ?_⟩
  · intro t ht i hi
    obtain ⟨t', ht', howner, -⟩ := hmem t ht
    exact S.owner_lt t' ht' i (howner ▸ hi)
  · intro t ht c hc hpos howner
    obtain ⟨t', ht', howner', hfd | ⟨-, hfd⟩⟩ := hmem t ht
    · rw [hfd]
      exact S.owner t' ht' c hc hpos (howner' ▸ howner)
    · exact absurd (hpend t' ht' hfd c hc (howner' ▸ howner)) (not_lt.mpr hpos)
  · intro phase hp n hn t ht htn c hc howner
    obtain ⟨t', ht', howner', hfd | ⟨hfd, -⟩⟩ := hmem t ht
    · exact S.pending phase hp n hn t' ht' (hfd ▸ htn) c hc (howner' ▸ howner)
    · omega

private theorem Sane.endOfStream (S : Sane p) {c : Entry} {fd : ℕ} (hc : c ∈ p.clients)
    (hfd : c.fd = fd) : Sane (p.endOfStream fd c) := by
  apply S.shrink
  · rw [List.map_map]
    have hids : (p.clients.map ((·.id) ∘ fun c' : Entry =>
        if c'.id = c.id then { c' with fd := -1 } else c')) = p.clients.map (·.id) := by
      apply List.map_congr_left
      intro c' _
      rw [Function.comp_apply]
      split_ifs <;> rfl
    rw [hids]
  · intro c' hc' hpos
    obtain ⟨c'', hc'', rfl⟩ := List.mem_map.mp hc'
    split_ifs at hpos ⊢ with hid
    · cases hpos
    · refine ⟨hc'', ?_⟩
      intro hmem
      apply hid
      rw [S.fd_inj c'' hc'' c hc hpos]
      rw [List.mem_singleton] at hmem
      omega
  · intro n hn
    rw [List.mem_singleton.mp hn]
    exact ⟨c, hc, hfd⟩

private theorem Sane.delClient (S : Sane p) (c : Entry) (keep : Bool) :
    Sane (p.delClient c keep) := by
  rw [Proxy.delClient]
  cases c.type with
  | requester =>
      apply S.shrink
      · exact (List.filter_sublist).map _
      · intro c' hc' hpos
        rw [List.mem_filter, decide_eq_true_eq] at hc'
        refine ⟨hc'.1, ?_⟩
        intro hmem
        obtain ⟨c'', hc'', heq⟩ := List.mem_map.mp hmem
        simp only [List.mem_filter, Bool.decide_and, Bool.and_eq_true, decide_eq_true_eq] at hc''
        apply hc'.2
        rw [S.fd_inj c' hc'.1 c'' hc''.1 hpos (by omega)]
        exact hc''.2.1
      · intro n hn
        obtain ⟨c', hc', rfl⟩ := List.mem_map.mp hn
        simp only [List.mem_filter, Bool.decide_and, Bool.and_eq_true, decide_eq_true_eq] at hc'
        exact ⟨c', hc'.1, (Int.toNat_of_nonneg hc'.2.2).symm⟩
  | victim =>
      dsimp only
      split_ifs
      · exact S
      · have hshrunk : Sane { p.closeFds [] with clients := p.clients.filter (·.id ≠ c.id) } :=
          S.shrink ((List.filter_sublist).map _)
            (fun c' hc' _ => ⟨(List.mem_filter.mp hc').1, by simp⟩) (by simp)
        simpa [closeFds] using hshrunk

private theorem Sane.add (S : Sane p) {k fd : ℕ} (hk : p.workers[k]? = some (.accepted fd)) :
    Sane ((p.addClient p.count .requester fd).goOn k (.added fd)) := by
  obtain ⟨hopen, hfree, huniq⟩ := S.accepted k fd hk
  have S' : Sane (p.goOn k (.added fd)) := S.goOn (fun _ => nofun) (by simp [Phase.pending])
  refine S'.addClient hopen hfree ?_
  intro k' h
  rw [Proxy.goOn, List.getElem?_set] at h
  split_ifs at h with hne
  · cases Option.some.inj h
  · exact hne (huniq k' h).symm

private theorem Sane.close (S : Sane p) {k fd : ℕ} {c : Entry} (hc : c ∈ p.clients) (hfd : c.fd = fd) :
    Sane ((p.endOfStream fd c).goOn k (.closed fd c.id)) := by
  refine (S.endOfStream hc hfd).goOn (fun _ => nofun) ?_
  -- a task under the number was one of the client that is closed now
  intro n hn t ht htn c' hc' howner
  obtain rfl : fd = n := Option.some.inj hn
  obtain ⟨c'', hc'', rfl⟩ := List.mem_map.mp hc'
  by_cases hid : c''.id = c.id
  · rw [if_pos hid]
    exact Int.negSucc_lt_zero 0
  · rw [if_neg hid] at howner ⊢
    by_contra hlive
    have := S.owner t ht c'' hc'' (not_lt.mp hlive) howner
    apply hid
    rw [S.fd_inj c'' hc'' c hc (not_lt.mp hlive) (by omega)]

private theorem Sane.delete (S : Sane p) {k fd id : ℕ} (hk : p.workers[k]? = some (.closed fd id))
    (c : Entry) (keep : Bool) :
    Sane (((p.notifyPeer c).delClient c keep).goOn k (.deleted fd id)) := by
  have S' : Sane ((p.notifyPeer c).delClient c keep) := (S.armed _).delClient c keep
  have hworkers : ((p.notifyPeer c).delClient c keep).workers = p.workers := by
    rw [Proxy.delClient]
    cases c.type with
    | requester => rfl
    | victim =>
        dsimp only
        split_ifs <;> rfl
  have hpend := S'.pending _ (hworkers ▸ List.mem_of_getElem? hk)
  exact S'.goOn (fun _ => nofun) hpend

/-- A task that comes out of the queue takes nothing of the invariant with it. -/
private theorem Sane.consume (S : Sane p) {task : Option Task} {queue : Buffer (Option Task)}
    (hconsume : taskManagerTaskConsume p.queue = some (task, queue)) : Sane { p with queue := queue } :=
  S.queue fun t ht => by
    rw [Buffer.toList_dequeue hconsume]
    exact List.mem_cons_of_mem _ ht

/-- **Every step that is made as it should be keeps the invariant.** -/
theorem Sane.step (S : Sane p) {s : ProxyStep} (hspaced : p.Spaced s) (hstep : p.step s = some p') :
    Sane p' := by
  cases s with
  | accept k =>
      rw [Proxy.step] at hstep
      split_ifs at hstep
      obtain rfl := Option.some.inj hstep
      exact S.accept
  | add k =>
      rw [Proxy.step] at hstep
      split at hstep
      · rename_i fd hk
        obtain rfl := Option.some.inj hstep
        exact S.add hk
      · cases hstep
  | register k =>
      rw [Proxy.step] at hstep
      split at hstep
      · obtain rfl := Option.some.inj hstep
        exact (S.armed _).idle
      · cases hstep
  | connect k node =>
      rw [Proxy.step] at hstep
      split_ifs at hstep
      obtain rfl := Option.some.inj hstep
      exact ((S.openFds p.lowestFree).addClient List.mem_cons_self S.lowestFree.1
        S.lowestFree.2).armed _
  | dispatch fd reading =>
      rw [Proxy.step, Option.ite_none_right_eq_some] at hstep
      replace hstep := hstep.2
      obtain ⟨queue, hpush, hstep⟩ := Option.bind_eq_some_iff.mp hstep
      obtain rfl := Option.some.inj hstep
      exact (S.dispatch hspaced hpush).armed _
  | serve k =>
      rw [Proxy.step] at hstep
      split_ifs at hstep
      obtain ⟨⟨task, queue⟩, hconsume, hstep⟩ := Option.bind_eq_some_iff.mp hstep
      obtain rfl := Option.some.inj hstep
      exact (S.consume hconsume).armed _
  | close k =>
      rw [Proxy.step] at hstep
      split_ifs at hstep
      obtain ⟨⟨task, queue⟩, hconsume, hstep⟩ := Option.bind_eq_some_iff.mp hstep
      obtain ⟨task, rfl, hstep⟩ := Option.bind_eq_some_iff.mp hstep
      obtain ⟨hpos, hstep⟩ := Option.ite_none_right_eq_some.mp hstep
      obtain ⟨c, hc, hstep⟩ := Option.bind_eq_some_iff.mp hstep
      obtain rfl := Option.some.inj hstep
      obtain ⟨hmem, hfd⟩ := search_eq_some hc
      have hfd : c.fd = task.fd.toNat := by omega
      exact (S.consume hconsume).close hmem hfd
  | delete k keep =>
      rw [Proxy.step] at hstep
      split at hstep
      · rename_i fd id hk
        split at hstep
        · obtain rfl := Option.some.inj hstep
          exact S.idle
        · rename_i c hc
          obtain rfl := Option.some.inj hstep
          exact S.delete hk c keep
      · cases hstep
  | drop k =>
      rw [Proxy.step] at hstep
      split at hstep
      · rename_i fd id hk
        obtain rfl := Option.some.inj hstep
        exact (S.drop hk).idle
      · cases hstep

end Steps

end Proxy

/-- **Dropping tasks spares the live clients** in every state of every run in which no event
is queued under a number between its closing and the dropping of its tasks. -/
theorem sparesLive_of_spacedRun (base : List ℕ) (workers : ℕ) (steps : List ProxyStep) (p : Proxy)
    (hrun : (Proxy.start base workers).run steps = some p)
    (hspaced : Proxy.SpacedRun (.start base workers) steps) : p.SparesLive := by
  suffices h : ∀ (steps : List ProxyStep) (p₀ : Proxy), p₀.Sane → p₀.run steps = some p →
      Proxy.SpacedRun p₀ steps → p.Sane from
    (h steps _ (Proxy.sane_start base workers) hrun hspaced).sparesLive
  intro steps
  induction steps with
  | nil =>
      intro p₀ S hrun _
      obtain rfl : p₀ = p := Option.some.inj hrun
      exact S
  | cons s steps ih =>
      intro p₀ S hrun hspaced
      obtain ⟨p₁, hstep, hrun⟩ := Option.bind_eq_some_iff.mp hrun
      exact ih p₁ (S.step hspaced.1 hstep) hrun (hspaced.2 p₁ hstep)

/-- A requester is accepted, closed, deleted and its tasks are dropped, and then another one
gets its number. -/
theorem sparesLive_of_spacedRun_reuse :
    let steps : List ProxyStep := [.accept 0, .add 0, .register 0, .dispatch 3 true, .close 0,
      .accept 1, .delete 0 false, .drop 0, .add 1, .register 1, .dispatch 3 false]
    ∃ p, (Proxy.start [0, 1, 2] 2).run steps = some p ∧ p.SparesLive := by
  intro steps
  have hrun : ((Proxy.start [0, 1, 2] 2).run steps).isSome := by decide
  obtain ⟨p, hp⟩ := Option.isSome_iff_exists.mp hrun
  exact ⟨p, hp, sparesLive_of_spacedRun [0, 1, 2] 2 steps p hp (by decide)⟩

/-- With the event of the second one queued before the tasks of the first are dropped, nobody
hears of it again. -/
theorem not_sparesLive_reuse :
    ¬ ∀ (base : List ℕ) (workers : ℕ) (steps : List ProxyStep) (p : Proxy),
      (Proxy.start base workers).run steps = some p → p.SparesLive := by
  intro h
  have hlost : ((Proxy.start [0, 1, 2] 2).run [.accept 0, .add 0, .register 0, .dispatch 3 true,
      .close 0, .accept 1, .add 1, .register 1, .dispatch 3 false, .delete 0 false, .drop 0]).any
      fun p => some ⟨ttWrite, -1, some 1⟩ ∈ p.queue.toList ∧ ⟨1, 1, .requester, 3⟩ ∈ p.clients := by
    decide +kernel
  obtain ⟨p, hp, hlost⟩ := (Option.any_eq_true _ _).mp hlost
  obtain ⟨htask, hclient⟩ := of_decide_eq_true hlost
  have hlive := h _ _ _ p hp _ htask _ hclient (by decide) rfl
  exact absurd hlive (by decide)

end RenaProxy
