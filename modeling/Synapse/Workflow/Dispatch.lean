import Synapse.Engine.QueueRun
import Synapse.Engine.Core

/-!
# The matching service

Task queues over the `Queue` primitive. `TaskQueueManager` routes a tenant, a task queue and a task
type to one core queue, named by the joined key, and wraps it into a `TaskQueue` that leases each
dispatched task under a fresh token until a visibility deadline. Workers respond by token. A sweeper
returns the tasks whose lease has run out.

A routed queue refers to its core queue by the address of the `Arc` in the core's table
(`ArcTable`). `lookup` follows both references; it fails only for a key the manager does not know.

Tokens are drawn by the caller of `take`, which stands for `Uuid::new_v4`. Instants and durations
are natural numbers of nanoseconds and every function is given the readings of the clock it makes.
`sweep` is given the order in which the hash map yields the expired leases. Metrics and the wakeup
of waiting pollers are left out; a poll that waits calls `take` again later.
-/

namespace Synapse

open Function Option

namespace Workflow

/-- How long a responded task token stays remembered. -/
def completedTtl : ℕ := 600 * 1000000000

/-- Visibility timeout of a new routed queue. -/
def defaultVisibility : ℕ := 30 * 1000000000

inductive AckResult
  /-- The token was in flight and is now acknowledged. -/
  | accepted
  /-- The token was responded to before. -/
  | duplicate
  /-- The token was never dispatched, or its task has been redelivered under a new one. -/
  | unknown
deriving DecidableEq, Repr

inductive WorkflowError
  | engine (e : EngineError)
  | invalidArgument (msg : String)
  | internal (msg : String)
deriving DecidableEq, Repr

abbrev WorkflowResult (α : Type) := Except WorkflowError α

/-! ## A routed queue -/

structure Dispatch where
  token : Bytes
  payload : Bytes
  attempt : ℕ
deriving DecidableEq, Repr

structure Inflight where
  seq : ℕ
  token : Bytes
  expiresAt : ℕ
deriving DecidableEq, Repr

/-- The bookkeeping of a routed queue; `inner` is the address of its core queue. -/
structure TaskQueue where
  inner : ℕ
  inflight : List Inflight
  attempts : ℕ → Option ℕ
  visibility : ℕ

namespace TaskQueue

def new (inner visibility : ℕ) : TaskQueue := ⟨inner, [], fun _ ↦ none, visibility⟩

def setVisibility (tq : TaskQueue) (d : ℕ) : TaskQueue := { tq with visibility := d }

/-- Dispatch the next ready task under a new token; `none` if the queue is empty. -/
def dispatch (tq : TaskQueue) (q : Queue) (token : Bytes) (now : ℕ) :
    Option Dispatch × TaskQueue × Queue :=
  match q.dequeue with
  | (none, q) => (none, tq, q)
  | (some (seq, payload), q) =>
    let attempt := (tq.attempts seq).getD 0 + 1
    (some ⟨token, payload, attempt⟩,
      { tq with
        attempts := Function.update tq.attempts seq (some attempt)
        inflight := ⟨seq, token, now + tq.visibility⟩ :: tq.inflight.filter (·.seq != seq) },
      q)

def seqForToken (tq : TaskQueue) (token : Bytes) : Option ℕ :=
  (tq.inflight.find? fun lease ↦ lease.token = token).map Inflight.seq

def removeInflight (tq : TaskQueue) (seq : ℕ) : TaskQueue :=
  { tq with inflight := tq.inflight.filter (·.seq != seq) }

def removeAttempts (tq : TaskQueue) (seq : ℕ) : TaskQueue :=
  { tq with attempts := Function.update tq.attempts seq none }

/-- Acknowledge a dispatched task by token; the answer of the core queue is not looked at. -/
def ack (tq : TaskQueue) (q : Queue) (token : Bytes) : Bool × TaskQueue × Queue :=
  match tq.seqForToken token with
  | none => (false, tq, q)
  | some seq => (true, (tq.removeInflight seq).removeAttempts seq, (q.ack seq).2)

/-- Fail a dispatched task: it goes back to the core queue and keeps its attempts. -/
def nack (tq : TaskQueue) (q : Queue) (token : Bytes) : Bool × TaskQueue × Queue :=
  match tq.seqForToken token with
  | none => (false, tq, q)
  | some seq => ((q.nack seq).1, tq.removeInflight seq, (q.nack seq).2)

def expired (tq : TaskQueue) (now : ℕ) : List ℕ :=
  (tq.inflight.filter fun lease ↦ lease.expiresAt ≤ now).map Inflight.seq

/-- Return expired tasks to the core queue one after the other. -/
def sweep (tq : TaskQueue) (q : Queue) : List ℕ → TaskQueue × Queue
  | [] => (tq, q)
  | seq :: rest => sweep (tq.removeInflight seq) (q.nack seq).2 rest

section Spec

variable {tq : TaskQueue} {q : Queue} {ready : List QueueEntry} {e : QueueEntry}

theorem dispatch_nil (h : q.ready = []) (token : Bytes) (now : ℕ) :
    tq.dispatch q token now = (none, tq, q) := by
  rw [dispatch, Queue.dequeue_nil h]

theorem dispatch_cons (h : q.ready = e :: ready) (token : Bytes) (now : ℕ) :
    tq.dispatch q token now = (some ⟨token, e.payload, (tq.attempts e.seq).getD 0 + 1⟩, { tq with
          attempts := update tq.attempts e.seq (some ((tq.attempts e.seq).getD 0 + 1))
          inflight := ⟨e.seq, token, now + tq.visibility⟩ :: tq.inflight.filter (·.seq != e.seq) },
        { q with ready := ready, inflight := e :: q.inflight.filter (·.seq != e.seq) }) := by
  rw [dispatch, Queue.dequeue_cons h]

theorem seqForToken_dispatch (h : q.ready = e :: ready) (token : Bytes) (now : ℕ) :
    (tq.dispatch q token now).2.1.seqForToken token = some e.seq := by
  rw [dispatch_cons h, seqForToken]
  simp only [List.find?_cons, decide_true, map_some]

theorem dispatch_inner (tq : TaskQueue) (q : Queue) (token : Bytes) (now : ℕ) :
    (tq.dispatch q token now).2.1.inner = tq.inner := by
  rw [dispatch]
  rcases q.dequeue with ⟨_ | ⟨seq, payload⟩, q'⟩ <;> rfl

theorem dispatch_queue (tq : TaskQueue) (q : Queue) (token : Bytes) (now : ℕ) :
    (tq.dispatch q token now).2.2 = q.dequeue.2 := by
  rw [dispatch]
  rcases q.dequeue with ⟨_ | ⟨seq, payload⟩, q'⟩ <;> rfl

end Spec

end TaskQueue

/-- A routed queue with the labels of the tasks it delivers. -/
structure RoutedQueue where
  tq : TaskQueue
  taskQueue : String
  taskType : String

structure Task where
  taskToken : Bytes
  taskQueue : String
  taskType : String
  payload : Bytes
  attempt : ℕ
deriving DecidableEq, Repr

/-! ## The manager -/

/-- The tokens that were responded to less than the time to live ago. -/
def remembered (completed : Bytes → Option ℕ) (now : ℕ) (token : Bytes) : Option ℕ :=
  (completed token).filter fun t ↦ now - t < completedTtl

structure TaskQueueManager where
  core : SynapseCore
  queues : String → Option RoutedQueue
  /-- The routed queue a token belongs to. -/
  tokenIndex : Bytes → Option String
  /-- When each token was responded to. -/
  completed : Bytes → Option ℕ

namespace TaskQueueManager

def new (core : SynapseCore) : TaskQueueManager := ⟨core, fun _ ↦ none, fun _ ↦ none, fun _ ↦ none⟩

def queueKey (tenant taskQueue : String) (taskType : Option String) : String :=
  tenant ++ "|" ++ taskQueue ++ "|" ++ taskType.getD ""

def lookup (m : TaskQueueManager) (key : String) : Option (RoutedQueue × Queue) := do
  let rq ← m.queues key
  let q ← m.core.queues.object rq.tq.inner
  some (rq, q)

/-- The state after a method of a routed queue has returned. -/
def store (m : TaskQueueManager) (key : String) (rq : RoutedQueue) (tq : TaskQueue) (q : Queue) :
    TaskQueueManager :=
  { m with
    core := { m.core with queues := m.core.queues.write rq.tq.inner q }
    queues := Function.update m.queues key (some { rq with tq := tq }) }

/-- Enter a new routed queue over the core queue at an address. -/
def insert (m : TaskQueueManager) (core : SynapseCore) (key taskQueue : String)
    (taskType : Option String) (inner : ℕ) : TaskQueueManager :=
  { m with
    core := core
    queues := Function.update m.queues key
      (some ⟨.new inner defaultVisibility, taskQueue, taskType.getD ""⟩) }

/-- The routed queue is created if the manager does not know it, over the core queue of the same
name if there is one. -/
def getOrCreate (m : TaskQueueManager) (tenant taskQueue : String) (taskType : Option String) :
    WorkflowResult String × TaskQueueManager :=
  let key := queueKey tenant taskQueue taskType
  match m.queues key with
  | some _ => (.ok key, m)
  | none =>
    match m.core.getQueue tenant key with
    | .error e => (.error (.engine e), m)
    | .ok (some id) =>
      let core := { m.core with queues := m.core.queues.clone id }
      (.ok key, m.insert core key taskQueue taskType id)
    | .ok none =>
      match m.core.createQueue tenant key with
      | (.error e, core) => (.error (.engine e), { m with core := core })
      | (.ok id, core) => (.ok key, m.insert core key taskQueue taskType id)

/-- Enqueue a task, returning its sequence number; `wall` is the wall clock the log reads. -/
def addTask (m : TaskQueueManager) (tenant taskQueue : String) (taskType : Option String)
    (payload : Bytes) (visibility : Option ℕ) (wall : ℕ) : WorkflowResult ℕ × TaskQueueManager :=
  if taskQueue = "" then (.error (.invalidArgument "task_queue required"), m)
  else
    match m.getOrCreate tenant taskQueue taskType with
    | (.error e, m) => (.error e, m)
    | (.ok key, m) =>
      match m.lookup key with
      | none => (.error (.internal "dangling queue"), m)
      | some (rq, q) =>
        let tq := visibility.elim rq.tq rq.tq.setVisibility
        let (r, q, wal) := q.enqueue m.core.wal payload wall
        let m := { m with core := { m.core with wal := wal } }
        (r.mapError .engine, m.store key rq tq q)

/-- Dispatch the next ready task of a routed queue and register its token. -/
def take (m : TaskQueueManager) (key : String) (token : Bytes) (now : ℕ) :
    Option Task × TaskQueueManager :=
  match m.lookup key with
  | none => (none, m)
  | some (rq, q) =>
    match rq.tq.dispatch q token now with
    | (none, tq, q) => (none, m.store key rq tq q)
    | (some d, tq, q) =>
      (some ⟨d.token, rq.taskQueue, rq.taskType, d.payload, d.attempt⟩,
        { m.store key rq tq q with tokenIndex := Function.update m.tokenIndex d.token (some key) })

def poll (m : TaskQueueManager) (tenant taskQueue : String) (taskType : Option String)
    (token : Bytes) (now : ℕ) : WorkflowResult (Option Task) × TaskQueueManager :=
  if taskQueue = "" then (.error (.invalidArgument "task_queue required"), m)
  else
    match m.getOrCreate tenant taskQueue taskType with
    | (.error e, m) => (.error e, m)
    | (.ok key, m) =>
      let (task, m) := m.take key token now
      (.ok task, m)

def pruneCompleted (m : TaskQueueManager) (now : ℕ) : TaskQueueManager :=
  { m with completed := remembered m.completed now }

/-- The end of `respond`, on the routed queue of the token. -/
def settle (m : TaskQueueManager) (key : String) (rq : RoutedQueue) (q : Queue) (token : Bytes)
    (failed : Bool) (later : ℕ) : AckResult × TaskQueueManager :=
  let (ok, tq, q) := if failed then rq.tq.nack q token else rq.tq.ack q token
  let m := m.store key rq tq q
  if ok then
    (.accepted, { m with
      completed := Function.update m.completed token (some later)
      tokenIndex := Function.update m.tokenIndex token none })
  else (.unknown, m)

/-- Completion or failure by token; the clock is read for pruning and again for recording. -/
def respond (m : TaskQueueManager) (token : Bytes) (failed : Bool) (now later : ℕ) :
    AckResult × TaskQueueManager :=
  let m := m.pruneCompleted now
  if (m.completed token).isSome then (.duplicate, m)
  else
    match m.tokenIndex token with
    | none => (.unknown, m)
    | some key =>
      match m.lookup key with
      | none => (.unknown, m)
      | some (rq, q) => m.settle key rq q token failed later

def sweep (m : TaskQueueManager) (key : String) (order : List ℕ) : TaskQueueManager :=
  match m.lookup key with
  | none => m
  | some (rq, q) =>
    let (tq, q) := rq.tq.sweep q order
    m.store key rq tq q

/-! ## References -/

variable {m : TaskQueueManager} {key : String} {rq : RoutedQueue} {q : Queue}

theorem lookup_eq_some : m.lookup key = some (rq, q) ↔
      m.queues key = some rq ∧ m.core.queues.object rq.tq.inner = some q := by
  rw [lookup]
  constructor
  · intro h
    obtain ⟨rq', hrq, h⟩ := bind_eq_some_iff.mp h
    obtain ⟨q', hq, h⟩ := bind_eq_some_iff.mp h
    obtain ⟨rfl, rfl⟩ := h
    exact ⟨hrq, hq⟩
  · rintro ⟨hrq, hq⟩
    rw [hrq]
    change (m.core.queues.object rq.tq.inner).bind _ = _
    rw [hq]
    rfl

theorem queues_store (tq : TaskQueue) (key' : String) : (m.store key rq tq q).queues key' =
      if key' = key then some { rq with tq := tq } else m.queues key' :=
  update_apply ..

theorem queues_insert (core : SynapseCore) (taskQueue : String) (taskType : Option String)
    (inner : ℕ) (key' : String) :
    (m.insert core key taskQueue taskType inner).queues key' =
      if key' = key then some ⟨.new inner defaultVisibility, taskQueue, taskType.getD ""⟩
      else m.queues key' :=
  update_apply ..

theorem lookup_store {q' : Queue} (h : m.lookup key = some (rq, q)) {tq : TaskQueue}
    (htq : tq.inner = rq.tq.inner) :
    (m.store key rq tq q').lookup key = some ({ rq with tq := tq }, q') := by
  obtain ⟨hrq, hq⟩ := lookup_eq_some.mp h
  rw [lookup_eq_some, queues_store, if_pos rfl]
  refine ⟨rfl, ?_⟩
  change (m.core.queues.write rq.tq.inner q').object tq.inner = some q'
  rw [ArcTable.object_write, if_pos htq, hq, map_some]

/-- Find the routed queue, fail, or enter a new one over a core queue that was there or has just
been created. -/
theorem getOrCreate_cases (m : TaskQueueManager) (tenant taskQueue : String)
    (taskType : Option String) (hkey : queueKey tenant taskQueue taskType = key) :
    (∃ rq, m.queues key = some rq ∧ m.getOrCreate tenant taskQueue taskType = (.ok key, m)) ∨
    (∃ e core, m.queues key = none ∧
      m.getOrCreate tenant taskQueue taskType = (.error e, { m with core := core }) ∧
      core.queues = m.core.queues) ∨
    (∃ t id core, m.queues key = none ∧ TenantId.new tenant = .ok t ∧
      m.getOrCreate tenant taskQueue taskType =
        (.ok key, m.insert core key taskQueue taskType id) ∧ core.wal = m.core.wal ∧
      ((m.core.queues.table (t, key) = some id ∧ core.queues = m.core.queues.clone id) ∨
        (m.core.queues.table (t, key) = none ∧ id = m.core.queues.cells.length ∧
          core.queues = m.core.queues.push (t, key) ⟨key, t, [], [], 0⟩))) := by
  rw [getOrCreate, hkey]
  cases hrq : m.queues key with
  | some rq => exact .inl ⟨rq, rfl, rfl⟩
  | none =>
    refine .inr ?_
    cases hget : m.core.getQueue tenant key with
    | error e => exact .inl ⟨.engine e, m.core, rfl, rfl, rfl⟩
    | ok found =>
      obtain ⟨t, ht, hfnd⟩ := SynapseCore.getQueue_eq_ok.mp hget
      cases found with
      | some id => exact .inr ⟨t, id, _, rfl, ht, rfl, rfl, .inl ⟨hfnd, rfl⟩⟩
      | none =>
        dsimp only
        generalize hcr : m.core.createQueue tenant key = created
        obtain ⟨r, core⟩ := created
        cases r with
        | error e =>
          exact .inl ⟨.engine e, core, rfl, rfl, SynapseCore.createQueue_eq_error hcr⟩
        | ok id =>
          obtain ⟨t', ht', hid, hqs, hwal⟩ := SynapseCore.createQueue_eq_ok hcr
          obtain rfl : t = t' := Except.ok.inj (ht.symm.trans ht')
          exact .inr ⟨t, id, core, rfl, ht, rfl, hwal, .inr ⟨hfnd, hid, hqs⟩⟩

/-! ## On a routed queue that is there -/

theorem take_of_ready_nil (h : m.lookup key = some (rq, q)) (hrdy : q.ready = []) (token : Bytes)
    (now : ℕ) : m.take key token now = (none, m.store key rq rq.tq q) := by
  rw [take, h]
  dsimp only
  rw [TaskQueue.dispatch_nil hrdy]

theorem take_of_ready_cons (h : m.lookup key = some (rq, q)) {e : QueueEntry}
    {ready : List QueueEntry} (hrdy : q.ready = e :: ready) (token : Bytes) (now : ℕ) :
    m.take key token now =
      (some ⟨token, rq.taskQueue, rq.taskType, e.payload, (rq.tq.attempts e.seq).getD 0 + 1⟩,
        { m.store key rq (rq.tq.dispatch q token now).2.1 (rq.tq.dispatch q token now).2.2 with
          tokenIndex := update m.tokenIndex token (some key) }) := by
  rw [take, h]
  dsimp only
  rw [TaskQueue.dispatch_cons hrdy]

section Routed

variable {tenant taskQueue : String} {taskType : Option String}

theorem getOrCreate_of_lookup (hkey : queueKey tenant taskQueue taskType = key)
    (h : m.lookup key = some (rq, q)) :
    m.getOrCreate tenant taskQueue taskType = (.ok key, m) := by
  rw [getOrCreate, hkey, (lookup_eq_some.mp h).1]

section

variable (htaskQueue : taskQueue ≠ "") (hkey : queueKey tenant taskQueue taskType = key)
  (h : m.lookup key = some (rq, q))

include htaskQueue hkey h

theorem poll_of_lookup (token : Bytes) (now : ℕ) : m.poll tenant taskQueue taskType token now =
      (.ok (m.take key token now).1, (m.take key token now).2) := by
  rw [poll, if_neg htaskQueue, getOrCreate_of_lookup hkey h]

theorem addTask_of_lookup (payload : Bytes) (visibility : Option ℕ) (wall : ℕ) :
    m.addTask tenant taskQueue taskType payload visibility wall =
      ((q.enqueue m.core.wal payload wall).1.mapError .engine,
        store { m with core := { m.core with wal := (q.enqueue m.core.wal payload wall).2.2 } } key
          rq (visibility.elim rq.tq rq.tq.setVisibility)
          (q.enqueue m.core.wal payload wall).2.1) := by
  rw [addTask, if_neg htaskQueue, getOrCreate_of_lookup hkey h]
  dsimp only
  rw [h]

end

theorem elim_setVisibility_inner (tq : TaskQueue) (visibility : Option ℕ) :
    (visibility.elim tq tq.setVisibility).inner = tq.inner := by
  cases visibility <;> rfl

end Routed

/-! ## Responses -/

section Respond

variable {token : Bytes} {failed : Bool} {now later seq : ℕ}

theorem settle_of_no_lease (h : rq.tq.seqForToken token = none) :
    m.settle key rq q token failed later = (.unknown, m.store key rq rq.tq q) := by
  cases failed with
  | false => simp [settle, TaskQueue.ack, h]
  | true => simp [settle, TaskQueue.nack, h]

theorem settle_ack (h : rq.tq.seqForToken token = some seq) :
    m.settle key rq q token false later = (.accepted,
        { m.store key rq ((rq.tq.removeInflight seq).removeAttempts seq) (q.ack seq).2 with
          completed := update m.completed token (some later)
          tokenIndex := update m.tokenIndex token none }) := by
  simp only [settle, TaskQueue.ack, h]
  rfl

theorem settle_nack (h : rq.tq.seqForToken token = some seq) (hq : (q.nack seq).1 = true) :
    m.settle key rq q token true later = (.accepted,
        { m.store key rq (rq.tq.removeInflight seq) (q.nack seq).2 with
          completed := update m.completed token (some later)
          tokenIndex := update m.tokenIndex token none }) := by
  simp only [settle, TaskQueue.nack, h, hq]
  rfl

theorem respond_of_remembered (h : remembered m.completed now token ≠ none) :
    m.respond token failed now later = (.duplicate, m.pruneCompleted now) :=
  if_pos (isSome_iff_ne_none.mpr h)

variable (h : remembered m.completed now token = none)

include h

theorem respond_of_forgotten : m.respond token failed now later = match m.tokenIndex token with
      | none => (.unknown, m.pruneCompleted now)
      | some key =>
        match m.lookup key with
        | none => (.unknown, m.pruneCompleted now)
        | some (rq, q) => (m.pruneCompleted now).settle key rq q token failed later := by
  refine if_neg ?_
  change ¬(remembered m.completed now token).isSome = true
  rw [h]
  exact Bool.false_ne_true

theorem respond_of_not_registered
    (hidx : ∀ key, m.tokenIndex token = some key → m.lookup key = none) :
    m.respond token failed now later = (.unknown, m.pruneCompleted now) := by
  rw [respond_of_forgotten h]
  cases hkey : m.tokenIndex token with
  | none => rfl
  | some key =>
    dsimp only
    rw [hidx key hkey]

theorem respond_of_registered
    (hidx : m.tokenIndex token = some key) (hlook : m.lookup key = some (rq, q)) :
    m.respond token failed now later =
      (m.pruneCompleted now).settle key rq q token failed later := by
  rw [respond_of_forgotten h, hidx]
  dsimp only
  rw [hlook]

end Respond

end TaskQueueManager

end Workflow

end Synapse
