import Mathlib.Data.Set.Defs
import Synapse.Workflow.Dispatch

/-!
# Isolation of task queues

A tenant, a task queue and a task type form a *route*. The manager addresses its queues by the three
strings joined with bars, and a bar may occur in the strings themselves: task queue `b|c` without a
type and task queue `b` with type `c|` have the same key. The tenant is validated, but only when a
routed queue is created; a key that is in the table is served for any tenant that joins to it.

`isolated_iff_separated` is about the runs that use a given set of routes. A task added under one
route is never returned to a poll on another exactly if no two of the routes, with non-empty task
queues, share a key that one of the routes is able to create.
-/

namespace Synapse.Workflow

open List Function Option

/-- Tenant, task queue and task type; no type is the empty type. -/
structure Route where
  tenant : String
  taskQueue : String
  taskType : String
deriving DecidableEq, Repr

def Route.key (r : Route) : String :=
  TaskQueueManager.queueKey r.tenant r.taskQueue (some r.taskType)

inductive RouteOp
  | addTask (tenant taskQueue : String) (taskType : Option String) (payload : Bytes)
      (visibility : Option ℕ) (wall : ℕ)
  | poll (tenant taskQueue : String) (taskType : Option String) (token : Bytes) (now : ℕ)
deriving DecidableEq, Repr

def RouteOp.route : RouteOp → Route
  | addTask tenant taskQueue taskType _ _ _ => ⟨tenant, taskQueue, taskType.getD ""⟩
  | poll tenant taskQueue taskType _ _ => ⟨tenant, taskQueue, taskType.getD ""⟩

/-- A task as a caller has seen it: the route of the call, and the core queue and the sequence
number that identify the task. -/
structure Seen where
  route : Route
  inner : ℕ
  seq : ℕ
deriving DecidableEq, Repr

/-- A manager with the tasks that were added and those that polls have returned. -/
structure RouteRun where
  manager : TaskQueueManager
  added : List Seen
  returned : List Seen

namespace TaskQueueManager

def inners (m : TaskQueueManager) (key : String) : Option ℕ := (m.queues key).map (·.tq.inner)

end TaskQueueManager

namespace RouteRun

open TaskQueueManager

def start (core : SynapseCore) : RouteRun := ⟨.new core, [], []⟩

def perform (s : RouteRun) (op : RouteOp) : RouteRun :=
  match op with
  | .addTask tenant taskQueue taskType payload visibility wall =>
    match s.manager.addTask tenant taskQueue taskType payload visibility wall with
    | (.ok seq, m) =>
      { s with
        manager := m
        added := s.added ++ ((m.inners op.route.key).map (⟨op.route, ·, seq⟩)).toList }
    | (.error _, m) => { s with manager := m }
  | .poll tenant taskQueue taskType token now =>
    match s.manager.poll tenant taskQueue taskType token now with
    | (.ok (some _), m) =>
      { s with
        manager := m
        returned := s.returned ++ ((m.queues op.route.key).bind fun rq ↦
          (rq.tq.seqForToken token).map (⟨op.route, rq.tq.inner, ·⟩)).toList }
    | (_, m) => { s with manager := m }

def run (s : RouteRun) (ops : List RouteOp) : RouteRun := ops.foldl perform s

/-- A task that was added under one route has not been returned to a poll on another. -/
def Isolated (s : RouteRun) : Prop :=
  ∀ a ∈ s.added, ∀ r ∈ s.returned, a.inner = r.inner → a.seq = r.seq → a.route = r.route

end RouteRun

def Route.Valid (r : Route) : Prop := ∃ id, TenantId.new r.tenant = .ok id

/-- Two routes that may be used have different keys, if one of the routes can create the key. -/
def Separated (routes : Set Route) : Prop :=
  ∀ r ∈ routes, ∀ r' ∈ routes, r.taskQueue ≠ "" → r'.taskQueue ≠ "" → r.key = r'.key →
    (∃ c ∈ routes, c.taskQueue ≠ "" ∧ c.key = r.key ∧ c.Valid) → r = r'

/-! ## What the operations do to the table -/

variable {taskType : Option String} {core : SynapseCore} {t : TenantId}

namespace TaskQueueManager

variable {m m' : TaskQueueManager} {key : String} {id : ℕ}

theorem inners_insert (core : SynapseCore) (key taskQueue : String) (taskType : Option String)
    (inner : ℕ) :
    (m.insert core key taskQueue taskType inner).inners = update m.inners key (some inner) := by
  funext key'
  rw [inners, queues_insert, update_apply]
  split_ifs
  · rfl
  · rfl

/-- Routed queues are registered in the core under their key, and no two names stand for one core
queue. -/
structure Bound (m : TaskQueueManager) : Prop where
  entry : ∀ key id, m.inners key = some id → ∃ t, m.core.queues.table (t, key) = some id
  inj : ∀ k k' id, m.core.queues.table k = some id → m.core.queues.table k' = some id → k = k'

theorem Bound.inners_inj (h : m.Bound) {key' : String} (hkey : m.inners key = some id)
    (hkey' : m.inners key' = some id) : key = key' := by
  obtain ⟨t, ht⟩ := h.entry key id hkey
  obtain ⟨t', ht'⟩ := h.entry key' id hkey'
  exact (Prod.mk.inj (h.inj _ _ _ ht ht')).2

theorem Bound.of_eq (h : m.Bound) (hinners : m'.inners = m.inners)
    (htab : m'.core.queues.table = m.core.queues.table) : m'.Bound where
  entry := by
    rw [hinners, htab]
    exact h.entry
  inj := by
    rw [htab]
    exact h.inj

theorem Bound.insert (h : m.Bound) {taskQueue : String}
    (htab : ∀ k, core.queues.table k = if k = (t, key) then some id else m.core.queues.table k)
    (hfr : ∀ k, m.core.queues.table k = some id → k = (t, key)) :
    (m.insert core key taskQueue taskType id).Bound where
  entry := by
    intro key' id' hent
    change ∃ t', core.queues.table (t', key') = some id'
    rw [inners_insert, update_apply] at hent
    split_ifs at hent with hkey
    · refine ⟨t, ?_⟩
      rw [htab, if_pos (by rw [hkey]), hent]
    · obtain ⟨t', ht'⟩ := h.entry key' id' hent
      refine ⟨t', ?_⟩
      rw [htab, if_neg fun heq ↦ hkey (Prod.mk.inj heq).2, ht']
  inj := by
    intro k k' id' hk hk'
    change core.queues.table k = some id' at hk
    change core.queues.table k' = some id' at hk'
    rw [htab] at hk hk'
    split_ifs at hk hk' with h₁ h₂ h₂
    · exact h₁.trans h₂.symm
    · exact absurd (hfr k' (hk'.trans hk.symm)) h₂
    · exact absurd (hfr k (hk.trans hk'.symm)) h₁
    · exact h.inj k k' id' hk hk'

section GetOrCreate

variable {tenant taskQueue key : String} {taskType : Option String} {id : ℕ}

theorem Bound.getOrCreate (h : m.Bound) : (m.getOrCreate tenant taskQueue taskType).2.Bound := by
  obtain ⟨rq, -, heq⟩ | ⟨e, core, -, heq, hqs⟩ | ⟨t, id, core, -, -, heq, -, hid⟩ :=
    m.getOrCreate_cases tenant taskQueue taskType rfl
  · rwa [heq]
  · rw [heq]
    refine h.of_eq rfl ?_
    rw [hqs]
  rw [heq]
  rcases hid with ⟨hfnd, hqs⟩ | ⟨hfnd, hid, hqs⟩
  · refine h.insert (t := t) ?_ ?_
    · intro k
      rw [hqs]
      change m.core.queues.table k = _
      split_ifs with hk
      · rw [hk, hfnd]
      · rfl
    · exact fun k hk ↦ h.inj _ _ _ hk hfnd
  · refine h.insert (t := t) ?_ ?_
    · intro k
      rw [hqs, hid]
      exact update_apply ..
    · intro k hk
      exact absurd (m.core.queues.live k id hk) (by omega)

/-- The table stays as it is, or gets an entry under the new key of a tenant the core accepts. -/
theorem inners_getOrCreate (m : TaskQueueManager) (tenant taskQueue : String)
    (taskType : Option String) : (m.getOrCreate tenant taskQueue taskType).2.inners = m.inners ∨
      ∃ id t, m.inners (queueKey tenant taskQueue taskType) = none ∧ TenantId.new tenant = .ok t ∧
        (m.getOrCreate tenant taskQueue taskType).2.inners =
          update m.inners (queueKey tenant taskQueue taskType) (some id) := by
  obtain ⟨rq, -, heq⟩ | ⟨e, core, -, heq, -⟩ | ⟨t, id, core, hnone, ht, heq, -⟩ :=
    m.getOrCreate_cases tenant taskQueue taskType rfl
  · exact .inl (by rw [heq])
  · exact .inl (by rw [heq]; rfl)
  · exact .inr ⟨id, t, by rw [inners, hnone, map_none], ht, by rw [heq, inners_insert]⟩

/-- Same routing: the same core queue behind every key, registered in the same way. -/
def SameRouting (m m' : TaskQueueManager) : Prop :=
  m'.inners = m.inners ∧ m'.core.queues.table = m.core.queues.table

theorem sameRouting_store {rq : RoutedQueue} (hrq : m.queues key = some rq) {tq : TaskQueue}
    (htq : tq.inner = rq.tq.inner) (q : Queue) : SameRouting m (m.store key rq tq q) := by
  refine ⟨funext fun key' ↦ ?_, rfl⟩
  rw [inners, inners, queues_store]
  split_ifs with hkey
  · rw [hkey, hrq, map_some, map_some, htq]
  · rfl

theorem sameRouting_take (m : TaskQueueManager) (key : String) (token : Bytes) (now : ℕ) :
    SameRouting m (m.take key token now).2 := by
  rw [take]
  cases hlook : m.lookup key with
  | none => exact ⟨rfl, rfl⟩
  | some found =>
    obtain ⟨rq, q⟩ := found
    have hrq := (lookup_eq_some.mp hlook).1
    have hinn := rq.tq.dispatch_inner q token now
    dsimp only
    generalize rq.tq.dispatch q token now = d at hinn ⊢
    obtain ⟨_ | d, tq, q'⟩ := d
    · exact sameRouting_store hrq hinn q'
    · exact sameRouting_store hrq hinn q'

variable (m : TaskQueueManager) (tenant : String) (htaskQueue : taskQueue ≠ "")
  (taskType : Option String)

include htaskQueue

/-- An addition has the routing that `get_or_create` leaves. -/
theorem sameRouting_addTask (payload : Bytes) (visibility : Option ℕ) (wall : ℕ) :
    SameRouting (m.getOrCreate tenant taskQueue taskType).2
      (m.addTask tenant taskQueue taskType payload visibility wall).2 := by
  rw [addTask, if_neg htaskQueue]
  generalize m.getOrCreate tenant taskQueue taskType = g
  obtain ⟨e | key, m⟩ := g
  · exact ⟨rfl, rfl⟩
  dsimp only
  cases hlook : m.lookup key with
  | none => exact ⟨rfl, rfl⟩
  | some found =>
    obtain ⟨rq, q⟩ := found
    have hrq := (lookup_eq_some.mp hlook).1
    exact sameRouting_store hrq (elim_setVisibility_inner rq.tq visibility) _

theorem sameRouting_poll (token : Bytes) (now : ℕ) :
    SameRouting (m.getOrCreate tenant taskQueue taskType).2
      (m.poll tenant taskQueue taskType token now).2 := by
  rw [poll, if_neg htaskQueue]
  generalize m.getOrCreate tenant taskQueue taskType = g
  obtain ⟨e | key, m⟩ := g
  · exact ⟨rfl, rfl⟩
  · exact sameRouting_take m key token now

end GetOrCreate

end TaskQueueManager

/-! ## Separated routes are isolated -/

namespace RouteRun

open TaskQueueManager

/-- A caller on one of the routes saw a task of the core queue behind its key. -/
def Placed (routes : Set Route) (m : TaskQueueManager) (x : Seen) : Prop :=
  x.route ∈ routes ∧ x.route.taskQueue ≠ "" ∧ m.inners x.route.key = some x.inner

structure Inv (routes : Set Route) (s : RouteRun) : Prop where
  bound : s.manager.Bound
  created : ∀ key id, s.manager.inners key = some id →
    ∃ c ∈ routes, c.taskQueue ≠ "" ∧ c.key = key ∧ c.Valid
  added : ∀ x ∈ s.added, Placed routes s.manager x
  returned : ∀ x ∈ s.returned, Placed routes s.manager x

variable {routes : Set Route} {s : RouteRun}

/-- The routing after `get_or_create` on one of the routes. -/
theorem Inv.advance (h : s.Inv routes) {r : Route} (hr : r ∈ routes) (htaskQueue : r.taskQueue ≠ "")
    (htype : taskType.getD "" = r.taskType) {m : TaskQueueManager}
    (hm : SameRouting (s.manager.getOrCreate r.tenant r.taskQueue taskType).2 m) :
    Inv routes { s with manager := m } := by
  obtain ⟨hinners, htab⟩ := hm
  have hkey : queueKey r.tenant r.taskQueue taskType = r.key := by
    rw [Route.key, queueKey, queueKey, htype]
    rfl
  have hcreated := s.manager.inners_getOrCreate r.tenant r.taskQueue taskType
  rw [← hinners, hkey] at hcreated
  have hplaced {x : Seen} (hx : Placed routes s.manager x) : Placed routes m x := by
    refine ⟨hx.1, hx.2.1, ?_⟩
    obtain hsame | ⟨id, t, hnone, -, hupd⟩ := hcreated
    · rw [hsame, hx.2.2]
    · rw [hupd, update_of_ne (fun heq ↦ ?_), hx.2.2]
      rw [← heq, hx.2.2] at hnone
      cases hnone
  refine ⟨h.bound.getOrCreate.of_eq hinners htab, ?_, fun x hx ↦ hplaced (h.added x hx),
    fun x hx ↦ hplaced (h.returned x hx)⟩
  intro key id hid
  change m.inners key = some id at hid
  obtain hsame | ⟨id, t, -, ht, hupd⟩ := hcreated
  · exact h.created key id (hsame ▸ hid)
  rw [hupd, update_apply] at hid
  split_ifs at hid with heq
  · exact ⟨r, hr, htaskQueue, heq.symm, t, ht⟩
  · exact h.created key _ hid

theorem Inv.perform (h : s.Inv routes) {op : RouteOp} (hop : op.route ∈ routes) :
    (s.perform op).Inv routes := by
  cases op with
  | addTask tenant taskQueue taskType payload visibility wall =>
    by_cases htaskQueue : taskQueue = ""
    · rwa [RouteRun.perform, addTask, if_pos htaskQueue]
    have hadv := h.advance hop htaskQueue rfl
      (sameRouting_addTask s.manager tenant htaskQueue taskType payload visibility wall)
    rw [RouteRun.perform]
    generalize s.manager.addTask tenant taskQueue taskType payload visibility wall = result
      at hadv ⊢
    obtain ⟨e | seq, m⟩ := result
    · exact hadv
    · refine { hadv with added := fun x hx ↦ (mem_append.mp hx).elim (hadv.added x) fun hx ↦ ?_ }
      obtain ⟨id, hid, rfl⟩ := map_eq_some_iff.mp (mem_toList.mp hx)
      exact ⟨hop, htaskQueue, hid⟩
  | poll tenant taskQueue taskType token now =>
    by_cases htaskQueue : taskQueue = ""
    · rwa [RouteRun.perform, poll, if_pos htaskQueue]
    have hadv := h.advance hop htaskQueue rfl
      (sameRouting_poll s.manager tenant htaskQueue taskType token now)
    rw [RouteRun.perform]
    generalize s.manager.poll tenant taskQueue taskType token now = result at hadv ⊢
    obtain ⟨e | _ | task, m⟩ := result
    · exact hadv
    · exact hadv
    refine { hadv with returned := fun x hx ↦
      (mem_append.mp hx).elim (hadv.returned x) fun hx ↦ ?_ }
    obtain ⟨rq, hrq, hx⟩ := bind_eq_some_iff.mp (mem_toList.mp hx)
    obtain ⟨seq, -, rfl⟩ := map_eq_some_iff.mp hx
    refine ⟨hop, htaskQueue, ?_⟩
    change m.inners _ = some rq.tq.inner
    rw [inners, hrq, map_some]

theorem Inv.run (h : s.Inv routes) {ops : List RouteOp} (hops : ∀ op ∈ ops, op.route ∈ routes) :
    (s.run ops).Inv routes := by
  induction ops generalizing s with
  | nil => exact h
  | cons op ops ih =>
    exact ih (h.perform (hops op mem_cons_self)) fun op' hop' ↦ hops op' (mem_cons_of_mem op hop')

theorem inv_start
    (hinj : ∀ k k' id, core.queues.table k = some id → core.queues.table k' = some id → k = k') :
    (start core).Inv routes where
  bound := ⟨(fun _ _ hid ↦ nomatch hid), hinj⟩
  created := fun _ _ hid ↦ nomatch hid
  added := by simp [start]
  returned := by simp [start]

theorem Inv.isolated (h : s.Inv routes) (hsep : Separated routes) : s.Isolated := by
  intro a ha r hr hinn _
  obtain ⟨haroute, haqueue, hakey⟩ := h.added a ha
  obtain ⟨hrroute, hrqueue, hrkey⟩ := h.returned r hr
  rw [← hinn] at hrkey
  exact hsep _ haroute _ hrroute haqueue hrqueue (h.bound.inners_inj hakey hrkey)
    (h.created _ _ hakey)

end RouteRun

/-! ## Routes that share a key -/

theorem createQueue_withObjectStore (object : ObjectStore) {tenant name : String}
    (ht : TenantId.new tenant = .ok t) (hname : name ≠ "") :
    ((SynapseCore.withObjectStore object).createQueue tenant name).1 = .ok 0 := by
  rw [SynapseCore.createQueue, SynapseCore.createIn, ht]
  simp only [TenantRegistry.getOrCreate, SynapseCore.withObjectStore, TenantRegistry.new, Queue.new,
    hname, Tenant.chargeQueue, Tenant.chargeCount, Tenant.new]
  rfl

namespace TaskQueueManager

theorem queueKey_ne_empty (tenant taskQueue : String) (taskType : Option String) :
    queueKey tenant taskQueue taskType ≠ "" := by
  intro h
  have hchars := congrArg String.toList h
  simp [queueKey] at hchars

/-- A route with a valid tenant gets a new, empty core queue from a manager over an empty core. -/
theorem getOrCreate_new (object : ObjectStore) {tenant : String} (taskQueue : String)
    (taskType : Option String) (ht : TenantId.new tenant = .ok t) :
    ∃ m rq q, (new (.withObjectStore object)).getOrCreate tenant taskQueue taskType =
        (.ok (queueKey tenant taskQueue taskType), m) ∧
      m.lookup (queueKey tenant taskQueue taskType) = some (rq, q) ∧ q.ready = [] := by
  obtain ⟨rq, hrq, -⟩ | ⟨e, core, -, heq, -⟩ | ⟨t', id, core, -, -, heq, -, hid⟩ :=
    (new (.withObjectStore object)).getOrCreate_cases tenant taskQueue taskType rfl
  · cases hrq
  · have hcr := createQueue_withObjectStore object ht (queueKey_ne_empty tenant taskQueue taskType)
    have hget : (SynapseCore.withObjectStore object).getQueue tenant
        (queueKey tenant taskQueue taskType) = .ok none :=
      SynapseCore.getQueue_eq_ok.mpr ⟨t, ht, rfl⟩
    rw [getOrCreate] at heq
    simp only [new, hget] at heq
    generalize (SynapseCore.withObjectStore object).createQueue tenant
      (queueKey tenant taskQueue taskType) = created at hcr heq
    obtain ⟨r, core'⟩ := created
    obtain rfl : r = .ok 0 := hcr
    cases (Prod.mk.inj heq).1
  · rcases hid with ⟨hfnd, -⟩ | ⟨-, hid, hqs⟩
    · cases hfnd
    refine ⟨_, ⟨.new id defaultVisibility, taskQueue, taskType.getD ""⟩,
      ⟨queueKey tenant taskQueue taskType, t', [], [], 0⟩, heq, ?_, rfl⟩
    rw [lookup_eq_some, queues_insert, if_pos rfl]
    refine ⟨rfl, ?_⟩
    change core.queues.object id = _
    rw [hqs, hid, ArcTable.object_push_self]

end TaskQueueManager

namespace RouteRun

open TaskQueueManager

variable {payload : Bytes} {s : RouteRun} {r : Route} {rq : RoutedQueue} {q : Queue}

theorem perform_addTask (hr : r.taskQueue ≠ "") (h : s.manager.lookup r.key = some (rq, q))
    (hpay : payload ≠ []) :
    ∃ m, s.perform (.addTask r.tenant r.taskQueue (some r.taskType) payload none 0) =
        { s with manager := m, added := s.added ++ [⟨r, rq.tq.inner, q.seq⟩] } ∧
      m.lookup r.key = some (rq, q.push payload) := by
  have hadd := addTask_of_lookup hr rfl h payload none 0
  rw [Queue.enqueue_of_ne_nil hpay] at hadd
  set m := store { s.manager with core := { s.manager.core with
    wal := (s.manager.core.wal.append payload 0).2 } } r.key rq rq.tq (q.push payload)
  have hlook : m.lookup r.key = some (rq, q.push payload) := lookup_store h rfl
  have hinners : m.inners r.key = some rq.tq.inner := by
    rw [inners, (lookup_eq_some.mp hlook).1, map_some]
  refine ⟨m, ?_, hlook⟩
  rw [perform, hadd]
  change RouteRun.mk m (s.added ++ ((m.inners r.key).map _).toList) s.returned = _
  rw [hinners]
  rfl

theorem perform_poll (hr : r.taskQueue ≠ "") (h : s.manager.lookup r.key = some (rq, q))
    {e : QueueEntry} {ready : List QueueEntry} (hrdy : q.ready = e :: ready) (token : Bytes) :
    ∃ m, s.perform (.poll r.tenant r.taskQueue (some r.taskType) token 0) =
      { s with manager := m, returned := s.returned ++ [⟨r, rq.tq.inner, e.seq⟩] } := by
  have hrou : queueKey r.tenant r.taskQueue (some r.taskType) = r.key := rfl
  have hpoll := poll_of_lookup hr hrou h token 0
  rw [take_of_ready_cons h hrdy] at hpoll
  rw [perform, hpoll]
  refine ⟨_, congrArg (fun x ↦ RouteRun.mk _ s.added (s.returned ++ x)) ?_⟩
  have hkey : (RouteOp.poll r.tenant r.taskQueue (some r.taskType) token 0).route.key = r.key := rfl
  simp only [hkey, queues_store, if_pos, bind_some, TaskQueue.seqForToken_dispatch hrdy,
    TaskQueue.dispatch_inner, map_some, toList_some]
  rfl

/-- **A shared key is a leak.** If one route can create the key of two others, then a task added
under the first of them is returned to a poll on the second. -/
theorem exists_leak (object : ObjectStore) {r' c : Route} (hr : r.taskQueue ≠ "")
    (hr' : r'.taskQueue ≠ "") (hc : c.taskQueue ≠ "") (hkey : r.key = c.key)
    (hkey' : r'.key = c.key) (hval : c.Valid) :
    ∃ ops, (∀ op ∈ ops, op.route = c ∨ op.route = r ∨ op.route = r') ∧
      ∃ inner seq, ⟨r, inner, seq⟩ ∈ ((start (.withObjectStore object)).run ops).added ∧
        ⟨r', inner, seq⟩ ∈ ((start (.withObjectStore object)).run ops).returned := by
  obtain ⟨t, ht⟩ := hval
  obtain ⟨m₀, rq, q, hcr, hlook, hrdy⟩ := getOrCreate_new object c.taskQueue (some c.taskType) ht
  have hfst : (start (.withObjectStore object)).perform
      (.poll c.tenant c.taskQueue (some c.taskType) [] 0) =
        ⟨m₀.store c.key rq rq.tq q, [], []⟩ := by
    have hpoll : (new (.withObjectStore object)).poll c.tenant c.taskQueue (some c.taskType) [] 0 =
        (.ok none, m₀.store c.key rq rq.tq q) := by
      rw [poll, if_neg hc, hcr]
      dsimp only
      rw [take_of_ready_nil hlook hrdy]
      rfl
    rw [perform, start, hpoll]
  have hlook₁ : (m₀.store c.key rq rq.tq q).lookup r.key = some (rq, q) := by
    rw [hkey]
    exact lookup_store hlook rfl
  obtain ⟨m₂, hadd, hlook₂⟩ :=
    perform_addTask (s := ⟨m₀.store c.key rq rq.tq q, [], []⟩) hr hlook₁ (cons_ne_nil 1 [])
  rw [hkey, ← hkey'] at hlook₂
  have hrdy₂ : q.ready ++ [⟨q.seq, [1]⟩] = [⟨q.seq, [1]⟩] := by rw [hrdy, nil_append]
  obtain ⟨m₃, hpoll⟩ :=
    perform_poll (s := ⟨m₂, [] ++ [⟨r, rq.tq.inner, q.seq⟩], []⟩) hr' hlook₂ hrdy₂ []
  refine ⟨[.poll c.tenant c.taskQueue (some c.taskType) [] 0,
    .addTask r.tenant r.taskQueue (some r.taskType) [1] none 0,
    .poll r'.tenant r'.taskQueue (some r'.taskType) [] 0], ?_, rq.tq.inner, q.seq, ?_⟩
  · simp [RouteOp.route]
  rw [run, foldl_cons, hfst, foldl_cons, hadd, foldl_cons, hpoll, foldl_nil]
  exact ⟨mem_singleton.mpr rfl, mem_singleton.mpr rfl⟩

/-- **When task queues are isolated.** In every run over a core that has no two names for one queue,
with operations on the given routes only, no task is returned to a poll on another route, if and
only if the routes are separated. -/
theorem isolated_iff_separated (routes : Set Route) : (∀ core : SynapseCore,
      (∀ k k' id, core.queues.table k = some id → core.queues.table k' = some id → k = k') →
      ∀ ops : List RouteOp, (∀ op ∈ ops, op.route ∈ routes) → ((start core).run ops).Isolated) ↔
      Separated routes := by
  constructor
  · rintro hisolated r hr r' hr' hqueue hqueue' hkey ⟨c, hc, hcqueue, hckey, hvalid⟩
    obtain ⟨ops, hops, inner, seq, hadded, hreturned⟩ :=
      exists_leak .empty hqueue hqueue' hcqueue hckey.symm (hkey.symm.trans hckey.symm) hvalid
    have hroutes : ∀ op ∈ ops, op.route ∈ routes := by
      intro op hop
      rcases hops op hop with h | h | h
      · exact h ▸ hc
      · exact h ▸ hr
      · exact h ▸ hr'
    refine hisolated _ ?_ ops hroutes _ hadded _ hreturned rfl rfl
    intro k k' id hid
    cases hid
  · intro hseparated core hinj ops hops
    exact ((inv_start hinj).run hops).isolated hseparated

/-- Task queue `b|c` without a type and task queue `b` with type `c|` share the key `a|b|c|`. -/
theorem joined_key_leaks : ¬((start (.withObjectStore .empty)).run
      [.addTask "a" "b|c" none [1] none 0, .poll "a" "b" (some "c|") [9] 0]).Isolated := by
  intro hisolated
  have hroute := hisolated ⟨⟨"a", "b|c", ""⟩, 0, 0⟩ (by decide +kernel) ⟨⟨"a", "b", "c|"⟩, 0, 0⟩
    (by decide +kernel) rfl rfl
  exact absurd hroute (by decide)

end RouteRun

end Synapse.Workflow
