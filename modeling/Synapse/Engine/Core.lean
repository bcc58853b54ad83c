import Synapse.Engine.Primitives

/-!
# `SynapseCore`

The engine: one write-ahead log, the tenants, and the three primitives addressed by tenant and name.
Metrics, the event channel and the admin snapshot observe the engine and are left out.

## Handles

`create_log` and its siblings return an `Arc` and keep a clone in a table. A primitive is dropped,
and its count given back to the tenant, when neither the table nor any caller refers to it.
Creating a name again replaces the table's reference, while callers that hold the old object keep
using it. `ArcTable` therefore keeps every object created, addressed by the order of creation, with
the number of handles callers hold.
-/

namespace Synapse

abbrev Key := TenantId × String

/-- A `HashMap<Key, Arc<α>>` together with the objects and the handles held on them. -/
@[ext]
structure ArcTable (α : Type) where
  cells : List (α × ℕ)
  table : Key → Option ℕ
  live : ∀ key id, table key = some id → id < cells.length

namespace ArcTable

variable {α : Type}

def new : ArcTable α := ⟨[], fun _ ↦ none, by simp⟩

def object (a : ArcTable α) (id : ℕ) : Option α := a.cells[id]?.map Prod.fst

def handles (a : ArcTable α) (id : ℕ) : ℕ := (a.cells[id]?.map Prod.snd).getD 0

def held (a : ArcTable α) (id : ℕ) : Option α := if a.handles id = 0 then none else a.object id

def modify (a : ArcTable α) (id : ℕ) (f : α × ℕ → α × ℕ) : ArcTable α where
  cells := a.cells.modify id f
  table := a.table
  live := by simpa only [List.length_modify] using a.live

def clone (a : ArcTable α) (id : ℕ) : ArcTable α := a.modify id fun c ↦ (c.1, c.2 + 1)

/-- An operation through a handle or the table changes the object. -/
def write (a : ArcTable α) (id : ℕ) (x : α) : ArcTable α := a.modify id fun c ↦ (x, c.2)

/-- A new object under `key`, with one handle on it. -/
def push (a : ArcTable α) (key : Key) (x : α) : ArcTable α where
  cells := a.cells ++ [(x, 1)]
  table := Function.update a.table key (some a.cells.length)
  live := (Function.forall_update_iff a.table fun _ o ↦
      ∀ id, o = some id → id < (a.cells ++ [(x, 1)]).length).mpr
    ⟨fun id hid ↦ by simp [Option.some.inj hid.symm],
      fun k _ id hid ↦ (a.live k id hid).trans_le (by simp)⟩

/-- Store a new object under `key` and hand out a handle. The object there before is returned if
that was the last reference to it. -/
def insert (a : ArcTable α) (key : Key) (x : α) : ℕ × ArcTable α × Option α :=
  (a.cells.length, a.push key x,
    (a.table key).bind fun old ↦ if a.handles old = 0 then a.object old else none)

/-- A caller drops a handle. The object is returned if the table does not refer to it under its own
key. -/
def release (a : ArcTable α) (key : α → Key) (id : ℕ) : ArcTable α × Option α :=
  match a.held id with
  | none => (a, none)
  | some x =>
    (a.modify id fun c ↦ (c.1, c.2 - 1),
      if a.handles id = 1 ∧ a.table (key x) ≠ some id then some x else none)

variable (a : ArcTable α)

theorem object_modify_count (id : ℕ) (count : ℕ → ℕ) (k : ℕ) :
    (a.modify id fun c ↦ (c.1, count c.2)).object k = a.object k := by
  rw [object, modify, List.getElem?_modify]
  split_ifs <;> cases h : a.cells[k]? <;> simp [object, h]

theorem object_push_of_lt (key : Key) (x : α) {k : ℕ} (hk : k < a.cells.length) :
    (a.push key x).object k = a.object k := by
  rw [object, push, List.getElem?_append_left hk, object]

theorem object_push_self (key : Key) (x : α) : (a.push key x).object a.cells.length = some x := by
  simp [object, push]

theorem object_write (id : ℕ) (x : α) (k : ℕ) :
    (a.write id x).object k = if k = id then (a.object id).map fun _ ↦ x else a.object k := by
  rw [object, write, modify, List.getElem?_modify]
  split_ifs with h₁ h₂ h₂
  · rw [← h₁, object]
    cases a.cells[id]? <;> rfl
  · exact absurd h₁.symm h₂
  · exact absurd h₂.symm h₁
  · rw [object]
    cases a.cells[k]? <;> rfl

theorem write_self {a : ArcTable α} {id : ℕ} {x : α} (h : a.object id = some x) :
    a.write id x = a := by
  obtain ⟨c, hc, rfl⟩ := Option.map_eq_some_iff.mp h
  refine ArcTable.ext (List.ext_getElem? fun k ↦ ?_) rfl
  change (a.cells.modify id fun c' ↦ (c.1, c'.2))[k]? = a.cells[k]?
  rw [List.getElem?_modify]
  split_ifs with hk
  · rw [← hk, hc]
    rfl
  · exact Option.map_id'

end ArcTable

structure SynapseCore where
  tenants : TenantRegistry
  wal : TieredSegmentedLog
  logs : ArcTable Log
  queues : ArcTable Queue
  maps : ArcTable Map

def Log.key (log : Log) : Key := (log.tenant, log.name)

def Queue.key (q : Queue) : Key := (q.tenant, q.name)

def Map.key (m : Map) : Key := (m.tenant, m.name)

namespace SynapseCore

def withObjectStore (object : ObjectStore) : SynapseCore where
  tenants := .new
  wal := .new (SegmentedLog.new (64 * 1024 * 1024)) object
  logs := .new
  queues := .new
  maps := .new

/-- The body shared by `create_log`, `create_queue` and `create_map`: a missing tenant is created,
whatever happens next; the constructor charges it; the old object is dropped. -/
def createIn {α : Type} (create : Tenant → EngineResult (α × Tenant)) (release : Tenant → Tenant)
    (tenants : TenantRegistry) (objects : ArcTable α) (tenant name : String) :
    EngineResult ℕ × TenantRegistry × ArcTable α :=
  match TenantId.new tenant with
  | .error e => (.error e, tenants, objects)
  | .ok id =>
    let (t, tenants) := tenants.getOrCreate id
    match create t with
    | .error e => (.error e, tenants, objects)
    | .ok (x, t) =>
      let (handle, objects, dropped) := objects.insert (id, name) x
      (.ok handle, tenants.put (if dropped.isSome then release t else t), objects)

/-- The table lookup shared by `get_log`, `get_queue` and `get_map`. -/
def find {α : Type} (objects : ArcTable α) (tenant name : String) : EngineResult (Option ℕ) :=
  (TenantId.new tenant).map fun id ↦ objects.table (id, name)

def createLog (core : SynapseCore) (tenant name : String) : EngineResult ℕ × SynapseCore :=
  let (r, tenants, logs) :=
    createIn (Log.new name) Tenant.releaseLog core.tenants core.logs tenant name
  (r, { core with tenants := tenants, logs := logs })

def getLog (core : SynapseCore) (tenant name : String) : EngineResult (Option ℕ) :=
  find core.logs tenant name

def createQueue (core : SynapseCore) (tenant name : String) : EngineResult ℕ × SynapseCore :=
  let (r, tenants, queues) :=
    createIn (Queue.new name) Tenant.releaseQueue core.tenants core.queues tenant name
  (r, { core with tenants := tenants, queues := queues })

def getQueue (core : SynapseCore) (tenant name : String) : EngineResult (Option ℕ) :=
  find core.queues tenant name

def createMap (core : SynapseCore) (tenant name : String) : EngineResult ℕ × SynapseCore :=
  let (r, tenants, maps) :=
    createIn (Map.new name) Tenant.releaseMap core.tenants core.maps tenant name
  (r, { core with tenants := tenants, maps := maps })

def getMap (core : SynapseCore) (tenant name : String) : EngineResult (Option ℕ) :=
  find core.maps tenant name

def append (core : SynapseCore) (log : Log) (payload : Bytes) (now : ℕ) :
    EngineResult ℕ × SynapseCore :=
  let (r, wal, tenants) := log.append core.wal core.tenants payload now
  (r, { core with wal := wal, tenants := tenants })

def enqueue (core : SynapseCore) (id : ℕ) (q : Queue) (payload : Bytes) (now : ℕ) :
    EngineResult ℕ × SynapseCore :=
  let (r, q, wal) := q.enqueue core.wal payload now
  (r, { core with wal := wal, queues := core.queues.write id q })

def set (core : SynapseCore) (id : ℕ) (m : Map) (key : String) (value : Bytes) (ttl : Option ℕ)
    (now : ℕ) : EngineResult Unit × SynapseCore :=
  let (r, m, wal) := m.set core.wal key value ttl now
  (r, { core with wal := wal, maps := core.maps.write id m })

/-- The object a tenant and a name stand for, with its address. -/
def locate {α : Type} (objects : ArcTable α) (tenant name : String) :
    EngineResult (Option (ℕ × α)) :=
  (find objects tenant name).map fun id ↦ id.bind fun id ↦ (objects.object id).map (id, ·)

/-- The adapter-facing helpers find the primitive first; `kind` is its word in the error. -/
def withObject {α β : Type} (core : SynapseCore) (objects : ArcTable α) (kind : String)
    (tenant name : String) (act : ℕ → α → EngineResult β × SynapseCore) :
    EngineResult β × SynapseCore :=
  match locate objects tenant name with
  | .error e => (.error e, core)
  | .ok none => (.error (.notFound s!"{kind} {tenant}/{name}"), core)
  | .ok (some (id, x)) => act id x

def logAppend (core : SynapseCore) (tenant name : String) (payload : Bytes) (now : ℕ) :
    EngineResult ℕ × SynapseCore :=
  core.withObject core.logs "log" tenant name fun _ log ↦ core.append log payload now

def queueEnqueue (core : SynapseCore) (tenant name : String) (payload : Bytes) (now : ℕ) :
    EngineResult ℕ × SynapseCore :=
  core.withObject core.queues "queue" tenant name fun id q ↦ core.enqueue id q payload now

def mapSet (core : SynapseCore) (tenant name key : String) (value : Bytes) (ttl : Option ℕ)
    (now : ℕ) : EngineResult Unit × SynapseCore :=
  core.withObject core.maps "map" tenant name fun id m ↦ core.set id m key value ttl now

variable {name : String} {id : ℕ} {core' : SynapseCore}

variable {tenant : String} {core : SynapseCore}

theorem getQueue_eq_ok {r : Option ℕ} : core.getQueue tenant name = .ok r ↔
      ∃ t, TenantId.new tenant = .ok t ∧ core.queues.table (t, name) = r := by
  rw [getQueue, find]
  cases TenantId.new tenant with
  | error e => simp [Except.map]
  | ok t => simp [Except.map]

/-- A table entry always refers to an object. -/
theorem locate_of_find {α : Type} {objects : ArcTable α}
    (h : find objects tenant name = .ok (some id)) :
    ∃ x, objects.object id = some x ∧ locate objects tenant name = .ok (some (id, x)) := by
  have hlive : id < objects.cells.length := by
    rw [find] at h
    cases ht : TenantId.new tenant with
    | error e =>
      rw [ht] at h
      cases h
    | ok t =>
      rw [ht] at h
      exact objects.live (t, name) id (Except.ok.inj h)
  refine ⟨objects.cells[id].1, ?_, ?_⟩
  · rw [ArcTable.object, List.getElem?_eq_getElem hlive]
    rfl
  · rw [locate, h, Except.map, Option.bind_some, ArcTable.object, List.getElem?_eq_getElem hlive]
    rfl

theorem locate_push_self {α : Type} {objects : ArcTable α} {t : TenantId}
    (ht : TenantId.new tenant = .ok t) (x : α) :
    locate (objects.push (t, name) x) tenant name = .ok (some (objects.cells.length, x)) := by
  have htab : (objects.push (t, name) x).table (t, name) = some objects.cells.length :=
    Function.update_self _ _ _
  rw [locate, find, ht, Except.map, Except.map, htab, Option.bind_some, ArcTable.object_push_self]
  rfl

section CreateIn

variable {α : Type} {create : Tenant → EngineResult (α × Tenant)} {release : Tenant → Tenant}
  {tenants tenants' : TenantRegistry} {objects objects' : ArcTable α} {tenant name : String}

/-- A creation adds an object to the table, or is refused with the name's or the constructor's
error. -/
theorem createIn_cases {r : EngineResult ℕ}
    (h : createIn create release tenants objects tenant name = (r, tenants', objects')) :
    (∃ t x owner, TenantId.new tenant = .ok t ∧ create (tenants.deref t) = .ok (x, owner) ∧
        r = .ok objects.cells.length ∧ objects' = objects.push (t, name) x) ∨
      ∃ e, r = .error e ∧ (TenantId.new tenant = .error e ∨ ∃ t, create t = .error e) ∧
        objects' = objects := by
  rw [createIn] at h
  cases ht : TenantId.new tenant with
  | error e =>
    rw [ht] at h
    cases h
    exact .inr ⟨e, rfl, .inl rfl, rfl⟩
  | ok t =>
    rw [ht] at h
    cases hx : create (tenants.getOrCreate t).1 with
    | error e =>
      simp only [hx] at h
      cases h
      exact .inr ⟨e, rfl, .inr ⟨_, hx⟩, rfl⟩
    | ok made =>
      simp only [hx, ArcTable.insert] at h
      cases h
      exact .inl ⟨t, made.1, made.2, rfl, hx, rfl, rfl⟩

theorem createIn_eq_ok
    (h : createIn create release tenants objects tenant name = (.ok id, tenants', objects')) :
    ∃ t x owner, TenantId.new tenant = .ok t ∧ create (tenants.deref t) = .ok (x, owner) ∧
      id = objects.cells.length ∧ objects' = objects.push (t, name) x := by
  obtain ⟨t, x, owner, ht, hx, hid, hpush⟩ | ⟨e, ⟨⟩, -⟩ := createIn_cases h
  exact ⟨t, x, owner, ht, hx, Except.ok.inj hid, hpush⟩

theorem locate_of_createIn
    (h : createIn create release tenants objects tenant name = (.ok id, tenants', objects')) :
    ∃ x, locate objects' tenant name = .ok (some (id, x)) := by
  obtain ⟨t, x, -, ht, -, rfl, rfl⟩ := createIn_eq_ok h
  exact ⟨x, locate_push_self ht x⟩

end CreateIn

theorem locate_of_createLog (h : core.createLog tenant name = (.ok id, core')) :
    ∃ log, locate core'.logs tenant name = .ok (some (id, log)) := by
  obtain ⟨hid, rfl⟩ := Prod.mk.inj h
  exact locate_of_createIn (Prod.ext hid rfl)

/-- A queue that was created is empty and new in the table. -/
theorem createQueue_eq_ok (h : core.createQueue tenant name = (.ok id, core')) :
    ∃ t, TenantId.new tenant = .ok t ∧ id = core.queues.cells.length ∧
      core'.queues = core.queues.push (t, name) ⟨name, t, [], [], 0⟩ ∧ core'.wal = core.wal := by
  obtain ⟨hid, rfl⟩ := Prod.mk.inj h
  obtain ⟨t, q, owner, ht, hnew, hid, hqs⟩ := createIn_eq_ok (Prod.ext hid rfl)
  refine ⟨t, ht, hid, hqs.trans ?_, rfl⟩
  rw [Queue.eq_of_new hnew, core.tenants.deref_id t]

theorem createQueue_eq_error {e : EngineError}
    (h : core.createQueue tenant name = (.error e, core')) : core'.queues = core.queues := by
  obtain ⟨he, rfl⟩ := Prod.mk.inj h
  obtain ⟨-, -, -, -, -, hok, -⟩ | ⟨-, -, -, hqs⟩ := createIn_cases (Prod.ext he rfl)
  · cases hok
  · exact hqs

end SynapseCore

/-! ## Operations -/

/-- What callers do with an engine: by tenant and name, or through a handle they hold. -/
inductive EngineOp
  | createLog (tenant name : String)
  | createQueue (tenant name : String)
  | createMap (tenant name : String)
  | getLog (tenant name : String)
  | getQueue (tenant name : String)
  | getMap (tenant name : String)
  | logAppend (tenant name : String) (payload : Bytes) (now : ℕ)
  | queueEnqueue (tenant name : String) (payload : Bytes) (now : ℕ)
  | mapSet (tenant name key : String) (value : Bytes) (ttl : Option ℕ) (now : ℕ)
  | append (handle : ℕ) (payload : Bytes) (now : ℕ)
  | enqueue (handle : ℕ) (payload : Bytes) (now : ℕ)
  | dequeue (handle : ℕ)
  | ack (handle seq : ℕ)
  | nack (handle seq : ℕ)
  | set (handle : ℕ) (key : String) (value : Bytes) (ttl : Option ℕ) (now : ℕ)
  | get (handle : ℕ) (key : String) (now : ℕ)
  | delete (handle : ℕ) (key : String)
  | releaseLog (handle : ℕ)
  | releaseQueue (handle : ℕ)
  | releaseMap (handle : ℕ)
deriving DecidableEq, Repr

namespace SynapseCore

/-- A caller asks for a primitive and keeps the handle. -/
def take {α : Type} (objects : ArcTable α) : EngineResult (Option ℕ) → ArcTable α
  | .ok (some id) => objects.clone id
  | _ => objects

/-- The destructor of a dropped primitive gives its count back to the tenant. -/
def giveBack {α : Type} (tenants : TenantRegistry) (owner : α → TenantId)
    (release : Tenant → Tenant) : Option α → TenantRegistry
  | none => tenants
  | some x => tenants.put (release (tenants.deref (owner x)))

def onQueue (core : SynapseCore) (handle : ℕ) (f : Queue → Queue) : SynapseCore :=
  match core.queues.held handle with
  | none => core
  | some q => { core with queues := core.queues.write handle (f q) }

def onMap (core : SynapseCore) (handle : ℕ) (f : Map → Map) : SynapseCore :=
  match core.maps.held handle with
  | none => core
  | some m => { core with maps := core.maps.write handle (f m) }

/-- The state after one operation; an operation on a handle nobody holds does nothing. -/
def perform (core : SynapseCore) : EngineOp → SynapseCore
  | .createLog tenant name => (core.createLog tenant name).2
  | .createQueue tenant name => (core.createQueue tenant name).2
  | .createMap tenant name => (core.createMap tenant name).2
  | .getLog tenant name => { core with logs := take core.logs (core.getLog tenant name) }
  | .getQueue tenant name => { core with queues := take core.queues (core.getQueue tenant name) }
  | .getMap tenant name => { core with maps := take core.maps (core.getMap tenant name) }
  | .logAppend tenant name payload now => (core.logAppend tenant name payload now).2
  | .queueEnqueue tenant name payload now => (core.queueEnqueue tenant name payload now).2
  | .mapSet tenant name key value ttl now => (core.mapSet tenant name key value ttl now).2
  | .append handle payload now =>
    match core.logs.held handle with
    | none => core
    | some log => (core.append log payload now).2
  | .enqueue handle payload now =>
    match core.queues.held handle with
    | none => core
    | some q => (core.enqueue handle q payload now).2
  | .dequeue handle => core.onQueue handle fun q ↦ q.dequeue.2
  | .ack handle seq => core.onQueue handle fun q ↦ (q.ack seq).2
  | .nack handle seq => core.onQueue handle fun q ↦ (q.nack seq).2
  | .set handle key value ttl now =>
    match core.maps.held handle with
    | none => core
    | some m => (core.set handle m key value ttl now).2
  | .get handle key now => core.onMap handle fun m ↦ (m.get key now).2
  | .delete handle key => core.onMap handle fun m ↦ (m.delete key).2
  | .releaseLog handle =>
    let (logs, dropped) := core.logs.release Log.key handle
    { core with logs := logs, tenants := giveBack core.tenants Log.tenant .releaseLog dropped }
  | .releaseQueue handle =>
    let (queues, dropped) := core.queues.release Queue.key handle
    { core with
      queues := queues, tenants := giveBack core.tenants Queue.tenant .releaseQueue dropped }
  | .releaseMap handle =>
    let (maps, dropped) := core.maps.release Map.key handle
    { core with maps := maps, tenants := giveBack core.tenants Map.tenant .releaseMap dropped }

end SynapseCore

/-! ## What an operation writes to the shared log -/

inductive ResourceKind
  | log
  | queue
  | map
deriving DecidableEq, Repr

/-- The primitive whose write path an operation enters, and the payload it hands over: an append, an
enqueue or a set, with a non-empty key, on a primitive that exists. -/
def EngineOp.call (core : SynapseCore) : EngineOp → Option ((ResourceKind × Key) × Bytes)
  | .logAppend tenant name payload _ =>
    match SynapseCore.locate core.logs tenant name with
    | .ok (some (_, log)) => some ((.log, log.key), payload)
    | _ => none
  | .queueEnqueue tenant name payload _ =>
    match SynapseCore.locate core.queues tenant name with
    | .ok (some (_, q)) => some ((.queue, q.key), payload)
    | _ => none
  | .mapSet tenant name key value _ _ =>
    match SynapseCore.locate core.maps tenant name with
    | .ok (some (_, m)) => if key = "" then none else some ((.map, m.key), value)
    | _ => none
  | .append handle payload _ => (core.logs.held handle).map fun log ↦ ((.log, log.key), payload)
  | .enqueue handle payload _ => (core.queues.held handle).map fun q ↦ ((.queue, q.key), payload)
  | .set handle key value _ _ =>
    if key = "" then none else (core.maps.held handle).map fun m ↦ ((.map, m.key), value)
  | _ => none

/-- The operation creates or drops a primitive, which its tenant is charged for. -/
def EngineOp.accounts : EngineOp → Bool
  | .createLog .. | .createQueue .. | .createMap .. | .releaseLog _ | .releaseQueue _
  | .releaseMap _ => true
  | _ => false

namespace SynapseCore

variable (core : SynapseCore)

theorem append_wal (log : Log) (payload : Bytes) (now : ℕ) :
    (core.append log payload now).2.wal = (core.wal.append payload now).2 := by
  rw [SynapseCore.append, Log.append]
  rcases core.wal.append payload now with ⟨_ | offset, wal⟩
  · rfl
  · cases (core.tenants.deref log.tenant).chargeLogBytes payload.length <;> rfl

theorem enqueue_wal (id : ℕ) (q : Queue) (payload : Bytes) (now : ℕ) :
    (core.enqueue id q payload now).2.wal = (core.wal.append payload now).2 := by
  rw [SynapseCore.enqueue, Queue.enqueue]
  rcases core.wal.append payload now with ⟨_ | offset, wal⟩ <;> rfl

theorem set_wal (id : ℕ) (m : Map) (key : String) (value : Bytes) (ttl : Option ℕ) (now : ℕ) :
    (core.set id m key value ttl now).2.wal =
      if key = "" then core.wal else (core.wal.append value now).2 := by
  rw [SynapseCore.set, Map.set]
  split_ifs with hkey
  · rfl
  · rcases core.wal.append value now with ⟨_ | offset, wal⟩ <;> rfl

/-- **What an operation does.** It writes nothing, or appends through a log, or hands the payload of
its call to the shared log through a queue or a map. -/
theorem perform_cases (op : EngineOp) :
    (op.call core = none ∧ (core.perform op).wal = core.wal ∧
        (op.accounts ∨ (core.perform op).tenants = core.tenants)) ∨
      (∃ log payload now, op.call core = some ((.log, log.key), payload) ∧
        core.perform op = (core.append log payload now).2) ∨
      ∃ source payload now, op.call core = some (source, payload) ∧ source.1 ≠ .log ∧
        (core.perform op).wal = (core.wal.append payload now).2 ∧
        (core.perform op).tenants = core.tenants := by
  cases op with
  | createLog | createQueue | createMap | releaseLog | releaseQueue | releaseMap =>
    exact .inl ⟨rfl, rfl, .inl rfl⟩
  | getLog | getQueue | getMap => exact .inl ⟨rfl, rfl, .inr rfl⟩
  | dequeue | ack | nack =>
    rw [perform, onQueue]
    split <;> exact .inl ⟨rfl, rfl, .inr rfl⟩
  | get | delete =>
    rw [perform, onMap]
    split <;> exact .inl ⟨rfl, rfl, .inr rfl⟩
  | logAppend tenant name payload now =>
    simp only [EngineOp.call, perform, logAppend, withObject]
    rcases locate core.logs tenant name with _ | _ | ⟨id, log⟩
    · exact .inl ⟨rfl, rfl, .inr rfl⟩
    · exact .inl ⟨rfl, rfl, .inr rfl⟩
    · exact .inr (.inl ⟨log, payload, now, rfl, rfl⟩)
  | queueEnqueue tenant name payload now =>
    simp only [EngineOp.call, perform, queueEnqueue, withObject]
    rcases locate core.queues tenant name with _ | _ | ⟨id, q⟩
    · exact .inl ⟨rfl, rfl, .inr rfl⟩
    · exact .inl ⟨rfl, rfl, .inr rfl⟩
    · exact .inr (.inr ⟨_, _, now, rfl, nofun, core.enqueue_wal id q payload now, rfl⟩)
  | mapSet tenant name key value ttl now =>
    simp only [EngineOp.call, perform, mapSet, withObject]
    rcases locate core.maps tenant name with _ | _ | ⟨id, m⟩
    · exact .inl ⟨rfl, rfl, .inr rfl⟩
    · exact .inl ⟨rfl, rfl, .inr rfl⟩
    · simp only [set_wal]
      split_ifs with hkey
      · exact .inl ⟨rfl, rfl, .inr rfl⟩
      · exact .inr (.inr ⟨_, _, now, rfl, nofun, rfl, rfl⟩)
  | append handle payload now =>
    simp only [EngineOp.call, perform]
    cases core.logs.held handle with
    | none => exact .inl ⟨rfl, rfl, .inr rfl⟩
    | some log => exact .inr (.inl ⟨log, payload, now, rfl, rfl⟩)
  | enqueue handle payload now =>
    simp only [EngineOp.call, perform]
    cases core.queues.held handle with
    | none => exact .inl ⟨rfl, rfl, .inr rfl⟩
    | some q =>
      exact .inr (.inr ⟨_, _, now, rfl, nofun, core.enqueue_wal handle q payload now, rfl⟩)
  | set handle key value ttl now =>
    simp only [EngineOp.call, perform]
    cases core.maps.held handle with
    | none => exact .inl ⟨by split_ifs <;> rfl, rfl, .inr rfl⟩
    | some m =>
      simp only [set_wal]
      split_ifs with hkey
      · exact .inl ⟨rfl, rfl, .inr rfl⟩
      · exact .inr (.inr ⟨_, _, now, rfl, nofun, rfl, rfl⟩)

/-- An operation appends to the shared log exactly the payload of its call. -/
theorem perform_wal (op : EngineOp) : (op.call core = none ∧ (core.perform op).wal = core.wal) ∨
      ∃ source payload now, op.call core = some (source, payload) ∧
        (core.perform op).wal = (core.wal.append payload now).2 := by
  obtain ⟨hcall, hwal, -⟩ | ⟨log, payload, now, hcall, hperf⟩ |
    ⟨source, payload, now, hcall, -, hwal, -⟩ := core.perform_cases op
  · exact .inl ⟨hcall, hwal⟩
  · exact .inr ⟨_, payload, now, hcall, by rw [hperf, append_wal]⟩
  · exact .inr ⟨source, payload, now, hcall, hwal⟩

end SynapseCore

end Synapse
