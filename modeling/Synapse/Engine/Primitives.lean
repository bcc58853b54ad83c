import Synapse.Engine.Tenant
import Synapse.Storage.Tiered

/-!
# The three primitives

`Log`, `Queue` and `Map` share one write-ahead log. A log has no contents of its own: it reads the
shared log. A queue and a map write the payload to the shared log first and then to their in-memory
index. Each operation takes the storage and the tenant accounting it shares with the other
primitives and returns them; `now` is the wall clock in milliseconds.
-/

namespace Synapse

/-! ## Log -/

structure Log where
  name : String
  tenant : TenantId
deriving DecidableEq, Repr

namespace Log

def new (name : String) (t : Tenant) : EngineResult (Log × Tenant) :=
  if name = "" then .error (.invalidArgument "log name required")
  else t.chargeLog.map fun t ↦ (⟨name, t.id⟩, t)

/-- Append a payload, returning its global offset. The bytes are charged after they are stored, and
a refused charge does not take them back. -/
def append (log : Log) (storage : TieredSegmentedLog) (tenants : TenantRegistry) (payload : Bytes)
    (now : ℕ) : EngineResult ℕ × TieredSegmentedLog × TenantRegistry :=
  match storage.append payload now with
  | (.error e, storage) => (.error e, storage, tenants)
  | (.ok offset, storage) =>
    match (tenants.deref log.tenant).chargeLogBytes payload.length with
    | .error e => (.error e, storage, tenants)
    | .ok t => (.ok offset, storage, tenants.put t)

def read (_log : Log) (storage : TieredSegmentedLog) (fromOffset maxRecords : ℕ) :
    EngineResult (List Record) :=
  storage.read fromOffset maxRecords

end Log

/-! ## Queue -/

structure QueueEntry where
  seq : ℕ
  payload : Bytes
deriving DecidableEq, Repr

/-- A FIFO work queue; the in-flight messages are keyed by their sequence number. -/
structure Queue where
  name : String
  tenant : TenantId
  ready : List QueueEntry
  inflight : List QueueEntry
  seq : ℕ
deriving DecidableEq, Repr

namespace Queue

def new (name : String) (t : Tenant) : EngineResult (Queue × Tenant) :=
  if name = "" then .error (.invalidArgument "queue name required")
  else t.chargeQueue.map fun t ↦ (⟨name, t.id, [], [], 0⟩, t)

theorem eq_of_new {name : String} {t owner : Tenant} {q : Queue}
    (h : new name t = .ok (q, owner)) : q = ⟨name, t.id, [], [], 0⟩ := by
  rw [new, Tenant.chargeQueue, Tenant.chargeCount] at h
  split_ifs at h <;> cases h
  rfl

theorem new_error_iff {name : String} {t : Tenant} :
    (∃ e, new name t = .error e) ↔ name = "" ∨ t.quota.maxQueues ≤ t.usedQueues := by
  rw [new, Tenant.chargeQueue, Tenant.chargeCount]
  split_ifs <;> simp_all [Except.map]

def enqueue (q : Queue) (wal : TieredSegmentedLog) (payload : Bytes) (now : ℕ) :
    EngineResult ℕ × Queue × TieredSegmentedLog :=
  match wal.append payload now with
  | (.error e, wal) => (.error e, q, wal)
  | (.ok _, wal) =>
    (.ok q.seq, { q with seq := q.seq + 1, ready := q.ready ++ [⟨q.seq, payload⟩] }, wal)

/-- The queue with a message put at its end. -/
abbrev push (q : Queue) (payload : Bytes) : Queue :=
  { q with seq := q.seq + 1, ready := q.ready ++ [⟨q.seq, payload⟩] }

/-- Dequeue the next ready message, marking it in-flight until ack or nack. -/
def dequeue (q : Queue) : Option (ℕ × Bytes) × Queue :=
  match q.ready with
  | [] => (none, q)
  | e :: ready =>
    (some (e.seq, e.payload),
      { q with ready := ready, inflight := e :: q.inflight.filter (·.seq != e.seq) })

/-- Acknowledge a previously dequeued message; removes it for good. -/
def ack (q : Queue) (seq : ℕ) : Bool × Queue :=
  (q.inflight.any (·.seq == seq), { q with inflight := q.inflight.filter (·.seq != seq) })

/-- Return a message to the front of the ready queue for redelivery. -/
def nack (q : Queue) (seq : ℕ) : Bool × Queue :=
  match q.inflight.find? (·.seq == seq) with
  | none => (false, q)
  | some e =>
    (true, { q with ready := e :: q.ready, inflight := q.inflight.filter (·.seq != seq) })

def depth (q : Queue) : ℕ := q.ready.length + q.inflight.length

end Queue

/-! ## Map -/

structure MapEntry where
  value : Bytes
  expiresAt : Option ℕ
deriving DecidableEq, Repr

/-- Key-value store with per-key TTL; `data` holds each key once. -/
structure Map where
  name : String
  tenant : TenantId
  data : List (String × MapEntry)
deriving DecidableEq, Repr

namespace Map

def new (name : String) (t : Tenant) : EngineResult (Map × Tenant) :=
  if name = "" then .error (.invalidArgument "map name required")
  else t.chargeMap.map fun t ↦ (⟨name, t.id, []⟩, t)

theorem eq_of_new {name : String} {t owner : Tenant} {m : Map}
    (h : new name t = .ok (m, owner)) : m = ⟨name, t.id, []⟩ := by
  rw [new, Tenant.chargeMap, Tenant.chargeCount] at h
  split_ifs at h <;> cases h
  rfl

theorem new_error_iff {name : String} {t : Tenant} :
    (∃ e, new name t = .error e) ↔ name = "" ∨ t.quota.maxMaps ≤ t.usedMaps := by
  rw [new, Tenant.chargeMap, Tenant.chargeCount]
  split_ifs <;> simp_all [Except.map]

/-- The absolute expiry of an entry set now: `saturating_add` of a `u64`, to which the duration is
truncated. -/
def expiry (now : ℕ) (ttl : Option ℕ) : Option ℕ :=
  ttl.map fun t ↦ min (now + t % 2 ^ 64) (2 ^ 64 - 1)

/-- Set `key`, optionally expiring after `ttl` milliseconds. -/
def set (m : Map) (wal : TieredSegmentedLog) (key : String) (value : Bytes) (ttl : Option ℕ)
    (now : ℕ) : EngineResult Unit × Map × TieredSegmentedLog :=
  if key = "" then (.error (.invalidArgument "empty key"), m, wal)
  else
    match wal.append value now with
    | (.error e, wal) => (.error e, m, wal)
    | (.ok _, wal) =>
      (.ok (), { m with
        data := (key, ⟨value, expiry now ttl⟩) :: m.data.filter (·.1 != key) }, wal)

abbrev put (m : Map) (key : String) (entry : MapEntry) : Map :=
  { m with data := (key, entry) :: m.data.filter (·.1 != key) }

section Set

variable {m : Map} {wal : TieredSegmentedLog} {key : String} {value : Bytes}

theorem set_of_ne_nil (hkey : key ≠ "") (hval : value ≠ []) (ttl : Option ℕ) (now : ℕ) :
    m.set wal key value ttl now =
      (.ok (), m.put key ⟨value, expiry now ttl⟩, (wal.append value now).2) := by
  rw [set, if_neg hkey, wal.append_of_ne_nil hval]

theorem set_of_nil (m : Map) (wal : TieredSegmentedLog) (h : key = "" ∨ value = []) (ttl : Option ℕ)
    (now : ℕ) : ∃ e, m.set wal key value ttl now = (.error e, m, wal) := by
  rw [set]
  split_ifs with hkey
  · exact ⟨_, rfl⟩
  · obtain rfl := h.resolve_left hkey
    exact ⟨_, rfl⟩

end Set

/-- Get `key`; an expired entry is evicted. -/
def get (m : Map) (key : String) (now : ℕ) : Option Bytes × Map :=
  match m.data.lookup key with
  | none => (none, m)
  | some entry =>
    if entry.expiresAt.any (· ≤ now) then (none, { m with data := m.data.filter (·.1 != key) })
    else (some entry.value, m)

def delete (m : Map) (key : String) : Bool × Map :=
  ((m.data.lookup key).isSome, { m with data := m.data.filter (·.1 != key) })

def len (m : Map) : ℕ := m.data.length

/-- The live entries, in the order of the table; the expired ones are evicted. -/
def snapshot (m : Map) (now : ℕ) : List (String × Bytes) × Map :=
  let data := m.data.filter fun p ↦ p.2.expiresAt.all (now < ·)
  (data.map fun p ↦ (p.1, p.2.value), { m with data := data })

end Map

end Synapse
