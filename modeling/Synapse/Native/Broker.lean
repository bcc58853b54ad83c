import Synapse.Amqp.Codec
import Synapse.Lib.Text
import Synapse.Native.Session
import Synapse.Routing.Router
import Synapse.Routing.Stream

/-!
# The native broker

The handlers of the data opcodes. Keys live in the map `kv` of the tenant `native`, a queue and a
log are primitives of that tenant, and pub/sub reaches the subscriptions of the same connection
only: router, stream router and first offsets belong to a connection, the core to all of them.

Before it uses a primitive a handler creates it, ignoring the result, and drops the handle it got.
The handles a request takes with `get_map` and its siblings are dropped when it ends and are not
counted. A payload that is too short, and the `unwrap` of a primitive that could not be created,
panic; here the handler returns `none`.
-/

namespace Synapse.Native

open ByteCode Option

def tenant : String := "native"

def kvMap : String := "kv"

/-! ## Payloads -/

/-- A text after its length in two bytes, starting at `cur`, and the rest. -/
def takeStr (p : Bytes) (cur : ℕ) : Option (String × Bytes) :=
  let l := beNat ((p.drop cur).take 2)
  let rest := p.drop (cur + 2)
  if p.length < cur + 2 ∨ rest.length < l then none
  else some (Amqp.fromUtf8Lossy (rest.take l), rest.drop l)

def takeNat (width : ℕ) (p : Bytes) : Option (ℕ × Bytes) :=
  if p.length < width then none else some (beNat (p.take width), p.drop width)

/-- A key, its time to live in milliseconds and a value. -/
def parseKv (p : Bytes) : Option (String × ℕ × Bytes) := do
  let (key, rest) ← takeStr p 0
  let (ttl, val) ← takeNat 8 rest
  some (key, ttl, val)

def okByte {ε α : Type} : Except ε α → UInt8
  | .ok _ => 1
  | .error _ => 0

/-! ## Primitives -/

/-- A creation whose result is ignored: the handle is dropped at once. -/
def dropHandle (release : ℕ → EngineOp) : EngineResult ℕ × SynapseCore → SynapseCore
  | (.ok handle, core) => core.perform (release handle)
  | (.error _, core) => core

def ensureMap (core : SynapseCore) (name : String) : SynapseCore :=
  dropHandle .releaseMap (core.createMap tenant name)

def ensureQueue (core : SynapseCore) (name : String) : SynapseCore :=
  dropHandle .releaseQueue (core.createQueue tenant name)

def ensureLog (core : SynapseCore) (name : String) : SynapseCore :=
  dropHandle .releaseLog (core.createLog tenant name)

def unwrapBoth {α : Type} : EngineResult (Option α) → Option α
  | .ok found => found
  | .error _ => none

/-! ## Keys -/

def setKey (core : SynapseCore) (key : String) (ttl : ℕ) (val : Bytes) (now : ℕ) :
    Option (Out × SynapseCore) := do
  let core := ensureMap core kvMap
  let (id, m) ← unwrapBoth (SynapseCore.locate core.maps tenant kvMap)
  let (r, core) := core.set id m key val (if ttl = 0 then none else some ttl) now
  some ((.kvSet, [okByte r]), core)

def kvSet (core : SynapseCore) (p : Bytes) (now : ℕ) : Option (Out × SynapseCore) := do
  let (key, ttl, val) ← parseKv p
  setKey core key ttl val now

def kvReply : Option Bytes → Bytes
  | some v => 1 :: (beBytes 4 v.length ++ v)
  | none => [0]

def getKey (core : SynapseCore) (key : String) (now : ℕ) : Option (Out × SynapseCore) := do
  match ← (SynapseCore.locate core.maps tenant kvMap).toOption with
  | none => some ((.kvGet, [0]), core)
  | some (id, m) =>
    let (value, m) := m.get key now
    some ((.kvGet, kvReply value), { core with maps := core.maps.write id m })

def kvGet (core : SynapseCore) (p : Bytes) (now : ℕ) : Option (Out × SynapseCore) := do
  let (key, _, _) ← parseKv p
  getKey core key now

/-! ## Queues -/

def enqueue (core : SynapseCore) (name : String) (payload : Bytes) (now : ℕ) :
    Option (Out × SynapseCore) := do
  let core := ensureQueue core name
  let (id, q) ← unwrapBoth (SynapseCore.locate core.queues tenant name)
  match core.enqueue id q payload now with
  | (.ok seq, core) => some ((.queue, 1 :: beBytes 8 seq), core)
  | (.error _, core) => some ((.queue, [0]), core)

def dequeueReply : Option (ℕ × Bytes) → Bytes
  | some (seq, payload) => 1 :: (beBytes 8 seq ++ (beBytes 4 payload.length ++ payload))
  | none => [0]

def dequeue (core : SynapseCore) (name : String) : Option (Out × SynapseCore) := do
  match ← (SynapseCore.locate core.queues tenant name).toOption with
  | none => some ((.queue, [0]), core)
  | some (id, q) =>
    let (taken, q) := q.dequeue
    some ((.queue, dequeueReply taken), { core with queues := core.queues.write id q })

def queue (core : SynapseCore) (p : Bytes) (now : ℕ) : Option (Out × SynapseCore) := do
  let action ← p[0]?
  let (name, rest) ← takeStr p 1
  if action = 0 then enqueue core name rest now
  else if action = 1 then dequeue core name
  else some ((.queue, [0]), core)

def ackSeq (core : SynapseCore) (name : String) (seq : ℕ) : Option (Out × SynapseCore) := do
  match ← (SynapseCore.locate core.queues tenant name).toOption with
  | none => some ((.ack, [0]), core)
  | some (id, q) =>
    let (ok, q) := q.ack seq
    some ((.ack, [ok.toUInt8]), { core with queues := core.queues.write id q })

/-- The first byte of the payload is not looked at. -/
def ack (core : SynapseCore) (p : Bytes) : Option (Out × SynapseCore) := do
  let (name, rest) ← takeStr p 1
  let (seq, _) ← takeNat 8 rest
  ackSeq core name seq

/-! ## The state of a connection -/

/-- What belongs to one connection. -/
structure NativeBroker where
  router : TopicRouter
  streams : StreamRouter
  connId : ℕ
  /-- The offset of the first record this connection appended to each topic. -/
  firstOffset : String → Option ℕ

def NativeBroker.new (connId : ℕ) : NativeBroker := ⟨.new, .new, connId, fun _ ↦ none⟩

namespace NativeBroker

/-! ## Pub/sub -/

def nul : Char := Char.ofNat 0

def subId (b : NativeBroker) (filter : String) : String :=
  Text.join nul (toString b.connId) filter

def delivery (topic : String) (payload : Bytes) : Out :=
  (.pubSub, 2 :: (beBytes 2 (asBytes topic).length ++ (asBytes topic ++ payload)))

/-- Whether the subscription behind a router id, looked at once more, matches the topic. -/
def hit (topic id : String) : Bool :=
  match Text.splitOnce nul id with
  | some (_, filter) => topicMatches filter topic
  | none => false

def deliveriesTo (b : NativeBroker) (topic : String) (payload : Bytes) : List Out :=
  ((b.router.route topic).filter (hit topic)).map fun _ ↦ delivery topic payload

def pubsub (b : NativeBroker) (p : Bytes) : Option (Out × List Out × NativeBroker) := do
  let action ← p[0]?
  let (topic, rest) ← takeStr p 1
  if action = 0 then some ((.pubSub, [1]), b.deliveriesTo topic rest, b)
  else if action = 1 then
    some ((.pubSub, [1]), [], { b with router := b.router.subscribe (b.subId topic) topic })
  else some ((.pubSub, [0]), [], b)

/-! ## Log tailing -/

def logAppend (b : NativeBroker) (core : SynapseCore) (topic : String) (payload : Bytes)
    (now : ℕ) : Option (Out × NativeBroker × SynapseCore) := do
  let b := { b with streams := (b.streams.createTopic topic 1).2 }
  let core := ensureLog core topic
  let (_, log) ← unwrapBoth (SynapseCore.locate core.logs tenant topic)
  match core.append log payload now with
  | (.ok offset, core) =>
    let first := (b.firstOffset topic).getD offset
    some ((.logTail, 1 :: beBytes 8 offset),
      { b with firstOffset := Function.update b.firstOffset topic (some first) }, core)
  | (.error _, core) => some ((.logTail, [0]), b, core)

def encodeRecord (rec : Record) : Bytes :=
  beBytes 8 rec.offset ++ (beBytes 4 rec.payload.length ++ rec.payload)

def logConsume (b : NativeBroker) (core : SynapseCore) (topic : String) (p : Bytes) :
    Option (Out × NativeBroker × SynapseCore) := do
  let (group, rest) ← takeStr p 0
  let (max, _) ← takeNat 4 rest
  let core := ensureLog core topic
  match ← (SynapseCore.locate core.logs tenant topic).toOption with
  | none => some ((.logTail, [0]), b, core)
  | some (_, log) =>
    let base := (b.firstOffset topic).getD 0
    let off := Nat.max (b.streams.nextFetch group topic 0) base
    let recs := (log.read core.wal off max).toOption.getD []
    some ((.logTail, 1 :: (beBytes 4 recs.length ++ recs.flatMap encodeRecord)),
      { b with streams := b.streams.commit group topic 0 (off + recs.length) }, core)

def logCreate (b : NativeBroker) (core : SynapseCore) (topic : String) (p : Bytes) :
    Option (Out × NativeBroker × SynapseCore) := do
  let (parts, _) ← takeNat 4 p
  let (r, streams) := b.streams.createTopic topic parts
  some ((.logTail, [okByte r]), { b with streams := streams }, core)

def logtail (b : NativeBroker) (core : SynapseCore) (p : Bytes) (now : ℕ) :
    Option (Out × NativeBroker × SynapseCore) := do
  let action ← p[0]?
  let (topic, rest) ← takeStr p 1
  if action = 0 then b.logAppend core topic rest now
  else if action = 1 then b.logConsume core topic rest
  else if action = 2 then b.logCreate core topic rest
  else some ((.logTail, [0]), b, core)

theorem logtail_router {b b' : NativeBroker} {core core' : SynapseCore} {p : Bytes} {now : ℕ}
    {out : Out} (h : b.logtail core p now = some (out, b', core')) :
    b'.router = b.router ∧ b'.connId = b.connId := by
  obtain ⟨action, -, h⟩ := bind_eq_some_iff.mp h
  obtain ⟨⟨topic, rest⟩, -, h⟩ := bind_eq_some_iff.mp h
  dsimp only at h
  split_ifs at h
  · obtain ⟨⟨id, log⟩, -, h⟩ := bind_eq_some_iff.mp h
    dsimp only at h
    generalize (ensureLog core topic).append log rest now = appended at h
    obtain ⟨_ | offset, core₁⟩ := appended <;> cases h <;> exact ⟨rfl, rfl⟩
  · obtain ⟨⟨group, rest₁⟩, -, h⟩ := bind_eq_some_iff.mp h
    obtain ⟨⟨max, rest₂⟩, -, h⟩ := bind_eq_some_iff.mp h
    obtain ⟨_ | ⟨id, log⟩, -, h⟩ := bind_eq_some_iff.mp h <;> cases h <;> exact ⟨rfl, rfl⟩
  · obtain ⟨⟨parts, rest₁⟩, -, h⟩ := bind_eq_some_iff.mp h
    cases h
    exact ⟨rfl, rfl⟩
  · cases h
    exact ⟨rfl, rfl⟩

end NativeBroker

/-! ## The broker as a whole -/

/-- The core, what belongs to each connection, and the clock. -/
structure World where
  core : SynapseCore
  brokers : ℕ → NativeBroker
  now : ℕ

namespace World

/-- A broker that has just been started. Its connections are given the ids from 1 on. -/
def start (object : ObjectStore) : World where
  core := .withObjectStore object
  brokers conn := .new (conn + 1)
  now := 0

def onCore (w : World) (r : Option (Out × SynapseCore)) : Option (List Out × List Out × World) :=
  r.map fun (out, core) ↦ ([out], [], { w with core := core })

def setBroker (w : World) (conn : ℕ) (b : NativeBroker) : World :=
  { w with brokers := Function.update w.brokers conn b }

theorem brokers_setBroker (w : World) (conn : ℕ) (b : NativeBroker) :
    (w.setBroker conn b).brokers conn = b := by
  simp [setBroker]

/-- The handlers of the data opcodes: response, deliveries, and the state afterwards. -/
def prims (conn : ℕ) (opcode : Opcode) (w : World) (p : Bytes) :
    Option (List Out × List Out × World) :=
  match opcode with
  | .kvSet => w.onCore (kvSet w.core p w.now)
  | .kvGet => w.onCore (kvGet w.core p w.now)
  | .queue => w.onCore (queue w.core p w.now)
  | .ack => w.onCore (ack w.core p)
  | .pubSub =>
    ((w.brokers conn).pubsub p).map fun (out, deliveries, b) ↦
      ([out], deliveries, w.setBroker conn b)
  | .logTail =>
    ((w.brokers conn).logtail w.core p w.now).map fun (out, b, core) ↦
      ([out], [], { w.setBroker conn b with core := core })
  | .hello | .rekey => some ([(opcode, [0])], [], w)

variable {frame : Frame} {conn : ℕ}

/-- Every frame that does not panic the broker has exactly one response. Only pub/sub frames make
deliveries and change subscriptions. -/
theorem handle_cases {w w' : World} {responses ds : List Out}
    (h : handle prims conn w frame = some (responses, ds, w')) : (∃ out, responses = [out]) ∧
      (frame.opcode ≠ .pubSub → ds = [] ∧ (w'.brokers conn).router = (w.brokers conn).router ∧
        (w'.brokers conn).connId = (w.brokers conn).connId) := by
  rw [handle] at h
  cases hop : frame.opcode with
  | hello | rekey =>
    rw [hop] at h
    cases h
    exact ⟨⟨_, rfl⟩, fun _ ↦ ⟨rfl, rfl, rfl⟩⟩
  | kvSet | kvGet | queue | ack =>
    rw [hop] at h
    obtain ⟨⟨out, core⟩, -, heq⟩ := map_eq_some_iff.mp h
    cases heq
    exact ⟨⟨out, rfl⟩, fun _ ↦ ⟨rfl, rfl, rfl⟩⟩
  | pubSub =>
    rw [hop] at h
    obtain ⟨⟨out, ds, b⟩, -, heq⟩ := map_eq_some_iff.mp h
    cases heq
    exact ⟨⟨out, rfl⟩, fun hne ↦ absurd rfl hne⟩
  | logTail =>
    rw [hop] at h
    obtain ⟨⟨out, b, core⟩, hlog, heq⟩ := map_eq_some_iff.mp h
    cases heq
    rw [brokers_setBroker]
    exact ⟨⟨out, rfl⟩, fun _ ↦ ⟨rfl, NativeBroker.logtail_router hlog⟩⟩

end World

end Synapse.Native
