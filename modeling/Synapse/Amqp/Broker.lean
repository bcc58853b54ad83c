import Synapse.Engine.QueueRun
import Synapse.Engine.Core
import Synapse.Routing.Graph

/-!
# The AMQP broker

Queues of the core engine under the tenant `amqp`, reached through the graph router. A publish
enqueues its body into every routed queue and, if the queue has consumers, takes the head of the
queue for the next one in turn; `basic.get` takes the head on request. Whoever is given a message
without `no_ack` acknowledges it later by its delivery tag, which the `inflight` table translates to
a queue and a sequence number.

The table of queues refers to the core's queues by address. Methods are taken with their arguments
parsed, and replies before they are encoded. A delivery also records which message was taken off the
queue, which the broker itself throws away where it delivers to a consumer: `publishTo` enters the
number of the message just enqueued.
-/

namespace Synapse.Amqp

open Function Option

def tenant : String := "amqp"

inductive ProtocolError
  | incomplete
  | malformed (what : String)
deriving DecidableEq, Repr

/-- Payload of a `basic.deliver` push. -/
structure DeliverMsg where
  channel : UInt16
  consumerTag : String
  deliveryTag : ℕ
  exchange : String
  routingKey : String
  body : Bytes
deriving DecidableEq, Repr

/-- A message handed to a client: what is sent, and where it came from. -/
structure Delivery where
  connId : ℕ
  msg : DeliverMsg
  noAck : Bool
  /-- The queue the body was taken from, and its number there. -/
  queue : String
  seq : ℕ
deriving DecidableEq, Repr

structure Consumer where
  connId : ℕ
  channel : UInt16
  tag : String
  noAck : Bool
deriving DecidableEq, Repr

structure ConsumerGroup where
  consumers : List Consumer
  rr : ℕ
deriving DecidableEq, Repr

abbrev TagKey := ℕ × UInt16 × ℕ

structure Broker where
  core : SynapseCore
  graph : GraphRouter
  /-- The addresses of the queues in the core. -/
  queues : String → Option ℕ
  /-- The last delivery tag of each channel of each connection. -/
  connections : ℕ → Option (UInt16 → ℕ)
  consumers : String → Option ConsumerGroup
  /-- The queue and the sequence number a delivery tag stands for. -/
  inflight : TagKey → Option (String × ℕ)
  nextConn : ℕ
  nextName : ℕ

/-- The methods that use the broker, with the arguments it reads. -/
inductive Method
  | exchangeDeclare (exchange kind : String) (passive : Bool)
  | queueDeclare (queue : String)
  | queueBind (queue exchange routingKey : String)
  | basicQos
  | basicConsume (queue tag : String) (noAck : Bool)
  | basicGet (queue : String) (noAck : Bool)
  | basicAck (deliveryTag : ℕ) (multiple : Bool)
deriving DecidableEq, Repr

inductive Reply
  | connectionClose (replyCode : ℕ) (replyText : String)
  | exchangeDeclareOk
  | queueDeclareOk (queue : String) (messageCount consumerCount : UInt32)
  | queueBindOk
  | basicQosOk
  | basicConsumeOk (tag : String)
  | basicGetEmpty
  | basicGetOk (msg : DeliverMsg) (redelivered : Bool) (messageCount : UInt32)
deriving DecidableEq, Repr

namespace Broker

/-- A broker over a core, with the exchanges that clients expect. -/
def new (core : SynapseCore) : Broker where
  core := core
  graph := ((GraphRouter.new.createExchange "amq.direct" .direct).createExchange
    "amq.topic" .topic).createExchange "amq.fanout" .fanout
  queues _ := none
  connections _ := none
  consumers _ := none
  inflight _ := none
  nextConn := 1
  nextName := 1

def connect (b : Broker) : ℕ × Broker :=
  (b.nextConn, { b with
    nextConn := b.nextConn + 1
    connections := Function.update b.connections b.nextConn (some fun _ ↦ 0) })

/-- The connection goes with its consumers and its delivery tags. -/
def disconnect (b : Broker) (connId : ℕ) : Broker :=
  { b with
    connections := Function.update b.connections connId none
    consumers := fun name ↦ do
      let group ← b.consumers name
      let consumers := group.consumers.filter (·.connId != connId)
      if consumers.isEmpty then none else some { group with consumers := consumers }
    inflight := fun key ↦ if key.1 = connId then none else b.inflight key }

/-- The queue of that name, created in the core if the broker does not have it. -/
def ensureQueue (b : Broker) (name : String) : Option ℕ × Broker :=
  match b.queues name with
  | some id => (some id, b)
  | none =>
    match b.core.createQueue tenant name with
    | (.error _, core) => (none, { b with core := core })
    | (.ok id, core) =>
      (some id, { b with
        core := core
        graph := b.graph.createQueue name
        queues := Function.update b.queues name (some id) })

def nextDeliveryTag (b : Broker) (connId : ℕ) (channel : UInt16) : Option (ℕ × Broker) := do
  let tags ← b.connections connId
  let tag := tags channel + 1
  some (tag, { b with
    connections := Function.update b.connections connId
      (some (Function.update tags channel tag)) })

/-- A method of the queue at an address has returned. -/
def setQueue (b : Broker) (id : ℕ) (q : Queue) : Broker :=
  { b with core := { b.core with queues := b.core.queues.write id q } }

/-- A message taken off the queue is acknowledged at once, or its tag is entered. -/
def settle (b : Broker) (key : TagKey) (noAck : Bool) (name : String) (id : ℕ) (q : Queue)
    (seq : ℕ) : Broker :=
  if noAck then b.setQueue id (q.ack seq).2
  else { b.setQueue id q with inflight := Function.update b.inflight key (some (name, seq)) }

/-- A name chosen by the broker if the client leaves it open. -/
def chooseName (b : Broker) (stem name : String) : String × Broker :=
  if name = "" then (stem ++ toString b.nextName, { b with nextName := b.nextName + 1 })
  else (name, b)

def queue (b : Broker) (name : String) : Option Queue := do
  let id ← b.queues name
  b.core.queues.object id

def basicGet (b : Broker) (connId : ℕ) (channel : UInt16) (name : String) (noAck : Bool) :
    Option (Reply × Broker × List Delivery) :=
  match b.ensureQueue name with
  | (none, b) => some (.basicGetEmpty, b, [])
  | (some id, b) => do
    let q ← b.core.queues.object id
    match q.dequeue with
    | (none, _) => some (.basicGetEmpty, b, [])
    | (some (seq, body), q) => do
      let (tag, b) ← b.nextDeliveryTag connId channel
      let b := b.settle (connId, channel, tag) noAck name id q seq
      let msg := ⟨channel, "", tag, "", name, body⟩
      let depth := ((b.queue name).map Queue.depth).getD 0
      some (.basicGetOk msg false (.ofNat depth), b, [⟨connId, msg, noAck, name, seq⟩])

/-- `basic.ack`: `multiple` is not looked at. -/
def basicAck (b : Broker) (connId : ℕ) (channel : UInt16) (tag : ℕ) : Broker :=
  match b.inflight (connId, channel, tag) with
  | none => b
  | some (name, seq) =>
    let b := { b with inflight := Function.update b.inflight (connId, channel, tag) none }
    match b.queues name, b.queue name with
    | some id, some q => b.setQueue id (q.ack seq).2
    | _, _ => b

def exchangeKind (kind : String) : ExchangeKind :=
  if kind = "topic" then .topic else if kind = "fanout" then .fanout else .direct

/-- One method; `none` stands for the panic of `next_delivery_tag`. -/
def handleMethod (b : Broker) (connId : ℕ) (channel : UInt16) :
    Method → Option (Except ProtocolError (List Reply) × Broker × List Delivery)
  | .exchangeDeclare exchange kind passive =>
    match passive, b.graph.route exchange "" with
    | true, .error _ => some (.ok [.connectionClose 404 "not found"], b, [])
    | _, _ =>
      some (.ok [.exchangeDeclareOk],
        { b with graph := b.graph.createExchange exchange (exchangeKind kind) }, [])
  | .queueDeclare name =>
    let (name, b) := b.chooseName "synapse.gen." name
    match b.ensureQueue name with
    | (none, b) => some (.error (.malformed "queue create failed"), b, [])
    | (some _, b) =>
      let depth := ((b.queue name).map Queue.depth).getD 0
      let consumers := ((b.consumers name).map (·.consumers.length)).getD 0
      some (.ok [.queueDeclareOk name (.ofNat depth) (.ofNat consumers)], b, [])
  | .queueBind name exchange routingKey =>
    -- binding to the nameless exchange is implicit
    if exchange = "" then some (.ok [.queueBindOk], b, [])
    else
      let b := (b.ensureQueue name).2
      some (.ok [.queueBindOk], { b with graph := (b.graph.bind exchange name routingKey).2 }, [])
  | .basicQos => some (.ok [.basicQosOk], b, [])
  | .basicConsume name tag noAck =>
    let (name, b) := b.chooseName "synapse.gen." name
    let (tag, b) := b.chooseName "synapse.ctag." tag
    let b := (b.ensureQueue name).2
    let group := (b.consumers name).getD ⟨[], 0⟩
    let group := { group with consumers := group.consumers ++ [⟨connId, channel, tag, noAck⟩] }
    some (.ok [.basicConsumeOk tag],
      { b with consumers := Function.update b.consumers name (some group) }, [])
  | .basicGet name noAck => do
    let (reply, b, sent) ← b.basicGet connId channel name noAck
    some (.ok [reply], b, sent)
  | .basicAck tag _ => some (.ok [], b.basicAck connId channel tag, [])

def nextConsumer (b : Broker) (name : String) : Option Consumer × Broker :=
  match b.consumers name with
  | none => (none, b)
  | some group =>
    match group.consumers[group.rr % group.consumers.length]? with
    | none => (none, b)
    | some c =>
      (some c, { b with
        consumers := Function.update b.consumers name (some { group with rr := group.rr + 1 }) })

/-- The body of the loop of `publish`: one routed queue. -/
def publishTo (b : Broker) (exchange routingKey : String) (body : Bytes) (now : ℕ)
    (name : String) : Option (Broker × List Delivery) :=
  match b.ensureQueue name with
  | (none, b) => some (b, [])
  | (some id, b) =>
    match b.core.queueEnqueue tenant name body now with
    | (.error _, core) => some ({ b with core := core }, [])
    | (.ok seq, core) =>
      match nextConsumer { b with core := core } name with
      | (none, b) => some (b, [])
      | (some c, b) => do
        let q ← b.core.queues.object id
        let (delivered, q) := q.dequeue
        let (deliveredSeq, payload) := delivered.getD (seq, body)
        let (tag, b) ← b.nextDeliveryTag c.connId c.channel
        -- the number entered is that of the new message, not of the one taken
        let b := b.settle (c.connId, c.channel, tag) c.noAck name id q seq
        let msg := ⟨c.channel, c.tag, tag, exchange, routingKey, payload⟩
        some (b, [⟨c.connId, msg, c.noAck, name, deliveredSeq⟩])

/-- The loop of `publish`; `times` are the readings of the clock. -/
def publishAll (exchange routingKey : String) (body : Bytes) :
    List String → List ℕ → Broker → Option (Broker × List Delivery)
  | [], _, b => some (b, [])
  | name :: names, times, b => do
    let (b, sent) ← b.publishTo exchange routingKey body (times.headD 0) name
    let (b, sent') ← publishAll exchange routingKey body names times.tail b
    some (b, sent ++ sent')

/-- The queues a publish goes to; the routing key of the nameless exchange is a queue. -/
def targets (b : Broker) (exchange routingKey : String) : Except RoutingError (List String) :=
  if exchange = "" then .ok [routingKey] else b.graph.route exchange routingKey

def publish (b : Broker) (exchange routingKey : String) (body : Bytes) (times : List ℕ) :
    Option (Except ProtocolError Unit × Broker × List Delivery) :=
  match b.targets exchange routingKey with
  | .error _ => some (.error (.malformed "unknown exchange"), b, [])
  | .ok names => do
    let (b, sent) ← publishAll exchange routingKey body names times b
    some (.ok (), b, sent)

/-! ## Queues by name -/

def tenantId : TenantId := ⟨"amqp", by decide, by decide⟩

theorem new_tenant : TenantId.new tenant = .ok tenantId := by decide +kernel

/-- The broker's queues are the core's queues of the same names. -/
structure Linked (b : Broker) : Prop where
  home : ∀ ⦃name id⦄, b.queues name = some id → b.core.queues.table (tenantId, name) = some id
  inj : ∀ ⦃name name' id⦄, b.queues name = some id → b.queues name' = some id → name = name'

variable {b b' : Broker} {name : String} {id : ℕ} {q : Queue} {P : ℕ → Prop}

theorem queue_eq (hid : b.queues name = some id) : b.queue name = b.core.queues.object id := by
  rw [queue, hid]
  rfl

theorem queue_eq_none (h : b.queues name = none) : b.queue name = none := by
  rw [queue, h]
  rfl

theorem exists_id (hq : b.queue name = some q) :
    ∃ id, b.queues name = some id ∧ b.core.queues.object id = some q :=
  bind_eq_some_iff.mp hq

theorem linked_new (core : SynapseCore) : (new core).Linked where
  home _ _ h := by cases h
  inj _ _ _ h := by cases h

theorem Linked.congr (h : b.Linked) (htab : b'.core.queues.table = b.core.queues.table)
    (hqs : b'.queues = b.queues) : b'.Linked where
  home name id hid := by
    rw [htab]
    exact h.home (hqs ▸ hid)
  inj name name' id hid hid' := h.inj (hqs ▸ hid) (hqs ▸ hid')

theorem queue_congr (hcore : b'.core.queues = b.core.queues) (hqs : b'.queues = b.queues) :
    b'.queue = b.queue := by
  funext name
  rw [queue, queue, hcore, hqs]

theorem Linked.exists_object (h : b.Linked) (hid : b.queues name = some id) :
    ∃ q, b.core.queues.object id = some q := by
  have hlt := b.core.queues.live _ _ (h.home hid)
  exact ⟨_, by rw [ArcTable.object, List.getElem?_eq_getElem hlt, map_some]⟩

theorem object_setQueue (hq : b.core.queues.object id = some q) (q' : Queue) :
    (b.setQueue id q').core.queues.object id = some q' := by
  change (b.core.queues.write id q').object id = _
  rw [ArcTable.object_write, if_pos rfl, hq, map_some]

theorem Linked.queue_setQueue (h : b.Linked) (hid : b.queues name = some id) (q : Queue) :
    (b.setQueue id q).queue = update b.queue name (some q) := by
  funext name'
  obtain ⟨q₀, hq₀⟩ := h.exists_object hid
  rw [update_apply]
  split_ifs with hname
  · rw [hname, queue_eq (b := b.setQueue id q) hid, object_setQueue hq₀]
  change (b.queues name').bind (b.core.queues.write id q).object =
    (b.queues name').bind b.core.queues.object
  cases hid' : b.queues name' with
  | none => rfl
  | some id' =>
    rw [bind_some, bind_some, ArcTable.object_write, if_neg]
    rintro rfl
    exact hname (h.inj hid' hid)

theorem Linked.setQueue (h : b.Linked) (id : ℕ) (q : Queue) : (b.setQueue id q).Linked :=
  h.congr rfl rfl

/-- The broker after `ensure_queue`: at most an empty queue is new. -/
structure Grown (name : String) (b b' : Broker) : Prop where
  linked : b'.Linked
  connections : b'.connections = b.connections
  nextConn : b'.nextConn = b.nextConn
  inflight : b'.inflight = b.inflight
  frame : ∀ n, n ≠ name → b'.queue n = b.queue n
  queue : b'.queue name = b.queue name ∨
    b.queue name = none ∧ b'.queue name = some ⟨name, tenantId, [], [], 0⟩

theorem Grown.refl (h : b.Linked) (name : String) : Grown name b b :=
  ⟨h, rfl, rfl, rfl, fun _ _ ↦ rfl, .inl rfl⟩

theorem Grown.congr {b₁ : Broker} (h : Grown name b b₁)
    (hcore : b'.core.queues = b₁.core.queues) (hqs : b'.queues = b₁.queues)
    (hconn : b'.connections = b₁.connections) (hnext : b'.nextConn = b₁.nextConn)
    (hinf : b'.inflight = b₁.inflight) : Grown name b b' where
  linked := h.linked.congr (congrArg ArcTable.table hcore) hqs
  connections := hconn.trans h.connections
  nextConn := hnext.trans h.nextConn
  inflight := hinf.trans h.inflight
  frame n hn := by rw [queue_congr hcore hqs, h.frame n hn]
  queue := by
    rw [queue_congr hcore hqs]
    exact h.queue

theorem Linked.grown_push (h : b.Linked) (hnone : b.queues name = none) {core : SynapseCore}
    (hqs : core.queues = b.core.queues.push (tenantId, name) ⟨name, tenantId, [], [], 0⟩)
    (graph : GraphRouter) :
    Grown name b { b with
      core := core
      graph := graph
      queues := update b.queues name (some b.core.queues.cells.length) } := by
  have hlt : ∀ n id, b.queues n = some id → id < b.core.queues.cells.length :=
    fun n id hid ↦ b.core.queues.live _ _ (h.home hid)
  have hold : ∀ n id, n ≠ name → b.queues n = some id → core.queues.object id =
      b.core.queues.object id := by
    intro n id hn hid
    rw [hqs, ArcTable.object_push_of_lt _ _ _ (hlt n id hid)]
  refine ⟨⟨?_, ?_⟩, rfl, rfl, rfl, ?_, ?_⟩
  · intro n id hid
    change update b.queues name _ n = some id at hid
    rw [hqs]
    change update b.core.queues.table (tenantId, name) _ (tenantId, n) = some id
    by_cases hn : n = name
    · rwa [hn, update_self] at hid ⊢
    · rw [update_of_ne hn] at hid
      rw [update_of_ne fun heq ↦ hn (Prod.mk.inj heq).2]
      exact h.home hid
  · intro n n' id hid hid'
    change update b.queues name _ n = some id at hid
    change update b.queues name _ n' = some id at hid'
    by_cases hn : n = name <;> by_cases hn' : n' = name
    · rw [hn, hn']
    · rw [hn, update_self] at hid
      rw [update_of_ne hn'] at hid'
      exact absurd (hlt n' id hid') (some.inj hid ▸ lt_irrefl _)
    · rw [hn', update_self] at hid'
      rw [update_of_ne hn] at hid
      exact absurd (hlt n id hid) (some.inj hid' ▸ lt_irrefl _)
    · rw [update_of_ne hn] at hid
      rw [update_of_ne hn'] at hid'
      exact h.inj hid hid'
  · intro n hn
    change (update b.queues name _ n).bind core.queues.object =
      (b.queues n).bind b.core.queues.object
    rw [update_of_ne hn]
    cases hid : b.queues n with
    | none => rfl
    | some id => exact hold n id hn hid
  · refine .inr ⟨queue_eq_none hnone, ?_⟩
    change (update b.queues name _ name).bind core.queues.object = _
    rw [update_self, bind_some, hqs, ArcTable.object_push_self]

theorem ensureQueue_grown (h : b.Linked) (name : String) : Grown name b (b.ensureQueue name).2 := by
  rw [ensureQueue]
  cases hid : b.queues name with
  | some id => exact .refl h name
  | none =>
    generalize hcr : b.core.createQueue tenant name = created
    obtain ⟨r, core⟩ := created
    cases r with
    | error e =>
      exact (Grown.refl h name).congr (SynapseCore.createQueue_eq_error hcr) rfl rfl rfl rfl
    | ok id =>
      obtain ⟨t, ht, rfl, hqs, -⟩ := SynapseCore.createQueue_eq_ok hcr
      obtain rfl : t = tenantId := Except.ok.inj (ht.symm.trans new_tenant)
      exact h.grown_push hid hqs _

theorem consumers_ensureQueue (b : Broker) (name : String) :
    (b.ensureQueue name).2.consumers = b.consumers := by
  rw [ensureQueue]
  rcases b.queues name with _ | id
  · rcases b.core.createQueue tenant name with ⟨_ | id, core⟩ <;> rfl
  · rfl

theorem ensureQueue_eq_some (h : (b.ensureQueue name).1 = some id) :
    (b.ensureQueue name).2.queues name = some id := by
  rw [ensureQueue] at h ⊢
  cases hid : b.queues name with
  | some id' =>
    rw [hid] at h
    exact hid.trans h
  | none =>
    rw [hid] at h
    generalize b.core.createQueue tenant name = created at h ⊢
    obtain ⟨r, core⟩ := created
    cases r with
    | error e => cases h
    | ok id' =>
      change update b.queues name (some id') name = some id
      rwa [update_self]

/-- `ensure_queue` fails if there is no queue and none can be created. -/
theorem ensureQueue_cases (h : b.Linked) (name : String) :
    ∃ b', Grown name b b' ∧ b'.consumers = b.consumers ∧
      (b.ensureQueue name = (none, b') ∧ b.queue name = none ∨
        ∃ id q, b.ensureQueue name = (some id, b') ∧ b'.queues name = some id ∧
          b'.core.queues.object id = some q) := by
  refine ⟨_, ensureQueue_grown h name, b.consumers_ensureQueue name, ?_⟩
  rcases hid : (b.ensureQueue name).1 with _ | id
  · refine .inl ⟨Prod.ext hid rfl, ?_⟩
    rcases hold : b.queues name with _ | id
    · exact queue_eq_none hold
    · rw [ensureQueue, hold] at hid
      cases hid
  · obtain ⟨q, hq⟩ := (ensureQueue_grown h name).linked.exists_object (ensureQueue_eq_some hid)
    exact .inr ⟨id, q, Prod.ext hid rfl, ensureQueue_eq_some hid, hq⟩

theorem Linked.queueEnqueue (h : b.Linked) (hid : b.queues name = some id)
    (hq : b.core.queues.object id = some q) (body : Bytes) (now : ℕ) :
    b.core.queueEnqueue tenant name body now = b.core.enqueue id q body now := by
  have hloc : SynapseCore.locate b.core.queues tenant name = .ok (some (id, q)) := by
    rw [SynapseCore.locate, SynapseCore.find, new_tenant]
    change Except.ok ((b.core.queues.table (tenantId, name)).bind _) = _
    rw [h.home hid, bind_some, hq]
    rfl
  rw [SynapseCore.queueEnqueue, SynapseCore.withObject, hloc]

/-! ## Methods that hand out nothing -/

/-- Something holds of the connections of all consumers. -/
def Attended (b : Broker) (P : ℕ → Prop) : Prop :=
  ∀ name group, b.consumers name = some group → ∀ c ∈ group.consumers, P c.connId

theorem Attended.congr (h : b.Attended P) (heq : b'.consumers = b.consumers) : b'.Attended P := by
  rwa [Attended, heq]

theorem Attended.update (h : b.Attended P) {group : ConsumerGroup}
    (hgr : ∀ c ∈ group.consumers, P c.connId)
    (heq : b'.consumers = update b.consumers name (some group)) : b'.Attended P := by
  intro n g hg
  rw [heq, update_apply] at hg
  split_ifs at hg
  · cases hg
    exact hgr
  · exact h n g hg

theorem chooseName_eq (b : Broker) (stem name : String) :
    ∃ n, (b.chooseName stem name).2 = { b with nextName := n } := by
  rw [chooseName]
  split_ifs
  · exact ⟨_, rfl⟩
  · exact ⟨b.nextName, rfl⟩

/-- The names the broker chooses are of no consequence. -/
theorem ensureQueue_grown_of_nextName (h : b.Linked) (n : ℕ) (name : String) :
    Grown name b (ensureQueue { b with nextName := n } name).2 :=
  have hgrw := ensureQueue_grown (b := { b with nextName := n }) (h.congr rfl rfl) name
  ⟨hgrw.linked, hgrw.connections, hgrw.nextConn, hgrw.inflight, hgrw.frame, hgrw.queue⟩

/-- What a method does. Apart from `basic.get` and `basic.ack` it at most creates a queue or adds a
consumer. -/
theorem handleMethod_cases (h : b.Linked) {connId : ℕ} {channel : UInt16} {m : Method}
    {reply : Except ProtocolError (List Reply)} {sent : List Delivery}
    (hmeth : b.handleMethod connId channel m = some (reply, b', sent)) :
    (∃ name noAck r, m = .basicGet name noAck ∧
      b.basicGet connId channel name noAck = some (r, b', sent)) ∨
    (∃ tag multiple, m = .basicAck tag multiple ∧ b' = b.basicAck connId channel tag ∧ sent = []) ∨
    sent = [] ∧ (∃ name, Grown name b b') ∧
      ((∀ name tag noAck, m ≠ .basicConsume name tag noAck) ∧ b'.consumers = b.consumers ∨
      ∃ name tag noAck n c rr, m = .basicConsume name tag noAck ∧
        n = (b.chooseName "synapse.gen." name).1 ∧ b'.consumers = update b.consumers n
          (some ⟨((b.consumers n).getD ⟨[], 0⟩).consumers ++ [c], rr⟩) ∧ c.connId = connId) := by
  rcases m with ⟨exchange, kind, passive⟩ | name | ⟨name, exchange, routingKey⟩ | _ |
    ⟨name, tag, noAck⟩ | ⟨name, noAck⟩ | ⟨tag, multiple⟩
  · simp only [handleMethod] at hmeth
    split at hmeth <;> obtain ⟨-, rfl, rfl⟩ := hmeth
    · exact .inr (.inr ⟨rfl, ⟨"", .refl h ""⟩, .inl ⟨nofun, rfl⟩⟩)
    · exact .inr (.inr ⟨rfl, ⟨"", (Grown.refl h "").congr rfl rfl rfl rfl rfl⟩,
        .inl ⟨nofun, rfl⟩⟩)
  · obtain ⟨n, hn⟩ := b.chooseName_eq "synapse.gen." name
    simp only [handleMethod, hn] at hmeth
    have hgrw := ensureQueue_grown_of_nextName h n (b.chooseName "synapse.gen." name).1
    have hcons := consumers_ensureQueue { b with nextName := n }
      (b.chooseName "synapse.gen." name).1
    generalize ensureQueue { b with nextName := n } _ = ensured at hmeth hgrw hcons
    obtain ⟨_ | _, b₁⟩ := ensured <;> obtain ⟨-, rfl, rfl⟩ := hmeth
    · exact .inr (.inr ⟨rfl, ⟨_, hgrw⟩, .inl ⟨nofun, hcons⟩⟩)
    · exact .inr (.inr ⟨rfl, ⟨_, hgrw⟩, .inl ⟨nofun, hcons⟩⟩)
  · simp only [handleMethod] at hmeth
    split_ifs at hmeth <;> obtain ⟨-, rfl, rfl⟩ := hmeth
    · exact .inr (.inr ⟨rfl, ⟨"", .refl h ""⟩, .inl ⟨nofun, rfl⟩⟩)
    · exact .inr (.inr ⟨rfl, ⟨name, (ensureQueue_grown h name).congr rfl rfl rfl rfl rfl⟩,
        .inl ⟨nofun, b.consumers_ensureQueue name⟩⟩)
  · obtain ⟨-, rfl, rfl⟩ := hmeth
    exact .inr (.inr ⟨rfl, ⟨"", .refl h ""⟩, .inl ⟨nofun, rfl⟩⟩)
  · obtain ⟨n, hn⟩ := b.chooseName_eq "synapse.gen." name
    obtain ⟨n', hn'⟩ := chooseName_eq { b with nextName := n } "synapse.ctag." tag
    simp only [handleMethod, hn, hn'] at hmeth
    obtain ⟨-, rfl, rfl⟩ := hmeth
    refine .inr (.inr ⟨rfl, ⟨_, (ensureQueue_grown_of_nextName h n' _).congr rfl rfl rfl rfl rfl⟩,
      .inr ?_⟩)
    simp only [consumers_ensureQueue]
    exact ⟨name, tag, noAck, _, _, _, rfl, rfl, rfl, rfl⟩
  · simp only [handleMethod, bind_eq_bind, bind_eq_some_iff] at hmeth
    obtain ⟨⟨r, b₁, sent₁⟩, hget, heq⟩ := hmeth
    obtain ⟨-, rfl, rfl⟩ := heq
    exact .inl ⟨name, noAck, r, rfl, hget⟩
  · obtain ⟨-, rfl, rfl⟩ := hmeth
    exact .inr (.inl ⟨tag, multiple, rfl, rfl, rfl⟩)

end Broker

end Synapse.Amqp
