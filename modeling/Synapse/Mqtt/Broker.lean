import Mathlib.Data.List.AList
import Synapse.Engine.Core
import Synapse.Lib.Text
import Synapse.Mqtt.Encode
import Synapse.Routing.Router

/-!
# The MQTT broker

The registry of connected clients, their subscriptions, the retained messages and the shared
groups. A client is registered with the sending half of its connection's channel, here the number
of the connection. All subscriptions are in one table, under the client id and the filter joined
by U+0000; the router has an entry under the same key.

A call of the broker is one step. `trace` lists the calls of `publish` and everything put on the
channels, oldest first. A hash map that is only looked up is a function; one that is also iterated
over is an association list, and an `Iteration` says in which order its entries come. `now` is the
clock in milliseconds.
-/

namespace Synapse.Mqtt

def maxQos : QoS := .exactlyOnce

/-- `QoS::from_u8(n).unwrap()`. -/
def QoS.ofU8 (n : UInt8) : QoS := (QoS.fromU8 n).getD .atMostOnce

/-- A PUBLISH as forwarded to a subscriber; the properties are set anew. -/
def Publish.toDelivery (p : Publish) (packetId : Option UInt16) : Publish where
  dup := false
  qos := p.qos
  retain := false
  topic := p.topic
  packetId := packetId
  payload := p.payload
  properties := none

/-- A live client connection's outbound half. -/
structure Client where
  conn : ℕ
  nextPacketId : UInt16
deriving DecidableEq, Repr

/-- Granted QoS and the options of a subscription that affect delivery. -/
structure SubState where
  qos : QoS
  noLocal : Bool
  retainAsPublished : Bool
  subscriptionIdentifier : Option UInt32
deriving DecidableEq, Repr

structure RetainedMessage where
  payload : Bytes
  qos : QoS
  expiresAt : Option ℕ
deriving DecidableEq, Repr

def RetainedMessage.expired (r : RetainedMessage) (now : ℕ) : Bool := r.expiresAt.any (· ≤ now)

/-- A shared group is named by its group and the real filter. -/
abbrev GroupName := String × String

abbrev RetainedEntry := Σ _ : String, RetainedMessage

/-- The order in which the hash tables yield their entries. -/
structure Iteration where
  groups : List GroupName → List GroupName
  groups_perm : ∀ l, (groups l).Perm l
  retained : List RetainedEntry → List RetainedEntry
  retained_perm : ∀ l, (retained l).Perm l

def Iteration.inOrder : Iteration := ⟨id, List.Perm.refl, id, List.Perm.refl⟩

/-- What a call finds outside the broker. -/
structure Env where
  now : ℕ
  order : Iteration

inductive Event
  | published (publisher : Option String) (p : Publish)
  | sent (conn : ℕ) (packet : Packet)
deriving DecidableEq, Repr

/-- The packet an event puts on the channel of a connection. -/
def Event.sentTo (conn : ℕ) : Event → Option Packet
  | .sent dest packet => if dest = conn then some packet else none
  | .published .. => none

structure Broker where
  core : SynapseCore
  /-- Durable store for QoS 1/2 inbound publishes. -/
  persist : Log
  router : TopicRouter
  subState : AList fun _ : String ↦ SubState
  retained : AList fun _ : String ↦ RetainedMessage
  clients : String → Option Client
  /-- The members of a group and its round-robin cursor. -/
  sharedMembers : GroupName → Option (List String × ℕ)
  trace : List Event

/-! ## Keys -/

/-- The character between client id and filter in a key. -/
def nul : Char := Char.ofNat 0

def subKey (clientId filter : String) : String := Text.join nul clientId filter

/-- How every key of a client starts. -/
def keyFront (clientId : String) : String := clientId ++ String.singleton nul

/-- `$share/{group}/{real_filter}`, cut into group and real filter. -/
def parseShared (filter : String) : Option GroupName := do
  let rest ← Text.stripPrefix "$share/" filter
  let (group, realFilter) ← Text.splitOnce '/' rest
  if group = "" ∨ realFilter = "" then none else some (group, realFilter)

def sharedFilter (name : GroupName) : String := "$share/" ++ name.1 ++ "/" ++ name.2

/-- The filter topics are matched against. -/
def realFilter (filter : String) : String := ((parseShared filter).map Prod.snd).getD filter

namespace Broker

/-- A broker over a core engine, with the log `pubstore` of the tenant `mqtt`; `none` is the
`unwrap` of a failed creation. -/
def new (core : SynapseCore) : Option Broker :=
  let start (core : SynapseCore) (persist : Log) : Broker :=
    ⟨core, persist, .new, ∅, ∅, fun _ ↦ none, fun _ ↦ none, []⟩
  let core := (core.createLog "mqtt" "pubstore").2
  match SynapseCore.locate core.logs "mqtt" "pubstore" with
  | .ok (some (_, log)) => some (start core log)
  | _ =>
    match core.createLog "mqtt" "pubstore" with
    | (.ok id, core) => (core.logs.object id).map (start core)
    | (.error _, _) => none

def record (b : Broker) (e : Event) : Broker := { b with trace := b.trace ++ [e] }

def send (b : Broker) (conn : ℕ) (packet : Packet) : Broker := b.record (.sent conn packet)

def sendTo (b : Broker) (clientId : String) (p : Publish) : Broker :=
  match b.clients clientId with
  | some client => b.send client.conn (.publish p)
  | none => b

/-- The next packet identifier of a client, `fetch_add` of a 16-bit counter. -/
def nextId (b : Broker) (clientId : String) : Option UInt16 × Broker :=
  match b.clients clientId with
  | none => (none, b)
  | some client =>
    let client' := { client with nextPacketId := client.nextPacketId + 1 }
    (some client.nextPacketId,
      { b with clients := Function.update b.clients clientId (some client') })

/-- A packet identifier for a message of this QoS. -/
def packetIdFor (b : Broker) (clientId : String) (qos : QoS) : Option UInt16 × Broker :=
  if qos = .atMostOnce then (none, b) else b.nextId clientId

/-! ## Sessions -/

def removeSharedMember (b : Broker) (name : GroupName) (clientId : String) : Broker :=
  match b.sharedMembers name with
  | none => b
  | some (members, cursor) =>
    if clientId ∈ members then
      let members := members.erase clientId
      let cursor := if members = [] then 0 else cursor % members.length
      { b with sharedMembers := Function.update b.sharedMembers name (some (members, cursor)) }
    else b

def removeKey (b : Broker) (key clientId : String) (shared : Option GroupName) : Broker :=
  let b := { b with subState := b.subState.erase key, router := b.router.unsubscribe key }
  match shared with
  | some name => b.removeSharedMember name clientId
  | none => b

def dropKey (clientId : String) (b : Broker) (key : String) : Broker :=
  b.removeKey key clientId ((Text.stripPrefix (keyFront clientId) key).bind parseShared)

/-- The keys that start as those of the client do. -/
def sessionKeys (b : Broker) (clientId : String) : List String :=
  b.subState.keys.filter fun key ↦ (Text.stripPrefix (keyFront clientId) key).isSome

def dropSession (b : Broker) (clientId : String) : Broker :=
  -- whichever connection the id is registered with: the caller's own is not compared
  let b := { b with clients := Function.update b.clients clientId none }
  (b.sessionKeys clientId).foldl (dropKey clientId) b

def connect (b : Broker) (clientId : String) (cleanSession : Bool) (conn : ℕ) : Broker :=
  let b := if cleanSession then b.dropSession clientId else b
  { b with clients := Function.update b.clients clientId (some ⟨conn, 1⟩) }

def disconnect (b : Broker) (clientId : String) : Broker := b.dropSession clientId

/-! ## Subscriptions -/

def granted (t : SubscribeTopic) : UInt8 := min t.qos.toU8 maxQos.toU8

/-- The retained messages that match a filter of a SUBSCRIBE, at their effective QoS. -/
def retainedMatches (b : Broker) (env : Env) (t : SubscribeTopic) : List (String × Bytes × QoS) :=
  ((env.order.retained b.retained.entries).filter fun entry ↦
      !entry.2.expired env.now && topicMatches (realFilter t.filter) entry.1).map fun entry ↦
    (entry.1, entry.2.payload, QoS.ofU8 (min entry.2.qos.toU8 (granted t)))

def deliverRetained (clientId : String) (b : Broker) (m : String × Bytes × QoS) : Broker :=
  let (topic, payload, qos) := m
  let (pid, b) := b.packetIdFor clientId qos
  b.sendTo clientId
    { dup := false, qos, retain := true, topic, packetId := pid, payload, properties := none }

def joinShared (b : Broker) (name : GroupName) (clientId : String) : Broker :=
  let (members, cursor) := (b.sharedMembers name).getD ([], 0)
  let members := if clientId ∈ members then members else members ++ [clientId]
  { b with sharedMembers := Function.update b.sharedMembers name (some (members, cursor)) }

def skipRetained (handling : RetainHandling) (alreadySubscribed : Bool) : Bool :=
  match handling with
  | .doNotSend => true
  | .sendIfNewSubscription => alreadySubscribed
  | .sendAtSubscribe => false

/-- The tables after subscribing to one filter. -/
def addKey (b : Broker) (clientId : String) (subscriptionIdentifier : Option UInt32)
    (t : SubscribeTopic) : Broker :=
  let key := subKey clientId t.filter
  let b := { b with
    router := b.router.subscribe key (realFilter t.filter)
    subState := b.subState.insert key
      ⟨QoS.ofU8 (granted t), t.noLocal, t.retainAsPublished, subscriptionIdentifier⟩ }
  match parseShared t.filter with
  | some name => b.joinShared name clientId
  | none => b

/-- Subscribe to one filter; `found` are the retained messages that match any filter of the
packet. -/
def subscribeTopic (clientId : String) (subscriptionIdentifier : Option UInt32)
    (found : List (String × Bytes × QoS)) (b : Broker) (t : SubscribeTopic) : Broker :=
  let alreadySubscribed := (b.subState.lookup (subKey clientId t.filter)).isSome
  let b := b.addKey clientId subscriptionIdentifier t
  -- shared subscriptions never receive retained messages
  if (parseShared t.filter).isSome || skipRetained t.retainHandling alreadySubscribed then b
  else
    (found.filter fun m ↦ topicMatches (realFilter t.filter) m.1).foldl (deliverRetained clientId) b

def subscribe (b : Broker) (env : Env) (clientId : String) (topics : List SubscribeTopic)
    (subscriptionIdentifier : Option UInt32) : List SubAckCode × Broker :=
  -- looked up before the first filter is entered, as one list for the whole packet
  let found := topics.flatMap (b.retainedMatches env)
  (topics.map fun t ↦ SubAckCode.fromU8 (granted t),
    topics.foldl (subscribeTopic clientId subscriptionIdentifier found) b)

def unsubscribeFilter (clientId : String) (b : Broker) (filter : String) : Broker :=
  b.removeKey (subKey clientId filter) clientId (parseShared filter)

def unsubscribe (b : Broker) (clientId : String) (topics : List String) : Broker :=
  topics.foldl (unsubscribeFilter clientId) b

/-! ## Publishing -/

/-- Durably record a QoS 1/2 publish; that it fails is ignored. -/
def persistPublish (b : Broker) (p : Publish) (now : ℕ) : Broker :=
  if p.qos = .atMostOnce then b
  else { b with core := (b.core.append b.persist (encodePacket (.publish p) .v311 []) now).2 }

/-- Store or clear the retained message of the topic. -/
def retain (b : Broker) (p : Publish) (now : ℕ) : Broker :=
  if p.retain then
    if p.payload = [] then { b with retained := b.retained.erase p.topic }
    else
      let expiresAt := (p.properties.bind Properties.messageExpiryInterval).map fun secs ↦
        now + 1000 * secs.toNat
      { b with retained := b.retained.insert p.topic ⟨p.payload, p.qos, expiresAt⟩ }
  else b

/-- The keys a publish matches, split into those delivered directly, one for each client, and the
shared groups. -/
structure Partition where
  seen : List String
  direct : List String
  groups : List GroupName

def Partition.add (q : Partition) (key : String) : Partition :=
  match Text.splitOnce nul key with
  | none => q
  | some (clientId, filter) =>
    match parseShared filter with
    | some name => { q with groups := if name ∈ q.groups then q.groups else q.groups ++ [name] }
    | none =>
      -- overlapping filters of one client: the first one found is used
      if clientId ∈ q.seen then q
      else { q with seen := q.seen ++ [clientId], direct := q.direct ++ [key] }

def partition (keys : List String) : Partition := keys.foldl Partition.add ⟨[], [], []⟩

/-- The position, from the cursor on, of the first member that is connected. -/
def candidate (b : Broker) (members : List String) (cursor : ℕ) : Option (ℕ × String) :=
  (List.range members.length).findSome? fun i ↦
    let idx := (cursor + i) % members.length
    (members[idx]?.filter fun m ↦ (b.clients m).isSome).map (idx, ·)

/-- The key of the member that is next in a group, and the cursor moved past it. -/
def selectMember (b : Broker) (name : GroupName) : Option String × Broker :=
  match b.sharedMembers name with
  | none => (none, b)
  | some (members, cursor) =>
    match b.candidate members cursor with
    | none => (none, b)
    | some (idx, member) =>
      let moved := some (members, (idx + 1) % members.length)
      (some (subKey member (sharedFilter name)),
        { b with sharedMembers := Function.update b.sharedMembers name moved })

def selectMembers : List GroupName → Broker → List String × Broker
  | [], b => ([], b)
  | name :: names, b =>
    let (key, b) := b.selectMember name
    let (keys, b) := selectMembers names b
    (key.toList ++ keys, b)

/-- The message as one subscription gets it. -/
def deliveryOf (p : Publish) (state : Option SubState) (packetId : Option UInt16) (eff : QoS) :
    Publish :=
  let delivery := { p.toDelivery packetId with qos := eff }
  match state with
  | none => delivery
  | some state =>
    { delivery with
      retain := if state.retainAsPublished then p.retain else false
      properties := state.subscriptionIdentifier.map fun subId ↦
        { Properties.default with subscriptionIdentifier := some subId } }

/-- No Local: a client does not get its own message through such a subscription. -/
def suppressed (publisher : Option String) (clientId : String) (state : Option SubState) : Bool :=
  publisher == some clientId && state.any SubState.noLocal

/-- Deliver a publish through one subscription, at the lesser of the two levels. -/
def deliver (publisher : Option String) (p : Publish) (b : Broker) (key : String) : Broker :=
  match Text.splitOnce nul key with
  | none => b
  | some (clientId, _) =>
    let state := b.subState.lookup key
    if suppressed publisher clientId state then b
    else
      let grantedQos := (state.map SubState.qos).getD .atMostOnce
      let eff := QoS.ofU8 (min p.qos.toU8 grantedQos.toU8)
      let (packetId, b) := b.packetIdFor clientId eff
      b.sendTo clientId (deliveryOf p state packetId eff)

def publish (b : Broker) (env : Env) (publisher : Option String) (p : Publish) : Broker :=
  let b := b.record (.published publisher p)
  let b := (b.persistPublish p env.now).retain p env.now
  -- the message is stored and retained before the subscribers are looked up
  let found := partition (b.router.route p.topic)
  let (shared, b) := selectMembers (env.order.groups found.groups) b
  (found.direct ++ shared).foldl (deliver publisher p) b

end Broker

end Synapse.Mqtt
