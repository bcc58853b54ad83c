import Synapse.Lib.Run
import Synapse.Mqtt.Broker

/-!
# The MQTT server

One task per connection reads packets, handles them against the shared broker and writes what
arrives on the connection's channel. The system is the broker with all connections, and its labels
are what any of the tasks may do next, so that a run is any interleaving of them. `read` says that
bytes have arrived, which is what the keep-alive watchdog looks at, and `packet` that one packet has
been decoded from them.

A connection ends by a packet that closes it or in one of the ways of `Ending`. The code gives up
the session of the client id of the last CONNECT when the peer closes, when the watchdog fires and
on a DISCONNECT, and in no other case.
-/

namespace Synapse.Mqtt

/-! ## A connection -/

/-- Topic aliases of a connection, for the two directions. -/
structure AliasTables where
  inbound : UInt16 → Option String
  outbound : String → Option UInt16
  /-- Highest alias the client accepts. -/
  outboundMax : UInt16
  nextOutboundAlias : UInt16

structure Connection where
  clientId : Option String
  /-- In seconds. -/
  keepAlive : Option UInt16
  lastActivity : ℕ
  version : ProtocolVersion
  aliases : AliasTables
  /-- How many packets were taken from the channel. -/
  taken : ℕ

def Connection.new (now : ℕ) : Connection :=
  ⟨none, none, now, .v311, ⟨fun _ ↦ none, fun _ ↦ none, 0, 1⟩, 0⟩

/-- When the watchdog fires: after one and a half times the interval without a read. -/
def Connection.deadline (c : Connection) : Option ℕ :=
  c.keepAlive.map fun secs ↦ c.lastActivity + 1500 * secs.toNat

/-- Use, and on first use establish, an alias for the topic. -/
def applyOutboundAlias (p : Publish) (aliases : AliasTables) : Publish × AliasTables :=
  let withAlias (a : UInt16) : Option Properties :=
    some { p.properties.getD .default with topicAlias := some a }
  if aliases.outboundMax = 0 then (p, aliases)
  else
    match aliases.outbound p.topic with
    | some a => ({ p with topic := "", properties := withAlias a }, aliases)
    | none =>
      if aliases.nextOutboundAlias ≤ aliases.outboundMax then
        let a := aliases.nextOutboundAlias
        ({ p with properties := withAlias a },
          { aliases with
            nextOutboundAlias := a + 1
            outbound := Function.update aliases.outbound p.topic (some a) })
      else (p, aliases)

def writePacket (version : ProtocolVersion) (aliases : AliasTables) (pkt : Packet) :
    Bytes × AliasTables :=
  match version, pkt with
  | .v5, .publish p =>
    let (p, aliases) := applyOutboundAlias p aliases
    (encodePacket (.publish p) version [], aliases)
  | _, pkt => (encodePacket pkt version [], aliases)

theorem inbound_writePacket (version : ProtocolVersion) (aliases : AliasTables) (pkt : Packet) :
    (writePacket version aliases pkt).2.inbound = aliases.inbound := by
  cases version with
  | v311 => cases pkt <;> rfl
  | v5 =>
    cases pkt with
    | publish p =>
      rw [writePacket, applyOutboundAlias]
      split_ifs
      · rfl
      all_goals cases aliases.outbound p.topic <;> rfl
    | _ => rfl

/-- The bytes of the packets that are left on the channel. -/
def drainOutbound (version : ProtocolVersion) : AliasTables → List Packet → Bytes
  | _, [] => []
  | aliases, pkt :: pkts =>
    let (frame, aliases) := writePacket version aliases pkt
    frame ++ drainOutbound version aliases pkts

/-! ## Handling a packet -/

/-- The message of a will. It is published when the client connects. -/
def Will.publish (will : Will) : Publish where
  dup := false
  qos := will.qos
  retain := will.retain
  topic := will.topic
  packetId := none
  payload := will.payload
  properties := none

/-- The properties of a version 5 CONNACK. -/
def connAckProperties : Properties :=
  { Properties.default with
    retainAvailable := some 1
    wildcardSubscriptionAvailable := some 1
    subscriptionIdentifierAvailable := some 1
    sharedSubscriptionAvailable := some 1
    maximumQos := some maxQos.toU8 }

def Connection.register (c : Connection) (k : Connect) : Connection :=
  { c with
    version := k.protocol
    clientId := some k.clientId
    keepAlive := if 0 < k.keepAlive then some k.keepAlive else c.keepAlive }

def handleConnect (env : Env) (b : Broker) (conn : ℕ) (c : Connection) (k : Connect) :
    Bool × Connection × Broker :=
  let b := b.connect k.clientId k.cleanSession conn
  let c := c.register k
  -- the will goes out at once, and also when the authentication is refused below
  let b := k.will.elim b fun will ↦ b.publish env c.clientId will.publish
  match k.protocol with
  | .v5 =>
    if (k.properties.bind Properties.authenticationMethod).isSome then
      (true, c, b.send conn (.connAck false ReasonCode.badAuthenticationMethod.toU8 none))
    else
      let outboundMax := (k.properties.bind Properties.topicAliasMaximum).getD 0
      (false, { c with aliases := { c.aliases with outboundMax } },
        b.send conn (.connAck false ReasonCode.success.toU8 (some connAckProperties)))
  | .v311 => (false, c, b.send conn (.connAck false 0 none))

/-- Resolve or register the topic alias of an inbound PUBLISH. -/
def resolveAlias (aliases : AliasTables) (p : Publish) : Publish × AliasTables :=
  match p.properties.bind Properties.topicAlias with
  | none => (p, aliases)
  | some a =>
    -- an alias that was never registered leaves the topic empty
    if p.topic = "" then ({ p with topic := (aliases.inbound a).getD p.topic }, aliases)
    else (p, { aliases with inbound := Function.update aliases.inbound a (some p.topic) })

def acknowledgement (p : Publish) : Option Packet :=
  match p.qos with
  | .atMostOnce => none
  | .atLeastOnce => p.packetId.map (.pubAck · .success none)
  | .exactlyOnce => p.packetId.map (.pubRec · .success none)

def handlePublish (env : Env) (b : Broker) (conn : ℕ) (c : Connection) (p : Publish) :
    Bool × Connection × Broker :=
  let (p, aliases) := resolveAlias c.aliases p
  -- every QoS takes this path: neither the DUP flag nor the identifier is looked at
  let b := b.publish env c.clientId p
  (false, { c with aliases }, (acknowledgement p).elim b (b.send conn))

def handleSubscribe (env : Env) (b : Broker) (conn : ℕ) (c : Connection) (packetId : UInt16)
    (topics : List SubscribeTopic) (properties : Option Properties) : Broker :=
  match c.clientId with
  | none => b
  | some id =>
    let (codes, b) := b.subscribe env id topics (properties.bind Properties.subscriptionIdentifier)
    let reasons := match c.version with
      | .v5 => some (codes.map SubAckCode.toReason)
      | .v311 => none
    b.send conn (.subAck packetId codes reasons none)

def handleUnsubscribe (b : Broker) (conn : ℕ) (c : Connection) (packetId : UInt16)
    (topics : List String) : Broker :=
  let b := c.clientId.elim b (b.unsubscribe · topics)
  let reasons := match c.version with
    | .v5 => some (List.replicate topics.length ReasonCode.success)
    | .v311 => none
  b.send conn (.unsubAck packetId reasons none)

def giveUp (b : Broker) (c : Connection) : Broker := c.clientId.elim b b.disconnect

/-- Handle one inbound packet; the first component says that the connection should close. -/
def handlePacket (env : Env) (b : Broker) (conn : ℕ) (c : Connection) :
    Packet → Bool × Connection × Broker
  | .connect k => handleConnect env b conn c k
  | .publish p => handlePublish env b conn c p
  | .pubRel packetId _ _ => (false, c, b.send conn (.pubComp packetId .success none))
  | .pubRec packetId _ _ => (false, c, b.send conn (.pubRel packetId .success none))
  | .subscribe packetId topics properties =>
    (false, c, handleSubscribe env b conn c packetId topics properties)
  | .unsubscribe packetId topics _ => (false, c, handleUnsubscribe b conn c packetId topics)
  | .pingReq => (false, c, b.send conn .pingResp)
  | .disconnect _ _ => (true, c, giveUp b c)
  | .auth _ _ => (true, c, b.send conn (.disconnect .protocolError none))
  | .connAck .. | .pubAck .. | .pubComp .. | .subAck .. | .unsubAck .. | .pingResp => (false, c, b)

/-! ## The system -/

/-- How a connection can end, apart from a packet that closes it. -/
inductive Ending
  | peerClosed
  | keepAliveExpired
  | malformed
  | ioError
deriving DecidableEq, Repr

/-- Only the watchdog has to wait. -/
def Ending.Possible (c : Connection) (now : ℕ) : Ending → Prop
  | .keepAliveExpired => ∃ d ∈ c.deadline, d ≤ now
  | .peerClosed | .malformed | .ioError => True

instance (c : Connection) (now : ℕ) (how : Ending) : Decidable (how.Possible c now) := by
  cases how <;> dsimp only [Ending.Possible] <;> infer_instance

/-- The broker after the connection has ended: two of the exits leave the loop, the others leave
the function. -/
def Ending.teardown (b : Broker) (c : Connection) : Ending → Broker
  | .peerClosed | .keepAliveExpired => giveUp b c
  | .malformed | .ioError => b

/-- A packet that was handled, with the events this gave rise to. -/
structure Handling where
  conn : ℕ
  packet : Packet
  events : List Event
deriving DecidableEq, Repr

structure Server where
  broker : Broker
  conns : ℕ → Option Connection
  accepted : ℕ
  /-- What was written to the socket of a connection. -/
  written : ℕ → Bytes
  history : List Handling

inductive Label
  | accept (now : ℕ)
  | read (conn now : ℕ)
  | packet (conn : ℕ) (env : Env) (pkt : Packet)
  | write (conn : ℕ)
  | finish (conn now : ℕ) (how : Ending)

namespace Server

def start (b : Broker) : Server := ⟨b, fun _ ↦ none, 0, fun _ ↦ [], []⟩

/-- The packets put on the channel of a connection. -/
def channel (s : Server) (conn : ℕ) : List Packet :=
  s.broker.trace.filterMap (Event.sentTo conn)

def put (s : Server) (conn : ℕ) (c : Option Connection) : Server :=
  { s with conns := Function.update s.conns conn c }

def append (s : Server) (conn : ℕ) (bytes : Bytes) : Server :=
  { s with written := Function.update s.written conn (s.written conn ++ bytes) }

/-- Handle a packet, and flush the channel if the connection closes. -/
def onPacket (s : Server) (conn : ℕ) (c : Connection) (env : Env) (pkt : Packet) : Server :=
  let (closed, c, b) := handlePacket env s.broker conn c pkt
  let events := b.trace.drop s.broker.trace.length
  let s : Server := { s with broker := b, history := s.history ++ [⟨conn, pkt, events⟩] }
  if closed then
    let rest := (s.channel conn).drop c.taken
    (s.append conn (drainOutbound c.version c.aliases rest)).put conn none
  else s.put conn (some c)

def onWrite (s : Server) (conn : ℕ) (c : Connection) : Option Server :=
  (s.channel conn)[c.taken]?.map fun pkt ↦
    let (frame, aliases) := writePacket c.version c.aliases pkt
    (s.append conn frame).put conn (some { c with aliases, taken := c.taken + 1 })

def onFinish (s : Server) (conn : ℕ) (c : Connection) (how : Ending) : Server :=
  { s with broker := how.teardown s.broker c }.put conn none

def step (s : Server) : Label → Option Server
  | .accept now =>
    some { s.put s.accepted (some (.new now)) with accepted := s.accepted + 1 }
  | .read conn now => (s.conns conn).map fun c ↦ s.put conn (some { c with lastActivity := now })
  | .packet conn env pkt => (s.conns conn).map fun c ↦ s.onPacket conn c env pkt
  | .write conn => (s.conns conn).bind fun c ↦ s.onWrite conn c
  | .finish conn now how =>
    (s.conns conn).bind fun c ↦ if how.Possible c now then some (s.onFinish conn c how) else none

/-- Every action is admissible. -/
def Any (_ : Server) (_ : Label) : Prop := True

instance (s : Server) (l : Label) : Decidable (s.Any l) := isTrue trivial

def handled (s : Server) (conn : ℕ) : List Handling := s.history.filter (·.conn = conn)

/-! ## What a step does -/

theorem broker_onPacket (s : Server) (conn : ℕ) (c : Connection) (env : Env) (pkt : Packet) :
    (s.onPacket conn c env pkt).broker = (handlePacket env s.broker conn c pkt).2.2 := by
  rw [onPacket]
  dsimp only
  split_ifs <;> rfl

variable {s s' : Server} {l : Label}

/-- A step accepts a connection or takes one further: it handles a packet, gives up the session of a
connection that ends, or touches neither the broker nor the record. -/
theorem step_cases (h : s.step l = some s') :
    (∃ now, l = .accept now ∧ s'.conns = Function.update s.conns s.accepted (some (.new now)) ∧
      s'.accepted = s.accepted + 1 ∧ s'.broker = s.broker ∧ s'.history = s.history) ∨
    ∃ conn c c', s.conns conn = some c ∧ s'.conns = Function.update s.conns conn c' ∧
      s'.accepted = s.accepted ∧
      (s'.broker = s.broker ∧ s'.history = s.history ∧ (∀ n env pkt, l ≠ .packet n env pkt) ∧
          (∀ d ∈ c', d.clientId = c.clientId ∧ d.aliases.inbound = c.aliases.inbound) ∨
        (∃ env pkt, l = .packet conn env pkt ∧
          s'.broker = (handlePacket env s.broker conn c pkt).2.2 ∧
          s'.history = s.history ++ [⟨conn, pkt, s'.broker.trace.drop s.broker.trace.length⟩] ∧
          ∀ d ∈ c', d = (handlePacket env s.broker conn c pkt).2.1) ∨
        ∃ now how, l = .finish conn now how ∧ s'.broker = giveUp s.broker c ∧
          s'.history = s.history ∧ c' = none) := by
  cases l with
  | accept now =>
    cases h
    exact .inl ⟨now, rfl, rfl, rfl, rfl, rfl⟩
  | read conn now =>
    obtain ⟨c, hc, rfl⟩ := Option.map_eq_some_iff.mp h
    exact .inr ⟨conn, c, _, hc, rfl, rfl,
      .inl ⟨rfl, rfl, by simp, by rintro _ ⟨⟩; exact ⟨rfl, rfl⟩⟩⟩
  | packet conn env pkt =>
    obtain ⟨c, hc, rfl⟩ := Option.map_eq_some_iff.mp h
    rw [onPacket]
    dsimp only
    split_ifs
    · exact .inr ⟨conn, c, none, hc, rfl, rfl,
        .inr (.inl ⟨env, pkt, rfl, rfl, rfl, fun _ hd ↦ nomatch hd⟩)⟩
    · exact .inr ⟨conn, c, _, hc, rfl, rfl,
        .inr (.inl ⟨env, pkt, rfl, rfl, rfl, by rintro _ ⟨⟩; rfl⟩)⟩
  | write conn =>
    obtain ⟨c, hc, hwrt⟩ := Option.bind_eq_some_iff.mp h
    obtain ⟨pkt, -, rfl⟩ := Option.map_eq_some_iff.mp hwrt
    refine .inr ⟨conn, c, _, hc, rfl, rfl, .inl ⟨rfl, rfl, by simp, ?_⟩⟩
    rintro _ ⟨⟩
    exact ⟨rfl, inbound_writePacket ..⟩
  | finish conn now how =>
    obtain ⟨c, hc, hfin⟩ := Option.bind_eq_some_iff.mp h
    split_ifs at hfin
    cases hfin
    refine .inr ⟨conn, c, none, hc, rfl, rfl, ?_⟩
    -- an error leaves the function before the session is given up
    cases how with
    | peerClosed | keepAliveExpired => exact .inr (.inr ⟨now, _, rfl, rfl, rfl, rfl⟩)
    | malformed | ioError => exact .inl ⟨rfl, rfl, by simp, fun _ hd ↦ nomatch hd⟩

/-- A step records at most the packet it handles. -/
theorem history_step (h : s.step l = some s') :
    s'.history = s.history ∧ (∀ conn env pkt, l ≠ .packet conn env pkt) ∨
    ∃ conn c env pkt, l = .packet conn env pkt ∧ s.conns conn = some c ∧
      s'.history = s.history ++ [⟨conn, pkt,
        (handlePacket env s.broker conn c pkt).2.2.trace.drop s.broker.trace.length⟩] := by
  rcases step_cases h with ⟨_, rfl, -, -, -, heq⟩ | ⟨conn, c, _, hc, -, -, ⟨-, heq, hne, -⟩ |
    ⟨env, pkt, rfl, hbrk, heq, -⟩ | ⟨_, _, rfl, -, heq, -⟩⟩
  · exact .inl ⟨heq, by simp⟩
  · exact .inl ⟨heq, hne⟩
  · exact .inr ⟨conn, c, env, pkt, rfl, hc, hbrk ▸ heq⟩
  · exact .inl ⟨heq, by simp⟩

theorem handled_of_eq (h : s'.history = s.history) (n : ℕ) : s'.handled n = s.handled n := by
  rw [handled, h, handled]

theorem handled_concat {x : Handling} (h : s'.history = s.history ++ [x]) (n : ℕ) :
    s'.handled n = s.handled n ++ if x.conn = n then [x] else [] := by
  rw [handled, h, List.filter_append]
  by_cases hn : x.conn = n <;> simp [hn, handled]

/-- Every connection is in relation `P` with the packets that were handled on it. -/
structure Knows (P : List Handling → Connection → Prop) (s : Server) : Prop where
  later : ∀ n, s.accepted ≤ n → s.conns n = none ∧ s.handled n = []
  holds : ∀ n c, s.conns n = some c → P (s.handled n) c

variable {P : List Handling → Connection → Prop}

theorem knows_start (b : Broker) : Knows P (start b) :=
  ⟨fun _ _ ↦ ⟨rfl, rfl⟩, fun _ _ h ↦ by cases h⟩

/-- What a new connection has, reading and writing do not lose and handling a packet keeps. -/
theorem Knows.step (h : Knows P s) (hstep : s.step l = some s') (hnew : ∀ now, P [] (.new now))
    (hquiet : ∀ hs c d, d.clientId = c.clientId → d.aliases.inbound = c.aliases.inbound →
      P hs c → P hs d)
    (hpkt : ∀ conn env pkt, l = .packet conn env pkt → ∀ hs b c events, P hs c →
      P (hs ++ [⟨conn, pkt, events⟩]) (handlePacket env b conn c pkt).2.1) : Knows P s' := by
  -- only one connection changes, and the record of no other grows
  obtain ⟨conn, c', hcns, hacc, hlt, hoth, hself⟩ : ∃ conn c',
      s'.conns = Function.update s.conns conn c' ∧ s.accepted ≤ s'.accepted ∧
      conn < s'.accepted ∧ (∀ n, n ≠ conn → s'.handled n = s.handled n) ∧
      ∀ d ∈ c', P (s'.handled conn) d := by
    rcases step_cases hstep with
      ⟨now, -, hcns, hacc, -, hhis⟩ | ⟨conn, c, c', hc, hcns, hacc, hcase⟩
    · refine ⟨s.accepted, _, hcns, by omega, by omega, fun n _ ↦ handled_of_eq hhis n, ?_⟩
      rintro _ ⟨⟩
      rw [handled_of_eq hhis, (h.later s.accepted le_rfl).2]
      exact hnew now
    have hlt : conn < s.accepted := by
      by_contra hge
      exact nomatch hc.symm.trans (h.later conn (Nat.not_lt.mp hge)).1
    refine ⟨conn, c', hcns, hacc.ge, hacc ▸ hlt, ?_⟩
    rcases hcase with ⟨-, hhis, -, hd⟩ | ⟨env, pkt, rfl, -, hhis, hd⟩ | ⟨_, _, -, -, hhis, rfl⟩
    · refine ⟨fun n _ ↦ handled_of_eq hhis n, fun d hmem ↦ ?_⟩
      rw [handled_of_eq hhis]
      exact hquiet _ c d (hd d hmem).1 (hd d hmem).2 (h.holds conn c hc)
    · refine ⟨fun n hn ↦ ?_, fun d hmem ↦ ?_⟩
      · rw [handled_concat hhis, if_neg hn.symm, List.append_nil]
      · rw [hd d hmem, handled_concat hhis, if_pos rfl]
        exact hpkt conn env pkt rfl _ s.broker c _ (h.holds conn c hc)
    · exact ⟨fun n _ ↦ handled_of_eq hhis n, fun _ hd ↦ nomatch hd⟩
  refine ⟨fun n hn ↦ ?_, fun n d hd ↦ ?_⟩
  · rw [hcns, Function.update_of_ne (by omega), hoth n (by omega)]
    exact h.later n (hacc.trans hn)
  rw [hcns] at hd
  by_cases hn : n = conn
  · subst hn
    rw [Function.update_self] at hd
    exact hself d hd
  · rw [Function.update_of_ne hn] at hd
    rw [hoth n hn]
    exact h.holds n d hd

end Server

def Packet.isMessage : Packet → Bool
  | .publish _ => true
  | _ => false

/-! ## A broker to run -/

/-- The broker over an empty engine. -/
def Broker.fresh : Broker := (Broker.new (.withObjectStore .empty)).get (by decide +kernel)

def Packet.connectAs (clientId : String) : Packet :=
  .connect ⟨.v311, clientId, 1, true, none, none, none, none⟩

def Packet.subscribeTo (filter : String) : Packet :=
  .subscribe 1 [⟨filter, .exactlyOnce, false, false, .sendAtSubscribe⟩] none

end Synapse.Mqtt
