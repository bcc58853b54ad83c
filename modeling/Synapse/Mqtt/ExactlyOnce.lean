import Synapse.Mqtt.Frame
import Synapse.Mqtt.Server

/-!
# QoS 2 on the receiving side

An exchange of a packet identifier is what happens on a connection from a QoS 2 PUBLISH with this
identifier up to the next PUBREL for it. The sender may repeat the PUBLISH until it has seen the
PUBREC, so an exchange can hold several copies of one message.

The server keeps nothing between the packets of an exchange: every copy is handed to the broker and
answered with a PUBREC, and a PUBREL with a PUBCOMP whatever came before. Over every run a message
is therefore routed once for each copy, and exactly once in the exchanges without a repetition only
(`exactlyOnce_iff`). What handling a packet does is said by `Does`.
-/

namespace Synapse.Mqtt

open Transition List Option

/-! ## What handling a packet does -/

/-- The message of a call of `publish`. -/
def Event.message : Event → Option Publish
  | .published _ p => some p
  | .sent .. => none

/-- From `b` to `b'` the broker was called to publish `calls`, and `answers` were put on the channel
of the connection, next to messages. -/
def Does (conn : ℕ) (b b' : Broker) (calls : List Publish) (answers : List Packet) : Prop :=
  ∃ es, b'.trace = b.trace ++ es ∧ es.filterMap Event.message = calls ∧
    (es.filterMap (Event.sentTo conn)).filter (fun pkt ↦ !pkt.isMessage) = answers

variable {pkt : Packet} {conn : ℕ}

section Does

variable {conn : ℕ} {b b' b'' : Broker} {calls calls' : List Publish}
  {answers answers' : List Packet}

theorem Does.trans (h : Does conn b b' calls answers) (h' : Does conn b' b'' calls' answers') :
    Does conn b b'' (calls ++ calls') (answers ++ answers') := by
  obtain ⟨es, htrc, rfl, rfl⟩ := h
  obtain ⟨es', htrc', rfl, rfl⟩ := h'
  refine ⟨es ++ es', by rw [htrc', htrc, append_assoc], filterMap_append, ?_⟩
  rw [filterMap_append, filter_append]

theorem Does.of_eq (h : b'.trace = b.trace) : Does conn b b' [] [] :=
  ⟨[], by simpa using h, rfl, rfl⟩

theorem Does.of_delivers (h : b.Delivers b') : Does conn b b' [] [] := by
  obtain ⟨es, htrc, hes⟩ := h
  refine ⟨es, htrc, filterMap_eq_nil_iff.mpr fun e he ↦ ?_, ?_⟩
  · obtain ⟨dest, d, rfl⟩ := hes e he
    rfl
  rw [filter_eq_nil_iff]
  intro pkt hpkt
  obtain ⟨e, he, hsent⟩ := mem_filterMap.mp hpkt
  obtain ⟨dest, d, rfl⟩ := hes e he
  rw [Event.sentTo] at hsent
  split_ifs at hsent
  cases hsent
  simp [Packet.isMessage]

theorem does_send (b : Broker) (h : pkt.isMessage = false) :
    Does conn b (b.send conn pkt) [] [pkt] :=
  ⟨[.sent conn pkt], rfl, rfl, by simp [Event.sentTo, h]⟩

theorem does_publish (b : Broker) (env : Env) (publisher : Option String) (p : Publish) :
    Does conn b (b.publish env publisher p) [p] [] := by
  have hrecord : Does conn b (b.record (.published publisher p)) [p] [] :=
    ⟨[.published publisher p], rfl, rfl, rfl⟩
  exact hrecord.trans (.of_delivers (b.delivers_publish env publisher p))

end Does

/-- The messages a packet makes the broker publish. -/
def Connection.calls (c : Connection) : Packet → List Publish
  | .connect k => (k.will.map Will.publish).toList
  | .publish p => [(resolveAlias c.aliases p).1]
  | _ => []

section Handle

variable (env : Env) (b : Broker) (conn : ℕ) (c : Connection)

theorem does_handleConnect (k : Connect) :
    ∃ answers, Does conn b (handleConnect env b conn c k).2.2 (c.calls (.connect k)) answers := by
  have hwill : Does conn b (k.will.elim (b.connect k.clientId k.cleanSession conn) fun will ↦
        (b.connect k.clientId k.cleanSession conn).publish env (c.register k).clientId will.publish)
      (c.calls (.connect k)) [] := by
    have hconn : Does conn b (b.connect k.clientId k.cleanSession conn) [] [] :=
      .of_eq (b.trace_connect ..)
    rw [Connection.calls]
    cases k.will with
    | none => exact hconn
    | some will => exact hconn.trans (does_publish ..)
  rw [handleConnect]
  cases k.protocol with
  | v311 => exact ⟨_, by simpa using hwill.trans (does_send _ rfl)⟩
  | v5 => split_ifs <;> exact ⟨_, by simpa using hwill.trans (does_send _ rfl)⟩

theorem resolveAlias_eq (aliases : AliasTables) (p : Publish) :
    ∃ topic, (resolveAlias aliases p).1 = { p with topic } ∧ (p.topic ≠ "" → topic = p.topic) := by
  rw [resolveAlias]
  cases p.properties.bind Properties.topicAlias with
  | none => exact ⟨p.topic, rfl, fun _ ↦ rfl⟩
  | some a =>
    split_ifs with htop
    · exact ⟨_, rfl, fun hne ↦ absurd htop hne⟩
    · exact ⟨p.topic, rfl, fun _ ↦ rfl⟩

theorem isMessage_acknowledgement {p : Publish} (h : acknowledgement p = some pkt) :
    pkt.isMessage = false := by
  rw [acknowledgement] at h
  cases hq : p.qos <;> simp only [hq, map_eq_some_iff, reduceCtorEq] at h
  all_goals
    obtain ⟨i, -, rfl⟩ := h
    rfl

theorem does_handlePublish (p : Publish) :
    Does conn b (handlePublish env b conn c p).2.2 (c.calls (.publish p))
      (acknowledgement p).toList := by
  have hsame : acknowledgement (resolveAlias c.aliases p).1 = acknowledgement p := by
    obtain ⟨topic, heq, -⟩ := resolveAlias_eq c.aliases p
    rw [heq]
    rfl
  rw [handlePublish]
  dsimp only
  rw [hsame]
  have hpub : Does conn b (b.publish env c.clientId (resolveAlias c.aliases p).1)
      (c.calls (.publish p)) [] := does_publish ..
  cases hack : acknowledgement p with
  | none => exact hpub
  | some pkt => exact hpub.trans (does_send _ (isMessage_acknowledgement hack))

theorem does_handleSubscribe (packetId : UInt16) (topics : List SubscribeTopic)
    (properties : Option Properties) :
    ∃ answers,
      Does conn b (handleSubscribe env b conn c packetId topics properties) [] answers := by
  rw [handleSubscribe]
  cases c.clientId with
  | none => exact ⟨[], .of_eq rfl⟩
  | some id => exact ⟨_, (Does.of_delivers (b.delivers_subscribe id env topics _)).trans
      (does_send _ rfl)⟩

theorem does_handleUnsubscribe (packetId : UInt16) (topics : List String) :
    ∃ answers, Does conn b (handleUnsubscribe b conn c packetId topics) [] answers := by
  have hunsub : Does conn b (c.clientId.elim b (b.unsubscribe · topics)) [] [] := by
    cases c.clientId with
    | none => exact .of_eq rfl
    | some id =>
      obtain ⟨_, _, _, heq⟩ := b.unsubscribe_eq id topics
      exact .of_eq (by rw [elim_some, heq])
  exact ⟨_, hunsub.trans (does_send _ rfl)⟩

theorem trace_giveUp : (giveUp b c).trace = b.trace := by
  rw [giveUp]
  cases c.clientId with
  | none => rfl
  | some id => exact b.trace_dropSession id

/-- Every packet makes the calls it stands for, and no others. -/
theorem does_handlePacket (pkt : Packet) :
    ∃ answers, Does conn b (handlePacket env b conn c pkt).2.2 (c.calls pkt) answers := by
  cases pkt with
  | connect k => exact does_handleConnect env b conn c k
  | publish p => exact ⟨_, does_handlePublish env b conn c p⟩
  | subscribe packetId topics properties => exact does_handleSubscribe env b conn c ..
  | unsubscribe packetId topics properties => exact does_handleUnsubscribe b conn c ..
  | disconnect reason properties => exact ⟨[], .of_eq (trace_giveUp b c)⟩
  | pubRel | pubRec | pingReq | auth => exact ⟨_, does_send b rfl⟩
  | connAck | pubAck | pubComp | subAck | unsubAck | pingResp => exact ⟨[], .of_eq rfl⟩

theorem filterMap_drop_handlePacket (pkt : Packet) :
    ((handlePacket env b conn c pkt).2.2.trace.drop b.trace.length).filterMap Event.message =
      c.calls pkt := by
  obtain ⟨answers, es, htrc, hcl, -⟩ := does_handlePacket env b conn c pkt
  rw [htrc, drop_left, hcl]

end Handle

/-! ## Exchanges -/

/-- A QoS 2 message with this packet identifier. -/
def Publish.isFor (i : UInt16) (p : Publish) : Bool := p.qos == .exactlyOnce && p.packetId == some i

namespace Handling

/-- A copy of a QoS 2 message with this packet identifier has arrived. -/
def isCopy (i : UInt16) (h : Handling) : Bool :=
  match h.packet with
  | .publish p => p.isFor i
  | _ => false

def isRelease (i : UInt16) (h : Handling) : Bool :=
  match h.packet with
  | .pubRel packetId _ _ => packetId == i
  | _ => false

/-- The QoS 2 messages with this identifier that `Broker::publish` was called with. -/
def routed (i : UInt16) (h : Handling) : List Publish :=
  (h.events.filterMap Event.message).filter (Publish.isFor i)

/-- What was put on the connection's own channel, apart from messages. -/
def answers (h : Handling) : List Packet :=
  (h.events.filterMap (Event.sentTo h.conn)).filter fun pkt ↦ !pkt.isMessage

/-- The packet carries this message; a topic alias may stand for its topic. -/
def Carries (h : Handling) (p : Publish) : Prop :=
  ∃ q, h.packet = .publish q ∧ p = { q with topic := p.topic } ∧ (q.topic ≠ "" → p.topic = q.topic)

end Handling

/-- The exchanges of a packet identifier, each from its first copy to the release; `cur` is the one
that has begun. -/
def exchangesFrom (i : UInt16) (cur : List Handling) : List Handling → List (List Handling)
  | [] => []
  | h :: hs =>
    if h.isRelease i then
      if cur = [] then exchangesFrom i [] hs else (cur ++ [h]) :: exchangesFrom i [] hs
    else if cur = [] ∧ h.isCopy i = false then exchangesFrom i [] hs
    else exchangesFrom i (cur ++ [h]) hs

def exchanges (i : UInt16) (hs : List Handling) : List (List Handling) := exchangesFrom i [] hs

variable {i : UInt16} {x : List Handling}

theorem mem_of_mem_exchangesFrom {cur hs : List Handling} {h : Handling}
    (hx : x ∈ exchangesFrom i cur hs) (hh : h ∈ x) : h ∈ cur ∨ h ∈ hs := by
  -- the four cases are the branches of `exchangesFrom`; only the last one keeps `cur`
  induction hs generalizing cur with
  | nil => simp [exchangesFrom] at hx
  | cons g hs ih =>
    rw [exchangesFrom] at hx
    split_ifs at hx
    · exact .inr (mem_cons_of_mem g ((ih hx).resolve_left not_mem_nil))
    · rcases mem_cons.mp hx with rfl | hx
      · rcases mem_append.mp hh with hh | hh
        · exact .inl hh
        · exact .inr (mem_singleton.mp hh ▸ mem_cons_self)
      · exact .inr (mem_cons_of_mem g ((ih hx).resolve_left not_mem_nil))
    · exact .inr (mem_cons_of_mem g ((ih hx).resolve_left not_mem_nil))
    · rcases ih hx with hh | hh
      · rcases mem_append.mp hh with hh | hh
        · exact .inl hh
        · exact .inr (mem_singleton.mp hh ▸ mem_cons_self)
      · exact .inr (mem_cons_of_mem g hh)

/-- In every exchange one of the copies is routed, every copy is answered by PUBREC and the release
by PUBCOMP. -/
structure ExactlyOnce (i : UInt16) (hs : List Handling) : Prop where
  routed : ∀ x ∈ exchanges i hs, ∃ p, x.flatMap (Handling.routed i) = [p] ∧ ∃ h ∈ x, h.Carries p
  received : ∀ h ∈ hs, h.isCopy i → h.answers = [.pubRec i .success none]
  completed : ∀ h ∈ hs, h.isRelease i → h.answers = [.pubComp i .success none]

/-! ## Every run -/

/-- What the record of a packet says, as far as QoS 2 is concerned. -/
structure Handling.Sound (i : UInt16) (h : Handling) : Prop where
  copy : h.isCopy i → (∃ p, h.routed i = [p] ∧ h.Carries p) ∧ h.answers = [.pubRec i .success none]
  other : h.isCopy i = false → h.routed i = []
  release : h.isRelease i → h.answers = [.pubComp i .success none]

theorem isFor_resolveAlias (aliases : AliasTables) (p : Publish) (i : UInt16) :
    (resolveAlias aliases p).1.isFor i = p.isFor i := by
  obtain ⟨topic, heq, -⟩ := resolveAlias_eq aliases p
  rw [heq]
  rfl

theorem carries_resolveAlias (aliases : AliasTables) (p : Publish) (h : Handling)
    (hp : h.packet = .publish p) : h.Carries (resolveAlias aliases p).1 := by
  obtain ⟨topic, heq, htop⟩ := resolveAlias_eq aliases p
  rw [heq]
  exact ⟨p, hp, rfl, htop⟩

/-- What was done can be read off the record. -/
theorem Does.record {b b' : Broker} {calls : List Publish} {answers : List Packet}
    (h : Does conn b b' calls answers) (pkt : Packet) (i : UInt16) :
    (Handling.mk conn pkt (b'.trace.drop b.trace.length)).routed i =
        calls.filter (Publish.isFor i) ∧
      (Handling.mk conn pkt (b'.trace.drop b.trace.length)).answers = answers := by
  obtain ⟨es, htrc, rfl, rfl⟩ := h
  rw [htrc, drop_left]
  exact ⟨rfl, rfl⟩

/-- Only a copy makes the broker publish a message for the identifier. -/
theorem calls_filter_isFor (c : Connection) {events : List Event}
    (h : (Handling.mk conn pkt events).isCopy i = false) :
    (c.calls pkt).filter (Publish.isFor i) = [] := by
  cases pkt with
  | connect k =>
    rw [Connection.calls]
    cases k.will with
    | none => rfl
    -- a will has no packet identifier
    | some will => simp [Publish.isFor, Will.publish]
  | publish p =>
    have hfor : p.isFor i = false := h
    rw [Connection.calls, filter_singleton, isFor_resolveAlias, hfor]
    rfl
  | _ => rfl

theorem sound_handlePacket (env : Env) (b : Broker) (conn : ℕ) (c : Connection) (pkt : Packet)
    (i : UInt16) :
    (Handling.mk conn pkt
      ((handlePacket env b conn c pkt).2.2.trace.drop b.trace.length)).Sound i where
  copy hcopy := by
    rw [Handling.isCopy] at hcopy
    split at hcopy
    · rename_i p hp
      obtain rfl : pkt = .publish p := hp
      have hdoes := (does_handlePublish env b conn c p).record (.publish p) i
      have hack : (acknowledgement p).toList = [.pubRec i .success none] := by
        obtain ⟨hqos, hid⟩ := Bool.and_eq_true_iff.mp hcopy
        rw [acknowledgement, eq_of_beq hqos, eq_of_beq hid]
        rfl
      rw [Connection.calls, filter_singleton, isFor_resolveAlias, hcopy, hack] at hdoes
      exact ⟨⟨_, hdoes.1, carries_resolveAlias c.aliases p _ rfl⟩, hdoes.2⟩
    · exact absurd hcopy Bool.false_ne_true
  other hoth := by
    obtain ⟨answers, hdoes⟩ := does_handlePacket env b conn c pkt
    rw [(hdoes.record pkt i).1]
    exact calls_filter_isFor c hoth
  release hrel := by
    rw [Handling.isRelease] at hrel
    split at hrel
    · rename_i packetId reason properties hp
      obtain rfl : pkt = .pubRel packetId reason properties := hp
      obtain rfl := eq_of_beq hrel
      have hdoes : Does conn b (b.send conn (.pubComp packetId .success none)) [] _ :=
        does_send b rfl
      exact (hdoes.record (.pubRel packetId reason properties) packetId).2
    · exact absurd hrel Bool.false_ne_true

/-- Every record of a run is sound. -/
theorem sound_history {b : Broker} {ls : List Label} {s : Server}
    (hrun : Steps Server.step Server.Any (.start b) ls s) (i : UInt16) :
    ∀ h ∈ s.history, h.Sound i := by
  refine hrun.invariant (fun s ↦ ∀ h ∈ s.history, h.Sound i) ?_ (by simp [Server.start])
  intro s l s' hs _ hstep
  rcases Server.history_step hstep with ⟨heq, -⟩ | ⟨conn, c, env, pkt, -, -, heq⟩
  · rwa [heq]
  rw [heq]
  exact forall_mem_append.mpr
    ⟨hs, forall_mem_singleton.mpr (sound_handlePacket env s.broker conn c pkt i)⟩

/-- An exchange routes one message for each copy in it. -/
theorem length_routed (hx : ∀ h ∈ x, h.Sound i) :
    (x.flatMap (Handling.routed i)).length = x.countP (Handling.isCopy i) := by
  induction x with
  | nil => rfl
  | cons h x ih =>
    have hsnd := hx h mem_cons_self
    rw [flatMap_cons, length_append, ih fun g hg ↦ hx g (mem_cons_of_mem h hg)]
    cases hcopy : h.isCopy i with
    | true =>
      obtain ⟨⟨p, hp, -⟩, -⟩ := hsnd.copy hcopy
      rw [countP_cons_of_pos hcopy, hp, length_singleton, add_comm]
    | false =>
      rw [countP_cons_of_neg (by simp [hcopy]), hsnd.other hcopy, length_nil, zero_add]

theorem carries_of_mem_routed (hx : ∀ h ∈ x, h.Sound i) {p : Publish}
    (hp : p ∈ x.flatMap (Handling.routed i)) : ∃ h ∈ x, h.Carries p := by
  obtain ⟨h, hmem, hp⟩ := mem_flatMap.mp hp
  cases hcopy : h.isCopy i with
  | true =>
    obtain ⟨⟨q, hq, hcarries⟩, -⟩ := (hx h hmem).copy hcopy
    rw [hq] at hp
    exact ⟨h, hmem, mem_singleton.mp hp ▸ hcarries⟩
  | false =>
    rw [(hx h hmem).other hcopy] at hp
    cases hp

/-- **Exactly once.** Over every run of the system and for every connection and packet identifier,
reception is exactly once precisely when no exchange holds a repeated PUBLISH. -/
theorem exactlyOnce_iff {b : Broker} {ls : List Label} {s : Server}
    (hrun : Steps Server.step Server.Any (.start b) ls s) (conn : ℕ) (i : UInt16) :
    ExactlyOnce i (s.handled conn) ↔
      ∀ x ∈ exchanges i (s.handled conn), x.countP (Handling.isCopy i) = 1 := by
  have hsound : ∀ h ∈ s.handled conn, h.Sound i := fun h hmem ↦
    sound_history hrun i h (mem_filter.mp hmem).1
  have hexchange : ∀ x ∈ exchanges i (s.handled conn), ∀ h ∈ x, h.Sound i := fun x hx h hmem ↦
    hsound h ((mem_of_mem_exchangesFrom hx hmem).resolve_left not_mem_nil)
  -- an exchange routes as many messages as it has copies, so "one" on either side is the same
  constructor
  · intro honce x hx
    obtain ⟨p, hp, -⟩ := honce.routed x hx
    rw [← length_routed (hexchange x hx), hp, length_singleton]
  intro hsingle
  refine ⟨fun x hx ↦ ?_, fun h hmem hcopy ↦ ((hsound h hmem).copy hcopy).2,
    fun h hmem ↦ (hsound h hmem).release⟩
  have hlength := (length_routed (hexchange x hx)).trans (hsingle x hx)
  obtain ⟨p, hp⟩ := length_eq_one_iff.mp hlength
  exact ⟨p, hp, carries_of_mem_routed (hexchange x hx) (hp ▸ mem_singleton_self p)⟩

/-- A subscriber on connection 0, and on connection 1 a publisher of the QoS 2 message 7 with the
given DUP flags, which then releases it. -/
def exchangeRun (dups : List Bool) : List Label :=
  let env : Env := ⟨0, .inOrder⟩
  let copy (dup : Bool) : Publish := ⟨dup, .exactlyOnce, false, "t", some 7, [1], none⟩
  [.accept 0, .packet 0 env (.connectAs "sub"), .packet 0 env (.subscribeTo "t"), .accept 0,
    .packet 1 env (.connectAs "pub")] ++
    dups.map (fun dup ↦ .packet 1 env (.publish (copy dup))) ++
    [.packet 1 env (.pubRel 7 .success none)]

theorem exactlyOnce_one_copy :
    ∃ s, Steps Server.step Server.Any (.start .fresh) (exchangeRun [false]) s ∧
      (exchanges 7 (s.handled 1)).length = 1 ∧ ExactlyOnce 7 (s.handled 1) := by
  refine exists_steps_of_isSome (by decide +kernel) fun hrun ↦ ⟨by decide +kernel, ?_⟩
  exact (exactlyOnce_iff hrun 1 7).mpr (by decide +kernel)

/-- The PUBLISH is repeated before the PUBREL: the message is routed twice, and the subscriber gets
it twice. -/
theorem exactlyOnce_repeated :
    ∃ s, Steps Server.step Server.Any (.start .fresh) (exchangeRun [false, true]) s ∧
      (s.channel 0).countP Packet.isMessage = 2 ∧ ¬ExactlyOnce 7 (s.handled 1) := by
  refine exists_steps_of_isSome (by decide +kernel) fun hrun ↦ ⟨by decide +kernel, fun honce ↦ ?_⟩
  -- the copy is routed twice
  exact absurd ((exactlyOnce_iff hrun 1 7).mp honce) (by decide +kernel)

end Synapse.Mqtt
