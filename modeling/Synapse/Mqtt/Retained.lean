import Synapse.Mqtt.Deliveries

/-!
# Retained messages on SUBSCRIBE

A SUBSCRIBE looks up the retained messages once for the whole packet: every filter contributes the
messages it matches, at the QoS granted to it, to one list. Then, filter by filter, the part of the
list that matches the filter is sent. A message that two filters match is in the list twice, at the
QoS of either, and both copies are sent for each of the two.

So a filter gets each of its messages once, at its own QoS, exactly if no other filter of the packet
matches any of them (`retained_once_iff`). A shared filter counts here as well: nothing is sent for
it, but it contributes to the list.
-/

namespace Synapse.Mqtt

open List

namespace Broker

/-! ## What is sent for one filter -/

/-- A retained message as it is sent to a subscriber. -/
def retainedPublish (m : String × Bytes × QoS) (packetId : Option UInt16) : Publish where
  dup := false
  qos := m.2.2
  retain := true
  topic := m.1
  packetId := packetId
  payload := m.2.1
  properties := none

/-- The delivery of a retained message for one of the client's keys. -/
def retainedCopy (c key : String) (b : Broker) (m : String × Bytes × QoS) : Option Delivery :=
  (b.clients c).map fun client ↦
    ⟨key, client.conn, retainedPublish m (b.packetIdFor c m.2.2).1⟩

/-- Nothing is sent for the filter: it is shared, or its retain handling says so. -/
def quiet (b : Broker) (c : String) (t : SubscribeTopic) : Bool :=
  (parseShared t.filter).isSome ||
    skipRetained t.retainHandling (b.subState.lookup (subKey c t.filter)).isSome

/-- The deliveries for one filter, out of the messages found for the packet. -/
def retainedBatch (c : String) (subId : Option UInt32) (found : List (String × Bytes × QoS))
    (b : Broker) (t : SubscribeTopic) : List Delivery :=
  if b.quiet c t then []
  else
    emitted (fun b m ↦ (retainedCopy c (subKey c t.filter) b m).toList) (deliverRetained c)
      (found.filter fun m ↦ topicMatches (realFilter t.filter) m.1) (b.addKey c subId t)

/-- The deliveries of a SUBSCRIBE. -/
def subscribeDeliveries (b : Broker) (env : Env) (c : String) (topics : List SubscribeTopic)
    (subId : Option UInt32) : List Delivery :=
  let found := topics.flatMap (b.retainedMatches env)
  emitted (retainedBatch c subId found) (subscribeTopic c subId found) topics b

theorem trace_subscribeTopic (c : String) (subId : Option UInt32)
    (found : List (String × Bytes × QoS)) (b : Broker) (t : SubscribeTopic) :
    (subscribeTopic c subId found b t).trace =
      b.trace ++ (retainedBatch c subId found b t).map Delivery.event := by
  obtain ⟨shared, heq⟩ := b.addKey_eq c subId t
  have hadd : (b.addKey c subId t).trace = b.trace := by rw [heq]
  rw [subscribeTopic, retainedBatch, quiet]
  split_ifs
  · simp [hadd]
  · rw [← hadd]
    exact trace_foldl_emitted (fun _ _ ↦ trace_sendTo_packetIdFor ..) _ _

/-- **The trace of a SUBSCRIBE.** -/
theorem trace_subscribe (b : Broker) (env : Env) (c : String) (topics : List SubscribeTopic)
    (subId : Option UInt32) :
    (b.subscribe env c topics subId).2.trace =
      b.trace ++ (b.subscribeDeliveries env c topics subId).map Delivery.event :=
  trace_foldl_emitted (trace_subscribeTopic c subId _) topics b

/-- The deliveries for one filter, without their packet identifiers. -/
theorem bare_retainedBatch (c : String) (subId : Option UInt32)
    (found : List (String × Bytes × QoS)) (b : Broker) (t : SubscribeTopic) :
    (retainedBatch c subId found b t).map Delivery.bare = if b.quiet c t then [] else
        (found.filter fun m ↦ topicMatches (realFilter t.filter) m.1).flatMap fun m ↦
          (((b.clients c).map Client.conn).map fun conn ↦
            ⟨subKey c t.filter, conn, retainedPublish m none⟩).toList := by
  rw [retainedBatch]
  split_ifs
  · rfl
  refine (map_bare_emitted (fun b m ↦ (((b.clients c).map Client.conn).map fun conn ↦
    (⟨subKey c t.filter, conn, retainedPublish m none⟩ : Delivery)).toList) ?_ ?_ _ _).trans ?_
  · intro b m
    rw [retainedCopy]
    cases b.clients c <;> rfl
  · intro b m
    rw [(sends_deliverRetained c b m).conn]
  · obtain ⟨shared, heq⟩ := b.addKey_eq c subId t
    rw [heq]

/-! ## One filter among others -/

section Packet

variable (b : Broker) (env : Env) (c : String) (subId : Option UInt32)

/-- The retained messages that are not expired and match the filter. -/
def retainedFor (now : ℕ) (filter : String) : List RetainedEntry :=
  b.retained.entries.filter fun entry ↦
    !entry.2.expired now && topicMatches (realFilter filter) entry.1

/-- A retained message at the QoS of a filter. -/
def atGranted (t : SubscribeTopic) (entry : RetainedEntry) : String × Bytes × QoS :=
  (entry.1, entry.2.payload, QoS.ofU8 (min entry.2.qos.toU8 (granted t)))

/-- What a filter should get: each retained message that matches it, once, at the lesser of its QoS
and the QoS granted to the filter. -/
def due (conn : ℕ) (t : SubscribeTopic) : List Delivery :=
  (b.retainedFor env.now t.filter).map fun entry ↦
    ⟨subKey c t.filter, conn, retainedPublish (atGranted t entry) none⟩

/-- The broker when the filters `pre` of a packet have been entered. -/
def midway (topics pre : List SubscribeTopic) : Broker :=
  pre.foldl (subscribeTopic c subId (topics.flatMap (b.retainedMatches env))) b

/-- The deliveries for the filter that stands between `pre` and `post` in a packet. -/
def deliveriesFor (pre : List SubscribeTopic) (t : SubscribeTopic) (post : List SubscribeTopic) :
    List Delivery :=
  let topics := pre ++ t :: post
  retainedBatch c subId (topics.flatMap (b.retainedMatches env)) (b.midway env c subId topics pre) t

variable {b env c subId}

theorem retainedMatches_perm (t : SubscribeTopic) :
    (b.retainedMatches env t).Perm ((b.retainedFor env.now t.filter).map (atGranted t)) :=
  ((env.order.retained_perm _).filter _).map _

/-- Which messages of one filter's share another filter matches. -/
theorem filter_retainedMatches_eq_nil {t t' : SubscribeTopic} :
    ((b.retainedMatches env t').filter fun m ↦ topicMatches (realFilter t.filter) m.1) = [] ↔
      ∀ entry ∈ b.retainedFor env.now t.filter,
        topicMatches (realFilter t'.filter) entry.1 = false := by
  rw [filter_eq_nil_iff]
  simp only [(retainedMatches_perm t').mem_iff, mem_map, retainedFor, mem_filter,
    Bool.and_eq_true, Bool.not_eq_true', forall_exists_index, and_imp, atGranted]
  constructor
  · intro h entry hmem hlive hmat
    by_contra hmat'
    exact h _ entry hmem hlive (by simpa using hmat') rfl hmat
  · rintro h _ entry hmem hlive hmat' rfl hmat
    rw [h entry hmem hlive hmat] at hmat'
    cases hmat'

theorem filter_retainedMatches_self (t : SubscribeTopic) :
    ((b.retainedMatches env t).filter fun m ↦ topicMatches (realFilter t.filter) m.1) =
      b.retainedMatches env t := by
  refine filter_eq_self.mpr fun m hm ↦ ?_
  obtain ⟨entry, hent, rfl⟩ := mem_map.mp ((retainedMatches_perm t).mem_iff.mp hm)
  have hboth := (mem_filter.mp hent).2
  exact (Bool.and_eq_true_iff.mp hboth).2

theorem conn_midway (topics pre : List SubscribeTopic) :
    ((b.midway env c subId topics pre).clients c).map Client.conn =
      (b.clients c).map Client.conn := by
  refine List.foldlRecOn (motive := fun b' : Broker ↦
    (b'.clients c).map Client.conn = (b.clients c).map Client.conn) pre _ rfl ?_
  intro b' h t _
  obtain ⟨shared, heq⟩ := b'.addKey_eq c subId t
  rw [(sends_subscribeTopic ..).conn, heq, ← h]

/-- What is sent for a filter: the part it matches of what the filters before it, itself and the
filters after it have contributed. -/
theorem bare_deliveriesFor {conn : ℕ} (hconn : (b.clients c).map Client.conn = some conn)
    {pre post : List SubscribeTopic} {t : SubscribeTopic}
    (hloud : (b.midway env c subId (pre ++ t :: post) pre).quiet c t = false) :
    (b.deliveriesFor env c subId pre t post).map Delivery.bare =
      ((pre.flatMap (b.retainedMatches env)).filter
          (fun m ↦ topicMatches (realFilter t.filter) m.1) ++
        (b.retainedMatches env t ++ (post.flatMap (b.retainedMatches env)).filter
            fun m ↦ topicMatches (realFilter t.filter) m.1)).map
        fun m ↦ ⟨subKey c t.filter, conn, retainedPublish m none⟩ := by
  rw [deliveriesFor, bare_retainedBatch, hloud, if_neg Bool.false_ne_true, conn_midway, hconn,
    flatMap_append, flatMap_cons, filter_append, filter_append,
    filter_retainedMatches_self]
  exact map_eq_flatMap.symm

/-- **Retained messages on SUBSCRIBE.** For a filter that is not shared and not suppressed by its
retain handling, each retained message that matches it is sent once, at its own QoS, if and only if
no other filter of the packet matches one of them. -/
theorem retained_once_iff (b : Broker) (env : Env) (c : String) (subId : Option UInt32) {conn : ℕ}
    (hconn : (b.clients c).map Client.conn = some conn) (pre : List SubscribeTopic)
    (t : SubscribeTopic) (post : List SubscribeTopic)
    (hloud : (b.midway env c subId (pre ++ t :: post) pre).quiet c t = false) :
    (∃ before after, (b.subscribe env c (pre ++ t :: post) subId).2.trace = b.trace ++
        (before ++ b.deliveriesFor env c subId pre t post ++ after).map Delivery.event) ∧
      (((b.deliveriesFor env c subId pre t post).map Delivery.bare).Perm (b.due env c conn t) ↔
        ∀ t' ∈ pre ++ post, ∀ entry ∈ b.retainedFor env.now t.filter,
          topicMatches (realFilter t'.filter) entry.1 = false) := by
  constructor
  · rw [trace_subscribe, subscribeDeliveries, emitted_append, emitted, ← append_assoc]
    exact ⟨_, _, rfl⟩
  -- nothing of the other filters' shares is sent
  have hother : (∀ t' ∈ pre ++ post, ∀ entry ∈ b.retainedFor env.now t.filter,
      topicMatches (realFilter t'.filter) entry.1 = false) ↔
      (pre.flatMap (b.retainedMatches env)).filter
          (fun m ↦ topicMatches (realFilter t.filter) m.1) = [] ∧
        (post.flatMap (b.retainedMatches env)).filter
          (fun m ↦ topicMatches (realFilter t.filter) m.1) = [] := by
    simp only [filter_flatMap, flatMap_eq_nil_iff, filter_retainedMatches_eq_nil,
      mem_append, or_imp, forall_and]
  have hdue : b.due env c conn t = ((b.retainedFor env.now t.filter).map (atGranted t)).map
      fun m ↦ ⟨subKey c t.filter, conn, retainedPublish m none⟩ := by
    rw [due, map_map]
    rfl
  rw [bare_deliveriesFor hconn hloud, hother, hdue]
  constructor
  · intro hperm
    have hlen := hperm.length_eq
    rw [length_map, length_map, length_append, length_append,
      (retainedMatches_perm t).length_eq] at hlen
    exact ⟨length_eq_zero_iff.mp (by omega), length_eq_zero_iff.mp (by omega)⟩
  · rintro ⟨hpre, hpost⟩
    rw [hpre, hpost, nil_append, append_nil]
    exact (retainedMatches_perm t).map _

end Packet

/-- Client `c` is connected, and a message to `t` is retained. -/
def retainedRun : List BrokerCall :=
  [.connect "c" true 0,
    .publish ⟨0, .inOrder⟩ none ⟨false, .exactlyOnce, true, "t", none, [1], none⟩]

def filterAt (filter : String) (qos : QoS) : SubscribeTopic :=
  ⟨filter, qos, false, false, .sendAtSubscribe⟩

theorem retained_once_of_disjoint :
    (((Broker.fresh.run retainedRun).deliveriesFor ⟨0, .inOrder⟩ "c" none
        [filterAt "u" .exactlyOnce] (filterAt "t" .atLeastOnce) []).map Delivery.bare).Perm
      [⟨subKey "c" "t", 0, retainedPublish ("t", [1], .atLeastOnce) none⟩] := by
  have hconn : ((Broker.fresh.run retainedRun).clients "c").map Client.conn = some 0 := by
    decide +kernel
  obtain ⟨-, honce⟩ := retained_once_iff (Broker.fresh.run retainedRun) ⟨0, .inOrder⟩ "c" none hconn
    [filterAt "u" .exactlyOnce] (filterAt "t" .atLeastOnce) [] (by decide +kernel)
  have hdue : (Broker.fresh.run retainedRun).due ⟨0, .inOrder⟩ "c" 0 (filterAt "t" .atLeastOnce) =
      [⟨subKey "c" "t", 0, retainedPublish ("t", [1], .atLeastOnce) none⟩] := by decide +kernel
  rw [← hdue]
  exact honce.mpr (by decide +kernel)

/-- A packet with the filters `t` at QoS 0 and `#` at QoS 2: two copies are sent for either of
them, and one is due. -/
theorem retained_twice :
    let b := Broker.fresh.run retainedRun
    let exact := filterAt "t" .atMostOnce
    let all := filterAt "#" .exactlyOnce
    let sent (filter : String) (qos : QoS) : Delivery :=
      ⟨subKey "c" filter, 0, retainedPublish ("t", [1], qos) none⟩
    ((b.deliveriesFor ⟨0, .inOrder⟩ "c" none [] exact [all]).map Delivery.bare =
        [sent "t" .atMostOnce, sent "t" .exactlyOnce] ∧
      b.due ⟨0, .inOrder⟩ "c" 0 exact = [sent "t" .atMostOnce]) ∧
    ((b.deliveriesFor ⟨0, .inOrder⟩ "c" none [exact] all []).map Delivery.bare =
        [sent "#" .atMostOnce, sent "#" .exactlyOnce] ∧
      b.due ⟨0, .inOrder⟩ "c" 0 all = [sent "#" .exactlyOnce]) ∧
    ((b.subscribe ⟨0, .inOrder⟩ "c" [exact, all] none).2.trace.drop b.trace.length).length = 4 := by
  decide +kernel

end Broker

end Synapse.Mqtt
