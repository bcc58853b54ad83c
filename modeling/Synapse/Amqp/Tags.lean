import Synapse.Amqp.Broker

/-!
# The tag table

What the broker's table of delivery tags says about the queues. `Broker.Inv` relates it to the list
of deliveries that have not been acknowledged: each is entered under its own tag, the tags of a
channel go up, and the message is in flight in its queue. `Moves` says where an operation puts each
message. Taking the head of a queue and entering its own number keeps the invariant
(`Inv.handOver`), and with it `basic.get`, and a publish that finds nothing waiting
(`Inv.publishAll`). An acknowledgement then removes the message of the delivery (`Inv.basicAck`).
-/

namespace Synapse.Amqp

open List Function
open Option hiding or_assoc

namespace Delivery

def key (d : Delivery) : TagKey := (d.connId, d.msg.channel, d.msg.deliveryTag)

def entry (d : Delivery) : QueueEntry := ⟨d.seq, d.msg.body⟩

def place (d : Delivery) : String × ℕ := (d.queue, d.seq)

end Delivery

/-- The deliveries that are to be acknowledged. -/
def awaiting (sent : List Delivery) : List Delivery := sent.filter (!·.noAck)

namespace Broker

def readyOf (b : Broker) (name : String) : List QueueEntry :=
  ((b.queue name).map Queue.ready).getD []

def inflightOf (b : Broker) (name : String) : List QueueEntry :=
  ((b.queue name).map Queue.inflight).getD []

def seqOf (b : Broker) (name : String) : ℕ :=
  ((b.queue name).map Queue.seq).getD 0

def hasConsumer (b : Broker) (name : String) : Bool :=
  ((b.consumers name).map fun group ↦ !group.consumers.isEmpty).getD false

end Broker

/-! ## The tag table -/

namespace Broker

variable {b b' : Broker} {unacked : List Delivery} {name : String} {id : ℕ} {q : Queue}

section

variable (hq : b.queue name = some q)

include hq

theorem inflightOf_eq : b.inflightOf name = q.inflight := by
  rw [inflightOf, hq]
  rfl

theorem readyOf_eq : b.readyOf name = q.ready := by
  rw [readyOf, hq]
  rfl

theorem seqOf_eq : b.seqOf name = q.seq := by
  rw [seqOf, hq]
  rfl

end

theorem inflightOf_congr (h : b'.queue name = b.queue name) :
    b'.inflightOf name = b.inflightOf name := by
  rw [inflightOf, inflightOf, h]

variable {e : QueueEntry} {d : Delivery}

theorem exists_of_mem_inflightOf (h : e ∈ b.inflightOf name) :
    ∃ q, b.queue name = some q ∧ e ∈ q.inflight := by
  rw [inflightOf] at h
  cases hq : b.queue name with
  | none =>
    rw [hq] at h
    exact nomatch h
  | some q =>
    rw [hq] at h
    exact ⟨q, rfl, h⟩

theorem Grown.unmoved (h : Grown name b b') (n : String) :
    b'.readyOf n = b.readyOf n ∧ b'.inflightOf n = b.inflightOf n ∧ b'.seqOf n = b.seqOf n := by
  rw [readyOf, readyOf, inflightOf, inflightOf, seqOf, seqOf]
  by_cases hn : n = name
  · subst hn
    rcases h.queue with hsame | ⟨hnone, hnew⟩
    · rw [hsame]
      exact ⟨rfl, rfl, rfl⟩
    · rw [hnone, hnew]
      exact ⟨rfl, rfl, rfl⟩
  · rw [h.frame n hn]
    exact ⟨rfl, rfl, rfl⟩

/-- No queue has lost a message. -/
def Tracked (b : Broker) : Prop :=
  ∀ name q, b.queue name = some q → ∃ enqueued acked, q.Tracks enqueued acked

theorem Tracked.grown (h : b.Tracked) (hgrw : Grown name b b') : b'.Tracked := by
  intro n q hq
  by_cases hn : n = name
  · subst hn
    rcases hgrw.queue with hsame | ⟨-, hnew⟩
    · exact h n q (hsame.symm.trans hq)
    · cases hnew.symm.trans hq
      exact ⟨[], [], .blank n tenantId⟩
  · exact h n q ((hgrw.frame n hn).symm.trans hq)

theorem Tracked.update (h : b.Tracked) {q' : Queue}
    (hque : b'.queue = update b.queue name (some q'))
    (htr : ∃ enqueued acked, q'.Tracks enqueued acked) : b'.Tracked := by
  intro n q hq
  rw [hque, update_apply] at hq
  split_ifs at hq
  · cases hq
    exact htr
  · exact h n q hq

/-- The tag table lists what has been delivered and not acknowledged, each under a tag and a place
of its own, and these messages are in flight. -/
structure Inv (b : Broker) (unacked : List Delivery) : Prop where
  linked : b.Linked
  tracks : b.Tracked
  fresh : ∀ connId, b.nextConn ≤ connId → b.connections connId = none
  held : ∀ d ∈ unacked, d.entry ∈ b.inflightOf d.queue
  entered : ∀ d ∈ unacked, b.inflight d.key = some d.place
  listed : ∀ key p, b.inflight key = some p → ∃ d ∈ unacked, d.key = key
  keys : (unacked.map Delivery.key).Nodup
  places : (unacked.map Delivery.place).Nodup
  numbered : ∀ d ∈ unacked, ∃ tags, b.connections d.connId = some tags ∧
    d.msg.deliveryTag ≤ tags d.msg.channel

theorem inv_new (core : SynapseCore) : (new core).Inv [] where
  linked := linked_new core
  tracks _ _ h := by cases h
  fresh _ _ := rfl
  held := nofun
  entered := nofun
  listed _ _ h := by cases h
  keys := nodup_nil
  places := nodup_nil
  numbered := nofun

namespace Inv

variable (h : b.Inv unacked)

include h

/-- A change that leaves the tags, and in flight what they stand for. -/
theorem change (hlinked : b'.Linked) (htr : b'.Tracked)
    (hconn : b'.connections = b.connections) (hnext : b'.nextConn = b.nextConn)
    (hinf : b'.inflight = b.inflight)
    (hheld : ∀ d ∈ unacked, d.entry ∈ b'.inflightOf d.queue) : b'.Inv unacked where
  linked := hlinked
  tracks := htr
  fresh := by
    rw [hconn, hnext]
    exact h.fresh
  held := hheld
  entered := by
    rw [hinf]
    exact h.entered
  listed := by
    rw [hinf]
    exact h.listed
  keys := h.keys
  places := h.places
  numbered := by
    rw [hconn]
    exact h.numbered

theorem grown (hgrw : Grown name b b') : b'.Inv unacked := by
  refine h.change hgrw.linked (h.tracks.grown hgrw) hgrw.connections hgrw.nextConn
    hgrw.inflight fun d hd ↦ ?_
  rw [(hgrw.unmoved d.queue).2.1]
  exact h.held d hd

theorem setQueue (hid : b.queues name = some id)
    (hq : b.core.queues.object id = some q) {q' : Queue} {enqueued acked : List QueueEntry}
    (htr : q'.Tracks enqueued acked)
    (hkept : ∀ d ∈ unacked, d.queue = name → d.entry ∈ q.inflight → d.entry ∈ q'.inflight) :
    (b.setQueue id q').Inv unacked := by
  have hque := h.linked.queue_setQueue hid q'
  refine h.change (h.linked.setQueue id q') (h.tracks.update hque ⟨_, _, htr⟩) rfl rfl rfl
    fun d hd ↦ ?_
  have hheld := h.held d hd
  by_cases hn : d.queue = name
  · rw [hn, inflightOf_eq ((queue_eq hid).trans hq)] at hheld
    rw [hn, inflightOf_eq (by rw [hque, update_self])]
    exact hkept d hd hn hheld
  · have hsame : (b.setQueue id q').queue d.queue = b.queue d.queue := by rw [hque, update_of_ne hn]
    rwa [inflightOf_congr hsame]

/-- Tags leave the table. -/
theorem forget {table : TagKey → Option (String × ℕ)} {keep : Delivery → Bool}
    (hkeep : ∀ d, keep d → table d.key = b.inflight d.key)
    (htab : ∀ key p, table key = some p →
      b.inflight key = some p ∧ ∀ d : Delivery, d.key = key → keep d) :
    Inv { b with inflight := table } (unacked.filter keep) where
  linked := h.linked.congr rfl rfl
  tracks := h.tracks
  fresh := h.fresh
  held d hd := h.held d (mem_of_mem_filter hd)
  entered d hd := by
    obtain ⟨hold, hkept⟩ := mem_filter.mp hd
    exact (hkeep d hkept).trans (h.entered d hold)
  listed key p hp := by
    obtain ⟨hp, hkept⟩ := htab key p hp
    obtain ⟨d, hd, hkey⟩ := h.listed key p hp
    exact ⟨d, mem_filter.mpr ⟨hd, hkept d hkey⟩, hkey⟩
  keys := h.keys.sublist (filter_sublist.map _)
  places := h.places.sublist (filter_sublist.map _)
  numbered d hd := h.numbered d (mem_of_mem_filter hd)

theorem drawTag {connId : ℕ} {channel : UInt16} {tag : ℕ}
    (htag : b.nextDeliveryTag connId channel = some (tag, b')) :
    b'.Inv unacked ∧ b'.core = b.core ∧ b'.queues = b.queues ∧ b'.consumers = b.consumers ∧
      (∀ d ∈ unacked, d.key ≠ (connId, channel, tag)) ∧
      ∃ tags, b'.connections connId = some tags ∧ tag ≤ tags channel := by
  obtain ⟨tags, htags, heq⟩ := bind_eq_some_iff.mp htag
  obtain ⟨rfl, rfl⟩ := heq
  refine ⟨⟨h.linked.congr rfl rfl, h.tracks, ?_, h.held, h.entered, h.listed, h.keys, h.places, ?_⟩,
    rfl, rfl, rfl, ?_, ?_⟩
  · intro c hc
    change update b.connections connId _ c = none
    rw [update_of_ne]
    · exact h.fresh c hc
    · rintro rfl
      cases htags.symm.trans (h.fresh c hc)
  · intro d hd
    obtain ⟨tags', htags', hle⟩ := h.numbered d hd
    change ∃ t, update b.connections connId _ d.connId = some t ∧ _
    by_cases hconn : d.connId = connId
    · rw [hconn] at htags' ⊢
      cases htags.symm.trans htags'
      refine ⟨_, update_self .., ?_⟩
      rw [update_apply]
      split_ifs with hch
      · rw [hch] at hle
        exact Nat.le_succ_of_le hle
      · exact hle
    · rw [update_of_ne hconn]
      exact ⟨tags', htags', hle⟩
  · -- the tag is above all that are in use
    intro d hd hkey
    obtain ⟨hconn, hrest⟩ := Prod.mk.inj hkey
    obtain ⟨hch, htag⟩ := Prod.mk.inj hrest
    obtain ⟨tags', htags', hle⟩ := h.numbered d hd
    rw [hconn] at htags'
    cases htags.symm.trans htags'
    rw [hch, htag] at hle
    exact Nat.not_succ_le_self _ hle
  · refine ⟨_, update_self .., ?_⟩
    rw [update_self]

/-- A message in flight is entered under a new tag. -/
theorem enter (hkey : ∀ d' ∈ unacked, d'.key ≠ d.key)
    (hplc : ∀ d' ∈ unacked, d'.place ≠ d.place) (hheld : d.entry ∈ b.inflightOf d.queue)
    (hnum : ∃ tags, b.connections d.connId = some tags ∧ d.msg.deliveryTag ≤ tags d.msg.channel) :
    Inv { b with inflight := update b.inflight d.key (some d.place) } (unacked ++ [d]) := by
  refine ⟨h.linked.congr rfl rfl, h.tracks, h.fresh,
    forall_mem_append.mpr ⟨h.held, forall_mem_singleton.mpr hheld⟩,
    forall_mem_append.mpr ⟨fun d' hd' ↦ ?_, forall_mem_singleton.mpr (update_self ..)⟩, ?_,
    Keyed.nodup_concat _ h.keys hkey, Keyed.nodup_concat _ h.places hplc,
    forall_mem_append.mpr ⟨h.numbered, forall_mem_singleton.mpr hnum⟩⟩
  · exact (update_of_ne (hkey d' hd') ..).trans (h.entered d' hd')
  · intro key p hp
    change update b.inflight d.key (some d.place) key = some p at hp
    by_cases heq : key = d.key
    · exact ⟨d, mem_append_right _ mem_cons_self, heq.symm⟩
    · rw [update_of_ne heq] at hp
      obtain ⟨d', hd', hkey'⟩ := h.listed key p hp
      exact ⟨d', mem_append_left _ hd', hkey'⟩

end Inv

/-! ## Deliveries -/

/-- Where the messages go: what was ready or is new is ready or delivered; what is in flight was so
before, or is delivered and awaits its acknowledgement. -/
structure Moves (names : List String) (new : List (String × QueueEntry)) (b b' : Broker)
    (sent : List Delivery) : Prop where
  frame : ∀ n ∉ names, b'.queue n = b.queue n
  waiting : ∀ n e, e ∈ b.readyOf n ∨ (n, e) ∈ new →
    e ∈ b'.readyOf n ∨ ∃ d ∈ sent, d.queue = n ∧ d.entry = e
  kept : ∀ n, ∀ e ∈ b.inflightOf n, e ∈ b'.inflightOf n
  listed : ∀ n, ∀ e ∈ b'.inflightOf n,
    e ∈ b.inflightOf n ∨ ∃ d ∈ awaiting sent, d.queue = n ∧ d.entry = e
  origin : ∀ d ∈ sent, d.queue ∈ names
  autoAcked : ∀ d ∈ sent, d.noAck → d.entry ∉ b'.inflightOf d.queue

section

variable {b'' : Broker} {names names' names'' : List String}
  {new new' : List (String × QueueEntry)} {sent sent' : List Delivery}

/-- The queues that have made deliveries are not served again. -/
theorem Moves.trans (h : Moves names new b b' sent) (h' : Moves names' new' b' b'' sent')
    (hnms : names ++ names' ⊆ names'') (hdisj : ∀ d ∈ sent, d.queue ∉ names') :
    Moves names'' (new ++ new') b b'' (sent ++ sent') where
  frame n hn := by
    rw [h'.frame n fun hmem ↦ hn (hnms (mem_append_right _ hmem)),
      h.frame n fun hmem ↦ hn (hnms (mem_append_left _ hmem))]
  waiting n e he := by
    have hlat : e ∈ b'.readyOf n ∨ (n, e) ∈ new' →
        e ∈ b''.readyOf n ∨ ∃ d ∈ sent ++ sent', d.queue = n ∧ d.entry = e := fun he ↦
      (h'.waiting n e he).imp_right fun ⟨d, hd, heq⟩ ↦ ⟨d, mem_append_right _ hd, heq⟩
    rw [mem_append, ← or_assoc] at he
    rcases he with hfst | hsecond
    · rcases h.waiting n e hfst with hrdy | ⟨d, hd, heq⟩
      · exact hlat (.inl hrdy)
      · exact .inr ⟨d, mem_append_left _ hd, heq⟩
    · exact hlat (.inr hsecond)
  kept n e he := h'.kept n e (h.kept n e he)
  listed n e he := by
    rw [awaiting, filter_append]
    rcases h'.listed n e he with hmid | ⟨d, hd, heq⟩
    · exact (h.listed n e hmid).imp_right fun ⟨d, hd, heq⟩ ↦ ⟨d, mem_append_left _ hd, heq⟩
    · exact .inr ⟨d, mem_append_right _ hd, heq⟩
  origin d hd := by
    rcases mem_append.mp hd with hd | hd
    · exact hnms (mem_append_left _ (h.origin d hd))
    · exact hnms (mem_append_right _ (h'.origin d hd))
  autoAcked d hd hno := by
    rcases mem_append.mp hd with hd | hd
    · rw [inflightOf_congr (h'.frame d.queue (hdisj d hd))]
      exact h.autoAcked d hd hno
    · exact h'.autoAcked d hd hno

theorem Grown.moves (h : Grown name b b') : Moves [name] [] b b' [] where
  frame n hn := h.frame n fun heq ↦ hn (heq ▸ mem_cons_self)
  waiting n e he := by
    rw [(h.unmoved n).1]
    exact .inl (he.resolve_right not_mem_nil)
  kept n e he := by rwa [(h.unmoved n).2.1]
  listed n e he := by
    rw [(h.unmoved n).2.1] at he
    exact .inl he
  origin := nofun
  autoAcked := nofun

theorem Moves.trans_nil (h : Moves [name] new b b' []) (h' : Moves [name] new' b' b'' sent) :
    Moves [name] (new ++ new') b b'' sent :=
  h.trans h' (by simp) nofun

theorem moves_of_update {q' : Queue} (hq : b.queue name = some q)
    (hque : b'.queue = update b.queue name (some q')) (hnew : ∀ p ∈ new, p.1 = name)
    (hwait : ∀ e, e ∈ q.ready ∨ (name, e) ∈ new →
      e ∈ q'.ready ∨ ∃ d ∈ sent, d.queue = name ∧ d.entry = e)
    (hkept : q.inflight ⊆ q'.inflight)
    (hlisted : ∀ e ∈ q'.inflight,
      e ∈ q.inflight ∨ ∃ d ∈ awaiting sent, d.queue = name ∧ d.entry = e)
    (hsent : ∀ d ∈ sent, d.queue = name ∧ (d.noAck → d.entry ∉ q'.inflight)) :
    Moves [name] new b b' sent := by
  have hself : b'.queue name = some q' := by rw [hque, update_self]
  have hfrm : ∀ n, n ≠ name → b'.queue n = b.queue n := fun n hn ↦ by rw [hque, update_of_ne hn]
  refine ⟨fun n hn ↦ hfrm n fun heq ↦ hn (heq ▸ mem_cons_self), ?_, ?_, ?_, ?_, ?_⟩
  · intro n e he
    by_cases hn : n = name
    · subst hn
      rw [readyOf_eq hq] at he
      rw [readyOf_eq hself]
      exact hwait e he
    · have hold : e ∈ b.readyOf n := he.resolve_right fun hmem ↦ hn (hnew _ hmem)
      rw [readyOf, ← hfrm n hn] at hold
      exact .inl hold
  · intro n e he
    by_cases hn : n = name
    · subst hn
      rw [inflightOf_eq hq] at he
      rw [inflightOf_eq hself]
      exact hkept he
    · rwa [inflightOf_congr (hfrm n hn)]
  · intro n e he
    by_cases hn : n = name
    · subst hn
      rw [inflightOf_eq hself] at he
      rw [inflightOf_eq hq]
      exact hlisted e he
    · rw [inflightOf_congr (hfrm n hn)] at he
      exact .inl he
  · intro d hd
    rw [(hsent d hd).1]
    exact mem_cons_self
  · intro d hd hno
    rw [(hsent d hd).1, inflightOf_eq hself]
    exact (hsent d hd).2 hno

end

theorem readyOf_settle (h : b.Linked) (hid : b.queues name = some id) (key : TagKey)
    (noAck : Bool) (q : Queue) (seq : ℕ) :
    (b.settle key noAck name id q seq).readyOf name = q.ready := by
  have hque : ∀ q', (b.setQueue id q').readyOf name = q'.ready := fun q' ↦
    readyOf_eq ((congrFun (h.queue_setQueue hid q') name).trans (update_self ..))
  rw [settle]
  split_ifs
  · exact hque (q.ack seq).2
  · exact hque q

theorem Inv.handOver (h : b.Inv unacked) (hid : b.queues name = some id)
    (hq : b.core.queues.object id = some q) {ready : List QueueEntry}
    (hrdy : q.ready = e :: ready) (hque : d.queue = name) (hent : d.entry = e)
    (htag : b.nextDeliveryTag d.connId d.msg.channel = some (d.msg.deliveryTag, b')) :
    (b'.settle d.key d.noAck name id q.dequeue.2 e.seq).Inv (unacked ++ awaiting [d]) ∧
      Moves [name] [] b (b'.settle d.key d.noAck name id q.dequeue.2 e.seq) [d] ∧
      (b'.settle d.key d.noAck name id q.dequeue.2 e.seq).consumers = b.consumers ∧
      (b'.settle d.key d.noAck name id q.dequeue.2 e.seq).readyOf name = ready := by
  obtain ⟨hinv, hcore, hqs, hcons, hkeys, hnum⟩ := h.drawTag htag
  have hque' : b'.queue = b.queue := queue_congr (congrArg SynapseCore.queues hcore) hqs
  have hid' : b'.queues name = some id := by rw [hqs, hid]
  have hq' : b'.core.queues.object id = some q := by rw [hcore, hq]
  have hbq : b.queue name = some q := (queue_eq hid).trans hq
  obtain ⟨enqueued, acked, htr⟩ := h.tracks name q hbq
  have hnew := htr.head_notMem hrdy
  have hsnd := htr.dequeue_snd hrdy
  have hmem : e ∈ q.dequeue.2.inflight := by
    rw [hsnd]
    exact mem_cons_self
  have hwait : ∀ x, x ∈ q.ready ∨ (name, x) ∈ [] →
      x ∈ q.dequeue.2.ready ∨ ∃ d' ∈ [d], d'.queue = name ∧ d'.entry = x := by
    rintro x (hx | hx)
    · rw [hrdy] at hx
      rw [hsnd]
      rcases mem_cons.mp hx with rfl | hx
      · exact .inr ⟨d, mem_cons_self, hque, hent⟩
      · exact .inl hx
    · exact nomatch hx
  have hleft := readyOf_settle hinv.linked hid' d.key d.noAck q.dequeue.2 e.seq
  rw [congrArg Queue.ready hsnd] at hleft
  rw [settle] at hleft ⊢
  split_ifs at hleft ⊢ with hno
  · -- acknowledged at once: the messages in flight are those from before
    have hsame := htr.inflight_ack_dequeue hrdy
    have haw : awaiting [d] = [] := by simp [awaiting, hno]
    have hsub : q.inflight ⊆ (q.dequeue.2.ack e.seq).2.inflight := by
      rw [hsame]
      exact List.Subset.refl q.inflight
    have hupd := hinv.linked.queue_setQueue hid' (q.dequeue.2.ack e.seq).2
    rw [hque'] at hupd
    rw [haw, append_nil]
    refine ⟨hinv.setQueue hid' hq' (htr.dequeue.ack_of_mem hmem) fun _ _ _ he ↦ hsub he,
      moves_of_update hbq hupd nofun hwait hsub (fun x hx ↦ ?_) fun d' hd' ↦ ?_, hcons,
      hleft⟩
    · rw [hsame] at hx
      exact .inl hx
    · rw [mem_singleton.mp hd', hent, hsame]
      exact ⟨hque, fun _ he ↦ hnew (mem_map_of_mem he)⟩
  · -- entered under the tag: the message is in flight
    have hsub : q.inflight ⊆ q.dequeue.2.inflight := by
      rw [hsnd]
      exact subset_cons_self e q.inflight
    have hset := hinv.setQueue hid' hq' htr.dequeue fun _ _ _ he ↦ hsub he
    have hupd := hinv.linked.queue_setQueue hid' q.dequeue.2
    have haw : awaiting [d] = [d] := by simp [awaiting, hno]
    have hplc : d.place = (name, e.seq) := by
      rw [← hque, ← hent]
      rfl
    have hheld : d.entry ∈ (b'.setQueue id q.dequeue.2).inflightOf d.queue := by
      rwa [hque, hent, inflightOf_eq (by rw [hupd, update_self])]
    rw [haw, ← hplc]
    rw [hque'] at hupd
    refine ⟨hset.enter hkeys (fun d' hd' heq ↦ ?_) hheld hnum,
      moves_of_update hbq hupd nofun hwait hsub (fun x hx ↦ ?_) fun d' hd' ↦ ?_, hcons,
      hleft⟩
    · -- the message was not in flight before
      have hheld' := h.held d' hd'
      rw [hplc] at heq
      obtain ⟨hque₁, hseq₁⟩ := Prod.mk.inj heq
      rw [hque₁, inflightOf_eq hbq] at hheld'
      exact hnew (hseq₁ ▸ mem_map_of_mem hheld')
    · rw [hsnd] at hx
      rcases mem_cons.mp hx with rfl | hx
      · refine .inr ⟨d, ?_, hque, hent⟩
        rw [haw]
        exact mem_cons_self
      · exact .inl hx
    · rw [mem_singleton.mp hd']
      exact ⟨hque, fun hno' ↦ absurd hno' hno⟩

variable {sent : List Delivery} {channel : UInt16} {connId : ℕ} {body : Bytes}

/-- `basic.get` hands out nothing, or the head of the queue. -/
theorem basicGet_cases (h : b.Linked) {noAck : Bool} {reply : Reply}
    (hget : b.basicGet connId channel name noAck = some (reply, b', sent)) :
    ∃ b₁, Grown name b b₁ ∧ b₁.consumers = b.consumers ∧ (b' = b₁ ∧ sent = [] ∨
      ∃ id q e ready tag b₂, b₁.queues name = some id ∧ b₁.core.queues.object id = some q ∧
        q.ready = e :: ready ∧ b₁.nextDeliveryTag connId channel = some (tag, b₂) ∧
        b' = b₂.settle (connId, channel, tag) noAck name id q.dequeue.2 e.seq ∧
        sent = [⟨connId, ⟨channel, "", tag, "", name, e.payload⟩, noAck, name, e.seq⟩]) := by
  obtain ⟨b₁, hgrw, hcons, ⟨hens, -⟩ | ⟨id, q, hens, hid, hq⟩⟩ := ensureQueue_cases h name
  all_goals
    rw [basicGet, hens] at hget
    refine ⟨b₁, hgrw, hcons, ?_⟩
  · obtain ⟨-, rfl, rfl⟩ := hget
    exact .inl ⟨rfl, rfl⟩
  simp only [bind_eq_bind, bind_eq_some_iff] at hget
  obtain ⟨q', hq', hget⟩ := hget
  cases hq.symm.trans hq'
  rcases hrdy : q.ready with _ | ⟨e, ready⟩
  · rw [Queue.dequeue_nil hrdy] at hget
    obtain ⟨-, rfl, rfl⟩ := hget
    exact .inl ⟨rfl, rfl⟩
  · rw [Queue.dequeue_eq hrdy] at hget
    simp only [bind_eq_some_iff, some.injEq, Prod.mk.injEq] at hget
    obtain ⟨⟨tag, b₂⟩, htag, -, rfl, rfl⟩ := hget
    exact .inr ⟨id, q, e, ready, tag, b₂, hid, hq, hrdy, htag, rfl, rfl⟩

theorem Inv.basicGet (h : b.Inv unacked) {noAck : Bool} {reply : Reply}
    (hget : b.basicGet connId channel name noAck = some (reply, b', sent)) :
    b'.Inv (unacked ++ awaiting sent) ∧ Moves [name] [] b b' sent ∧
      b'.consumers = b.consumers ∧ (b.readyOf name = [] → b'.readyOf name = []) := by
  obtain ⟨b₁, hgrw, hcons, hcs⟩ := basicGet_cases h.linked hget
  have hsame := (hgrw.unmoved name).1
  obtain ⟨rfl, rfl⟩ | ⟨id, q, e, ready, tag, b₂, hid, hq, hrdy, htag, rfl, rfl⟩ := hcs
  · rw [awaiting, filter_nil, append_nil]
    exact ⟨h.grown hgrw, hgrw.moves, hcons, hsame.trans⟩
  · obtain ⟨hinv, hmv, hcons₂, -⟩ := (h.grown hgrw).handOver hid hq hrdy
      (d := ⟨connId, ⟨channel, "", tag, "", name, e.payload⟩, noAck, name, e.seq⟩) rfl rfl htag
    refine ⟨hinv, hgrw.moves.trans_nil hmv, hcons₂.trans hcons, fun hnil ↦ ?_⟩
    rw [← hsame, readyOf_eq ((queue_eq hid).trans hq), hrdy] at hnil
    cases hnil

theorem Inv.push (h : b.Inv unacked) (hid : b.queues name = some id)
    (hq : b.core.queues.object id = some q) (body : Bytes) :
    (b.setQueue id (q.push body)).Inv unacked ∧
      Moves [name] [(name, ⟨q.seq, body⟩)] b (b.setQueue id (q.push body)) [] := by
  have hbq : b.queue name = some q := (queue_eq hid).trans hq
  obtain ⟨enqueued, acked, htr⟩ := h.tracks name q hbq
  refine ⟨h.setQueue hid hq (htr.push body) fun _ _ _ he ↦ he,
    moves_of_update hbq (h.linked.queue_setQueue hid _) (fun p hp ↦ ?_) (fun e he ↦ .inl ?_)
      (List.Subset.refl _) (fun _ he ↦ .inl he) (forall_mem_nil _)⟩
  · rw [mem_singleton.mp hp]
  · refine mem_append.mpr (he.imp_right fun hmem ↦ ?_)
    rw [(Prod.mk.inj (mem_singleton.mp hmem)).2]
    exact mem_cons_self

theorem hasConsumer_congr (h : b'.consumers = b.consumers) (n : String) :
    b'.hasConsumer n = b.hasConsumer n := by
  rw [hasConsumer, hasConsumer, h]

/-- The turn of a consumer changes nothing else. -/
theorem nextConsumer_cases (b : Broker) (name : String) :
    b.nextConsumer name = (none, b) ∧ b.hasConsumer name = false ∨ ∃ c consumers,
      b.nextConsumer name = (some c, { b with consumers := consumers }) ∧ b.hasConsumer name ∧
      (∀ n, hasConsumer { b with consumers := consumers } n = b.hasConsumer n) ∧
      ∀ P, b.Attended P → P c.connId ∧ Attended { b with consumers := consumers } P := by
  rw [nextConsumer]
  rcases hgr : b.consumers name with _ | group
  · exact .inl ⟨rfl, by rw [hasConsumer, hgr]; rfl⟩
  dsimp only
  rcases hc : group.consumers[group.rr % group.consumers.length]? with _ | c
  · refine .inl ⟨rfl, ?_⟩
    have hle := List.getElem?_eq_none_iff.mp hc
    have hnil : group.consumers = [] := by
      by_contra hne
      exact absurd (Nat.mod_lt _ (length_pos_iff.mpr hne)) (Nat.not_lt.mpr hle)
    rw [hasConsumer, hgr, map_some, hnil]
    rfl
  refine .inr ⟨c, _, rfl, ?_, fun n ↦ ?_, fun P hP ↦ ?_⟩
  · have hne : group.consumers ≠ [] := ne_nil_of_mem (mem_of_getElem? hc)
    rw [hasConsumer, hgr]
    simpa using hne
  · rw [hasConsumer, hasConsumer]
    change (((update b.consumers name _) n).map _).getD false = _
    rw [update_apply]
    split_ifs with hn
    · rw [hn, hgr]
      rfl
    · rfl
  · have hall := hP name group hgr
    refine ⟨hall c (mem_of_getElem? hc), hP.update ?_ rfl⟩
    exact hall

/-- One routed queue of a publish: a message with a body is put at the end, and the head of the
queue is handed to the consumer whose turn it is. -/
theorem publishTo_cases (h : b.Linked) (exchange routingKey : String) (body : Bytes) (now : ℕ)
    (name : String) : ∃ b₁, Grown name b b₁ ∧ (∀ n, b₁.hasConsumer n = b.hasConsumer n) ∧
      (∀ P, b.Attended P → b₁.Attended P) ∧ ((b.queue name = none ∨ body = []) ∧
          b.publishTo exchange routingKey body now name = some (b₁, []) ∨
        body ≠ [] ∧ ∃ id q, b₁.queues name = some id ∧ b₁.core.queues.object id = some q ∧
          (b.hasConsumer name = false ∧ b.publishTo exchange routingKey body now name =
              some (b₁.setQueue id (q.push body), []) ∨
            ∃ (c : Consumer) (e : QueueEntry) (ready : _), b.hasConsumer name ∧
              (∀ P, b.Attended P → P c.connId) ∧ (q.push body).ready = e :: ready ∧
              b.publishTo exchange routingKey body now name =
                ((b₁.setQueue id (q.push body)).nextDeliveryTag c.connId c.channel).map fun r ↦
                  (r.2.settle (c.connId, c.channel, r.1) c.noAck name id (q.push body).dequeue.2
                    q.seq, [⟨c.connId, ⟨c.channel, c.tag, r.1, exchange, routingKey, e.payload⟩,
                      c.noAck, name, e.seq⟩]))) := by
  obtain ⟨b₀, hgrw, hcons, ⟨hens, hnone⟩ | ⟨id, q, hens, hid, hq⟩⟩ := ensureQueue_cases h name
  · refine ⟨b₀, hgrw, hasConsumer_congr hcons, fun P hP ↦ hP.congr hcons, .inl ⟨.inl hnone, ?_⟩⟩
    rw [publishTo, hens]
  rw [publishTo, hens]
  simp only [hgrw.linked.queueEnqueue hid hq]
  by_cases hbody : body = []
  · -- the log refuses an empty body
    subst hbody
    exact ⟨{ b₀ with core := (b₀.core.enqueue id q [] now).2 },
      hgrw.congr (ArcTable.write_self hq) rfl rfl rfl rfl, hasConsumer_congr hcons,
      fun P hP ↦ hP.congr hcons, .inl ⟨.inr rfl, rfl⟩⟩
  rw [SynapseCore.enqueue, Queue.enqueue_of_ne_nil hbody]
  dsimp only
  generalize (b₀.core.wal.append body now).2 = wal
  rcases nextConsumer_cases { b₀ with core := { b₀.core with
    wal := wal, queues := b₀.core.queues.write id (q.push body) } } name with
    ⟨hturn, hno⟩ | ⟨c, consumers, hturn, hhas, hsame, hatt⟩
  · rw [hturn]
    exact ⟨{ b₀ with core := { b₀.core with wal := wal } }, hgrw.congr rfl rfl rfl rfl rfl,
      hasConsumer_congr hcons, fun P hP ↦ hP.congr hcons,
      .inr ⟨hbody, id, q, hid, hq, .inl ⟨(hasConsumer_congr hcons name).symm.trans hno, rfl⟩⟩⟩
  · obtain ⟨e, ready, hrdy⟩ : ∃ e ready, q.ready ++ [⟨q.seq, body⟩] = e :: ready :=
      exists_cons_of_ne_nil (append_ne_nil_of_right_ne_nil _ (cons_ne_nil _ _))
    have hobj : (b₀.core.queues.write id (q.push body)).object id = some (q.push body) :=
      object_setQueue hq _
    refine ⟨{ b₀ with core := { b₀.core with wal := wal }, consumers := consumers },
      hgrw.congr rfl rfl rfl rfl rfl, fun n ↦ (hsame n).trans (hasConsumer_congr hcons n),
      fun P hP ↦ (hatt P (hP.congr hcons)).2, .inr ⟨hbody, id, q, hid, hq, .inr ⟨c, e, ready,
        (hasConsumer_congr hcons name).symm.trans hhas, fun P hP ↦ (hatt P (hP.congr hcons)).1,
        hrdy, ?_⟩⟩⟩
    rw [hturn]
    dsimp only
    rw [hobj, bind_eq_bind, bind_some, Queue.dequeue_eq hrdy]
    exact (map_eq_bind ..).symm

theorem Inv.publishTo (h : b.Inv unacked) {exchange routingKey : String} {now : ℕ}
    (hprm : b.hasConsumer name → b.readyOf name = [])
    (hpub : b.publishTo exchange routingKey body now name = some (b', sent)) :
    b'.Inv (unacked ++ awaiting sent) ∧ (∀ n, b'.hasConsumer n = b.hasConsumer n) ∧
      (b'.hasConsumer name → b'.readyOf name = []) ∧ ∃ new, Moves [name] new b b' sent ∧
        (b.seqOf name < b'.seqOf name → (name, ⟨b.seqOf name, body⟩) ∈ new) := by
  obtain ⟨b₁, hgrw, hsame, -, ⟨-, heq⟩ | ⟨-, id, q, hid, hq, hcs⟩⟩ :=
    publishTo_cases h.linked exchange routingKey body now name
  · cases heq.symm.trans hpub
    rw [awaiting, filter_nil, append_nil]
    exact ⟨h.grown hgrw, hsame, fun hhas ↦ (hgrw.unmoved name).1.trans
      (hprm ((hsame name).symm.trans hhas)), [], hgrw.moves,
      fun hlt ↦ absurd (hgrw.unmoved name).2.2 (Nat.ne_of_gt hlt)⟩
  have hque : b₁.queue name = some q := (queue_eq hid).trans hq
  have hseq := (hgrw.unmoved name).2.2
  obtain ⟨hinv, hmv⟩ := (h.grown hgrw).push hid hq body
  replace hmv := hgrw.moves.trans_nil hmv
  rw [← seqOf_eq hque, hseq] at hmv
  rcases hcs with ⟨hno, heq⟩ | ⟨c, e, ready, hhas, -, hrdy, heq⟩
  · cases heq.symm.trans hpub
    rw [awaiting, filter_nil, append_nil]
    exact ⟨hinv, hsame, fun hhas ↦ Bool.noConfusion (hno.symm.trans ((hsame name).symm.trans hhas)),
      _, hmv, fun _ ↦ mem_cons_self⟩
  -- nothing was waiting, so the head of the queue is the new message
  have hold : q.ready = [] := by
    rw [← readyOf_eq hque, (hgrw.unmoved name).1]
    exact hprm hhas
  obtain ⟨rfl, rfl⟩ := List.cons.inj ((congrArg (· ++ [⟨q.seq, body⟩]) hold).symm.trans hrdy)
  obtain ⟨⟨tag, b₃⟩, htag, hfin⟩ := map_eq_some_iff.mp (heq.symm.trans hpub)
  obtain ⟨rfl, rfl⟩ := Prod.mk.inj hfin
  obtain ⟨hinv₃, hmv₃, hcons₃, hnil₃⟩ := hinv.handOver hid (object_setQueue hq _) hrdy
    (d := ⟨c.connId, ⟨c.channel, c.tag, tag, exchange, routingKey, body⟩, c.noAck, name,
      q.seq⟩) rfl rfl htag
  exact ⟨hinv₃, fun n ↦ (hasConsumer_congr hcons₃ n).trans (hsame n), fun _ ↦ hnil₃, _,
    hmv.trans_nil hmv₃, fun _ ↦ mem_cons_self⟩

theorem Inv.publishAll (h : b.Inv unacked) {exchange routingKey : String} {names : List String}
    {times : List ℕ} (hnd : names.Nodup)
    (hprm : ∀ name ∈ names, b.hasConsumer name → b.readyOf name = [])
    (hpub : b.publishAll exchange routingKey body names times = some (b', sent)) :
    b'.Inv (unacked ++ awaiting sent) ∧ (∀ n, b'.hasConsumer n = b.hasConsumer n) ∧
      (∀ name ∈ names, b'.hasConsumer name → b'.readyOf name = []) ∧
      ∃ new, Moves names new b b' sent ∧ ∀ name ∈ names,
        b.seqOf name < b'.seqOf name → (name, ⟨b.seqOf name, body⟩) ∈ new := by
  induction names generalizing b unacked times sent with
  | nil =>
    obtain ⟨rfl, rfl⟩ := Prod.mk.inj (some.inj hpub)
    rw [awaiting, filter_nil, append_nil]
    have hmv : Moves [] [] b b [] := ⟨fun _ _ ↦ rfl, fun _ _ he ↦
      .inl (he.resolve_right not_mem_nil), fun _ _ he ↦ he, fun _ _ he ↦ .inl he, nofun, nofun⟩
    exact ⟨h, fun _ ↦ rfl, nofun, [], hmv, nofun⟩
  | cons name names ih =>
    simp only [Broker.publishAll, bind_eq_bind, bind_eq_some_iff, some.injEq, Prod.mk.injEq] at hpub
    obtain ⟨⟨b₁, sent₁⟩, hto, ⟨b₂, sent₂⟩, hrest, rfl, rfl⟩ := hpub
    rw [nodup_cons] at hnd
    obtain ⟨hinv₁, hcons₁, hnil₁, new₁, hmv₁, hnew₁⟩ := h.publishTo (hprm name mem_cons_self) hto
    have hne : ∀ n ∈ names, n ∉ [name] := fun n hn hmem ↦ hnd.1 (mem_singleton.mp hmem ▸ hn)
    have hprm₁ : ∀ n ∈ names, b₁.hasConsumer n → b₁.readyOf n = [] := by
      intro n hn hhas
      rw [hcons₁ n] at hhas
      rw [readyOf, hmv₁.frame n (hne n hn)]
      exact hprm n (mem_cons_of_mem _ hn) hhas
    obtain ⟨hinv₂, hcons₂, hnil₂, new₂, hmv₂, hnew₂⟩ := ih hinv₁ hnd.2 hprm₁ hrest
    rw [awaiting, filter_append, ← append_assoc]
    refine ⟨hinv₂, fun n ↦ (hcons₂ n).trans (hcons₁ n), forall_mem_cons.mpr ⟨fun hhas ↦ ?_, hnil₂⟩,
      new₁ ++ new₂, hmv₁.trans hmv₂ (List.Subset.refl _) fun d hd ↦ ?_, fun n hn hlt ↦ ?_⟩
    · rw [readyOf, hmv₂.frame name hnd.1]
      exact hnil₁ ((hcons₂ name).symm.trans hhas)
    · rw [mem_singleton.mp (hmv₁.origin d hd)]
      exact hnd.1
    · -- each queue counts on when its own turn comes, and at no other time
      rcases mem_cons.mp hn with rfl | hn
      · rw [seqOf, seqOf, hmv₂.frame n hnd.1] at hlt
        exact mem_append_left _ (hnew₁ hlt)
      · have hsame : b₁.seqOf n = b.seqOf n := by rw [seqOf, seqOf, hmv₁.frame n (hne n hn)]
        rw [← hsame] at hlt ⊢
        exact mem_append_right _ (hnew₂ n hn hlt)

/-! ## Acknowledgements -/

section

variable (h : b.Inv unacked)

include h

theorem Inv.basicAck_of_stray {tag : ℕ} (hstry : ∀ d ∈ unacked, d.key ≠ (connId, channel, tag)) :
    b.basicAck connId channel tag = b := by
  rw [Broker.basicAck]
  cases hp : b.inflight (connId, channel, tag) with
  | none => rfl
  | some p =>
    obtain ⟨d, hd, hkey⟩ := h.listed _ p hp
    exact absurd hkey (hstry d hd)

theorem Inv.basicAck_eq (hd : d ∈ unacked) (hid : b.queues d.queue = some id)
    (hbq : b.queue d.queue = some q) : b.basicAck d.connId d.msg.channel d.msg.deliveryTag =
      Broker.setQueue { b with inflight := update b.inflight d.key none } id (q.ack d.seq).2 := by
  have hentered : b.inflight (d.connId, d.msg.channel, d.msg.deliveryTag) =
      some (d.queue, d.seq) := h.entered d hd
  have hbq' : Broker.queue { b with inflight := update b.inflight d.key none } d.queue =
      some q := hbq
  rw [Broker.basicAck, hentered]
  dsimp only
  rw [hid, ← Delivery.key, hbq']

theorem Inv.basicAck (hd : d ∈ unacked) : (b.basicAck d.connId d.msg.channel d.msg.deliveryTag).Inv
      (unacked.filter fun d' ↦ !decide (d'.key = d.key)) ∧
    ∀ name, (b.inflightOf name).Perm ((if name = d.queue then [d.entry] else []) ++
      (b.basicAck d.connId d.msg.channel d.msg.deliveryTag).inflightOf name) := by
  obtain ⟨q, hbq, hmem⟩ := exists_of_mem_inflightOf (h.held d hd)
  obtain ⟨id, hid, hq⟩ := exists_id hbq
  obtain ⟨enqueued, acked, htr⟩ := h.tracks d.queue q hbq
  have hfgt : Inv { b with inflight := update b.inflight d.key none }
      (unacked.filter fun d' ↦ !decide (d'.key = d.key)) := by
    apply h.forget
    · intro d' hkey
      rw [Bool.not_eq_true', decide_eq_false_iff_not] at hkey
      exact update_of_ne hkey ..
    intro key p hp
    rw [update_apply] at hp
    split_ifs at hp with hkey
    refine ⟨hp, ?_⟩
    rintro d' rfl
    rwa [Bool.not_eq_true', decide_eq_false_iff_not]
  rw [h.basicAck_eq hd hid hbq]
  constructor
  · apply hfgt.setQueue hid hq (htr.ack_of_mem hmem)
    intro d' hd' hque he
    rw [mem_filter, Bool.not_eq_true', decide_eq_false_iff_not] at hd'
    refine mem_filter.mpr ⟨he, bne_iff_ne.mpr fun hseq ↦ hd'.2 ?_⟩
    -- another delivery has another place
    rw [inj_on_of_nodup_map h.places hd'.1 hd (Prod.ext hque hseq)]
  · have hque := hfgt.linked.queue_setQueue hid (q.ack d.seq).2
    intro name
    split_ifs with hn
    · rw [hn, inflightOf_eq hbq, inflightOf_eq (by rw [hque, update_self])]
      exact htr.perm_inflight hmem
    · rw [inflightOf_congr (by rw [hque, update_of_ne hn]; rfl)]
      exact .refl _

theorem Inv.nodup_inflightOf (name : String) : (b.inflightOf name).Nodup := by
  rw [inflightOf]
  cases hq : b.queue name with
  | none => exact nodup_nil
  | some q =>
    obtain ⟨enqueued, acked, htr⟩ := h.tracks name q hq
    exact .of_map QueueEntry.seq htr.nodup_inflight

end

/-- An acknowledgement leaves what waits. -/
theorem readyOf_basicAck (b : Broker) (h : b.Inv unacked) (connId : ℕ) (channel : UInt16)
    (tag : ℕ) (name : String) :
    (b.basicAck connId channel tag).readyOf name = b.readyOf name := by
  by_cases hmem : ∃ d ∈ unacked, d.key = (connId, channel, tag)
  · obtain ⟨d, hd, hkey⟩ := hmem
    obtain ⟨rfl, hrest⟩ := Prod.mk.inj hkey
    obtain ⟨rfl, rfl⟩ := Prod.mk.inj hrest
    obtain ⟨q, hbq, -⟩ := exists_of_mem_inflightOf (h.held d hd)
    obtain ⟨id, hid, -⟩ := exists_id hbq
    have hlinked : Linked { b with inflight := update b.inflight d.key none } :=
      h.linked.congr rfl rfl
    rw [h.basicAck_eq hd hid hbq, readyOf, readyOf, hlinked.queue_setQueue hid]
    by_cases hn : name = d.queue
    · rw [hn, update_self, hbq]
      rfl
    · rw [update_of_ne hn]
      rfl
  · rw [h.basicAck_of_stray fun d hd hkey ↦ hmem ⟨d, hd, hkey⟩]

/-- The connection goes, and its tags with it. -/
theorem Inv.disconnect (h : b.Inv unacked) (connId : ℕ) :
    (b.disconnect connId).Inv (unacked.filter (·.connId != connId)) := by
  have hfgt : Inv { b with inflight := fun key ↦ if key.1 = connId then none else b.inflight key }
      (unacked.filter (·.connId != connId)) := by
    apply h.forget
    · intro d hd
      exact if_neg (bne_iff_ne.mp hd)
    intro key p hp
    split_ifs at hp with hconn
    refine ⟨hp, ?_⟩
    rintro d rfl
    exact bne_iff_ne.mpr hconn
  refine ⟨h.linked.congr rfl rfl, h.tracks, ?_, hfgt.held, hfgt.entered, hfgt.listed,
    hfgt.keys, hfgt.places, ?_⟩
  · intro c hc
    change update b.connections connId none c = none
    rw [update_apply]
    split_ifs
    · rfl
    · exact h.fresh c hc
  · intro d hd
    have hne := bne_iff_ne.mp (mem_filter.mp hd).2
    obtain ⟨tags, htags, hle⟩ := hfgt.numbered d hd
    refine ⟨tags, ?_, hle⟩
    change update b.connections connId none d.connId = some tags
    rwa [update_of_ne hne]

theorem Inv.connect (h : b.Inv unacked) : b.connect.2.Inv unacked := by
  refine ⟨h.linked.congr rfl rfl, h.tracks, ?_, h.held, h.entered, h.listed, h.keys, h.places, ?_⟩
  · intro c hc
    change update b.connections b.nextConn _ c = none
    rw [update_of_ne (Nat.ne_of_gt hc)]
    exact h.fresh c (Nat.le_of_lt hc)
  · intro d hd
    obtain ⟨tags, htags, hle⟩ := h.numbered d hd
    refine ⟨tags, ?_, hle⟩
    change update b.connections b.nextConn _ d.connId = some tags
    rw [update_of_ne, htags]
    intro heq
    rw [heq, h.fresh _ le_rfl] at htags
    cases htags

/-- Methods other than an acknowledgement. -/
theorem Inv.handleMethod (h : b.Inv unacked) {m : Method}
    {reply : Except ProtocolError (List Reply)} (hm : ∀ tag multiple, m ≠ .basicAck tag multiple)
    (hmeth : b.handleMethod connId channel m = some (reply, b', sent)) :
    b'.Inv (unacked ++ awaiting sent) ∧ ∃ names, Moves names [] b b' sent := by
  obtain ⟨name, noAck, r, -, hget⟩ | ⟨tag, multiple, rfl, -⟩ | ⟨rfl, ⟨name, hgrw⟩, -⟩ :=
    handleMethod_cases h.linked hmeth
  · obtain ⟨hinv, hmv, -⟩ := h.basicGet hget
    exact ⟨hinv, [name], hmv⟩
  · exact absurd rfl (hm tag multiple)
  · rw [awaiting, filter_nil, append_nil]
    exact ⟨h.grown hgrw, [name], hgrw.moves⟩

end Broker

end Synapse.Amqp
