import Synapse.Engine.Replay
import Synapse.Amqp.Delivery

/-!
# Payloads that can be stored

A queue and a map write the payload to the shared log before they keep it, and the log takes every
payload but the empty one. `stored_iff` follows this decision up to the clients: the queue gives
back what was enqueued, the map what was set, and a publish adds its body to the queues it is routed
to, if the body is not empty and only then. A publish with an empty body is reported as done
(`empty_not_stored`).

What a publish adds to a queue is `Adds`: one message under the next number. The message may be
delivered at once, and under `no_ack` it may be gone when the publish returns; but a publish
acknowledges no other message, since the number it acknowledges is that of the new one.
-/

namespace Synapse

open Transition List Function Option

/-! ## The primitives -/

namespace Queue

variable {q : Queue} {wal : TieredSegmentedLog} {payload : Bytes} {now : ℕ}

/-- The payload is accepted, and comes out once the messages before it have. -/
def Stores (q : Queue) (wal : TieredSegmentedLog) (payload : Bytes) (now : ℕ) : Prop :=
  ∃ seq, (q.enqueue wal payload now).1 = .ok seq ∧
    ((q.enqueue wal payload now).2.1.drain q.ready.length).dequeue.1 = some (seq, payload)

theorem stores_iff : q.Stores wal payload now ↔ payload ≠ [] := by
  constructor
  · rintro ⟨seq, hok, -⟩ rfl
    cases hok
  intro hne
  rw [Stores, enqueue_of_ne_nil hne]
  refine ⟨q.seq, rfl, ?_⟩
  rw [dequeue_fst, ready_drain, drop_left, List.head?_cons, map_some]

end Queue

namespace Map

variable {m : Map} {wal : TieredSegmentedLog} {key : String} {value : Bytes} {now later : ℕ}

/-- The value is accepted, and read afterwards. -/
def Stores (m : Map) (wal : TieredSegmentedLog) (key : String) (value : Bytes) (now later : ℕ) :
    Prop :=
  (m.set wal key value none now).1 = .ok () ∧
    ((m.set wal key value none now).2.1.get key later).1 = some value

theorem stores_iff (hkey : key ≠ "") : m.Stores wal key value now later ↔ value ≠ [] := by
  constructor
  · rintro ⟨hok, -⟩ rfl
    rw [set, if_neg hkey] at hok
    cases hok
  · intro hval
    rw [Stores, set_of_ne_nil hkey hval, get, lookup_cons_self]
    exact ⟨rfl, rfl⟩

end Map

namespace Amqp

/-! ## Sound brokers -/

namespace Broker

/-- The queues are those of the core, none has lost a message, and consumers are connected. -/
structure Sound (b : Broker) : Prop where
  linked : b.Linked
  tracks : b.Tracked
  attended : b.Attended fun connId ↦ b.connections connId ≠ none

variable {b b' : Broker} {name : String} {id : ℕ} {q q' : Queue} {body : Bytes}
  {sent : List Delivery}

namespace Sound

theorem same (h : b.Sound) (hcore : b'.core.queues = b.core.queues) (hqs : b'.queues = b.queues)
    (hatt : b'.Attended fun connId ↦ b'.connections connId ≠ none) : b'.Sound where
  linked := h.linked.congr (by rw [hcore]) hqs
  tracks := by
    rw [Tracked, queue_congr hcore hqs]
    exact h.tracks
  attended := hatt

theorem grown (h : b.Sound) (hgrw : Grown name b b')
    (hatt : b'.Attended fun connId ↦ b.connections connId ≠ none) : b'.Sound :=
  ⟨hgrw.linked, h.tracks.grown hgrw, hgrw.connections ▸ hatt⟩

theorem setQueue (h : b.Sound) (hid : b.queues name = some id)
    (htr : ∃ enqueued acked, q'.Tracks enqueued acked) : (b.setQueue id q').Sound where
  linked := h.linked.setQueue id q'
  tracks := h.tracks.update (h.linked.queue_setQueue hid q') htr
  attended := h.attended

theorem drawTag (h : b.Sound) {connId : ℕ} (hconn : b.connections connId ≠ none)
    (channel : UInt16) : ∃ tag b', b.nextDeliveryTag connId channel = some (tag, b') ∧ b'.Sound ∧
      b'.core = b.core ∧ b'.queues = b.queues := by
  obtain ⟨tags, htags⟩ := ne_none_iff_exists'.mp hconn
  have hdraw : b.nextDeliveryTag connId channel = some (tags channel + 1, { b with
      connections := update b.connections connId
        (some (update tags channel (tags channel + 1))) }) := by
    rw [nextDeliveryTag, htags]
    rfl
  refine ⟨_, _, hdraw, ?_, rfl, rfl⟩
  refine h.same rfl rfl fun name group hgr c hc ↦ ?_
  change update b.connections connId _ c.connId ≠ none
  rw [update_apply]
  split_ifs
  · exact some_ne_none _
  · exact h.attended name group hgr c hc

end Sound

def settled (noAck : Bool) (q : Queue) (seq : ℕ) : Queue := if noAck then (q.ack seq).2 else q

theorem Sound.settle (h : b.Sound) (hid : b.queues name = some id)
    (htr : ∃ enqueued acked, q.Tracks enqueued acked) (key : TagKey) (noAck : Bool) (seq : ℕ) :
    (b.settle key noAck name id q seq).Sound ∧ (b.settle key noAck name id q seq).queue =
        update b.queue name (some (settled noAck q seq)) := by
  obtain ⟨enqueued, acked, htr⟩ := htr
  rw [Broker.settle, settled]
  split_ifs
  · exact ⟨h.setQueue hid (htr.ack seq), h.linked.queue_setQueue hid _⟩
  · exact ⟨(h.setQueue hid ⟨enqueued, acked, htr⟩).same rfl rfl h.attended,
      h.linked.queue_setQueue hid _⟩

/-- A message taken off a queue goes to a connected client. -/
theorem Sound.handOver (h : b.Sound) (hid : b.queues name = some id)
    (htr : ∃ enqueued acked, q.Tracks enqueued acked) {connId : ℕ}
    (hconn : b.connections connId ≠ none) (channel : UInt16) (noAck : Bool) (seq : ℕ) :
    ∃ tag b', b.nextDeliveryTag connId channel = some (tag, b') ∧
      (b'.settle (connId, channel, tag) noAck name id q seq).Sound ∧
      (b'.settle (connId, channel, tag) noAck name id q seq).queue =
        update b.queue name (some (settled noAck q seq)) := by
  obtain ⟨tag, b', htag, hsnd, hcore, hqs⟩ := h.drawTag hconn channel
  obtain ⟨hset, hq⟩ := hsnd.settle ((congrFun hqs name).trans hid) htr
    (connId, channel, tag) noAck seq
  rw [queue_congr (congrArg SynapseCore.queues hcore) hqs] at hq
  exact ⟨tag, b', htag, hset, hq⟩

/-! ## Publishing -/

/-- One message is new, under the queue's next number. It is in the queue with all the others,
unless it was given up at once. -/
structure Adds (name : String) (body : Bytes) (q q' : Queue) (sent : List Delivery) : Prop where
  seq : q'.seq = q.seq + 1
  messages : ∃ taken, List.Perm (q.ready ++ q.inflight ++ [⟨q.seq, body⟩])
      (q'.ready ++ q'.inflight ++ taken) ∧
    ∀ e ∈ taken, e = ⟨q.seq, body⟩ ∧ ∃ d ∈ sent, d.queue = name ∧ d.noAck ∧ d.entry = e

theorem Adds.mono {sent' : List Delivery} (h : Adds name body q q' sent) (hsub : sent ⊆ sent') :
    Adds name body q q' sent' := by
  obtain ⟨hseq, taken, hperm, htaken⟩ := h
  refine ⟨hseq, taken, hperm, fun e he ↦ ⟨(htaken e he).1, ?_⟩⟩
  obtain ⟨d, hd, hdel⟩ := (htaken e he).2
  exact ⟨d, hsub hd, hdel⟩

theorem adds_push (name : String) (body : Bytes) (q : Queue) :
    Adds name body q (q.push body) [] where
  seq := rfl
  messages := by
    refine ⟨[], ?_, nofun⟩
    rw [append_nil, append_assoc, append_assoc]
    exact perm_append_comm.append_left q.ready

/-- The head of the queue is handed to a consumer, and the number of the new message is
acknowledged. -/
theorem adds_settled {enqueued acked : List QueueEntry} (htr : q.Tracks enqueued acked) {q₁ : Queue}
    {e : QueueEntry} {ready : List QueueEntry} (hq₁ : q₁ = q.push body)
    (hrdy : q₁.ready = e :: ready) {d : Delivery} (hque : d.queue = name) (hent : d.entry = e) :
    Adds name body q (settled d.noAck q₁.dequeue.2 q.seq) [d] := by
  have hpush : q₁.Tracks (enqueued ++ [⟨q.seq, body⟩]) acked := by
    rw [hq₁]
    exact htr.push body
  have hseq : q₁.seq = q.seq + 1 := by rw [hq₁]
  have hboth : q.ready ++ [⟨q.seq, body⟩] = e :: ready := by rw [← hrdy, hq₁]
  have hmoved : List.Perm (q.ready ++ q.inflight ++ [⟨q.seq, body⟩])
      (ready ++ (e :: q.inflight)) := by
    rw [append_assoc]
    refine (perm_append_comm.append_left q.ready).trans ?_
    rw [← append_assoc, hboth]
    exact perm_middle.symm
  have hfr : ∀ x, x ∈ q.ready ∨ x ∈ q.inflight → x.seq ≠ q.seq := by
    intro x hx
    refine Nat.ne_of_lt (htr.fresh x (htr.perm.mem_iff.mpr ?_))
    rw [mem_append, mem_append]
    exact hx.imp_right .inl
  have hinf : q₁.inflight = q.inflight := by rw [hq₁]
  rw [settled, hpush.dequeue_snd hrdy]
  split_ifs with hno
  · refine ⟨hseq, (e :: q.inflight).filter fun x ↦ !(x.seq != q.seq), ?_, fun x hx ↦ ?_⟩
    · rw [hinf]
      refine hmoved.trans ?_
      rw [append_assoc]
      exact (filter_append_perm (fun x : QueueEntry ↦ x.seq != q.seq)
        (e :: q.inflight)).symm.append_left ready
    · obtain ⟨hmem, hnumber⟩ := mem_filter.mp hx
      have hnumber : x.seq = q.seq := by simpa using hnumber
      -- a message that was there before has an earlier number
      obtain rfl : x = e := (mem_cons.mp hmem).resolve_right fun hold ↦ hfr x (.inr hold) hnumber
      have hplc : x ∈ q.ready ++ [⟨q.seq, body⟩] := by
        rw [hboth]
        exact mem_cons_self
      refine ⟨mem_singleton.mp ((mem_append.mp hplc).resolve_left fun hold ↦
        hfr x (.inl hold) hnumber), d, mem_cons_self, hque, hno, hent⟩
  · refine ⟨hseq, [], ?_, nofun⟩
    rw [append_nil, hinf]
    exact hmoved

/-- What a publish does: it adds its body to each routed queue there is, if it has a body. -/
structure Published (names : List String) (body : Bytes) (b b' : Broker) (sent : List Delivery) :
    Prop where
  sound : b'.Sound
  frame : ∀ n ∉ names, b'.queue n = b.queue n
  added : ∀ n ∈ names, ∀ q, b.queue n = some q → ∃ q', b'.queue n = some q' ∧
    (body = [] ∧ q' = q ∨ body ≠ [] ∧ Adds n body q q' sent)

theorem Grown.queue_eq (h : Grown name b b') (hq : b.queue name = some q) :
    b'.queue name = some q := by
  rcases h.queue with hsame | ⟨hnone, -⟩
  · exact hsame.trans hq
  · cases hnone.symm.trans hq

/-- The queue is there or created, and then changed. -/
theorem Grown.published {b₁ : Broker} (h : Grown name b b₁) (hq : b₁.queue name = some q)
    (hsnd : b'.Sound) (hque : b'.queue = update b₁.queue name (some q'))
    (hadd : body = [] ∧ q' = q ∨ body ≠ [] ∧ Adds name body q q' sent) :
    Published [name] body b b' sent where
  sound := hsnd
  frame n hn := by
    have hne : n ≠ name := fun heq ↦ hn (heq ▸ mem_singleton_self n)
    rw [hque, update_of_ne hne]
    exact h.frame n hne
  added n hn q₀ hq₀ := by
    obtain rfl := mem_singleton.mp hn
    obtain rfl := some.inj ((h.queue_eq hq₀).symm.trans hq)
    exact ⟨q', by rw [hque, update_self], hadd⟩

theorem Sound.publishTo (h : b.Sound) (exchange routingKey : String) (body : Bytes) (now : ℕ)
    (name : String) : ∃ b' sent, b.publishTo exchange routingKey body now name = some (b', sent) ∧
      Published [name] body b b' sent := by
  obtain ⟨b₁, hgrw, -, hatt, hcs⟩ := publishTo_cases h.linked exchange routingKey body now name
  have hsnd : b₁.Sound := h.grown hgrw (hatt _ h.attended)
  obtain ⟨hnone, heq⟩ | ⟨hbody, id, q, hid, hq, hcs⟩ := hcs
  · refine ⟨b₁, [], heq, hsnd, fun n hn ↦ hgrw.frame n (by simpa using hn), fun n hn q hq ↦ ?_⟩
    obtain rfl := mem_singleton.mp hn
    exact ⟨q, hgrw.queue_eq hq, .inl ⟨hnone.resolve_left (by simp [hq]), rfl⟩⟩
  have hque : b₁.queue name = some q := (queue_eq hid).trans hq
  obtain ⟨enqueued, acked, htr⟩ := hsnd.tracks name q hque
  have hsnd₂ : (b₁.setQueue id (q.push body)).Sound := hsnd.setQueue hid ⟨_, _, htr.push body⟩
  have hupd := hsnd.linked.queue_setQueue hid (q.push body)
  obtain ⟨-, heq⟩ | ⟨c, e, ready, -, hlive, hrdy, heq⟩ := hcs
  · exact ⟨_, [], heq, hgrw.published hque hsnd₂ hupd (.inr ⟨hbody, adds_push name body q⟩)⟩
  have hconn : b₁.connections c.connId ≠ none := hgrw.connections ▸ hlive _ h.attended
  obtain ⟨tag, b₃, htag, hsnd₃, hque₃⟩ := hsnd₂.handOver hid
    ⟨_, _, (htr.push body).dequeue⟩ hconn c.channel c.noAck q.seq
  rw [hupd, update_idem] at hque₃
  rw [heq, htag]
  refine ⟨_, _, rfl, hgrw.published hque hsnd₃ hque₃ (.inr ⟨hbody, ?_⟩)⟩
  exact adds_settled htr rfl hrdy (d := ⟨c.connId,
    ⟨c.channel, c.tag, tag, exchange, routingKey, e.payload⟩, c.noAck, name, e.seq⟩) rfl rfl

theorem Sound.publishAll (h : b.Sound) (exchange routingKey : String) (body : Bytes)
    {names : List String} (hnd : names.Nodup) (times : List ℕ) :
    ∃ b' sent, b.publishAll exchange routingKey body names times = some (b', sent) ∧
      Published names body b b' sent := by
  induction names generalizing b times with
  | nil => exact ⟨b, [], rfl, h, fun _ _ ↦ rfl, nofun⟩
  | cons name names ih =>
    rw [nodup_cons] at hnd
    obtain ⟨b₁, sent₁, hto, hpub₁⟩ := h.publishTo exchange routingKey body (times.headD 0) name
    obtain ⟨b₂, sent₂, hrest, hpub₂⟩ := ih hpub₁.sound hnd.2 times.tail
    refine ⟨b₂, sent₁ ++ sent₂, ?_, hpub₂.sound, fun n hn ↦ ?_, fun n hn q hq ↦ ?_⟩
    · rw [Broker.publishAll, hto, bind_eq_bind, bind_some]
      dsimp only
      rw [hrest]
      rfl
    · rw [mem_cons, not_or] at hn
      rw [hpub₂.frame n hn.2, hpub₁.frame n fun hmem ↦ hn.1 (mem_singleton.mp hmem)]
    · -- the other routed queues come before or after, and leave this one alone
      by_cases hname : n = name
      · subst hname
        obtain ⟨q', hq', hadd⟩ := hpub₁.added n mem_cons_self q hq
        refine ⟨q', (hpub₂.frame n hnd.1).trans hq', hadd.imp_right (And.imp_right ?_)⟩
        exact fun hadds ↦ hadds.mono (subset_append_left sent₁ sent₂)
      · have hq₁ : b₁.queue n = some q :=
          (hpub₁.frame n fun hmem ↦ hname (mem_singleton.mp hmem)).trans hq
        obtain ⟨q', hq', hadd⟩ := hpub₂.added n ((mem_cons.mp hn).resolve_left hname) q hq₁
        refine ⟨q', hq', hadd.imp_right (And.imp_right ?_)⟩
        exact fun hadds ↦ hadds.mono (subset_append_right sent₁ sent₂)

/-! ## Other operations -/

namespace Sound

theorem connect (h : b.Sound) : b.connect.2.Sound := by
  refine h.same rfl rfl fun name group hgr c hc ↦ ?_
  change update b.connections b.nextConn _ c.connId ≠ none
  rw [update_apply]
  split_ifs
  · exact some_ne_none _
  · exact h.attended name group hgr c hc

theorem disconnect (h : b.Sound) (connId : ℕ) : (b.disconnect connId).Sound := by
  refine h.same rfl rfl fun name group hgr c hc ↦ ?_
  obtain ⟨old, hold, hgr⟩ := bind_eq_some_iff.mp hgr
  change (if _ then none else some _) = some group at hgr
  split_ifs at hgr
  cases hgr
  obtain ⟨hmem, hoth⟩ := mem_filter.mp hc
  change update b.connections connId none c.connId ≠ none
  rw [update_of_ne (bne_iff_ne.mp hoth)]
  exact h.attended name old hold c hmem

variable {sent : List Delivery} {channel : UInt16} {connId : ℕ}

theorem basicGet (h : b.Sound) (hconn : b.connections connId ≠ none) {noAck : Bool} {reply : Reply}
    (hget : b.basicGet connId channel name noAck = some (reply, b', sent)) : b'.Sound := by
  obtain ⟨b₁, hgrw, hcons, hcs⟩ := basicGet_cases h.linked hget
  have hsnd : b₁.Sound := h.grown hgrw (h.attended.congr hcons)
  obtain ⟨rfl, -⟩ | ⟨id, q, e, ready, tag, b₂, hid, hq, hrdy, htag, rfl, -⟩ := hcs
  · exact hsnd
  obtain ⟨enqueued, acked, htr⟩ := hsnd.tracks name q ((queue_eq hid).trans hq)
  obtain ⟨tag', b₂', htag', hsnd₂, -⟩ := hsnd.handOver hid
    ⟨_, _, htr.dequeue⟩ (hgrw.connections ▸ hconn) channel noAck e.seq
  cases htag'.symm.trans htag
  exact hsnd₂

theorem basicAck (h : b.Sound) (connId : ℕ) (channel : UInt16) (tag : ℕ) :
    (b.basicAck connId channel tag).Sound := by
  rw [Broker.basicAck]
  rcases b.inflight (connId, channel, tag) with _ | ⟨name, seq⟩
  · exact h
  have hsnd : Sound { b with inflight := update b.inflight (connId, channel, tag) none } :=
    h.same rfl rfl h.attended
  dsimp only
  split
  · rename_i id q hid hq
    obtain ⟨enqueued, acked, htr⟩ := h.tracks name q hq
    exact hsnd.setQueue hid (htr.ack seq)
  · exact hsnd

theorem handleMethod (h : b.Sound) (hconn : b.connections connId ≠ none) {m : Method}
    {reply : Except ProtocolError (List Reply)}
    (hmeth : b.handleMethod connId channel m = some (reply, b', sent)) : b'.Sound := by
  obtain ⟨name, noAck, r, -, hget⟩ | ⟨tag, multiple, -, rfl, -⟩ | ⟨-, ⟨name, hgrw⟩, hcs⟩ :=
    handleMethod_cases h.linked hmeth
  · exact h.basicGet hconn hget
  · exact h.basicAck connId channel tag
  refine h.grown hgrw ?_
  obtain ⟨-, hsame⟩ | ⟨_, _, _, n, c, rr, -, -, hcons, hc⟩ := hcs
  · exact h.attended.congr hsame
  refine h.attended.update (fun c' hc' ↦ ?_) hcons
  rcases mem_append.mp hc' with hold | hnew
  · rcases hgr : b.consumers n with _ | group
    · rw [hgr] at hold
      exact nomatch hold
    · rw [hgr] at hold
      exact h.attended _ group hgr c' hold
  · rwa [mem_singleton.mp hnew, hc]

end Sound

end Broker

/-! ## Runs -/

namespace AmqpRun

variable {s s' : AmqpRun}

/-- Methods come from connected clients. -/
def Connected (s : AmqpRun) : AmqpOp → Prop
  | .method connId _ _ => (s.broker.connections connId).isSome
  | _ => True

instance (s : AmqpRun) : (op : AmqpOp) → Decidable (s.Connected op)
  | .method .. => inferInstanceAs (Decidable (_ = true))
  | .connect | .disconnect _ | .publish .. => isTrue trivial

/-- A publish always returns, and does nothing if it is not routed. -/
theorem exists_publish (h : s.broker.Sound) (exchange routingKey : String) (body : Bytes)
    (times : List ℕ) : ∃ s', s.step (.publish exchange routingKey body times) = some s' ∧
      s'.broker.Sound ∧ ∀ names, s.broker.targets exchange routingKey = .ok names →
        Broker.Published names body s.broker s'.broker s'.sent := by
  rcases htgt : s.broker.targets exchange routingKey with e | names
  · refine ⟨⟨s.broker, s.unacked ++ awaiting [], []⟩, ?_, h, nofun⟩
    rw [step, Broker.publish, htgt]
    rfl
  obtain ⟨b', sent, hall, hpub⟩ := h.publishAll exchange routingKey body (nodup_targets htgt) times
  refine ⟨⟨b', s.unacked ++ awaiting sent, sent⟩, ?_, hpub.sound, ?_⟩
  · rw [step, Broker.publish, htgt]
    dsimp only
    rw [hall]
    rfl
  · rintro _ ⟨⟩
    exact hpub

theorem sound_step (h : s.broker.Sound) {op : AmqpOp} (hconn : s.Connected op)
    (hstep : s.step op = some s') : s'.broker.Sound := by
  rcases op with _ | connId | ⟨connId, channel, m⟩ | ⟨exchange, routingKey, body, times⟩
  · cases hstep
    exact h.connect
  · cases hstep
    exact h.disconnect connId
  · obtain ⟨⟨reply, b', sent⟩, hmeth, heq⟩ := bind_eq_some_iff.mp hstep
    cases heq
    exact h.handleMethod (isSome_iff_ne_none.mp hconn) hmeth
  · obtain ⟨s₁, hpub, hsnd, -⟩ := exists_publish h exchange routingKey body times
    cases hpub.symm.trans hstep
    exact hsnd

/-- **Storable payloads.** A payload can be enqueued and dequeued, can be set and read, and is added
by a publish to each routed queue there is, exactly if it is not empty. -/
theorem stored_iff (payload : Bytes) :
    (∀ (q : Queue) wal now, q.Stores wal payload now ↔ payload ≠ []) ∧
    (∀ (m : Map) wal key now later, key ≠ "" →
      (m.Stores wal key payload now later ↔ payload ≠ [])) ∧
    ∀ core ops s, Steps step Connected (start core) ops s → ∀ exchange routingKey times,
      ∃ s', s.step (.publish exchange routingKey payload times) = some s' ∧
        ∀ names, s.broker.targets exchange routingKey = .ok names → ∀ name ∈ names, ∀ q,
          s.broker.queue name = some q →
          ((∃ q', s'.broker.queue name = some q' ∧ Broker.Adds name payload q q' s'.sent) ↔
            payload ≠ []) := by
  refine ⟨fun q wal now ↦ Queue.stores_iff, fun m wal key now later ↦ Map.stores_iff, ?_⟩
  intro core ops s hrun exchange routingKey times
  have hsound := hrun.invariant (fun s ↦ s.broker.Sound)
    (fun _ _ _ h hconn hstep ↦ sound_step h hconn hstep) ⟨Broker.linked_new core, nofun, nofun⟩
  obtain ⟨s', hpublish, -, hpub⟩ := exists_publish hsound exchange routingKey payload times
  refine ⟨s', hpublish, fun names htargets name hname q hq ↦ ?_⟩
  obtain ⟨q', hq', ⟨hnil, rfl⟩ | ⟨hne, hadds⟩⟩ := (hpub names htargets).added name hname q hq
  · -- the queue has not counted on
    refine ⟨fun ⟨q₁, hq₁, hadds⟩ ↦ ?_, fun hne ↦ absurd hnil hne⟩
    cases hq'.symm.trans hq₁
    exact absurd hadds.seq (Nat.ne_of_lt (Nat.lt_succ_self _))
  · exact ⟨fun _ ↦ hne, fun _ ↦ ⟨q', hq', hadds⟩⟩

theorem stored_iff_one_byte :
    let ops : List AmqpOp :=
      [.connect, .method 1 1 (.queueDeclare "q"), .method 1 1 (.basicConsume "q" "c" true)]
    ∃ s s', Steps step Connected (start (.withObjectStore .empty)) ops s ∧
      s.step (.publish "" "q" [7] [0]) = some s' ∧
      ∃ q', s'.broker.queue "q" = some q' ∧
        Broker.Adds "q" [7] ⟨"q", Broker.tenantId, [], [], 0⟩ q' s'.sent := by
  intro ops
  have hrun : Steps step Connected (start (.withObjectStore .empty)) ops _ :=
    steps_exec (by decide +kernel)
  obtain ⟨s', hpublish, hadded⟩ := (stored_iff [7]).2.2 _ _ _ hrun "" "q" [0]
  exact ⟨_, s', hrun, hpublish, (hadded ["q"] rfl "q" mem_cons_self _ (by decide +kernel)).mpr
    (cons_ne_nil 7 [])⟩

/-- **The empty payload.** The queue and the map refuse it, and a publish of it succeeds and adds
nothing. -/
theorem empty_not_stored :
    (Queue.enqueue ⟨"q", Broker.tenantId, [], [], 0⟩ (SynapseCore.withObjectStore .empty).wal
      [] 0).1 = .error (.invalidArgument "empty payload") ∧
    (Map.set ⟨"m", Broker.tenantId, []⟩ (SynapseCore.withObjectStore .empty).wal "k" [] none
      0).1 = .error (.invalidArgument "empty payload") ∧
    ∃ s, Steps step Connected (start (.withObjectStore .empty))
        [.connect, .method 1 1 (.queueDeclare "q")] s ∧
      s.broker.targets "" "q" = .ok ["q"] ∧
      s.broker.queue "q" = some ⟨"q", Broker.tenantId, [], [], 0⟩ ∧
      ∃ b', s.broker.publish "" "q" [] [0] = some (.ok (), b', []) ∧
        b'.queue "q" = some ⟨"q", Broker.tenantId, [], [], 0⟩ := by
  refine ⟨rfl, rfl, exists_steps_of_isSome rfl fun _ ↦ ?_⟩
  exact ⟨rfl, rfl, _, rfl, rfl⟩

end AmqpRun

end Amqp

end Synapse
