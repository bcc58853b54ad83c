import Synapse.Amqp.Delivery

/-!
# Where the messages are

A run of the broker with its history: the messages that were accepted into a queue, and those that
were acknowledged. `Kept` asks that each accepted message is still somewhere a client can get at it,
unless it has been acknowledged.

There are two records of a delivery, the table of tags and the messages in flight in the queue.
When a connection ends the broker clears the table and leaves the queue as it is, and a publish that
finds messages waiting enters the number of another message than the one it hands out; either way a
message remains in flight and no tag stands for it (`stranded`). `kept_of_careful` shows that there
is no third way.
-/

namespace Synapse.Amqp

open Transition List

/-- A run of the broker, with the messages its queues accepted and those that were acknowledged. -/
structure Custody where
  run : AmqpRun
  accepted : List (String × QueueEntry)
  settled : List (String × QueueEntry)

namespace Custody

def start (core : SynapseCore) : Custody := ⟨.start core, [], []⟩

/-- The messages an operation puts into queues: a publish adds its body to each routed queue whose
count goes up. -/
def acceptedBy (s s' : AmqpRun) : AmqpOp → List (String × QueueEntry)
  | .publish exchange routingKey body _ =>
    (((s.broker.targets exchange routingKey).toOption.getD []).filter fun name ↦
      s.broker.seqOf name < s'.broker.seqOf name).map fun name ↦ (name, ⟨s.broker.seqOf name, body⟩)
  | _ => []

/-- The messages in flight under the number that a client acknowledges. -/
def ackedBy (s : AmqpRun) : AmqpOp → List (String × QueueEntry)
  | .method connId channel (.basicAck tag _) =>
    match s.broker.inflight (connId, channel, tag) with
    | some (name, seq) => ((s.broker.inflightOf name).filter (·.seq = seq)).map (name, ·)
    | none => []
  | _ => []

/-- The messages delivered under `no_ack` that the queue has given up. -/
def autoAcked (s' : AmqpRun) : List (String × QueueEntry) :=
  (s'.sent.filter fun d ↦ d.noAck && !decide (d.entry ∈ s'.broker.inflightOf d.queue)).map
    fun d ↦ (d.queue, d.entry)

def step (c : Custody) (op : AmqpOp) : Option Custody := do
  let s' ← c.run.step op
  some ⟨s', c.accepted ++ acceptedBy c.run s' op, c.settled ++ (ackedBy c.run op ++ autoAcked s')⟩

/-- The message is in flight under a tag of a live connection. -/
def Held (c : Custody) (name : String) (e : QueueEntry) : Prop :=
  e ∈ c.run.broker.inflightOf name ∧ ∃ key tags, c.run.broker.inflight key = some (name, e.seq) ∧
    c.run.broker.connections key.1 = some tags

/-- **No message is stranded**: each is ready, in flight under a tag, or acknowledged. -/
def Kept (c : Custody) : Prop :=
  ∀ name e, (name, e) ∈ c.accepted →
    e ∈ c.run.broker.readyOf name ∨ c.Held name e ∨ (name, e) ∈ c.settled

/-- No connection ends while deliveries to it are unacknowledged. -/
def Clears (s : AmqpRun) : AmqpOp → Prop
  | .disconnect connId => ∀ d ∈ s.unacked, d.connId ≠ connId
  | _ => True

/-- Besides, no publish finds messages waiting in a queue that has consumers. -/
def Careful (c : Custody) (op : AmqpOp) : Prop := c.run.Prompt op ∧ Clears c.run op

instance (s : AmqpRun) : (op : AmqpOp) → Decidable (Clears s op)
  | .disconnect _ => inferInstanceAs (Decidable (∀ d ∈ s.unacked, _))
  | .connect | .method .. | .publish .. => isTrue trivial

instance (c : Custody) (op : AmqpOp) : Decidable (c.Careful op) :=
  inferInstanceAs (Decidable (_ ∧ _))

/-! ## Steps -/

/-- The two records of the deliveries agree, and every message is accounted for. -/
structure Inv (c : Custody) : Prop where
  run : c.run.Inv
  complete : ∀ name, ∀ e ∈ c.run.broker.inflightOf name,
    ∃ d ∈ c.run.unacked, d.queue = name ∧ d.entry = e
  accounted : ∀ ⦃name e⦄, (name, e) ∈ c.accepted → e ∈ c.run.broker.readyOf name ∨
    e ∈ c.run.broker.inflightOf name ∨ (name, e) ∈ c.settled

variable {c c' : Custody} {s' : AmqpRun}

theorem Inv.kept (h : c.Inv) : c.Kept := by
  intro name e he
  refine (h.accounted he).imp_right (Or.imp_left fun hmem ↦ ⟨hmem, ?_⟩)
  obtain ⟨d, hd, rfl, rfl⟩ := h.complete name e hmem
  obtain ⟨tags, htags, -⟩ := h.run.numbered d hd
  exact ⟨d.key, tags, h.run.entered d hd, htags⟩

theorem Inv.still (h : c.Inv) (hrun : s'.Inv)
    (hrdy : ∀ name, s'.broker.readyOf name = c.run.broker.readyOf name)
    (hinf : ∀ name, s'.broker.inflightOf name = c.run.broker.inflightOf name)
    (hunack : ∀ d ∈ c.run.unacked, d ∈ s'.unacked) : Inv ⟨s', c.accepted, c.settled⟩ where
  run := hrun
  complete name e he := by
    obtain ⟨d, hd, heq⟩ := h.complete name e (hinf name ▸ he)
    exact ⟨d, hunack d hd, heq⟩
  accounted name e he := by
    rw [hrdy, hinf]
    exact h.accounted he

/-- New messages and deliveries: what is delivered is in flight under its tag, or acknowledged. -/
theorem Inv.moves (h : c.Inv) (hrun : s'.Inv) {names : List String}
    {new accepted : List (String × QueueEntry)}
    (hunack : s'.unacked = c.run.unacked ++ awaiting s'.sent)
    (hmv : Broker.Moves names new c.run.broker s'.broker s'.sent) (hacc : accepted ⊆ new) :
    Inv ⟨s', c.accepted ++ accepted, c.settled ++ autoAcked s'⟩ := by
  have hsent : ∀ name e, (∃ d ∈ s'.sent, d.queue = name ∧ d.entry = e) →
      e ∈ s'.broker.inflightOf name ∨ (name, e) ∈ c.settled ++ autoAcked s' := by
    rintro name e ⟨d, hd, rfl, rfl⟩
    by_cases hno : d.noAck
    · refine .inr (mem_append_right _ (mem_map.mpr ⟨d, ?_, rfl⟩))
      simpa [hno, hd] using hmv.autoAcked d hd hno
    · refine .inl (hrun.held d ?_)
      rw [hunack]
      exact mem_append_right _ (mem_filter.mpr ⟨hd, by simpa using hno⟩)
  refine ⟨hrun, ?_, ?_⟩
  · intro name e he
    rw [hunack]
    rcases hmv.listed name e he with hold | ⟨d, hd, heq⟩
    · obtain ⟨d, hd, heq⟩ := h.complete name e hold
      exact ⟨d, mem_append_left _ hd, heq⟩
    · exact ⟨d, mem_append_right _ hd, heq⟩
  · intro name e he
    have hwait : e ∈ c.run.broker.readyOf name ∨ (name, e) ∈ new →
        e ∈ s'.broker.readyOf name ∨ e ∈ s'.broker.inflightOf name ∨
          (name, e) ∈ c.settled ++ autoAcked s' :=
      fun hin ↦ (hmv.waiting name e hin).imp_right (hsent name e)
    rcases mem_append.mp he with hold | hnew
    · rcases h.accounted hold with hrdy | hinf | hset
      · exact hwait (.inl hrdy)
      · exact .inr (.inl (hmv.kept name e hinf))
      · exact .inr (.inr (mem_append_left _ hset))
    · exact hwait (.inr (hacc hnew))

theorem Inv.acked (h : c.Inv) (connId : ℕ) (channel : UInt16) (tag : ℕ) (multiple : Bool) :
    Inv ⟨⟨c.run.broker.basicAck connId channel tag, c.run.unacked.filter
        (!AmqpRun.acknowledges connId channel (.basicAck tag multiple) ·), []⟩, c.accepted,
      c.settled ++ ackedBy c.run (.method connId channel (.basicAck tag multiple))⟩ := by
  obtain ⟨hrun, hidentity⟩ := AmqpRun.inv_ack h.run connId channel tag multiple
  have hrdy := c.run.broker.readyOf_basicAck h.run connId channel tag
  by_cases hmem : ∃ d ∈ c.run.unacked, d.key = (connId, channel, tag)
  · obtain ⟨d, hd, hkey⟩ := hmem
    have hperm := hidentity.acked connId channel tag multiple rfl d hd hkey
    have hset : (d.queue, d.entry) ∈
        ackedBy c.run (.method connId channel (.basicAck tag multiple)) := by
      rw [ackedBy, ← hkey, h.run.entered d hd]
      exact mem_map.mpr ⟨d.entry, mem_filter.mpr ⟨h.run.held d hd, decide_eq_true rfl⟩, rfl⟩
    refine ⟨hrun, ?_, ?_⟩
    · intro name e he
      have hold : e ∈ c.run.broker.inflightOf name :=
        (hperm name).mem_iff.mpr (mem_append_right _ he)
      obtain ⟨d', hd', hq, hent⟩ := h.complete name e hold
      refine ⟨d', mem_filter.mpr ⟨hd', ?_⟩, hq, hent⟩
      -- the message acknowledged is not in flight any more
      rw [Bool.not_eq_true', AmqpRun.acknowledges, decide_eq_false_iff_not, ← hkey]
      intro hsame
      obtain rfl := inj_on_of_nodup_map h.run.keys hd' hd hsame
      have hnd := h.run.nodup_inflightOf name
      rw [(hperm name).nodup_iff, if_pos hq.symm, singleton_append, hent] at hnd
      exact (nodup_cons.mp hnd).1 he
    · intro name e he
      rw [hrdy]
      rcases h.accounted he with hrdy | hinf | hold
      · exact .inl hrdy
      · rcases mem_append.mp ((hperm name).mem_iff.mp hinf) with hthis | hoth
        · split_ifs at hthis with hname
          · rw [hname, mem_singleton.mp hthis]
            exact .inr (.inr (mem_append_right _ hset))
          · cases hthis
        · exact .inr (.inl hoth)
      · exact .inr (.inr (mem_append_left _ hold))
  · have hstry : ∀ d ∈ c.run.unacked, d.key ≠ (connId, channel, tag) :=
      fun d hd hkey ↦ hmem ⟨d, hd, hkey⟩
    have hnone : ackedBy c.run (.method connId channel (.basicAck tag multiple)) = [] := by
      rw [ackedBy]
      cases hp : c.run.broker.inflight (connId, channel, tag) with
      | none => rfl
      | some p =>
        obtain ⟨d, hd, hkey⟩ := h.run.listed _ p hp
        exact absurd hkey (hstry d hd)
    rw [hnone, append_nil]
    refine h.still hrun hrdy (hidentity.stray connId channel tag multiple rfl hstry) ?_
    intro d hd
    exact mem_filter.mpr ⟨hd, by simpa [AmqpRun.acknowledges] using hstry d hd⟩

theorem Inv.step (h : c.Inv) {op : AmqpOp} (hcare : c.Careful op)
    (hstep : c.step op = some c') : c'.Inv := by
  obtain ⟨s', hrun, heq⟩ := Option.bind_eq_some_iff.mp hstep
  cases heq
  obtain ⟨hprm, hclears⟩ := hcare
  obtain ⟨hinv, -⟩ := AmqpRun.inv_step h.run hprm hrun
  cases op with
  | connect =>
    cases hrun
    simpa [acceptedBy, ackedBy, autoAcked] using
      h.still hinv (fun _ ↦ rfl) (fun _ ↦ rfl) fun _ hd ↦ hd
  | disconnect connId =>
    cases hrun
    simpa [acceptedBy, ackedBy, autoAcked] using h.still hinv (fun _ ↦ rfl) (fun _ ↦ rfl)
        fun d hd ↦ mem_filter.mpr ⟨hd, bne_iff_ne.mpr (hclears d hd)⟩
  | method connId channel m =>
    obtain ⟨tag, multiple, rfl, rfl⟩ | ⟨hack, hunack, reply, hmeth⟩ := AmqpRun.step_method hrun
    · simpa [acceptedBy, autoAcked] using h.acked connId channel tag multiple
    have hnone : ackedBy c.run (.method connId channel m) = [] := by
      cases m with
      | basicAck tag multiple => exact absurd rfl (hack tag multiple)
      | _ => rfl
    rw [hnone, nil_append]
    obtain ⟨-, names, hmv⟩ := Broker.Inv.handleMethod h.run hack hmeth
    exact h.moves hinv hunack hmv (List.Subset.refl _)
  | publish exchange routingKey body times =>
    have hnone : ackedBy c.run (.publish exchange routingKey body times) = [] := rfl
    rw [hnone, nil_append]
    rw [AmqpRun.Prompt] at hprm
    obtain ⟨href, rfl⟩ | ⟨names, htgt, hall, hunack⟩ := AmqpRun.step_publish hrun
    · simpa [acceptedBy, autoAcked, href] using
        h.still hinv (fun _ ↦ rfl) (fun _ ↦ rfl) fun _ hd ↦ hd
    rw [htgt] at hprm
    obtain ⟨-, -, -, new, hmv, hnew⟩ :=
      Broker.Inv.publishAll h.run (AmqpRun.nodup_targets htgt) hprm hall
    refine h.moves hinv hunack hmv fun p hp ↦ ?_
    rw [acceptedBy, htgt] at hp
    obtain ⟨name, hname, rfl⟩ := mem_map.mp hp
    obtain ⟨hmem, hlt⟩ := mem_filter.mp hname
    exact hnew name hmem (of_decide_eq_true hlt)

/-! ## Runs -/

/-- **Custody.** If no connection ends with deliveries unacknowledged, and no publish finds messages
waiting beside a consumer, every message that was accepted is ready, in flight under a tag of a live
connection, or acknowledged. -/
theorem kept_of_careful (core : SynapseCore) {ops : List AmqpOp}
    (hrun : Steps step Careful (start core) ops c) : c.Kept := by
  have hinv := hrun.invariant Inv (fun _ _ _ h hcare hstep ↦ h.step hcare hstep)
    ⟨Broker.inv_new core, nofun, nofun⟩
  exact hinv.kept

/-- One message waits, one is in flight, one was acknowledged and one delivered under `no_ack`. -/
theorem kept_of_careful_ends : ∃ c, Steps step Careful (start (.withObjectStore .empty))
        [.connect, .connect, .publish "" "p" [1] [0], .publish "" "p" [2] [0],
          .publish "" "p" [3] [0], .method 1 1 (.basicGet "p" false),
          .method 1 1 (.basicAck 1 false), .disconnect 1, .method 2 1 (.basicGet "p" false),
          .method 2 1 (.basicConsume "q" "c" true), .publish "" "q" [4] [0]] c ∧
      c.accepted = [("p", ⟨0, [1]⟩), ("p", ⟨1, [2]⟩), ("p", ⟨2, [3]⟩), ("q", ⟨0, [4]⟩)] ∧
      c.run.broker.readyOf "p" = [⟨2, [3]⟩] ∧ c.run.broker.inflightOf "p" = [⟨1, [2]⟩] ∧
      c.settled = [("p", ⟨0, [1]⟩), ("q", ⟨0, [4]⟩)] ∧ c.Kept := by
  refine exists_steps_of_isSome (by decide +kernel) fun hrun ↦ ?_
  exact ⟨by decide +kernel, by decide +kernel, by decide +kernel, by decide +kernel,
    kept_of_careful _ hrun⟩

theorem not_kept {name : String} {e : QueueEntry} (hmem : (name, e) ∈ c.accepted)
    (hrdy : e ∉ c.run.broker.readyOf name)
    (htags : ∀ key, c.run.broker.inflight key ≠ some (name, e.seq))
    (hset : (name, e) ∉ c.settled) : ¬c.Kept := by
  intro hkept
  rcases hkept name e hmem with h | ⟨-, key, tags, hkey, -⟩ | h
  · exact hrdy h
  · exact htags key hkey
  · exact hset h

/-- **Stranded.** A client gets a message and goes away. Or a publish hands out a message that was
waiting, and the tag stands for the other one. -/
theorem stranded : (∃ c, Steps step (fun _ _ ↦ True) (start (.withObjectStore .empty))
        [.connect, .publish "" "q" [1] [0], .method 1 1 (.basicGet "q" false), .disconnect 1] c ∧
      c.accepted = [("q", ⟨0, [1]⟩)] ∧ c.settled = [] ∧ c.run.broker.readyOf "q" = [] ∧
      c.run.broker.inflightOf "q" = [⟨0, [1]⟩] ∧ (∀ key, c.run.broker.inflight key = none) ∧
      ¬c.Kept) ∧
    ∃ c, Steps step (fun _ _ ↦ True) (start (.withObjectStore .empty))
        [.connect, .publish "" "q" [1] [0], .method 1 1 (.basicConsume "q" "c" false),
          .publish "" "q" [2] [0]] c ∧
      c.accepted = [("q", ⟨0, [1]⟩), ("q", ⟨1, [2]⟩)] ∧ c.settled = [] ∧
      c.run.broker.readyOf "q" = [⟨1, [2]⟩] ∧ c.run.broker.inflightOf "q" = [⟨0, [1]⟩] ∧
      (∀ key, c.run.broker.inflight key = if key = (1, 1, 1) then some ("q", 1) else none) ∧
      ¬c.Kept := by
  constructor
  · refine exists_steps_of_isSome rfl fun hrun ↦ ?_
    have htags : ∀ key : TagKey, (if key.1 = 1 then none else
        Function.update (fun _ ↦ none) (1, 1, 1) (some ("q", 0)) key) = none := by
      intro key
      split_ifs with hconn
      · rfl
      · exact Function.update_of_ne (fun heq ↦ hconn (congrArg Prod.fst heq)) ..
    refine ⟨rfl, rfl, rfl, rfl, htags,
      not_kept (e := ⟨0, [1]⟩) mem_cons_self not_mem_nil (fun key hkey ↦ ?_) not_mem_nil⟩
    cases (htags key).symm.trans hkey
  · refine exists_steps_of_isSome rfl fun hrun ↦ ?_
    have htags : ∀ key : TagKey, Function.update (fun _ ↦ none) (1, 1, 1) (some ("q", 1)) key =
        if key = (1, 1, 1) then some ("q", 1) else none := Function.update_apply _ _ _
    refine ⟨rfl, rfl, rfl, rfl, htags,
      not_kept (e := ⟨0, [1]⟩) mem_cons_self (by decide) (fun key hkey ↦ ?_) not_mem_nil⟩
    have hother := (htags key).symm.trans hkey
    split_ifs at hother
    exact absurd hother (by decide)

end Custody

end Synapse.Amqp
