import Synapse.Lib.Run
import Synapse.Amqp.Tags

/-!
# Delivery tags

A run of the broker keeps, besides the broker, the deliveries whose tags have not been acknowledged.
`Identity` says what acknowledging by tag ought to mean: the message that is removed from those in
flight is the one whose body went out under the tag.

A publish enters the number of the message it has just enqueued, while it hands out the head of the
queue. With messages waiting these are two different ones (`backlog_acks_wrong`).
`identity_of_prompt` shows that nothing else goes wrong.
-/

namespace Synapse.Amqp

open Transition List Option

/-! ## Runs -/

inductive AmqpOp
  | connect
  | disconnect (connId : ℕ)
  | method (connId : ℕ) (channel : UInt16) (m : Method)
  | publish (exchange routingKey : String) (body : Bytes) (times : List ℕ)
deriving DecidableEq, Repr

structure AmqpRun where
  broker : Broker
  /-- The deliveries whose tags can still be acknowledged. -/
  unacked : List Delivery
  /-- The deliveries of the last operation. -/
  sent : List Delivery

namespace AmqpRun

def start (core : SynapseCore) : AmqpRun := ⟨.new core, [], []⟩

def acknowledges (connId : ℕ) (channel : UInt16) (m : Method) (d : Delivery) : Bool :=
  match m with
  | .basicAck tag _ => d.key = (connId, channel, tag)
  | _ => false

/-- One operation of any client; undefined where the broker panics. -/
def step (s : AmqpRun) : AmqpOp → Option AmqpRun
  | .connect => some { s with broker := s.broker.connect.2, sent := [] }
  | .disconnect connId =>
    some ⟨s.broker.disconnect connId, s.unacked.filter (·.connId != connId), []⟩
  | .method connId channel m => do
    let (_, broker, sent) ← s.broker.handleMethod connId channel m
    some ⟨broker, s.unacked.filter (!acknowledges connId channel m ·) ++ awaiting sent, sent⟩
  | .publish exchange routingKey body times => do
    let (_, broker, sent) ← s.broker.publish exchange routingKey body times
    some ⟨broker, s.unacked ++ awaiting sent, sent⟩

/-- A publish finds no message waiting in a queue that has consumers. -/
def Prompt (s : AmqpRun) : AmqpOp → Prop
  | .publish exchange routingKey _ _ =>
    ∀ name ∈ (s.broker.targets exchange routingKey).toOption.getD [],
      s.broker.hasConsumer name → s.broker.readyOf name = []
  | _ => True

instance (s : AmqpRun) (op : AmqpOp) : Decidable (s.Prompt op) := by
  cases op <;> dsimp only [Prompt] <;> infer_instance

/-- **Tags stand for the messages delivered under them.** -/
structure Identity (s : AmqpRun) (op : AmqpOp) (s' : AmqpRun) : Prop where
  /-- Acknowledging a tag removes the message delivered under it and no other. -/
  acked : ∀ connId channel tag multiple, op = .method connId channel (.basicAck tag multiple) →
    ∀ d ∈ s.unacked, d.key = (connId, channel, tag) → ∀ name, (s.broker.inflightOf name).Perm
      ((if name = d.queue then [d.entry] else []) ++ s'.broker.inflightOf name)
  /-- Acknowledging anything else removes nothing. -/
  stray : ∀ connId channel tag multiple, op = .method connId channel (.basicAck tag multiple) →
    (∀ d ∈ s.unacked, d.key ≠ (connId, channel, tag)) →
    ∀ name, s'.broker.inflightOf name = s.broker.inflightOf name
  /-- A message delivered under `no_ack` is not in flight. -/
  autoAcked : ∀ d ∈ s'.sent, d.noAck → d.entry ∉ s'.broker.inflightOf d.queue
  /-- A delivery removes no message that was in flight before. -/
  kept : s'.sent ≠ [] → ∀ name, ∀ e ∈ s.broker.inflightOf name, e ∈ s'.broker.inflightOf name

end AmqpRun

/-! ## Steps and runs -/

namespace AmqpRun

variable {s s' : AmqpRun}

def Inv (s : AmqpRun) : Prop := s.broker.Inv s.unacked

variable {op : AmqpOp} {routingKey exchange : String} {names : List String} {channel : UInt16}
  {connId : ℕ} {m : Method} {times : List ℕ} {body : Bytes}

theorem identity_of_silent (hsent : s'.sent = [])
    (hop : ∀ connId channel tag multiple, op ≠ .method connId channel (.basicAck tag multiple)) :
    s.Identity op s' where
  acked connId channel tag multiple heq := absurd heq (hop connId channel tag multiple)
  stray connId channel tag multiple heq := absurd heq (hop connId channel tag multiple)
  autoAcked d hd := by
    rw [hsent] at hd
    exact nomatch hd
  kept hne := absurd hsent hne

/-- A step that moves messages and acknowledges nothing. -/
theorem identity_of_moves {new : List (String × QueueEntry)}
    (hmv : Broker.Moves names new s.broker s'.broker s'.sent)
    (hop : ∀ connId channel tag multiple, op ≠ .method connId channel (.basicAck tag multiple)) :
    s.Identity op s' where
  acked connId channel tag multiple heq := absurd heq (hop connId channel tag multiple)
  stray connId channel tag multiple heq := absurd heq (hop connId channel tag multiple)
  autoAcked := hmv.autoAcked
  kept _ := hmv.kept

theorem nodup_targets {b : Broker} (h : b.targets exchange routingKey = .ok names) :
    names.Nodup := by
  rw [Broker.targets] at h
  split_ifs at h
  · obtain rfl := Except.ok.inj h
    exact nodup_singleton routingKey
  rw [GraphRouter.route] at h
  split at h
  · cases h
  · obtain rfl := Except.ok.inj h
    exact GraphRouter.nodup_targets _ _ _

theorem inv_ack (h : s.Inv) (connId : ℕ) (channel : UInt16) (tag : ℕ) (multiple : Bool) :
    Inv ⟨s.broker.basicAck connId channel tag,
      s.unacked.filter (!acknowledges connId channel (.basicAck tag multiple) ·), []⟩ ∧
    s.Identity (.method connId channel (.basicAck tag multiple))
      ⟨s.broker.basicAck connId channel tag,
        s.unacked.filter (!acknowledges connId channel (.basicAck tag multiple) ·), []⟩ := by
  by_cases hmem : ∃ d ∈ s.unacked, d.key = (connId, channel, tag)
  · obtain ⟨d, hd, hkey⟩ := hmem
    obtain ⟨rfl, hrest⟩ := Prod.mk.inj hkey
    obtain ⟨rfl, rfl⟩ := Prod.mk.inj hrest
    obtain ⟨hinv, hperm⟩ := Broker.Inv.basicAck h hd
    refine ⟨hinv, ⟨?_, ?_, nofun, fun hne ↦ absurd rfl hne⟩⟩
    · rintro c ch t m heq d' hd' hkey'
      cases heq
      rwa [inj_on_of_nodup_map h.keys hd' hd hkey']
    · rintro c ch t m heq hstry
      cases heq
      exact absurd rfl (hstry d hd)
  · have hstry : ∀ d ∈ s.unacked, d.key ≠ (connId, channel, tag) :=
      fun d hd hkey ↦ hmem ⟨d, hd, hkey⟩
    have hall : s.unacked.filter (!acknowledges connId channel (.basicAck tag multiple) ·) =
        s.unacked := by
      rw [filter_eq_self]
      intro d hd
      simpa [acknowledges] using hstry d hd
    rw [hall, Broker.Inv.basicAck_of_stray h hstry]
    refine ⟨h, ⟨?_, fun _ _ _ _ _ _ _ ↦ rfl, nofun, fun hne ↦ absurd rfl hne⟩⟩
    rintro c ch t m heq d hd hkey
    cases heq
    exact absurd hkey (hstry d hd)

theorem step_method (hstep : s.step (.method connId channel m) = some s') :
    (∃ tag multiple, m = .basicAck tag multiple ∧ s' = ⟨s.broker.basicAck connId channel tag,
      s.unacked.filter (!acknowledges connId channel m ·), []⟩) ∨
    (∀ tag multiple, m ≠ .basicAck tag multiple) ∧ s'.unacked = s.unacked ++ awaiting s'.sent ∧
      ∃ reply, s.broker.handleMethod connId channel m = some (reply, s'.broker, s'.sent) := by
  simp only [step, bind_eq_bind, bind_eq_some_iff, some.injEq] at hstep
  obtain ⟨⟨reply, broker, sent⟩, hmeth, rfl⟩ := hstep
  by_cases hack : ∃ tag multiple, m = .basicAck tag multiple
  · obtain ⟨tag, multiple, rfl⟩ := hack
    obtain ⟨-, rfl, rfl⟩ := hmeth
    rw [awaiting, filter_nil, append_nil]
    exact .inl ⟨tag, multiple, rfl, rfl⟩
  · have hall : s.unacked.filter (!acknowledges connId channel m ·) = s.unacked := by
      rw [filter_eq_self]
      intro d _
      cases m with
      | basicAck tag multiple => exact absurd ⟨tag, multiple, rfl⟩ hack
      | _ => rfl
    rw [hall]
    exact .inr ⟨fun tag multiple heq ↦ hack ⟨tag, multiple, heq⟩, rfl, reply, hmeth⟩

theorem step_publish (hstep : s.step (.publish exchange routingKey body times) = some s') :
    (s.broker.targets exchange routingKey).toOption = none ∧ s' = { s with sent := [] } ∨
    ∃ names, s.broker.targets exchange routingKey = .ok names ∧
      s.broker.publishAll exchange routingKey body names times = some (s'.broker, s'.sent) ∧
      s'.unacked = s.unacked ++ awaiting s'.sent := by
  simp only [step, bind_eq_bind, bind_eq_some_iff, some.injEq] at hstep
  obtain ⟨⟨result, broker, sent⟩, hpub, rfl⟩ := hstep
  rw [Broker.publish] at hpub
  cases htgt : s.broker.targets exchange routingKey with
  | error e =>
    rw [htgt] at hpub
    obtain ⟨-, rfl, rfl⟩ := hpub
    rw [awaiting, filter_nil, append_nil]
    exact .inl ⟨rfl, rfl⟩
  | ok names =>
    rw [htgt] at hpub
    simp only [bind_eq_bind, bind_eq_some_iff, some.injEq] at hpub
    obtain ⟨⟨b', sent'⟩, hall, -, rfl, rfl⟩ := hpub
    exact .inr ⟨names, rfl, hall, rfl⟩

theorem inv_method (h : s.Inv) (hstep : s.step (.method connId channel m) = some s') :
    s'.Inv ∧ s.Identity (.method connId channel m) s' := by
  obtain ⟨tag, multiple, rfl, rfl⟩ | ⟨hack, hunack, reply, hmeth⟩ := step_method hstep
  · exact inv_ack h connId channel tag multiple
  have hop : ∀ c ch tag multiple,
      AmqpOp.method connId channel m ≠ .method c ch (.basicAck tag multiple) :=
    fun c ch tag multiple heq ↦ hack tag multiple (AmqpOp.method.inj heq).2.2
  rw [Inv, hunack]
  obtain ⟨hinv, names, hmv⟩ := Broker.Inv.handleMethod h hack hmeth
  exact ⟨hinv, identity_of_moves hmv hop⟩

theorem inv_publish (h : s.Inv) (hprm : s.Prompt (.publish exchange routingKey body times))
    (hstep : s.step (.publish exchange routingKey body times) = some s') :
    s'.Inv ∧ s.Identity (.publish exchange routingKey body times) s' := by
  rw [Prompt] at hprm
  obtain ⟨-, rfl⟩ | ⟨names, htgt, hall, hunack⟩ := step_publish hstep
  · exact ⟨h, identity_of_silent rfl nofun⟩
  · rw [htgt] at hprm
    obtain ⟨hinv, -, -, new, hmv, -⟩ := Broker.Inv.publishAll h (nodup_targets htgt) hprm hall
    rw [Inv, hunack]
    exact ⟨hinv, identity_of_moves hmv nofun⟩

theorem inv_step (h : s.Inv) (hprm : s.Prompt op) (hstep : s.step op = some s') :
    s'.Inv ∧ s.Identity op s' := by
  cases op with
  | connect =>
    cases hstep
    exact ⟨Broker.Inv.connect h, identity_of_silent rfl nofun⟩
  | disconnect connId =>
    cases hstep
    exact ⟨Broker.Inv.disconnect h connId, identity_of_silent rfl nofun⟩
  | method connId channel m => exact inv_method h hstep
  | publish exchange routingKey body times => exact inv_publish h hprm hstep

/-- **Delivery tags.** In a run in which no publish finds messages waiting in a queue that has
consumers, every operation treats the tags as the messages delivered under them. -/
theorem identity_of_prompt (core : SynapseCore) {ops : List AmqpOp} {s s' : AmqpRun}
    (hrun : Steps step Prompt (start core) ops s) {op : AmqpOp} (hprompt : s.Prompt op)
    (hstep : s.step op = some s') : s.Identity op s' := by
  have hinv := hrun.invariant Inv (fun _ _ _ h hprm hstep ↦ (inv_step h hprm hstep).1)
    (Broker.inv_new core)
  exact (inv_step hinv hprompt hstep).2

/-- Two consumers, a `basic.get` and an acknowledgement, with nothing waiting when consumers are
served. -/
theorem identity_of_prompt_get : ∃ s s', Steps step Prompt (start (.withObjectStore .empty))
        [.connect, .method 1 1 (.basicConsume "q" "a" false),
          .method 1 2 (.basicConsume "q" "b" true), .publish "" "q" [1] [0],
          .publish "" "q" [2] [0], .publish "" "p" [3] [0],
          .method 1 1 (.basicGet "p" false)] s ∧
      s.step (.method 1 1 (.basicAck 1 false)) = some s' ∧
      s.broker.inflightOf "q" = [⟨0, [1]⟩] ∧ s.broker.inflightOf "p" = [⟨0, [3]⟩] ∧
      s.Identity (.method 1 1 (.basicAck 1 false)) s' := by
  refine ⟨_, _, steps_exec (by decide +kernel), (some_get (by decide +kernel)).symm,
    by decide +kernel, by decide +kernel, ?_⟩
  exact identity_of_prompt _ (steps_exec _) trivial (some_get _).symm

/-- **The tag table.** In such a run the table lists exactly the deliveries that can still be
acknowledged, each with a tag and a message of its own. -/
theorem tagTable_of_prompt (core : SynapseCore) {ops : List AmqpOp} {s : AmqpRun}
    (hrun : Steps step Prompt (start core) ops s) :
    (∀ key p, s.broker.inflight key = some p ↔ ∃ d ∈ s.unacked, d.key = key ∧ d.place = p) ∧
      (s.unacked.map Delivery.key).Nodup ∧ (s.unacked.map Delivery.place).Nodup ∧
      ∀ d ∈ s.unacked, d.entry ∈ s.broker.inflightOf d.queue ∧
        ∃ tags, s.broker.connections d.connId = some tags ∧
          d.msg.deliveryTag ≤ tags d.msg.channel := by
  have hinv := hrun.invariant Inv (fun _ _ _ h hprm hstep ↦ (inv_step h hprm hstep).1)
    (Broker.inv_new core)
  refine ⟨fun key p ↦ ⟨fun hp ↦ ?_, ?_⟩, hinv.keys, hinv.places,
    fun d hd ↦ ⟨hinv.held d hd, hinv.numbered d hd⟩⟩
  · obtain ⟨d, hd, rfl⟩ := hinv.listed key p hp
    exact ⟨d, hd, rfl, some.inj ((hinv.entered d hd).symm.trans hp)⟩
  · rintro ⟨d, hd, rfl, rfl⟩
    exact hinv.entered d hd

theorem tagTable_of_prompt_two : ∃ s, Steps step Prompt (start (.withObjectStore .empty))
        [.connect, .method 1 1 (.basicConsume "q" "a" false), .publish "" "q" [1] [0],
          .publish "" "q" [2] [0], .method 1 1 (.basicAck 1 false)] s ∧
      s.unacked.map Delivery.key = [(1, 1, 2)] ∧ (s.unacked.map Delivery.key).Nodup :=
  exists_steps_of_isSome (by decide +kernel) fun hrun ↦
    ⟨by decide +kernel, (tagTable_of_prompt _ hrun).2.1⟩

/-- **With messages waiting.** A publish delivers the body of the message before. Acknowledging the
tag leaves that in flight, and so does a delivery under `no_ack`. -/
theorem backlog_acks_wrong : (∃ s s', Steps step (fun _ _ ↦ True) (start (.withObjectStore .empty))
        [.connect, .publish "" "q" [1] [0], .method 1 1 (.basicConsume "q" "c" false),
          .publish "" "q" [2] [0]] s ∧
      s.unacked = [⟨1, ⟨1, "c", 1, "", "q", [1]⟩, false, "q", 0⟩] ∧
      s.step (.method 1 1 (.basicAck 1 false)) = some s' ∧
      s.broker.inflightOf "q" = [⟨0, [1]⟩] ∧ s'.broker.inflightOf "q" = [⟨0, [1]⟩] ∧
      ¬s.Identity (.method 1 1 (.basicAck 1 false)) s') ∧
    ∃ s s', Steps step (fun _ _ ↦ True) (start (.withObjectStore .empty))
        [.connect, .publish "" "q" [1] [0], .method 1 1 (.basicConsume "q" "c" true)] s ∧
      s.step (.publish "" "q" [2] [0]) = some s' ∧
      s'.sent = [⟨1, ⟨1, "c", 1, "", "q", [1]⟩, true, "q", 0⟩] ∧
      s'.broker.inflightOf "q" = [⟨0, [1]⟩] ∧ ¬s.Identity (.publish "" "q" [2] [0]) s' := by
  constructor
  · refine ⟨_, _, steps_exec (by decide +kernel), by decide +kernel,
      (some_get (by decide +kernel)).symm, by decide +kernel, by decide +kernel,
      fun hid ↦ ?_⟩
    have hperm := hid.acked 1 1 1 false rfl ⟨1, ⟨1, "c", 1, "", "q", [1]⟩, false, "q", 0⟩
      (by decide +kernel) rfl "q"
    exact absurd hperm.length_eq (by decide +kernel)
  · refine ⟨_, _, steps_exec (by decide +kernel), (some_get (by decide +kernel)).symm,
      by decide +kernel, by decide +kernel, fun hid ↦ ?_⟩
    exact hid.autoAcked ⟨1, ⟨1, "c", 1, "", "q", [1]⟩, true, "q", 0⟩ (by decide +kernel) rfl
      (by decide +kernel)

end AmqpRun

end Synapse.Amqp
