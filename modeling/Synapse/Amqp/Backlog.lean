import Synapse.Amqp.Storable

/-!
# Messages waiting beside a consumer

Only a publish delivers to consumers, one message for the one it enqueues; `basic.consume` registers
the consumer and leaves the queue as it is. `drained_iff` says when no message waits in a queue that
has a consumer: as long as every consumer comes to a queue in which nothing waits. Otherwise the
backlog stays, and `undrained` shows that later publishes do not reduce it.
-/

namespace Synapse.Amqp

open Transition List Function Option

namespace Broker

variable {b b' : Broker} {name : String} {sent : List Delivery}

/-- Nothing waits in a queue that has a consumer. -/
def Drained (b : Broker) : Prop := ∀ name, b.hasConsumer name → b.readyOf name = []

theorem Drained.grown (h : b.Drained) (hgrw : Grown name b b')
    (hcons : ∀ n, b'.hasConsumer n = b.hasConsumer n) : b'.Drained := by
  intro n hn
  rw [(hgrw.unmoved n).1]
  exact h n ((hcons n).symm.trans hn)

theorem Drained.moves (h : b.Drained) {names : List String} {new : List (String × QueueEntry)}
    (hmv : Moves names new b b' sent) (hcons : ∀ n, b'.hasConsumer n = b.hasConsumer n)
    (hnil : ∀ n ∈ names, b'.hasConsumer n → b'.readyOf n = []) : b'.Drained := by
  intro n hn
  by_cases hmem : n ∈ names
  · exact hnil n hmem hn
  · rw [readyOf, hmv.frame n hmem]
    exact h n ((hcons n).symm.trans hn)

theorem Sound.hasConsumer_iff (h : b.Sound) (name : String) : b.hasConsumer name ↔
    ∃ group ∈ b.consumers name, ∃ c ∈ group.consumers, (b.connections c.connId).isSome := by
  rw [hasConsumer]
  cases hgroup : b.consumers name with
  | none => simp
  | some group =>
    constructor
    · intro hne
      obtain ⟨c, hc⟩ := exists_mem_of_ne_nil group.consumers (by simpa using hne)
      exact ⟨group, rfl, c, hc, isSome_iff_ne_none.mpr (h.attended name group hgroup c hc)⟩
    · rintro ⟨_, ⟨⟩, c, hc, -⟩
      simpa using ne_nil_of_mem hc

end Broker

namespace AmqpRun

/-- A consumer comes to a queue in which nothing waits. -/
def FindsEmpty (s : AmqpRun) : AmqpOp → Prop
  | .method _ _ (.basicConsume name _ _) =>
    s.broker.readyOf (s.broker.chooseName "synapse.gen." name).1 = []
  | _ => True

variable {s s' : AmqpRun} {op : AmqpOp}

theorem drained_method (h : s.Inv) (hd : s.broker.Drained) {connId : ℕ} {channel : UInt16}
    {m : Method} {reply : Except ProtocolError (List Reply)} {b' : Broker} {sent : List Delivery}
    (hmeth : s.broker.handleMethod connId channel m = some (reply, b', sent)) :
    b'.Drained ↔ s.FindsEmpty (.method connId channel m) := by
  obtain ⟨name, noAck, r, rfl, hget⟩ | ⟨tag, multiple, rfl, rfl, -⟩ | ⟨-, ⟨name, hgrw⟩, hcs⟩ :=
    Broker.handleMethod_cases h.linked hmeth
  · obtain ⟨-, hmv, hcons, hnil⟩ := Broker.Inv.basicGet h hget
    have hsame := Broker.hasConsumer_congr hcons
    refine iff_of_true (hd.moves hmv hsame (forall_mem_singleton.mpr fun hn ↦ ?_)) trivial
    exact hnil (hd name ((hsame name).symm.trans hn))
  · refine iff_of_true (fun n hn ↦ ?_) trivial
    rw [Broker.readyOf_basicAck _ h]
    refine hd n ((Broker.hasConsumer_congr ?_ n).symm.trans hn)
    rw [Broker.basicAck]
    split
    · rfl
    · dsimp only
      split <;> rfl
  obtain ⟨hne, hsame⟩ | ⟨name', tag, noAck, n, c, rr, rfl, rfl, hcons, -⟩ := hcs
  · refine iff_of_true (hd.grown hgrw (Broker.hasConsumer_congr hsame)) ?_
    cases m with
    | basicConsume name tag noAck => exact absurd rfl (hne name tag noAck)
    | _ => trivial
  constructor
  · intro hd'
    rw [FindsEmpty, ← (hgrw.unmoved _).1]
    apply hd'
    rw [Broker.hasConsumer, hcons, update_self]
    simp
  · intro hnil n hn
    rw [(hgrw.unmoved n).1]
    by_cases heq : n = (s.broker.chooseName "synapse.gen." name').1
    · rw [heq]
      exact hnil
    · rw [Broker.hasConsumer, hcons, update_of_ne heq] at hn
      exact hd n hn

theorem drained_step (h : s.Inv) (hd : s.broker.Drained) (hstep : s.step op = some s') :
    s'.Inv ∧ (s'.broker.Drained ↔ s.FindsEmpty op) := by
  have hprm : s.Prompt op := by
    cases op with
    | publish => exact fun name _ ↦ hd name
    | _ => trivial
  refine ⟨(inv_step h hprm hstep).1, ?_⟩
  cases op with
  | connect =>
    cases hstep
    exact iff_of_true hd trivial
  | disconnect connId =>
    cases hstep
    refine iff_of_true (fun n hn ↦ hd n (Bool.le_iff_imp.mp ?_ hn)) trivial
    dsimp only [Broker.hasConsumer, Broker.disconnect]
    rcases s.broker.consumers n with _ | ⟨_ | ⟨c, consumers⟩, rr⟩
    · exact le_rfl
    · exact le_rfl
    · exact Bool.le_true _
  | method connId channel m =>
    obtain ⟨⟨reply, b', sent⟩, hmeth, heq⟩ := bind_eq_some_iff.mp hstep
    cases heq
    exact drained_method h hd hmeth
  | publish exchange routingKey body times =>
    refine iff_of_true ?_ trivial
    obtain ⟨-, rfl⟩ | ⟨names, htgt, hall, -⟩ := step_publish hstep
    · exact hd
    · obtain ⟨-, hsame, hnil, new, hmv, -⟩ :=
        Broker.Inv.publishAll h (nodup_targets htgt) (fun name _ ↦ hd name) hall
      exact hd.moves hmv hsame hnil

/-- **Backlogs.** After every operation nothing waits in a queue that has a consumer, if and only if
every consumer comes to an empty queue. While methods come from connected clients, to have a
consumer is to have one on a live connection. -/
theorem drained_iff (core : SynapseCore) (ops : List AmqpOp) (s : AmqpRun) :
    (Steps step (fun s op ↦ ∀ s' ∈ s.step op, s'.broker.Drained) (start core) ops s ↔
      Steps step FindsEmpty (start core) ops s) ∧
    (Steps step Connected (start core) ops s → ∀ name, s.broker.hasConsumer name ↔
      ∃ group ∈ s.broker.consumers name, ∃ c ∈ group.consumers,
        (s.broker.connections c.connId).isSome) := by
  refine ⟨steps_good_iff Inv (·.broker.Drained) (fun _ _ _ ↦ drained_step) (Broker.inv_new core)
    nofun, fun hrun ↦ ?_⟩
  have hsound : s.broker.Sound := hrun.invariant (fun s ↦ s.broker.Sound)
    (fun _ _ _ h hconn hstep ↦ sound_step h hconn hstep) ⟨Broker.linked_new core, nofun, nofun⟩
  exact hsound.hasConsumer_iff

/-- A consumer comes to a queue with a message. The message stays behind the next one, which is
handed out in its place. -/
theorem undrained : ∃ s, Steps step (fun _ _ ↦ True) (start (.withObjectStore .empty))
        [.connect, .publish "" "q" [1] [0], .method 1 1 (.basicConsume "q" "c" false),
          .publish "" "q" [2] [0]] s ∧
      (s.broker.consumers "q").map (·.consumers) = some [⟨1, 1, "c", false⟩] ∧
      (s.broker.connections 1).isSome ∧ s.broker.readyOf "q" = [⟨1, [2]⟩] := by
  exact exists_steps_of_isSome (by decide +kernel) fun _ ↦
    ⟨by decide +kernel, by decide +kernel, by decide +kernel⟩

end AmqpRun

end Synapse.Amqp
