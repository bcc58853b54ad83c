import Mathlib.Data.List.Destutter
import Mathlib.Data.List.Sort
import Synapse.Routing.Topic

/-!
# The graph router

Exchanges with bindings to queues, as the AMQP adapter uses them. A binding is entered only for a
queue and an exchange that are known, and once. A route collects the queues of the bindings that
accept the routing key, sorted and without repetitions.
-/

namespace Synapse

open List

inductive ExchangeKind
  /-- The routing key must equal the binding pattern. -/
  | direct
  /-- The pattern is a topic filter with levels separated by dots. -/
  | topic
  /-- The pattern is ignored. -/
  | fanout
deriving DecidableEq, Repr

structure Binding where
  queue : String
  pattern : String
deriving DecidableEq, Repr

structure Exchange where
  kind : ExchangeKind
  bindings : List Binding
deriving DecidableEq, Repr

structure RoutingError where
  message : String
deriving DecidableEq, Repr

structure GraphRouter where
  exchanges : String → Option Exchange
  queues : String → Bool

def dot : UInt8 := 0x2E

def Binding.accepts (kind : ExchangeKind) (routingKey : String) (b : Binding) : Bool :=
  match kind with
  | .direct => b.pattern == routingKey
  | .topic => topicMatchesSep b.pattern routingKey dot
  | .fanout => true

namespace GraphRouter

def new : GraphRouter := ⟨fun _ ↦ none, fun _ ↦ false⟩

/-- An exchange that is there keeps its kind and its bindings. -/
def createExchange (g : GraphRouter) (name : String) (kind : ExchangeKind) : GraphRouter :=
  { g with
    exchanges := Function.update g.exchanges name
      (some ((g.exchanges name).getD ⟨kind, []⟩)) }

def createQueue (g : GraphRouter) (name : String) : GraphRouter :=
  { g with queues := Function.update g.queues name true }

def bind (g : GraphRouter) (exchange queue pattern : String) :
    Except RoutingError Unit × GraphRouter :=
  if g.queues queue then
    match g.exchanges exchange with
    | none => (.error ⟨"unknown exchange"⟩, g)
    | some ex =>
      if ex.bindings.any fun b ↦ b.queue == queue && b.pattern == pattern then (.ok (), g)
      else
        (.ok (), { g with
          exchanges := Function.update g.exchanges exchange
            (some { ex with bindings := ex.bindings ++ [⟨queue, pattern⟩] }) })
  else (.error ⟨"unknown queue"⟩, g)

/-- The queues of a list of bindings, in order and each once. -/
def targets (kind : ExchangeKind) (bindings : List Binding) (routingKey : String) : List String :=
  (((bindings.filter (Binding.accepts kind routingKey)).map Binding.queue).insertionSort
    (· ≤ ·)).destutter (· ≠ ·)

def route (g : GraphRouter) (exchange routingKey : String) : Except RoutingError (List String) :=
  match g.exchanges exchange with
  | none => .error ⟨"unknown exchange"⟩
  | some ex => .ok (targets ex.kind ex.bindings routingKey)

theorem isChain_lt {α : Type*} [LinearOrder α] {l : List α} (hle : l.IsChain (· ≤ ·))
    (hne : l.IsChain (· ≠ ·)) : l.IsChain (· < ·) := by
  induction l with
  | nil => exact .nil
  | cons a l ih =>
    cases l with
    | nil => exact .singleton a
    | cons b l =>
      rw [isChain_cons_cons] at hle hne ⊢
      exact ⟨lt_of_le_of_ne hle.1 hne.1, ih hle.2 hne.2⟩

theorem nodup_targets (kind : ExchangeKind) (bindings : List Binding) (routingKey : String) :
    (targets kind bindings routingKey).Nodup := by
  refine (isChain_lt ?_ (isChain_destutter ..)).pairwise.imp ne_of_lt
  exact ((pairwise_insertionSort _ _).sublist (destutter_sublist ..)).isChain

end GraphRouter

end Synapse
