import Synapse.Raft.LogMatching

/-!
# The Raft protocol under a correct driver

The `RaftNode` operations as a driver without the slips of the TCP transport would call them. Vote
requests name the candidate; a tally is applied only while the node is still a candidate, and
counts replies granted in its current term; only a leader appends, sends and records
acknowledgements, and an acknowledgement only in the term of the request it answers. The network is
arbitrary: every message and every reply stays available, so it may be processed late, repeatedly,
in any order or never.

A node takes part in an election only if it is in its own peers list, as `RaftNode::new` asks;
anything else a node outside the list does is allowed.
-/

open Function

namespace Synapse

open Transition Option

structure Grant where
  term : ℕ
  voter : NodeId
  candidate : NodeId
deriving DecidableEq, Repr

structure Ack where
  term : ℕ
  leader : NodeId
  peer : NodeId
  matchIndex : ℕ
deriving DecidableEq, Repr

/-- The cluster, every message and reply so far, and what each node has applied. -/
structure Network where
  nodes : NodeId → RaftNode
  requests : List RequestVote
  grants : List Grant
  sent : List Envelope
  acks : List Ack
  applied : NodeId → List Entry

inductive NetworkOp
  | beginElection (id : NodeId)
  | vote (k : ℕ) (voter : NodeId)
  | finalizeElection (id : NodeId) (votes : ℕ)
  | leaderAppend (id : NodeId) (data : Bytes)
  | send (id peer : NodeId)
  | deliver (k : ℕ)
  | recordPeerAck (k : ℕ)
  | advanceNext (id peer : NodeId) (next : ℕ)
  | applyCommitted (id : NodeId)
deriving DecidableEq, Repr

namespace Network

def init (members : List NodeId) (store : NodeId → StateStore) : Network where
  nodes id := RaftNode.new id members (store id)
  requests := []
  grants := []
  sent := []
  acks := []
  applied _ := []

def setNode (s : Network) (id : NodeId) (n : RaftNode) : Network :=
  { s with nodes := update s.nodes id n }

/-- The largest tally `id` can have: its own vote, and those of the other peers that have granted
theirs in its current term. -/
def votesFor (s : Network) (id : NodeId) : ℕ :=
  1 + (s.nodes id).peers.countP fun p ↦
    decide (⟨(s.nodes id).currentTerm, p, id⟩ ∈ s.grants) && decide (p ≠ id)

def step (s : Network) : NetworkOp → Option Network
  | .beginElection id =>
    if id ∈ (s.nodes id).peers then
      let (n, lastIndex, lastTerm) := (s.nodes id).beginElection
      some { s.setNode id n with
        requests := s.requests ++ [⟨n.currentTerm, id, lastIndex, lastTerm⟩] }
    else none
  | .vote k voter => do
    let m ← s.requests[k]?
    let (n, reply) ← (s.nodes voter).handlePeer (.requestVote m)
    if voter = m.candidateId then none
    else
      some { s.setNode voter n with
        grants :=
          match reply with
          | .requestVoteResponse _ true => s.grants ++ [⟨m.term, voter, m.candidateId⟩]
          | _ => s.grants }
  | .finalizeElection id votes =>
    if (s.nodes id).role = .candidate ∧ votes ≤ s.votesFor id then
      some (s.setNode id ((s.nodes id).finalizeElection votes))
    else none
  | .leaderAppend id data =>
    if (s.nodes id).role = .leader then
      some (s.setNode id ((s.nodes id).leaderAppend data).1)
    else none
  | .send id peer =>
    if (s.nodes id).role = .leader ∧ peer ∈ (s.nodes id).peers ∧ peer ≠ id then
      some { s with sent := s.sent ++
        [⟨peer, (s.nodes id).buildAppendEntries ((s.nodes id).nextIndexOf peer)⟩] }
    else none
  | .deliver k => do
    let m ← s.sent[k]?
    let (n, reply) ← (s.nodes m.dest).handlePeer (.appendEntries m.msg)
    some { s.setNode m.dest n with
      acks :=
        match reply with
        | .appendEntriesResponse _ true matchIndex =>
          s.acks ++ [⟨m.msg.term, m.msg.leaderId, m.dest, matchIndex⟩]
        | _ => s.acks }
  | .recordPeerAck k => do
    let a ← s.acks[k]?
    if (s.nodes a.leader).role = .leader ∧ (s.nodes a.leader).currentTerm = a.term then
      some (s.setNode a.leader ((s.nodes a.leader).recordPeerAck a.peer a.matchIndex))
    else none
  | .advanceNext id peer next => some (s.setNode id ((s.nodes id).advanceNext peer next))
  | .applyCommitted id =>
    let (n, entries) := (s.nodes id).applyCommitted
    some { s.setNode id n with applied := update s.applied id (s.applied id ++ entries) }

/-! ### What a step does -/

section Inversion

variable {s s' : Network} {id : NodeId} {k : ℕ}

theorem step_vote (h : s.step (.vote k id) = some s') : ∃ m ∈ s.requests, id ≠ m.candidateId ∧
      s' = { s.setNode id ((s.nodes id).asked m) with
        grants := if (s.nodes id).grantsTo m then
            s.grants ++ [⟨m.term, id, m.candidateId⟩]
          else s.grants } := by
  rw [step] at h
  obtain ⟨m, hm, h⟩ := bind_eq_some_iff.mp h
  rw [RaftNode.handlePeer_requestVote] at h
  simp only [bind_eq_bind, bind_some] at h
  split_ifs at h with hne
  refine ⟨m, List.mem_of_getElem? hm, hne, ?_⟩
  rw [← some.inj h]
  cases (s.nodes id).grantsTo m <;> rfl

theorem step_deliver (h : s.step (.deliver k) = some s') : ∃ m ∈ s.sent,
      s' = { s.setNode m.dest ((s.nodes m.dest).told m.msg) with
        acks := if (s.nodes m.dest).takes m.msg then
            s.acks ++ [⟨m.msg.term, m.msg.leaderId, m.dest, m.msg.matchIndex⟩]
          else s.acks } := by
  rw [step] at h
  obtain ⟨m, hm, h⟩ := bind_eq_some_iff.mp h
  rw [RaftNode.handlePeer_appendEntries] at h
  refine ⟨m, List.mem_of_getElem? hm, ?_⟩
  rw [← some.inj h]
  cases (s.nodes m.dest).takes m.msg <;> rfl

end Inversion

/-! ### Safety -/

def Safe (s : Network) : Prop :=
  (∀ v, (s.nodes v).lastApplied ≤ (s.nodes v).commitIndex ∧
    (s.nodes v).commitIndex ≤ (s.nodes v).logLen) ∧
  ∀ v w, ∀ e ∈ s.applied v, ∀ e' ∈ s.applied w, e.index = e'.index → e = e'

/-- The acknowledgements a new leader starts with, which an election does not reset, reach no
further than its commit index. -/
def FreshAcks (s : Network) : NetworkOp → Prop
  | .finalizeElection id votes =>
    (s.nodes id).majority ≤ votes → ∀ m ∈ (s.nodes id).matchIndex, m ≤ (s.nodes id).commitIndex
  | _ => True

instance (s : Network) (op : NetworkOp) : Decidable (s.FreshAcks op) := by
  cases op <;> dsimp only [FreshAcks] <;> infer_instance

end Network

end Synapse
