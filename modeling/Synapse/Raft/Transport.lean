import Synapse.Raft.Node

/-!
# Peer messages

The wire vocabulary of the TCP transport, what a server does with a request it receives, and how a
leader builds the `AppendEntries` message for a peer. Framing and JSON are left to `Raft.Frames`: a
connection carries exactly one request and its reply, so what matters here is which node handles
which message.
-/

namespace Synapse

structure RequestVote where
  term : ℕ
  candidateId : NodeId
  lastLogIndex : ℕ
  lastLogTerm : ℕ
deriving DecidableEq, Repr

structure AppendEntries where
  term : ℕ
  leaderId : NodeId
  prevLogIndex : ℕ
  prevLogTerm : ℕ
  entries : List Entry
  leaderCommit : ℕ
deriving DecidableEq, Repr

inductive WireMessage
  | requestVote (m : RequestVote)
  | requestVoteResponse (term : ℕ) (voteGranted : Bool)
  | appendEntries (m : AppendEntries)
  | appendEntriesResponse (term : ℕ) (success : Bool) (matchIndex : ℕ)
deriving DecidableEq, Repr

def AppendEntries.matchIndex (m : AppendEntries) : ℕ :=
  match m.entries.getLast? with
  | some e => e.index
  | none => m.prevLogIndex

namespace RaftNode

/-- Serve one peer connection: requests are answered, anything else drops the connection. -/
def handlePeer (n : RaftNode) : WireMessage → Option (RaftNode × WireMessage)
  | .requestVote m =>
    let (n', term, granted) :=
      n.handleRequestVote m.term m.candidateId m.lastLogIndex m.lastLogTerm
    some (n', .requestVoteResponse term granted)
  | .appendEntries m =>
    let (n', term, success) :=
      n.handleAppendEntries m.term m.prevLogIndex m.prevLogTerm m.entries m.leaderCommit
    some (n', .appendEntriesResponse term success (if success then m.matchIndex else 0))
  | _ => none

abbrev grantsTo (n : RaftNode) (m : RequestVote) : Bool :=
  n.grants m.term m.candidateId m.lastLogIndex m.lastLogTerm

abbrev asked (n : RaftNode) (m : RequestVote) : RaftNode :=
  (n.handleRequestVote m.term m.candidateId m.lastLogIndex m.lastLogTerm).1

abbrev takes (n : RaftNode) (m : AppendEntries) : Bool :=
  n.accepts m.term m.prevLogIndex m.prevLogTerm

abbrev told (n : RaftNode) (m : AppendEntries) : RaftNode :=
  (n.handleAppendEntries m.term m.prevLogIndex m.prevLogTerm m.entries m.leaderCommit).1

theorem asked_follows (n : RaftNode) (m : RequestVote) : n.Follows (n.asked m) :=
  n.handleRequestVote_follows ..

section AppendEntries

variable (n : RaftNode) (m : AppendEntries)

theorem told_follows : n.Follows (n.told m) := n.handleAppendEntries_follows ..

theorem told_currentTerm : (n.told m).currentTerm = max n.currentTerm m.term :=
  n.handleAppendEntries_currentTerm ..

theorem told_log : (n.told m).log =
    if n.takes m then appendLoop n.log m.prevLogIndex m.entries else n.log :=
  n.handleAppendEntries_log ..

variable {n m}

theorem term_le_of_takes (h : n.takes m = true) : n.currentTerm ≤ m.term := by
  rw [takes, accepts, Bool.and_eq_true, decide_eq_true_eq] at h
  exact h.1

end AppendEntries

theorem handlePeer_requestVote (n : RaftNode) (m : RequestVote) :
    n.handlePeer (.requestVote m) =
      some (n.asked m, .requestVoteResponse (max n.currentTerm m.term) (n.grantsTo m)) := by
  have hrep := n.handleRequestVote_reply m.term m.candidateId m.lastLogIndex m.lastLogTerm
  obtain ⟨hterm, hgrt⟩ := Prod.ext_iff.mp hrep
  simp only at hterm hgrt
  rw [handlePeer, grantsTo, ← hterm, ← hgrt]

theorem handlePeer_appendEntries (n : RaftNode) (m : AppendEntries) :
    n.handlePeer (.appendEntries m) =
      some (n.told m, .appendEntriesResponse (max n.currentTerm m.term) (n.takes m)
        (if n.takes m then m.matchIndex else 0)) := by
  have hrep :=
    n.handleAppendEntries_reply m.term m.prevLogIndex m.prevLogTerm m.entries m.leaderCommit
  obtain ⟨hterm, haccept⟩ := Prod.ext_iff.mp hrep
  simp only at hterm haccept
  rw [handlePeer, takes, ← hterm, ← haccept]

/-- The message for a peer whose next index is `next`: the log from there on, and the entry before
it as the consistency check; with nothing to send, the last entry. -/
def buildAppendEntries (n : RaftNode) (next : ℕ) : AppendEntries :=
  let entries := n.entriesFrom (max next 1)
  let (prevLogIndex, prevLogTerm) :=
    match entries.head? with
    | some first =>
      let idx := first.index - 1
      (idx, ((n.log.find? fun e ↦ e.index == idx).map Entry.term).getD 0)
    | none => n.lastLog
  { term := n.currentTerm
    leaderId := n.id
    prevLogIndex := prevLogIndex
    prevLogTerm := prevLogTerm
    entries := entries
    leaderCommit := n.commitIndex }

end RaftNode

end Synapse
