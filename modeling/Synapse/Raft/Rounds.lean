import Synapse.Lib.Run
import Synapse.Raft.CommitRule
import Synapse.Raft.Transport

/-!
# Rounds that are interrupted

The election round and the heartbeat round of the transport hold the node lock only for short
sections. In between the node serves requests, and a request of a later term makes it a follower of
that term (`RaftNode.Follows`).

Neither round looks at the role or the term again when it comes back. The tally makes the node a
leader of whatever term it has reached (`finalizeElection_own_term_iff`), and a heartbeat round
goes on speaking, and counting acknowledgements, for a term the node does not lead
(`Heartbeat.speaks_iff`). Both results say when this happens: exactly if a request of a later term
was served before.
-/

namespace Synapse

open Transition List Option

def WireMessage.requestTerm : WireMessage → ℕ
  | .requestVote m => m.term
  | .appendEntries m => m.term
  | _ => 0

namespace RaftNode

/-- The node after serving a peer connection; a message that is not a request is dropped. -/
def serve (n : RaftNode) (m : WireMessage) : RaftNode :=
  match n.handlePeer m with
  | some (n', _) => n'
  | none => n

def serveAll (n : RaftNode) (ms : List WireMessage) : RaftNode :=
  ms.foldl serve n

theorem serve_follows (n : RaftNode) (m : WireMessage) : n.Follows (n.serve m) := by
  cases m with
  | requestVote m => exact n.handleRequestVote_follows ..
  | appendEntries m => exact n.handleAppendEntries_follows ..
  | requestVoteResponse => exact .refl n
  | appendEntriesResponse => exact .refl n

theorem currentTerm_serve (n : RaftNode) (m : WireMessage) :
    (n.serve m).currentTerm = max n.currentTerm m.requestTerm := by
  cases m with
  | requestVote m => exact n.handleRequestVote_currentTerm ..
  | appendEntries m => exact n.handleAppendEntries_currentTerm ..
  | requestVoteResponse => exact (Nat.max_zero _).symm
  | appendEntriesResponse => exact (Nat.max_zero _).symm

theorem serveAll_follows (n : RaftNode) (ms : List WireMessage) : n.Follows (n.serveAll ms) := by
  induction ms generalizing n with
  | nil => exact .refl n
  | cons m ms ih => exact (n.serve_follows m).trans (ih (n.serve m))

theorem currentTerm_serveAll_le_iff (n : RaftNode) (ms : List WireMessage) (t : ℕ) :
    (n.serveAll ms).currentTerm ≤ t ↔ n.currentTerm ≤ t ∧ ∀ m ∈ ms, m.requestTerm ≤ t := by
  induction ms generalizing n with
  | nil => simp [serveAll]
  | cons m ms ih =>
    rw [serveAll, foldl_cons, ← serveAll, ih, currentTerm_serve, Nat.max_le, and_assoc,
      forall_mem_cons]

/-! ## The tally -/

/-- **Votes and their term.** A node begins an election, serves some connections and applies the
tally. It then leads only in the term of the election, and only if it was still a candidate, exactly
if the votes are no majority or no request of a later term was served. -/
theorem finalizeElection_own_term_iff (n : RaftNode) (ms : List WireMessage) (votes : ℕ) :
    (((n.beginElection.1.serveAll ms).finalizeElection votes).role = .leader →
      ((n.beginElection.1.serveAll ms).finalizeElection votes).currentTerm =
          n.beginElection.1.currentTerm ∧
        (n.beginElection.1.serveAll ms).role = .candidate) ↔
      (n.majority ≤ votes → ∀ m ∈ ms, m.requestTerm ≤ n.beginElection.1.currentTerm) := by
  have hfollows := n.beginElection.1.serveAll_follows ms
  have hmajority : (n.beginElection.1.serveAll ms).majority = n.majority := by
    rw [majority, hfollows.peers_eq]
    rfl
  have hcandidate : n.beginElection.1.role = .candidate := rfl
  have hterm := n.beginElection.1.currentTerm_serveAll_le_iff ms n.beginElection.1.currentTerm
  rw [and_iff_right le_rfl] at hterm
  rw [finalizeElection_role_eq_leader, (finalizeElection_frame _ _).2.2.1, hmajority]
  constructor
  · intro h hvotes
    exact hterm.mp (h (.inl hvotes)).1.le
  rintro h (hvotes | hleader)
  · have heq := le_antisymm (hterm.mpr (h hvotes)) hfollows.term_le
    exact ⟨heq, (hfollows.role_eq heq).trans hcandidate⟩
  · have hrole := (hfollows.of_role_ne (by rw [hleader]; decide)).2
    rw [hleader, hcandidate] at hrole
    cases hrole

/-- A node collects the votes of term one, is made a follower of term five, and leads term five. -/
theorem leader_of_later_term :
    let n := (new "a" ["a", "b", "c"] {}).beginElection.1
    let n' := n.serveAll [.requestVote ⟨5, "c", 0, 0⟩]
    (n'.finalizeElection 2).role = .leader ∧ n'.role = .follower ∧
      (n'.finalizeElection 2).currentTerm = 5 ∧ n.currentTerm = 1 := by
  decide +kernel

/-! ## Acknowledgements -/

variable (n : RaftNode) (peer : NodeId) (peerMatch : ℕ)

/-- With this acknowledgement of `peer` the entry after the committed ones is on a majority, and it
is of the current term. -/
def Completes : Prop :=
  (n.log[n.commitIndex]?).map Entry.term = some n.currentTerm ∧
    n.majority ≤ 1 + n.matchIndex.zipIdx.countP fun x ↦
      decide (n.commitIndex < x.1 ∨ n.position peer = some x.2 ∧ n.commitIndex < peerMatch)

instance : Decidable (n.Completes peer peerMatch) := inferInstanceAs (Decidable (_ ∧ _))

theorem ackedMatchIndex_eq : n.ackedMatchIndex peer peerMatch = n.matchIndex.zipIdx.map fun x ↦
      if n.position peer = some x.2 then max x.1 peerMatch else x.1 := by
  refine ext_getElem? fun i ↦ ?_
  rw [ackedMatchIndex, getElem?_map, getElem?_zipIdx]
  cases n.position peer with
  | none => cases n.matchIndex[i]? <;> rfl
  | some j =>
    rw [getElem?_modify, Option.map_map]
    refine congrArg (fun f ↦ Option.map f n.matchIndex[i]?) (funext fun m ↦ ?_)
    simp [eq_comm]

/-- The commit index moves with an acknowledgement that completes an entry, and with no other. -/
theorem commitIndex_recordPeerAck_ne_iff :
    (n.recordPeerAck peer peerMatch).commitIndex ≠ n.commitIndex ↔ n.Completes peer peerMatch := by
  have hwalk := le_advanceCommit_iff n.majority n.currentTerm (n.ackedMatchIndex peer peerMatch)
    (n.log.drop n.commitIndex) n.commitIndex
  have hle : n.commitIndex ≤ (n.recordPeerAck peer peerMatch).commitIndex :=
    (hwalk _).mpr fun k hlt hk ↦ absurd hk (Nat.not_le.mpr hlt)
  have hcount : (n.ackedMatchIndex peer peerMatch).countP (fun m ↦ decide (n.commitIndex + 1 ≤ m)) =
      n.matchIndex.zipIdx.countP fun x ↦
        decide (n.commitIndex < x.1 ∨ n.position peer = some x.2 ∧ n.commitIndex < peerMatch) := by
    rw [ackedMatchIndex_eq, countP_map]
    refine countP_congr fun x _ ↦ ?_
    simp only [Function.comp_apply, decide_eq_true_eq]
    split_ifs with hpos
    · rw [and_iff_right hpos]
      omega
    · rw [Nat.add_one_le_iff, iff_false_intro hpos, false_and, or_false]
  have hnext : (n.log.drop n.commitIndex)[n.commitIndex + 1 - (n.commitIndex + 1)]? =
      n.log[n.commitIndex]? := by rw [Nat.sub_self, getElem?_drop, Nat.add_zero]
  rw [← hle.lt_iff_ne', ← Nat.add_one_le_iff, Completes, and_comm, ← hcount, ← hnext]
  refine (hwalk (n.commitIndex + 1)).trans
    ⟨fun h ↦ h _ (Nat.lt_succ_self _) le_rfl, fun h k hlt hk ↦ ?_⟩
  rwa [Nat.le_antisymm hk hlt]

end RaftNode

/-! ## The heartbeat round -/

def WireMessage.acknowledges : WireMessage → Option ℕ
  | .appendEntriesResponse _ _ matchIndex => some matchIndex
  | _ => none

/-- An acknowledgement as it was recorded: the message it answers, and the node before and
after. -/
structure RecordedAck where
  request : AppendEntries
  before : RaftNode
  after : RaftNode

/-- A heartbeat round: the node, the id read, the peers still to visit and the awaited call. Beside
them: the requests served, the terms the node was seen to lead, the messages sent and the
acknowledgements recorded. -/
structure Heartbeat where
  node : RaftNode
  leaderId : NodeId
  todo : List NodeId
  awaiting : Option (NodeId × AppendEntries)
  served : List WireMessage
  led : List ℕ
  sent : List AppendEntries
  acks : List RecordedAck

inductive HeartbeatOp
  | serve (m : WireMessage)
  | propose (data : Bytes)
  /-- The loop moves to its next peer: the node itself is skipped, another peer is called. -/
  | send
  /-- The call returns, with an answer or without. -/
  | reply (answer : Option WireMessage)

namespace Heartbeat

def start (n : RaftNode) : Heartbeat where
  node := n
  leaderId := n.id
  todo := n.peers
  awaiting := none
  served := []
  led := if n.role = .leader then [n.currentTerm] else []
  sent := []
  acks := []

def setNode (s : Heartbeat) (n : RaftNode) : Heartbeat :=
  { s with
    node := n
    led := if n.role = .leader then s.led ++ [n.currentTerm] else s.led }

/-- Record the answer of `peer`: a success moves its next index, and any answer is counted. -/
def record (s : Heartbeat) (peer : NodeId) (m : AppendEntries) (success : Bool)
    (matchIndex : ℕ) : Heartbeat :=
  let n := if success then s.node.advanceNext peer (matchIndex + 1) else s.node
  { s.setNode (n.recordPeerAck peer matchIndex) with
    awaiting := none
    acks := s.acks ++ [⟨m, n, n.recordPeerAck peer matchIndex⟩] }

def step (s : Heartbeat) : HeartbeatOp → Option Heartbeat
  | .serve m => some { s.setNode (s.node.serve m) with served := s.served ++ [m] }
  | .propose data =>
    some (if s.node.role = .leader then s.setNode (s.node.leaderAppend data).1 else s)
  | .send =>
    match s.todo, s.awaiting with
    | peer :: rest, none =>
      if peer = s.leaderId then some { s with todo := rest }
      else
        let m := s.node.buildAppendEntries (s.node.nextIndexOf peer)
        some { s with todo := rest, awaiting := some (peer, m), sent := s.sent ++ [m] }
    | _, _ => none
  | .reply answer =>
    match s.awaiting with
    | none => none
    | some (peer, m) =>
      match answer with
      | some (.appendEntriesResponse _ success matchIndex) =>
        some (s.record peer m success matchIndex)
      | _ => some { s with awaiting := none }

/-- The node has spoken for terms it led only: each message carries such a term, and the commit
index was moved by an acknowledgement only while the node led the term of the message. -/
structure Speaks (s : Heartbeat) : Prop where
  sent : ∀ m ∈ s.sent, m.term ∈ s.led
  acked : ∀ a ∈ s.acks, a.after.commitIndex ≠ a.before.commitIndex →
    a.before.role = .leader ∧ a.before.currentTerm = a.request.term

/-- No request of a term after `t` has been served. -/
def Quiet (t : ℕ) (s : Heartbeat) : Prop :=
  ∀ m ∈ s.served, m.requestTerm ≤ t

/-- The step does not speak for a term after `t`: a message is sent, and an answer completes an
entry, only as long as no request of a later term was served. -/
def Undisturbed (t : ℕ) (s : Heartbeat) : HeartbeatOp → Prop
  | .send => s.todo.head? = some s.leaderId ∨ s.Quiet t
  | .reply answer => s.Quiet t ∨ ∀ call ∈ s.awaiting,
      ∀ matchIndex ∈ answer.bind WireMessage.acknowledges, ¬s.node.Completes call.1 matchIndex
  | _ => True

instance (t : ℕ) : DecidablePred (Quiet t) :=
  fun s ↦ inferInstanceAs (Decidable (∀ m ∈ s.served, m.requestTerm ≤ t))

instance (t : ℕ) : DecidableRel (Undisturbed t) := fun _ op ↦ by
  cases op <;> dsimp only [Undisturbed] <;> infer_instance

/-! ### What holds during a round -/

/-- During a round that began in term `t`: the node leads `t` until it serves a request of a later
term, and no term from then on. -/
structure Ongoing (t : ℕ) (s : Heartbeat) : Prop where
  term_le : t ≤ s.node.currentTerm
  leader_iff : s.node.role = .leader ↔ s.node.currentTerm = t
  quiet_iff : s.Quiet t ↔ s.node.currentTerm ≤ t
  mem_led : ∀ u, u ∈ s.led ↔ u = t
  request : ∀ p m, s.awaiting = some (p, m) → t ≤ m.term ∧ m.term ≤ s.node.currentTerm

namespace Ongoing

variable {t : ℕ} {s s' : Heartbeat} {n : RaftNode}

theorem start (hlead : n.role = .leader) : Ongoing n.currentTerm (start n) where
  term_le := le_rfl
  leader_iff := iff_of_true hlead rfl
  quiet_iff := iff_of_true nofun le_rfl
  mem_led u := by simp [Heartbeat.start, hlead]
  request _ _ h := by cases h

theorem quiet_iff_leader (h : Ongoing t s) : s.Quiet t ↔ s.node.role = .leader := by
  rw [h.quiet_iff, h.leader_iff]
  exact ⟨fun hle ↦ le_antisymm hle h.term_le, fun heq ↦ heq.le⟩

theorem setNode (h : Ongoing t s) (hrole : n.role = s.node.role)
    (hterm : n.currentTerm = s.node.currentTerm) : Ongoing t (s.setNode n) where
  term_le := hterm ▸ h.term_le
  leader_iff := by
    rw [Heartbeat.setNode, hrole, hterm]
    exact h.leader_iff
  quiet_iff := by
    rw [Heartbeat.setNode, hterm]
    exact h.quiet_iff
  mem_led u := by
    rw [Heartbeat.setNode, hrole, hterm]
    by_cases hlead : s.node.role = .leader
    · rw [if_pos hlead, mem_append, h.mem_led, mem_singleton, h.leader_iff.mp hlead, or_self_iff]
    · rw [if_neg hlead, h.mem_led]
  request p m hm := by
    rw [Heartbeat.setNode, hterm]
    exact h.request p m hm

theorem serve (h : Ongoing t s) (m : WireMessage) :
    Ongoing t { s.setNode (s.node.serve m) with served := s.served ++ [m] } := by
  have hfol := s.node.serve_follows m
  have hle := hfol.term_le
  have hst0 := h.term_le
  have hlea : (s.node.serve m).role = .leader ↔ (s.node.serve m).currentTerm = t := by
    constructor
    · intro hlead
      obtain ⟨heq, hrole⟩ := hfol.of_role_ne (by rw [hlead]; decide)
      rw [heq, ← h.leader_iff, ← hrole, hlead]
    · intro heq
      have hsame : s.node.currentTerm = t := by omega
      rw [hfol.role_eq (by omega), h.leader_iff, hsame]
  refine ⟨hst0.trans hle, hlea, ?_, fun u ↦ ?_, fun p q hq ↦ ?_⟩
  · have hqt := h.quiet_iff
    simp only [Quiet, Heartbeat.setNode, forall_mem_append, forall_mem_singleton] at hqt ⊢
    rw [hqt, RaftNode.currentTerm_serve, Nat.max_le]
  · simp only [Heartbeat.setNode]
    by_cases hlead : (s.node.serve m).role = .leader
    · rw [if_pos hlead, mem_append, h.mem_led, mem_singleton, hlea.mp hlead, or_self_iff]
    · rw [if_neg hlead, h.mem_led]
  · exact ⟨(h.request p q hq).1, (h.request p q hq).2.trans hle⟩

/-- Only the next index for a peer may have moved. -/
private theorem advanced_eq (s : Heartbeat) (peer : NodeId) (success : Bool) (next : ℕ) :
    ∃ nextIndex, (if success then s.node.advanceNext peer next else s.node) =
      { s.node with nextIndex := nextIndex } := by
  cases success with
  | false => exact ⟨s.node.nextIndex, rfl⟩
  | true => exact s.node.advanceNext_eq peer next

variable (h : Ongoing t s)

include h

theorem record (peer : NodeId) (m : AppendEntries) (success : Bool)
    (matchIndex : ℕ) : Ongoing t (s.record peer m success matchIndex) := by
  obtain ⟨nextIndex, heq⟩ := advanced_eq s peer success (matchIndex + 1)
  rw [Heartbeat.record, heq]
  have hset := h.setNode (n := RaftNode.recordPeerAck { s.node with nextIndex := nextIndex } peer
    matchIndex) rfl rfl
  exact ⟨hset.term_le, hset.leader_iff, hset.quiet_iff, hset.mem_led, fun _ _ hm ↦ by cases hm⟩

theorem speaks_iff_term : s.Speaks ↔ (∀ m ∈ s.sent, m.term = t) ∧
    ∀ a ∈ s.acks, a.after.commitIndex ≠ a.before.commitIndex →
      a.before.role = .leader ∧ a.before.currentTerm = a.request.term :=
  ⟨fun hs ↦ ⟨fun m hm ↦ (h.mem_led _).mp (hs.sent m hm), hs.acked⟩,
    fun hs ↦ ⟨fun m hm ↦ (h.mem_led _).mpr (hs.1 m hm), hs.2⟩⟩

theorem speaks_congr (h' : Ongoing t s') (hsent : s'.sent = s.sent)
    (hacks : s'.acks = s.acks) : s'.Speaks ↔ s.Speaks := by
  rw [h'.speaks_iff_term, h.speaks_iff_term, hsent, hacks]

theorem propose_iff {data : Bytes} (hstep : s.step (.propose data) = some s') :
    Ongoing t s' ∧ (s'.Speaks ↔ s.Speaks ∧ s.Undisturbed t (.propose data)) := by
  cases hstep
  by_cases hlead : s.node.role = .leader
  · rw [if_pos hlead]
    have h' := h.setNode (n := (s.node.leaderAppend data).1) rfl rfl
    exact ⟨h', (h.speaks_congr h' rfl rfl).trans (and_iff_left trivial).symm⟩
  · rw [if_neg hlead]
    exact ⟨h, (and_iff_left trivial).symm⟩

theorem send_iff (hstep : s.step .send = some s') :
    Ongoing t s' ∧ (s'.Speaks ↔ s.Speaks ∧ s.Undisturbed t .send) := by
  rw [Heartbeat.step] at hstep
  split at hstep
  · rename_i peer rest htodo hnone
    by_cases hself : peer = s.leaderId
    · rw [if_pos hself] at hstep
      cases hstep
      have h' : Ongoing t { s with todo := rest } :=
        ⟨h.term_le, h.leader_iff, h.quiet_iff, h.mem_led, h.request⟩
      have hskip : s.Undisturbed t .send := .inl (by rw [htodo, hself]; rfl)
      exact ⟨h', (h.speaks_congr h' rfl rfl).trans (and_iff_left hskip).symm⟩
    · rw [if_neg hself] at hstep
      cases hstep
      have hterm : (s.node.buildAppendEntries (s.node.nextIndexOf peer)).term =
        s.node.currentTerm := rfl
      have hqt : s.Undisturbed t .send ↔ s.node.currentTerm = t := by
        have hhead : s.todo.head? ≠ some s.leaderId := by
          rw [htodo]
          exact fun heq ↦ hself (some.inj heq)
        rw [Undisturbed, or_iff_right hhead, h.quiet_iff_leader, h.leader_iff]
      have h' : Ongoing t { s with
          todo := rest
          awaiting := some (peer, s.node.buildAppendEntries (s.node.nextIndexOf peer))
          sent := s.sent ++ [s.node.buildAppendEntries (s.node.nextIndexOf peer)] } := by
        refine ⟨h.term_le, h.leader_iff, h.quiet_iff, h.mem_led, fun p m hm ↦ ?_⟩
        obtain rfl := congrArg Prod.snd (some.inj hm)
        exact ⟨h.term_le, le_rfl⟩
      refine ⟨h', ?_⟩
      rw [h'.speaks_iff_term, h.speaks_iff_term, hqt, forall_mem_append,
        forall_mem_singleton, hterm]
      exact and_right_comm
  · cases hstep

theorem reply_iff {answer : Option WireMessage} (hstep : s.step (.reply answer) = some s') :
    Ongoing t s' ∧ (s'.Speaks ↔ s.Speaks ∧ s.Undisturbed t (.reply answer)) := by
  rw [Undisturbed, h.quiet_iff_leader]
  rw [Heartbeat.step] at hstep
  split at hstep
  · cases hstep
  rename_i peer m haw
  split at hstep
  · rename_i term success matchIndex
    cases hstep
    have h' := h.record peer m success matchIndex
    refine ⟨h', ?_⟩
    obtain ⟨nextIndex, heq⟩ := advanced_eq s peer success (matchIndex + 1)
    have hmoved := RaftNode.commitIndex_recordPeerAck_ne_iff
      { s.node with nextIndex := nextIndex } peer matchIndex
    have hanswered : (∀ call ∈ s.awaiting, ∀ k ∈ (some (WireMessage.appendEntriesResponse term
        success matchIndex)).bind WireMessage.acknowledges, ¬s.node.Completes call.1 k) ↔
          ¬s.node.Completes peer matchIndex := by
      rw [haw]
      simp [WireMessage.acknowledges]
    rw [h'.speaks_iff_term, h.speaks_iff_term, hanswered, or_comm, ← imp_iff_not_or]
    simp only [Heartbeat.record, Heartbeat.setNode, heq, forall_mem_append, forall_mem_singleton,
      hmoved, and_assoc]
    refine and_congr_right fun _ ↦ and_congr_right fun _ ↦ imp_congr_right fun _ ↦ ?_
    refine and_iff_left_of_imp fun hlead ↦ ?_
    have hbound := h.request peer m haw
    rw [h.leader_iff.mp hlead] at hbound ⊢
    exact le_antisymm hbound.1 hbound.2
  · rename_i hother
    cases hstep
    have h' : Ongoing t { s with awaiting := none } :=
      ⟨h.term_le, h.leader_iff, h.quiet_iff, h.mem_led, fun _ _ hm ↦ by cases hm⟩
    refine ⟨h', (h.speaks_congr h' rfl rfl).trans (and_iff_left (.inr fun _ _ k hk ↦ ?_)).symm⟩
    obtain ⟨_ | _ | _ | _, rfl, hack⟩ := bind_eq_some_iff.mp hk <;> cases hack
    exact (hother _ _ _ rfl).elim

theorem step_iff {op : HeartbeatOp} (hstep : s.step op = some s') :
    Ongoing t s' ∧ (s'.Speaks ↔ s.Speaks ∧ s.Undisturbed t op) := by
  cases op with
  | serve m =>
    cases hstep
    exact ⟨h.serve m, (h.speaks_congr (h.serve m) rfl rfl).trans (and_iff_left trivial).symm⟩
  | propose data => exact h.propose_iff hstep
  | send => exact h.send_iff hstep
  | reply answer => exact h.reply_iff hstep

end Ongoing

/-- **Only a leader speaks for its term**: a round of a leader sends only messages of terms the node
led, and moves the commit index by acknowledgements only while leading the term of the request, if
and only if, after a request of a later term was served, it sends no message and no answer completes
an entry. -/
theorem speaks_iff (n : RaftNode) (hlead : n.role = .leader) (ops : List HeartbeatOp)
    (s : Heartbeat) (hrun : Steps step (fun _ _ ↦ True) (start n) ops s) :
    s.Speaks ↔ Steps step (Undisturbed n.currentTerm) (start n) ops s := by
  have hstart : (start n).Speaks := ⟨nofun, nofun⟩
  have hiff := hrun.good_iff (Ongoing n.currentTerm) Speaks
    (fun _ _ _ h _ hstep ↦ h.step_iff hstep) (.start hlead)
  simpa only [hstart, true_and] using hiff

def leaderOfOne : RaftNode :=
  (((RaftNode.new "a" ["a", "b", "c"] {}).beginElection.1.finalizeElection 2).leaderAppend [7]).1

/-- An undisturbed round: the first answer commits the entry, and a request of a later term is
served only afterwards. -/
theorem speaks_iff_of_quiet :
    let ops : List HeartbeatOp := [.send, .send, .reply (some (.appendEntriesResponse 1 true 1)),
      .send, .reply none, .serve (.requestVote ⟨2, "b", 1, 1⟩)]
    ∃ s, Steps step (fun _ _ ↦ True) (start leaderOfOne) ops s ∧
      s.sent.map AppendEntries.term = [1, 1] ∧ s.node.commitIndex = 1 ∧ s.Speaks := by
  intro ops
  have hrun : Steps step (Undisturbed 1) (start leaderOfOne) ops _ := steps_exec (by decide +kernel)
  have hall := hrun.mono fun _ _ _ ↦ trivial
  exact ⟨_, hall, by decide +kernel, by decide +kernel,
    (speaks_iff leaderOfOne rfl _ _ hall).mpr hrun⟩

/-- **A follower speaks.** During the first call the leader of term one becomes a follower of term
two, whose leader replaces its entry. The answer commits the new entry. -/
theorem not_speaks_after_step_down : ∃ s, Steps step (fun _ _ ↦ True) (start leaderOfOne)
        [.send, .send, .serve (.appendEntries ⟨2, "c", 0, 0, [⟨2, 1, [9]⟩], 0⟩),
          .reply (some (.appendEntriesResponse 1 true 1)), .send] s ∧
      s.sent.map AppendEntries.term = [1, 2] ∧ s.led = [1] ∧
      s.acks.map (·.before.role) = [.follower] ∧
      s.acks.map (fun a ↦ (a.before.commitIndex, a.after.commitIndex)) = [(0, 1)] ∧
      ¬s.Speaks := by
  refine exists_steps_of_isSome (by decide +kernel) fun _ ↦ ⟨by decide +kernel, by decide +kernel,
    by decide +kernel, by decide +kernel, fun hs ↦ ?_⟩
  exact absurd hs.sent (by decide +kernel)

end Heartbeat

end Synapse
