import Mathlib.Data.List.TakeWhile
import Synapse.Raft.Log
import Synapse.Raft.Rounds

/-!
# Replication to a lagging follower

A new leader sets the next index of every peer to one past the end of its log. The heartbeat round
therefore sends each peer the entries past the end, which are none, together with the last entry as
the consistency check. A follower that has the entry answers with its index; one that does not
refuses, and a refusal does not move the next index back.

So no round changes the follower's log (`Link.Stays`), and the follower holds the leader's log
after some rounds exactly if it held it before them (`Link.caughtUp_within_iff`). The other peers
may answer in any way at all: what is recorded for them is kept apart.
-/

namespace Synapse

open List Option

namespace RaftNode

/-! ## The tables of the leader -/

def matchIndexOf (n : RaftNode) (peer : NodeId) : Option ℕ :=
  (n.position peer).bind (n.matchIndex[·]?)

/-- What the round does with the answer to a call: a success moves the next index of the peer, and
any answer is counted. -/
def recordAnswer (n : RaftNode) (peer : NodeId) : Option WireMessage → RaftNode
  | some (.appendEntriesResponse _ success matchIndex) =>
    (if success then n.advanceNext peer (matchIndex + 1) else n).recordPeerAck peer matchIndex
  | _ => n

section Tables

variable (n : RaftNode) (peer other : NodeId)

/-- A change at the place of one peer is seen by that peer alone. -/
private theorem bind_getElem?_modify (table : List ℕ) (f : ℕ → ℕ) {i : ℕ}
    (hi : n.position peer = some i) :
    (n.position other).bind ((table.modify i f)[·]?) =
      if other = peer then ((n.position other).bind (table[·]?)).map f
      else (n.position other).bind (table[·]?) := by
  by_cases heq : other = peer
  · rw [if_pos heq, heq, hi, bind_some, bind_some, List.getElem?_modify_eq]
    rfl
  rw [if_neg heq]
  rcases hj : n.position other with _ | j
  · rfl
  have hne : i ≠ j := by
    rintro rfl
    have hpeer := n.peers_getElem?_of_position hi
    rw [n.peers_getElem?_of_position hj] at hpeer
    exact heq (some.inj hpeer)
  rw [bind_some, bind_some, List.getElem?_modify_ne _ _ hne]

theorem nextIndexOf_eq :
    n.nextIndexOf peer = ((n.position peer).bind (n.nextIndex[·]?)).getD (n.logLen + 1) := by
  rw [nextIndexOf]
  rcases n.position peer with _ | i <;> rfl

theorem nextIndexOf_advanceNext_of_ne (next : ℕ) (hne : other ≠ peer) :
    (n.advanceNext peer next).nextIndexOf other = n.nextIndexOf other := by
  rw [advanceNext]
  split
  · rename_i i hi
    rw [nextIndexOf_eq, nextIndexOf_eq, set_eq_modify]
    refine congrArg (Option.getD · (n.logLen + 1)) ?_
    exact (bind_getElem?_modify n peer other _ _ hi).trans (if_neg hne)
  · rfl

theorem nextIndexOf_advanceNext_self {next : ℕ} (h : n.nextIndexOf peer = next) :
    (n.advanceNext peer next).nextIndexOf peer = next := by
  rw [advanceNext]
  split
  · rename_i i hi
    have hlook := (bind_getElem?_modify n peer peer n.nextIndex (fun _ ↦ next) hi).trans
      (if_pos rfl)
    rw [nextIndexOf_eq] at h ⊢
    rw [set_eq_modify]
    refine (congrArg (Option.getD · (n.logLen + 1)) hlook).trans ?_
    rcases hval : (n.position peer).bind (n.nextIndex[·]?) with _ | value
    · rwa [hval] at h
    · rfl
  · exact h

theorem matchIndexOf_recordPeerAck (peerMatch : ℕ) :
    (n.recordPeerAck peer peerMatch).matchIndexOf other =
      if other = peer then (n.matchIndexOf other).map (max · peerMatch)
      else n.matchIndexOf other := by
  have hack : (n.recordPeerAck peer peerMatch).matchIndexOf other =
      (n.position other).bind ((n.ackedMatchIndex peer peerMatch)[·]?) := rfl
  rw [hack, ackedMatchIndex]
  rcases hi : n.position peer with _ | i
  · by_cases heq : other = peer
    · rw [if_pos heq, heq, matchIndexOf, hi]
      rfl
    · rw [if_neg heq, matchIndexOf]
  · exact bind_getElem?_modify n peer other _ _ hi

theorem matchIndexOf_advanceNext (next : ℕ) :
    (n.advanceNext peer next).matchIndexOf other = n.matchIndexOf other := by
  rw [advanceNext]
  split <;> rfl

end Tables

/-- The fields of a node that recording an answer leaves alone. -/
structure SameLog (n n' : RaftNode) : Prop where
  id : n'.id = n.id
  peers : n'.peers = n.peers
  log : n'.log = n.log
  currentTerm : n'.currentTerm = n.currentTerm

theorem recordAnswer_sameLog (n : RaftNode) (peer : NodeId) (answer : Option WireMessage) :
    n.SameLog (n.recordAnswer peer answer) := by
  unfold recordAnswer
  split
  · rename_i success matchIndex
    obtain ⟨nextIndex, heq⟩ := n.advanceNext_eq peer (matchIndex + 1)
    rw [heq]
    split_ifs <;> exact ⟨rfl, rfl, rfl, rfl⟩
  · exact ⟨rfl, rfl, rfl, rfl⟩

theorem role_recordAnswer (n : RaftNode) (peer : NodeId) (answer : Option WireMessage) :
    (n.recordAnswer peer answer).role = n.role := by
  unfold recordAnswer
  split
  · rename_i success matchIndex
    obtain ⟨nextIndex, heq⟩ := n.advanceNext_eq peer (matchIndex + 1)
    rw [heq]
    split_ifs <;> rfl
  · rfl

theorem recordAnswer_of_ne (n : RaftNode) {peer other : NodeId} (hne : other ≠ peer)
    (answer : Option WireMessage) :
    (n.recordAnswer peer answer).nextIndexOf other = n.nextIndexOf other ∧
      (n.recordAnswer peer answer).matchIndexOf other = n.matchIndexOf other := by
  unfold recordAnswer
  split
  · rename_i success matchIndex
    rw [matchIndexOf_recordPeerAck, if_neg hne]
    by_cases hsucc : success = true
    · rw [if_pos hsucc]
      exact ⟨n.nextIndexOf_advanceNext_of_ne peer other _ hne,
        n.matchIndexOf_advanceNext peer other _⟩
    · rw [if_neg hsucc]
      exact ⟨rfl, rfl⟩
  · exact ⟨rfl, rfl⟩

/-- The answer of the peer itself: what it reports is counted, and a report that agrees with its
next index leaves that where it is. -/
theorem recordAnswer_self (n : RaftNode) (peer : NodeId) (term : ℕ) (success : Bool)
    (matchIndex : ℕ) (hnext : success = true → n.nextIndexOf peer = matchIndex + 1) :
    (n.recordAnswer peer (some (.appendEntriesResponse term success matchIndex))).nextIndexOf peer =
        n.nextIndexOf peer ∧
      (n.recordAnswer peer
          (some (.appendEntriesResponse term success matchIndex))).matchIndexOf peer =
        (n.matchIndexOf peer).map (max · matchIndex) := by
  rw [recordAnswer, matchIndexOf_recordPeerAck, if_pos rfl]
  by_cases hsucc : success = true
  · rw [if_pos hsucc, matchIndexOf_advanceNext, hnext hsucc]
    exact ⟨n.nextIndexOf_advanceNext_self peer (hnext hsucc), rfl⟩
  · rw [if_neg hsucc]
    exact ⟨rfl, rfl⟩

/-! ## The message of a new leader -/

variable {n : RaftNode}

theorem lastLog_index (hidx : ∀ k e, n.log[k]? = some e → e.index = k + 1) :
    n.lastLog.1 = n.log.length := by
  rw [lastLog, List.getLast?_eq_getElem?]
  rcases hlast : n.log[n.log.length - 1]? with _ | e
  · have := List.getElem?_eq_none_iff.mp hlast
    dsimp only
    omega
  · have := (List.getElem?_eq_some_iff.mp hlast).1
    have := hidx _ e hlast
    dsimp only
    omega

/-- For a next index past the end of the log the message carries no entry, and the last entry is
the consistency check. -/
theorem buildAppendEntries_past_end (hidx : ∀ k e, n.log[k]? = some e → e.index = k + 1) :
    n.buildAppendEntries (n.log.length + 1) =
      ⟨n.currentTerm, n.id, n.log.length, n.lastLog.2, [], n.commitIndex⟩ := by
  have hnil : n.entriesFrom (max (n.log.length + 1) 1) = [] := by
    rw [entriesFrom, if_neg (by omega), dropWhile_eq_nil_iff]
    intro e he
    obtain ⟨k, hk⟩ := mem_iff_getElem?.mp he
    have hlt := (List.getElem?_eq_some_iff.mp hk).1
    rw [decide_eq_true_eq, hidx k e hk]
    omega
  rw [buildAppendEntries, hnil]
  simp only [List.head?_nil, lastLog_index hidx]

theorem nextIndexOf_finalizeElection {votes : ℕ} (hvts : n.majority ≤ votes) (peer : NodeId) :
    (n.finalizeElection votes).nextIndexOf peer = n.log.length + 1 := by
  rw [nextIndexOf_eq, finalizeElection, if_pos hvts]
  change ((n.position peer).bind ((n.nextIndex.map fun _ ↦ n.logLen + 1)[·]?)).getD
    (n.logLen + 1) = n.logLen + 1
  rcases n.position peer with _ | i
  · rfl
  · rw [bind_some, List.getElem?_map]
    rcases n.nextIndex[i]? with _ | next <;> rfl

end RaftNode

/-! ## Rounds between a leader and a follower -/

structure Link where
  leader : RaftNode
  follower : RaftNode

namespace Link

/-- One pass of the loop of `heartbeatAndReplicate`: the leader skips itself, the follower answers
the message, and any other peer as `others` says. -/
def call (others : NodeId → Option WireMessage) (leaderId : NodeId) (s : Link) (peer : NodeId) :
    Link :=
  if peer = leaderId then s
  else if peer = s.follower.id then
    match s.follower.handlePeer
      (.appendEntries (s.leader.buildAppendEntries (s.leader.nextIndexOf peer))) with
    | some (follower, answer) => ⟨s.leader.recordAnswer peer (some answer), follower⟩
    | none => s
  else { s with leader := s.leader.recordAnswer peer (others peer) }

def heartbeatAndReplicate (others : NodeId → Option WireMessage) (s : Link) : Link :=
  s.leader.peers.foldl (call others s.leader.id) s

def rounds (others : ℕ → NodeId → Option WireMessage) (s : Link) : ℕ → Link
  | 0 => s
  | k + 1 => (rounds others s k).heartbeatAndReplicate (others k)

/-- The follower's log begins with the leader's, and the leader knows it. -/
def CaughtUp (s : Link) : Prop :=
  s.follower.log.take s.leader.log.length = s.leader.log ∧
    s.leader.matchIndexOf s.follower.id = some s.leader.log.length

/-- Between the leader made of `n` and the follower `f` only the recorded match index, now `m`, may
have moved. -/
structure Stays (n f : RaftNode) (m : ℕ) (s : Link) : Prop where
  leader : n.SameLog s.leader
  follower : f.SameLog s.follower
  next : s.leader.nextIndexOf f.id = n.log.length + 1
  acked : s.leader.matchIndexOf f.id = some m

def reported (n f : RaftNode) : ℕ :=
  if f.prevOk n.log.length n.lastLog.2 then n.log.length else 0

namespace Stays

variable {n f : RaftNode} {m votes : ℕ} {s : Link}

theorem start (hvts : n.majority ≤ votes) (hmat : n.matchIndexOf f.id = some m) :
    Stays n f m ⟨n.finalizeElection votes, f⟩ where
  leader := ⟨by simp, by simp, by simp, by simp⟩
  follower := ⟨rfl, rfl, rfl, rfl⟩
  next := RaftNode.nextIndexOf_finalizeElection hvts f.id
  acked := by
    rw [← hmat, RaftNode.finalizeElection, if_pos hvts]
    rfl

theorem call_of_ne (h : Stays n f m s) (others : NodeId → Option WireMessage) {peer : NodeId}
    (hpeer : peer ≠ f.id) : Stays n f m (s.call others n.id peer) := by
  rw [call, h.follower.id, if_neg hpeer]
  by_cases hself : peer = n.id
  · rwa [if_pos hself]
  rw [if_neg hself]
  have hsame := s.leader.recordAnswer_sameLog peer (others peer)
  obtain ⟨hnext, hmat⟩ := s.leader.recordAnswer_of_ne hpeer.symm (others peer)
  exact ⟨⟨hsame.id.trans h.leader.id, hsame.peers.trans h.leader.peers,
    hsame.log.trans h.leader.log, hsame.currentTerm.trans h.leader.currentTerm⟩, h.follower,
    hnext.trans h.next, hmat.trans h.acked⟩

/-- The follower is visited: it looks for the last entry of the leader's log and keeps its own. -/
theorem call_follower (h : Stays n f m s) (others : NodeId → Option WireMessage)
    (hidx : ∀ k e, n.log[k]? = some e → e.index = k + 1) (hne : f.id ≠ n.id)
    (hterm : f.currentTerm = n.currentTerm) :
    Stays n f (max m (reported n f)) (s.call others n.id f.id) := by
  have hlast : s.leader.lastLog = n.lastLog := by
    rw [RaftNode.lastLog, RaftNode.lastLog, h.leader.log]
  have hmsg := RaftNode.buildAppendEntries_past_end (n := s.leader) (by rwa [h.leader.log])
  rw [h.leader.log, hlast, h.leader.currentTerm, h.leader.id] at hmsg
  have hacc : s.follower.accepts n.currentTerm n.log.length n.lastLog.2 =
      f.prevOk n.log.length n.lastLog.2 := by
    rw [RaftNode.accepts, h.follower.currentTerm, hterm, decide_eq_true le_rfl, Bool.true_and,
      RaftNode.prevOk, RaftNode.prevOk, h.follower.log]
  have hreported : (if f.prevOk n.log.length n.lastLog.2 then
      (⟨n.currentTerm, n.id, n.log.length, n.lastLog.2, [], s.leader.commitIndex⟩ :
        AppendEntries).matchIndex else 0) = reported n f := rfl
  rw [call, if_neg hne, h.follower.id, if_pos rfl, h.next, hmsg,
    RaftNode.handlePeer_appendEntries, RaftNode.takes, hacc, hreported]
  dsimp only
  have hsame := s.leader.recordAnswer_sameLog f.id
    (some (.appendEntriesResponse (max s.follower.currentTerm n.currentTerm)
      (f.prevOk n.log.length n.lastLog.2) (reported n f)))
  obtain ⟨hnext, hmat⟩ := s.leader.recordAnswer_self f.id
    (max s.follower.currentTerm n.currentTerm) (f.prevOk n.log.length n.lastLog.2)
    (reported n f) fun hok ↦ by rw [h.next, reported, if_pos hok]
  refine ⟨⟨hsame.id.trans h.leader.id, hsame.peers.trans h.leader.peers,
    hsame.log.trans h.leader.log, hsame.currentTerm.trans h.leader.currentTerm⟩,
    ⟨?_, ?_, ?_, ?_⟩, hnext.trans h.next, hmat.trans ?_⟩
  · simp [h.follower.id]
  · simp [h.follower.peers]
  · rw [RaftNode.handleAppendEntries_log, RaftNode.appendLoop, ite_self, h.follower.log]
  · rw [RaftNode.handleAppendEntries_currentTerm, h.follower.currentTerm, hterm, Nat.max_self]
  · rw [h.acked]
    rfl

variable (hidx : ∀ k e, n.log[k]? = some e → e.index = k + 1) (hne : f.id ≠ n.id)
  (hterm : f.currentTerm = n.currentTerm)

include hidx hne hterm

theorem foldl_call (others : NodeId → Option WireMessage) (peers : List NodeId)
    (h : Stays n f m s) :
    Stays n f (if f.id ∈ peers then max m (reported n f) else m)
      (peers.foldl (call others n.id) s) := by
  induction peers generalizing m s with
  | nil => exact h
  | cons peer peers ih =>
    rw [foldl_cons]
    by_cases hpeer : peer = f.id
    · have hlat := ih (h.call_follower others hidx hne hterm)
      rw [Nat.max_assoc, Nat.max_self, ite_self] at hlat
      rwa [hpeer, if_pos mem_cons_self]
    · have hlat := ih (h.call_of_ne others hpeer)
      simpa only [mem_cons, Ne.symm hpeer, false_or] using hlat

theorem heartbeatAndReplicate (others : NodeId → Option WireMessage) (hmem : f.id ∈ n.peers)
    (h : Stays n f m s) :
    Stays n f (max m (reported n f)) (s.heartbeatAndReplicate others) := by
  have hrd := foldl_call hidx hne hterm others n.peers h
  rwa [if_pos hmem, ← h.leader.id, ← h.leader.peers] at hrd

theorem rounds (others : ℕ → NodeId → Option WireMessage) (hmem : f.id ∈ n.peers)
    (h : Stays n f m s) (k : ℕ) :
    Stays n f (if k = 0 then m else max m (reported n f)) (s.rounds others k) := by
  induction k with
  | zero => exact h
  | succ k ih =>
    have hrd := heartbeatAndReplicate hidx hne hterm (others k) hmem ih
    rw [if_neg k.succ_ne_zero]
    rcases Nat.eq_zero_or_pos k with rfl | hpos
    · exact hrd
    · rwa [if_neg hpos.ne', Nat.max_assoc, Nat.max_self] at hrd

end Stays

theorem prevOk_of_isPrefix {n f : RaftNode} (h : n.log <+: f.log) :
    f.prevOk n.log.length n.lastLog.2 = true := by
  rw [RaftNode.prevOk]
  split_ifs with hzero
  · rfl
  have hlast := getElem?_eq_getElem (l := n.log) (i := n.log.length - 1) (by omega)
  have hget := getElem?_of_isPrefix h hlast
  have hterm : n.lastLog.2 = n.log[n.log.length - 1].term := by
    rw [RaftNode.lastLog, List.getLast?_eq_getElem?, hlast]
  rw [hget, hterm]
  exact beq_self_eq_true _

/-- **Catching up.** A leader is elected, and heartbeat rounds reach a follower of its term. Within
as many rounds as the leader's log is long, and two, the follower's log begins with the leader's and
the leader has recorded its length, exactly if the follower's log began with it before, and the
record from before the election is no longer than the log. -/
theorem caughtUp_within_iff {n f : RaftNode} {votes m : ℕ}
    (others : ℕ → NodeId → Option WireMessage) (hvotes : n.majority ≤ votes)
    (hidx : ∀ k e, n.log[k]? = some e → e.index = k + 1) (hne : f.id ≠ n.id)
    (hterm : f.currentTerm = n.currentTerm) (hmem : f.id ∈ n.peers)
    (hmatch : n.matchIndexOf f.id = some m) :
    (∃ k ≤ n.log.length + 2, (rounds others ⟨n.finalizeElection votes, f⟩ k).CaughtUp) ↔
      n.log <+: f.log ∧ m ≤ n.log.length := by
  have hstays := Stays.rounds hidx hne hterm others hmem (Stays.start hvotes hmatch)
  constructor
  · rintro ⟨k, -, htake, hacked⟩
    have hk := hstays k
    rw [hk.leader.log, hk.follower.log] at htake
    rw [hk.leader.log, hk.follower.id, hk.acked] at hacked
    refine ⟨prefix_iff_eq_take.mpr htake.symm, ?_⟩
    rw [← some.inj hacked]
    split_ifs
    · exact le_rfl
    · exact le_max_left _ _
  · rintro ⟨hpre, hle⟩
    have hone := hstays 1
    refine ⟨1, by omega, ?_, ?_⟩
    · rw [hone.leader.log, hone.follower.log]
      exact (prefix_iff_eq_take.mp hpre).symm
    · rw [hone.leader.log, hone.follower.id, hone.acked, if_neg Nat.one_ne_zero, reported,
        if_pos (prevOk_of_isPrefix hpre), Nat.max_eq_right hle]

def candidateOfOne : RaftNode :=
  { (RaftNode.new "a" ["a", "b", "c"] {}).beginElection.1 with log := [⟨1, 1, [7]⟩] }

def voterWith (log : List Entry) : RaftNode :=
  { RaftNode.new "b" ["a", "b", "c"] {} with currentTerm := 1, log := log }

theorem caughtUp_within_same_log : ∃ k ≤ 3, (rounds (fun _ _ ↦ none)
      ⟨candidateOfOne.finalizeElection 2, voterWith [⟨1, 1, [7]⟩]⟩ k).CaughtUp :=
  (caughtUp_within_iff (n := candidateOfOne) (f := voterWith [⟨1, 1, [7]⟩]) (m := 0) _ (by decide)
    (by simp [candidateOfOne, List.getElem?_singleton]) (by decide) (by decide) (by decide)
    (by decide)).mpr (by decide)

/-- A follower with an empty log never receives the leader's first entry, however many rounds
reach it. -/
theorem not_caughtUp_of_empty : ¬∃ k, (rounds (fun _ _ ↦ none)
      ⟨candidateOfOne.finalizeElection 2, voterWith []⟩ k).CaughtUp := by
  rintro ⟨k, htake, -⟩
  have hstart : Stays candidateOfOne (voterWith []) 0
    ⟨candidateOfOne.finalizeElection 2, voterWith []⟩ := .start (by decide) (by decide)
  have hstays := Stays.rounds (by simp [candidateOfOne, List.getElem?_singleton]) (by decide)
    (by decide) (fun _ _ ↦ none) (by decide) hstart k
  rw [hstays.leader.log, hstays.follower.log] at htake
  cases htake

end Link

end Synapse
