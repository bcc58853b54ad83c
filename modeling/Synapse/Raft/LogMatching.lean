import Mathlib.Logic.Function.Basic
import Synapse.Lib.Run
import Synapse.Raft.Log

/-!
# Log matching

A cluster in which every node may do anything `RaftNode` offers, at any time and with any
arguments, and in which `AppendEntries` messages are delivered in any order, any number of times or
never. The one assumption is that a term has at most one node acting as its leader, that is,
appending to its own log and sending messages cut from it.

`LogInv` carries a ghost `termLog`, the log of the acting leader of each term. Every node's log and
every leader's log is backed by it, and a message in flight is cut from an initial part of the
leader's log of its term. The lemmas about single steps do not depend on how a node comes to act as
leader.
-/

open Function

namespace Synapse

open Transition List Option

structure Envelope where
  dest : NodeId
  msg : AppendEntries
deriving DecidableEq, Repr

/-! ## The invariant -/

/-- The logs of nodes and leaders and the messages in flight, over the log of each term's
leader. -/
structure LogInv (nodes : NodeId → RaftNode) (sent : List Envelope) (leader : ℕ → Option NodeId)
    (termLog : ℕ → List Entry) : Prop where
  log : ∀ v, Backed termLog (nodes v).log
  log_term_le : ∀ v, ∀ e ∈ (nodes v).log, e.term ≤ (nodes v).currentTerm
  termLog_backed : ∀ t, Backed termLog (termLog t)
  termLog_term_le : ∀ t, ∀ e ∈ termLog t, e.term ≤ t
  idle : ∀ t, leader t = none → termLog t = []
  leader_term_le : ∀ t v, leader t = some v → t ≤ (nodes v).currentTerm
  leader_log : ∀ t v, leader t = some v → (nodes v).currentTerm = t → termLog t <+: (nodes v).log
  message : ∀ m ∈ sent, ∃ log, log <+: termLog m.msg.term ∧ m.msg.CutFrom log

namespace LogInv

variable {nodes : NodeId → RaftNode} {sent : List Envelope} {leader : ℕ → Option NodeId}
  {termLog : ℕ → List Entry}

theorem init (peers : NodeId → List NodeId) (store : NodeId → StateStore) :
    LogInv (fun id ↦ RaftNode.new id (peers id) (store id)) [] (fun _ ↦ none) fun _ ↦ [] :=
  ⟨fun _ ↦ Backed.nil _, by simp [RaftNode.new], fun _ ↦ Backed.nil _, by simp,
    fun _ _ ↦ rfl, by simp, by simp, by simp⟩

section

variable (h : LogInv nodes sent leader termLog) (v : NodeId)

include h

theorem index_eq (k : ℕ) (e : Entry)
    (he : (nodes v).log[k]? = some e) : e.index = k + 1 := (h.log v k e he).1

theorem replace (n : RaftNode)
    (hterm : (nodes v).currentTerm ≤ n.currentTerm) (hlog : Backed termLog n.log)
    (hle : ∀ e ∈ n.log, e.term ≤ n.currentTerm)
    (hlead : leader n.currentTerm = some v → (nodes v).currentTerm = n.currentTerm →
      termLog n.currentTerm <+: n.log) :
    LogInv (update nodes v n) sent leader termLog where
  log := (forall_update_iff nodes fun _ n ↦ Backed termLog n.log).mpr ⟨hlog, fun w _ ↦ h.log w⟩
  log_term_le := (forall_update_iff nodes fun _ n ↦ ∀ e ∈ n.log, e.term ≤ n.currentTerm).mpr
    ⟨hle, fun w _ ↦ h.log_term_le w⟩
  termLog_backed := h.termLog_backed
  termLog_term_le := h.termLog_term_le
  idle := h.idle
  leader_term_le t := (forall_update_iff nodes fun w n ↦ leader t = some w → t ≤ n.currentTerm).mpr
      ⟨fun ht ↦ (h.leader_term_le t v ht).trans hterm, fun w _ ↦ h.leader_term_le t w⟩
  leader_log t := by
    refine (forall_update_iff nodes fun w n ↦ leader t = some w → n.currentTerm = t →
      termLog t <+: n.log).mpr ⟨?_, fun w _ ↦ h.leader_log t w⟩
    rintro ht rfl
    exact hlead ht (le_antisymm hterm (h.leader_term_le _ v ht))
  message := h.message

theorem replace_of_log_eq (n : RaftNode)
    (hlog : n.log = (nodes v).log) (hterm : (nodes v).currentTerm ≤ n.currentTerm) :
    LogInv (update nodes v n) sent leader termLog := by
  refine h.replace v n hterm (hlog ▸ h.log v) ?_ ?_
  · rw [hlog]
    exact fun e he ↦ (h.log_term_le v e he).trans hterm
  · intro hlead heq
    rw [hlog]
    exact h.leader_log _ v hlead heq

end

variable {t : ℕ}

variable (h : LogInv nodes sent leader termLog)

include h

theorem termLog_grows {v : NodeId} {log : List Entry}
    (hfree : leader t = none ∨ leader t = some v) (hterm : (nodes v).currentTerm = t)
    (hpre : (nodes v).log <+: log) (u : ℕ) : termLog u <+: update termLog t log u := by
  by_cases hu : u = t
  · subst hu
    rw [update_self]
    rcases hfree with hnone | hsome
    · rw [h.idle u hnone]
      exact nil_prefix
    · exact (h.leader_log u v hsome hterm).trans hpre
  · rw [update_of_ne hu]

variable (v : NodeId)

/-- A node whose term has no other leader acts as its leader: it may extend its log, and the log of
the term becomes its own. -/
theorem extend (n : RaftNode) (hfree : leader t = none ∨ leader t = some v)
    (hterm : (nodes v).currentTerm = t) (hterm' : n.currentTerm = t)
    (hpre : (nodes v).log <+: n.log) (hback : Backed (update termLog t n.log) n.log)
    (hle : ∀ e ∈ n.log, e.term ≤ t) :
    LogInv (update nodes v n) sent (update leader t (some v)) (update termLog t n.log) := by
  have hgrow := h.termLog_grows hfree hterm hpre
  have hoth : ∀ u w, w ≠ v → update leader t (some v) u = some w → u ≠ t ∧ leader u = some w := by
    intro u w hw hu
    have hne : u ≠ t := by
      rintro rfl
      rw [update_self] at hu
      exact hw (some.inj hu).symm
    rw [update_of_ne hne] at hu
    exact ⟨hne, hu⟩
  refine ⟨?_, ?_, ?_, ?_, fun u hu ↦ ?_, fun u ↦ ?_, fun u ↦ ?_, fun m hm ↦ ?_⟩
  · exact (forall_update_iff nodes fun _ n ↦ Backed _ n.log).mpr
      ⟨hback, fun w _ ↦ (h.log w).mono hgrow⟩
  · exact (forall_update_iff nodes fun _ n ↦ ∀ e ∈ n.log, e.term ≤ n.currentTerm).mpr
      ⟨hterm' ▸ hle, fun w _ ↦ h.log_term_le w⟩
  · exact (forall_update_iff termLog fun _ log ↦ Backed _ log).mpr
      ⟨hback, fun u _ ↦ (h.termLog_backed u).mono hgrow⟩
  · exact (forall_update_iff termLog fun u log ↦ ∀ e ∈ log, e.term ≤ u).mpr
      ⟨hle, fun u _ ↦ h.termLog_term_le u⟩
  · have hne : u ≠ t := by rintro rfl; simp at hu
    rw [update_of_ne hne] at hu ⊢
    exact h.idle u hu
  · refine (forall_update_iff nodes fun w n ↦ _ = some w → u ≤ n.currentTerm).mpr
      ⟨fun hu ↦ ?_, fun w hw hu ↦ h.leader_term_le u w (hoth u w hw hu).2⟩
    rw [hterm']
    by_cases heq : u = t
    · exact heq.le
    · rw [update_of_ne heq] at hu
      exact hterm ▸ h.leader_term_le u v hu
  · refine (forall_update_iff nodes fun w n ↦ _ = some w → n.currentTerm = u → _ <+: n.log).mpr
      ⟨fun _ hu ↦ ?_, fun w hw hu hwu ↦ ?_⟩
    · rw [← hu, hterm', update_self]
    · obtain ⟨hne, hlead⟩ := hoth u w hw hu
      rw [update_of_ne hne]
      exact h.leader_log u w hlead hwu
  · obtain ⟨log, hlog, hcut⟩ := h.message m hm
    exact ⟨log, hlog.trans (hgrow _), hcut⟩

theorem lead (n : RaftNode) (hfree : leader t = none ∨ leader t = some v)
    (hterm : (nodes v).currentTerm = t) (hterm' : n.currentTerm = t) (hlog : n.log = (nodes v).log)
    :
    LogInv (update nodes v n) sent (update leader t (some v)) (update termLog t n.log) := by
  have hpre : (nodes v).log <+: n.log := hlog ▸ prefix_rfl
  refine h.extend v n hfree hterm hterm' hpre ?_ ?_
  · have hback := (h.log v).mono (h.termLog_grows hfree hterm hpre)
    rwa [← hlog] at hback
  · rw [hlog, ← hterm]
    exact h.log_term_le v

theorem leaderAppend (data : Bytes)
    (hfree : leader (nodes v).currentTerm = none ∨ leader (nodes v).currentTerm = some v) :
    LogInv (update nodes v ((nodes v).leaderAppend data).1) sent
      (update leader (nodes v).currentTerm (some v))
      (update termLog (nodes v).currentTerm ((nodes v).leaderAppend data).1.log) := by
  have hpre : (nodes v).log <+: ((nodes v).leaderAppend data).1.log := prefix_append _ _
  refine h.extend v _ hfree rfl rfl hpre ?_ ?_
  · have hback := (h.log v).mono (h.termLog_grows hfree rfl hpre)
    exact hback.concat rfl (by rw [update_self]; exact prefix_rfl)
  · exact forall_mem_append.mpr ⟨h.log_term_le v, forall_mem_singleton.mpr le_rfl⟩

theorem send (dest : NodeId) (next : ℕ) (hlog : (nodes v).log <+: termLog (nodes v).currentTerm) :
    LogInv nodes (sent ++ [⟨dest, (nodes v).buildAppendEntries next⟩]) leader termLog := by
  refine { h with
    message := forall_mem_append.mpr ⟨h.message, forall_mem_singleton.mpr ?_⟩ }
  exact ⟨(nodes v).log, hlog, (nodes v).buildAppendEntries_cutFrom (h.index_eq v) next⟩

theorem log_handleAppendEntries {m : AppendEntries} {sender : List Entry}
    (hpre : sender <+: termLog m.term) (hcut : m.CutFrom sender) :
    ((nodes v).told m).log = if (nodes v).takes m then
        if sender <+: (nodes v).log then (nodes v).log else sender
      else (nodes v).log := by
  have hsen := (h.termLog_backed m.term).of_isPrefix hpre
  rw [RaftNode.told_log]
  by_cases hacc : (nodes v).takes m = true
  · rw [if_pos hacc, if_pos hacc]
    exact RaftNode.appendLoop_of_cutFrom (nodes v) m (h.log v) hsen hcut hacc
  · rw [if_neg hacc, if_neg hacc]

theorem deliver {m : Envelope} (hm : m ∈ sent) :
    LogInv (update nodes v ((nodes v).told m.msg)) sent leader termLog := by
  obtain ⟨sender, hpre, hcut⟩ := h.message m hm
  have hlog := h.log_handleAppendEntries v hpre hcut
  have hterm := (nodes v).told_currentTerm m.msg
  have hle := ((nodes v).told_follows m.msg).term_le
  split_ifs at hlog with hacc hsub
  · exact h.replace_of_log_eq v _ hlog hle
  · -- the sender's log replaces the receiver's
    rw [Nat.max_eq_right (RaftNode.term_le_of_takes hacc)] at hterm
    refine h.replace v _ hle ?_ ?_ ?_
    · rw [hlog]
      exact (h.termLog_backed _).of_isPrefix hpre
    · rw [hlog, hterm]
      exact fun e he ↦ h.termLog_term_le _ e (hpre.mem he)
    · rw [hlog, hterm]
      intro hlead heq
      exact absurd (hpre.trans (h.leader_log _ v hlead heq)) hsub
  · exact h.replace_of_log_eq v _ hlog hle

end LogInv

/-! ## The cluster -/

/-- The operations of a node that neither touch its log nor send anything. -/
inductive NodeOp
  | beginElection
  | finalizeElection (votes : ℕ)
  | requestVote (m : RequestVote)
  | advanceNext (peer : NodeId) (next : ℕ)
  | recordPeerAck (peer : NodeId) (peerMatch : ℕ)
  | commitUpTo (idx : ℕ)
  | applyCommitted
deriving DecidableEq, Repr

def RaftNode.perform (n : RaftNode) : NodeOp → RaftNode
  | .beginElection => n.beginElection.1
  | .finalizeElection votes => n.finalizeElection votes
  | .requestVote m =>
    (n.handleRequestVote m.term m.candidateId m.lastLogIndex m.lastLogTerm).1
  | .advanceNext peer next => n.advanceNext peer next
  | .recordPeerAck peer peerMatch => n.recordPeerAck peer peerMatch
  | .commitUpTo idx => n.commitUpTo idx
  | .applyCommitted => n.applyCommitted.1

theorem RaftNode.perform_log (n : RaftNode) (op : NodeOp) : (n.perform op).log = n.log := by
  cases op with
  | advanceNext peer next => rw [perform, advanceNext]; split <;> rfl
  | _ => simp [perform, beginElection, recordPeerAck, commitUpTo, applyCommitted]

theorem RaftNode.le_perform_currentTerm (n : RaftNode) (op : NodeOp) :
    n.currentTerm ≤ (n.perform op).currentTerm := by
  cases op with
  | requestVote m =>
    rw [perform, handleRequestVote_currentTerm]
    exact le_max_left _ _
  | advanceNext peer next => rw [perform, advanceNext]; split <;> rfl
  | _ => simp [perform, beginElection, recordPeerAck, commitUpTo, applyCommitted]

/-- A cluster, the `AppendEntries` messages sent so far, each of which may be delivered again, late
or never, and the acting leader of each term. -/
structure Cluster where
  nodes : NodeId → RaftNode
  sent : List Envelope
  actor : ℕ → Option NodeId

inductive ClusterOp
  /-- Any operation of a node that leaves its log alone. -/
  | perform (id : NodeId) (op : NodeOp)
  /-- A node acts as leader and appends to its log. -/
  | leaderAppend (id : NodeId) (data : Bytes)
  /-- A node acts as leader and sends what it has for a peer from `next` on. -/
  | send (id dest : NodeId) (next : ℕ)
  | deliver (k : ℕ)
deriving DecidableEq, Repr

namespace Cluster

def init (peers : NodeId → List NodeId) (store : NodeId → StateStore) : Cluster where
  nodes id := RaftNode.new id (peers id) (store id)
  sent := []
  actor _ := none

def setNode (c : Cluster) (id : NodeId) (n : RaftNode) : Cluster :=
  { c with nodes := update c.nodes id n }

def act (c : Cluster) (id : NodeId) : Cluster :=
  { c with actor := update c.actor (c.nodes id).currentTerm (some id) }

def step (c : Cluster) : ClusterOp → Option Cluster
  | .perform id op => some (c.setNode id ((c.nodes id).perform op))
  | .leaderAppend id data => some ((c.act id).setNode id ((c.nodes id).leaderAppend data).1)
  | .send id dest next =>
    some { c.act id with sent := c.sent ++ [⟨dest, (c.nodes id).buildAppendEntries next⟩] }
  | .deliver k => do
    let m ← c.sent[k]?
    let (n, _) ← (c.nodes m.dest).handlePeer (.appendEntries m.msg)
    return c.setNode m.dest n

/-- A node acts as leader only in a term no other node has acted in. -/
def SoleActor (c : Cluster) : ClusterOp → Prop
  | .leaderAppend id _ | .send id _ _ =>
    c.actor (c.nodes id).currentTerm = none ∨ c.actor (c.nodes id).currentTerm = some id
  | _ => True

instance (c : Cluster) (op : ClusterOp) : Decidable (c.SoleActor op) := by
  cases op <;> dsimp only [SoleActor] <;> infer_instance

def Inv (c : Cluster) : Prop := ∃ termLog, LogInv c.nodes c.sent c.actor termLog

theorem Inv.step {c c' : Cluster} {op : ClusterOp} (h : c.Inv) (hok : c.SoleActor op)
    (hstep : c.step op = some c') : c'.Inv := by
  obtain ⟨termLog, h⟩ := h
  cases op with
  | perform id op =>
    cases hstep
    exact ⟨termLog, h.replace_of_log_eq id _ (RaftNode.perform_log _ op)
      (RaftNode.le_perform_currentTerm _ op)⟩
  | leaderAppend id data =>
    cases hstep
    exact ⟨_, h.leaderAppend id data hok⟩
  | send id dest next =>
    cases hstep
    -- acting makes the sender's log the log of its term, from which the message is then cut
    have hlead := h.lead id (c.nodes id) hok rfl rfl rfl
    rw [Function.update_eq_self] at hlead
    exact ⟨_, hlead.send id dest next (by rw [update_self])⟩
  | deliver k =>
    rw [Cluster.step] at hstep
    obtain ⟨m, hm, hstep⟩ := bind_eq_some_iff.mp hstep
    rw [RaftNode.handlePeer_appendEntries] at hstep
    cases hstep
    exact ⟨termLog, h.deliver m.dest (mem_of_getElem? hm)⟩

/-- **Log matching.** In every run in which each term has at most one acting leader, entries sit at
their own index, and two logs with entries of the same index and term are the same up to there. -/
theorem run_log_matching {peers : NodeId → List NodeId} {store : NodeId → StateStore}
    {ops : List ClusterOp} {c : Cluster}
    (hrun : Steps step SoleActor (init peers store) ops c) :
    (∀ v k e, (c.nodes v).log[k]? = some e → e.index = k + 1) ∧
      ∀ v w e e', e ∈ (c.nodes v).log → e' ∈ (c.nodes w).log → e.index = e'.index →
        e.term = e'.term → (c.nodes v).log.take e.index = (c.nodes w).log.take e.index := by
  obtain ⟨termLog, h⟩ :=
    hrun.invariant Inv (fun _ _ _ h hok hstep ↦ h.step hok hstep) ⟨_, .init peers store⟩
  refine ⟨h.index_eq, fun v w e e' he he' hindex hterm ↦ ?_⟩
  obtain ⟨k, hk⟩ := List.getElem?_of_mem he
  obtain ⟨k', hk'⟩ := List.getElem?_of_mem he'
  have heq := h.index_eq v k e hk
  have heq' := h.index_eq w k' e' hk'
  obtain rfl : k = k' := by omega
  rw [heq]
  exact (h.log v).agree (h.log w) hk hk' hterm

/-- A stale entry is replaced: `a` leads and keeps its second entry to itself, `b` leads next and
overwrites it. -/
theorem run_log_matching_two_leaders :
    ∃ c, Steps step SoleActor (init (fun _ ↦ ["a", "b", "c"]) fun _ ↦ {})
        [.perform "a" .beginElection, .perform "a" (.finalizeElection 2),
          .leaderAppend "a" [1], .send "a" "b" 1, .leaderAppend "a" [2], .deliver 0,
          .perform "b" (.requestVote ⟨1, "a", 0, 0⟩), .perform "b" .beginElection,
          .leaderAppend "b" [3], .send "b" "a" 2, .deliver 1, .deliver 0] c ∧
      (c.nodes "a").log = [⟨1, 1, [1]⟩, ⟨2, 2, [3]⟩] ∧
      (c.nodes "a").log.take 2 = (c.nodes "b").log.take 2 := by
  refine exists_steps_of_isSome (by decide +kernel) fun hrun ↦ ⟨by decide +kernel, ?_⟩
  exact (run_log_matching hrun).2 "a" "b" ⟨2, 2, [3]⟩ ⟨2, 2, [3]⟩ (by decide +kernel)
    (by decide +kernel) rfl rfl

end Cluster

end Synapse
