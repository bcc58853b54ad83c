import Mathlib.Data.List.Forall2
import Synapse.Raft.Ledger

/-!
# State-machine safety

Committed entries are settled: the commit index of a node, and the one a message carries, covers an
initial part of a log that a majority has held for the leader of its last term. By leader
completeness such logs are comparable, so nodes apply the same entries.

`finalize_election` resets the next indices of a new leader but not its acknowledgement table, so
acknowledgements from an earlier leadership of the same node count towards the commit index
(`stale_acks_unsafe`). The results are therefore about runs in which a new leader's table reaches no
further than its commit index (`Network.FreshAcks`).
-/

open Function

namespace Synapse

open Quorum Transition List Option

/-! ## Commitment -/

/-- Commit indices cover settled entries, acknowledgements that count are of the present term, and
nodes have applied what they have committed. -/
structure CommitInv (members : List NodeId) (nodes : NodeId → RaftNode) (sent : List Envelope)
    (acks : List Ack) (applied : NodeId → List Entry) (H : History) : Prop where
  commit_le : ∀ v, (nodes v).commitIndex ≤ (nodes v).log.length
  settled : ∀ v,
    Settled members H (nodes v).currentTerm ((nodes v).log.take (nodes v).commitIndex)
  message : ∀ m ∈ sent, m.dest ≠ m.msg.leaderId ∧ ∃ log, log <+: H.termLog m.msg.term ∧
    m.msg.CutFrom log ∧ m.msg.leaderCommit ≤ log.length ∧
    Settled members H m.msg.term (log.take m.msg.leaderCommit)
  ack : ∀ a ∈ acks, a.peer ≠ a.leader ∧ a.matchIndex ≤ H.acked a.term a.peer
  matchIndex_length : ∀ v, (nodes v).matchIndex.length = members.length
  matched : ∀ v, (nodes v).role = .leader → List.Forall₂ (fun p m ↦
    m ≤ (nodes v).commitIndex ∨ p ≠ v ∧ m ≤ H.acked (nodes v).currentTerm p)
    members (nodes v).matchIndex
  lastApplied_le : ∀ v, (nodes v).lastApplied ≤ (nodes v).commitIndex
  applied_eq : ∀ v, applied v = (nodes v).log.take (nodes v).lastApplied

namespace CommitInv

variable {members : List NodeId} {nodes : NodeId → RaftNode} {sent : List Envelope}
  {acks : List Ack} {applied : NodeId → List Entry} {H H' : History}

theorem move (h : CommitInv members nodes sent acks applied H) (v : NodeId) (n : RaftNode)
    (done : List Entry) (hext : H.Extends H') (hlen : n.commitIndex ≤ n.log.length)
    (hsett : Settled members H' n.currentTerm (n.log.take n.commitIndex))
    (hmatchLen : n.matchIndex.length = (nodes v).matchIndex.length)
    (hmatched : n.role = .leader → List.Forall₂ (fun p m ↦
      m ≤ n.commitIndex ∨ p ≠ v ∧ m ≤ H'.acked n.currentTerm p) members n.matchIndex)
    (hle : n.lastApplied ≤ n.commitIndex) (hdone : done = n.log.take n.lastApplied) :
    CommitInv members (update nodes v n) sent acks (update applied v done) H' where
  commit_le := (forall_update_iff nodes fun _ n ↦ n.commitIndex ≤ n.log.length).mpr
    ⟨hlen, fun w _ ↦ h.commit_le w⟩
  settled := (forall_update_iff nodes fun _ n ↦ Settled members H' n.currentTerm
    (n.log.take n.commitIndex)).mpr ⟨hsett, fun w _ ↦ (h.settled w).mono hext le_rfl⟩
  message m hm := by
    obtain ⟨hne, log, hpre, hcut, hcom, hset⟩ := h.message m hm
    exact ⟨hne, log, hpre.trans (hext.termLog _), hcut, hcom, hset.mono hext le_rfl⟩
  ack a ha := ⟨(h.ack a ha).1, (h.ack a ha).2.trans (hext.acked _ _)⟩
  matchIndex_length := (forall_update_iff nodes fun _ n ↦ n.matchIndex.length = members.length).mpr
    ⟨hmatchLen.trans (h.matchIndex_length v), fun w _ ↦ h.matchIndex_length w⟩
  matched := by
    refine (forall_update_iff nodes fun w n ↦ n.role = .leader → List.Forall₂ (fun p m ↦
      m ≤ n.commitIndex ∨ p ≠ w ∧ m ≤ H'.acked n.currentTerm p) members n.matchIndex).mpr
        ⟨hmatched, fun w _ hr ↦ (h.matched w hr).imp fun p m hm ↦ ?_⟩
    exact hm.imp_right fun hm ↦ ⟨hm.1, hm.2.trans (hext.acked _ _)⟩
  lastApplied_le := (forall_update_iff nodes fun _ n ↦ n.lastApplied ≤ n.commitIndex).mpr
    ⟨hle, fun w _ ↦ h.lastApplied_le w⟩
  applied_eq w := by
    by_cases hw : w = v
    · subst hw
      rw [update_self, update_self, hdone]
    · rw [update_of_ne hw, update_of_ne hw, h.applied_eq w]

theorem addAck (h : CommitInv members nodes sent acks applied H) {a : Ack}
    (hne : a.peer ≠ a.leader) (hle : a.matchIndex ≤ H.acked a.term a.peer) :
    CommitInv members nodes sent (acks ++ [a]) applied H :=
  { h with ack := forall_mem_append.mpr ⟨h.ack, forall_mem_singleton.mpr ⟨hne, hle⟩⟩ }

variable {v : NodeId}

theorem keep (h : CommitInv members nodes sent acks applied H) {n : RaftNode} (hext : H.Extends H')
    (hterm : (nodes v).currentTerm ≤ n.currentTerm) (hlog : n.log = (nodes v).log)
    (hcom : n.commitIndex = (nodes v).commitIndex) (hmat : n.matchIndex = (nodes v).matchIndex)
    (hapl : n.lastApplied = (nodes v).lastApplied)
    (hlead : n.role = .leader → (nodes v).role = .leader ∧ n.currentTerm = (nodes v).currentTerm) :
    CommitInv members (update nodes v n) sent acks applied H' := by
  have hmove := h.move v n (applied v) hext ?_ ?_ (by rw [hmat]) ?_ ?_ ?_
  · rwa [Function.update_eq_self] at hmove
  · rw [hcom, hlog]
    exact h.commit_le v
  · rw [hcom, hlog]
    exact (h.settled v).mono hext hterm
  · intro hr
    obtain ⟨hrole, heq⟩ := hlead hr
    rw [hcom, hmat, heq]
    refine (h.matched v hrole).imp fun p m hm ↦ ?_
    exact hm.imp_right fun hm ↦ ⟨hm.1, hm.2.trans (hext.acked _ _)⟩
  · rw [hapl, hcom]
    exact h.lastApplied_le v
  · rw [hapl, hlog]
    exact h.applied_eq v

/-- A node follows a leader: its log keeps what it has committed and has all of `sender`, of which
`leaderCommit` entries are settled. -/
theorem follow (h : CommitInv members nodes sent acks applied H) {n : RaftNode}
    {sender : List Entry} {leaderCommit : ℕ} (hext : H.Extends H') (hfol : (nodes v).Follows n)
    (hcomd : (nodes v).log.take (nodes v).commitIndex <+: n.log) (hsen : sender <+: n.log)
    (hlc : leaderCommit ≤ sender.length)
    (hset : Settled members H n.currentTerm (sender.take leaderCommit))
    (hmv : n.commitIndex = (nodes v).commitIndex ∨
      (nodes v).commitIndex < leaderCommit ∧ n.commitIndex = leaderCommit)
    (hmat : n.matchIndex = (nodes v).matchIndex)
    (hapl : n.lastApplied = (nodes v).lastApplied) :
    CommitInv members (update nodes v n) sent acks applied H' := by
  have htake : ∀ j ≤ (nodes v).commitIndex, n.log.take j = (nodes v).log.take j := by
    intro j hj
    obtain ⟨rest, hrest⟩ := hcomd
    have hlen := h.commit_le v
    rw [← hrest, take_append_of_le_length (by rw [length_take]; omega),
      take_take, Nat.min_eq_left hj]
  have hlen : (nodes v).commitIndex ≤ n.log.length := by
    have hle := hcomd.length_le
    rwa [length_take, Nat.min_eq_left (h.commit_le v)] at hle
  have hlcn : leaderCommit ≤ n.log.length := hlc.trans hsen.length_le
  have hmono : (nodes v).commitIndex ≤ n.commitIndex := by omega
  have hmove := h.move v n (applied v) hext (by omega) ?_ (by rw [hmat]) (fun hr ↦ ?_)
    (hapl ▸ (h.lastApplied_le v).trans hmono) ?_
  · rwa [Function.update_eq_self] at hmove
  · rcases hmv with heq | ⟨-, heq⟩
    · rw [heq, htake _ le_rfl]
      exact (h.settled v).mono hext hfol.term_le
    · obtain ⟨rest, hrest⟩ := hsen
      rw [heq, ← hrest, take_append_of_le_length hlc]
      exact hset.mono hext le_rfl
  · obtain ⟨heq, hrole⟩ := hfol.of_role_ne (by simp [hr])
    rw [hmat, heq]
    refine (h.matched v (hrole ▸ hr)).imp fun p j hj ↦ ?_
    exact hj.imp (fun hj ↦ hj.trans hmono) fun hj ↦ ⟨hj.1, hj.2.trans (hext.acked _ _)⟩
  · rw [hapl, htake _ (h.lastApplied_le v)]
    exact h.applied_eq v

private theorem forall₂_modify {α β : Type*} {R : α → β → Prop} {l : List α} {ms : List β}
    (h : List.Forall₂ R l ms) (i : ℕ) (f : β → β)
    (hf : ∀ x m, l[i]? = some x → R x m → R x (f m)) : List.Forall₂ R l (ms.modify i f) := by
  induction h generalizing i with
  | nil => simp
  | @cons x m l ms hxm hrest ih =>
    cases i with
    | zero => exact .cons (hf x m rfl hxm) hrest
    | succ i => exact .cons hxm (ih i fun y m hy ↦ hf y m (by simpa using hy))

theorem matched_ackedMatchIndex (h : CommitInv members nodes sent acks applied H) {peer : NodeId}
    (hprs : (nodes v).peers = members) (hrole : (nodes v).role = .leader) {peerMatch : ℕ}
    (hne : peer ≠ v) (hack : peerMatch ≤ H.acked (nodes v).currentTerm peer) :
    List.Forall₂ (fun p m ↦ m ≤ (nodes v).commitIndex ∨ p ≠ v ∧ m ≤ H.acked (nodes v).currentTerm p)
      members ((nodes v).ackedMatchIndex peer peerMatch) := by
  rw [RaftNode.ackedMatchIndex]
  split
  next i hi =>
    refine forall₂_modify (h.matched v hrole) i _ fun p m hp hm ↦ ?_
    obtain rfl : p = peer := by
      have hpos := (nodes v).peers_getElem?_of_position hi
      rw [hprs, hp] at hpos
      exact some.inj hpos
    rcases hm with hm | ⟨-, hm⟩
    · rcases Nat.le_total m peerMatch with hle | hle
      · exact .inr ⟨hne, by rwa [Nat.max_eq_right hle]⟩
      · exact .inl (by rwa [Nat.max_eq_left hle])
    · exact .inr ⟨hne, Nat.max_le.mpr ⟨hm, hack⟩⟩
  next => exact h.matched v hrole

/-- Where the commit loop stops, the leader's log is chosen: the entry and the acknowledgements that
count are of the leader's term. -/
theorem chosen_of_replicated {requests : List RequestVote} {grants : List Grant}
    (hled : Ledger members nodes requests grants sent H) (hrole : (nodes v).role = .leader)
    {table : List ℕ} {commit r : ℕ} (htab : List.Forall₂ (fun p m ↦
      m ≤ commit ∨ p ≠ v ∧ m ≤ H.acked (nodes v).currentTerm p) members table) (hlt : commit < r)
    (hle : r ≤ (nodes v).log.length)
    (hmaj : (nodes v).majority ≤ 1 + table.countP fun m ↦ decide (r ≤ m)) {e : Entry}
    (he : (nodes v).log[r - 1]? = some e) (hterm : e.term = (nodes v).currentTerm) :
    Chosen members H (nodes v).currentTerm ((nodes v).log.take r) := by
  have hlen : ((nodes v).log.take r).length = r := by rw [length_take]; omega
  refine ⟨hled.cand.leader_log v hrole ▸ take_prefix _ _, ⟨e, ?_, hterm⟩, ?_⟩
  · rw [List.getLast?_eq_getElem?, hlen, List.getElem?_take_of_lt (by omega), he]
  obtain ⟨hmem, -⟩ := hled.vote.standing v (by simp [hrole])
  have hct := succ_countP_le_of_forall₂ (a := v) (r := fun m ↦ decide (r ≤ m))
    (p := fun w ↦ decide (((nodes v).log.take r).length ≤ H.acked (nodes v).currentTerm w))
    (htab.imp fun p m hm hrm ↦ ?_) hmem ?_
  · rw [RaftNode.majority, hled.vote.peers_eq] at hmaj
    rw [Majority]
    omega
  · rw [decide_eq_true_iff] at hrm
    rcases hm with hm | ⟨hpv, hm⟩
    · omega
    · exact ⟨by rw [decide_eq_true_iff]; omega, hpv⟩
  · rw [decide_eq_true_iff, hled.cand.leader_acked v hrole]
    exact ( take_prefix _ _).length_le

end CommitInv

/-! ## The invariant -/

namespace Network

structure Inv (members : List NodeId) (s : Network) (H : History) : Prop where
  ledger : Ledger members s.nodes s.requests s.grants s.sent H
  commit : CommitInv members s.nodes s.sent s.acks s.applied H

variable {members : List NodeId} {s s' : Network} {H : History}

theorem inv_init (members : List NodeId) (store : NodeId → StateStore) :
    Inv members (init members store) .empty := by
  refine ⟨⟨VoteInv.init members store, ?_, ?_, ?_⟩, ?_⟩
  · exact ⟨fun _ ↦ Backed.nil _, by simp [init, RaftNode.new], fun _ ↦ Backed.nil _,
      by simp [History.empty], fun _ _ ↦ rfl, by simp [History.empty], by simp [History.empty],
      by simp [init]⟩
  · exact ⟨by simp [init, RaftNode.new], by simp [init, RaftNode.new],
      by simp [init, RaftNode.new], by simp [init], fun _ _ ↦ Backed.nil _,
      by simp [History.empty], by simp [History.empty]⟩
  · refine ⟨by simp [History.empty], by simp [History.empty], by simp [History.empty],
      fun t w X hX _ ↦ ?_, by simp [History.empty], by simp [History.empty]⟩
    exact (prefix_nil.mp hX.1) ▸ nil_prefix
  · exact ⟨by simp [init, RaftNode.new], fun _ ↦ .inl rfl, by simp [init], by simp [init],
      by simp [init, RaftNode.new], by simp [init, RaftNode.new], by simp [init, RaftNode.new],
      by simp [init, RaftNode.new]⟩

variable {id peer : NodeId} {k : ℕ}

section

variable (h : Inv members s H)

include h

theorem Inv.beginElection (hstep : s.step (.beginElection id) = some s') :
    ∃ H', Inv members s' H' := by
  rw [step] at hstep
  split_ifs at hstep with hmem
  cases hstep
  rw [h.ledger.vote.peers_eq] at hmem
  obtain ⟨hled, hext⟩ := h.ledger.beginElection hmem
  exact ⟨_, hled, h.commit.keep hext (Nat.le_succ _) rfl rfl rfl rfl
    (by simp)⟩

theorem Inv.requestVote (hstep : s.step (.vote k id) = some s') : ∃ H', Inv members s' H' := by
  obtain ⟨m, hm, -, rfl⟩ := step_vote hstep
  have hfol := (s.nodes id).asked_follows m
  have hcom : ∀ {H'}, H.Extends H' → CommitInv members (update s.nodes id ((s.nodes id).asked m))
      s.sent s.acks s.applied H' := by
    intro H' hext
    refine h.commit.keep hext hfol.term_le (by simp) (by simp) (by simp) (by simp) fun hr ↦ ?_
    obtain ⟨hterm, hrole⟩ := hfol.of_role_ne (by simp [hr])
    exact ⟨hrole ▸ hr, hterm⟩
  by_cases hgrt : (s.nodes id).grantsTo m = true
  · obtain ⟨hled, hext⟩ := h.ledger.grant hm hgrt
    rw [if_pos hgrt]
    exact ⟨_, hled, hcom hext⟩
  rw [if_neg hgrt]
  refine ⟨H, h.ledger.frame hfol (by simp) fun heq ↦ ?_, hcom (.refl H)⟩
  rw [RaftNode.handleRequestVote_currentTerm] at heq
  rw [RaftNode.handleRequestVote_votedFor, if_neg hgrt, if_neg (by omega)]

theorem Inv.finalizeElection {votes : ℕ} (hok : s.FreshAcks (.finalizeElection id votes))
    (hstep : s.step (.finalizeElection id votes) = some s') : ∃ H', Inv members s' H' := by
  rw [step] at hstep
  split_ifs at hstep with hguard
  cases hstep
  obtain ⟨hrole, hvts⟩ := hguard
  by_cases hwin : (s.nodes id).majority ≤ votes
  · have hmaj := h.ledger.vote.majority_of_tally hrole hwin hvts
    obtain ⟨hled, hext⟩ := h.ledger.elect hrole hwin hmaj
    have hmove := h.commit.move id ((s.nodes id).finalizeElection votes)
      (s.applied id) hext ?_ ?_ ?_ ?_ ?_ ?_
    · rw [Function.update_eq_self] at hmove
      exact ⟨_, hled, hmove⟩
    · simpa using h.commit.commit_le id
    · simpa using (h.commit.settled id).mono hext le_rfl
    · simp
    · intro _
      simp only [RaftNode.finalizeElection_frame, List.forall₂_iff_zip]
      exact ⟨(h.commit.matchIndex_length id).symm, fun hpm ↦ .inl (hok hwin _ (of_mem_zip hpm).2)⟩
    · simpa using h.commit.lastApplied_le id
    · simpa using h.commit.applied_eq id
  · have hsame : (s.nodes id).finalizeElection votes = s.nodes id := by
      rw [RaftNode.finalizeElection, if_neg hwin]
    rw [hsame, setNode, Function.update_eq_self]
    exact ⟨H, h.ledger, h.commit⟩

theorem Inv.leaderAppend {data : Bytes} (hstep : s.step (.leaderAppend id data) = some s') :
    ∃ H', Inv members s' H' := by
  rw [step] at hstep
  split_ifs at hstep with hrole
  cases hstep
  obtain ⟨hled, hext⟩ := h.ledger.leaderAppend hrole data
  have hpre : (s.nodes id).log <+: ((s.nodes id).leaderAppend data).1.log := prefix_append _ _
  exact ⟨_, hled, h.commit.follow hext (.of_term_eq rfl rfl rfl rfl)
    (( take_prefix _ _).trans hpre) nil_prefix (Nat.zero_le 0) (.inl rfl) (.inl rfl) rfl
    rfl⟩

theorem Inv.send (hstep : s.step (.send id peer) = some s') : ∃ H', Inv members s' H' := by
  rw [step] at hstep
  split_ifs at hstep with hguard
  cases hstep
  obtain ⟨hrole, -, hne⟩ := hguard
  have hlog := h.ledger.log.send id peer ((s.nodes id).nextIndexOf peer)
    (h.ledger.cand.leader_log id hrole ▸ prefix_rfl)
  refine ⟨H, { h.ledger with log := hlog }, { h.commit with message := fun m hm ↦ ?_ }⟩
  rcases mem_append.mp hm with hold | hnew
  · exact h.commit.message m hold
  obtain rfl := mem_singleton.mp hnew
  have hcut := (s.nodes id).buildAppendEntries_cutFrom (h.ledger.log.index_eq id)
    ((s.nodes id).nextIndexOf peer)
  refine ⟨?_, (s.nodes id).log, ?_, hcut, h.commit.commit_le id, h.commit.settled id⟩
  · change peer ≠ (s.nodes id).id
    rwa [h.ledger.vote.id_eq]
  · exact h.ledger.cand.leader_log id hrole ▸ prefix_rfl

end

section Deliver

variable {e : Envelope}

/-- A rejected message changes at most the receiver's term and role. -/
theorem Inv.deliver_of_rejects (h : Inv members s H)
    (hacc : ¬(s.nodes e.dest).takes e.msg = true) :
    Inv members (s.setNode e.dest ((s.nodes e.dest).told e.msg)) H := by
  have hfol := (s.nodes e.dest).told_follows e.msg
  have hlog : ((s.nodes e.dest).told e.msg).log = (s.nodes e.dest).log := by
    rw [RaftNode.told_log, if_neg hacc]
  refine ⟨h.ledger.frame hfol hlog (by simp),
    h.commit.keep (.refl H) hfol.term_le hlog ?_ (by simp) (by simp) fun hr ↦ ?_⟩
  · rw [RaftNode.handleAppendEntries_commitIndex, if_neg fun hboth ↦ hacc hboth.1]
  · obtain ⟨heq, hrole⟩ := hfol.of_role_ne (by simp [hr])
    exact ⟨hrole ▸ hr, heq⟩

/-- What the receiver of an accepted message has committed is settled, so the leader's log has it
too. -/
theorem Inv.deliver_of_accepts (h : Inv members s H) (he : e ∈ s.sent)
    (hacc : (s.nodes e.dest).takes e.msg = true) :
    ∃ H', Inv members { s.setNode e.dest ((s.nodes e.dest).told e.msg) with
      acks := s.acks ++ [⟨e.msg.term, e.msg.leaderId, e.dest, e.msg.matchIndex⟩] } H' := by
  obtain ⟨hne, sender, hpre, hcut, hlc, hset⟩ := h.commit.message e he
  obtain ⟨hled, hext⟩ := h.ledger.deliver he hpre hcut hacc
  have hsen := h.ledger.isPrefix_sender_of_accepts hpre hcut hacc
  have htle := RaftNode.term_le_of_takes hacc
  have hterm := (s.nodes e.dest).told_currentTerm e.msg
  rw [Nat.max_eq_right htle] at hterm
  rw [← hterm] at hset
  have hcomd := h.ledger.isPrefix_log_of_accepts hpre hcut hacc
    ( take_prefix (s.nodes e.dest).commitIndex _) fun c hl ↦
      h.ledger.isPrefix_termLog_of_settled (h.commit.settled e.dest) htle hl
  -- the commit index stays, or moves to the one of the message
  have hmv := (s.nodes e.dest).handleAppendEntries_commitIndex e.msg.term e.msg.prevLogIndex
    e.msg.prevLogTerm e.msg.entries e.msg.leaderCommit
  have hlog := (s.nodes e.dest).told_log e.msg
  rw [if_pos hacc] at hlog
  rw [← hlog, Nat.min_eq_left (hlc.trans hsen.length_le)] at hmv
  have hcom := h.commit.follow hext ((s.nodes e.dest).told_follows e.msg) hcomd hsen hlc hset
    (by rw [hmv]; split_ifs with hlt; exacts [.inr ⟨hlt.2, rfl⟩, .inl rfl]) (by simp) (by simp)
  refine ⟨_, hled, hcom.addAck hne ?_⟩
  have hback := (h.ledger.log.termLog_backed e.msg.term).of_isPrefix hpre
  rw [hcut.matchIndex_eq fun j x hj ↦ (hback j x hj).1]
  exact (le_max_right _ _).trans (setAt_self ..).ge

theorem Inv.deliver (h : Inv members s H) (hstep : s.step (.deliver k) = some s') :
    ∃ H', Inv members s' H' := by
  obtain ⟨e, he, rfl⟩ := step_deliver hstep
  by_cases hacc : (s.nodes e.dest).takes e.msg = true
  · rw [if_pos hacc]
    exact h.deliver_of_accepts he hacc
  · rw [if_neg hacc]
    exact ⟨H, h.deliver_of_rejects hacc⟩

end Deliver

section

variable (h : Inv members s H)

include h

/-- Acknowledgements past the commit index are all of the leader's term, so an index the commit loop
moves to is chosen. -/
theorem Inv.recordPeerAck (hstep : s.step (.recordPeerAck k) = some s') :
    ∃ H', Inv members s' H' := by
  rw [step] at hstep
  obtain ⟨a, ha, hstep⟩ := bind_eq_some_iff.mp hstep
  split_ifs at hstep with hguard
  cases hstep
  obtain ⟨hrole, hterm⟩ := hguard
  obtain ⟨hne, hack⟩ := h.commit.ack a (mem_of_getElem? ha)
  rw [← hterm] at hack
  have htab := h.commit.matched_ackedMatchIndex (h.ledger.vote.peers_eq _) hrole hne hack
  have hlen := h.commit.commit_le a.leader
  generalize a.leader = v at *
  have hmv := RaftNode.advanceCommit_spec (s.nodes v).majority (s.nodes v).currentTerm
    ((s.nodes v).ackedMatchIndex a.peer a.matchIndex)
    ((s.nodes v).log.drop (s.nodes v).commitIndex) (s.nodes v).commitIndex rfl
  rw [length_drop, List.getElem?_drop] at hmv
  have hcom : (s.nodes v).commitIndex ≤
      ((s.nodes v).recordPeerAck a.peer a.matchIndex).commitIndex := by
    rw [RaftNode.recordPeerAck]
    simp only
    omega
  have hmove := h.commit.move v ((s.nodes v).recordPeerAck a.peer a.matchIndex)
    (s.applied v) (.refl H) ?_ ?_ ?_ (fun _ ↦ htab.imp fun p m hm ↦ ?_)
    ((h.commit.lastApplied_le v).trans hcom) (h.commit.applied_eq v)
  · rw [Function.update_eq_self] at hmove
    exact ⟨H, h.ledger.frame (.of_term_eq rfl rfl rfl rfl) rfl fun _ ↦ rfl, hmove⟩
  · simp only [RaftNode.recordPeerAck]
    omega
  · simp only [RaftNode.recordPeerAck]
    rcases hmv with heq | ⟨hlt, hle, hmaj, e, he, heterm⟩
    · rw [heq]
      exact h.commit.settled v
    have hsub := Nat.add_sub_cancel' (Nat.succ_le_of_lt hlt)
    refine .inr ⟨_, _, CommitInv.chosen_of_replicated h.ledger hrole htab hlt (by omega) hmaj
      ?_ heterm, le_rfl, prefix_rfl⟩
    rw [← he]
    congr 1
    omega
  · simp only [RaftNode.recordPeerAck, RaftNode.ackedMatchIndex]
    split
    · exact length_modify ..
    · rfl
  · exact hm.imp_left fun hm ↦ hm.trans hcom

theorem Inv.advanceNext {next : ℕ} (hstep : s.step (.advanceNext id peer next) = some s') :
    ∃ H', Inv members s' H' := by
  cases hstep
  obtain ⟨nextIndex, hn⟩ := (s.nodes id).advanceNext_eq peer next
  rw [hn]
  exact ⟨H, h.ledger.frame (.of_term_eq rfl rfl rfl rfl) rfl fun _ ↦ rfl,
    h.commit.keep (.refl H) le_rfl rfl rfl rfl rfl fun hr ↦ ⟨hr, rfl⟩⟩

theorem Inv.applyCommitted (hstep : s.step (.applyCommitted id) = some s') :
    ∃ H', Inv members s' H' := by
  have hlen := h.commit.commit_le id
  have hle := h.commit.lastApplied_le id
  rw [step, (s.nodes id).applyCommitted_eq hle hlen] at hstep
  cases hstep
  refine ⟨H, h.ledger.frame (.of_term_eq rfl rfl rfl rfl) rfl fun _ ↦ rfl,
    h.commit.move _ _ _ (.refl H) hlen (h.commit.settled id) rfl (h.commit.matched id) le_rfl ?_⟩
  rw [h.commit.applied_eq, ← take_add, Nat.add_sub_cancel' hle]

theorem Inv.step {op : NetworkOp} (hok : s.FreshAcks op) (hstep : s.step op = some s') :
    ∃ H', Inv members s' H' := by
  cases op with
  | beginElection id => exact h.beginElection hstep
  | vote k voter => exact h.requestVote hstep
  | finalizeElection id votes => exact h.finalizeElection hok hstep
  | leaderAppend id data => exact h.leaderAppend hstep
  | send id peer => exact h.send hstep
  | deliver k => exact h.deliver hstep
  | recordPeerAck k => exact h.recordPeerAck hstep
  | advanceNext id peer next => exact h.advanceNext hstep
  | applyCommitted id => exact h.applyCommitted hstep

theorem Inv.safe : s.Safe := by
  refine ⟨fun v ↦ ⟨h.commit.lastApplied_le v, h.commit.commit_le v⟩, fun v w e he e' he' hidx ↦ ?_⟩
  -- the entry a node has applied at an index is the one of its settled log there
  have hapl : ∀ v e, e ∈ s.applied v → ∃ k,
      ((s.nodes v).log.take (s.nodes v).commitIndex)[k]? = some e ∧ e.index = k + 1 := by
    intro v e he
    rw [h.commit.applied_eq] at he
    have hpre : (s.nodes v).log.take (s.nodes v).lastApplied <+:
        (s.nodes v).log.take (s.nodes v).commitIndex :=
      take_prefix_take_left (h.commit.lastApplied_le v)
    obtain ⟨k, hk⟩ := List.getElem?_of_mem (hpre.mem he)
    exact ⟨k, hk, ((h.ledger.log.log v).of_isPrefix ( take_prefix _ _) k e hk).1⟩
  obtain ⟨k, hk, hind⟩ := hapl v e he
  obtain ⟨k', hk', hind'⟩ := hapl w e' he'
  obtain rfl : k = k' := by omega
  rcases h.ledger.comparable_of_settled (h.commit.settled v) (h.commit.settled w) with hle | hle
  · exact some.inj ((getElem?_of_isPrefix hle hk).symm.trans hk')
  · exact some.inj (hk.symm.trans (getElem?_of_isPrefix hle hk'))

end

/-! ## Safety -/

/-- **State-machine safety.** In every run in which no new leader starts with acknowledgements past
its commit index, nodes apply the same entries. -/
theorem fresh_run_safe {store : NodeId → StateStore} {ops : List NetworkOp}
    (hrun : Steps step FreshAcks (init members store) ops s) : s.Safe := by
  have hinv : ∃ H, Inv members s H :=
    hrun.invariant (fun s ↦ ∃ H, Inv members s H) (fun _ _ _ ⟨_, h⟩ hok hstep ↦ h.step hok hstep)
      ⟨_, inv_init members store⟩
  exact hinv.elim fun _ h ↦ h.safe

theorem fresh_run_safe_three : ∃ s, Steps step FreshAcks (init ["a", "b", "c"] fun _ ↦ {})
        [.beginElection "a", .vote 0 "b", .finalizeElection "a" 2, .leaderAppend "a" [1],
          .send "a" "b", .deliver 0, .recordPeerAck 0, .applyCommitted "a", .send "a" "b",
          .deliver 1, .applyCommitted "b"] s ∧
      (s.applied "a" = [⟨1, 1, [1]⟩] ∧ s.applied "b" = [⟨1, 1, [1]⟩]) ∧ s.Safe := by
  refine exists_steps_of_isSome (by decide +kernel) fun hrun ↦ ⟨by decide +kernel, ?_⟩
  exact fresh_run_safe hrun

/-- **Leader completeness of such runs.** What a node has committed is in the log of every leader of
its term or a later one, and no term has two leaders. -/
theorem fresh_run_leader_complete {store : NodeId → StateStore} {ops : List NetworkOp}
    (hrun : Steps step FreshAcks (init members store) ops s) {v w : NodeId}
    (hlead : (s.nodes w).role = .leader)
    (hterm : (s.nodes v).currentTerm ≤ (s.nodes w).currentTerm) :
    (s.nodes v).log.take (s.nodes v).commitIndex <+: (s.nodes w).log ∧
      ((s.nodes v).role = .leader → (s.nodes v).currentTerm = (s.nodes w).currentTerm → v = w) := by
  obtain ⟨H, hinv⟩ := hrun.invariant (fun s ↦ ∃ H, Inv members s H)
    (fun _ _ _ ⟨_, h⟩ hok hstep ↦ h.step hok hstep) ⟨_, inv_init members store⟩
  have hw := (hinv.ledger.vote.leader_iff w).mp hlead
  constructor
  · rw [hinv.ledger.cand.leader_log w hlead]
    exact hinv.ledger.isPrefix_termLog_of_settled (hinv.commit.settled v) hterm hw
  · intro hlead' heq
    have hv := (hinv.ledger.vote.leader_iff v).mp hlead'
    rw [heq, hw] at hv
    exact (some.inj hv).symm

/-- `a` commits an entry in term 1, and `b` is elected in term 2. -/
theorem fresh_run_leader_complete_second :
    ∃ s, Steps step FreshAcks (init ["a", "b", "c"] fun _ ↦ {})
        [.beginElection "a", .vote 0 "b", .finalizeElection "a" 2, .leaderAppend "a" [1],
          .send "a" "b", .deliver 0, .recordPeerAck 0, .beginElection "b", .vote 1 "c",
          .finalizeElection "b" 2] s ∧
      (s.nodes "a").log.take (s.nodes "a").commitIndex = [⟨1, 1, [1]⟩] ∧
      (s.nodes "a").log.take (s.nodes "a").commitIndex <+: (s.nodes "b").log := by
  refine exists_steps_of_isSome (by decide +kernel) fun hrun ↦ ⟨by decide +kernel, ?_⟩
  exact (fresh_run_leader_complete hrun (by decide +kernel) (by decide +kernel)).1

/-- Stale acknowledgements count. `a` leads term 1 and `b` acknowledges two entries, which `c`
overwrites in term 2; in term 3 `a` leads again and commits its own second entry with `d` alone. `b`
never had it, and leads term 4 with another one. -/
theorem stale_acks_unsafe :
    ∃ s, Steps step (fun _ _ ↦ True) (init ["a", "b", "c", "d", "e"] fun _ ↦ {})
        [.beginElection "a", .vote 0 "b", .vote 0 "c", .finalizeElection "a" 3,
          .leaderAppend "a" [1], .leaderAppend "a" [2], .send "a" "b", .deliver 0,
          .recordPeerAck 0,
          .beginElection "c", .vote 1 "d", .vote 1 "e", .finalizeElection "c" 3,
          .leaderAppend "c" [3], .send "c" "d", .send "c" "e", .deliver 1, .deliver 2,
          .recordPeerAck 1, .recordPeerAck 2, .send "c" "a", .send "c" "b", .deliver 3,
          .deliver 4,
          .beginElection "a", .vote 2 "d", .vote 2 "e", .finalizeElection "a" 3,
          .leaderAppend "a" [4], .send "a" "d", .deliver 5, .recordPeerAck 5,
          .applyCommitted "a",
          .beginElection "b", .beginElection "b", .vote 4 "c", .vote 4 "e",
          .finalizeElection "b" 3, .leaderAppend "b" [5], .send "b" "c", .send "b" "e",
          .deliver 6, .deliver 7, .recordPeerAck 6, .recordPeerAck 7, .applyCommitted "b"] s ∧
      ¬s.Safe := by
  refine exists_steps_of_isSome (by decide +kernel) fun _ hsafe ↦ ?_
  have hsame := hsafe.2 "a" "b" ⟨3, 2, [4]⟩ (by decide +kernel) ⟨4, 2, [5]⟩ (by decide +kernel) rfl
  exact absurd hsame (by decide)

end Network

end Synapse
