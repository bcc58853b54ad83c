import Mathlib.Order.Bounds.Basic
import Synapse.Raft.Node

/-!
# The commit rule of a leader

Raft lets a leader commit the greatest index whose entry is of the current term and replicated on
a majority; everything below is committed with it. `recordPeerAck` walks upwards from the old
commit index instead, one entry at a time, and stops at the first entry that is of another term or
not replicated. Replication is no obstacle, since what is replicated at an index is replicated
below it. Terms are: an entry of an earlier term that is not committed yet holds back every later
entry. `recordPeerAck_commitIndex_iff` says that the two rules agree exactly if there is no such
entry below an index that may be committed.
-/

namespace Synapse

open List

namespace RaftNode

/-- The walk reaches `N` exactly if every entry on the way is replicated and of the given term. -/
theorem le_advanceCommit_iff (majority term : ℕ) (matchIndex : List ℕ) (rest : List Entry)
    (idx N : ℕ) :
    N ≤ advanceCommit majority term matchIndex rest idx ↔
      ∀ k, idx < k → k ≤ N → majority ≤ 1 + matchIndex.countP (fun m ↦ decide (k ≤ m)) ∧
        (rest[k - (idx + 1)]?).map Entry.term = some term := by
  induction rest generalizing idx with
  | nil =>
    refine ⟨fun hN k hlt hk ↦ absurd (hk.trans hN) (Nat.not_le.mpr hlt), fun h ↦ ?_⟩
    by_contra hN
    simpa using (h N (lt_of_not_ge hN) le_rfl).2
  | cons e rest ih =>
    rw [advanceCommit]
    by_cases hcond : majority ≤ 1 + matchIndex.countP (fun m ↦ decide (idx + 1 ≤ m)) ∧ e.term = term
    · rw [if_pos hcond, ih]
      have hshift : ∀ k, idx + 1 < k → (e :: rest)[k - (idx + 1)]? = rest[k - (idx + 1 + 1)]? := by
        intro k hk
        rw [show k - (idx + 1) = k - (idx + 1 + 1) + 1 by omega, List.getElem?_cons_succ]
      constructor
      · intro h k hlt hk
        rcases Nat.eq_or_lt_of_le (Nat.succ_le_of_lt hlt) with rfl | hlt'
        · exact ⟨hcond.1, by simp [hcond.2]⟩
        · rw [hshift k hlt']
          exact h k hlt' hk
      · intro h k hlt hk
        rw [← hshift k hlt]
        exact h k (by omega) hk
    · rw [if_neg hcond]
      refine ⟨fun hN k hlt hk ↦ absurd (hk.trans hN) (Nat.not_le.mpr hlt), fun h ↦ ?_⟩
      by_contra hN
      have hnext := h (idx + 1) (Nat.lt_succ_self idx) (lt_of_not_ge hN)
      rw [Nat.sub_self, List.getElem?_cons_zero, Option.map_some, Option.some.injEq] at hnext
      exact hcond hnext

/-- The leader and the other peers that have acknowledged index `N`. -/
def replicas (n : RaftNode) (N : ℕ) : ℕ :=
  1 + (n.peers.zip n.matchIndex).countP fun p ↦ decide (p.1 ≠ n.id) && decide (N ≤ p.2)

/-- Index `N` may be committed: it is past `old`, its entry is of the current term and a majority
has it. -/
def Committable (n : RaftNode) (old N : ℕ) : Prop :=
  old < N ∧ N ≤ n.logLen ∧ (n.log[N - 1]?).map Entry.term = some n.currentTerm ∧
    n.majority ≤ n.replicas N

/-- The acknowledgement table has a slot for each peer, and the node's own slot is never used. -/
structure Tracks (n : RaftNode) : Prop where
  length_eq : n.matchIndex.length = n.peers.length
  own_eq : ∀ p ∈ n.peers.zip n.matchIndex, p.1 = n.id → p.2 = 0

variable {n : RaftNode}

theorem Tracks.recordPeerAck (h : n.Tracks) {peer : NodeId} (hpeer : peer ≠ n.id)
    (peerMatch : ℕ) : (n.recordPeerAck peer peerMatch).Tracks := by
  have hack : (n.recordPeerAck peer peerMatch).matchIndex = n.ackedMatchIndex peer peerMatch := rfl
  cases hpos : n.position peer with
  | none =>
    rw [ackedMatchIndex, hpos] at hack
    exact ⟨by rw [hack]; exact h.length_eq, by rw [hack]; exact h.own_eq⟩
  | some i =>
    rw [ackedMatchIndex, hpos] at hack
    refine ⟨by rw [hack, length_modify]; exact h.length_eq, ?_⟩
    rw [hack]
    rintro ⟨q, m⟩ hmem (hq : q = n.id)
    obtain ⟨j, hj⟩ := mem_iff_getElem?.mp hmem
    rw [List.getElem?_zip_eq_some] at hj
    obtain ⟨hqj, hmj⟩ := hj
    -- the slot that has changed is another peer's
    have hne : i ≠ j := by
      rintro rfl
      have hpeer' := n.peers_getElem?_of_position hpos
      exact hpeer ((Option.some.inj (hpeer'.symm.trans hqj)).trans hq)
    simp only [List.getElem?_modify, if_neg hne] at hmj
    rw [id_map'] at hmj
    exact h.own_eq (q, m) (mem_iff_getElem?.mpr ⟨j, List.getElem?_zip_eq_some.mpr ⟨hqj, hmj⟩⟩) hq

theorem Tracks.replicas_eq (h : n.Tracks) {N : ℕ} (hN : 0 < N) :
    n.replicas N = 1 + n.matchIndex.countP fun m ↦ decide (N ≤ m) := by
  have hsnd : (n.peers.zip n.matchIndex).map Prod.snd = n.matchIndex := map_snd_zip h.length_eq.le
  rw [replicas]
  conv_rhs => rw [← hsnd, countP_map]
  refine congrArg (1 + ·) (countP_congr fun p hp ↦ ?_)
  simp only [Bool.and_eq_true, decide_eq_true_eq, Function.comp_apply]
  refine ⟨fun hand ↦ hand.2, fun hle ↦ ⟨fun heq ↦ ?_, hle⟩⟩
  have hzero := h.own_eq p hp heq
  omega

theorem replicas_anti {N N' : ℕ} (hle : N ≤ N') : n.replicas N' ≤ n.replicas N := by
  refine Nat.add_le_add_left (countP_mono_left fun p _ hp ↦ ?_) 1
  rw [Bool.and_eq_true, decide_eq_true_eq, decide_eq_true_eq] at hp ⊢
  exact ⟨hp.1, hle.trans hp.2⟩

section Ack

variable (n) (peer : NodeId) (peerMatch : ℕ)

theorem le_commitIndex_recordPeerAck_iff (h : (n.recordPeerAck peer peerMatch).Tracks) (N : ℕ) :
    N ≤ (n.recordPeerAck peer peerMatch).commitIndex ↔ ∀ k, n.commitIndex < k → k ≤ N →
        (n.recordPeerAck peer peerMatch).Committable n.commitIndex k := by
  have hwalk := le_advanceCommit_iff n.majority n.currentTerm (n.ackedMatchIndex peer peerMatch)
    (n.log.drop n.commitIndex) n.commitIndex N
  refine hwalk.trans (forall_congr' fun k ↦ forall_congr' fun hlt ↦ forall_congr' fun _ ↦ ?_)
  rw [Committable, h.replicas_eq (by omega), List.getElem?_drop,
    show n.commitIndex + (k - (n.commitIndex + 1)) = k - 1 by omega]
  refine ⟨fun hgood ↦ ⟨hlt, ?_, hgood.2, hgood.1⟩, fun hgood ↦ ⟨hgood.2.2.2, hgood.2.2.1⟩⟩
  by_contra hlen
  have hnone : n.log[k - 1]? = none := List.getElem?_eq_none (by
    rw [logLen] at hlen
    have hsame : (n.recordPeerAck peer peerMatch).log = n.log := rfl
    rw [hsame] at hlen
    omega)
  rw [hnone] at hgood
  cases hgood.2

/-- The commit rule: the commit index is the greatest index that may be committed, or stays if
there is none. -/
def CommitRule (n n' : RaftNode) : Prop :=
  IsGreatest {N | n'.Committable n.commitIndex N} n'.commitIndex ∨
    (∀ N, ¬n'.Committable n.commitIndex N) ∧ n'.commitIndex = n.commitIndex

/-- **The leader's commit rule** is followed by an acknowledgement of another peer exactly if no
entry of another term lies between the old commit index and an index that may be committed. -/
theorem recordPeerAck_commitIndex_iff (h : n.Tracks) (hpeer : peer ≠ n.id) :
    CommitRule n (n.recordPeerAck peer peerMatch) ↔
      ∀ N, (n.recordPeerAck peer peerMatch).Committable n.commitIndex N →
        ∀ k, n.commitIndex < k → k ≤ N → (n.log[k - 1]?).map Entry.term = some n.currentTerm := by
  have hreach := le_commitIndex_recordPeerAck_iff n peer peerMatch (h.recordPeerAck hpeer peerMatch)
  have hold : n.commitIndex ≤ (n.recordPeerAck peer peerMatch).commitIndex :=
    (hreach _).mpr fun k hlt hk ↦ absurd hk (Nat.not_le.mpr hlt)
  have hself : n.commitIndex < (n.recordPeerAck peer peerMatch).commitIndex →
      (n.recordPeerAck peer peerMatch).Committable n.commitIndex
        (n.recordPeerAck peer peerMatch).commitIndex :=
    fun hlt ↦ (hreach _).mp le_rfl _ hlt le_rfl
  constructor
  · rintro (hgreatest | hnone) N hN k hlt hk
    · have hle := hgreatest.2 hN
      exact ((hreach _).mp le_rfl k hlt (hk.trans hle)).2.2.1
    · exact absurd hN (hnone.1 N)
  · intro hterms
    -- every index that may be committed is reached
    have hupper : ∀ N, (n.recordPeerAck peer peerMatch).Committable n.commitIndex N →
        N ≤ (n.recordPeerAck peer peerMatch).commitIndex := by
      intro N hN
      refine (hreach N).mpr fun k hlt hk ↦ ?_
      exact ⟨hlt, hk.trans hN.2.1, hterms N hN k hlt hk, hN.2.2.2.trans (replicas_anti hk)⟩
    rcases Nat.eq_or_lt_of_le hold with heq | hlt
    · refine .inr ⟨fun N hN ↦ ?_, heq.symm⟩
      have hle := hupper N hN
      have hgt := hN.1
      omega
    · exact .inl ⟨hself hlt, hupper⟩

end Ack

def leaderOfOneTerm : RaftNode :=
  ((((new "a" ["a", "b", "c"] {}).beginElection.1.finalizeElection 2).leaderAppend
    [7]).1.leaderAppend [8]).1

def leaderOfTwoTerms : RaftNode :=
  ((((new "a" ["a", "b", "c"] {}).beginElection.1.finalizeElection 2).leaderAppend
    [7]).1.beginElection.1.finalizeElection 2 |>.leaderAppend [8]).1

theorem commitIndex_of_one_term : CommitRule leaderOfOneTerm (leaderOfOneTerm.recordPeerAck "b" 2) ∧
      (leaderOfOneTerm.recordPeerAck "b" 2).commitIndex = 2 := by
  refine ⟨(recordPeerAck_commitIndex_iff leaderOfOneTerm "b" 2 ⟨rfl, by decide⟩
    (by decide)).mpr fun N hN k hlt hk ↦ ?_, rfl⟩
  have hle : k ≤ 2 := hk.trans hN.2.1
  have hpos : 0 < k := hlt
  obtain rfl | rfl : k = 1 ∨ k = 2 := by omega
  · rfl
  · rfl

/-- **An entry of an earlier term blocks the commit index.** The second entry is of the current term
and on two of three nodes. -/
theorem not_commitRule_of_two_terms : leaderOfTwoTerms.role = .leader ∧ leaderOfTwoTerms.Tracks ∧
      (leaderOfTwoTerms.recordPeerAck "b" 2).Committable leaderOfTwoTerms.commitIndex 2 ∧
      (leaderOfTwoTerms.recordPeerAck "b" 2).commitIndex = 0 ∧
      ¬CommitRule leaderOfTwoTerms (leaderOfTwoTerms.recordPeerAck "b" 2) := by
  have hcommittable :
      (leaderOfTwoTerms.recordPeerAck "b" 2).Committable leaderOfTwoTerms.commitIndex 2 := by
    refine ⟨?_, ?_, ?_, ?_⟩ <;> decide
  refine ⟨rfl, ⟨rfl, by decide⟩, hcommittable, rfl, ?_⟩
  rintro (hgreatest | ⟨hnone, -⟩)
  · exact absurd (hgreatest.2 hcommittable) (by decide)
  · exact hnone 2 hcommittable

end RaftNode

end Synapse
