import Synapse.Lib.Quorum
import Synapse.Raft.Protocol

/-!
# Histories and votes

The proof of state-machine safety is about the past of a run: who voted for whom, which log a
candidate stood with, which log each leader has built. `History` records this next to the state,
and its updates say what one protocol step adds.

`VoteInv` is the part about votes alone: ballots are cast once and for good, and the leader of a
term was elected by a majority of them. Two candidates of one term cannot both collect a majority,
so a term has one leader.
-/

open Function

namespace Synapse

open Quorum

/-- What a run has been through so far. -/
structure History where
  /-- The leader elected in each term. -/
  leader : ℕ → Option NodeId
  /-- The log of that leader, as far as it got in its term. -/
  termLog : ℕ → List Entry
  /-- Whom a node voted for in a term, itself when it stood for election. -/
  ballot : ℕ → NodeId → Option NodeId
  /-- The voters whose ballots elected the leader. -/
  quorum : ℕ → NodeId → Bool
  /-- The log with which a node stood for election. -/
  candLog : ℕ → NodeId → List Entry
  /-- How much of the leader's log a node has held in the term. -/
  acked : ℕ → NodeId → ℕ

namespace History

def empty : History where
  leader _ := none
  termLog _ := []
  ballot _ _ := none
  quorum _ _ := false
  candLog _ _ := []
  acked _ _ := 0

def cast (H : History) (t : ℕ) (v c : NodeId) : History :=
  { H with ballot := setAt H.ballot t v (some c) }

def stand (H : History) (t : ℕ) (v : NodeId) (log : List Entry) : History :=
  { H with
    ballot := setAt H.ballot t v (some v)
    candLog := setAt H.candLog t v log }

section Ballots

variable (H : History) {t u : ℕ} {v w : NodeId} (log : List Entry)

@[simp] theorem stand_candLog_self : (H.stand t v log).candLog t v = log := setAt_self ..

theorem stand_candLog_of_ne (h : ¬(u = t ∧ w = v)) :
    (H.stand t v log).candLog u w = H.candLog u w := setAt_of_ne _ _ h

end Ballots

def elect (H : History) (t : ℕ) (v : NodeId) (log : List Entry) : History :=
  { H with
    leader := update H.leader t (some v)
    termLog := update H.termLog t log
    quorum := update H.quorum t fun w ↦ decide (H.ballot t w = some v)
    acked := setAt H.acked t v log.length }

section Elect

variable (H : History) {t u : ℕ} (v : NodeId) (log : List Entry)

@[simp] theorem elect_leader_self : (H.elect t v log).leader t = some v := update_self ..

theorem elect_leader_of_ne (h : u ≠ t) : (H.elect t v log).leader u = H.leader u :=
  update_of_ne h ..

theorem elect_quorum_self :
    (H.elect t v log).quorum t = fun w ↦ decide (H.ballot t w = some v) := update_self ..

theorem elect_quorum_of_ne (h : u ≠ t) : (H.elect t v log).quorum u = H.quorum u :=
  update_of_ne h ..

theorem elect_leader_eq_some {c : NodeId} (h : (H.elect t v log).leader u = some c) :
    u = t ∧ c = v ∨ u ≠ t ∧ H.leader u = some c := by
  by_cases hu : u = t
  · subst hu
    rw [elect_leader_self] at h
    exact .inl ⟨rfl, (Option.some.inj h).symm⟩
  · rw [elect_leader_of_ne H v log hu] at h
    exact .inr ⟨hu, h⟩

end Elect

def append (H : History) (t : ℕ) (v : NodeId) (log : List Entry) : History :=
  { H with
    termLog := update H.termLog t log
    acked := setAt H.acked t v log.length }

/-- `v` holds the first `len` entries of the leader's log in term `t`. -/
def ack (H : History) (t : ℕ) (v : NodeId) (len : ℕ) : History :=
  { H with acked := setAt H.acked t v (max (H.acked t v) len) }

end History

/-- Ballots back the replies that report them and the leaders they elected. -/
structure VoteInv (members : List NodeId) (nodes : NodeId → RaftNode)
    (requests : List RequestVote) (grants : List Grant) (H : History) : Prop where
  id_eq : ∀ v, (nodes v).id = v
  peers_eq : ∀ v, (nodes v).peers = members
  request_le : ∀ m ∈ requests, m.term ≤ (nodes m.candidateId).currentTerm
  ballot_le : ∀ t v c, H.ballot t v = some c → t ≤ (nodes v).currentTerm
  ballot_cand_le : ∀ t v c, H.ballot t v = some c → t ≤ (nodes c).currentTerm
  ballot_vote : ∀ v c, H.ballot (nodes v).currentTerm v = some c → (nodes v).votedFor = some c
  granted : ∀ g ∈ grants, H.ballot g.term g.voter = some g.candidate
  standing : ∀ v, (nodes v).role ≠ .follower →
    v ∈ members ∧ H.ballot (nodes v).currentTerm v = some v
  leader_iff : ∀ v, (nodes v).role = .leader ↔ H.leader (nodes v).currentTerm = some v
  leader_le : ∀ t v, H.leader t = some v → t ≤ (nodes v).currentTerm
  quorum_majority : ∀ t c, H.leader t = some c → Majority members (H.quorum t)
  quorum_ballot : ∀ t c w, H.leader t = some c → H.quorum t w = true → H.ballot t w = some c

namespace VoteInv

variable {members : List NodeId} {nodes : NodeId → RaftNode} {requests : List RequestVote}
  {grants : List Grant} {H : History}

theorem init (members : List NodeId) (store : NodeId → StateStore) :
    VoteInv members (fun id ↦ RaftNode.new id members (store id)) [] [] .empty where
  id_eq _ := rfl
  peers_eq _ := rfl
  request_le := by simp
  ballot_le := by simp [History.empty]
  ballot_cand_le := by simp [History.empty]
  ballot_vote := by simp [History.empty]
  granted := by simp
  standing := by simp [RaftNode.new]
  leader_iff := by simp [RaftNode.new, History.empty]
  leader_le := by simp [History.empty]
  quorum_majority := by simp [History.empty]
  quorum_ballot := by simp [History.empty]

variable {v : NodeId} {n : RaftNode}

theorem le_update_currentTerm (hterm : (nodes v).currentTerm ≤ n.currentTerm) (w : NodeId) :
    (nodes w).currentTerm ≤ (update nodes v n w).currentTerm :=
  (forall_update_iff nodes fun w n ↦ (nodes w).currentTerm ≤ n.currentTerm).mpr
    ⟨hterm, fun _ _ ↦ le_rfl⟩ w

variable (h : VoteInv members nodes requests grants H)

include h

theorem addRequest {m : RequestVote} (hm : m.term ≤ (nodes m.candidateId).currentTerm) :
    VoteInv members nodes (requests ++ [m]) grants H :=
  { h with
    request_le := List.forall_mem_append.mpr ⟨h.request_le, List.forall_mem_singleton.mpr hm⟩ }

theorem addGrant {g : Grant} (hg : H.ballot g.term g.voter = some g.candidate) :
    VoteInv members nodes requests (grants ++ [g]) H :=
  { h with granted := List.forall_mem_append.mpr ⟨h.granted, List.forall_mem_singleton.mpr hg⟩ }

/-- A node moves on without winning an election, possibly casting a ballot. Within its term it keeps
its vote and its role. -/
theorem move {H' : History} (hlead : H'.leader = H.leader) (hquor : H'.quorum = H.quorum)
    (hext : ∀ t w c, H.ballot t w = some c → H'.ballot t w = some c)
    (hnew : ∀ t w c, H'.ballot t w = some c → H.ballot t w = some c ∨
      w = v ∧ t = n.currentTerm ∧ n.votedFor = some c ∧ t ≤ (update nodes v n c).currentTerm)
    (hid : n.id = (nodes v).id) (hprs : n.peers = (nodes v).peers)
    (hterm : (nodes v).currentTerm ≤ n.currentTerm)
    (hkeep : n.currentTerm = (nodes v).currentTerm → ∀ c, (nodes v).votedFor = some c →
      n.votedFor = some c)
    (hrole : n.currentTerm = (nodes v).currentTerm ∧ n.role = (nodes v).role ∨
      (nodes v).currentTerm < n.currentTerm ∧ n.role ≠ .leader ∧
        (n.role = .candidate → v ∈ members ∧ H'.ballot n.currentTerm v = some v)) :
    VoteInv members (update nodes v n) requests grants H' where
  id_eq := (forall_update_iff nodes fun w n ↦ n.id = w).mpr
    ⟨hid.trans (h.id_eq v), fun w _ ↦ h.id_eq w⟩
  peers_eq := (forall_update_iff nodes fun _ n ↦ n.peers = members).mpr
    ⟨hprs.trans (h.peers_eq v), fun w _ ↦ h.peers_eq w⟩
  request_le m hm := (h.request_le m hm).trans (le_update_currentTerm hterm _)
  ballot_le t w c hb := by
    rcases hnew t w c hb with hold | ⟨rfl, rfl, -⟩
    · exact (h.ballot_le t w c hold).trans (le_update_currentTerm hterm _)
    · rw [update_self]
  ballot_cand_le t w c hb := by
    rcases hnew t w c hb with hold | ⟨-, -, -, hle⟩
    · exact (h.ballot_cand_le t w c hold).trans (le_update_currentTerm hterm _)
    · exact hle
  ballot_vote := by
    refine (forall_update_iff nodes fun w n ↦ ∀ c, H'.ballot n.currentTerm w = some c →
      n.votedFor = some c).mpr ⟨fun c hb ↦ ?_, fun w hw c hb ↦ ?_⟩
    · rcases hnew _ v c hb with hold | ⟨-, -, hvote, -⟩
      · have heq := le_antisymm (h.ballot_le _ v c hold) hterm
        rw [heq] at hold
        exact hkeep heq c (h.ballot_vote v c hold)
      · exact hvote
    · rcases hnew _ w c hb with hold | ⟨hwv, -⟩
      · exact h.ballot_vote w c hold
      · exact absurd hwv hw
  granted g hg := hext _ _ _ (h.granted g hg)
  standing := by
    refine (forall_update_iff nodes fun w n ↦ n.role ≠ .follower → w ∈ members ∧
      H'.ballot n.currentTerm w = some w).mpr ⟨fun hr ↦ ?_, fun w _ hr ↦ ?_⟩
    · rcases hrole with ⟨heq, hsame⟩ | ⟨-, hnot, hcand⟩
      · rw [hsame] at hr
        rw [heq]
        exact ⟨(h.standing v hr).1, hext _ _ _ (h.standing v hr).2⟩
      · cases hn : n.role with
        | follower => exact absurd hn hr
        | candidate => exact hcand hn
        | leader => exact absurd hn hnot
    · exact ⟨(h.standing w hr).1, hext _ _ _ (h.standing w hr).2⟩
  leader_iff := by
    rw [hlead]
    refine (forall_update_iff nodes fun w n ↦ n.role = .leader ↔
      H.leader n.currentTerm = some w).mpr ⟨?_, fun w _ ↦ h.leader_iff w⟩
    rcases hrole with ⟨heq, hsame⟩ | ⟨hlt, hnot, -⟩
    · rw [heq, hsame]
      exact h.leader_iff v
    · refine iff_of_false hnot fun hl ↦ ?_
      exact absurd (h.leader_le _ v hl) (Nat.not_le.mpr hlt)
  leader_le t w hl := (h.leader_le t w (hlead ▸ hl)).trans (le_update_currentTerm hterm _)
  quorum_majority t c hl := hquor ▸ h.quorum_majority t c (hlead ▸ hl)
  quorum_ballot t c w hl hw :=
    hext _ _ _ (h.quorum_ballot t c w (hlead ▸ hl) (by rwa [hquor] at hw))

theorem keep {H' : History} (hlead : H'.leader = H.leader) (hquor : H'.quorum = H.quorum)
    (hballot : H'.ballot = H.ballot) (hfol : (nodes v).Follows n)
    (hvote : n.currentTerm = (nodes v).currentTerm → n.votedFor = (nodes v).votedFor) :
    VoteInv members (update nodes v n) requests grants H' := by
  refine h.move hlead hquor (fun t w c hb ↦ hballot ▸ hb) (fun t w c hb ↦ .inl (hballot ▸ hb))
    hfol.id_eq hfol.peers_eq hfol.term_le (fun heq c hc ↦ (hvote heq).trans hc) ?_
  rcases Nat.eq_or_lt_of_le hfol.term_le with heq | hlt
  · exact .inl ⟨heq.symm, hfol.role_eq heq.symm⟩
  · have hrole := hfol.role_follower hlt
    exact .inr ⟨hlt, by simp [hrole], by simp [hrole]⟩

theorem majority_of_tally {votes : ℕ}
    (hrole : (nodes v).role = .candidate) (hmaj : (nodes v).majority ≤ votes)
    (hvts : votes ≤ 1 + (nodes v).peers.countP fun p ↦
      decide (⟨(nodes v).currentTerm, p, v⟩ ∈ grants) && decide (p ≠ v)) :
    Majority members fun w ↦ decide (H.ballot (nodes v).currentTerm w = some v) := by
  obtain ⟨hmem, hown⟩ := h.standing v (by simp [hrole])
  rw [RaftNode.majority, h.peers_eq] at hmaj
  rw [h.peers_eq] at hvts
  have hct : members.countP (fun p ↦
        decide (⟨(nodes v).currentTerm, p, v⟩ ∈ grants) && decide (p ≠ v)) ≤
      members.countP fun p ↦
        decide (H.ballot (nodes v).currentTerm p = some v) && decide (p ≠ v) := by
    refine List.countP_mono_left fun p _ hp ↦ ?_
    rw [Bool.and_eq_true, decide_eq_true_iff] at hp ⊢
    exact ⟨h.granted _ hp.1, hp.2⟩
  have hsucc := succ_countP_ne_le (p := fun w ↦ decide (H.ballot (nodes v).currentTerm w = some v))
    hmem (decide_eq_true hown)
  rw [Majority]
  omega

/-- **One leader per term.** A candidate with a majority of ballots finds its term without one. -/
theorem leader_eq_none (hrole : (nodes v).role = .candidate)
    (hmaj : Majority members fun w ↦ decide (H.ballot (nodes v).currentTerm w = some v)) :
    H.leader (nodes v).currentTerm = none := by
  cases hl : H.leader (nodes v).currentTerm with
  | none => rfl
  | some c =>
    obtain ⟨p, -, hq, hp⟩ := (h.quorum_majority _ c hl).inter hmaj
    rw [decide_eq_true_iff] at hp
    have hc := h.quorum_ballot _ c p hl hq
    obtain rfl : c = v := Option.some.inj (hc.symm.trans hp)
    rw [← h.leader_iff, hrole] at hl
    exact absurd hl (by decide)

theorem elect (log : List Entry) (hrole : (nodes v).role = .candidate)
    (hmaj : Majority members fun w ↦ decide (H.ballot (nodes v).currentTerm w = some v))
    (hid : n.id = (nodes v).id) (hprs : n.peers = (nodes v).peers)
    (hterm : n.currentTerm = (nodes v).currentTerm) (hvote : n.votedFor = (nodes v).votedFor)
    (hlead : n.role = .leader) :
    VoteInv members (update nodes v n) requests grants (H.elect (nodes v).currentTerm v log) := by
  have hnone := h.leader_eq_none hrole hmaj
  obtain ⟨hmem, hown⟩ := h.standing v (by simp [hrole])
  have htms : ∀ w, (nodes w).currentTerm ≤ (update nodes v n w).currentTerm :=
    le_update_currentTerm hterm.ge
  refine ⟨?_, ?_, fun m hm ↦ (h.request_le m hm).trans (htms _),
    fun t w c hb ↦ (h.ballot_le t w c hb).trans (htms _),
    fun t w c hb ↦ (h.ballot_cand_le t w c hb).trans (htms _), ?_, h.granted, ?_, ?_, ?_, ?_, ?_⟩
  · exact (forall_update_iff nodes fun w n ↦ n.id = w).mpr
      ⟨hid.trans (h.id_eq v), fun w _ ↦ h.id_eq w⟩
  · exact (forall_update_iff nodes fun _ n ↦ n.peers = members).mpr
      ⟨hprs.trans (h.peers_eq v), fun w _ ↦ h.peers_eq w⟩
  · refine (forall_update_iff nodes fun w n ↦ ∀ c, H.ballot n.currentTerm w = some c →
      n.votedFor = some c).mpr ⟨?_, fun w _ ↦ h.ballot_vote w⟩
    rw [hterm, hvote]
    exact h.ballot_vote v
  · refine (forall_update_iff nodes fun w n ↦ n.role ≠ .follower → w ∈ members ∧
      H.ballot n.currentTerm w = some w).mpr ⟨fun _ ↦ ?_, fun w _ ↦ h.standing w⟩
    rw [hterm]
    exact ⟨hmem, hown⟩
  · refine (forall_update_iff nodes fun w n ↦ n.role = .leader ↔
      (H.elect (nodes v).currentTerm v log).leader n.currentTerm = some w).mpr
        ⟨?_, fun w hw ↦ (h.leader_iff w).trans ⟨fun hl ↦ ?_, fun hl ↦ ?_⟩⟩
    · rw [hterm, History.elect_leader_self]
      exact iff_of_true hlead rfl
    · rw [History.elect_leader_of_ne]
      · exact hl
      · intro heq
        rw [heq, hnone] at hl
        exact absurd hl (by simp)
    · rcases H.elect_leader_eq_some v log hl with ⟨-, hwv⟩ | ⟨-, hold⟩
      · exact absurd hwv hw
      · exact hold
  · intro t c hl
    rcases H.elect_leader_eq_some v log hl with ⟨rfl, rfl⟩ | ⟨-, hold⟩
    · exact htms c
    · exact (h.leader_le t c hold).trans (htms c)
  · intro t c hl
    rcases H.elect_leader_eq_some v log hl with ⟨rfl, rfl⟩ | ⟨hne, hold⟩
    · rwa [History.elect_quorum_self]
    · rw [H.elect_quorum_of_ne v log hne]
      exact h.quorum_majority t c hold
  · intro t c w hl hw
    rcases H.elect_leader_eq_some v log hl with ⟨rfl, rfl⟩ | ⟨hne, hold⟩
    · rwa [History.elect_quorum_self, decide_eq_true_iff] at hw
    · rw [H.elect_quorum_of_ne v log hne] at hw
      exact h.quorum_ballot t c w hold hw

end VoteInv

end Synapse
