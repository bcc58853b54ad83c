import Mathlib.Data.Set.Subsingleton
import Synapse.Raft.Node

/-!
# One vote per term, across restarts

A single node answers an arbitrary sequence of calls, and may at any point be rebuilt from its
`StateStore`. Besides the node, the state records the *ballots* it has cast: one for every vote it
grants, and one for itself whenever it begins an election.

`handleAppendEntries` raises the term without clearing `votedFor`, so the recorded vote may belong
to an earlier term. The invariant is therefore one-sided: a ballot cast in the current term is the
recorded vote, while the recorded vote need not be a ballot of the current term. A stale vote can
only restrict what is granted later.
-/

namespace Synapse

/-- The calls a node may receive; a restart rebuilds it with `RaftNode.new` from its store. -/
inductive VoterOp
  | beginElection
  | requestVote (candidateTerm : ℕ) (candidateId : NodeId) (lastLogIndex lastLogTerm : ℕ)
  | appendEntries (leaderTerm prevLogIndex prevLogTerm : ℕ) (entries : List Entry)
      (leaderCommit : ℕ)
  | restart

/-- A node together with the ballots `(term, candidate)` it has cast so far. -/
structure Voter where
  node : RaftNode
  ballots : List (ℕ × NodeId)

namespace Voter

def new (id : NodeId) (peers : List NodeId) (store : StateStore) : Voter :=
  ⟨RaftNode.new id peers store, []⟩

def step (v : Voter) : VoterOp → Voter
  | .beginElection =>
    let node := v.node.beginElection.1
    ⟨node, (node.currentTerm, node.id) :: v.ballots⟩
  | .requestVote candidateTerm candidateId lastLogIndex lastLogTerm =>
    let (node, term, granted) :=
      v.node.handleRequestVote candidateTerm candidateId lastLogIndex lastLogTerm
    ⟨node, if granted then (term, candidateId) :: v.ballots else v.ballots⟩
  | .appendEntries leaderTerm prevLogIndex prevLogTerm entries leaderCommit =>
    ⟨(v.node.handleAppendEntries leaderTerm prevLogIndex prevLogTerm entries leaderCommit).1,
      v.ballots⟩
  | .restart => ⟨RaftNode.new v.node.id v.node.peers v.node.store, v.ballots⟩

def run (v : Voter) (ops : List VoterOp) : Voter := ops.foldl step v

/-- What every call keeps: the store is in step with the node, ballots belong to terms reached,
a ballot of the current term is the recorded vote, and no term has two. -/
structure Inv (v : Voter) : Prop where
  persisted : v.node.Persisted
  le_currentTerm : ∀ t c, (t, c) ∈ v.ballots → t ≤ v.node.currentTerm
  votedFor : ∀ c, (v.node.currentTerm, c) ∈ v.ballots → v.node.votedFor = some c
  unique : ∀ t, {c | (t, c) ∈ v.ballots}.Subsingleton

theorem inv_new (id : NodeId) (peers : List NodeId) (store : StateStore) :
    (new id peers store).Inv where
  persisted := RaftNode.new_persisted id peers store
  le_currentTerm := by simp [new]
  votedFor := by simp [new]
  unique := by simp [new]

variable {v : Voter} {node : RaftNode}

/-- Casting a ballot for `c`, recorded in the node's new term, keeps the invariant if any ballot of
that term names `c` too. -/
private theorem Inv.cast (h : v.Inv) {c : NodeId} (hp : node.Persisted)
    (hle : v.node.currentTerm ≤ node.currentTerm) (hvote : node.votedFor = some c)
    (hsame : ∀ c', (node.currentTerm, c') ∈ v.ballots → c' = c) :
    Inv ⟨node, (node.currentTerm, c) :: v.ballots⟩ where
  persisted := hp
  le_currentTerm t c' hmem := by
    rcases List.mem_cons.mp hmem with heq | hmem
    · exact (Prod.mk.inj heq).1.le
    · exact (h.le_currentTerm t c' hmem).trans hle
  votedFor c' hmem := by
    rcases List.mem_cons.mp hmem with heq | hmem
    · exact hvote.trans (congrArg some (Prod.mk.inj heq).2.symm)
    · exact hvote.trans (congrArg some (hsame c' hmem).symm)
  unique t c₁ h₁ c₂ h₂ := by
    rcases List.mem_cons.mp h₁ with heq₁ | h₁ <;> rcases List.mem_cons.mp h₂ with heq₂ | h₂
    · exact (Prod.mk.inj heq₁).2.trans (Prod.mk.inj heq₂).2.symm
    · obtain ⟨ht, hc⟩ := Prod.mk.inj heq₁
      exact hc.trans (hsame c₂ (ht ▸ h₂)).symm
    · obtain ⟨ht, hc⟩ := Prod.mk.inj heq₂
      exact (hsame c₁ (ht ▸ h₁)).trans hc.symm
    · exact h.unique t h₁ h₂

/-- A call that casts no ballot keeps the invariant when it keeps the vote or raises the term. -/
private theorem Inv.keep (h : v.Inv) (hp : node.Persisted)
    (hle : v.node.currentTerm ≤ node.currentTerm)
    (hvote : v.node.currentTerm = node.currentTerm → node.votedFor = v.node.votedFor) :
    Inv ⟨node, v.ballots⟩ where
  persisted := hp
  le_currentTerm t c hmem := (h.le_currentTerm t c hmem).trans hle
  votedFor c hmem := by
    have heq : v.node.currentTerm = node.currentTerm := le_antisymm hle (h.le_currentTerm _ c hmem)
    rw [hvote heq]
    exact h.votedFor c (heq ▸ hmem)
  unique := h.unique

theorem currentTerm_le_step (v : Voter) (h : v.Inv) (op : VoterOp) :
    v.node.currentTerm ≤ (v.step op).node.currentTerm := by
  cases op with
  | beginElection => exact Nat.le_succ _
  | requestVote t c li lt =>
    exact (le_max_left _ _).trans_eq (v.node.handleRequestVote_currentTerm t c li lt).symm
  | appendEntries t pi pt es lc =>
    exact (le_max_left _ _).trans_eq (v.node.handleAppendEntries_currentTerm t pi pt es lc).symm
  | restart =>
    have hstore : v.node.store = ⟨v.node.currentTerm, v.node.votedFor⟩ := h.persisted
    simp [step, RaftNode.new, StateStore.loadTerm, hstore]

theorem Inv.requestVote (h : v.Inv) (t : ℕ) (c : NodeId) (li lt : ℕ) :
    (v.step (.requestVote t c li lt)).Inv := by
  have hp := v.node.handleRequestVote_persisted t c li lt h.persisted
  have hterm := v.node.handleRequestVote_currentTerm t c li lt
  have hvote := v.node.handleRequestVote_votedFor t c li lt
  have hrep := v.node.handleRequestVote_reply t c li lt
  have hle : v.node.currentTerm ≤ (v.node.handleRequestVote t c li lt).1.currentTerm :=
    (le_max_left _ _).trans_eq hterm.symm
  simp only [step, hrep, ← hterm]
  by_cases hg : v.node.grants t c li lt = true
  · rw [if_pos hg] at hvote ⊢
    refine h.cast hp hle hvote fun c' hmem ↦ ?_
    -- A ballot already cast in the term of the request pins the term and the recorded vote.
    obtain ⟨hcur, hfree, -⟩ := (v.node.grants_iff t c li lt).mp hg
    have hcur' := h.le_currentTerm _ c' hmem
    rw [hterm] at hcur' hmem
    have heq : v.node.currentTerm = t := le_antisymm hcur ((le_max_right _ _).trans hcur')
    rw [← heq, max_self] at hmem
    have hrec := h.votedFor c' hmem
    rcases hfree with hlt | hnone | hsome
    · exact absurd heq hlt.ne
    · rw [hrec] at hnone; simp at hnone
    · rw [hrec] at hsome; exact Option.some.inj hsome
  · rw [if_neg hg] at hvote ⊢
    refine h.keep hp hle fun heq ↦ ?_
    rw [hterm] at heq
    rw [hvote, if_neg (by omega)]

theorem Inv.step (h : v.Inv) (op : VoterOp) : (v.step op).Inv := by
  cases op with
  | beginElection =>
    refine h.cast rfl (Nat.le_succ _) rfl fun c' hmem ↦ ?_
    exact absurd (h.le_currentTerm _ c' hmem) (Nat.not_succ_le_self _)
  | requestVote t c li lt => exact h.requestVote t c li lt
  | appendEntries t pi pt es lc =>
    refine h.keep (v.node.handleAppendEntries_persisted t pi pt es lc h.persisted) ?_ fun _ ↦ ?_
    · exact (le_max_left _ _).trans_eq (v.node.handleAppendEntries_currentTerm t pi pt es lc).symm
    · exact (v.node.handleAppendEntries_frame t pi pt es lc).2.2.1
  | restart =>
    have hstore : v.node.store = ⟨v.node.currentTerm, v.node.votedFor⟩ := h.persisted
    refine h.keep (RaftNode.new_persisted _ _ _) ?_ fun _ ↦ ?_
    · exact v.currentTerm_le_step h .restart
    · simp [RaftNode.new, StateStore.loadVotedFor, hstore]

theorem Inv.run (h : v.Inv) (ops : List VoterOp) :
    (v.run ops).Inv ∧ v.node.currentTerm ≤ (v.run ops).node.currentTerm := by
  induction ops generalizing v with
  | nil => exact ⟨h, le_refl _⟩
  | cons op ops ih =>
    obtain ⟨hinv, hle⟩ := ih (h.step op)
    exact ⟨hinv, (v.currentTerm_le_step h op).trans hle⟩

/-- **One vote per term.** After any sequence of calls and restarts the store holds the current term
and vote, the term does not go down, and the ballots of one term, the node's own candidacies
included, name at most one candidate. -/
theorem run_one_vote_per_term (id : NodeId) (peers : List NodeId) (store : StateStore)
    (ops more : List VoterOp) :
    let v := (new id peers store).run ops
    v.node.store = ⟨v.node.currentTerm, v.node.votedFor⟩ ∧
      v.node.currentTerm ≤ (v.run more).node.currentTerm ∧
      ∀ t, {c | (t, c) ∈ v.ballots}.Subsingleton := by
  have hinv := ((inv_new id peers store).run ops).1
  exact ⟨hinv.persisted, (hinv.run more).2, hinv.unique⟩

end Voter

end Synapse
