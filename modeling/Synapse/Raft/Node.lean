import Mathlib.Data.List.Basic
import Mathlib.Order.Lattice
import Synapse.Basic

/-!
# The Raft node

`RaftNode` is the pure state machine of the embedded consensus core: it answers `RequestVote` and
`AppendEntries`, tracks what its peers have acknowledged, and hands committed entries to the
apply loop. Transport and timers are the caller's business, so every operation here is a function
from a node to a node and a reply.

Terms and indices are natural numbers. Loops of the source that walk the log from a given position
are recursions on the suffix of the log from that position. Each operation comes with the small
lemmas the protocol proofs use; later modules never unfold an operation.
-/

namespace Synapse

abbrev NodeId := String

inductive Role
  | follower
  | candidate
  | leader
deriving DecidableEq, Repr

structure Entry where
  term : ℕ
  /-- 1-based position in the log. -/
  index : ℕ
  data : Bytes
deriving DecidableEq, Repr

/-- The durable pair a node must not forget: its term and its vote in it. The source abstracts it
behind a trait; its contents are the last values saved. -/
structure StateStore where
  term : ℕ := 0
  votedFor : Option NodeId := none
deriving DecidableEq, Repr

namespace StateStore

def saveTerm (s : StateStore) (term : ℕ) : StateStore := { s with term := term }

def loadTerm (s : StateStore) : ℕ := s.term

def saveVotedFor (s : StateStore) (id : Option NodeId) : StateStore := { s with votedFor := id }

def loadVotedFor (s : StateStore) : Option NodeId := s.votedFor

end StateStore

structure RaftNode where
  id : NodeId
  peers : List NodeId
  role : Role
  currentTerm : ℕ
  votedFor : Option NodeId
  log : List Entry
  commitIndex : ℕ
  lastApplied : ℕ
  /-- Next index to send each peer (leader only). -/
  nextIndex : List ℕ
  /-- Highest index replicated on each peer (leader only). -/
  matchIndex : List ℕ
  store : StateStore
deriving DecidableEq, Repr

namespace RaftNode

/-! ## Construction and accessors -/

def new (id : NodeId) (peers : List NodeId) (store : StateStore) : RaftNode where
  id := id
  peers := peers
  role := .follower
  currentTerm := store.loadTerm
  votedFor := store.loadVotedFor
  log := []
  commitIndex := 0
  lastApplied := 0
  nextIndex := List.replicate (max (peers.length / 2 + 1) peers.length) 1
  matchIndex := List.replicate peers.length 0
  store := store

def position (n : RaftNode) (peer : NodeId) : Option ℕ := n.peers.findIdx? (· == peer)

def logLen (n : RaftNode) : ℕ := n.log.length

def majority (n : RaftNode) : ℕ := n.peers.length / 2 + 1

def nextIndexOf (n : RaftNode) (peer : NodeId) : ℕ :=
  match n.position peer with
  | some i => (n.nextIndex[i]?).getD (n.logLen + 1)
  | none => n.logLen + 1

def advanceNext (n : RaftNode) (peer : NodeId) (next : ℕ) : RaftNode :=
  match n.position peer with
  | some i => { n with nextIndex := n.nextIndex.set i next }
  | none => n

def lastLog (n : RaftNode) : ℕ × ℕ :=
  match n.log.getLast? with
  | some e => (e.index, e.term)
  | none => (0, 0)

def entriesFrom (n : RaftNode) (start : ℕ) : List Entry :=
  if start = 0 then n.log else n.log.dropWhile fun e ↦ decide (e.index < start)

/-- The candidate's log is at least as up-to-date as ours: last term first, then last index. -/
def isLogUpToDate (n : RaftNode) (lastIndex lastTerm : ℕ) : Bool :=
  decide (n.lastLog.2 < lastTerm) || (lastTerm == n.lastLog.2 && decide (n.lastLog.1 ≤ lastIndex))

/-! ## Elections -/

/-- Begin an election: bump the term, become candidate, grant our own vote. Returns the
`(lastIndex, lastTerm)` pair for the vote requests. -/
def beginElection (n : RaftNode) : RaftNode × ℕ × ℕ :=
  ({ n with
      currentTerm := n.currentTerm + 1
      role := .candidate
      votedFor := some n.id
      store := (n.store.saveTerm (n.currentTerm + 1)).saveVotedFor (some n.id) }, n.lastLog)

/-- Tally `votes` (our own included). On a majority the node becomes leader and resets the next
index of every peer; nothing else changes. -/
def finalizeElection (n : RaftNode) (votes : ℕ) : RaftNode :=
  if n.majority ≤ votes then
    { n with role := .leader, nextIndex := n.nextIndex.map fun _ ↦ n.logLen + 1 }
  else n

/-- A vote request of a newer term: step down, forget the vote, persist both. -/
def adoptTermForVote (n : RaftNode) (term : ℕ) : RaftNode :=
  if n.currentTerm < term then
    { n with
      currentTerm := term
      votedFor := none
      role := .follower
      store := (n.store.saveTerm term).saveVotedFor none }
  else n

def handleRequestVote (n : RaftNode) (candidateTerm : ℕ) (candidateId : NodeId)
    (lastLogIndex lastLogTerm : ℕ) : RaftNode × ℕ × Bool :=
  if candidateTerm < n.currentTerm then (n, n.currentTerm, false)
  else
    let n := n.adoptTermForVote candidateTerm
    let canVote := n.votedFor == none || n.votedFor == some candidateId
    if canVote && n.isLogUpToDate lastLogIndex lastLogTerm then
      ({ n with
          votedFor := some candidateId
          store := n.store.saveVotedFor (some candidateId) }, n.currentTerm, true)
    else (n, n.currentTerm, false)

/-! ## Replication -/

/-- An `AppendEntries` of a newer term: step down and persist the term. The recorded vote is kept,
stale as it may be. -/
def adoptTermForAppend (n : RaftNode) (term : ℕ) : RaftNode :=
  if n.currentTerm < term then
    { n with currentTerm := term, role := .follower, store := n.store.saveTerm term }
  else n

/-- The log holds an entry of term `prevLogTerm` at `prevLogIndex`, or the index is zero. -/
def prevOk (n : RaftNode) (prevLogIndex prevLogTerm : ℕ) : Bool :=
  if prevLogIndex = 0 then true
  else
    match n.log[prevLogIndex - 1]? with
    | some e => e.term == prevLogTerm
    | none => false

/-- The loop over the received entries, from position `start` of the log: an entry of another term
truncates the log, entries past the end are pushed, and an existing entry of the same term is kept,
whatever its data. -/
def appendLoop (log : List Entry) (start : ℕ) : List Entry → List Entry
  | [] => log
  | e :: entries =>
    let log :=
      match log[start]? with
      | some existing => if existing.term ≠ e.term then log.take start else log
      | none => log
    let log := if log.length ≤ start then log ++ [e] else log
    appendLoop log (start + 1) entries

/-- Handle an `AppendEntries` (a heartbeat when `entries` is empty). Returns `(term, success)`. -/
def handleAppendEntries (n : RaftNode) (leaderTerm prevLogIndex prevLogTerm : ℕ)
    (entries : List Entry) (leaderCommit : ℕ) : RaftNode × ℕ × Bool :=
  if leaderTerm < n.currentTerm then (n, n.currentTerm, false)
  else
    let n := n.adoptTermForAppend leaderTerm
    if n.prevOk prevLogIndex prevLogTerm then
      let log := appendLoop n.log prevLogIndex entries
      let commitIndex :=
        if n.commitIndex < leaderCommit then min leaderCommit log.length else n.commitIndex
      ({ n with log := log, commitIndex := commitIndex }, n.currentTerm, true)
    else (n, n.currentTerm, false)

def leaderAppend (n : RaftNode) (data : Bytes) : RaftNode × ℕ :=
  ({ n with log := n.log ++ [⟨n.currentTerm, n.logLen + 1, data⟩] }, n.logLen + 1)

/-! ## Commitment and application -/

/-- The commit loop over the entries past `idx`: go on while a majority has replicated the next
entry and it is of the current term. -/
def advanceCommit (majority term : ℕ) (matchIndex : List ℕ) : List Entry → ℕ → ℕ
  | [], idx => idx
  | e :: rest, idx =>
    let replicated := 1 + matchIndex.countP fun m ↦ decide (idx + 1 ≤ m)
    if majority ≤ replicated ∧ e.term = term then
      advanceCommit majority term matchIndex rest (idx + 1)
    else idx

def ackedMatchIndex (n : RaftNode) (peer : NodeId) (peerMatch : ℕ) : List ℕ :=
  match n.position peer with
  | some i => n.matchIndex.modify i (max · peerMatch)
  | none => n.matchIndex

/-- Record a peer's acknowledgement and advance the commit index over the entries that a majority,
this node included, has replicated. -/
def recordPeerAck (n : RaftNode) (peer : NodeId) (peerMatch : ℕ) : RaftNode :=
  let matchIndex := n.ackedMatchIndex peer peerMatch
  { n with
    matchIndex := matchIndex
    commitIndex := advanceCommit n.majority n.currentTerm matchIndex (n.log.drop n.commitIndex)
      n.commitIndex }

def commitUpTo (n : RaftNode) (idx : ℕ) : RaftNode :=
  { n with commitIndex := min idx n.logLen }

/-- The apply loop over the entries past `lastApplied`: the new `lastApplied`, and the entries
passed to `apply` in order. -/
def applyLoop (commitIndex : ℕ) : List Entry → ℕ → ℕ × List Entry
  | [], lastApplied => (lastApplied, [])
  | e :: rest, lastApplied =>
    if lastApplied < commitIndex then
      let (last, applied) := applyLoop commitIndex rest (lastApplied + 1)
      (last, e :: applied)
    else (lastApplied, [])

/-- Hand every committed entry that has not been applied yet to the state machine. Returns the
entries handed over. -/
def applyCommitted (n : RaftNode) : RaftNode × List Entry :=
  let (last, applied) := applyLoop n.commitIndex (n.log.drop n.lastApplied) n.lastApplied
  ({ n with lastApplied := last }, applied)

/-! ## What each operation does

The persistent pair is tracked by `Persisted`. For the two message handlers the reply is decided by
a Boolean (`grants`, and `prevOk` with the term check), and every field of the new node is a
function of the old one and that Boolean. -/

def Persisted (n : RaftNode) : Prop := n.store = ⟨n.currentTerm, n.votedFor⟩

theorem new_persisted (id : NodeId) (peers : List NodeId) (store : StateStore) :
    (new id peers store).Persisted := rfl

variable (n : RaftNode)

section FinalizeElection

variable (votes : ℕ)

theorem finalizeElection_role_eq_leader :
    (n.finalizeElection votes).role = .leader ↔ n.majority ≤ votes ∨ n.role = .leader := by
  rw [finalizeElection]
  split_ifs with h <;> simp [h]

/-- Only the role and the next indices change: the acknowledgement table survives an election. -/
@[simp] theorem finalizeElection_frame :
    let n' := n.finalizeElection votes
    n'.id = n.id ∧ n'.peers = n.peers ∧ n'.currentTerm = n.currentTerm ∧
      n'.votedFor = n.votedFor ∧ n'.log = n.log ∧ n'.commitIndex = n.commitIndex ∧
      n'.lastApplied = n.lastApplied ∧ n'.matchIndex = n.matchIndex := by
  rw [finalizeElection]; split_ifs <;> simp

end FinalizeElection

section RequestVote

variable (candidateTerm : ℕ) (candidateId : NodeId) (lastLogIndex lastLogTerm : ℕ)

/-- The vote is granted: the request is not stale, the vote of its term is free or already the
candidate's, and the candidate's log is up to date. -/
def grants : Bool :=
  decide (n.currentTerm ≤ candidateTerm) &&
    (decide (n.currentTerm < candidateTerm) || n.votedFor == none
      || n.votedFor == some candidateId) &&
    n.isLogUpToDate lastLogIndex lastLogTerm

theorem grants_iff : n.grants candidateTerm candidateId lastLogIndex lastLogTerm = true ↔
    n.currentTerm ≤ candidateTerm ∧
      (n.currentTerm < candidateTerm ∨ n.votedFor = none ∨ n.votedFor = some candidateId) ∧
      n.isLogUpToDate lastLogIndex lastLogTerm = true := by
  simp only [grants, Bool.and_eq_true, Bool.or_eq_true, decide_eq_true_eq, beq_iff_eq, or_assoc,
    and_assoc]

theorem adoptTermForVote_currentTerm (term : ℕ) :
    (n.adoptTermForVote term).currentTerm = max n.currentTerm term := by
  rw [adoptTermForVote]
  split_ifs with hnew
  · exact (Nat.max_eq_right hnew.le).symm
  · exact (Nat.max_eq_left (Nat.not_lt.mp hnew)).symm

theorem adoptTermForVote_role (term : ℕ) : (n.adoptTermForVote term).role =
    if n.currentTerm < term then .follower else n.role := by
  rw [adoptTermForVote]
  split_ifs <;> rfl

theorem adoptTermForVote_votedFor (term : ℕ) : (n.adoptTermForVote term).votedFor =
    if n.currentTerm < term then none else n.votedFor := by
  rw [adoptTermForVote]
  split_ifs <;> rfl

private theorem isLogUpToDate_adoptTermForVote (term : ℕ) :
    (n.adoptTermForVote term).isLogUpToDate lastLogIndex lastLogTerm =
      n.isLogUpToDate lastLogIndex lastLogTerm := by
  rw [adoptTermForVote]
  split_ifs <;> rfl

/-- Adopt the term if it is newer; then record the vote if it is granted. -/
theorem handleRequestVote_eq :
    n.handleRequestVote candidateTerm candidateId lastLogIndex lastLogTerm =
      if n.grants candidateTerm candidateId lastLogIndex lastLogTerm then
        ({ n.adoptTermForVote candidateTerm with
            votedFor := some candidateId
            store := (n.adoptTermForVote candidateTerm).store.saveVotedFor (some candidateId) },
          (n.adoptTermForVote candidateTerm).currentTerm, true)
      else
        (n.adoptTermForVote candidateTerm, (n.adoptTermForVote candidateTerm).currentTerm,
          false) := by
  by_cases hstl : candidateTerm < n.currentTerm
  · have hsame : n.adoptTermForVote candidateTerm = n := if_neg (Nat.not_lt.mpr hstl.le)
    have href : n.grants candidateTerm candidateId lastLogIndex lastLogTerm = false := by
      simp [grants, hstl]
    rw [handleRequestVote, if_pos hstl, href, if_neg Bool.false_ne_true, hsame]
  · have hcanVote : n.grants candidateTerm candidateId lastLogIndex lastLogTerm =
        (((n.adoptTermForVote candidateTerm).votedFor == none ||
          (n.adoptTermForVote candidateTerm).votedFor == some candidateId) &&
            (n.adoptTermForVote candidateTerm).isLogUpToDate lastLogIndex lastLogTerm) := by
      rw [isLogUpToDate_adoptTermForVote, adoptTermForVote_votedFor, grants,
        decide_eq_true (Nat.not_lt.mp hstl)]
      by_cases hnew : n.currentTerm < candidateTerm
      · simp [hnew]
      · simp [hnew]
    rw [handleRequestVote, if_neg hstl, hcanVote]

theorem handleRequestVote_reply :
    (n.handleRequestVote candidateTerm candidateId lastLogIndex lastLogTerm).2 =
      (max n.currentTerm candidateTerm,
        n.grants candidateTerm candidateId lastLogIndex lastLogTerm) := by
  rw [handleRequestVote_eq, ← adoptTermForVote_currentTerm]
  split_ifs with hgrants
  · rw [hgrants]
  · rw [Bool.eq_false_of_not_eq_true hgrants]

theorem handleRequestVote_currentTerm :
    (n.handleRequestVote candidateTerm candidateId lastLogIndex lastLogTerm).1.currentTerm =
      max n.currentTerm candidateTerm := by
  rw [handleRequestVote_eq, ← adoptTermForVote_currentTerm]
  split_ifs <;> rfl

theorem handleRequestVote_role :
    (n.handleRequestVote candidateTerm candidateId lastLogIndex lastLogTerm).1.role =
      if n.currentTerm < candidateTerm then .follower else n.role := by
  rw [handleRequestVote_eq, ← adoptTermForVote_role]
  split_ifs <;> rfl

theorem handleRequestVote_votedFor :
    (n.handleRequestVote candidateTerm candidateId lastLogIndex lastLogTerm).1.votedFor =
      if n.grants candidateTerm candidateId lastLogIndex lastLogTerm then some candidateId
      else if n.currentTerm < candidateTerm then none else n.votedFor := by
  rw [handleRequestVote_eq, ← adoptTermForVote_votedFor]
  split_ifs <;> rfl

theorem handleRequestVote_persisted (h : n.Persisted) :
    (n.handleRequestVote candidateTerm candidateId lastLogIndex lastLogTerm).1.Persisted := by
  rw [Persisted] at h ⊢
  simp only [handleRequestVote, adoptTermForVote]
  split_ifs <;> simp_all [StateStore.saveTerm, StateStore.saveVotedFor]

@[simp] theorem handleRequestVote_frame :
    let n' := (n.handleRequestVote candidateTerm candidateId lastLogIndex lastLogTerm).1
    n'.id = n.id ∧ n'.peers = n.peers ∧ n'.log = n.log ∧ n'.commitIndex = n.commitIndex ∧
      n'.lastApplied = n.lastApplied ∧ n'.matchIndex = n.matchIndex := by
  simp only [handleRequestVote, adoptTermForVote]; split_ifs <;> simp

end RequestVote

section AppendEntries

variable (leaderTerm prevLogIndex prevLogTerm : ℕ) (entries : List Entry) (leaderCommit : ℕ)

/-- The message is accepted: it is not stale and passes the consistency check. -/
def accepts : Bool :=
  decide (n.currentTerm ≤ leaderTerm) && n.prevOk prevLogIndex prevLogTerm

private theorem prevOk_adoptTermForAppend :
    (n.adoptTermForAppend leaderTerm).prevOk prevLogIndex prevLogTerm =
      n.prevOk prevLogIndex prevLogTerm := by
  rw [adoptTermForAppend]; split_ifs <;> rfl

private theorem adoptTermForAppend_frame : (n.adoptTermForAppend leaderTerm).log = n.log ∧
      (n.adoptTermForAppend leaderTerm).commitIndex = n.commitIndex := by
  rw [adoptTermForAppend]; split_ifs <;> exact ⟨rfl, rfl⟩

theorem adoptTermForAppend_currentTerm :
    (n.adoptTermForAppend leaderTerm).currentTerm = max n.currentTerm leaderTerm := by
  rw [adoptTermForAppend]
  split_ifs with hnew
  · exact (Nat.max_eq_right hnew.le).symm
  · exact (Nat.max_eq_left (Nat.not_lt.mp hnew)).symm

/-- Adopt the term if it is newer; then take over the entries if the message is accepted. -/
theorem handleAppendEntries_eq :
    n.handleAppendEntries leaderTerm prevLogIndex prevLogTerm entries leaderCommit =
      if n.accepts leaderTerm prevLogIndex prevLogTerm then
        ({ n.adoptTermForAppend leaderTerm with
            log := appendLoop n.log prevLogIndex entries
            commitIndex := if n.commitIndex < leaderCommit then
              min leaderCommit (appendLoop n.log prevLogIndex entries).length else n.commitIndex },
          (n.adoptTermForAppend leaderTerm).currentTerm, true)
      else
        (n.adoptTermForAppend leaderTerm, (n.adoptTermForAppend leaderTerm).currentTerm,
          false) := by
  obtain ⟨hlog, hcom⟩ := n.adoptTermForAppend_frame leaderTerm
  by_cases hstl : leaderTerm < n.currentTerm
  · have hsame : n.adoptTermForAppend leaderTerm = n := if_neg (Nat.not_lt.mpr hstl.le)
    have href : n.accepts leaderTerm prevLogIndex prevLogTerm = false := by simp [accepts, hstl]
    rw [handleAppendEntries, if_pos hstl, href, if_neg Bool.false_ne_true, hsame]
  · rw [handleAppendEntries, if_neg hstl, accepts, decide_eq_true (Nat.not_lt.mp hstl),
      Bool.true_and]
    dsimp only
    rw [prevOk_adoptTermForAppend, hlog, hcom]

theorem handleAppendEntries_reply :
    (n.handleAppendEntries leaderTerm prevLogIndex prevLogTerm entries leaderCommit).2 =
      (max n.currentTerm leaderTerm, n.accepts leaderTerm prevLogIndex prevLogTerm) := by
  rw [handleAppendEntries_eq, ← adoptTermForAppend_currentTerm]
  by_cases hacc : n.accepts leaderTerm prevLogIndex prevLogTerm = true
  · rw [if_pos hacc, hacc]
  · rw [if_neg hacc, Bool.eq_false_of_not_eq_true hacc]

theorem handleAppendEntries_currentTerm :
    (n.handleAppendEntries leaderTerm prevLogIndex prevLogTerm entries
      leaderCommit).1.currentTerm = max n.currentTerm leaderTerm := by
  rw [handleAppendEntries_eq, ← adoptTermForAppend_currentTerm]
  split_ifs <;> rfl

theorem handleAppendEntries_role :
    (n.handleAppendEntries leaderTerm prevLogIndex prevLogTerm entries leaderCommit).1.role =
      if n.currentTerm < leaderTerm then .follower else n.role := by
  simp only [handleAppendEntries, adoptTermForAppend]
  split_ifs <;> first | rfl | omega

theorem handleAppendEntries_log :
    (n.handleAppendEntries leaderTerm prevLogIndex prevLogTerm entries leaderCommit).1.log =
      if n.accepts leaderTerm prevLogIndex prevLogTerm then
        appendLoop n.log prevLogIndex entries
      else n.log := by
  rw [handleAppendEntries_eq]
  by_cases hacc : n.accepts leaderTerm prevLogIndex prevLogTerm = true
  · rw [if_pos hacc, if_pos hacc]
  · rw [if_neg hacc, if_neg hacc, (n.adoptTermForAppend_frame leaderTerm).1]

theorem handleAppendEntries_commitIndex :
    (n.handleAppendEntries leaderTerm prevLogIndex prevLogTerm entries leaderCommit).1.commitIndex =
      if n.accepts leaderTerm prevLogIndex prevLogTerm ∧ n.commitIndex < leaderCommit then
        min leaderCommit (appendLoop n.log prevLogIndex entries).length
      else n.commitIndex := by
  rw [handleAppendEntries_eq, ite_and]
  split_ifs
  · rfl
  · rfl
  · exact (n.adoptTermForAppend_frame leaderTerm).2

theorem handleAppendEntries_persisted (h : n.Persisted) :
    (n.handleAppendEntries leaderTerm prevLogIndex prevLogTerm entries
      leaderCommit).1.Persisted := by
  rw [Persisted] at h ⊢
  simp only [handleAppendEntries, adoptTermForAppend]
  split_ifs <;> simp_all [StateStore.saveTerm]

/-- The vote is kept even when the term is raised. -/
@[simp] theorem handleAppendEntries_frame :
    let n' :=
      (n.handleAppendEntries leaderTerm prevLogIndex prevLogTerm entries leaderCommit).1
    n'.id = n.id ∧ n'.peers = n.peers ∧ n'.votedFor = n.votedFor ∧
      n'.lastApplied = n.lastApplied ∧ n'.matchIndex = n.matchIndex := by
  simp only [handleAppendEntries, adoptTermForAppend]; split_ifs <;> simp

end AppendEntries

/-- The same member of the cluster later on: it keeps its role unless it has moved to a later term,
where it is a follower. -/
structure Follows (n n' : RaftNode) : Prop where
  id_eq : n'.id = n.id
  peers_eq : n'.peers = n.peers
  term_le : n.currentTerm ≤ n'.currentTerm
  role_eq : n'.currentTerm = n.currentTerm → n'.role = n.role
  role_follower : n.currentTerm < n'.currentTerm → n'.role = .follower

variable {n' : RaftNode}

theorem Follows.of_role_ne {n : RaftNode} (h : n.Follows n') (hr : n'.role ≠ .follower) :
    n'.currentTerm = n.currentTerm ∧ n'.role = n.role := by
  rcases Nat.eq_or_lt_of_le h.term_le with heq | hlt
  · exact ⟨heq.symm, h.role_eq heq.symm⟩
  · exact absurd (h.role_follower hlt) hr

theorem Follows.of_term_eq {n : RaftNode} (hid : n'.id = n.id) (hprs : n'.peers = n.peers)
    (hterm : n'.currentTerm = n.currentTerm) (hrole : n'.role = n.role) : n.Follows n' :=
  ⟨hid, hprs, hterm.ge, fun _ ↦ hrole, fun hlt ↦ absurd hterm (Nat.ne_of_gt hlt)⟩

theorem Follows.refl (n : RaftNode) : n.Follows n := .of_term_eq rfl rfl rfl rfl

theorem Follows.trans {n n'' : RaftNode} (h : n.Follows n') (h' : n'.Follows n'') :
    n.Follows n'' where
  id_eq := h'.id_eq.trans h.id_eq
  peers_eq := h'.peers_eq.trans h.peers_eq
  term_le := h.term_le.trans h'.term_le
  role_eq heq := by
    have hle := h.term_le
    have hle' := h'.term_le
    rw [h'.role_eq (by omega), h.role_eq (by omega)]
  role_follower hlt := by
    rcases Nat.eq_or_lt_of_le h'.term_le with heq | hlt'
    · rw [h'.role_eq heq.symm, h.role_follower (by omega)]
    · exact h'.role_follower hlt'

theorem Follows.of_adopt {n : RaftNode} {term : ℕ} (hid : n'.id = n.id) (hprs : n'.peers = n.peers)
    (hterm : n'.currentTerm = max n.currentTerm term)
    (hrole : n'.role = if n.currentTerm < term then .follower else n.role) : n.Follows n' where
  id_eq := hid
  peers_eq := hprs
  term_le := hterm ▸ le_max_left _ _
  role_eq h := by rw [hrole, if_neg (by omega)]
  role_follower h := by rw [hrole, if_pos (by omega)]

theorem handleRequestVote_follows (candidateTerm : ℕ) (candidateId : NodeId)
    (lastLogIndex lastLogTerm : ℕ) :
    n.Follows (n.handleRequestVote candidateTerm candidateId lastLogIndex lastLogTerm).1 :=
  .of_adopt (by simp) (by simp) (n.handleRequestVote_currentTerm ..) (n.handleRequestVote_role ..)

theorem handleAppendEntries_follows (leaderTerm prevLogIndex prevLogTerm : ℕ)
    (entries : List Entry) (leaderCommit : ℕ) : n.Follows
      (n.handleAppendEntries leaderTerm prevLogIndex prevLogTerm entries leaderCommit).1 :=
  .of_adopt (by simp) (by simp) (n.handleAppendEntries_currentTerm ..)
    (n.handleAppendEntries_role ..)

theorem peers_getElem?_of_position {peer : NodeId} {i : ℕ} (h : n.position peer = some i) :
    n.peers[i]? = some peer := by
  rw [position, List.findIdx?_eq_some_iff_getElem] at h
  obtain ⟨hlt, heq, -⟩ := h
  rw [List.getElem?_eq_getElem hlt, eq_of_beq heq]

/-- The commit loop stops where it started, or at an index whose entry is of the current term and
replicated on a majority. -/
theorem advanceCommit_spec (majority term : ℕ) (matchIndex : List ℕ) (rest : List Entry)
    (idx : ℕ) {r : ℕ} (hr : advanceCommit majority term matchIndex rest idx = r) :
    r = idx ∨ idx < r ∧ r ≤ idx + rest.length ∧
      majority ≤ 1 + matchIndex.countP (fun m ↦ decide (r ≤ m)) ∧
      ∃ e, rest[r - (idx + 1)]? = some e ∧ e.term = term := by
  induction rest generalizing idx with
  | nil => exact .inl hr.symm
  | cons e rest ih =>
    rw [advanceCommit] at hr
    split_ifs at hr with hcond
    · rw [List.length_cons]
      rcases ih (idx + 1) hr with rfl | ⟨hlt, hlen, hmaj, x, hx, hterm⟩
      · exact .inr ⟨by omega, by omega, hcond.1, e, by simp, hcond.2⟩
      · have hsub : r - (idx + 1) = r - (idx + 1 + 1) + 1 := by omega
        exact .inr ⟨by omega, by omega, hmaj, x, by rw [hsub, List.getElem?_cons_succ, hx], hterm⟩
    · exact .inl hr.symm

theorem applyLoop_eq (commitIndex : ℕ) (rest : List Entry) (lastApplied : ℕ)
    (hle : lastApplied ≤ commitIndex) (hlen : commitIndex ≤ lastApplied + rest.length) :
    applyLoop commitIndex rest lastApplied =
      (commitIndex, rest.take (commitIndex - lastApplied)) := by
  induction rest generalizing lastApplied with
  | nil =>
    obtain rfl : lastApplied = commitIndex := le_antisymm hle (by simpa using hlen)
    simp [applyLoop]
  | cons e rest ih =>
    rw [applyLoop]
    split_ifs with hlt
    · rw [ih (lastApplied + 1) hlt (by rw [List.length_cons] at hlen; omega)]
      have hsub : commitIndex - lastApplied = commitIndex - (lastApplied + 1) + 1 := by omega
      rw [hsub, List.take_succ_cons]
    · obtain rfl : lastApplied = commitIndex := by omega
      simp

theorem applyCommitted_eq (hle : n.lastApplied ≤ n.commitIndex)
    (hlen : n.commitIndex ≤ n.log.length) :
    n.applyCommitted = ({ n with lastApplied := n.commitIndex },
      (n.log.drop n.lastApplied).take (n.commitIndex - n.lastApplied)) := by
  rw [applyCommitted, applyLoop_eq _ _ _ hle (by rw [List.length_drop]; omega)]

theorem advanceNext_eq (peer : NodeId) (next : ℕ) :
    ∃ nextIndex, n.advanceNext peer next = { n with nextIndex := nextIndex } := by
  rw [advanceNext]
  split
  · exact ⟨_, rfl⟩
  · exact ⟨n.nextIndex, rfl⟩

end RaftNode

end Synapse
