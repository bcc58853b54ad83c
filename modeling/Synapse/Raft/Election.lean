import Mathlib.Logic.Function.Basic
import Synapse.Lib.Quorum
import Synapse.Lib.Run
import Synapse.Raft.Transport

/-!
# Elections over the TCP transport

`RaftServer::try_elect` as a process: `beginElection` under the node lock, then one `RequestVote`
call per other peer in turn, then `finalizeElection` with the number of granted replies plus one.
Any number of rounds run concurrently; a call may be answered late, answered after the caller has
given up, or never. Replication traffic interleaves freely and with arbitrary arguments.

The request names the *callee* as the candidate, so a voter records its own id and answers yes to
every candidate of the term; and the tally is applied to whatever term the node has reached in the
meantime. `two_leaders_in_one_term` is a run in which two nodes lead the same term.

`Election.Careful` rules out exactly the steps that reach a slip. Under it every voter casts at most
one ballot per term, each leader holds a majority of ballots, and majorities meet.
-/

open Function

namespace Synapse

open Quorum Transition List Option

/-! ## The system -/

/-- The local state of one `try_elect` call. -/
structure Round where
  candidate : NodeId
  term : ℕ
  lastIndex : ℕ
  lastTerm : ℕ
  /-- Peers the loop has still to visit. -/
  todo : List NodeId
  /-- The call whose reply is awaited, as an index into the list of calls. -/
  awaiting : Option ℕ
  votes : ℕ
  finished : Bool

/-- One `RequestVote` call: the round that made it, the callee, and the reply once it is served. -/
structure Call where
  round : ℕ
  peer : NodeId
  reply : Option WireMessage

/-- The request a round sends to `peer`. The candidate id it carries is the id of `peer`. -/
def Round.voteRequest (r : Round) (peer : NodeId) : WireMessage :=
  .requestVote
    { term := r.term
      candidateId := peer
      lastLogIndex := r.lastIndex
      lastLogTerm := r.lastTerm }

def WireMessage.voteGranted : WireMessage → Bool
  | .requestVoteResponse _ granted => granted
  | _ => false

/-- A cluster of servers with the rounds started and the calls made so far. -/
structure Election where
  nodes : NodeId → RaftNode
  rounds : List Round
  calls : List Call

inductive ElectionOp
  | begin (id : NodeId)
  /-- The loop of a round moves to its next peer: itself is skipped, another one is called. -/
  | call (round : ℕ)
  | handle (call : ℕ)
  | reply (round : ℕ)
  /-- The awaited call fails; the request may still be served later. -/
  | lose (round : ℕ)
  | finalize (round : ℕ)
  /-- Replication traffic: a node handles some `AppendEntries`. -/
  | appendEntries (id : NodeId) (m : AppendEntries)
  | propose (id : NodeId) (data : Bytes)

namespace Election

def init (members : List NodeId) : Election where
  nodes id := RaftNode.new id members {}
  rounds := []
  calls := []

def setNode (s : Election) (id : NodeId) (n : RaftNode) : Election :=
  { s with nodes := update s.nodes id n }

def step (s : Election) : ElectionOp → Option Election
  | .begin id =>
    if id ∈ (s.nodes id).peers then
      let (node, lastIndex, lastTerm) := (s.nodes id).beginElection
      some
        { s.setNode id node with
          rounds := s.rounds ++
            [{ candidate := id
               term := node.currentTerm
               lastIndex := lastIndex
               lastTerm := lastTerm
               todo := (s.nodes id).peers
               awaiting := none
               votes := 1
               finished := false }] }
    else none
  | .call r => do
    let round ← s.rounds[r]?
    match round.todo, round.awaiting with
    | peer :: rest, none =>
      if peer = round.candidate then
        some { s with rounds := s.rounds.set r { round with todo := rest } }
      else
        some
          { s with
            rounds := s.rounds.set r
              { round with todo := rest, awaiting := some s.calls.length }
            calls := s.calls ++ [⟨r, peer, none⟩] }
    | _, _ => none
  | .handle k => do
    let call ← s.calls[k]?
    let round ← s.rounds[call.round]?
    let (node, reply) ← (s.nodes call.peer).handlePeer (round.voteRequest call.peer)
    if call.reply = none then
      some
        { s.setNode call.peer node with
          calls := s.calls.set k { call with reply := some reply } }
    else none
  | .reply r => do
    let round ← s.rounds[r]?
    let k ← round.awaiting
    let call ← s.calls[k]?
    let reply ← call.reply
    some
      { s with
        rounds := s.rounds.set r
          { round with
            awaiting := none
            votes := if reply.voteGranted then round.votes + 1 else round.votes } }
  | .lose r => do
    let round ← s.rounds[r]?
    some { s with rounds := s.rounds.set r { round with awaiting := none } }
  | .finalize r => do
    let round ← s.rounds[r]?
    if round.todo = [] ∧ round.awaiting = none ∧ round.finished = false then
      some
        { s.setNode round.candidate
            ((s.nodes round.candidate).finalizeElection round.votes) with
          rounds := s.rounds.set r { round with finished := true } }
    else none
  | .appendEntries id m => do
    let (node, _) ← (s.nodes id).handlePeer (.appendEntries m)
    some (s.setNode id node)
  | .propose id data =>
    if (s.nodes id).role = .leader then
      some (s.setNode id ((s.nodes id).leaderAppend data).1)
    else none

/-- No two members lead in one term. -/
def OneLeaderPerTerm (members : List NodeId) (s : Election) : Prop :=
  ∀ a ∈ members, ∀ b ∈ members, (s.nodes a).role = .leader → (s.nodes b).role = .leader →
    (s.nodes a).currentTerm = (s.nodes b).currentTerm → a = b

instance (members : List NodeId) (s : Election) : Decidable (s.OneLeaderPerTerm members) :=
  inferInstanceAs (Decidable (∀ a ∈ members, ∀ b ∈ members, _))

end Election

/-! ## The condition -/

/-- The vote of the round's term is taken, but the log check would let the node vote again. -/
def RaftNode.votesAgain (n : RaftNode) (r : Round) : Bool :=
  n.currentTerm == r.term && n.votedFor.isSome && n.isLogUpToDate r.lastIndex r.lastTerm

/-- The step reaches neither slip: the callee is not made to vote a second time in the term of the
request, and a winning tally is applied in the term it was collected in. -/
def Election.Careful (s : Election) : ElectionOp → Bool
  | .handle k =>
    (s.calls[k]?).all fun call ↦
      (s.rounds[call.round]?).all fun round ↦ !(s.nodes call.peer).votesAgain round
  | .finalize r =>
    (s.rounds[r]?).all fun round ↦
      decide ((s.nodes round.candidate).majority ≤ round.votes →
        (s.nodes round.candidate).currentTerm = round.term)
  | _ => true

namespace Election

/-! ## The invariant

Ballots are a history: `ballot t v` is the candidate `v` has voted for in term `t`, itself when it
began an election there. -/

/-- The votes `r` may have counted once its loop has visited `visited`: its own, and those of the
others visited that have voted for it. -/
def votesAmong (ballot : ℕ → NodeId → Option NodeId) (r : Round) (visited : List NodeId) : ℕ :=
  visited.countP (fun p ↦ decide (ballot r.term p = some r.candidate) && decide (p ≠ r.candidate))
    + 1

/-- What holds of one round: the loop has visited an initial part of the members, the tally is
covered by the ballots there, and an awaited call is the round's own. -/
structure RoundInv (members : List NodeId) (calls : List Call)
    (ballot : ℕ → NodeId → Option NodeId) (i : ℕ) (r : Round) : Prop where
  candidate_mem : r.candidate ∈ members
  own_ballot : ballot r.term r.candidate = some r.candidate
  tally : ∃ visited, members = visited ++ r.todo ∧ r.votes ≤ votesAmong ballot r visited
  awaited : ∀ k, r.awaiting = some k → ∃ visited call, members = visited ++ call.peer :: r.todo ∧
    r.votes ≤ votesAmong ballot r visited ∧ calls[k]? = some call ∧ call.round = i ∧
    call.peer ≠ r.candidate

structure Inv (members : List NodeId) (s : Election) (ballot : ℕ → NodeId → Option NodeId) :
    Prop where
  id_eq : ∀ v, (s.nodes v).id = v
  peers_eq : ∀ v, (s.nodes v).peers = members
  ballot_le : ∀ ⦃t v c⦄, ballot t v = some c → t ≤ (s.nodes v).currentTerm
  ballot_taken : ∀ v c, ballot (s.nodes v).currentTerm v = some c → (s.nodes v).votedFor ≠ none
  round : ∀ ⦃i r⦄, s.rounds[i]? = some r → RoundInv members s.calls ballot i r
  call_round : ∀ call ∈ s.calls, call.round < s.rounds.length
  granted : ∀ call ∈ s.calls, ∀ m, call.reply = some m → m.voteGranted = true →
    ∀ r, s.rounds[call.round]? = some r → ballot r.term call.peer = some r.candidate
  elected : ∀ v, (s.nodes v).role = .leader →
    Majority members fun p ↦ decide (ballot (s.nodes v).currentTerm p = some v)

theorem inv_init (members : List NodeId) : Inv members (init members) fun _ _ ↦ none where
  id_eq _ := rfl
  peers_eq _ := rfl
  ballot_le := by simp
  ballot_taken := by simp
  round := by simp [init]
  call_round := by simp [init]
  granted := by simp [init]
  elected := by simp [init, RaftNode.new]

/-- Quorum intersection: a leader's majority leaves no room for a second leader of the term. -/
theorem Inv.oneLeaderPerTerm {members : List NodeId} {s : Election}
    {ballot : ℕ → NodeId → Option NodeId} (h : Inv members s ballot) :
    s.OneLeaderPerTerm members := by
  intro a _ b _ ha hb hterm
  obtain ⟨p, -, hpa, hpb⟩ := (h.elected a ha).inter (h.elected b hb)
  rw [decide_eq_true_iff] at hpa hpb
  rw [hterm] at hpa
  exact some.inj (hpa.symm.trans hpb)

section Preservation

variable {members : List NodeId} {s s' : Election} {ballot ballot' : ℕ → NodeId → Option NodeId}

/-- Later ballots never revise earlier ones. -/
def Extends (ballot ballot' : ℕ → NodeId → Option NodeId) : Prop :=
  ∀ t v c, ballot t v = some c → ballot' t v = some c

theorem Extends.refl (ballot : ℕ → NodeId → Option NodeId) : Extends ballot ballot :=
  fun _ _ _ h ↦ h

theorem Extends.votesAmong_le (h : Extends ballot ballot') (r : Round) (visited : List NodeId) :
    votesAmong ballot r visited ≤ votesAmong ballot' r visited := by
  refine Nat.succ_le_succ (countP_mono_left fun p _ hp ↦ ?_)
  rw [Bool.and_eq_true, decide_eq_true_iff] at hp ⊢
  exact ⟨h _ _ _ hp.1, hp.2⟩

variable {c v : NodeId} {i : ℕ} {r : Round} {n : RaftNode}

theorem Extends.majority (h : Extends ballot ballot') {t : ℕ}
    (hmaj : Majority members fun p ↦ decide (ballot t p = some c)) :
    Majority members fun p ↦ decide (ballot' t p = some c) := by
  refine hmaj.mono fun p _ hp ↦ ?_
  rw [decide_eq_true_iff] at hp ⊢
  exact h _ _ _ hp

theorem RoundInv.mono {calls calls' : List Call} (h : RoundInv members calls ballot i r)
    (hext : Extends ballot ballot') (hcl : ∀ (k : ℕ) (call : Call), calls[k]? = some call →
      ∃ call' : Call, calls'[k]? = some call' ∧ call'.round = call.round ∧
        call'.peer = call.peer) : RoundInv members calls' ballot' i r where
  candidate_mem := h.candidate_mem
  own_ballot := hext _ _ _ h.own_ballot
  tally := by
    obtain ⟨visited, hmem, hle⟩ := h.tally
    exact ⟨visited, hmem, hle.trans (hext.votesAmong_le r visited)⟩
  awaited k hk := by
    obtain ⟨visited, call, hmem, hle, hcall, hrd, hne⟩ := h.awaited k hk
    obtain ⟨call', hcall', hrd', hpeer⟩ := hcl k call hcall
    exact ⟨visited, call', hpeer ▸ hmem, hle.trans (hext.votesAmong_le r visited), hcall',
      hrd'.trans hrd, hpeer ▸ hne⟩

/-- Replacing one node, possibly while it casts a ballot: it moves forward, keeps its vote within a
term, and leads only with a majority of ballots. -/
theorem Inv.setNode (h : Inv members s ballot) (hext : Extends ballot ballot')
    (hnew : ∀ t u c, ballot' t u = some c →
      ballot t u = some c ∨ (u = v ∧ t = n.currentTerm ∧ n.votedFor ≠ none))
    (hid : n.id = (s.nodes v).id) (hprs : n.peers = (s.nodes v).peers)
    (hle : (s.nodes v).currentTerm ≤ n.currentTerm)
    (hvote : (s.nodes v).currentTerm = n.currentTerm → (s.nodes v).votedFor ≠ none →
      n.votedFor ≠ none)
    (hrole : n.role = .leader →
      Majority members fun p ↦ decide (ballot' n.currentTerm p = some v)) :
    Inv members (s.setNode v n) ballot' where
  id_eq := (forall_update_iff s.nodes fun u n ↦ n.id = u).mpr
    ⟨hid.trans (h.id_eq v), fun u _ ↦ h.id_eq u⟩
  peers_eq := (forall_update_iff s.nodes fun _ n ↦ n.peers = members).mpr
    ⟨hprs.trans (h.peers_eq v), fun u _ ↦ h.peers_eq u⟩
  ballot_le t := by
    refine (forall_update_iff s.nodes fun u n ↦ ∀ c, ballot' t u = some c → t ≤ n.currentTerm).mpr
      ⟨fun c hb ↦ ?_, fun u hu c hb ↦ ?_⟩
    · rcases hnew t v c hb with hold | ⟨-, rfl, -⟩
      · exact (h.ballot_le hold).trans hle
      · rfl
    · exact h.ballot_le ((hnew t u c hb).resolve_right fun heq ↦ hu heq.1)
  ballot_taken := by
    refine (forall_update_iff s.nodes fun u n ↦ ∀ c, ballot' n.currentTerm u = some c →
      n.votedFor ≠ none).mpr ⟨fun c hb ↦ ?_, fun u hu c hb ↦ ?_⟩
    · rcases hnew _ v c hb with hold | ⟨-, -, hsome⟩
      · -- An old ballot in the new term means that the term has not changed.
        have heq := le_antisymm hle (h.ballot_le hold)
        exact hvote heq (h.ballot_taken v c (heq ▸ hold))
      · exact hsome
    · exact h.ballot_taken u c ((hnew _ u c hb).resolve_right fun heq ↦ hu heq.1)
  round i r hr := (h.round hr).mono hext fun k call hc ↦ ⟨call, hc, rfl, rfl⟩
  call_round := h.call_round
  granted call hmem m hm hg r hr := hext _ _ _ (h.granted call hmem m hm hg r hr)
  elected := (forall_update_iff s.nodes fun u n ↦ n.role = .leader →
    Majority members fun p ↦ decide (ballot' n.currentTerm p = some u)).mpr
      ⟨hrole, fun u _ hu ↦ hext.majority (h.elected u hu)⟩

theorem Inv.setRound (h : Inv members s ballot) {r' : Round} (hr : s.rounds[i]? = some r)
    (hcand : r'.candidate = r.candidate) (hterm : r'.term = r.term)
    (hinv : RoundInv members s.calls ballot i r') :
    Inv members { s with rounds := s.rounds.set i r' } ballot := by
  refine { h with
    round := fun j q hq ↦ ?_
    call_round := fun call hmem ↦ by rw [length_set]; exact h.call_round call hmem
    granted := fun call hmem m hm hg q hq ↦ ?_ }
  · rw [List.getElem?_set] at hq
    split_ifs at hq with hij hlt
    · cases hq
      exact hij ▸ hinv
    · exact h.round hq
  · rw [List.getElem?_set] at hq
    split_ifs at hq with hij hlt
    · cases hq
      rw [hterm, hcand]
      exact h.granted call hmem m hm hg r (hij ▸ hr)
    · exact h.granted call hmem m hm hg q hq

theorem Inv.moveNode (h : Inv members s ballot) (hid : n.id = (s.nodes v).id)
    (hprs : n.peers = (s.nodes v).peers) (hle : (s.nodes v).currentTerm ≤ n.currentTerm)
    (hvote : (s.nodes v).currentTerm = n.currentTerm → (s.nodes v).votedFor ≠ none →
      n.votedFor ≠ none) (hrole : n.role = .leader →
      (s.nodes v).role = .leader ∧ n.currentTerm = (s.nodes v).currentTerm) :
    Inv members (s.setNode v n) ballot := by
  refine h.setNode (Extends.refl ballot) (fun _ _ _ hb ↦ .inl hb) hid hprs hle hvote fun hl ↦ ?_
  rw [(hrole hl).2]
  exact h.elected v (hrole hl).1

theorem Inv.vote (h : Inv members s ballot) (hnone : ballot n.currentTerm v = none)
    (hsome : n.votedFor ≠ none) (hid : n.id = (s.nodes v).id) (hprs : n.peers = (s.nodes v).peers)
    (hle : (s.nodes v).currentTerm ≤ n.currentTerm) (hrole : n.role = .leader →
      (s.nodes v).role = .leader ∧ n.currentTerm = (s.nodes v).currentTerm) :
    Inv members (s.setNode v n) (setAt ballot n.currentTerm v (some c)) := by
  have hext : Extends ballot (setAt ballot n.currentTerm v (some c)) := fun _ _ _ hb ↦
    setAt_of_some (fun _ hc' ↦ nomatch hnone.symm.trans hc') hb
  refine h.setNode hext (fun t u c' hb ↦ ?_) hid hprs hle (fun _ _ ↦ hsome) fun hl ↦ ?_
  · exact (setAt_eq_some hb).imp_right fun ⟨ht, hu, _⟩ ↦ ⟨hu, ht, hsome⟩
  · refine hext.majority ?_
    rw [(hrole hl).2]
    exact h.elected v (hrole hl).1

theorem Inv.pushRound (h : Inv members s ballot)
    (hinv : RoundInv members s.calls ballot s.rounds.length r) :
    Inv members { s with rounds := s.rounds ++ [r] } ballot := by
  refine { h with
    round := fun i q hq ↦ ?_
    call_round := fun call hmem ↦ ?_
    granted := fun call hmem m hm hg q hq ↦ ?_ }
  · rw [List.getElem?_append] at hq
    split_ifs at hq with hlt
    · exact h.round hq
    · rw [List.getElem?_singleton] at hq
      split_ifs at hq with hi
      cases hq
      exact (show s.rounds.length = i by omega) ▸ hinv
  · rw [length_append]
    exact Nat.lt_add_right _ (h.call_round call hmem)
  · rw [List.getElem?_append_left (h.call_round call hmem)] at hq
    exact h.granted call hmem m hm hg q hq

theorem Inv.pushCall (h : Inv members s ballot) (hi : i < s.rounds.length) (peer : NodeId) :
    Inv members { s with calls := s.calls ++ [⟨i, peer, none⟩] } ballot := by
  refine { h with
    round := fun j q hq ↦ (h.round hq).mono (Extends.refl ballot) fun k call hc ↦
      ⟨call, (List.getElem?_append_left (List.getElem?_eq_some_iff.mp hc).1).trans hc, rfl, rfl⟩
    call_round := forall_mem_append.mpr ⟨h.call_round, forall_mem_singleton.mpr hi⟩
    granted := forall_mem_append.mpr ⟨h.granted, forall_mem_singleton.mpr nofun⟩ }

/-- Storing the reply of a call; a granted one must be backed by a ballot. -/
theorem Inv.setReply (h : Inv members s ballot) {k : ℕ} {call : Call} {m : WireMessage}
    (hcall : s.calls[k]? = some call)
    (hback : m.voteGranted = true → ∀ r, s.rounds[call.round]? = some r →
      ballot r.term call.peer = some r.candidate) :
    Inv members { s with calls := s.calls.set k { call with reply := some m } } ballot := by
  refine { h with
    round := fun j q hq ↦ (h.round hq).mono (Extends.refl ballot) fun k' call' hc ↦ ?_
    call_round := fun call' hmem ↦ ?_
    granted := fun call' hmem m' hm hg q hq ↦ ?_ }
  · rw [List.getElem?_set]
    split_ifs with hk hlt
    · obtain rfl : call = call' := some.inj (hcall.symm.trans (hk ▸ hc))
      exact ⟨_, rfl, rfl, rfl⟩
    · exact absurd (List.getElem?_eq_some_iff.mp hcall).1 hlt
    · exact ⟨call', hc, rfl, rfl⟩
  · rcases mem_or_eq_of_mem_set hmem with hmem | rfl
    · exact h.call_round call' hmem
    · exact h.call_round call (mem_of_getElem? hcall)
  · rcases mem_or_eq_of_mem_set hmem with hmem | rfl
    · exact h.granted call' hmem m' hm hg q hq
    · cases hm
      exact hback hg q hq

/-! ### Steps -/

variable (h : Inv members s ballot)

include h

theorem Inv.begin {id : NodeId}
    (hstep : s.step (.begin id) = some s') : ∃ ballot', Inv members s' ballot' := by
  simp only [step, h.peers_eq] at hstep
  split_ifs at hstep with hmem
  cases hstep
  have hnone : ballot ((s.nodes id).currentTerm + 1) id = none := by
    rw [eq_none_iff_forall_not_mem]
    exact fun c hc ↦ Nat.not_succ_le_self _ (h.ballot_le hc)
  have hinv := h.vote (c := id) (n := (s.nodes id).beginElection.1) hnone
    (by simp [RaftNode.beginElection]) rfl rfl (Nat.le_succ _) (by simp [RaftNode.beginElection])
  refine ⟨_, hinv.pushRound ⟨hmem, setAt_self .., ⟨[], rfl, ?_⟩, by simp⟩⟩
  simp [votesAmong]

theorem Inv.call (hstep : s.step (.call i) = some s') : Inv members s' ballot := by
  simp only [step, bind_eq_bind, bind_eq_some_iff] at hstep
  obtain ⟨r, hr, hstep⟩ := hstep
  have hrd := h.round hr
  obtain ⟨visited, hmem, hle⟩ := hrd.tally
  split at hstep
  case h_2 => simp at hstep
  case h_1 peer rest htodo haw =>
    have hsp : members = (visited ++ [peer]) ++ rest := by
      rw [hmem, htodo, append_assoc, singleton_append]
    have hmono : votesAmong ballot r visited ≤ votesAmong ballot r (visited ++ [peer]) := by
      rw [votesAmong, votesAmong, countP_append]
      omega
    split_ifs at hstep with hself
    · cases hstep
      exact h.setRound hr rfl rfl { hrd with
        tally := ⟨visited ++ [peer], hsp, hle.trans hmono⟩
        awaited := by simp [haw] }
    · cases hstep
      have hlt : i < s.rounds.length := (List.getElem?_eq_some_iff.mp hr).1
      refine (h.pushCall hlt peer).setRound hr rfl rfl ⟨hrd.candidate_mem, hrd.own_ballot, ?_, ?_⟩
      · exact ⟨visited ++ [peer], hsp, hle.trans hmono⟩
      · intro k hk
        obtain rfl : s.calls.length = k := some.inj hk
        exact ⟨visited, ⟨i, peer, none⟩, by simpa using hsp, hle, by simp, rfl, hself⟩

theorem Inv.lose (hstep : s.step (.lose i) = some s') : Inv members s' ballot := by
  simp only [step, bind_eq_bind, bind_eq_some_iff] at hstep
  obtain ⟨r, hr, hstep⟩ := hstep
  cases hstep
  have hrd := h.round hr
  exact h.setRound hr rfl rfl { hrd with awaited := by simp }

theorem Inv.reply (hstep : s.step (.reply i) = some s') : Inv members s' ballot := by
  simp only [step, bind_eq_bind, bind_eq_some_iff] at hstep
  obtain ⟨r, hr, k, hk, call, hcall, m, hm, hstep⟩ := hstep
  cases hstep
  have hrd := h.round hr
  obtain ⟨visited, call', hmem, hle, hcall', rfl, hne⟩ := hrd.awaited k hk
  obtain rfl : call = call' := some.inj (hcall.symm.trans hcall')
  refine h.setRound hr rfl rfl ⟨hrd.candidate_mem, hrd.own_ballot, ?_, by simp⟩
  refine ⟨visited ++ [call.peer], by rw [hmem]; simp, ?_⟩
  -- A granted reply is backed by the callee's ballot, which the tally had not counted yet.
  have hct : votesAmong ballot r (visited ++ [call.peer]) = votesAmong ballot r visited +
      if ballot r.term call.peer = some r.candidate then 1 else 0 := by
    rw [votesAmong, votesAmong, countP_append, countP_singleton]
    by_cases hb : ballot r.term call.peer = some r.candidate <;> simp [hb, hne]
  change (if m.voteGranted then r.votes + 1 else r.votes) ≤
    votesAmong ballot r (visited ++ [call.peer])
  rw [hct]
  split_ifs with hg hb hb
  · omega
  · exact absurd (h.granted call (mem_of_getElem? hcall) m hm hg r hr) hb
  · omega
  · omega

/-- Serving a call: when the vote is granted without voting again, it is a first ballot. -/
theorem Inv.handle {k : ℕ} (hok : s.Careful (.handle k) = true)
    (hstep : s.step (.handle k) = some s') : ∃ ballot', Inv members s' ballot' := by
  simp only [step, Round.voteRequest, RaftNode.handlePeer_requestVote, bind_eq_bind,
    bind_eq_some_iff, bind_some] at hstep
  obtain ⟨call, hcall, r, hr, hstep⟩ := hstep
  split_ifs at hstep with hfr
  cases hstep
  simp only [Careful, hcall, hr, all_some, Bool.not_eq_true'] at hok
  set v := s.nodes call.peer with hv
  have hterm := v.handleRequestVote_currentTerm r.term call.peer r.lastIndex r.lastTerm
  have hvote := v.handleRequestVote_votedFor r.term call.peer r.lastIndex r.lastTerm
  have hrole := v.handleRequestVote_role r.term call.peer r.lastIndex r.lastTerm
  set n := (v.handleRequestVote r.term call.peer r.lastIndex r.lastTerm).1 with hn
  have hle : v.currentTerm ≤ n.currentTerm := hterm ▸ le_max_left _ _
  have hlead : n.role = .leader → v.role = .leader ∧ n.currentTerm = v.currentTerm := by
    intro hl
    rw [hrole] at hl
    split_ifs at hl with hlt
    exact ⟨hl, by omega⟩
  have hid : n.id = v.id := by simp [hn]
  have hprs : n.peers = v.peers := by simp [hn]
  by_cases hg : v.grants r.term call.peer r.lastIndex r.lastTerm = true
  · obtain ⟨hcur, hfree, hlog⟩ := (v.grants_iff ..).mp hg
    have hnt : n.currentTerm = r.term := by omega
    have hnone : ballot n.currentTerm call.peer = none := by
      rw [eq_none_iff_forall_not_mem]
      intro c hc
      rw [mem_def, hnt] at hc
      have heq : v.currentTerm = r.term := le_antisymm hcur (h.ballot_le hc)
      have htaken : v.votedFor ≠ none := h.ballot_taken call.peer c (by rw [← hv, heq]; exact hc)
      simp [RaftNode.votesAgain, heq, hlog, htaken] at hok
    rw [if_pos hg] at hvote
    have hinv := h.vote (c := r.candidate) hnone (by simp [hvote]) hid hprs hle hlead
    refine ⟨_, hinv.setReply hcall fun _ q hq ↦ ?_⟩
    obtain rfl : r = q := some.inj (hr.symm.trans hq)
    rw [← hnt]
    exact setAt_self ..
  · refine ⟨ballot, (h.moveNode hid hprs hle (fun heq hne ↦ ?_) hlead).setReply hcall ?_⟩
    · have hsame : v.currentTerm = max v.currentTerm r.term := heq.trans hterm
      rwa [hvote, if_neg hg, if_neg (by omega)]
    · intro hm
      exact absurd hm hg

/-- Applying a tally: a winning one comes with a majority of ballots, the node's own included. -/
theorem Inv.finalize (hok : s.Careful (.finalize i) = true)
    (hstep : s.step (.finalize i) = some s') : Inv members s' ballot := by
  simp only [step, bind_eq_bind, bind_eq_some_iff] at hstep
  obtain ⟨r, hr, hstep⟩ := hstep
  split_ifs at hstep with hdone
  cases hstep
  simp only [Careful, hr, all_some, decide_eq_true_eq] at hok
  have hrd := h.round hr
  set v := s.nodes r.candidate with hv
  have hfin : RoundInv members s.calls ballot i { r with finished := true } := { hrd with }
  by_cases hmaj : v.majority ≤ r.votes
  · obtain ⟨visited, hmem, hle⟩ := hrd.tally
    rw [hdone.1, append_nil] at hmem
    have hquor : Majority members fun p ↦ decide (ballot r.term p = some r.candidate) := by
      rw [RaftNode.majority, hv, h.peers_eq] at hmaj
      refine (hmaj.trans hle).trans ?_
      rw [votesAmong, ← hmem]
      exact succ_countP_ne_le hrd.candidate_mem (decide_eq_true hrd.own_ballot)
    obtain ⟨hid, hprs, hterm, hvote, -⟩ := v.finalizeElection_frame r.votes
    refine (h.setNode (n := v.finalizeElection r.votes) (Extends.refl ballot)
      (fun _ _ _ hb ↦ .inl hb) hid hprs hterm.ge (fun _ hne ↦ ?_)
      fun _ ↦ ?_).setRound hr rfl rfl hfin
    · rwa [hvote]
    · rwa [hterm, hok hmaj]
  · have hsame : v.finalizeElection r.votes = v := by rw [RaftNode.finalizeElection, if_neg hmaj]
    rw [hsame]
    exact (h.moveNode rfl rfl le_rfl (fun _ hne ↦ hne) fun hl ↦ ⟨hl, rfl⟩).setRound hr rfl rfl hfin

theorem Inv.step {op : ElectionOp} (hok : s.Careful op = true)
    (hstep : s.step op = some s') : ∃ ballot', Inv members s' ballot' := by
  cases op with
  | begin id => exact h.begin hstep
  | call i => exact ⟨ballot, h.call hstep⟩
  | handle k => exact h.handle hok hstep
  | reply i => exact ⟨ballot, h.reply hstep⟩
  | lose i => exact ⟨ballot, h.lose hstep⟩
  | finalize i => exact ⟨ballot, h.finalize hok hstep⟩
  | appendEntries id m =>
    simp only [Election.step, RaftNode.handlePeer_appendEntries, bind_eq_bind, bind_some] at hstep
    cases hstep
    have hfol := (s.nodes id).told_follows m
    refine ⟨ballot, h.moveNode hfol.id_eq hfol.peers_eq hfol.term_le (by simp) fun hl ↦ ?_⟩
    obtain ⟨hterm, hrole⟩ := hfol.of_role_ne (by simp [hl])
    exact ⟨hrole ▸ hl, hterm⟩
  | propose id data =>
    simp only [Election.step] at hstep
    split_ifs at hstep with hl
    cases hstep
    exact ⟨ballot, h.moveNode rfl rfl le_rfl (fun _ hne ↦ hne) fun hl' ↦ ⟨hl', rfl⟩⟩

end Preservation

/-! ## Election safety -/

/-- **Election safety of careful runs.** If no voter is made to vote again and every winning tally
is applied in its own term, no two members lead in one term. -/
theorem careful_run_oneLeaderPerTerm {members : List NodeId} {ops : List ElectionOp}
    {s : Election} (hrun : Steps step (fun s op ↦ s.Careful op = true) (init members) ops s) :
    s.OneLeaderPerTerm members := by
  have hinv : ∃ ballot, Inv members s ballot :=
    hrun.invariant (fun s ↦ ∃ ballot, Inv members s ballot)
      (fun _ _ _ ⟨_, h⟩ hok hstep ↦ h.step hok hstep) ⟨_, inv_init members⟩
  exact hinv.elim fun _ h ↦ h.oneLeaderPerTerm

theorem careful_run_three : ∃ s, Steps step (fun s op ↦ s.Careful op = true) (init ["a", "b", "c"])
        [.begin "a", .call 0, .call 0, .handle 0, .reply 0, .call 0, .lose 0, .finalize 0] s ∧
      (s.nodes "a").role = .leader ∧ s.OneLeaderPerTerm ["a", "b", "c"] := by
  refine exists_steps_of_isSome (by decide +kernel) fun hrun ↦ ⟨by decide +kernel, ?_⟩
  exact careful_run_oneLeaderPerTerm hrun

/-- Two concurrent rounds in a cluster of three: every peer votes for both candidates, because each
request carries the callee's own id. -/
theorem two_leaders_in_one_term : ∃ s, Steps step (fun _ _ ↦ True) (init ["a", "b", "c"])
        [.begin "a", .begin "b",
          .call 0, .call 0, .handle 0, .reply 0, .call 0, .handle 1, .reply 0,
          .call 1, .handle 2, .reply 1, .call 1, .call 1, .handle 3, .reply 1,
          .finalize 0, .finalize 1] s ∧
      ¬s.OneLeaderPerTerm ["a", "b", "c"] := by
  exact exists_steps_of_isSome (by decide +kernel) fun _ ↦ by decide +kernel

end Election

end Synapse
